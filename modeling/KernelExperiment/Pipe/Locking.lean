import KernelExperiment.Pipe.Sleepers

/-! One call of `scull_p_read` or `scull_p_write`, statement by statement, with the semaphore in view.
While the call does not hold it, other processes may do anything to the device. -/

namespace KernelExperiment.Pipe.Locking
open Kernel Runs Sleepers

/-- Where the call is. The two wait conditions hold what they have loaded of `dev->rp` and
`dev->wp`. -/
inductive Pc where
  | down
  | locked
  | upToWait
  | released
  | waitEvent (rp wp : Option ℕ)
  | prepareToWait
  | check (rp wp : Option ℕ)
  | schedule
  | finishWait (interrupted : Bool)
  | upAfterFault
  | upAfterTransfer (n : ℕ)
  | wakeUp (n : ℕ)
  | returned (r : Except Errno ℕ)

namespace Pc

/-- The next statement is an `up`. -/
def ups : Pc → Bool
  | upToWait | upAfterFault | upAfterTransfer _ => true
  | _ => false

def waitCondition : Pc → Bool
  | waitEvent .. | check .. => true
  | _ => false

/-- Between a `down` that has succeeded and the next `up`. -/
def locks : Pc → Bool
  | locked | upToWait | upAfterFault | upAfterTransfer _ => true
  | _ => false

/-- Where the section under the semaphore goes on. -/
def after : Transfer → Pc
  | .wait => upToWait
  | .efault => upAfterFault
  | .done bytes => upAfterTransfer bytes.length

/-- After a transfer that will return a count. -/
def transferred : Pc → Bool
  | upAfterTransfer _ | wakeUp _ | returned (.ok _) => true
  | _ => false

end Pc

structure Sys where
  dev : ScullPipe
  pc : Pc
  holds : Bool
  signalPending : Bool

/-- `interfere` is whatever other processes do to the device until the call goes on. -/
inductive Act where
  | proceed (fault : Option ℕ)
  | loadRp
  | loadWp
  | interrupted
  | signal
  | interfere (dev : ScullPipe)

def Act.own : Act → Bool
  | .interfere _ => false
  | _ => true

namespace Sys

def start (dev : ScullPipe) (signalPending : Bool) : Sys :=
  { dev, pc := .down, holds := false, signalPending }

def goto (s : Sys) (pc : Pc) : Sys := { s with pc }

def up (s : Sys) (pc : Pc) : Sys := { s with holds := false, pc }

/-- From the test of the loop to the last access of the pointers. -/
def transfer (call : Call File) (s : Sys) (fault : Option ℕ) : Outcome Sys :=
  match call.runSection s.dev fault with
  | none => .fault
  | some (out, dev) => .ok { s with dev, pc := .after out }

/-- The wait of a reader is a `wait_event_interruptible`, which tests before it queues. -/
def beginWait (call : Call File) (s : Sys) : Sys :=
  match call with
  | .read .. => s.goto (.waitEvent none none)
  | .write .. => s.goto .prepareToWait

def checked (call : Call File) (s : Sys) : Bool → Sys
  | true => s.goto (.finishWait false)
  | false =>
    match call with
    | .read .. => if s.signalPending then s.goto (.finishWait true) else s.goto .schedule
    | .write .. => s.goto .schedule

def resume (call : Call File) (s : Sys) : Sys :=
  match call with
  | .read .. => s.goto .prepareToWait
  | .write .. => s.goto (.finishWait false)

def leave (call : Call File) (s : Sys) (interrupted : Bool) : Sys :=
  let gaveUp := match call with
    | .read .. => interrupted
    | .write .. => s.signalPending
  if gaveUp then s.goto (.returned (.error .erestartsys)) else s.goto .down

def proceed (call : Call File) (s : Sys) (fault : Option ℕ) : Outcome Sys :=
  match s.pc with
  | .down => .ok { s with holds := true, pc := .locked }
  | .locked => s.transfer call fault
  | .upToWait => .ok (s.up .released)
  | .released =>
    if call.file.nonblock then .ok (s.goto (.returned (.error .eagain)))
    else .ok (s.beginWait call)
  | .waitEvent (some rp) (some wp) =>
    match ready { s.dev with rp, wp } call with
    | none => .fault
    | some true => .ok (s.goto .down)
    | some false => .ok (s.goto .prepareToWait)
  | .waitEvent .. => .blocked
  | .prepareToWait => .ok (s.goto (.check none none))
  | .check (some rp) (some wp) =>
    match ready { s.dev with rp, wp } call with
    | none => .fault
    | some b => .ok (s.checked call b)
  | .check .. => .blocked
  | .schedule => .ok (s.resume call)
  | .finishWait interrupted => .ok (s.leave call interrupted)
  | .upAfterFault => .ok (s.up (.returned (.error .efault)))
  | .upAfterTransfer n => .ok (s.up (.wakeUp n))
  | .wakeUp n => .ok (s.goto (.returned (.ok n)))
  | .returned _ => .blocked

def step (call : Call File) (s : Sys) : Act → Outcome Sys
  | .proceed fault => s.proceed call fault
  | .loadRp =>
    match s.pc with
    | .waitEvent _ wp => .ok (s.goto (.waitEvent (some s.dev.rp) wp))
    | .check _ wp => .ok (s.goto (.check (some s.dev.rp) wp))
    | _ => .blocked
  | .loadWp =>
    match s.pc with
    | .waitEvent rp _ => .ok (s.goto (.waitEvent rp (some s.dev.wp)))
    | .check rp _ => .ok (s.goto (.check rp (some s.dev.wp)))
    | _ => .blocked
  -- down_interruptible has to wait and returns early
  | .interrupted =>
    match s.pc with
    | .down =>
      if s.signalPending then .ok (s.goto (.returned (.error .erestartsys))) else .blocked
    | _ => .blocked
  | .signal => .ok { s with signalPending := true }
  | .interfere dev => if s.holds then .blocked else .ok { s with dev }

/-- What a step can do. -/
inductive Move (call : Call File) (s : Sys) : Act → Sys → Prop
  | takes {fault} (hpc : s.pc = .down) :
      Move call s (.proceed fault) { s with holds := true, pc := .locked }
  | transfers {fault out dev} (hpc : s.pc = .locked)
      (hrun : call.runSection s.dev fault = some (out, dev)) :
      Move call s (.proceed fault) { s with dev, pc := .after out }
  | ups {fault pc} (hpc : s.pc.ups = true) (hout : pc.locks = false)
      (hdone : s.pc.transferred = true → pc.transferred = true) :
      Move call s (.proceed fault) (s.up pc)
  | goes {a pc} (ha : a.own = true) (hpc : s.pc.locks = false) (hout : pc.locks = false)
      (hdone : s.pc.transferred = true → pc.transferred = true) : Move call s a (s.goto pc)
  | signalled : Move call s .signal { s with signalPending := true }
  | interferes {dev} (hfree : s.holds = false) : Move call s (.interfere dev) { s with dev }

variable {call : Call File} {s t : Sys} {a : Act} {fault : Option ℕ}

/-- A statement outside the section, of a call that has transferred nothing. -/
theorem Move.plain {pc pc' : Pc} (ha : a.own = true) (hpc : s.pc = pc) (hfree : pc.locks = false)
    (hnone : pc.transferred = false) (hout : pc'.locks = false) : Move call s a (s.goto pc') := by
  subst hpc
  exact .goes ha hfree hout fun hdone => by cases hdone.symm.trans hnone

theorem beginWait_goto (call : Call File) (s : Sys) :
    ∃ pc, s.beginWait call = s.goto pc ∧ pc.locks = false := by
  cases call with
  | read f n => exact ⟨_, rfl, rfl⟩
  | write f b => exact ⟨_, rfl, rfl⟩

theorem checked_goto (call : Call File) (s : Sys) (b : Bool) :
    ∃ pc, s.checked call b = s.goto pc ∧ pc.locks = false := by
  cases b with
  | true => exact ⟨_, rfl, rfl⟩
  | false =>
    cases call with
    | read f n =>
      rw [checked]
      split_ifs <;> exact ⟨_, rfl, rfl⟩
    | write f b => exact ⟨_, rfl, rfl⟩

theorem resume_goto (call : Call File) (s : Sys) :
    ∃ pc, s.resume call = s.goto pc ∧ pc.locks = false := by
  cases call with
  | read f n => exact ⟨_, rfl, rfl⟩
  | write f b => exact ⟨_, rfl, rfl⟩

theorem leave_goto (call : Call File) (s : Sys) (b : Bool) :
    ∃ pc, s.leave call b = s.goto pc ∧ pc.locks = false := by
  unfold leave
  dsimp only
  split_ifs <;> exact ⟨_, rfl, rfl⟩

theorem proceed_move (h : s.proceed call fault = .ok t) : Move call s (.proceed fault) t := by
  rw [proceed] at h
  cases hpc : s.pc with
  | down =>
    rw [hpc] at h
    cases h
    exact .takes hpc
  | locked =>
    simp only [hpc, transfer] at h
    cases hrun : call.runSection s.dev fault with
    | none =>
      rw [hrun] at h
      cases h
    | some r =>
      rw [hrun] at h
      cases h
      exact .transfers hpc hrun
  | upToWait =>
    rw [hpc] at h
    cases h
    exact .ups (by rw [hpc]; rfl) rfl (by rw [hpc]; exact fun hno => by cases hno)
  | released =>
    simp only [hpc] at h
    split_ifs at h
    · cases h
      exact .plain rfl hpc rfl rfl rfl
    · obtain ⟨pc, hgoto, hout⟩ := s.beginWait_goto call
      rw [hgoto] at h
      cases h
      exact .plain rfl hpc rfl rfl hout
  | waitEvent rp wp =>
    rcases rp with _ | rp
    · simp only [hpc, reduceCtorEq] at h
    rcases wp with _ | wp
    · simp only [hpc, reduceCtorEq] at h
    simp only [hpc] at h
    rcases hready : ready { s.dev with rp, wp } call with _ | _ | _
    · simp only [hready, reduceCtorEq] at h
    · simp only [hready, Outcome.ok.injEq] at h
      rw [← h]
      exact .plain rfl hpc rfl rfl rfl
    · simp only [hready, Outcome.ok.injEq] at h
      rw [← h]
      exact .plain rfl hpc rfl rfl rfl
  | prepareToWait =>
    rw [hpc] at h
    cases h
    exact .plain rfl hpc rfl rfl rfl
  | check rp wp =>
    rcases rp with _ | rp
    · simp only [hpc, reduceCtorEq] at h
    rcases wp with _ | wp
    · simp only [hpc, reduceCtorEq] at h
    simp only [hpc] at h
    cases hready : ready { s.dev with rp, wp } call with
    | none => simp only [hready, reduceCtorEq] at h
    | some b =>
      obtain ⟨pc, hgoto, hout⟩ := s.checked_goto call b
      simp only [hready, hgoto, Outcome.ok.injEq] at h
      rw [← h]
      exact .plain rfl hpc rfl rfl hout
  | schedule =>
    obtain ⟨pc, hgoto, hout⟩ := s.resume_goto call
    simp only [hpc, hgoto] at h
    cases h
    exact .plain rfl hpc rfl rfl hout
  | finishWait interrupted =>
    obtain ⟨pc, hgoto, hout⟩ := s.leave_goto call interrupted
    simp only [hpc, hgoto] at h
    cases h
    exact .plain rfl hpc rfl rfl hout
  | upAfterFault =>
    rw [hpc] at h
    cases h
    exact .ups (by rw [hpc]; rfl) rfl (by rw [hpc]; exact fun hno => by cases hno)
  | upAfterTransfer n =>
    rw [hpc] at h
    cases h
    exact .ups (by rw [hpc]; rfl) rfl fun _ => rfl
  | wakeUp n =>
    rw [hpc] at h
    cases h
    exact .goes rfl (by rw [hpc]; rfl) rfl fun _ => rfl
  | returned r =>
    rw [hpc] at h
    cases h

theorem step_move (h : s.step call a = .ok t) : Move call s a t := by
  cases a with
  | proceed fault => exact proceed_move h
  | loadRp =>
    simp only [step] at h
    cases hpc : s.pc <;> simp only [hpc, reduceCtorEq, Outcome.ok.injEq] at h
    all_goals
      rw [← h]
      exact .plain rfl hpc rfl rfl rfl
  | loadWp =>
    simp only [step] at h
    cases hpc : s.pc <;> simp only [hpc, reduceCtorEq, Outcome.ok.injEq] at h
    all_goals
      rw [← h]
      exact .plain rfl hpc rfl rfl rfl
  | interrupted =>
    simp only [step] at h
    cases hpc : s.pc <;> simp only [hpc, reduceCtorEq] at h
    split_ifs at h
    cases h
    exact .plain rfl hpc rfl rfl rfl
  | signal =>
    cases h
    exact .signalled
  | interfere dev =>
    simp only [step] at h
    split_ifs at h with hholds
    cases h
    exact .interferes (Bool.eq_false_iff.mpr hholds)

/-! The semaphore. -/

theorem after_locks (out : Transfer) : (Pc.after out).locks = true := by
  cases out <;> rfl

/-- The call holds the semaphore from a `down` that has succeeded to the next `up`. -/
theorem holds_step (h : s.holds = s.pc.locks) (hs : s.step call a = .ok t) :
    t.holds = t.pc.locks := by
  cases step_move hs with
  | takes hpc => rfl
  | transfers hpc hrun =>
    rw [hpc] at h
    exact h.trans (after_locks _).symm
  | ups hpc hout => exact hout.symm
  | goes ha hpc hout => exact (h.trans hpc).trans hout.symm
  | signalled => exact h
  | interferes => exact h

/-- Without the semaphore the call changes nothing of the device. -/
theorem dev_step (h : s.holds = s.pc.locks) (hfree : s.holds = false) (ha : a.own = true)
    (hs : s.step call a = .ok t) : t.dev = s.dev := by
  cases step_move hs with
  | takes hpc => rfl
  | transfers hpc hrun =>
    rw [hfree, hpc] at h
    cases h
  | ups => rfl
  | goes => rfl
  | signalled => rfl
  | interferes => cases ha

/-- Outside the section and the wait conditions the device makes no difference to the call. -/
theorem step_withDev (hfree : s.pc.locks = false) (hcond : s.pc.waitCondition = false)
    (ha : a.own = true) (dev : ScullPipe) :
    ({ s with dev } : Sys).step call a = (s.step call a).map fun t => { t with dev } := by
  obtain ⟨dev₀, pc, holds, signalPending⟩ := s
  cases a with
  | interfere dev' => cases ha
  | signal => rfl
  | loadRp =>
    cases pc with
    | waitEvent => cases hcond
    | check => cases hcond
    | _ => rfl
  | loadWp =>
    cases pc with
    | waitEvent => cases hcond
    | check => cases hcond
    | _ => rfl
  | interrupted =>
    cases pc with
    | down =>
      simp only [step]
      split_ifs <;> rfl
    | _ => rfl
  | proceed fault =>
    cases pc with
    | locked => cases hfree
    | waitEvent => cases hcond
    | check => cases hcond
    | released =>
      simp only [step, proceed]
      split_ifs
      · rfl
      · cases call <;> rfl
    | schedule => cases call <;> rfl
    | finishWait interrupted =>
      simp only [step, proceed, leave, Outcome.map_ok]
      split_ifs <;> rfl
    | _ => rfl

/-! The queue. -/

/-- The pointers and the bytes between them are as they were. -/
structure SameQueue (dev dev' : ScullPipe) : Prop where
  rp : dev'.rp = dev.rp
  wp : dev'.wp = dev.wp
  queue : dev'.queue = dev.queue

theorem SameQueue.refl (dev : ScullPipe) : SameQueue dev dev := ⟨rfl, rfl, rfl⟩

/-- What a write copies stays in front of the read position. -/
theorem writeCount_free {dev : ScullPipe} (space : Int) (count : ℕ) (hlt : dev.wp < dev.rp) :
    dev.wp + dev.writeCount space count < dev.rp := by
  have hroom := sizeT_le ((dev.rp : Int) - dev.wp - 1)
  unfold ScullPipe.writeCount
  rw [if_neg (Nat.not_le.mpr hlt)]
  omega

theorem queue_of_stored {dev : ScullPipe} {mem mem' buf : List Byte} {space : Int}
    (hmem : dev.buffer = some mem)
    (hwrite : Region.writeRange mem dev.wp
      (copiedIn (buf.take (dev.writeCount space buf.length)) fault) = some mem') :
    ({ dev with buffer := some mem' } : ScullPipe).queue = dev.queue := by
  have hle := (dev.writeCount_le space buf.length).1
  obtain ⟨hfit, rfl⟩ := Region.writeRange_eq_some.mp hwrite
  simp only [ScullPipe.queue, hmem]
  apply Ring.content_splice hfit
  intro hlt
  rw [length_copiedIn, List.length_take, Nat.min_eq_left hle]
  exact writeCount_free space buf.length hlt

/-- A section that does not end in a transfer leaves the queue alone, whatever the device. -/
theorem runSection_queue {dev dev' : ScullPipe} {out : Transfer}
    (h : call.runSection dev fault = some (out, dev')) :
    SameQueue dev dev' ∨ ∃ bytes, out = .done bytes := by
  cases Call.runSection_ends h with
  | empty => exact .inl (.refl dev)
  | readFaults => exact .inl (.refl dev)
  | readDone => exact .inr ⟨_, rfl⟩
  | full => exact .inl (.refl dev)
  | writeFaults _ _ hmem hwrite => exact .inl ⟨rfl, rfl, queue_of_stored hmem hwrite⟩
  | writeDone => exact .inr ⟨_, rfl⟩

/-- An own step leaves the queue alone unless it is the transfer that the call will return. -/
theorem queue_step (ha : a.own = true) (hs : s.step call a = .ok t) :
    SameQueue s.dev t.dev ∨ t.pc.transferred = true := by
  cases step_move hs with
  | takes => exact .inl (.refl _)
  | transfers hpc hrun =>
    rcases runSection_queue hrun with hsame | ⟨bytes, rfl⟩
    · exact .inl hsame
    · exact .inr rfl
  | ups => exact .inl (.refl _)
  | goes => exact .inl (.refl _)
  | signalled => exact .inl (.refl _)
  | interferes => cases ha

/-- After a transfer the call returns its count. -/
theorem transferred_step (hdone : s.pc.transferred = true) (hs : s.step call a = .ok t) :
    t.pc.transferred = true := by
  cases step_move hs with
  | takes hpc =>
    rw [hpc] at hdone
    cases hdone
  | transfers hpc =>
    rw [hpc] at hdone
    cases hdone
  | ups hpc hout hkeep => exact hkeep hdone
  | goes ha hpc hout hkeep => exact hkeep hdone
  | signalled => exact hdone
  | interferes => exact hdone

/-- The section that is one step of a waiting process is `down`, transfer and `up` here. -/
theorem section_steps {dev dev' : ScullPipe} {out : Transfer}
    (h : call.runSection dev fault = some (out, dev')) (signalPending : Bool) :
    ∃ t, exec (step call) (start dev signalPending)
      [.proceed none, .proceed fault, .proceed none] = .ok t ∧ t.dev = dev' ∧ t.holds = false := by
  have htransfer : ({ start dev signalPending with holds := true, pc := .locked } : Sys).step call
      (.proceed fault) = .ok ⟨dev', .after out, true, signalPending⟩ := by
    simp only [step, proceed, transfer, start, h]
  rw [exec_cons_ok rfl, exec_cons_ok htransfer]
  cases out <;> exact ⟨_, rfl, rfl, rfl⟩

end Sys

/-- The call ups the semaphore only while it holds it, has given it back when it returns, and without
it changes nothing and looks at the device in a wait condition only. -/
structure Disciplined (call : Call File) (s : Sys) : Prop where
  ups : s.pc.ups = true → s.holds = true
  returned : ∀ r, s.pc = .returned r → s.holds = false
  writes : s.holds = false → ∀ a, a.own = true → ∀ t, s.step call a = .ok t → t.dev = s.dev
  reads : s.holds = false → s.pc.waitCondition = false → ∀ a, a.own = true → ∀ dev,
    ({ s with dev } : Sys).step call a = (s.step call a).map fun t => { t with dev }

theorem disciplined_of_holds {call : Call File} {s : Sys} (h : s.holds = s.pc.locks) :
    Disciplined call s := by
  refine ⟨fun hups => ?_, fun r hpc => ?_, fun hfree a ha t hs => Sys.dev_step h hfree ha hs,
    fun hfree hcond a ha dev => Sys.step_withDev (h ▸ hfree) hcond ha dev⟩
  · rw [h]
    cases hpc : s.pc <;> rw [hpc] at hups <;> first | rfl | cases hups
  · rw [h, hpc]
    rfl

/-- Whatever other processes do while the call does not hold the semaphore, and whatever signals and
faults come its way: the call keeps to the discipline, and if it returns an error none of its own
steps has changed the queue. -/
theorem call_disciplined (call : Call File) (dev : ScullPipe) (signalPending : Bool)
    (acts : List Act) :
    Always (Sys.step call) (Disciplined call) (Sys.start dev signalPending) acts ∧
      ∀ t e, exec (Sys.step call) (Sys.start dev signalPending) acts = .ok t →
        t.pc = .returned (.error e) →
        Meets (Sys.step call)
          (fun s a => a.own = true → ∀ t, s.step call a = .ok t → Sys.SameQueue s.dev t.dev)
          (Sys.start dev signalPending) acts := by
  constructor
  · have hall : Meets (Sys.step call) (fun _ _ => True) (Sys.start dev signalPending) acts :=
      Meets.of_forall fun _ _ _ => trivial
    exact meets_always (I := fun s => s.holds = s.pc.locks)
      (fun _ _ _ h _ hs => Sys.holds_step h hs) (fun _ h => disciplined_of_holds h) rfl hall
  · intro t e he hpc
    apply meets_of_last (P := fun s => s.pc.transferred = true) _
      (fun _ _ _ h hs => Sys.transferred_step h hs) he (by rw [hpc]; exact Bool.false_ne_true)
    intro s a t' hs
    rcases em (t'.pc.transferred = true) with hdone | hnone
    · exact .inr hdone
    · refine .inl fun ha u hu => ?_
      cases hs.symm.trans hu
      exact (Sys.queue_step ha hs).resolve_right hnone

end KernelExperiment.Pipe.Locking
