import KernelExperiment.Pipe.System

/-! Blocking readers and writers of an open pipe device and their two wait queues. A section under
the device semaphore is one step; the loads of the unlocked checks, the moves on and off a queue, the
sleep and the wake-up are steps of their own. -/

namespace KernelExperiment.Pipe.Sleepers
open Kernel Runs

inductive WaitQueue where
  | inq
  | outq
  deriving DecidableEq, Repr

/-- Where a process is. The two checks hold what they have loaded of `dev->rp` and `dev->wp`. -/
inductive Pc where
  | outside
  | downInterruptible (call : Call File)
  | waitEvent (call : Call File) (rp wp : Option ℕ)
  | prepareToWait (call : Call File)
  | check (call : Call File) (rp wp : Option ℕ)
  | schedule (call : Call File)
  | finishWait (call : Call File) (interrupted : Bool)
  | wakeUp (call : Call File)
  deriving DecidableEq

/-- A process in an interruptible state sleeps when it gets to `schedule` without a signal. -/
structure Sys (P : Type*) where
  dev : ScullPipe
  pc : P → Pc
  interruptible : P → Bool
  queued : P → Option WaitQueue
  signalPending : P → Bool

inductive Act (P : Type*) where
  | enter (p : P) (call : Call File)
  | proceed (p : P) (fault : Option ℕ)
  | loadRp (p : P)
  | loadWp (p : P)
  | interrupted (p : P)
  | signal (p : P)

/-- The queue on which a call waits. -/
def waitsOn : Call File → WaitQueue
  | .read .. => .inq
  | .write .. => .outq

/-- The queue that a call wakes after its transfer. -/
def wakes : Call File → WaitQueue
  | .read .. => .outq
  | .write .. => .inq

/-- The condition for which a call waits. -/
def ready (dev : ScullPipe) : Call File → Option Bool
  | .read .. => some (dev.rp ≠ dev.wp)
  | .write .. => dev.spacefree.map (· ≠ 0)

namespace Sys

variable {P : Type*}

def idle (dev : ScullPipe) : Sys P :=
  { dev, pc := fun _ => .outside, interruptible := fun _ => false, queued := fun _ => none,
    signalPending := fun _ => false }

variable [DecidableEq P]

def goto (s : Sys P) (p : P) (c : Pc) : Sys P := { s with pc := Function.update s.pc p c }

def prepareToWait (s : Sys P) (p : P) (q : WaitQueue) : Sys P :=
  { s with
    queued := Function.update s.queued p (some q)
    interruptible := Function.update s.interruptible p true }

def finishWait (s : Sys P) (p : P) : Sys P :=
  { s with
    queued := Function.update s.queued p none
    interruptible := Function.update s.interruptible p false }

def running (s : Sys P) (p : P) : Sys P :=
  { s with interruptible := Function.update s.interruptible p false }

omit [DecidableEq P] in
def Woken (s : Sys P) (q : WaitQueue) (p : P) : Prop :=
  s.queued p = some q ∧ s.interruptible p = true

instance (s : Sys P) (q : WaitQueue) (p : P) : Decidable (s.Woken q p) :=
  inferInstanceAs (Decidable (_ ∧ _))

/-- Whoever is woken is runnable again and off the queue. -/
def wakeUpInterruptible (s : Sys P) (q : WaitQueue) : Sys P :=
  { s with
    queued := fun p => if s.Woken q p then none else s.queued p
    interruptible := fun p => if s.Woken q p then false else s.interruptible p }

/-- `scull_p_read` and `scull_p_write` after `down_interruptible`, up to the next `up`. -/
def locked (s : Sys P) (p : P) (call : Call File) (fault : Option ℕ) : Outcome (Sys P) :=
  match call.runSection s.dev fault with
  | none => .fault
  | some (.done _, dev) => .ok ({ s with dev }.goto p (.wakeUp call))
  | some (.efault, dev) => .ok ({ s with dev }.goto p .outside)
  | some (.wait, dev) =>
    if call.file.nonblock then .ok ({ s with dev }.goto p .outside)
    else
      match call with
      | .read .. => .ok ({ s with dev }.goto p (.waitEvent call none none))
      | .write .. => .ok ({ s with dev }.goto p (.prepareToWait call))

/-- What a process does when it has checked the condition on the queue. -/
def checked (s : Sys P) (p : P) (call : Call File) : Bool → Sys P
  | true => s.goto p (.finishWait call false)
  | false =>
    match call with
    | .read .. =>
      if s.signalPending p then s.goto p (.finishWait call true) else s.goto p (.schedule call)
    | .write .. => s.goto p (.schedule call)

/-- The return of `schedule`. A reader is in the loop of `wait_event_interruptible`. -/
def resume (s : Sys P) (p : P) (call : Call File) : Sys P :=
  match call with
  | .read .. => (s.running p).goto p (.prepareToWait call)
  | .write .. => (s.running p).goto p (.finishWait call false)

def leave (s : Sys P) (p : P) (call : Call File) (interrupted : Bool) : Sys P :=
  let gaveUp := match call with
    | .read .. => interrupted
    | .write .. => s.signalPending p
  (s.finishWait p).goto p (if gaveUp then .outside else .downInterruptible call)

def proceed (s : Sys P) (p : P) (fault : Option ℕ) : Outcome (Sys P) :=
  match s.pc p with
  | .outside => .blocked
  | .downInterruptible call => s.locked p call fault
  | .waitEvent call (some rp) (some wp) =>
    match ready { s.dev with rp, wp } call with
    | none => .fault
    | some true => .ok (s.goto p (.downInterruptible call))
    | some false => .ok (s.goto p (.prepareToWait call))
  | .waitEvent .. => .blocked
  | .prepareToWait call =>
    .ok ((s.prepareToWait p (waitsOn call)).goto p (.check call none none))
  | .check call (some rp) (some wp) =>
    match ready { s.dev with rp, wp } call with
    | none => .fault
    | some b => .ok (s.checked p call b)
  | .check .. => .blocked
  | .schedule call =>
    if s.interruptible p ∧ ¬s.signalPending p then .blocked else .ok (s.resume p call)
  | .finishWait call interrupted => .ok (s.leave p call interrupted)
  | .wakeUp call => .ok ((s.wakeUpInterruptible (wakes call)).goto p .outside)

/-- Signals are delivered on the way back to user mode, so a call starts with none pending. -/
def step (s : Sys P) : Act P → Outcome (Sys P)
  | .enter p call =>
    if s.pc p = .outside ∧ call.permitted call.file then
      .ok ({ s with signalPending := Function.update s.signalPending p false }.goto p
        (.downInterruptible call))
    else .blocked
  | .proceed p fault => s.proceed p fault
  | .loadRp p =>
    match s.pc p with
    | .waitEvent call _ wp => .ok (s.goto p (.waitEvent call (some s.dev.rp) wp))
    | .check call _ wp => .ok (s.goto p (.check call (some s.dev.rp) wp))
    | _ => .blocked
  | .loadWp p =>
    match s.pc p with
    | .waitEvent call rp _ => .ok (s.goto p (.waitEvent call rp (some s.dev.wp)))
    | .check call rp _ => .ok (s.goto p (.check call rp (some s.dev.wp)))
    | _ => .blocked
  -- down_interruptible has to wait and returns early
  | .interrupted p =>
    match s.pc p with
    | .downInterruptible _ => if s.signalPending p then .ok (s.goto p .outside) else .blocked
    | _ => .blocked
  | .signal p =>
    .ok { s.running p with signalPending := Function.update s.signalPending p true }

def asleep (s : Sys P) (p : P) (call : Call File) : Prop :=
  s.pc p = .schedule call ∧ s.interruptible p = true ∧ s.signalPending p = false

end Sys

/-! A condition depends on the pointers and the size alone. -/

structure SameRing (dev dev' : ScullPipe) : Prop where
  rp : dev'.rp = dev.rp
  wp : dev'.wp = dev.wp
  size : dev'.buffersize = dev.buffersize

/-- A transfer moves the pointer of its own side. -/
structure Kept (call : Call File) (dev dev' : ScullPipe) : Prop where
  rp : waitsOn call = .outq → dev'.rp = dev.rp
  wp : waitsOn call = .inq → dev'.wp = dev.wp
  size : dev'.buffersize = dev.buffersize

inductive Section (dev : ScullPipe) (call : Call File) : Transfer → ScullPipe → Prop
  | wait (h : ready dev call = some false) : Section dev call .wait dev
  | efault {dev'} (h : SameRing dev dev') : Section dev call .efault dev'
  | done {bytes dev'} (h : ready dev call = some true) (hk : Kept call dev dev') :
      Section dev call (.done bytes) dev'

variable {dev dev' : ScullPipe} {call : Call File} {rp wp : Option ℕ} {out : Transfer}
  {fault : Option ℕ}

theorem SameRing.refl (dev : ScullPipe) : SameRing dev dev := ⟨rfl, rfl, rfl⟩

theorem spacefree_congr (h : SameRing dev dev') : dev'.spacefree = dev.spacefree := by
  unfold ScullPipe.spacefree
  rw [h.rp, h.wp, h.size]

theorem spacefree_setWp (hrp : dev'.rp = dev.rp) (hsize : dev'.buffersize = dev.buffersize)
    (w : ℕ) :
    ({ dev' with wp := w } : ScullPipe).spacefree = ({ dev with wp := w } : ScullPipe).spacefree :=
  spacefree_congr ⟨hrp, rfl, hsize⟩

theorem ready_congr (h : SameRing dev dev') : ready dev' call = ready dev call := by
  cases call with
  | read f n => rw [ready, ready, h.rp, h.wp]
  | write f b => rw [ready, ready, spacefree_congr h]

theorem section_of_run (h : call.runSection dev fault = some (out, dev')) :
    Section dev call out dev' := by
  cases Call.runSection_ends h with
  | empty hempty => exact .wait (by simp [ready, hempty])
  | readFaults => exact .efault (.refl dev)
  | readDone hne => exact .done (by simp [ready, hne]) ⟨(fun h => by cases h), fun _ => rfl, rfl⟩
  | full hspace => exact .wait (by simp [ready, hspace])
  | writeFaults => exact .efault ⟨rfl, rfl, rfl⟩
  | writeDone hspace hne =>
    exact .done (by simp [ready, hspace, hne]) ⟨fun _ => rfl, (fun h => by cases h), rfl⟩

/-- What the loads of an unlocked check are worth while nobody has moved the pointer of the other
side. -/
def Fresh (dev : ScullPipe) (rp wp : Option ℕ) : Call File → Prop
  | .read .. => (∀ w ∈ wp, w = dev.wp) ∧ ∀ r ∈ rp, r = dev.rp ∨ r ≠ dev.wp
  | .write .. => (∀ r ∈ rp, r = dev.rp) ∧
      ∀ w ∈ wp, w = dev.wp ∨ ({ dev with wp := w } : ScullPipe).spacefree ≠ some 0

theorem fresh_none (dev : ScullPipe) (call : Call File) : Fresh dev none none call := by
  cases call <;> simp [Fresh]

theorem Fresh.loadRp (h : Fresh dev rp wp call) : Fresh dev (some dev.rp) wp call := by
  cases call with
  | read f n => exact ⟨h.1, by simp⟩
  | write f b => exact ⟨by simp, h.2⟩

theorem Fresh.loadWp (h : Fresh dev rp wp call) : Fresh dev rp (some dev.wp) call := by
  cases call with
  | read f n => exact ⟨by simp, h.2⟩
  | write f b => exact ⟨h.1, by simp⟩

theorem Fresh.congr (h : Fresh dev rp wp call) (hd : SameRing dev dev') :
    Fresh dev' rp wp call := by
  cases call with
  | read f n =>
    rw [Fresh, hd.rp, hd.wp]
    exact h
  | write f b =>
    refine ⟨fun r hr => (h.1 r hr).trans hd.rp.symm, fun w hw => ?_⟩
    rw [hd.wp, spacefree_setWp hd.rp hd.size]
    exact h.2 w hw

/-- A transfer of the own side leaves an unlocked check either up to date or about to succeed. -/
theorem Fresh.transfer {other : Call File} (h : Fresh dev rp wp call)
    (hready : ready dev other = some true) (hk : Kept other dev dev')
    (hside : waitsOn other = waitsOn call) : Fresh dev' rp wp call := by
  cases call with
  | read f n =>
    cases other with
    | write f b => cases hside
    | read f' n' =>
      have hne : dev.rp ≠ dev.wp := by simpa [ready] using hready
      have hwp := hk.wp rfl
      refine ⟨fun w hw => (h.1 w hw).trans hwp.symm, fun r hr => Or.inr ?_⟩
      rw [hwp]
      rcases h.2 r hr with he | he
      · rw [he]
        exact hne
      · exact he
  | write f b =>
    cases other with
    | read f n => cases hside
    | write f' b' =>
      have hne : dev.spacefree ≠ some 0 := by
        intro hzero
        simp [ready, hzero] at hready
      have hrp := hk.rp rfl
      refine ⟨fun r hr => (h.1 r hr).trans hrp.symm, fun w hw => Or.inr ?_⟩
      rw [spacefree_setWp hrp hk.size]
      rcases h.2 w hw with he | he
      · rw [he]
        exact hne
      · exact he

/-- A check that fails on such loads is right. -/
theorem Fresh.not_ready {r w : ℕ} (h : Fresh dev (some r) (some w) call)
    (hc : ready { dev with rp := r, wp := w } call = some false) : ready dev call = some false := by
  cases call with
  | read f n =>
    have hrw : r = w := by simpa [ready] using hc
    have hw : w = dev.wp := h.1 w rfl
    have hr : r = dev.rp := (h.2 r rfl).resolve_right (not_not.mpr (hrw.trans hw))
    simp [ready, ← hr, ← hw, hrw]
  | write f b =>
    have hr : r = dev.rp := h.1 r rfl
    have hw : w = dev.wp := by
      apply (h.2 w rfl).resolve_right
      intro hne
      simp only [ready, hr, Option.map_eq_some_iff] at hc
      obtain ⟨space, hs, hz⟩ := hc
      simp_all
    rw [← hc, hr, hw]

namespace Sys

variable {P : Type*} {s t : Sys P} {p : P} {q : WaitQueue}

/-- Somebody has finished a transfer and is about to wake the queue. -/
def Pending (s : Sys P) (q : WaitQueue) : Prop := ∃ p c, s.pc p = .wakeUp c ∧ wakes c = q

/-- What there is to say of a process in an interruptible state. -/
def Guarded (s : Sys P) (p : P) : Prop :=
  match s.pc p with
  | .check call rp wp => s.queued p = some (waitsOn call) ∧
      (s.Pending (waitsOn call) ∨ Fresh s.dev rp wp call)
  | .schedule call => s.queued p = some (waitsOn call) ∧
      (s.Pending (waitsOn call) ∨ ready s.dev call = some false)
  | _ => True

def Safe (s : Sys P) : Prop := ∀ p, s.interruptible p = true → s.Guarded p

/-- The queue and pointers stay, and `p` alone moves, not away from a wake-up. -/
structure Quiet (s t : Sys P) (p : P) : Prop where
  dev : SameRing s.dev t.dev
  pc : ∀ r, r ≠ p → t.pc r = s.pc r
  queued : ∀ r, r ≠ p → t.queued r = s.queued r
  interruptible : ∀ r, r ≠ p → t.interruptible r = s.interruptible r
  notWake : ∀ c, s.pc p ≠ .wakeUp c

theorem Quiet.pending (h : Quiet s t p) (hq : s.Pending q) : t.Pending q := by
  obtain ⟨r, c, hr, hc⟩ := hq
  have hne : r ≠ p := by
    rintro rfl
    exact h.notWake c hr
  exact ⟨r, c, (h.pc r hne).trans hr, hc⟩

/-- A process that does not move stays guarded when what it has found out stays true or a wake-up is
to come. -/
theorem Guarded.of_same (hg : s.Guarded p) (hpc : t.pc p = s.pc p)
    (hqueued : t.queued p = s.queued p)
    (hpending : ∀ q, s.queued p = some q → s.Pending q → t.Pending q)
    (hfresh : ∀ call rp wp, Fresh s.dev rp wp call →
      t.Pending (waitsOn call) ∨ Fresh t.dev rp wp call)
    (hready : ∀ call, ready s.dev call = some false →
      t.Pending (waitsOn call) ∨ ready t.dev call = some false) : t.Guarded p := by
  unfold Guarded at hg ⊢
  rw [hpc, hqueued]
  split
  case h_1 call rp wp hp =>
    rw [hp] at hg
    exact ⟨hg.1, hg.2.elim (fun h => .inl (hpending _ hg.1 h)) (hfresh call rp wp)⟩
  case h_2 call hp =>
    rw [hp] at hg
    exact ⟨hg.1, hg.2.elim (fun h => .inl (hpending _ hg.1 h)) (hready call)⟩
  case h_3 => trivial

theorem Safe.quiet (hs : s.Safe) (h : Quiet s t p) (hown : t.interruptible p = true → t.Guarded p) :
    t.Safe := by
  intro r hr
  by_cases hrp : r = p
  · rw [hrp] at hr ⊢
    exact hown hr
  · rw [h.interruptible r hrp] at hr
    refine (hs r hr).of_same (h.pc r hrp) (h.queued r hrp) (fun q _ hq => h.pending hq) ?_ ?_
    · exact fun call rp wp hf => .inr (hf.congr h.dev)
    · exact fun call hf => .inr ((ready_congr h.dev).trans hf)

variable [DecidableEq P]

theorem goto_pc_self (s : Sys P) (p : P) (c : Pc) : (s.goto p c).pc p = c :=
  Function.update_self ..

theorem goto_pc_of_ne (s : Sys P) {p r : P} (c : Pc) (h : r ≠ p) : (s.goto p c).pc r = s.pc r :=
  Function.update_of_ne h ..

theorem pending_goto {c : Pc} (hq : s.Pending q)
    (hp : ∀ call, s.pc p = .wakeUp call → wakes call ≠ q) :
    (s.goto p c).Pending q := by
  obtain ⟨r, call, hr, hc⟩ := hq
  have hne : r ≠ p := by
    rintro rfl
    exact hp call hr hc
  exact ⟨r, call, (goto_pc_of_ne s c hne).trans hr, hc⟩

theorem ready_side {other : Call File} (h : waitsOn call = waitsOn other) :
    ready dev call = ready dev other := by
  cases call <;> cases other <;> first | rfl | cases h

theorem waitsOn_eq_wakes {other : Call File} (h : waitsOn other ≠ waitsOn call) :
    wakes call = waitsOn other := by
  cases call <;> cases other <;> first | rfl | exact absurd rfl h

/-- Behind a transfer the other side has a wake-up to come, and the own side waits on with reason. -/
theorem Safe.transfer (hs : s.Safe) (hp : s.pc p = .downInterruptible call)
    (hready : ready s.dev call = some true) (hk : Kept call s.dev dev') :
    ({ s with dev := dev' }.goto p (.wakeUp call)).Safe := by
  have hwake : ({ s with dev := dev' }.goto p (.wakeUp call)).Pending (wakes call) :=
    ⟨p, call, goto_pc_self .., rfl⟩
  intro r hr
  by_cases hrp : r = p
  · simp [Guarded, hrp, goto_pc_self]
  · refine (hs r hr).of_same (goto_pc_of_ne _ _ hrp) rfl (fun q _ hq => ?_) ?_ ?_
    · refine pending_goto (s := { s with dev := dev' }) hq fun c hc => ?_
      cases hp.symm.trans hc
    · intro other rp wp hf
      by_cases hside : waitsOn other = waitsOn call
      · exact .inr (hf.transfer hready hk hside.symm)
      · exact .inl (waitsOn_eq_wakes hside ▸ hwake)
    · intro other hf
      by_cases hside : waitsOn other = waitsOn call
      · rw [ready_side hside, hready] at hf
        cases hf
      · exact .inl (waitsOn_eq_wakes hside ▸ hwake)

theorem Safe.wakeUp (hs : s.Safe) (hp : s.pc p = .wakeUp call) :
    ((s.wakeUpInterruptible (wakes call)).goto p .outside).Safe := by
  intro r hr
  by_cases hrp : r = p
  · simp [Guarded, hrp, goto_pc_self]
  · by_cases hwoken : s.Woken (wakes call) r
    · simp [goto, wakeUpInterruptible, hwoken] at hr
    · have hint : s.interruptible r = true := by
        simpa [goto, wakeUpInterruptible, hwoken] using hr
      refine (hs r hint).of_same (goto_pc_of_ne _ _ hrp) (if_neg hwoken) (fun q hr hq => ?_) ?_ ?_
      · refine pending_goto (s := s.wakeUpInterruptible (wakes call)) hq fun c hc hcq => ?_
        cases hp.symm.trans hc
        exact hwoken ⟨hcq ▸ hr, hint⟩
      · exact fun _ _ _ hf => .inr hf
      · exact fun _ hf => .inr hf

theorem Quiet.goto (u : Sys P) (h : ∀ call, s.pc p ≠ .wakeUp call) (hdev : SameRing s.dev u.dev)
    (hpc : u.pc = s.pc) (hqueued : ∀ r, r ≠ p → u.queued r = s.queued r)
    (hint : ∀ r, r ≠ p → u.interruptible r = s.interruptible r) (c : Pc) :
    Quiet s (u.goto p c) p where
  dev := hdev
  pc r hr := by rw [goto_pc_of_ne _ _ hr, hpc]
  queued := hqueued
  interruptible := hint
  notWake := h

/-- A move to a place where no check is under way and no sleep ahead. -/
theorem guarded_goto (u : Sys P) (p : P) {c : Pc} (h : ∀ call rp wp, c ≠ .check call rp wp)
    (h' : ∀ call, c ≠ .schedule call) : (u.goto p c).Guarded p := by
  unfold Guarded
  rw [goto_pc_self]
  cases c with
  | check call rp wp => exact absurd rfl (h call rp wp)
  | schedule call => exact absurd rfl (h' call)
  | _ => trivial

/-- A process goes on with what it has found out so far. -/
theorem Safe.goOn (hs : s.Safe) (h : ∀ call, s.pc p ≠ .wakeUp call) {c : Pc}
    (hc : s.Guarded p → (s.goto p c).Guarded p) : (s.goto p c).Safe :=
  hs.quiet (.goto s h (.refl _) rfl (fun _ _ => rfl) (fun _ _ => rfl) c) fun hint => hc (hs p hint)

theorem Safe.move (hs : s.Safe) (h : ∀ call, s.pc p ≠ .wakeUp call) {c : Pc}
    (hc : ∀ call rp wp, c ≠ .check call rp wp) (hc' : ∀ call, c ≠ .schedule call) :
    (s.goto p c).Safe :=
  hs.goOn h fun _ => guarded_goto s p hc hc'

theorem Safe.locked (hs : s.Safe) (hp : s.pc p = .downInterruptible call) {fault : Option ℕ}
    (h : s.locked p call fault = .ok t) : t.Safe := by
  have hnw : ∀ c, s.pc p ≠ .wakeUp c := by simp [hp]
  unfold Sys.locked at h
  cases hrun : call.runSection s.dev fault with
  | none =>
    rw [hrun] at h
    cases h
  | some r =>
    obtain ⟨out, dev⟩ := r
    rw [hrun] at h
    cases section_of_run hrun with
    | wait hready =>
      dsimp only at h
      split_ifs at h
      · cases h
        exact hs.move hnw nofun nofun
      · cases call with
        | read f n =>
          cases h
          exact hs.move hnw nofun nofun
        | write f b =>
          cases h
          exact hs.move hnw nofun nofun
    | efault hd =>
      cases h
      refine hs.quiet (.goto { s with dev } hnw hd rfl (fun _ _ => rfl) (fun _ _ => rfl) _) ?_
      exact fun _ => guarded_goto _ p nofun nofun
    | done hready hk =>
      cases h
      exact hs.transfer hp hready hk

/-- A pointer is loaded for the condition of the loop. -/
theorem Safe.load (hs : s.Safe) {rp wp rp' wp' : Option ℕ} (hp : s.pc p = .check call rp wp)
    (hfresh : Fresh s.dev rp wp call → Fresh s.dev rp' wp' call) :
    (s.goto p (.check call rp' wp')).Safe := by
  have hnw : ∀ c, s.pc p ≠ .wakeUp c := by simp [hp]
  refine hs.goOn hnw fun hg => ?_
  rw [Guarded, hp] at hg
  rw [Guarded, goto_pc_self]
  refine ⟨hg.1, hg.2.imp (fun hq => pending_goto hq ?_) hfresh⟩
  exact fun c hc => absurd hc (hnw c)

theorem Safe.checked (hs : s.Safe) {r w : ℕ} {b : Bool}
    (hp : s.pc p = .check call (some r) (some w))
    (hb : ready { s.dev with rp := r, wp := w } call = some b) : (s.checked p call b).Safe := by
  have hnw : ∀ c, s.pc p ≠ .wakeUp c := by simp [hp]
  cases b with
  | true => exact hs.move hnw nofun nofun
  | false =>
    have hsleep : (s.goto p (.schedule call)).Safe := by
      refine hs.goOn hnw fun hg => ?_
      rw [Guarded, hp] at hg
      rw [Guarded, goto_pc_self]
      refine ⟨hg.1, hg.2.imp (fun hq => pending_goto hq ?_) fun hf => hf.not_ready hb⟩
      exact fun c hc => absurd hc (hnw c)
    cases call with
    | read f n =>
      rw [Sys.checked]
      split_ifs
      · exact hs.move hnw nofun nofun
      · exact hsleep
    | write f b => exact hsleep

theorem Safe.proceed (hs : s.Safe) {fault : Option ℕ} (h : s.proceed p fault = .ok t) :
    t.Safe := by
  unfold Sys.proceed at h
  split at h
  case h_1 => cases h
  case h_2 call hp => exact hs.locked hp h
  case h_3 call r w hp =>
    have hnw : ∀ c, s.pc p ≠ .wakeUp c := by simp [hp]
    split at h <;> cases h
    · exact hs.move hnw nofun nofun
    · exact hs.move hnw nofun nofun
  case h_4 => cases h
  case h_5 call hp =>
    have hnw : ∀ c, s.pc p ≠ .wakeUp c := by simp [hp]
    cases h
    refine hs.quiet (.goto (s.prepareToWait p (waitsOn call)) hnw (.refl _) rfl (fun r hr => ?_)
      (fun r hr => ?_) _) fun _ => ?_
    · exact Function.update_of_ne hr ..
    · exact Function.update_of_ne hr ..
    · rw [Guarded, goto_pc_self]
      exact ⟨Function.update_self .., .inr (fresh_none ..)⟩
  case h_6 call r w hp =>
    split at h
    · cases h
    next hb =>
      cases h
      exact hs.checked hp hb
  case h_7 => cases h
  case h_8 call hp =>
    have hnw : ∀ c, s.pc p ≠ .wakeUp c := by simp [hp]
    have hwakes : ∀ c, (∀ call rp wp, c ≠ .check call rp wp) → (∀ call, c ≠ .schedule call) →
        ((s.running p).goto p c).Safe := by
      intro c hc hc'
      refine hs.quiet (.goto (s.running p) hnw (.refl _) rfl (fun _ _ => rfl) (fun r hr => ?_) _)
        fun _ => ?_
      · exact Function.update_of_ne hr ..
      · exact guarded_goto _ p hc hc'
    split_ifs at h
    cases h
    cases call with
    | read f n => exact hwakes _ nofun nofun
    | write f b => exact hwakes _ nofun nofun
  case h_9 call interrupted hp =>
    have hnw : ∀ c, s.pc p ≠ .wakeUp c := by simp [hp]
    cases h
    refine hs.quiet (.goto (s.finishWait p) hnw (.refl _) rfl (fun r hr => ?_) (fun r hr => ?_) _)
      fun _ => ?_
    · exact Function.update_of_ne hr ..
    · exact Function.update_of_ne hr ..
    · exact guarded_goto _ p (by split_ifs <;> nofun) (by split_ifs <;> nofun)
  case h_10 call hp =>
    cases h
    exact hs.wakeUp hp

theorem Safe.step {a : Act P} (hs : s.Safe) (h : s.step a = .ok t) : t.Safe := by
  cases a with
  | enter p call =>
    rw [Sys.step] at h
    split_ifs at h with hok
    cases h
    have hnw : ∀ c, s.pc p ≠ .wakeUp c := by simp [hok.1]
    refine hs.quiet (.goto { s with signalPending := Function.update s.signalPending p false } hnw
      (.refl _) rfl (fun _ _ => rfl) (fun _ _ => rfl) _) fun _ => ?_
    exact guarded_goto _ p nofun nofun
  | proceed p fault => exact hs.proceed h
  | loadRp p =>
    rw [Sys.step] at h
    split at h
    case h_1 call rp wp hp =>
      cases h
      exact hs.move (by simp [hp]) nofun nofun
    case h_2 call rp wp hp =>
      cases h
      exact hs.load hp Fresh.loadRp
    case h_3 => cases h
  | loadWp p =>
    rw [Sys.step] at h
    split at h
    case h_1 call rp wp hp =>
      cases h
      exact hs.move (by simp [hp]) nofun nofun
    case h_2 call rp wp hp =>
      cases h
      exact hs.load hp Fresh.loadWp
    case h_3 => cases h
  | interrupted p =>
    rw [Sys.step] at h
    split at h
    case h_1 call hp =>
      split_ifs at h
      cases h
      exact hs.move (by simp [hp]) nofun nofun
    case h_2 => cases h
  | signal p =>
    cases h
    intro r hr
    have hne : r ≠ p := by
      rintro rfl
      simp [running] at hr
    have hint : s.interruptible r = true := by simpa [running, hne] using hr
    exact (hs r hint).of_same rfl rfl (fun _ _ hq => hq) (fun _ _ _ hf => .inr hf)
      fun _ hf => .inr hf

theorem safe_of_exec {acts : List (Act P)} (he : exec step (idle dev) acts = .ok s) : s.Safe :=
  exec_invariant (I := Safe) (fun _ _ _ hs h => hs.step h) (fun _ h => by cases h) he

/-- No lost wake-up: with no transfer between its `up` and its wake-up, a reader sleeps on an empty
pipe only and a writer on a full one only. -/
theorem noLostWakeup {acts : List (Act P)} (he : exec step (idle dev) acts = .ok s)
    (hwake : ∀ p call, s.pc p ≠ .wakeUp call) :
    (∀ p f n, s.asleep p (.read f n) → s.dev.rp = s.dev.wp) ∧
      ∀ p f b, s.asleep p (.write f b) → s.dev.spacefree = some 0 := by
  have hready {p : P} {call : Call File} (h : s.asleep p call) : ready s.dev call = some false := by
    have hg := safe_of_exec he p h.2.1
    rw [Guarded, h.1] at hg
    apply hg.2.resolve_left
    rintro ⟨r, c, hr, -⟩
    exact hwake r c hr
  refine ⟨fun p f n h => ?_, fun p f b h => ?_⟩
  · simpa [ready] using hready h
  · simpa [ready] using hready h

/-- A buffer that holds one byte: a reader sleeps until it is written, then a writer sleeps. -/
def oneByte : ScullPipe :=
  { buffer := some [0, 0], bufferEnd := 2, buffersize := 2, rp := 0, wp := 0, nreaders := 1,
    nwriters := 1 }

def readOne : Call File := .read { read := true, write := false, nonblock := false } 1

def writeTwo : Call File := .write { read := false, write := true, nonblock := false } [7, 8]

def oneByteRun : List (Act Bool) :=
  [.enter true readOne, .proceed true none, .loadRp true, .loadWp true, .proceed true none,
    .proceed true none, .loadWp true, .loadRp true, .proceed true none,
    .enter false writeTwo, .proceed false none, .proceed false none,
    .enter false writeTwo, .proceed false none, .proceed false none, .loadRp false, .loadWp false,
    .proceed false none]

theorem noLostWakeup_oneByte : ∃ s, exec step (idle oneByte) oneByteRun = .ok s ∧
    s.asleep false writeTwo ∧ s.dev.spacefree = some 0 := by
  have he : exec step (idle oneByte) oneByteRun = .ok _ := rfl
  refine ⟨_, he, ⟨rfl, rfl, rfl⟩, (noLostWakeup he ?_).2 false _ [7, 8] ⟨rfl, rfl, rfl⟩⟩
  intro p call h
  cases p <;> cases h

end Sys
end KernelExperiment.Pipe.Sleepers
