import KernelExperiment.Pipe.Moves

/-! Files of a pipe that are opened while others read, write and sleep. `scull_p_open` puts both
pointers back to the start of the buffer and wakes nobody. -/

namespace KernelExperiment.Pipe.Sleepers.Reopening

open Kernel Runs

inductive Act (P : Type*) where
  | call (a : Sleepers.Act P)
  | opens (allocSize size : Int32) (kmalloc : Option (ℕ → Byte)) (read write : Bool)

variable {P : Type*} [DecidableEq P]

def step (s : Sys P) : Act P → Outcome (Sys P)
  | .call a => s.step a
  | .opens allocSize size kmalloc read write =>
    match s.dev.openSection allocSize size kmalloc read write with
    | .error _ => .ok s
    | .ok dev => .ok { s with dev }

variable {s t u : Sys P} {p r : P} {a : Sleepers.Act P} {call : Call File} {q : WaitQueue}
  {dev dev' : ScullPipe} {acts : List (Act P)}

theorem openSection_empty {allocSize size : Int32} {kmalloc : Option (ℕ → Byte)} {read write : Bool}
    (h : dev.openSection allocSize size kmalloc read write = .ok dev') : dev'.rp = dev'.wp := by
  unfold ScullPipe.openSection at h
  split at h
  · cases h
  · cases h
    rfl

/-! Whoever is about to sleep. -/

/-- What a process has found out, as far as it waits on `q`. -/
def Reason (q : WaitQueue) (s : Sys P) (r : P) : Prop :=
  match s.pc r with
  | .check call rp wp => waitsOn call = q →
      s.queued r = some q ∧ (s.Awaited q ∨ Fresh s.dev rp wp call)
  | .schedule call => waitsOn call = q → s.queued r = some q ∧ s.Awaited q
  | _ => True

def Safe (q : WaitQueue) (s : Sys P) : Prop := ∀ r, s.interruptible r = true → Reason q s r

omit [DecidableEq P] in
theorem Reason.of_same (h : Reason q s r) (hpc : t.pc r = s.pc r) (hqueued : t.queued r = s.queued r)
    (hawaited : s.queued r = some q → s.Awaited q → t.Awaited q)
    (hfresh : s.queued r = some q → ∀ call rp wp, waitsOn call = q → Fresh s.dev rp wp call →
      t.Awaited q ∨ Fresh t.dev rp wp call) : Reason q t r := by
  unfold Reason at h ⊢
  rw [hpc, hqueued]
  split
  case h_1 call rp wp hp =>
    rw [hp] at h
    intro hside
    obtain ⟨hq, hfound⟩ := h hside
    refine ⟨hq, hfound.elim (fun ha => .inl (hawaited hq ha)) (hfresh hq call rp wp hside)⟩
  case h_2 call hp =>
    rw [hp] at h
    intro hside
    obtain ⟨hq, ha⟩ := h hside
    exact ⟨hq, hawaited hq ha⟩
  case h_3 => trivial

/-- A step of somebody else. -/
theorem Reason.other (hr : Reason q s r) (h : s.step a = .ok t) (hne : r ≠ a.process)
    (hint : t.interruptible r = true) : Reason q t r := by
  cases hw : s.wakesUp a with
  | true =>
    obtain ⟨hframe, hdev, call, hp, hqueued⟩ := Sys.step_frame_wakesUp h hne hw hint
    refine hr.of_same hframe.pc hframe.queued (fun hq ha => ?_) fun hq other rp wp _ hf => ?_
    · refine ha.imp ?_ fun hu => ?_
      · rintro ⟨x, c, hx, hc⟩
        refine ⟨x, c, (Sys.step_pc_of_ne h ?_).trans hx, hc⟩
        rintro rfl
        rw [hp, Pc.wakeUp.injEq] at hx
        rw [hx, hc] at hqueued
        exact hqueued hq
      · rwa [hdev]
    · right
      rwa [hdev]
  | false =>
    have hframe := Sys.step_frame h hne hw
    refine hr.of_same hframe.pc hframe.queued (fun _ ha => ha.step hw h) fun _ other rp wp hq hf => ?_
    rcases Sys.step_section h with hdev | ⟨call, fault, hp, hlocked⟩
    · right
      rwa [hdev]
    · cases Sys.locked_effect hlocked with
      | waits _ hdev =>
        right
        rwa [hdev]
      | efault hring => exact .inr (hf.congr hring)
      | done hready hk hpc =>
        by_cases hside : waitsOn call = waitsOn other
        · exact .inr (hf.transfer hready hk hside)
        · refine .inl (.inl ⟨_, call, hpc, ?_⟩)
          rw [← hq]
          exact Sys.waitsOn_eq_wakes (Ne.symm hside)

/-- The places where it matters what a process has found out. -/
def looks : Pc → Bool
  | .check .. => true
  | .schedule _ => true
  | _ => false

theorem reason_goto (u : Sys P) (p : P) {c : Pc} (hc : looks c = false) : Reason q (u.goto p c) p := by
  unfold Reason
  rw [Sys.goto_pc_self]
  cases c with
  | check call rp wp => cases hc
  | schedule call => cases hc
  | _ => trivial

theorem awaited_goto {c : Pc} (hq : s.Awaited q) (hp : ∀ call, s.pc p ≠ .wakeUp call) :
    (s.goto p c).Awaited q :=
  hq.imp (fun hpending => Sys.pending_goto hpending fun call hc => absurd hc (hp call)) id

/-- A pointer more is loaded. -/
theorem Reason.load {rp wp rp' wp' : Option ℕ} (h : Reason q s p) (hp : s.pc p = .check call rp wp)
    (hfresh : Fresh s.dev rp wp call → Fresh s.dev rp' wp' call) :
    Reason q (s.goto p (.check call rp' wp')) p := by
  rw [Reason, hp] at h
  rw [Reason, Sys.goto_pc_self]
  intro hside
  refine (h hside).imp id fun hfound => hfound.imp (fun ha => awaited_goto ha ?_) hfresh
  simp [hp]

theorem Reason.checked {r w : ℕ} {b : Bool} (h : Reason q s p)
    (hp : s.pc p = .check call (some r) (some w))
    (hb : ready { s.dev with rp := r, wp := w } call = some b) : Reason q (s.checked p call b) p := by
  cases b with
  | true => exact reason_goto s p rfl
  | false =>
    have hsleep : Reason q (s.goto p (.schedule call)) p := by
      rw [Reason, hp] at h
      rw [Reason, Sys.goto_pc_self]
      intro hside
      refine (h hside).imp id fun hfound => awaited_goto ?_ (by simp [hp])
      refine hfound.elim id fun hf => .inr ?_
      rw [← hside]
      exact unready_iff.mpr (hf.not_ready hb)
    cases call with
    | read f n =>
      rw [Sys.checked]
      split_ifs
      · exact reason_goto s p rfl
      · exact hsleep
    | write f b => exact hsleep

theorem reason_locked {fault : Option ℕ} (h : s.locked p call fault = .ok t) : Reason q t p := by
  unfold Sys.locked at h
  split at h
  · cases h
  · cases h
    exact reason_goto _ p rfl
  · cases h
    exact reason_goto _ p rfl
  · split_ifs at h
    · cases h
      exact reason_goto _ p rfl
    · cases call <;> cases h <;> exact reason_goto _ p rfl

theorem Reason.proceed {fault : Option ℕ} (hs : s.interruptible p = true → Reason q s p)
    (h : s.proceed p fault = .ok t) (hint : t.interruptible p = true) : Reason q t p := by
  unfold Sys.proceed at h
  split at h
  case h_1 => cases h
  case h_2 => exact reason_locked h
  case h_3 =>
    split at h <;> cases h
    · exact reason_goto s p rfl
    · exact reason_goto s p rfl
  case h_4 => cases h
  case h_5 call _ =>
    cases h
    rw [Reason, Sys.goto_pc_self]
    intro hside
    refine ⟨?_, .inr (fresh_none ..)⟩
    rw [← hside]
    exact Function.update_self ..
  case h_6 call r w hp =>
    split at h
    · cases h
    next b hb =>
      cases h
      have hint' : s.interruptible p = true := by
        cases b with
        | true => exact hint
        | false =>
          cases call with
          | read f n =>
            rw [Sys.checked] at hint
            split_ifs at hint <;> exact hint
          | write f b => exact hint
      exact (hs hint').checked hp hb
  case h_7 => cases h
  case h_8 call _ =>
    split_ifs at h
    cases h
    cases call <;> exact reason_goto _ p rfl
  case h_9 =>
    cases h
    unfold Sys.leave
    dsimp only
    split_ifs
    · exact reason_goto _ p rfl
    · exact reason_goto _ p rfl
  case h_10 =>
    cases h
    exact reason_goto _ p rfl

theorem Reason.own (hs : s.interruptible a.process = true → Reason q s a.process)
    (h : s.step a = .ok t) (hint : t.interruptible a.process = true) : Reason q t a.process := by
  cases a with
  | enter p call =>
    rw [Sys.step] at h
    split_ifs at h
    cases h
    exact reason_goto _ p rfl
  | proceed p fault => exact Reason.proceed hs h hint
  | loadRp p =>
    rw [Sys.step] at h
    split at h
    case h_1 =>
      cases h
      exact reason_goto s p rfl
    case h_2 hp =>
      cases h
      exact (hs hint).load hp Fresh.loadRp
    case h_3 => cases h
  | loadWp p =>
    rw [Sys.step] at h
    split at h
    case h_1 =>
      cases h
      exact reason_goto s p rfl
    case h_2 hp =>
      cases h
      exact (hs hint).load hp Fresh.loadWp
    case h_3 => cases h
  | interrupted p =>
    rw [Sys.step] at h
    split at h
    · split_ifs at h
      cases h
      exact reason_goto s p rfl
    · cases h
  | signal p =>
    cases h
    simp [Sys.running, Sleepers.Act.process] at hint

theorem Safe.act (hs : Safe q s) (h : s.step a = .ok t) : Safe q t := by
  intro r hint
  by_cases hr : r = a.process
  · subst hr
    exact Reason.own (hs _) h hint
  · have hints : s.interruptible r = true := by
      cases hw : s.wakesUp a with
      | true => exact (Sys.step_frame_wakesUp h hr hw hint).1.interruptible.symm.trans hint
      | false => exact (Sys.step_frame h hr hw).interruptible.symm.trans hint
    exact (hs r hints).other h hr hint

/-- Nobody waits on the queue of the writers when a file is opened. -/
def NoWriterWaits (s : Sys P) : Act P → Prop
  | .opens .. => ∀ p, s.interruptible p = true → s.queued p ≠ some .outq
  | .call _ => True

instance [Fintype P] (s : Sys P) (b : Act P) : Decidable (NoWriterWaits s b) := by
  unfold NoWriterWaits
  split <;> infer_instance

theorem Safe.step {b : Act P} (hs : Safe q s) (hb : q = .outq → NoWriterWaits s b)
    (h : step s b = .ok t) : Safe q t := by
  cases b with
  | call a => exact hs.act h
  | opens allocSize size kmalloc read write =>
    rw [Reopening.step] at h
    split at h
    · cases h
      exact hs
    next dev hopen =>
      cases h
      intro r hint
      refine (hs r hint).of_same rfl rfl (fun hq ha => ?_) fun hq call rp wp _ _ => ?_
      · cases q with
        | inq => exact .inr (openSection_empty hopen)
        | outq => exact absurd hq (hb rfl r hint)
      · cases q with
        | inq => exact .inl (.inr (openSection_empty hopen))
        | outq => exact absurd hq (hb rfl r hint)

omit [DecidableEq P] in
theorem safe_idle (dev : ScullPipe) : Safe q (.idle dev : Sys P) := fun _ h => by cases h

omit [DecidableEq P] in
theorem Safe.awaited (hs : Safe q s) (hp : s.asleep p call) (hside : waitsOn call = q) :
    s.Awaited q := by
  have hr := hs p hp.2.1
  rw [Reason, hp.1] at hr
  exact (hr hside).2

/-- However often files are opened, a reader sleeps on an empty pipe or with a wake-up to come. For
a writer that is so while nobody opens a file as a writer waits. -/
theorem asleep_with_reason (he : exec step (.idle dev) acts = .ok s) :
    (∀ p f n, s.asleep p (.read f n) → s.Pending .inq ∨ s.dev.rp = s.dev.wp) ∧
      (Meets step NoWriterWaits (.idle dev) acts →
        ∀ p f buf, s.asleep p (.write f buf) → s.Pending .outq ∨ s.dev.spacefree = some 0) := by
  refine ⟨fun p f n hp => ?_, fun hm p f buf hp => ?_⟩
  · have hs : Safe .inq s :=
      exec_invariant (I := Safe .inq) (fun _ _ _ hs h => hs.step nofun h) (safe_idle dev) he
    exact hs.awaited hp rfl
  · have hs : Safe .outq s :=
      meets_invariant (I := Safe .outq) (fun _ _ _ hs hb h => hs.step (fun _ => hb) h)
        (safe_idle dev) hm he
    exact hs.awaited hp rfl

/-- A file is opened while a reader sleeps, and the reader is woken by a writer, which then sleeps. -/
def openedOnce : List (Act Bool) :=
  (Sys.oneByteRun.take 9).map .call ++ .opens 2 2 none false true ::
    (Sys.oneByteRun.drop 9).map .call

theorem asleep_with_reason_openedOnce : ∃ s, exec step (.idle Sys.oneByte) openedOnce = .ok s ∧
    s.asleep false Sys.writeTwo ∧ (s.Pending .outq ∨ s.dev.spacefree = some 0) := by
  have he : exec step (.idle Sys.oneByte) openedOnce = .ok _ := rfl
  refine ⟨_, he, ⟨rfl, rfl, rfl⟩, ?_⟩
  exact (asleep_with_reason he).2 (by decide) false _ _ ⟨rfl, rfl, rfl⟩

/-! Writers asleep on a pipe that has been emptied. -/

/-- All writes under way sleep, nothing is queued and nobody is about to wake anybody. -/
structure Stranded (s : Sys P) : Prop where
  writers : ∀ p call, (s.pc p).call? = some call → waitsOn call = .outq → s.asleep p call
  noWakeUp : ∀ p, (s.pc p).isWakeUp = false
  empty : s.dev.rp = s.dev.wp

/-- No other write comes, and no signal for the writers. -/
def NoRescue (s : Sys P) : Act P → Prop
  | .call (.enter _ call) => waitsOn call = .inq
  | .call (.signal p) => ∀ call ∈ (s.pc p).call?, waitsOn call = .inq
  | _ => True

instance (s : Sys P) (b : Act P) : Decidable (NoRescue s b) := by
  unfold NoRescue
  split <;> infer_instance

/-- A process that sleeps takes no step. -/
theorem not_process_of_asleep (hp : s.asleep p call) (h : s.step a = .ok t)
    (hsignal : a ≠ .signal p) : p ≠ a.process := by
  obtain ⟨hpc, hint, hpending⟩ := hp
  rintro rfl
  cases a with
  | signal p => exact hsignal rfl
  | proceed p fault =>
    simp only [Sleepers.Act.process] at hpc hint hpending
    simp only [Sys.step, Sys.proceed, hpc, hint, hpending] at h
    rw [if_pos (by decide)] at h
    cases h
  | _ =>
    simp only [Sleepers.Act.process] at hpc
    simp [Sys.step, hpc] at h

theorem Stranded.asleep_of_step (hs : Stranded s) (ha : NoRescue s (.call a)) (h : s.step a = .ok t)
    (hp : s.asleep p call) (hside : waitsOn call = .outq) : p ≠ a.process ∧ t.asleep p call := by
  have hne : p ≠ a.process := by
    refine not_process_of_asleep hp h ?_
    rintro rfl
    have hread := ha call (by rw [hp.1]; rfl)
    rw [hside] at hread
    cases hread
  have hw : s.wakesUp a = false := by
    cases a with
    | proceed r fault => exact hs.noWakeUp r
    | _ => rfl
  have hframe := Sys.step_frame h hne hw
  refine ⟨hne, ?_, ?_, ?_⟩
  · rw [hframe.pc, hp.1]
  · rw [hframe.interruptible, hp.2.1]
  · rw [hframe.signalPending, hp.2.2]

/-- A section is one of a read, which finds nothing. -/
theorem Stranded.sections (hs : Stranded s) {fault : Option ℕ}
    (hp : s.pc p = .downInterruptible call) (h : s.locked p call fault = .ok t) :
    SameRing s.dev t.dev ∧ (t.pc p).isWakeUp = false := by
  have hread : waitsOn call = .inq := by
    cases hside : waitsOn call with
    | inq => rfl
    | outq =>
      have hasleep := hs.writers p call (by rw [hp]; rfl) hside
      cases hp.symm.trans hasleep.1
  cases Sys.locked_effect h with
  | waits _ hdev hpc =>
    rw [hdev]
    exact ⟨.refl _, hpc⟩
  | efault hring hpc =>
    rw [hpc]
    exact ⟨hring, rfl⟩
  | done hready =>
    have hempty : ready s.dev call = some false := unready_iff.mp (hread ▸ hs.empty)
    rw [hready] at hempty
    cases hempty

theorem Stranded.act (hs : Stranded s) (ha : NoRescue s (.call a)) (h : s.step a = .ok t) :
    Stranded t := by
  refine ⟨fun r call hcall hside => ?_, fun r => ?_, ?_⟩
  · have hstep := Sys.step_pcStep h r
    have hold (hc : (s.pc r).call? = some call) : r ≠ a.process ∧ t.asleep r call :=
      hs.asleep_of_step ha h (hs.writers r call hc hside) hside
    generalize hc : s.pc r = c, hc' : t.pc r = c' at hstep hcall hold
    cases hstep with
    | stays => exact (hold hcall).2
    | enters he =>
      rw [he] at ha
      rw [← Option.some.inj hcall, show waitsOn _ = WaitQueue.inq from ha] at hside
      cases hside
    | goesOn hr hcs hcs' =>
      rw [hcs'.symm.trans hcall] at hcs
      exact absurd hr.symm (hold hcs).1
    | returns => cases hcall
  · have hstep := Sys.step_pcStep h r
    have hold := hs.noWakeUp r
    generalize hc : s.pc r = c, hc' : t.pc r = c' at hstep hold
    cases hstep with
    | stays => exact hold
    | enters => rfl
    | returns => rfl
    | goesOn _ _ _ _ hd hup =>
      by_contra hwake
      have hdown := hup.resolve_left hwake
      obtain ⟨fault, rfl⟩ := hd.resolve_left (Bool.not_eq_false _ ▸ hdown)
      cases c with
      | downInterruptible call =>
        have hlocked : s.locked r call fault = .ok t := by
          simpa only [Sys.step, Sys.proceed, hc] using h
        exact hwake (hc' ▸ (hs.sections hc hlocked).2)
      | _ => cases hdown
  · rcases Sys.step_section h with hdev | ⟨call, fault, hp, hlocked⟩
    · rw [hdev]
      exact hs.empty
    · obtain ⟨hring, -⟩ := hs.sections hp hlocked
      rw [hring.rp, hring.wp]
      exact hs.empty

theorem Stranded.step {b : Act P} (hs : Stranded s) (hb : NoRescue s b) (h : step s b = .ok t) :
    Stranded t := by
  cases b with
  | call a => exact hs.act hb h
  | opens allocSize size kmalloc read write =>
    rw [Reopening.step] at h
    split at h
    · cases h
      exact hs
    next hopen =>
      cases h
      exact ⟨hs.writers, hs.noWakeUp, openSection_empty hopen⟩

theorem Stranded.sleepsOn {b : Act P} (hs : Stranded s) (hb : NoRescue s b)
    (h : Reopening.step s b = .ok t) (hp : s.asleep p call) (hside : waitsOn call = .outq) :
    t.asleep p call := by
  cases b with
  | call a => exact (hs.asleep_of_step hb h hp hside).2
  | opens allocSize size kmalloc read write =>
    rw [Reopening.step] at h
    split at h
    · cases h
      exact hp
    · cases h
      exact hp

/-- The writes that slept in `s` still do. -/
def StrandedSince (s t : Sys P) : Prop :=
  Stranded t ∧ ∀ p call, s.asleep p call → waitsOn call = .outq → t.asleep p call

/-- A file is opened while all writers sleep and nobody is about to wake them. Then they sleep on an
empty pipe, for as long as there are only reads and opens: no read ever finds a byte, so none wakes
them. -/
theorem stranded_by_open {allocSize size : Int32} {kmalloc : Option (ℕ → Byte)} {read write : Bool}
    (hwriters : ∀ p call, (s.pc p).call? = some call → waitsOn call = .outq → s.asleep p call)
    (hcalm : ∀ p, (s.pc p).isWakeUp = false) (hbuf : s.dev.buffer.isSome)
    (hopen : step s (.opens allocSize size kmalloc read write) = .ok t)
    (hm : Meets step NoRescue t acts) (he : exec step t acts = .ok u) :
    u.dev.rp = u.dev.wp ∧ (∀ p, (u.pc p).isWakeUp = false) ∧
      ∀ p f buf, s.asleep p (.write f buf) → u.asleep p (.write f buf) := by
  obtain ⟨mem, hmem⟩ := Option.isSome_iff_exists.mp hbuf
  obtain ⟨dev, hdev⟩ : ∃ dev, s.dev.openSection allocSize size kmalloc read write = .ok dev := by
    simp [ScullPipe.openSection, ScullPipe.openBuffer, hmem]
  rw [step, hdev] at hopen
  cases hopen
  have h0 : StrandedSince s { s with dev } :=
    ⟨⟨hwriters, hcalm, openSection_empty hdev⟩, fun _ _ hp _ => hp⟩
  have hu : StrandedSince s u := by
    refine meets_invariant (I := StrandedSince s) (fun x b y hx hb h => ?_) h0 hm he
    exact ⟨hx.1.step hb h, fun p call hp hside => hx.1.sleepsOn hb h (hx.2 p call hp hside) hside⟩
  exact ⟨hu.1.empty, hu.1.noWakeUp, fun p f buf hp => hu.2 p _ hp rfl⟩

/-- A writer sleeps on a full pipe. -/
def sleepingWriter : Sys Bool :=
  { dev := { Sys.oneByte with buffer := some [7, 0], wp := 1 }
    pc := fun p => if p then .outside else .schedule Sys.writeTwo
    interruptible := fun p => !p
    queued := fun p => if p then none else some .outq
    signalPending := fun _ => false }

def emptiedPipe : Sys Bool :=
  { sleepingWriter with dev := { Sys.oneByte with buffer := some [7, 0], nreaders := 2 } }

/-- The reader for whom the file has been opened finds nothing and goes to sleep too. -/
def newReader : List (Act Bool) :=
  [.call (.enter true Sys.readOne), .call (.proceed true none), .call (.loadRp true),
    .call (.loadWp true), .call (.proceed true none), .call (.proceed true none),
    .call (.loadRp true), .call (.loadWp true), .call (.proceed true none)]

theorem stranded_by_open_newReader : ∃ u, exec step emptiedPipe newReader = .ok u ∧
    u.asleep true Sys.readOne ∧ u.asleep false Sys.writeTwo := by
  have hopen : step sleepingWriter (.opens 2 2 none true false) = .ok emptiedPipe := rfl
  have he : exec step emptiedPipe newReader = .ok _ := rfl
  have hwriters : ∀ p call, (sleepingWriter.pc p).call? = some call → waitsOn call = .outq →
      sleepingWriter.asleep p call := by
    rintro (_ | _) call hcall hside
    · cases hcall
      exact ⟨rfl, rfl, rfl⟩
    · cases hcall
  refine ⟨_, he, ⟨rfl, rfl, rfl⟩, ?_⟩
  exact (stranded_by_open hwriters (by decide) rfl hopen (by decide) he).2.2 false _ _
    ⟨rfl, rfl, rfl⟩

end KernelExperiment.Pipe.Sleepers.Reopening
