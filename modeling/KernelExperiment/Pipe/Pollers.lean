import KernelExperiment.Pipe.Moves

/-! Processes that wait in `poll` or `select` beside the blocking readers and writers of a pipe.
`scull_p_poll` puts its caller on both queues and looks at the pointers in one section, and the
flag of `pollwake` stands between a wake-up and the sleep. -/

namespace KernelExperiment.Pipe

open Kernel Runs Sleepers

namespace PollMask

def on (mask : PollMask) : WaitQueue → Bool
  | .inq => mask.readable
  | .outq => mask.writable

/-- `mask &= pollfd->events`. -/
def inter (mask events : PollMask) : PollMask :=
  { readable := mask.readable && events.readable, writable := mask.writable && events.writable }

def isZero (mask : PollMask) : Bool := !mask.readable && !mask.writable

variable {mask events : PollMask} {q : WaitQueue}

theorem on_inter : (mask.inter events).on q = (mask.on q && events.on q) := by
  cases q <;> rfl

theorem isZero_iff : mask.isZero = true ↔ ∀ q, mask.on q = false := by
  constructor
  · intro h q
    simp only [isZero, Bool.and_eq_true, Bool.not_eq_true'] at h
    cases q with
    | inq => exact h.1
    | outq => exact h.2
  · intro h
    simp only [isZero, Bool.and_eq_true, Bool.not_eq_true']
    exact ⟨h .inq, h .outq⟩

end PollMask

namespace Pollers

/-- Where a process is in `do_poll`. -/
inductive Stage where
  | outside
  | poll (events : PollMask)
  | schedule (events : PollMask)
  | woken (events : PollMask)
  deriving DecidableEq

/-- A process with its entries on the two queues, the flag that `pollwake` sets, and whether a signal
or the end of its time has come. The answer is the result of its last call, if that was a poll. -/
structure Poller where
  stage : Stage
  queued : Bool
  triggered : Bool
  expired : Bool
  answer : Option PollMask
  deriving DecidableEq

namespace Poller

def idle : Poller :=
  { stage := .outside, queued := false, triggered := false, expired := false, answer := none }

/-- `poll_initwait`. -/
def enter (events : PollMask) : Poller := { idle with stage := .poll events }

/-- What is done with the mask that `scull_p_poll` has returned. At the end the process is taken off
the queues. -/
def look (r : Poller) (events mask : PollMask) : Poller :=
  if ¬(mask.inter events).isZero then { idle with answer := some (mask.inter events) }
  else if r.expired then idle
  else { r with stage := .schedule events, queued := true }

def pollwake (r : Poller) : Poller := { r with triggered := r.triggered || r.queued }

end Poller

structure Sys (P : Type*) where
  pipe : Sleepers.Sys P
  pollers : P → Poller

inductive Act (P : Type*) where
  | call (a : Sleepers.Act P)
  | enter (p : P) (events : PollMask)
  | proceed (p : P)
  | expire (p : P)

namespace Sys

variable {P : Type*}

def idle (dev : ScullPipe) : Sys P := { pipe := .idle dev, pollers := fun _ => .idle }

variable [DecidableEq P]

def set (s : Sys P) (p : P) (r : Poller) : Sys P :=
  { s with pollers := Function.update s.pollers p r }

/-- What a step of the readers and writers does to the polling processes, which are on both queues. -/
def heard (s : Sys P) (a : Sleepers.Act P) : P → Poller :=
  match a with
  | .enter p _ => Function.update s.pollers p { s.pollers p with answer := none }
  | _ => if s.pipe.wakesUp a then fun p => (s.pollers p).pollwake else s.pollers

def proceed (s : Sys P) (p : P) : Outcome (Sys P) :=
  match (s.pollers p).stage with
  | .outside => .blocked
  | .poll events =>
    match s.pipe.dev.scullPPoll with
    | none => .fault
    | some mask => .ok (s.set p ((s.pollers p).look events mask))
  | .schedule events =>
    if (s.pollers p).triggered ∨ (s.pollers p).expired then
      .ok (s.set p { s.pollers p with stage := .woken events })
    else .blocked
  | .woken events => .ok (s.set p { s.pollers p with stage := .poll events, triggered := false })

/-- A process is in one call at a time. -/
def free (s : Sys P) : Sleepers.Act P → Bool
  | .enter p _ => (s.pollers p).stage = .outside
  | _ => true

def step (s : Sys P) : Act P → Outcome (Sys P)
  | .call a =>
    if s.free a then (s.pipe.step a).map fun pipe => { pipe, pollers := s.heard a } else .blocked
  | .enter p events =>
    if (s.pollers p).stage = .outside ∧ s.pipe.pc p = .outside then .ok (s.set p (.enter events))
    else .blocked
  | .proceed p => s.proceed p
  | .expire p => .ok (s.set p { s.pollers p with expired := true })

omit [DecidableEq P] in
def asleep (s : Sys P) (p : P) (events : PollMask) : Prop :=
  (s.pollers p).stage = .schedule events ∧ (s.pollers p).triggered = false ∧
    (s.pollers p).expired = false

variable {s t : Sys P} {p r : P} {pipe : Sleepers.Sys P} {a : Sleepers.Act P}
  {events mask : PollMask} {q : WaitQueue} {dev : ScullPipe} {n : ℕ}

theorem on_scullPPoll (h : dev.scullPPoll = some mask) : mask.on q = true ↔ ¬Unready dev q := by
  obtain ⟨space, hspace, rfl⟩ := Option.map_eq_some_iff.mp h
  cases q with
  | inq => simp [PollMask.on, Unready]
  | outq => simp [PollMask.on, Unready, hspace]

theorem heard_wake (h : s.pipe.wakesUp a = true) (r : P) :
    s.heard a r = (s.pollers r).pollwake := by
  cases a with
  | enter p call => cases h
  | _ => simp only [heard, h, if_true]

theorem heard_quiet (h : s.pipe.wakesUp a = false) (r : P) :
    ∃ answer, s.heard a r = { s.pollers r with answer } ∧
      (answer = none ∨ answer = (s.pollers r).answer ∧ ∀ call, a ≠ .enter r call) := by
  cases a with
  | enter p call =>
    by_cases hr : r = p
    · refine ⟨none, ?_, .inl rfl⟩
      rw [hr, heard, Function.update_self]
    · refine ⟨(s.pollers r).answer, Function.update_of_ne hr .., .inr ⟨rfl, fun call he => ?_⟩⟩
      cases he
      exact hr rfl
  | _ =>
    refine ⟨(s.pollers r).answer, ?_, .inr ⟨rfl, nofun⟩⟩
    simp only [heard, h, Bool.false_eq_true, if_false]

/-- A process that is about to sleep is on the queues, and has been woken or sleeps with reason. -/
def Alert (pipe : Sleepers.Sys P) (r : Poller) : Prop :=
  ∀ events, r.stage = .schedule events → r.queued = true ∧
    (r.triggered = true ∨ ∀ q, events.on q = true → pipe.Awaited q)

omit [DecidableEq P] in
theorem Alert.of_stage {x : Poller} (h : ∀ events, x.stage ≠ .schedule events) : Alert pipe x :=
  fun events he => absurd he (h events)

omit [DecidableEq P] in
theorem Alert.look {x : Poller} (h : pipe.dev.scullPPoll = some mask) :
    Alert pipe (x.look events mask) := by
  unfold Poller.look
  split_ifs with hzero hexpired
  · exact .of_stage (by simp [Poller.idle])
  · intro asked hasked
    obtain rfl : events = asked := Stage.schedule.inj hasked
    refine ⟨rfl, .inr fun q hq => .inr ?_⟩
    have hoff := PollMask.isZero_iff.mp hzero q
    rw [PollMask.on_inter, hq, Bool.and_true] at hoff
    by_contra hready
    rw [(on_scullPPoll h).mpr hready] at hoff
    cases hoff
  · exact .of_stage (by simp [Poller.idle])

def Watchful (s : Sys P) : Prop := ∀ p, Alert s.pipe (s.pollers p)

theorem Watchful.set (hs : s.Watchful) {x : Poller} (hx : Alert s.pipe x) (p : P) :
    (s.set p x).Watchful :=
  (Function.forall_update_iff s.pollers fun _ x => Alert s.pipe x).mpr ⟨hx, fun r _ => hs r⟩

theorem Watchful.call (hs : s.Watchful) (h : s.pipe.step a = .ok pipe) :
    Watchful { pipe, pollers := s.heard a } := by
  intro r events hr
  dsimp only at hr ⊢
  cases hw : s.pipe.wakesUp a with
  | true =>
    rw [heard_wake hw] at hr ⊢
    have hqueued := (hs r events hr).1
    exact ⟨hqueued, .inl (by rw [Poller.pollwake, hqueued, Bool.or_true])⟩
  | false =>
    obtain ⟨answer, hheard, -⟩ := heard_quiet hw r
    rw [hheard] at hr ⊢
    refine (hs r events hr).imp id fun hwoken => hwoken.imp id fun hawaited q hq => ?_
    exact (hawaited q hq).step hw h

theorem Watchful.proceed (hs : s.Watchful) (h : s.proceed p = .ok t) : t.Watchful := by
  unfold Sys.proceed at h
  split at h
  case h_1 => cases h
  case h_2 events hp =>
    split at h
    · cases h
    next mask hmask =>
      cases h
      exact hs.set (.look hmask) p
  case h_3 events hp =>
    split_ifs at h
    cases h
    exact hs.set (.of_stage (by simp)) p
  case h_4 events hp =>
    cases h
    exact hs.set (.of_stage (by simp)) p

theorem Watchful.step {a : Act P} (hs : s.Watchful) (h : s.step a = .ok t) : t.Watchful := by
  cases a with
  | call a =>
    rw [Sys.step] at h
    split_ifs at h
    obtain ⟨pipe, hpipe, rfl⟩ := Outcome.map_eq_ok.mp h
    exact hs.call hpipe
  | enter p events =>
    rw [Sys.step] at h
    split_ifs at h
    cases h
    exact hs.set (.of_stage (by simp [Poller.enter])) p
  | proceed p => exact hs.proceed h
  | expire p =>
    cases h
    exact hs.set (x := { s.pollers p with expired := true }) (hs p) p

/-- No lost wake-up for `poll` and `select`: a process that sleeps there has nothing to do on any of
the queues that it asks for, or a transfer is followed by its wake-up of that queue. -/
theorem asleep_awaited {acts : List (Act P)} (he : exec step (idle dev) acts = .ok s)
    (hp : s.asleep p events) (hq : events.on q = true) :
    s.pipe.Pending q ∨ Unready s.pipe.dev q := by
  have hs : s.Watchful := exec_invariant (I := Watchful) (fun _ _ _ hs h => hs.step h)
    (fun _ => .of_stage (by simp [idle, Poller.idle])) he
  rcases (hs p events hp.1).2 with htriggered | hawaited
  · rw [hp.2.1] at htriggered
    cases htriggered
  · exact hawaited q hq

/-- A process polls for bytes to read and sleeps, and another one writes a byte. -/
def writtenTo : List (Act Bool) :=
  [.enter true { readable := true, writable := false }, .proceed true,
    .call (.enter false Sleepers.Sys.writeTwo), .call (.proceed false none)]

theorem asleep_awaited_writtenTo : ∃ s, exec step (idle Sleepers.Sys.oneByte) writtenTo = .ok s ∧
    s.asleep true { readable := true, writable := false } ∧
    (s.pipe.Pending .inq ∨ Unready s.pipe.dev .inq) := by
  have he : exec step (idle Sleepers.Sys.oneByte) writtenTo = .ok _ := rfl
  exact ⟨_, he, ⟨rfl, rfl, rfl⟩, asleep_awaited (p := true) he ⟨rfl, rfl, rfl⟩ rfl⟩

/-! What a poll has answered is kept until the next call of its side. -/

/-- On the side of `q` there are only the calls of `p`, each right after a poll that has answered so. -/
def PollsFirst (p : P) (q : WaitQueue) (s : Sys P) : Act P → Prop
  | .call (.enter r call) => waitsOn call = q →
      r = p ∧ ((s.pollers p).answer.any fun mask => mask.on q) = true
  | _ => True

instance (p : P) (q : WaitQueue) (s : Sys P) (a : Act P) : Decidable (PollsFirst p q s a) := by
  unfold PollsFirst
  split <;> infer_instance

/-- A call of the side of `q` has what it needs or has had it. -/
structure Kept (n : ℕ) (p : P) (q : WaitQueue) (s : Sys P) : Prop where
  sound : s.pipe.Sound n
  apart : (s.pollers p).stage ≠ .outside → s.pipe.pc p = .outside
  answered : ((s.pollers p).answer.any fun mask => mask.on q) = true →
    s.pipe.pc p = .outside ∧ ¬Unready s.pipe.dev q
  calls : ∀ r call, (s.pipe.pc r).call? = some call → waitsOn call = q →
    r = p ∧ (s.pipe.pc r = .wakeUp call ∨
      s.pipe.pc r = .downInterruptible call ∧ ¬Unready s.pipe.dev q)

theorem heard_answer {f : PollMask → Bool} (h : ((s.heard a r).answer.any f) = true) :
    ((s.pollers r).answer.any f) = true ∧ ∀ call, a ≠ .enter r call := by
  cases hw : s.pipe.wakesUp a with
  | true =>
    rw [heard_wake hw] at h
    refine ⟨h, ?_⟩
    rintro call rfl
    cases hw
  | false =>
    obtain ⟨answer, hheard, hanswer⟩ := heard_quiet hw r
    rw [hheard] at h
    rcases hanswer with rfl | ⟨rfl, hne⟩
    · cases h
    · exact ⟨h, hne⟩

theorem stays_outside (h : s.pipe.step a = .ok pipe) (hout : s.pipe.pc p = .outside)
    (ha : ∀ call, a ≠ .enter p call) : pipe.pc p = .outside := by
  have hstep := Sleepers.Sys.step_pcStep h p
  rw [hout] at hstep
  generalize pipe.pc p = c at hstep ⊢
  cases hstep with
  | stays => rfl
  | enters he => exact absurd he (ha _)
  | goesOn _ hc => cases hc
  | returns => rfl

theorem heard_stage (s : Sys P) (a : Sleepers.Act P) (r : P) :
    (s.heard a r).stage = (s.pollers r).stage := by
  cases hw : s.pipe.wakesUp a with
  | true => rw [heard_wake hw, Poller.pollwake]
  | false =>
    obtain ⟨answer, hheard, -⟩ := heard_quiet hw r
    rw [hheard]

theorem Kept.call (hs : s.Kept n p q) (hmax : n ≤ 1073741824) (hp : PollsFirst p q s (.call a))
    (hfree : s.free a = true) (h : s.pipe.step a = .ok pipe) :
    Kept n p q { pipe, pollers := s.heard a } := by
  have hkeeps (hq : ¬Unready s.pipe.dev q) : ¬Unready pipe.dev q ∨
      ∃ call, s.pipe.pc p = .downInterruptible call ∧
        (pipe.pc p = .outside ∨ pipe.pc p = .wakeUp call) := by
    refine (Sleepers.Sys.step_ready hs.sound hmax h hq).imp_right ?_
    rintro ⟨call, hdown, hside, hpc⟩
    obtain ⟨rfl, -⟩ := hs.calls a.process call (by rw [hdown]; rfl) hside
    exact ⟨call, hdown, hpc⟩
  refine ⟨(hs.sound.step h).1, fun hstage => ?_, fun hanswer => ?_, fun r call hcall hside => ?_⟩
  · rw [heard_stage] at hstage
    refine stays_outside h (hs.apart hstage) ?_
    rintro call rfl
    exact hstage (of_decide_eq_true hfree)
  · obtain ⟨hanswer, hne⟩ := heard_answer hanswer
    obtain ⟨hout, hq⟩ := hs.answered hanswer
    refine ⟨stays_outside h hout hne, (hkeeps hq).resolve_right ?_⟩
    rintro ⟨call, hdown, -⟩
    cases hout.symm.trans hdown
  · have hstep := Sleepers.Sys.step_pcStep h r
    have hold := hs.calls r call
    dsimp only at hcall ⊢
    generalize hc : s.pipe.pc r = c, hc' : pipe.pc r = c' at hstep hcall hold ⊢
    cases hstep with
    | stays =>
      obtain ⟨rfl, hkept⟩ := hold hcall hside
      refine ⟨rfl, hkept.imp id fun hdown => ⟨hdown.1, (hkeeps hdown.2).resolve_right ?_⟩⟩
      rintro ⟨call', -, hpc⟩
      rw [hc', hdown.1] at hpc
      rcases hpc with hpc | hpc <;> cases hpc
    | enters ha =>
      obtain rfl : _ = call := Option.some.inj hcall
      rw [ha] at hp
      obtain ⟨rfl, hanswer⟩ := hp hside
      obtain ⟨hout, hq⟩ := hs.answered hanswer
      refine ⟨rfl, .inr ⟨rfl, (hkeeps hq).resolve_right ?_⟩⟩
      rintro ⟨call', hdown, -⟩
      cases hout.symm.trans hdown
    | goesOn _ hcs hcs' hw hd _ =>
      rw [hcs'.symm.trans hcall] at hcs
      obtain ⟨rfl, hwake | ⟨hdown, hq⟩⟩ := hold hcs hside
      · rw [hwake] at hw
        cases hw
      · rw [hdown] at hd
        obtain ⟨fault, rfl⟩ := hd.resolve_left Bool.false_ne_true.symm
        have hlocked : s.pipe.locked r call fault = .ok pipe := by
          simpa only [Sleepers.Sys.step, Sleepers.Sys.proceed, hc, hdown] using h
        refine ⟨rfl, .inl ?_⟩
        cases Sleepers.Sys.locked_effect hlocked with
        | waits hwait =>
          rw [← unready_iff, hside] at hwait
          exact absurd hwait hq
        | efault _ hpc =>
          rw [← hc', hpc] at hcall
          cases hcall
        | done _ _ hpc => rw [← hc', hpc]
    | returns => cases hcall

theorem Kept.set (hs : s.Kept n p q) {x : Poller} (r : P)
    (hr : r = p → (x.stage ≠ .outside → s.pipe.pc p = .outside) ∧
      ((x.answer.any fun mask => mask.on q) = true →
        s.pipe.pc p = .outside ∧ ¬Unready s.pipe.dev q)) : Kept n p q (s.set r x) := by
  have hpollers (hne : r ≠ p) : (s.set r x).pollers p = s.pollers p :=
    Function.update_of_ne hne.symm ..
  have hself (he : r = p) : (s.set r x).pollers p = x := by
    rw [← he]
    exact Function.update_self ..
  refine ⟨hs.sound, fun hstage => ?_, fun hanswer => ?_, hs.calls⟩
  · by_cases hrp : r = p
    · rw [hself hrp] at hstage
      exact (hr hrp).1 hstage
    · rw [hpollers hrp] at hstage
      exact hs.apart hstage
  · by_cases hrp : r = p
    · rw [hself hrp] at hanswer
      exact (hr hrp).2 hanswer
    · rw [hpollers hrp] at hanswer
      exact hs.answered hanswer

omit [DecidableEq P] in
/-- A poll promises no more than is there. -/
theorem look_answer {x : Poller} (h : dev.scullPPoll = some mask)
    (hx : ((x.look events mask).answer.any fun mask => mask.on q) = true) :
    x.answer.any (fun mask => mask.on q) = true ∨ ¬Unready dev q := by
  unfold Poller.look at hx
  split_ifs at hx
  · cases hx
  · exact .inl hx
  · right
    rw [Option.any_some, PollMask.on_inter, Bool.and_eq_true] at hx
    exact (on_scullPPoll h).mp hx.1

theorem Kept.proceed (hs : s.Kept n p q) (h : s.proceed r = .ok t) : t.Kept n p q := by
  unfold Sys.proceed at h
  split at h
  case h_1 => cases h
  case h_2 events hp =>
    split at h
    · cases h
    next mask hmask =>
      cases h
      apply hs.set r
      rintro rfl
      have hout := hs.apart (by simp [hp])
      refine ⟨fun _ => hout, fun hanswer => ⟨hout, ?_⟩⟩
      exact (look_answer hmask hanswer).elim (fun hold => (hs.answered hold).2) id
  case h_3 events hp =>
    split_ifs at h
    cases h
    apply hs.set r
    rintro rfl
    exact ⟨fun _ => hs.apart (by simp [hp]), hs.answered⟩
  case h_4 events hp =>
    cases h
    apply hs.set r
    rintro rfl
    exact ⟨fun _ => hs.apart (by simp [hp]), hs.answered⟩

theorem Kept.step {a : Act P} (hs : s.Kept n p q) (hmax : n ≤ 1073741824)
    (hp : PollsFirst p q s a) (h : s.step a = .ok t) : t.Kept n p q := by
  cases a with
  | call a =>
    rw [Sys.step] at h
    split_ifs at h with hfree
    obtain ⟨pipe, hpipe, rfl⟩ := Outcome.map_eq_ok.mp h
    exact hs.call hmax hp hfree hpipe
  | enter r events =>
    rw [Sys.step] at h
    split_ifs at h with hok
    cases h
    apply hs.set r
    rintro rfl
    exact ⟨fun _ => hok.2, nofun⟩
  | proceed r => exact hs.proceed h
  | expire r =>
    cases h
    apply hs.set r
    rintro rfl
    exact ⟨hs.apart, hs.answered⟩

end Sys
end Pollers
end KernelExperiment.Pipe
