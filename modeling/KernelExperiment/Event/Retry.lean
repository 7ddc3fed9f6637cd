import KernelExperiment.Kernel.Abi
import KernelExperiment.Lib.Population
import KernelExperiment.Lib.Runs

/-! The other semaphore, of `sys_myevent_wait` and `sys_myevent_signal`: a wait decrements an atomic
counter, takes the decrement back when the result is negative, sleeps and tries again. -/

namespace KernelExperiment.Event.Retry
open Kernel Population Runs

variable {P : Type*}

inductive Pc where
  | outside
  | decReturn
  | takeBack
  | prepareToWait
  | schedule
  | signalInc
  | signalWake
  deriving DecidableEq, Repr

/-- Between a decrement with a negative result and the increment that takes it back. -/
def Pc.midway : Pc → Bool
  | takeBack => true
  | _ => false

/-- One event. `queued` are the processes on its wait queue that have not been woken. The code does
not count the waits that have returned and the increments made by signals. -/
structure Sys (P : Type*) where
  num : Int
  queued : P → Bool
  pc : P → Pc
  completed : ℕ
  signals : ℕ

/-- `interrupt` is a signal to a sleeping process. -/
inductive Act (P : Type*) where
  | wait (p : P)
  | signal (p : P)
  | proceed (p : P)
  | interrupt (p : P)

def atomicInc (num : Int) : Int := toLong (num + 1)

def atomicDecReturn (num : Int) : Int := toLong (num - 1)

namespace Sys

def initial : Sys P :=
  { num := 1, queued := fun _ => false, pc := fun _ => .outside, completed := 0, signals := 0 }

variable [DecidableEq P]

def goto (s : Sys P) (p : P) (c : Pc) : Sys P := { s with pc := Function.update s.pc p c }

def proceed (s : Sys P) (p : P) : Outcome (Sys P) :=
  match s.pc p with
  | .outside => .blocked
  | .decReturn =>
    let num := atomicDecReturn s.num
    if num < 0 then .ok ({ s with num }.goto p .takeBack)
    else .ok ({ s with num, completed := s.completed + 1 }.goto p .outside)
  | .takeBack => .ok ({ s with num := atomicInc s.num }.goto p .prepareToWait)
  | .prepareToWait =>
    .ok ({ s with queued := Function.update s.queued p true }.goto p .schedule)
  -- asleep until it is taken off the queue
  | .schedule => if s.queued p then .blocked else .ok (s.goto p .decReturn)
  | .signalInc =>
    .ok ({ s with num := atomicInc s.num, signals := s.signals + 1 }.goto p .signalWake)
  | .signalWake => .ok ({ s with queued := fun _ => false }.goto p .outside)

def step (s : Sys P) : Act P → Outcome (Sys P)
  | .wait p => if s.pc p = .outside then .ok (s.goto p .decReturn) else .blocked
  | .signal p => if s.pc p = .outside then .ok (s.goto p .signalInc) else .blocked
  | .proceed p => s.proceed p
  | .interrupt p =>
    if s.pc p = .schedule then .ok { s with queued := Function.update s.queued p false }
    else .blocked

end Sys

/-! Every unit is in `num`, has been taken by a wait that returned, or is out on loan to a wait that
will put it back. -/

variable [Fintype P]

/-- The units that should be in `num`. -/
def permits (s : Sys P) : Int := 1 + s.signals - s.completed - num Pc.midway s.pc

/-- What a step does to the units. -/
inductive Flow (s t : Sys P) : Prop
  | keep (hn : t.num = s.num) (hs : t.signals = s.signals) (hc : t.completed = s.completed)
      (hm : num Pc.midway t.pc = num Pc.midway s.pc)
  | enter (hpos : 0 ≤ atomicDecReturn s.num) (hn : t.num = atomicDecReturn s.num)
      (hs : t.signals = s.signals) (hc : t.completed = s.completed + 1)
      (hm : num Pc.midway t.pc = num Pc.midway s.pc)
  | borrow (hn : t.num = atomicDecReturn s.num) (hs : t.signals = s.signals)
      (hc : t.completed = s.completed) (hm : num Pc.midway t.pc = num Pc.midway s.pc + 1)
  | putBack (hn : t.num = atomicInc s.num) (hs : t.signals = s.signals)
      (hc : t.completed = s.completed) (hm : num Pc.midway t.pc + 1 = num Pc.midway s.pc)
  | signal (hn : t.num = atomicInc s.num) (hs : t.signals = s.signals + 1)
      (hc : t.completed = s.completed) (hm : num Pc.midway t.pc = num Pc.midway s.pc)

variable [DecidableEq P] {s t : Sys P} {a : Act P}

theorem num_goto (s : Sys P) (p : P) (c : Pc) :
    num Pc.midway (s.goto p c).pc + (s.pc p).midway.toNat =
      num Pc.midway s.pc + c.midway.toNat := num_update ..

theorem proceed_flow {p : P} (h : s.proceed p = .ok t) : Flow s t := by
  have hmove := num_goto s p
  rw [Sys.proceed] at h
  split at h
  case h_1 => cases h
  case h_2 hp =>
    rw [hp] at hmove
    dsimp only at h
    split_ifs at h with hneg
    · cases h
      exact .borrow rfl rfl rfl (hmove .takeBack)
    · cases h
      exact .enter (Int.not_lt.mp hneg) rfl rfl rfl (hmove .outside)
  case h_3 hp =>
    rw [hp] at hmove
    cases h
    exact .putBack rfl rfl rfl (hmove .prepareToWait)
  case h_4 hp =>
    rw [hp] at hmove
    cases h
    exact .keep rfl rfl rfl (hmove .schedule)
  case h_5 hp =>
    rw [hp] at hmove
    split_ifs at h with hq
    cases h
    exact .keep rfl rfl rfl (hmove .decReturn)
  case h_6 hp =>
    rw [hp] at hmove
    cases h
    exact .signal rfl rfl rfl (hmove .signalWake)
  case h_7 hp =>
    rw [hp] at hmove
    cases h
    exact .keep rfl rfl rfl (hmove .outside)

theorem step_flow (h : s.step a = .ok t) : Flow s t := by
  cases a with
  | wait p =>
    rw [Sys.step] at h
    split_ifs at h with hp
    cases h
    have hmove := num_goto s p .decReturn
    rw [hp] at hmove
    exact .keep rfl rfl rfl hmove
  | signal p =>
    rw [Sys.step] at h
    split_ifs at h with hp
    cases h
    have hmove := num_goto s p .signalInc
    rw [hp] at hmove
    exact .keep rfl rfl rfl hmove
  | proceed p => exact proceed_flow h
  | interrupt p =>
    rw [Sys.step] at h
    split_ifs at h with hp
    cases h
    exact .keep rfl rfl rfl rfl

theorem atomicInc_toLong (x : Int) : atomicInc (toLong x) = toLong (x + 1) :=
  toLong_toLong_add x 1

theorem atomicDecReturn_toLong (x : Int) : atomicDecReturn (toLong x) = toLong (x - 1) :=
  toLong_toLong_add x (-1)

/-- A number of units below zero shows as a negative result, as long as it is an `int`. -/
theorem toLong_neg {x : Int} (h : -2147483648 ≤ x) (h0 : x < 0) : toLong x < 0 := by
  unfold toLong
  rw [Int.bmod_eq_of_le] <;> omega

structure Conserved (s : Sys P) : Prop where
  num_eq : s.num = toLong (permits s)
  completed_le : Fintype.card P < 2147483648 → s.completed ≤ 1 + s.signals

omit [DecidableEq P] in
theorem conserved_initial : Conserved (Sys.initial : Sys P) where
  num_eq := by
    have h : num Pc.midway (Sys.initial : Sys P).pc = 0 := num_eq_zero.mpr fun _ => rfl
    rw [permits, h]
    exact (toLong_of_lt (x := 1) (by decide) (by decide)).symm
  completed_le _ := Nat.zero_le _

omit [DecidableEq P] in
theorem num_le_card (q : Pc → Bool) (f : P → Pc) : num q f ≤ Fintype.card P := by
  calc num q f ≤ num (fun _ => true) f := num_mono fun _ _ => rfl
    _ = Fintype.card P := by simp [num]

omit [DecidableEq P] in
/-- A decrement that leaves a non-negative number has found a unit. -/
theorem Conserved.completed_lt (h : Conserved s) (hcard : Fintype.card P < 2147483648)
    (hpos : 0 ≤ atomicDecReturn s.num) : s.completed < 1 + s.signals := by
  have hle := h.completed_le hcard
  have hmid := num_le_card Pc.midway s.pc
  by_contra hlt
  have hneg : toLong (permits s - 1) < 0 := by
    refine toLong_neg ?_ ?_ <;> (unfold permits; omega)
  rw [h.num_eq, atomicDecReturn_toLong] at hpos
  omega

omit [DecidableEq P] in
theorem Conserved.flow (h : Conserved s) (hf : Flow s t) : Conserved t := by
  have hnum := h.num_eq
  have hle := h.completed_le
  cases hf with
  | keep hn hs hc hm =>
    refine ⟨?_, fun hcard => by rw [hc, hs]; exact hle hcard⟩
    rw [hn, hnum, permits, permits, hs, hc, hm]
  | enter hpos hn hs hc hm =>
    refine ⟨?_, fun hcard => by have := h.completed_lt hcard hpos; omega⟩
    rw [hn, hnum, atomicDecReturn_toLong, permits, permits, hs, hc, hm]
    congr 1
    omega
  | borrow hn hs hc hm =>
    refine ⟨?_, fun hcard => by rw [hc, hs]; exact hle hcard⟩
    rw [hn, hnum, atomicDecReturn_toLong, permits, permits, hs, hc, hm]
    congr 1
    omega
  | putBack hn hs hc hm =>
    refine ⟨?_, fun hcard => by rw [hc, hs]; exact hle hcard⟩
    rw [hn, hnum, atomicInc_toLong, permits, permits, hs, hc, ← hm]
    congr 1
    omega
  | signal hn hs hc hm =>
    refine ⟨?_, fun hcard => by have := hle hcard; omega⟩
    rw [hn, hnum, atomicInc_toLong, permits, permits, hs, hc, hm]
    congr 1
    omega

theorem conserved_of_exec {acts : List (Act P)} (he : exec Sys.step Sys.initial acts = .ok s) :
    Conserved s :=
  exec_invariant (I := Conserved) (fun _ _ _ h hs => h.flow (step_flow hs)) conserved_initial he

/-- The counter has one unit and those of the signals, without what has been taken for completed waits
and for decrements that are yet to be taken back, wrapped around to 32 bits. Fewer than `2 ^ 31`
processes complete no more waits than there have been units, and below `2 ^ 31` nothing wraps. -/
theorem permits_conserved {acts : List (Act P)} (he : exec Sys.step Sys.initial acts = .ok s) :
    s.num = toLong (1 + s.signals - s.completed - num Pc.midway s.pc) ∧
    ((∀ p, s.pc p ≠ .takeBack) → s.num = toLong (1 + s.signals - s.completed)) ∧
    (Fintype.card P < 2147483648 →
      s.completed ≤ 1 + s.signals ∧
      ((1 + s.signals - s.completed - num Pc.midway s.pc : Int) < 2147483648 →
        s.num = 1 + s.signals - s.completed - num Pc.midway s.pc)) := by
  have h := conserved_of_exec he
  refine ⟨h.num_eq, fun hmid => ?_, fun hcard => ⟨h.completed_le hcard, fun hlt => ?_⟩⟩
  · have h0 : num Pc.midway s.pc = 0 := by
      apply num_eq_zero.mpr
      intro p
      have hp := hmid p
      cases hpc : s.pc p <;> simp_all [Pc.midway]
    rw [h.num_eq, permits, h0]
    congr 1
    omega
  · have hle := h.completed_le hcard
    have hmid := num_le_card Pc.midway s.pc
    rw [h.num_eq, permits]
    unfold toLong
    rw [Int.bmod_eq_of_le] <;> omega

/-- A wait finds the unit, a second one does not and takes its decrement back, and a signal lets it
retry. -/
def retryRun : List (Act Bool) :=
  [.wait true, .proceed true, .wait false, .proceed false, .proceed false, .proceed false,
    .signal true, .proceed true, .proceed true, .proceed false]

theorem permits_retryRun : ∃ s, exec Sys.step Sys.initial retryRun = .ok s ∧
    s.num = toLong (1 + s.signals - s.completed - num Pc.midway s.pc) ∧
    s.completed = 1 ∧ s.signals = 1 := by
  have he : exec Sys.step Sys.initial retryRun = .ok _ := rfl
  exact ⟨_, he, (permits_conserved he).1, rfl, rfl⟩

/-! A counter of `int` range runs over. -/

def signals : ℕ → List (Act Unit)
  | 0 => []
  | k + 1 => .signal () :: .proceed () :: .proceed () :: signals k

def signalled (k : ℕ) : Sys Unit :=
  { num := toLong (1 + k), queued := fun _ => false, pc := fun _ => .outside, completed := 0,
    signals := k }

theorem goto_unit (s : Sys Unit) (c : Pc) : s.goto () c = { s with pc := fun _ => c } := by
  rw [Sys.goto]
  congr 1

theorem exec_signals (j k : ℕ) :
    exec Sys.step (signalled j) (signals k) = .ok (signalled (j + k)) := by
  induction k generalizing j with
  | zero => rfl
  | succ k ih =>
    have hnext : atomicInc (toLong (1 + j)) = toLong (1 + (j + 1 : ℕ)) := by
      rw [atomicInc_toLong]
      congr 1
    have hcalls (as : List (Act Unit)) :
        exec Sys.step (signalled j) (.signal () :: .proceed () :: .proceed () :: as) =
          exec Sys.step (signalled (j + 1)) as := by
      simp only [exec, Sys.step, Sys.proceed, goto_unit, signalled, if_true, hnext]
    rw [signals, hcalls, ih, Nat.add_assoc, Nat.add_comm 1 k]

/-- After 2147483647 signals and no wait the number is not one more than the signals. -/
theorem num_runs_over : ∃ s, exec Sys.step Sys.initial (signals 2147483647) = .ok s ∧
    (∀ p, s.pc p = .outside) ∧ s.num ≠ 1 + s.signals - s.completed := by
  refine ⟨_, exec_signals 0 _, fun _ => rfl, ?_⟩
  decide

end KernelExperiment.Event.Retry
