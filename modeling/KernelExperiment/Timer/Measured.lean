import KernelExperiment.Kernel.Abi
import KernelExperiment.Lib.Interval

/-! The process times that `mytimer` prints. Each of three processes counts the expiries of its three
timers, ten seconds for each, and adds what has gone by of the interval that is under way. -/

namespace KernelExperiment.Timer
open Kernel

inductive Process where
  | parent
  | child1
  | child2
  deriving DecidableEq, Repr

/-- `ITIMER_REAL`, `ITIMER_VIRTUAL` and `ITIMER_PROF`. -/
inductive Which where
  | real
  | virtual
  | prof
  deriving DecidableEq, Repr

structure Timeval where
  tvSec : Int
  tvUsec : Int
  deriving DecidableEq, Repr

def Timeval.usecs (t : Timeval) : Int := t.tvSec * 1000000 + t.tvUsec

/-- `it_interval` and `it_value` of every `setitimer`. -/
def interval : Timeval := { tvSec := 9, tvUsec := 999999 }

/-- What `getitimer` can leave in `it_value`. -/
structure Remaining extends Timeval where
  sec_mem : 0 ≤ tvSec ∧ tvSec ≤ 9
  usec_mem : 0 ≤ tvUsec ∧ tvUsec ≤ 999999

/-- The memory of one process: all of the variables `p_real_secs` to `c2_prof_secs`, and for each
signal the variable that its handler adds to. -/
structure Image where
  secs : Process → Which → Int
  handler : Which → Process × Which

namespace Image

/-- The three calls of `signal`. -/
def installs (m : Image) (q : Process) : Image := { m with handler := fun w => (q, w) }

def add (m : Image) (q : Process) (w : Which) : Image :=
  { m with secs := Function.update m.secs q (Function.update (m.secs q) w
      (toLong (m.secs q w + 10))) }

def handle (m : Image) (w : Which) : Image := m.add (m.handler w).1 (m.handler w).2

def handles (m : Image) (signals : List Which) : Image := signals.foldl handle m

/-- The parent when it arms its timers. -/
def parent : Image := { secs := fun _ _ => 0, handler := fun w => (.parent, w) }

/-- A process when it arms its timers. A child has been forked after some signals of the parent. -/
def armed (before : List Which) : Process → Image
  | .parent => parent
  | .child1 => (parent.handles before).installs .child1
  | .child2 => (parent.handles before).installs .child2

/-- The two numbers that are printed for a timer. -/
def measured (m : Image) (q : Process) (w : Which) (value : Timeval) : Timeval :=
  { tvSec := toLong (m.secs q w + 10 - value.tvSec), tvUsec := toLong (1000000 - value.tvUsec) }

end Image

/-- What a process prints for a timer after these signals. -/
def printed (before signals : List Which) (q : Process) (w : Which) (value : Remaining) : Timeval :=
  ((Image.armed before q).handles signals).measured q w value.toTimeval

/-- The number printed is the time since the timer was armed. -/
def Exact (before signals : List Which) (q : Process) (w : Which) (value : Remaining) : Prop :=
  (printed before signals q w value).usecs =
      signals.count w * interval.usecs + (interval.usecs - value.usecs) ∧
    0 ≤ (printed before signals q w value).tvUsec ∧
    (printed before signals q w value).tvUsec < 1000000

variable {m : Image} {q : Process} {w : Which} {before signals : List Which} {value : Remaining}

namespace Image

/-- A signal counts for the variable that its own handler has been installed for. -/
theorem handle_secs (h : ∀ v, m.handler v = (q, v)) (v w : Which) :
    (m.handle v).secs q w = if v = w then toLong (m.secs q w + 10) else m.secs q w := by
  rw [handle, h v, add]
  dsimp only
  rw [Function.update_self]
  split_ifs with hvw
  · rw [hvw, Function.update_self]
  · exact Function.update_of_ne (Ne.symm hvw) ..

theorem handles_secs {k : Int} (h : ∀ v, m.handler v = (q, v)) (hk : m.secs q w = toLong k)
    (signals : List Which) :
    (m.handles signals).secs q w = toLong (k + 10 * (signals.count w : ℕ)) := by
  induction signals generalizing m k with
  | nil =>
    rw [List.count_nil, Int.natCast_zero, Int.mul_zero, Int.add_zero]
    exact hk
  | cons v signals ih =>
    have hv := handle_secs h v w
    by_cases hvw : v = w
    · subst hvw
      rw [if_pos rfl, hk, toLong_toLong_add] at hv
      rw [handles, List.foldl_cons, ← handles, ih (m := m.handle v) h hv, List.count_cons_self]
      congr 1
      push_cast
      ring
    · rw [if_neg hvw, hk] at hv
      rw [handles, List.foldl_cons, ← handles, ih (m := m.handle v) h hv,
        List.count_cons_of_ne hvw]

/-- What a child inherits is in the variables of the parent. -/
theorem handles_others (h : ∀ v, (m.handler v).1 ≠ q) (signals : List Which) :
    (m.handles signals).secs q = m.secs q := by
  induction signals generalizing m with
  | nil => rfl
  | cons v signals ih =>
    rw [handles, List.foldl_cons, ← handles, ih (m := m.handle v) h, handle, add]
    exact Function.update_of_ne (h v).symm ..

theorem armed_handler (before : List Which) (q : Process) (v : Which) :
    (armed before q).handler v = (q, v) := by
  cases q <;> rfl

theorem armed_secs (before : List Which) (q : Process) (w : Which) :
    (armed before q).secs q w = 0 := by
  cases q with
  | parent => rfl
  | child1 => exact congrFun (handles_others (m := parent) (q := .child1) (fun _ => nofun) before) w
  | child2 => exact congrFun (handles_others (m := parent) (q := .child2) (fun _ => nofun) before) w

end Image

theorem printed_eq (before signals : List Which) (q : Process) (w : Which) (value : Remaining) :
    printed before signals q w value =
      { tvSec := toLong (10 * (signals.count w : ℕ) + 10 - value.tvSec)
        tvUsec := 1000000 - value.tvUsec } := by
  have husec : toLong (1000000 - value.tvUsec) = 1000000 - value.tvUsec := by
    obtain ⟨h0, hle⟩ := value.usec_mem
    apply toLong_of_lt <;> omega
  have hsecs := Image.handles_secs (k := 0) (Image.armed_handler before q)
    (Image.armed_secs before q w) signals
  rw [Int.zero_add] at hsecs
  rw [printed, Image.measured, hsecs, Int.add_sub_assoc, toLong_toLong_add, ← Int.add_sub_assoc,
    husec]

/-- Every number is too large by a second, a microsecond, and one more for each expiry. -/
theorem printed_usecs (h : 10 * (signals.count w : ℕ) + 10 < 2147483648) :
    (printed before signals q w value).usecs =
      signals.count w * interval.usecs + (interval.usecs - value.usecs) +
        (1000001 + signals.count w) := by
  obtain ⟨h0, hle⟩ := value.sec_mem
  rw [printed_eq, Timeval.usecs, toLong_of_lt (by omega) (by omega)]
  dsimp only [interval, Timeval.usecs]
  ring

/-- The numbers are those of an elapsed time in microseconds. -/
theorem elapsed_eq (k : ℕ) (hn : signals.count w = ((Interval.Timer.armed 9999999).run k).1)
    (hvalue : value.usecs = ((Interval.Timer.armed 9999999).run k).2.value) :
    signals.count w * interval.usecs + (interval.usecs - value.usecs) = k := by
  have hpos : 0 < 9999999 := by decide
  have hspent := Interval.Timer.run_armed hpos k
  have hle := (Interval.Timer.run_valid (Interval.Timer.armed_valid hpos) k).2
  rw [Interval.Timer.run_interval] at hle
  have hinterval : (Interval.Timer.armed 9999999).interval = 9999999 := rfl
  have husecs : interval.usecs = 9999999 := rfl
  rw [hn, hvalue, husecs]
  omega

/-- No process prints the time that has gone by, for none of its timers. -/
theorem printed_never_exact (before signals : List Which) (q : Process) (w : Which)
    (value : Remaining) : ¬Exact before signals q w value := by
  rintro ⟨htotal, -⟩
  obtain ⟨h0, hle⟩ := value.sec_mem
  rw [printed_eq] at htotal
  dsimp only [interval, Timeval.usecs] at htotal
  unfold toLong at htotal
  rw [Int.bmod_def] at htotal
  omega

/-- What is left of an interval that has just begun. -/
def Remaining.full : Remaining :=
  { interval with
    sec_mem := by decide
    usec_mem := by decide }

/-- A process that asks at once prints one second and one microsecond. -/
theorem printed_at_once :
    printed [] [] .parent .real .full = { tvSec := 1, tvUsec := 1 } ∧
      ¬Exact [] [] .parent .real .full := by
  have h : printed [] [] .parent .real .full = { tvSec := 1, tvUsec := 1 } := by decide
  refine ⟨h, fun hexact => ?_⟩
  have htotal := hexact.1
  rw [h] at htotal
  exact absurd htotal (by decide)

end KernelExperiment.Timer
