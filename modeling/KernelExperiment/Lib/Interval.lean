import Mathlib.Tactic.Ring

/-! A timer that counts down, and on reaching zero expires and starts over from its interval. -/

namespace KernelExperiment.Interval

structure Timer where
  interval : ℕ
  value : ℕ
  deriving DecidableEq, Repr

namespace Timer

def armed (interval : ℕ) : Timer := { interval, value := interval }

/-- One unit of time, and whether the timer expires at its end. -/
def tick (t : Timer) : Bool × Timer :=
  if t.value ≤ 1 then (true, { t with value := t.interval })
  else (false, { t with value := t.value - 1 })

/-- The number of expiries in that many units of time. -/
def run (t : Timer) : ℕ → ℕ × Timer
  | 0 => (0, t)
  | k + 1 =>
    let (expired, u) := t.tick
    let (n, u) := u.run k
    (n + expired.toNat, u)

def Valid (t : Timer) : Prop := 1 ≤ t.value ∧ t.value ≤ t.interval

variable {t : Timer}

theorem armed_valid {interval : ℕ} (h : 0 < interval) : (armed interval).Valid := ⟨h, le_rfl⟩

theorem tick_interval (t : Timer) : t.tick.2.interval = t.interval := by
  unfold tick
  split_ifs <;> rfl

theorem tick_valid (h : t.Valid) : t.tick.2.Valid := by
  obtain ⟨h1, hle⟩ := h
  unfold tick Valid
  split_ifs with hlast
  · exact ⟨h1.trans hle, le_rfl⟩
  · dsimp only
    omega

/-- A unit of time either takes one off the value or ends the interval. -/
theorem tick_spent (h : t.Valid) :
    t.tick.1.toNat * t.interval + (t.interval - t.tick.2.value) =
      t.interval - t.value + 1 := by
  obtain ⟨h1, hle⟩ := h
  unfold tick
  split_ifs with hlast
  · simp only [Bool.toNat_true]
    omega
  · simp only [Bool.toNat_false]
    omega

theorem run_interval (t : Timer) (k : ℕ) : (t.run k).2.interval = t.interval := by
  induction k generalizing t with
  | zero => rfl
  | succ k ih => exact (ih t.tick.2).trans t.tick_interval

theorem run_valid (h : t.Valid) (k : ℕ) : (t.run k).2.Valid := by
  induction k generalizing t with
  | zero => exact h
  | succ k ih => exact ih (tick_valid h)

theorem run_spent (h : t.Valid) (k : ℕ) :
    (t.run k).1 * t.interval + (t.interval - (t.run k).2.value) = t.interval - t.value + k := by
  induction k generalizing t with
  | zero =>
    rw [run, Nat.zero_mul, Nat.zero_add, Nat.add_zero]
  | succ k ih =>
    have hrest := ih (tick_valid h)
    have htick := tick_spent h
    rw [tick_interval] at hrest
    rw [run]
    dsimp only
    rw [Nat.add_mul]
    omega

/-- The time since a timer was armed, from its expiries and what is left of the interval. -/
theorem run_armed {interval : ℕ} (h : 0 < interval) (k : ℕ) :
    ((armed interval).run k).1 * interval + (interval - ((armed interval).run k).2.value) = k := by
  have hspent := run_spent (armed_valid h) k
  rw [armed] at hspent ⊢
  dsimp only at hspent
  omega

end Timer
end KernelExperiment.Interval
