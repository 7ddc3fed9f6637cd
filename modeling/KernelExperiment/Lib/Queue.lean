import KernelExperiment.Lib.Trace

/-! A first-in first-out service with a bound on what it holds, and the runs of a system whose steps
it explains. -/

namespace KernelExperiment.Queue
open Runs

inductive Op (α : Type*) where
  | put (xs : List α)
  | take (xs : List α)
  deriving DecidableEq

variable {α : Type*} {cap : ℕ} {q q' : List α} {ops : List (Op α)}

/-- Everything put in, in order. -/
def puts : List (Op α) → List α
  | [] => []
  | .put xs :: ops => xs ++ puts ops
  | .take _ :: ops => puts ops

def takes : List (Op α) → List α
  | [] => []
  | .put _ :: ops => takes ops
  | .take xs :: ops => xs ++ takes ops

/-- Puts go to the back, takes come from the front, and there is room for `cap`. -/
inductive Serves (cap : ℕ) : List α → List (Op α) → List α → Prop
  | nil (q : List α) : Serves cap q [] q
  | put {q q' : List α} {ops : List (Op α)} (xs : List α) (hroom : (q ++ xs).length ≤ cap)
      (h : Serves cap (q ++ xs) ops q') : Serves cap q (.put xs :: ops) q'
  | take {q q' : List α} {ops : List (Op α)} (xs : List α)
      (h : Serves cap q ops q') : Serves cap (xs ++ q) (.take xs :: ops) q'

theorem puts_append (ops ops' : List (Op α)) : puts (ops ++ ops') = puts ops ++ puts ops' := by
  induction ops with
  | nil => rfl
  | cons op ops ih => cases op <;> simp [puts, ih]

theorem takes_append (ops ops' : List (Op α)) : takes (ops ++ ops') = takes ops ++ takes ops' := by
  induction ops with
  | nil => rfl
  | cons op ops ih => cases op <;> simp [takes, ih]

namespace Serves

theorem append {q'' : List α} {ops' : List (Op α)} (h : Serves cap q ops q')
    (h' : Serves cap q' ops' q'') : Serves cap q (ops ++ ops') q'' := by
  induction h with
  | nil q => exact h'
  | put xs hroom _ ih => exact .put xs hroom (ih h')
  | take xs _ ih => exact .take xs (ih h')

/-- Nothing is lost, made up or put out of order. -/
theorem conserves (h : Serves cap q ops q') : q ++ puts ops = takes ops ++ q' := by
  induction h with
  | nil q => rw [puts, takes, List.append_nil, List.nil_append]
  | put xs _ _ ih => rw [puts, takes, ← List.append_assoc, ih]
  | take xs _ ih => rw [puts, takes, List.append_assoc, List.append_assoc, ih]

end Serves

end KernelExperiment.Queue
