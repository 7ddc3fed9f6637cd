import Mathlib.Algebra.BigOperators.Ring.Finset
import Mathlib.Data.Fintype.Basic
import Mathlib.Algebra.Order.BigOperators.Group.Finset

/-! Counting the members of a finite population by their local state, and how one member's move
changes the counts. -/

namespace KernelExperiment.Population

variable {P S : Type*} [Fintype P]

/-- How many members are in a local state that satisfies the test. -/
def num (q : S → Bool) (f : P → S) : ℕ := ∑ p, (q (f p)).toNat

theorem num_eq_zero {q : S → Bool} {f : P → S} : num q f = 0 ↔ ∀ p, q (f p) = false := by
  simp [num, Finset.sum_eq_zero_iff]

theorem num_pos {q : S → Bool} {f : P → S} : 0 < num q f ↔ ∃ p, q (f p) = true := by
  rw [Nat.pos_iff_ne_zero, ne_eq, num_eq_zero]
  simp

theorem num_const_false {f : P → S} {q : S → Bool} (h : ∀ p, q (f p) = false) : num q f = 0 :=
  num_eq_zero.mpr h

theorem num_mono {q r : S → Bool} {f : P → S} (h : ∀ p, q (f p) = true → r (f p) = true) :
    num q f ≤ num r f := by
  apply Finset.sum_le_sum
  intro p _
  specialize h p
  revert h
  cases q (f p) <;> cases r (f p) <;> simp

theorem num_add {q r₁ r₂ : S → Bool} (h : ∀ s, (q s).toNat = (r₁ s).toNat + (r₂ s).toNat)
    (f : P → S) : num q f = num r₁ f + num r₂ f := by
  simp only [num, h, Finset.sum_add_distrib]

theorem eq_of_num_le_one {q : S → Bool} {f : P → S} (h : num q f ≤ 1) {p r : P}
    (hp : q (f p) = true) (hr : q (f r) = true) : p = r := by
  classical
  by_contra hne
  have hpair : ∑ m ∈ {p, r}, (q (f m)).toNat = 2 := by rw [Finset.sum_pair hne, hp, hr]; rfl
  have hle : ∑ m ∈ {p, r}, (q (f m)).toNat ≤ num q f :=
    Finset.sum_le_sum_of_subset (Finset.subset_univ _)
  omega

/-- A member's move changes a count by what the member itself contributes. -/
theorem num_update [DecidableEq P] (q : S → Bool) (f : P → S) (p : P) (s : S) :
    num q (Function.update f p s) + (q (f p)).toNat = num q f + (q s).toNat := by
  have h1 : num q (Function.update f p s) =
      (q s).toNat + ∑ r ∈ Finset.univ.erase p, (q (f r)).toNat := by
    rw [num, ← Finset.add_sum_erase _ _ (Finset.mem_univ p), Function.update_self]
    congr 1
    apply Finset.sum_congr rfl
    intro r hr
    rw [Function.update_of_ne (Finset.ne_of_mem_erase hr)]
  have h2 : num q f = (q (f p)).toNat + ∑ r ∈ Finset.univ.erase p, (q (f r)).toNat := by
    rw [num, ← Finset.add_sum_erase _ _ (Finset.mem_univ p)]
  omega

end KernelExperiment.Population
