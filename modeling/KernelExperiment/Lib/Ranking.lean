import KernelExperiment.Lib.Runs
import Mathlib.Algebra.BigOperators.Ring.Finset
import Mathlib.Algebra.Order.BigOperators.Group.Finset
import Mathlib.Data.Fintype.Card

/-! Ranking functions that bound how much work a run can do. In a population each member has a rank
of its own; a member that disturbs the others, and so may raise their ranks, pays with a ticket. -/

namespace KernelExperiment.Runs

variable {S A : Type*} {step : S → A → Outcome S} {G : S → A → Prop} {s t : S} {as : List A}

/-- A run does no more work than the rank it starts from. -/
theorem countP_add_rank_le {rank : S → ℕ} {work : A → Bool}
    (hstep : ∀ s a t, G s a → step s a = .ok t → rank t + (work a).toNat ≤ rank s)
    (hm : Meets step G s as) (he : exec step s as = .ok t) :
    as.countP work + rank t ≤ rank s := by
  induction as generalizing s with
  | nil =>
    rw [exec_nil, Outcome.ok.injEq] at he
    rw [he, List.countP_nil, Nat.zero_add]
  | cons a as ih =>
    obtain ⟨r, hr, hrest⟩ := exec_cons_eq_ok.mp he
    obtain ⟨hg, hm'⟩ := (meets_cons_ok hr).mp hm
    have hnow := hstep s a r hg hr
    have hlater := ih hm' hrest
    rw [List.countP_cons]
    cases hw : work a <;> rw [hw] at hnow <;> simp at hnow ⊢ <;> omega

end KernelExperiment.Runs

namespace KernelExperiment.Ranking

variable {P : Type*} [Fintype P] {top n b : ℕ} {tickets tickets' rank rank' : P → ℕ} {p : P}

/-- A ticket outweighs what all ranks together can amount to. -/
def potential (top : ℕ) (tickets rank : P → ℕ) : ℕ :=
  (top * Fintype.card P + 1) * ∑ p, tickets p + ∑ p, rank p

theorem sum_add_le (hp : tickets' p + n ≤ tickets p) (h : ∀ r, r ≠ p → tickets' r ≤ tickets r) :
    ∑ r, tickets' r + n ≤ ∑ r, tickets r := by
  classical
  rw [← Finset.sum_erase_add _ tickets' (Finset.mem_univ p),
    ← Finset.sum_erase_add _ tickets (Finset.mem_univ p), Nat.add_assoc]
  apply Nat.add_le_add _ hp
  exact Finset.sum_le_sum fun r hr => h r (Finset.ne_of_mem_erase hr)

theorem sum_le_card (h : ∀ r, rank r ≤ top) : ∑ r, rank r ≤ top * Fintype.card P := by
  rw [Nat.mul_comm]
  apply (Finset.sum_le_card_nsmul Finset.univ rank top fun r _ => h r).trans
  rw [Finset.card_univ, nsmul_eq_mul, Nat.cast_id]

/-- A step of `p` that concerns nobody else. -/
theorem potential_calm (ht : ∀ r, tickets' r ≤ tickets r) (hp : rank' p + n ≤ rank p)
    (h : ∀ r, r ≠ p → rank' r ≤ rank r) :
    potential top tickets' rank' + n ≤ potential top tickets rank := by
  have hrank := sum_add_le hp h
  have hticket : ∑ r, tickets' r ≤ ∑ r, tickets r := Finset.sum_le_sum fun r _ => ht r
  have hmul := Nat.mul_le_mul_left (top * Fintype.card P + 1) hticket
  unfold potential
  omega

/-- A step of `p` that costs it a ticket. -/
theorem potential_disturbed (hp : tickets' p + 1 ≤ tickets p)
    (h : ∀ r, r ≠ p → tickets' r ≤ tickets r) (htop : ∀ r, rank' r ≤ top) :
    potential top tickets' rank' + 1 ≤ potential top tickets rank := by
  have hrank := sum_le_card htop
  have hticket := sum_add_le hp h
  have hmul := Nat.mul_le_mul_left (top * Fintype.card P + 1) hticket
  rw [Nat.mul_add, Nat.mul_one] at hmul
  unfold potential
  omega

theorem potential_le (ht : ∀ r, tickets r ≤ b) (htop : ∀ r, rank r ≤ top) :
    potential top tickets rank ≤
      (top * Fintype.card P + 1) * (b * Fintype.card P) + top * Fintype.card P :=
  Nat.add_le_add (Nat.mul_le_mul_left _ (sum_le_card ht)) (sum_le_card htop)

end KernelExperiment.Ranking
