import KernelExperiment.Lib.Runs

/-! Runs with some of their actions left out. A system is free of interference by the dropped
actions when every run ends in the state to which its kept actions alone lead. -/

namespace KernelExperiment.Purge
open Runs

variable {S A : Type*}

/-- After each action the state is the one that the kept actions alone lead to. -/
def Purged (step : S → A → S) (keeps : A → Bool) (s : S) (as : List A) : Prop :=
  ∀ done, done <+: as → done.foldl step s = (done.filter keeps).foldl step s

/-- A dropped action changes nothing. -/
def Idle (step : S → A → S) (keeps : A → Bool) (s : S) (a : A) : Prop :=
  keeps a = false → step s a = s

variable {step : S → A → S} {keeps : A → Bool} {s : S} {a : A} {as : List A}

theorem purged_nil : Purged step keeps s [] := by
  intro done hd
  rw [List.prefix_nil.mp hd]
  rfl

theorem purged_cons_kept (ha : keeps a = true) :
    Purged step keeps s (a :: as) ↔ Purged step keeps (step s a) as := by
  constructor
  · intro h done hd
    have hcons := h (a :: done) (List.cons_prefix_cons.mpr ⟨rfl, hd⟩)
    rwa [List.filter_cons_of_pos ha] at hcons
  · intro h done hd
    cases done with
    | nil => rfl
    | cons b done =>
      obtain ⟨rfl, hrest⟩ := List.cons_prefix_cons.mp hd
      rw [List.filter_cons_of_pos ha]
      exact h done hrest

theorem purged_cons_dropped (ha : keeps a = false) :
    Purged step keeps s (a :: as) ↔ step s a = s ∧ Purged step keeps s as := by
  have hdrop : ¬keeps a = true := Bool.eq_false_iff.mp ha
  constructor
  · intro h
    have hone : step s a = s := by
      have hcons := h [a] (List.prefix_append [a] as)
      rwa [List.filter_cons_of_neg hdrop] at hcons
    refine ⟨hone, fun done hd => ?_⟩
    have hcons := h (a :: done) (List.cons_prefix_cons.mpr ⟨rfl, hd⟩)
    rwa [List.filter_cons_of_neg hdrop, List.foldl_cons, hone] at hcons
  · rintro ⟨hone, h⟩ done hd
    cases done with
    | nil => rfl
    | cons b done =>
      obtain ⟨rfl, hrest⟩ := List.cons_prefix_cons.mp hd
      rw [List.filter_cons_of_neg hdrop, List.foldl_cons, hone]
      exact h done hrest

theorem purged_iff_idle :
    Purged step keeps s as ↔ Meets (fun s a => .ok (step s a)) (Idle step keeps) s as := by
  induction as generalizing s with
  | nil => exact iff_of_true purged_nil trivial
  | cons a as ih =>
    rw [meets_cons_ok rfl]
    cases ha : keeps a with
    | true =>
      have hkept : Idle step keeps s a := fun h => by cases ha.symm.trans h
      rw [purged_cons_kept ha, ih, and_iff_right hkept]
    | false =>
      have hidle : Idle step keeps s a ↔ step s a = s := imp_iff_right ha
      rw [purged_cons_dropped ha, hidle]
      apply and_congr_right
      intro hone
      rw [ih, hone]

end KernelExperiment.Purge
