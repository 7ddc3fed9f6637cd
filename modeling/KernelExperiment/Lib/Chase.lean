import KernelExperiment.Lib.Runs

/-! Loops that follow a pointer until a test holds, and do something at every element that they come
to. Such a loop ends exactly when the chain of pointers leads to an element that passes the test. -/

namespace KernelExperiment.Runs

variable {S A : Type*}

/-- `while (!stop(s)) { s = next(s); visit(s); }`, with at most `n` passes; a loop that needs more is
blocked. -/
def chase (stop : S → Prop) [DecidablePred stop] (next : S → S) (visit : S → A → Outcome A) :
    ℕ → S → A → Outcome (S × A)
  | n, s, a =>
    if stop s then .ok (s, a)
    else
      match n with
      | 0 => .blocked
      | n + 1 =>
        match visit (next s) a with
        | .blocked => .blocked
        | .fault => .fault
        | .ok a => chase stop next visit n (next s) a

/-- The elements that the loop comes to. -/
inductive Path (stop : S → Prop) (next : S → S) : S → List S → Prop
  | here {s} (h : stop s) : Path stop next s []
  | there {s l} (h : ¬stop s) (hl : Path stop next (next s) l) : Path stop next s (next s :: l)

/-- What is done at one element after the other. -/
def visitAll (visit : S → A → Outcome A) : List S → A → Outcome A
  | [], a => .ok a
  | s :: l, a =>
    match visit s a with
    | .blocked => .blocked
    | .fault => .fault
    | .ok a => visitAll visit l a

variable {stop : S → Prop} [DecidablePred stop] {next : S → S} {visit : S → A → Outcome A}
  {n : ℕ} {s t : S} {a b : A} {l : List S}

theorem chase_of_stop (h : stop s) : chase stop next visit n s a = .ok (s, a) := by
  cases n <;> rw [chase, if_pos h]

theorem chase_zero (h : ¬stop s) : chase stop next visit 0 s a = .blocked := by
  rw [chase, if_neg h]

theorem chase_succ (h : ¬stop s) (hv : visit (next s) a = .ok b) :
    chase stop next visit (n + 1) s a = chase stop next visit n (next s) b := by
  rw [chase, if_neg h]
  simp only [hv]

theorem chase_succ_fault (h : ¬stop s) (hv : visit (next s) a = .fault) :
    chase stop next visit (n + 1) s a = .fault := by
  rw [chase, if_neg h]
  simp only [hv]

/-- With passes enough the loop does what there is to do along the path. -/
theorem chase_of_path (hp : Path stop next s l) (hn : l.length ≤ n) :
    ∃ t, stop t ∧ chase stop next visit n s a = (visitAll visit l a).map (t, ·) := by
  induction hp generalizing n a with
  | @here s h => exact ⟨s, h, chase_of_stop h⟩
  | @there s l h hl ih =>
    cases n with
    | zero => exact absurd hn (Nat.not_succ_le_zero _)
    | succ n =>
      cases hv : visit (next s) a with
      | ok b =>
        rw [chase_succ h hv, visitAll, hv]
        exact ih (Nat.le_of_succ_le_succ hn)
      | blocked =>
        obtain ⟨t, ht, -⟩ := ih (n := n) (a := a) (Nat.le_of_succ_le_succ hn)
        refine ⟨t, ht, ?_⟩
        rw [chase, if_neg h, visitAll]
        simp only [hv, Outcome.map]
      | fault =>
        obtain ⟨t, ht, -⟩ := ih (n := n) (a := a) (Nat.le_of_succ_le_succ hn)
        refine ⟨t, ht, ?_⟩
        rw [chase_succ_fault h hv, visitAll]
        simp only [hv, Outcome.map]

/-- With fewer passes it has only begun. -/
theorem chase_blocked_of_path (hp : Path stop next s l) (hn : n < l.length)
    (hall : visitAll visit l a = .ok b) : chase stop next visit n s a = .blocked := by
  induction hp generalizing n a with
  | here h => exact absurd hn (Nat.not_lt_zero n)
  | @there s l h hl ih =>
    cases n with
    | zero => exact chase_zero h
    | succ n =>
      rw [visitAll] at hall
      cases hv : visit (next s) a with
      | ok c =>
        rw [hv] at hall
        exact (chase_succ h hv).trans (ih (Nat.lt_of_succ_lt_succ hn) hall)
      | blocked =>
        rw [hv] at hall
        cases hall
      | fault =>
        rw [hv] at hall
        cases hall

theorem path_of_chase (h : chase stop next visit n s a = .ok (t, b)) :
    stop t ∧ ∃ l, Path stop next s l := by
  induction n generalizing s a with
  | zero =>
    by_cases hs : stop s
    · rw [chase_of_stop hs, Outcome.ok.injEq] at h
      obtain ⟨rfl, -⟩ := Prod.mk.inj h
      exact ⟨hs, [], .here hs⟩
    · rw [chase_zero hs] at h
      cases h
  | succ n ih =>
    by_cases hs : stop s
    · rw [chase_of_stop hs, Outcome.ok.injEq] at h
      obtain ⟨rfl, -⟩ := Prod.mk.inj h
      exact ⟨hs, [], .here hs⟩
    · cases hv : visit (next s) a with
      | ok c =>
        rw [chase_succ hs hv] at h
        obtain ⟨ht, l, hl⟩ := ih h
        exact ⟨ht, next s :: l, .there hs hl⟩
      | blocked =>
        rw [chase, if_neg hs] at h
        simp only [hv] at h
        cases h
      | fault =>
        rw [chase_succ_fault hs hv] at h
        cases h

/-- A loop whose visits go through ends exactly when there is an end to its path. -/
theorem chase_ends_iff (hvisit : ∀ s a, ∃ b, visit s a = .ok b) :
    (∃ n t b, chase stop next visit n s a = .ok (t, b)) ↔ ∃ l, Path stop next s l := by
  constructor
  · rintro ⟨n, t, b, h⟩
    exact (path_of_chase h).2
  · rintro ⟨l, hl⟩
    have hall : ∀ l a, ∃ b, visitAll visit l a = .ok b := by
      intro l
      induction l with
      | nil => exact fun a => ⟨a, rfl⟩
      | cons s l ih =>
        intro a
        obtain ⟨b, hb⟩ := hvisit s a
        rw [visitAll, hb]
        exact ih b
    obtain ⟨b, hb⟩ := hall l a
    have hends : ∃ t, stop t ∧ chase stop next visit l.length s a = _ := chase_of_path hl le_rfl
    obtain ⟨t, -, ht⟩ := hends
    rw [hb, Outcome.map_ok] at ht
    exact ⟨l.length, t, b, ht⟩

/-- Without an end to its path a loop goes on until its visits run out of room. -/
theorem chase_fault_of_no_path {μ : A → ℕ} {M : ℕ} (hnone : ∀ l, ¬Path stop next s l)
    (hgrow : ∀ s a, visit s a = .fault ∨ ∃ b, visit s a = .ok b ∧ μ a < μ b ∧ μ b ≤ M) :
    ∃ n, chase stop next visit n s a = .fault := by
  induction hroom : M - μ a using Nat.strong_induction_on generalizing s a with
  | _ room ih =>
    have hs : ¬stop s := fun h => hnone [] (.here h)
    rcases hgrow (next s) a with hv | ⟨b, hv, hlt, hle⟩
    · exact ⟨1, chase_succ_fault hs hv⟩
    · have hnext : ∀ l, ¬Path stop next (next s) l := fun l hl => hnone _ (.there hs hl)
      obtain ⟨n, hn⟩ := ih (M - μ b) (by omega) hnext rfl
      exact ⟨n + 1, (chase_succ hs hv).trans hn⟩

end KernelExperiment.Runs
