import KernelExperiment.Lib.Runs

/-! Two step functions on the same actions whose states stay related. When the related states answer
every action alike, allowed runs answer alike, and a guard that the next answers reveal is exact. -/

namespace KernelExperiment.Runs

variable {S T A O : Type*} {step : S → A → Outcome S} {step' : T → A → Outcome T}
  {R : S → T → Prop} {G : S → A → Prop} {out : S → O} {out' : T → O} {s : S} {t : T} {a : A}
  {as : List A}

/-- Both steps are disabled, both fail, or they lead to related states. -/
def Outcome.Related (R : S → T → Prop) : Outcome S → Outcome T → Prop
  | .ok s, .ok t => R s t
  | .blocked, .blocked => True
  | .fault, .fault => True
  | _, _ => False

theorem Outcome.Related.imp {R' : S → T → Prop} (himp : ∀ s t, R s t → R' s t) {o : Outcome S}
    {o' : Outcome T} (h : o.Related R o') : o.Related R' o' := by
  cases o <;> cases o' <;> first | exact h | exact himp _ _ h

theorem Outcome.Related.map_eq (himp : ∀ s t, R s t → out s = out' t) {o : Outcome S}
    {o' : Outcome T} (h : o.Related R o') : o.map out = o'.map out' := by
  cases o <;> cases o' <;> first | rfl | exact h.elim | exact congrArg Outcome.ok (himp _ _ h)

theorem exec_singleton : exec step s [a] = step s a := by
  rw [exec]
  cases step s a <;> rfl

theorem exec_cons_stuck (h : ∀ u, step s a ≠ .ok u) :
    (exec step s (a :: as)).map out = (step s a).map out := by
  rw [exec]
  cases hs : step s a with
  | ok u => exact absurd hs (h u)
  | blocked => rfl
  | fault => rfl

/-- The answers to every beginning of the run, followed by any one action, are the same. -/
def SameAnswers (step : S → A → Outcome S) (step' : T → A → Outcome T) (out : S → O) (out' : T → O)
    (s : S) (t : T) (as : List A) : Prop :=
  ∀ bs, bs <+: as → ∀ b,
    (exec step s (bs ++ [b])).map out = (exec step' t (bs ++ [b])).map out'

theorem sameAnswers_cons {s' : S} {t' : T} (hs : step s a = .ok s') (ht : step' t a = .ok t') :
    SameAnswers step step' out out' s t (a :: as) ↔
      (∀ b, (step s b).map out = (step' t b).map out') ∧
        SameAnswers step step' out out' s' t' as := by
  constructor
  · intro h
    refine ⟨fun b => ?_, fun bs hbs b => ?_⟩
    · have hb := h [] (List.nil_prefix) b
      rwa [List.nil_append, exec_singleton, exec_singleton] at hb
    · have hb := h (a :: bs) (List.prefix_cons_inj a |>.mpr hbs) b
      rwa [List.cons_append, exec_cons_ok hs, exec_cons_ok ht] at hb
  · rintro ⟨hnow, hlater⟩ bs hbs b
    rcases bs with _ | ⟨c, bs⟩
    · rw [List.nil_append, exec_singleton, exec_singleton]
      exact hnow b
    · obtain ⟨rfl, hbs'⟩ := List.cons_prefix_cons.mp hbs
      rw [List.cons_append, exec_cons_ok hs, exec_cons_ok ht]
      exact hlater bs hbs' b

theorem sameAnswers_stuck (hs : ∀ u, step s a ≠ .ok u)
    (hout : ∀ b, (step s b).map out = (step' t b).map out') :
    SameAnswers step step' out out' s t (a :: as) := by
  have ht : ∀ u, step' t a ≠ .ok u := by
    intro u hu
    have hsame := hout a
    rw [hu, Outcome.map_ok] at hsame
    obtain ⟨s', hs', -⟩ := Outcome.map_eq_ok.mp hsame
    exact hs s' hs'
  intro bs hbs b
  rcases bs with _ | ⟨c, bs⟩
  · rw [List.nil_append, exec_singleton, exec_singleton]
    exact hout b
  · obtain ⟨rfl, -⟩ := List.cons_prefix_cons.mp hbs
    rw [List.cons_append, exec_cons_stuck hs, exec_cons_stuck ht]
    exact hout c

/-- Where related states answer alike and an unguarded step makes some next answer differ, the runs
that answer alike throughout are the guarded ones. -/
theorem sameAnswers_iff_meets
    (hstep : ∀ s t a, R s t → G s a → (step s a).Related R (step' t a))
    (hout : ∀ s t a, R s t → (step s a).map out = (step' t a).map out')
    (hback : ∀ s t a s' t', R s t → step s a = .ok s' → step' t a = .ok t' →
      (∀ b, (step s' b).map out = (step' t' b).map out') → G s a)
    (hnone : ∀ s t a, R s t → (∀ s', step s a ≠ .ok s') → G s a) (h0 : R s t) :
    SameAnswers step step' out out' s t as ↔ Meets step G s as := by
  induction as generalizing s t with
  | nil =>
    refine iff_of_true (fun bs hbs b => ?_) trivial
    rw [List.prefix_nil.mp hbs, List.nil_append, exec_singleton, exec_singleton]
    exact hout s t b h0
  | cons a as ih =>
    by_cases hstuck : ∀ u, step s a ≠ .ok u
    · refine iff_of_true (sameAnswers_stuck hstuck fun b => hout s t b h0)
        ⟨hnone s t a h0 hstuck, ?_⟩
      cases hs : step s a with
      | ok u => exact absurd hs (hstuck u)
      | blocked => trivial
      | fault => trivial
    · obtain ⟨s', hs⟩ := not_forall_not.mp hstuck
      have hsame := hout s t a h0
      rw [hs, Outcome.map_ok] at hsame
      obtain ⟨t', ht, -⟩ := Outcome.map_eq_ok.mp hsame.symm
      have hnext : G s a → R s' t' := by
        intro hg
        have hrel := hstep s t a h0 hg
        rwa [hs, ht] at hrel
      rw [sameAnswers_cons hs ht, meets_cons_ok hs]
      constructor
      · rintro ⟨-, hlater⟩
        have hg : G s a := hback s t a s' t' h0 hs ht fun b => by
          have hb := hlater [] (List.nil_prefix) b
          rwa [List.nil_append, exec_singleton, exec_singleton] at hb
        exact ⟨hg, (ih (hnext hg)).mp hlater⟩
      · rintro ⟨hg, hlater⟩
        exact ⟨fun b => hout s t b h0, (ih (hnext hg)).mpr hlater⟩

end KernelExperiment.Runs
