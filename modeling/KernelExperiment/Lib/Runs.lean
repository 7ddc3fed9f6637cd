import Mathlib.Data.List.Infix

/-! Finite runs of a partial step function. A step can be disabled, can leave the memory it may
touch, or can lead to a next state; only steps of the last kind make up a run. -/

namespace KernelExperiment.Runs

variable {S A : Type*}

/-- What one attempted step does. -/
inductive Outcome (S : Type*) where
  | blocked
  | fault
  | ok (s : S)
  deriving DecidableEq, Repr

def Outcome.map {T : Type*} (f : S → T) : Outcome S → Outcome T
  | .blocked => .blocked
  | .fault => .fault
  | .ok s => .ok (f s)

def Outcome.bind {T : Type*} (o : Outcome S) (f : S → Outcome T) : Outcome T :=
  match o with
  | .blocked => .blocked
  | .fault => .fault
  | .ok s => f s

@[simp] theorem Outcome.bind_ok {T : Type*} (s : S) (f : S → Outcome T) :
    (Outcome.ok s).bind f = f s := rfl

@[simp] theorem Outcome.bind_blocked {T : Type*} (f : S → Outcome T) :
    (Outcome.blocked : Outcome S).bind f = .blocked := rfl

@[simp] theorem Outcome.bind_fault {T : Type*} (f : S → Outcome T) :
    (Outcome.fault : Outcome S).bind f = .fault := rfl

@[simp] theorem Outcome.map_ok {T : Type*} (f : S → T) (s : S) : (Outcome.ok s).map f = .ok (f s) :=
  rfl

theorem Outcome.bind_map {T U : Type*} (f : S → T) (g : T → Outcome U) (o : Outcome S) :
    (o.map f).bind g = o.bind fun s => g (f s) := by
  cases o <;> rfl

theorem Outcome.map_eq_ok {T : Type*} {f : S → T} {o : Outcome S} {t : T} :
    o.map f = .ok t ↔ ∃ s, o = .ok s ∧ f s = t := by
  cases o <;> simp [Outcome.map]

theorem Outcome.map_map {T U : Type*} (f : S → T) (g : T → U) (o : Outcome S) :
    (o.map f).map g = o.map (g ∘ f) := by
  cases o <;> rfl

theorem Outcome.map_congr {T : Type*} {f g : S → T} {o : Outcome S}
    (h : ∀ s, o = .ok s → f s = g s) : o.map f = o.map g := by
  cases o with
  | ok s => exact congrArg Outcome.ok (h s rfl)
  | blocked => rfl
  | fault => rfl

def exec (step : S → A → Outcome S) : S → List A → Outcome S
  | s, [] => .ok s
  | s, a :: as =>
    match step s a with
    | .ok t => exec step t as
    | .blocked => .blocked
    | .fault => .fault

/-- Every step of the run is taken in a state that allows it. -/
def Meets (step : S → A → Outcome S) (G : S → A → Prop) : S → List A → Prop
  | _, [] => True
  | s, a :: as => G s a ∧
    match step s a with
    | .ok t => Meets step G t as
    | _ => True

def Always (step : S → A → Outcome S) (I : S → Prop) : S → List A → Prop
  | s, [] => I s
  | s, a :: as => I s ∧
    match step s a with
    | .ok t => Always step I t as
    | _ => True

def Ensures (step : S → A → Outcome S) (R : S → A → S → Prop) (s : S) (a : A) : Prop :=
  ∀ t, step s a = .ok t → R s a t

instance decidableEnsures (step : S → A → Outcome S) (R : S → A → S → Prop)
    [∀ s a t, Decidable (R s a t)] (s : S) (a : A) : Decidable (Ensures step R s a) :=
  match h : step s a with
  | .ok t => decidable_of_iff (R s a t) (by simp [Ensures, h])
  | .blocked => isTrue fun t ht => by cases h.symm.trans ht
  | .fault => isTrue fun t ht => by cases h.symm.trans ht

section
variable {step : S → A → Outcome S} {G : S → A → Prop} {I P : S → Prop} {s t u : S} {a : A}
  {as bs : List A}

instance decidableMeets [∀ s a, Decidable (G s a)] : ∀ s as, Decidable (Meets step G s as)
  | _, [] => inferInstanceAs (Decidable True)
  | s, a :: as =>
    match h : step s a with
    | .ok t =>
      have : Decidable (Meets step G t as) := decidableMeets t as
      decidable_of_iff (G s a ∧ Meets step G t as) (by simp [Meets, h])
    | .blocked => decidable_of_iff (G s a) (by simp [Meets, h])
    | .fault => decidable_of_iff (G s a) (by simp [Meets, h])

@[simp] theorem exec_nil : exec step s [] = .ok s := rfl

theorem exec_cons_ok (h : step s a = .ok t) : exec step s (a :: as) = exec step t as := by
  simp only [exec, h]

theorem exec_cons_eq_ok :
    exec step s (a :: as) = .ok u ↔ ∃ t, step s a = .ok t ∧ exec step t as = .ok u := by
  cases h : step s a <;> simp [exec, h]

theorem meets_cons_ok (h : step s a = .ok t) :
    Meets step G s (a :: as) ↔ G s a ∧ Meets step G t as := by
  simp only [Meets, h]

theorem always_cons_ok (h : step s a = .ok t) :
    Always step I s (a :: as) ↔ I s ∧ Always step I t as := by
  simp only [Always, h]

theorem Always.head (h : Always step I s as) : I s := by
  cases as with
  | nil => exact h
  | cons a as => exact h.1

theorem Always.last (h : Always step I s as) (he : exec step s as = .ok t) : I t := by
  induction as generalizing s with
  | nil =>
    rw [exec_nil, Outcome.ok.injEq] at he
    exact he ▸ h
  | cons a as ih =>
    obtain ⟨r, hr, hrest⟩ := exec_cons_eq_ok.mp he
    exact ih ((always_cons_ok hr).mp h).2 hrest

theorem Meets.of_forall (h : ∀ s, ∀ a ∈ as, G s a) : Meets step G s as := by
  induction as generalizing s with
  | nil => trivial
  | cons a as ih =>
    refine ⟨h s a (List.mem_cons_self ..), ?_⟩
    cases step s a with
    | ok t => exact ih fun r b hb => h r b (List.mem_cons_of_mem _ hb)
    | blocked => trivial
    | fault => trivial

theorem Meets.and_forall {Q : A → Prop} (hm : Meets step G s as) (hq : ∀ a ∈ as, Q a) :
    Meets step (fun s a => G s a ∧ Q a) s as := by
  induction as generalizing s with
  | nil => trivial
  | cons a as ih =>
    refine ⟨⟨hm.1, hq a (List.mem_cons_self ..)⟩, ?_⟩
    cases hr : step s a with
    | ok t => exact ih ((meets_cons_ok hr).mp hm).2 fun b hb => hq b (List.mem_cons_of_mem _ hb)
    | blocked => trivial
    | fault => trivial

/-- What each allowed step keeps, a run of allowed steps keeps. -/
theorem meets_invariant (hstep : ∀ s a t, I s → G s a → step s a = .ok t → I t)
    (h0 : I s) (hm : Meets step G s as) (he : exec step s as = .ok t) : I t := by
  induction as generalizing s with
  | nil =>
    rw [exec_nil, Outcome.ok.injEq] at he
    exact he ▸ h0
  | cons a as ih =>
    obtain ⟨r, hr, hrest⟩ := exec_cons_eq_ok.mp he
    obtain ⟨hg, hm'⟩ := (meets_cons_ok hr).mp hm
    exact ih (hstep s a r h0 hg hr) hm' hrest

theorem exec_invariant (hstep : ∀ s a t, I s → step s a = .ok t → I t)
    (h0 : I s) (he : exec step s as = .ok t) : I t := by
  have hm : Meets step (fun _ _ => True) s as := Meets.of_forall fun _ _ _ => trivial
  exact meets_invariant (fun s a t hi _ => hstep s a t hi) h0 hm he

theorem meets_no_fault (hstep : ∀ s a t, I s → G s a → step s a = .ok t → I t)
    (hsafe : ∀ s a, I s → G s a → step s a ≠ .fault)
    (h0 : I s) (hm : Meets step G s as) : exec step s as ≠ .fault := by
  induction as generalizing s with
  | nil => simp
  | cons a as ih =>
    have hs := hsafe s a h0 hm.1
    cases hr : step s a with
    | blocked => simp [exec, hr]
    | fault => exact absurd hr hs
    | ok r =>
      rw [exec_cons_ok hr]
      exact ih (hstep s a r h0 hm.1 hr) ((meets_cons_ok hr).mp hm).2

theorem meets_always (hstep : ∀ s a t, I s → G s a → step s a = .ok t → I t)
    (hI : ∀ s, I s → P s) (h0 : I s) (hm : Meets step G s as) : Always step P s as := by
  induction as generalizing s with
  | nil => exact hI s h0
  | cons a as ih =>
    refine ⟨hI s h0, ?_⟩
    cases hr : step s a with
    | blocked => trivial
    | fault => trivial
    | ok r => exact ih (hstep s a r h0 hm.1 hr) ((meets_cons_ok hr).mp hm).2

theorem Meets.imp {H : S → A → Prop} (hstep : ∀ s a t, I s → G s a → step s a = .ok t → I t)
    (himp : ∀ s a, I s → G s a → H s a) (h0 : I s) (hm : Meets step G s as) :
    Meets step H s as := by
  induction as generalizing s with
  | nil => trivial
  | cons a as ih =>
    refine ⟨himp s a h0 hm.1, ?_⟩
    cases hr : step s a with
    | blocked => trivial
    | fault => trivial
    | ok r => exact ih (hstep s a r h0 hm.1 hr) ((meets_cons_ok hr).mp hm).2

theorem meets_congr {H : S → A → Prop} (hstep : ∀ s a t, I s → step s a = .ok t → I t)
    (hiff : ∀ s a, I s → (G s a ↔ H s a)) (h0 : I s) : Meets step G s as ↔ Meets step H s as := by
  induction as generalizing s with
  | nil => exact Iff.rfl
  | cons a as ih =>
    apply and_congr (hiff s a h0)
    cases hr : step s a with
    | blocked => exact Iff.rfl
    | fault => exact Iff.rfl
    | ok r => exact ih (hstep s a r h0 hr)

/-- Where allowed actions always lead on, a run of allowed steps is a list of allowed actions. -/
theorem meets_iff_forall {Q : A → Prop} (hstep : ∀ s a, I s → Q a → ∃ t, step s a = .ok t ∧ I t)
    (h0 : I s) : Meets step (fun _ a => Q a) s as ↔ ∀ a ∈ as, Q a := by
  refine ⟨fun hm => ?_, fun hall => Meets.of_forall fun _ a ha => hall a ha⟩
  induction as generalizing s with
  | nil => exact fun a ha => by cases ha
  | cons b bs ih =>
    obtain ⟨t, ht, hI⟩ := hstep s b h0 hm.1
    intro a ha
    rcases List.mem_cons.mp ha with rfl | ha
    · exact hm.1
    · exact ih hI ((meets_cons_ok ht).mp hm).2 a ha

/-- When a step outside `G` leads to where no run comes back from, a run that has not ended up there
has taken no such step. -/
theorem meets_of_last (hstep : ∀ s a t, step s a = .ok t → G s a ∨ P t)
    (hkeep : ∀ s a t, P s → step s a = .ok t → P t) (he : exec step s as = .ok t) (hlast : ¬P t) :
    Meets step G s as := by
  induction as generalizing s with
  | nil => trivial
  | cons a as ih =>
    obtain ⟨r, hr, hrest⟩ := exec_cons_eq_ok.mp he
    rcases hstep s a r hr with hg | hp
    · exact (meets_cons_ok hr).mpr ⟨hg, ih hrest⟩
    · exact absurd (exec_invariant hkeep hp hrest) hlast

/-- Where, under an invariant, the steps that lead to a good state are the allowed ones, the runs good
in every state are those of allowed steps. -/
theorem always_iff_meets_of_invariant (hinv : ∀ s a t, I s → step s a = .ok t → I t)
    (hiff : ∀ s a t, I s → P s → step s a = .ok t → (P t ↔ G s a))
    (hstuck : ∀ s a, I s → P s → (∀ t, step s a ≠ .ok t) → G s a) (h0I : I s) (h0 : P s) :
    Always step P s as ↔ Meets step G s as := by
  induction as generalizing s with
  | nil => exact iff_of_true h0 trivial
  | cons a as ih =>
    cases hr : step s a with
    | ok r =>
      have hI := hinv s a r h0I hr
      rw [always_cons_ok hr, meets_cons_ok hr, and_iff_right h0]
      constructor
      · intro hrest
        have hP := hrest.head
        exact ⟨(hiff s a r h0I h0 hr).mp hP, (ih hI hP).mp hrest⟩
      · rintro ⟨hG, hrest⟩
        exact (ih hI ((hiff s a r h0I h0 hr).mpr hG)).mpr hrest
    | blocked => simp only [Always, Meets, hr, and_true, h0, hstuck s a h0I h0 (by simp [hr])]
    | fault => simp only [Always, Meets, hr, and_true, h0, hstuck s a h0I h0 (by simp [hr])]

theorem always_iff_meets (hiff : ∀ s a t, P s → step s a = .ok t → (P t ↔ G s a))
    (hstuck : ∀ s a, P s → (∀ t, step s a ≠ .ok t) → G s a) (h0 : P s) :
    Always step P s as ↔ Meets step G s as :=
  always_iff_meets_of_invariant (I := fun _ => True) (fun _ _ _ _ _ => trivial)
    (fun s a t _ => hiff s a t) (fun s a _ => hstuck s a) trivial h0

/-- When the allowed steps are exactly those that keep the invariant, a run is free of faults and
good in every state exactly when all of its steps are allowed ones. -/
theorem safe_always_iff_meets (hstep : ∀ s a t, I s → G s a → step s a = .ok t → I t)
    (hsafe : ∀ s a, I s → G s a → step s a ≠ .fault)
    (hblocked : ∀ s a, step s a = .blocked → G s a)
    (hback : ∀ s a t, I s → step s a = .ok t → P t → G s a) (hI : ∀ s, I s → P s) (h0 : I s) :
    (exec step s as ≠ .fault ∧ Always step P s as) ↔ Meets step G s as := by
  refine ⟨?_, fun hm => ⟨meets_no_fault hstep hsafe h0 hm, meets_always hstep hI h0 hm⟩⟩
  rintro ⟨hf, ha⟩
  induction as generalizing s with
  | nil => trivial
  | cons a as ih =>
    cases hr : step s a with
    | blocked => exact ⟨hblocked s a hr, by simp only [hr]⟩
    | fault => exact absurd (by simp only [exec, hr]) hf
    | ok r =>
      obtain ⟨_, ha'⟩ := (always_cons_ok hr).mp ha
      have hg := hback s a r h0 hr ha'.head
      rw [exec_cons_ok hr] at hf
      exact (meets_cons_ok hr).mpr ⟨hg, ih (hstep s a r h0 hg hr) hf ha'⟩

/-! Runs of one step function seen as runs of another. -/

variable {T B : Type*} {step' : T → B → Outcome T} {f : S → T} {g : A → B}

theorem exec_map (h : ∀ s a, step' (f s) (g a) = (step s a).map f) :
    exec step' (f s) (as.map g) = (exec step s as).map f := by
  induction as generalizing s with
  | nil => rfl
  | cons a as ih =>
    rw [List.map_cons, exec, h, exec]
    cases step s a with
    | ok t => exact ih
    | blocked => rfl
    | fault => rfl

theorem meets_map {H : T → B → Prop} (h : ∀ s a, step' (f s) (g a) = (step s a).map f)
    (hiff : ∀ s a, H (f s) (g a) ↔ G s a) :
    Meets step' H (f s) (as.map g) ↔ Meets step G s as := by
  induction as generalizing s with
  | nil => exact Iff.rfl
  | cons a as ih =>
    rw [List.map_cons, Meets, h, Meets]
    apply and_congr (hiff s a)
    cases step s a with
    | ok t => exact ih
    | blocked => exact Iff.rfl
    | fault => exact Iff.rfl

end
end KernelExperiment.Runs
