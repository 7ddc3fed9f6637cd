import KernelExperiment.Lib.Runs

/-! What an observer notes down of a run, and what the steps keep of a state together with the notes
that lead up to it. -/

namespace KernelExperiment.Runs

variable {S A O : Type*} {step : S → A → Outcome S} {obs : S → A → List O} {s t : S} {a : A}
  {as : List A} {os : List O}

def trace (step : S → A → Outcome S) (obs : S → A → List O) : S → List A → List O
  | _, [] => []
  | s, a :: as => obs s a ++
    match step s a with
    | .ok t => trace step obs t as
    | _ => []

theorem trace_cons_ok (h : step s a = .ok t) :
    trace step obs s (a :: as) = obs s a ++ trace step obs t as := by
  simp only [trace, h]

theorem trace_invariant_of_meets {J : List O → S → Prop} {G : S → A → Prop}
    (hstep : ∀ os s a t, J os s → G s a → step s a = .ok t → J (os ++ obs s a) t) (h0 : J os s)
    (hm : Meets step G s as) (he : exec step s as = .ok t) : J (os ++ trace step obs s as) t := by
  induction as generalizing s os with
  | nil =>
    rw [exec_nil, Outcome.ok.injEq] at he
    rw [trace, List.append_nil, ← he]
    exact h0
  | cons a as ih =>
    obtain ⟨r, hr, hrest⟩ := exec_cons_eq_ok.mp he
    obtain ⟨hg, hm⟩ := (meets_cons_ok hr).mp hm
    rw [trace_cons_ok hr, ← List.append_assoc]
    exact ih (hstep os s a r h0 hg hr) hm hrest

theorem trace_invariant {J : List O → S → Prop}
    (hstep : ∀ os s a t, J os s → step s a = .ok t → J (os ++ obs s a) t) (h0 : J os s)
    (he : exec step s as = .ok t) : J (os ++ trace step obs s as) t :=
  trace_invariant_of_meets (G := fun _ _ => True) (fun os s a t h _ => hstep os s a t h) h0
    (.of_forall fun _ _ _ => trivial) he

theorem exec_append {bs : List A} :
    exec step s (as ++ bs) = (exec step s as).bind fun t => exec step t bs := by
  induction as generalizing s with
  | nil => rfl
  | cons a as ih =>
    rw [List.cons_append, exec, exec]
    cases step s a with
    | ok t => exact ih
    | blocked => rfl
    | fault => rfl

theorem exec_snoc_ok {u : S} (he : exec step s as = .ok t) (h : step t a = .ok u) :
    exec step s (as ++ [a]) = .ok u := by
  rw [exec_append, he, Outcome.bind_ok, exec_cons_ok h, exec_nil]

/-- Each step is answered by a run of another system, and so is the whole run; `J` holds of the notes
and the two states. -/
theorem exec_simulates {T B : Type*} {step' : T → B → Outcome T} {acts : S → A → List B}
    {J : List O → S → T → Prop} {x : T}
    (hstep : ∀ os s a s' x, J os s x → step s a = .ok s' →
      ∃ y, exec step' x (acts s a) = .ok y ∧ J (os ++ obs s a) s' y)
    (h0 : J os s x) (he : exec step s as = .ok t) :
    ∃ y, exec step' x (trace step acts s as) = .ok y ∧ J (os ++ trace step obs s as) t y := by
  induction as generalizing s os x with
  | nil =>
    rw [exec_nil, Outcome.ok.injEq] at he
    rw [trace, trace, List.append_nil, ← he]
    exact ⟨x, rfl, h0⟩
  | cons a as ih =>
    obtain ⟨r, hr, hrest⟩ := exec_cons_eq_ok.mp he
    obtain ⟨y, hy, hJ⟩ := hstep os s a r x h0 hr
    obtain ⟨z, hz, hlast⟩ := ih hJ hrest
    refine ⟨z, ?_, ?_⟩
    · rw [trace_cons_ok hr, exec_append, hy, Outcome.bind_ok, hz]
    · rwa [trace_cons_ok hr, ← List.append_assoc]

end KernelExperiment.Runs
