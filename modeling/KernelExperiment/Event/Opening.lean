import KernelExperiment.Event.Callers

/-! What `myevent_open` does with the number it is given, in every table that the processes reach. -/

namespace KernelExperiment.Event.Callers
open Runs Chain

variable {P : Type*} {t t' : Table P} {live : List Addr} {new : Addr} {n c : Int}

/-- A live event has the number. -/
def Taken (t : Table P) (live : List Addr) (n : Int) : Prop :=
  ∃ b ∈ live, numberOf t.mem b = some n

/-- The event that `scheventNum` finds. -/
def lookup (t : Table P) (n : Int) : Option (Option Addr) := (scheventNum t n).map Prod.fst

/-- A number that is taken is refused; any other one is given to a new event with the count asked
for, and the searches for other numbers find what they found, with the same members. -/
def Honours (t : Table P) (live : List Addr) (n c : Int) (new : Addr) (uninit : Int) : Prop :=
  (Taken t live n → myeventOpen t n c (some new) uninit = some (0, t)) ∧
    (¬Taken t live n → ∃ t', myeventOpen t n c (some new) uninit = some (n, t') ∧
      lookup t' n = some (some new) ∧ Created t t' new n c ∧
        ∀ m ≠ n, lookup t' m = lookup t m)

/-- The number is taken, or the list of the table ends at NULL and the first event is not asked to
have a number other than 2. -/
def Openable (t : Table P) (live : List Addr) (n : Int) : Prop :=
  Taken t live n ∨ Linked t.mem t.lpmyeventHead live none ∧ (live ≠ [] ∨ n = 2)

theorem lookup_missing (h : WellLinked t live) (hn : ¬Taken t live n) : lookup t n = some none := by
  rw [lookup, h.missing fun b hb hnum => hn ⟨b, hb, hnum⟩]
  rfl

theorem lookup_found (h : WellLinked t live) {b : Addr} (hb : b ∈ live)
    (hnum : numberOf t.mem b = some n) : lookup t n = some (some b) := by
  obtain ⟨pre, post, rfl⟩ := List.append_of_mem hb
  rw [lookup, h.found hnum]
  rfl

/-- Appending a new event changes no other search. -/
theorem lookup_created (h : WellLinked t live) (h' : WellLinked t' (live ++ [new]))
    (hnew : t.mem new = none) (hc : Created t t' new n c) :
    lookup t' n = some (some new) ∧ ∀ m ≠ n, lookup t' m = lookup t m := by
  have hmem := h.notMem hnew
  obtain ⟨e, he, hnum, -⟩ := hc.node
  have hnumber : numberOf t'.mem new = some n := by rw [numberOf, he, Option.map_some, hnum]
  refine ⟨lookup_found h' (by simp) hnumber, fun m hm => ?_⟩
  by_cases htaken : Taken t live m
  · obtain ⟨b, hb, hbm⟩ := htaken
    have hbn : b ≠ new := fun he => hmem (he ▸ hb)
    rw [lookup_found h hb hbm, lookup_found h' (List.mem_append_left _ hb)]
    rw [hc.number hbn, hbm]
  · rw [lookup_missing h htaken, lookup_missing h']
    rintro ⟨b, hb, hbm⟩
    rcases List.mem_append.mp hb with hb | hb
    · have hbn : b ≠ new := fun he => hmem (he ▸ hb)
      exact htaken ⟨b, hb, by rw [← hc.number hbn, hbm]⟩
    · rw [List.mem_singleton.mp hb, hnumber, Option.some.injEq] at hbm
      exact hm hbm.symm

theorem honours_iff {stop : Option Addr} (h : Threaded t live stop) (hn : n ≠ 0)
    (hnew : t.mem new = none) (uninit : Int) :
    Honours t live n c new uninit ↔ Openable t live n := by
  by_cases htaken : Taken t live n
  · obtain ⟨b, hb, hnum⟩ := id htaken
    obtain ⟨pre, post, rfl⟩ := List.append_of_mem hb
    exact iff_of_true ⟨fun _ => h.opens_existing hn hnum c _ uninit, absurd htaken⟩ (Or.inl htaken)
  · have hmiss : ∀ b ∈ live, numberOf t.mem b ≠ some n := fun b hb hnum => htaken ⟨b, hb, hnum⟩
    rw [Honours, Openable, or_iff_right htaken, imp_iff_right htaken,
      and_iff_right fun ht => absurd ht htaken]
    cases stop with
    | some f =>
      -- the search runs into the freed node
      refine iff_of_false ?_ fun ⟨hend, _⟩ => by cases h.chain.stop_unique hend
      rintro ⟨t', hopen, -⟩
      cases (h.opens_lost hn hmiss c _ uninit).symm.trans hopen
    | none =>
      have hw := h.wellLinked
      rcases List.eq_nil_or_concat' live with rfl | ⟨as, l, rfl⟩
      · obtain ⟨t', hopen, hw', hc⟩ := hw.opens_first hn c new uninit
        rw [hopen]
        constructor
        · rintro ⟨t'', heq, -⟩
          rw [Option.some.injEq, Prod.mk.injEq] at heq
          exact ⟨h.chain, Or.inr heq.1.symm⟩
        · rintro ⟨-, hne | rfl⟩
          · exact absurd rfl hne
          · obtain ⟨hfound, hothers⟩ := lookup_created hw hw' hnew hc
            exact ⟨t', rfl, hfound, hc, hothers⟩
      · obtain ⟨t', hopen, hw', hc⟩ := hw.opens_append hn c hnew hmiss uninit
        obtain ⟨hfound, hothers⟩ := lookup_created hw hw' hnew hc
        exact iff_of_true ⟨t', hopen, hfound, hc, hothers⟩ ⟨h.chain, Or.inl (by simp)⟩

variable [DecidableEq P]

/-- In every reachable table the numbers of the live events differ, and an open honours its number
exactly when `Openable` holds. -/
theorem honours_iff_openable {acts : List (Act P)} {s : Sys P}
    (hs : exec Sys.step Sys.initial acts = .ok s) (hn : n ≠ 0)
    (hnew : s.hist.table.mem new = none) (c uninit : Int) :
    (s.hist.live.map (numberOf s.hist.table.mem)).Nodup ∧
      (Honours s.hist.table s.hist.live n c new uninit ↔ Openable s.hist.table s.hist.live n) := by
  obtain ⟨stop, hw⟩ := threaded_run hs
  refine ⟨?_, honours_iff hw hn hnew uninit⟩
  exact List.Nodup.map_on (fun a ha b hb => hw.distinct a ha b hb) hw.nodup

theorem honours_second :
    ∃ s : Sys ℕ, exec Sys.step Sys.initial [.opens 2 1 0] = .ok s ∧
      (s.hist.live.map (numberOf s.hist.table.mem)).Nodup ∧
        (Honours s.hist.table s.hist.live 7 3 1 0 ↔ Openable s.hist.table s.hist.live 7) := by
  have hrun : (exec Sys.step (Sys.initial : Sys ℕ) [.opens 2 1 0]).map
      (fun s => s.hist.table.mem 1) = .ok none := by decide
  obtain ⟨s, hs, hnew⟩ := Outcome.map_eq_ok.mp hrun
  exact ⟨s, hs, honours_iff_openable hs (by decide) hnew 3 0⟩

/-- The first event is opened as number 5. -/
theorem open_renumbers_first :
    ¬ ∀ (acts : List (Act ℕ)) (s : Sys ℕ) (n c : Int) (new : Addr),
      exec Sys.step Sys.initial acts = .ok s → n ≠ 0 → s.hist.table.mem new = none →
        Honours s.hist.table s.hist.live n c new 0 := by
  intro h
  have hfirst := (h [] Sys.initial 5 1 0 rfl (by decide) rfl).2 fun ⟨b, hb, _⟩ => by cases hb
  obtain ⟨t', hopen, -⟩ := hfirst
  have hnumber : (myeventOpen (Sys.initial : Sys ℕ).hist.table 5 1 (some 0) 0).map Prod.fst ≠
      some 5 := by decide
  exact hnumber (by rw [hopen]; rfl)

end KernelExperiment.Event.Callers
