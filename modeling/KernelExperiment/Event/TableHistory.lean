import KernelExperiment.Event.TableRefinement

/-! Histories of open and close calls. The table stays the list of live events exactly in those
histories that never close its last event. -/

namespace KernelExperiment.Event
open Runs Chain

variable {P : Type*}

/-- What the table means: the nodes reached from `lpmyevent_head` are the live events in creation
order, none of them freed, `lpmyevent_end` is the last of them, and the search finds every live
event and no closed one. -/
structure Refines (s : Hist P) : Prop where
  chain : Linked s.table.mem s.table.lpmyeventHead s.live none
  last : s.table.lpmyeventEnd = s.live.getLast?
  null_iff : s.table.lpmyeventEnd = none ↔ s.table.lpmyeventHead = none
  found : ∀ a ∈ s.live, ∃ e prev, s.table.mem a = some e ∧
    scheventNum s.table e.eventNum = some (some a, prev)
  closed : ∀ n ∈ s.closed, ∃ prev, scheventNum s.table n = some (none, prev)

def releaseItem (s : Hist P) (eventNum : Int) : Option Addr :=
  (scheventNum s.table eventNum).bind Prod.fst

/-- The call is not the close of the event at the end of the table. -/
def NotLastClosed (s : Hist P) : Call → Prop
  | .opens .. => True
  | .close eventNum => ∀ a ∈ releaseItem s eventNum, s.table.lpmyeventEnd ≠ some a

instance (s : Hist P) : DecidablePred (NotLastClosed s)
  | .opens .. => inferInstanceAs (Decidable True)
  | .close eventNum =>
    inferInstanceAs (Decidable (∀ a ∈ releaseItem s eventNum, s.table.lpmyeventEnd ≠ some a))

structure Consistent (s : Hist P) : Prop where
  linked : WellLinked s.table s.live
  closed : ∀ n ∈ s.closed, ∀ b ∈ s.live, numberOf s.table.mem b ≠ some n

theorem consistent_empty : Consistent (Hist.empty : Hist P) :=
  ⟨wellLinked_empty, by simp [Hist.empty]⟩

theorem Consistent.refines {s : Hist P} (h : Consistent s) : Refines s := by
  refine ⟨h.linked.chain, h.linked.last, ?_, fun a ha => ?_, fun n hn => ?_⟩
  · rw [h.linked.last, h.linked.chain.head, List.getLast?_eq_none_iff, List.head?_eq_none_iff]
  · obtain ⟨e, he⟩ := h.linked.chain.allocated ha
    obtain ⟨pre, post, hlive⟩ := List.append_of_mem ha
    have hl := h.linked
    rw [hlive] at hl
    exact ⟨e, _, he, hl.found (by simp [numberOf, he])⟩
  · exact ⟨_, h.linked.missing (h.closed n hn)⟩

/-! One call from a consistent table. -/

theorem Consistent.opens {s : Hist P} (h : Consistent s) (n c : Int) (new : Addr) :
    s.step (.opens n c new) = .blocked ∨
      ∃ t, s.step (.opens n c new) = .ok t ∧ Consistent t := by
  by_cases hb : n = 0 ∨ (s.table.mem new).isSome
  · exact Or.inl (by simp only [Hist.step, if_pos hb])
  · obtain ⟨hn, hmem⟩ := not_or.mp hb
    have hfree : s.table.mem new = none := by simpa using hmem
    right
    rcases h.linked.opens hn c hfree 0 with hopen | ⟨r, t, hr, hopen, hw⟩
    · exact ⟨{ s with closed := none }, by simp [Hist.step, hb, hopen], h.linked, by simp⟩
    · exact ⟨⟨t, s.live ++ [new], none⟩, by simp [Hist.step, hb, hopen, hr], hw, by simp⟩

/-- A close goes wrong exactly when it takes the last event. -/
theorem Consistent.close {s : Hist P} (h : Consistent s) (n : Int) :
    ∃ t, s.step (.close n) = .ok t ∧
      ((NotLastClosed s (.close n) ∧ Consistent t) ∨
        (¬NotLastClosed s (.close n) ∧ ¬Refines t)) := by
  rcases number_cases s.table.mem s.live n with hnum | ⟨a, pre, post, hlive, hnum⟩
  · have hfind := h.linked.missing hnum
    have hclose := h.linked.close_missing hnum
    refine ⟨{ s with closed := none }, by simp [Hist.step, hfind, hclose],
      Or.inl ⟨?_, h.linked, by simp⟩⟩
    simp [NotLastClosed, releaseItem, hfind]
  · have hw := h.linked
    rw [hlive] at hw
    have hfind := hw.found hnum
    have herase : s.live.erase a = pre ++ post := by
      have hna : a ∉ pre := fun hm =>
        (List.nodup_append.mp hw.nodup).2.2 a hm a (List.mem_cons_self ..) rfl
      rw [hlive, List.erase_append_right _ hna, List.erase_cons_head]
    rcases List.eq_nil_or_concat' post with rfl | ⟨post, l, rfl⟩
    · obtain ⟨t, hclose, hbad⟩ := hw.threaded.close_last hnum
      refine ⟨⟨t, s.live.erase a, some n⟩, by simp [Hist.step, hfind, hclose], Or.inr ⟨?_, ?_⟩⟩
      · intro hlast
        apply hlast a (by simp [releaseItem, hfind])
        rw [hw.last, List.getLast?_concat]
      · -- the walk still reaches the freed node where the list of live events ends
        intro hr
        have hend : Linked t.mem t.lpmyeventHead pre none := by
          simpa only [herase, List.append_nil] using hr.chain
        cases hbad.chain.stop_unique hend
    · obtain ⟨t, hclose, hw', hmiss⟩ := hw.close_found hnum (by simp)
      refine ⟨⟨t, s.live.erase a, some n⟩, by simp [Hist.step, hfind, hclose], Or.inl ⟨?_, ?_, ?_⟩⟩
      · intro b hb
        have hab : b = a := by simpa [releaseItem, hfind, eq_comm] using hb
        have hal : l ≠ a := fun he =>
          (List.nodup_cons.mp (List.nodup_append.mp hw.nodup).2.1).1 (by simp [he])
        have hlast : s.table.lpmyeventEnd = some l := by
          rw [hw.last]
          simp [List.getLast?_append, List.getLast?_cons]
        rw [hlast, hab]
        simpa using hal
      · rw [herase]
        exact hw'
      · intro m hm b hb
        have hmn : m = n := by simpa [eq_comm] using hm
        rw [hmn]
        exact hmiss b (herase ▸ hb)

theorem consistent_step {s t : Hist P} {call : Call} (h : Consistent s)
    (hg : NotLastClosed s call) (hs : s.step call = .ok t) : Consistent t := by
  cases call with
  | opens n c new =>
    rcases h.opens n c new with hb | ⟨t', ht', hc⟩
    · rw [hb] at hs
      cases hs
    · rw [ht', Outcome.ok.injEq] at hs
      exact hs ▸ hc
  | close n =>
    obtain ⟨t', ht', ⟨-, hc⟩ | ⟨hng, -⟩⟩ := h.close n
    · rw [ht', Outcome.ok.injEq] at hs
      exact hs ▸ hc
    · exact absurd hg hng

theorem Consistent.no_fault {s : Hist P} (h : Consistent s) (call : Call) :
    s.step call ≠ .fault := by
  cases call with
  | opens n c new =>
    rcases h.opens n c new with hb | ⟨t, ht, -⟩
    · simp [hb]
    · simp [ht]
  | close n =>
    obtain ⟨t, ht, -⟩ := h.close n
    simp [ht]

theorem notLastClosed_of_refines {s t : Hist P} {call : Call} (h : Consistent s)
    (hs : s.step call = .ok t) (hr : Refines t) : NotLastClosed s call := by
  cases call with
  | opens n c new => trivial
  | close n =>
    obtain ⟨t', ht', ⟨hg, -⟩ | ⟨-, hbad⟩⟩ := h.close n
    · exact hg
    · rw [ht', Outcome.ok.injEq] at hs
      exact absurd (hs ▸ hr) hbad

theorem notLastClosed_of_blocked {s : Hist P} {call : Call} (hs : s.step call = .blocked) :
    NotLastClosed s call := by
  cases call with
  | opens n c new => trivial
  | close n =>
    exfalso
    simp only [Hist.step] at hs
    split at hs <;> cases hs

/-- A history is free of faults and keeps the table equal to the live events after every call
exactly when no call closes the event at the end of the table. -/
theorem refines_iff_notLastClosed (calls : List Call) :
    (exec Hist.step (Hist.empty : Hist P) calls ≠ .fault ∧
        Always Hist.step Refines (Hist.empty : Hist P) calls) ↔
      Meets Hist.step NotLastClosed (Hist.empty : Hist P) calls :=
  safe_always_iff_meets (fun _ _ _ => consistent_step) (fun _ call hc _ => hc.no_fault call)
    (fun _ _ => notLastClosed_of_blocked) (fun _ _ _ => notLastClosed_of_refines)
    (fun _ => Consistent.refines) consistent_empty

theorem close_only_event_dangles :
    ¬ ∀ calls : List Call, Always Hist.step Refines (Hist.empty : Hist ℕ) calls := by
  intro h
  have hrun : (exec Hist.step (Hist.empty : Hist ℕ) [.opens 1 1 0, .close 2]).map
      (fun s => (s.live, s.table.lpmyeventHead)) = .ok ([], some 0) := by decide
  obtain ⟨s, hs, hn⟩ := Outcome.map_eq_ok.mp hrun
  obtain ⟨hlive, hhead⟩ := Prod.mk.inj hn
  have hchain := ((h _).last hs).chain
  rw [hlive, hhead] at hchain
  cases hchain

end KernelExperiment.Event
