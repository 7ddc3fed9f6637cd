import KernelExperiment.Event.TableRefinement

/-! The event table after closes of its last event. The node freed there stays linked behind the
live ones, so a search either finds a live event before it or goes on into freed memory. -/

namespace KernelExperiment.Event
open Chain

variable {P : Type*} {t : Table P} {live pre post : List Addr} {stop : Option Addr} {a : Addr}
  {n : Int}

/-- A node may change as long as its number and its link stay. -/
theorem Threaded.write (h : Threaded t live stop) {e w : MyEvent P} (he : t.mem a = some e)
    (hnum : w.eventNum = e.eventNum) (hnext : w.next = e.next) :
    Threaded (t.write a w) live stop := by
  refine ⟨h.chain.set he hnext, fun f hf => ?_, h.last, h.nodup, h.length_le,
    fun x hx y hy hxy => ?_⟩
  · have hfa : f ≠ a := by
      rintro rfl
      cases he.symm.trans (h.freed f hf)
    exact (Function.update_of_ne hfa ..).trans (h.freed f hf)
  · have hsame := numberOf_update_some he hnum
    exact h.distinct x hx y hy (by rw [← hsame x, ← hsame y]; exact hxy)

theorem Threaded.lost {f : Addr} (h : Threaded t live (some f))
    (hn : ∀ b ∈ live, numberOf t.mem b ≠ some n) : scheventNum t n = none :=
  scheventWalk_freed hn (h.freed f rfl) h.chain

/-- A search that returns finds the live event with the number, if there is one. -/
theorem Threaded.search (h : Threaded t live stop) (n : Int) :
    ((∀ b ∈ live, numberOf t.mem b ≠ some n) ∧ ∀ b prev, scheventNum t n ≠ some (some b, prev)) ∨
      ∃ a pre post, live = pre ++ a :: post ∧ numberOf t.mem a = some n ∧
        scheventNum t n = some (some a, pre.getLast?) := by
  rcases number_cases t.mem live n with hnum | ⟨a, pre, post, rfl, hnum⟩
  · refine Or.inl ⟨hnum, fun b prev hfind => ?_⟩
    cases stop with
    | none => cases (h.wellLinked.missing hnum).symm.trans hfind
    | some f => cases (h.lost hnum).symm.trans hfind
  · exact Or.inr ⟨a, pre, post, rfl, hnum, h.found hnum⟩

theorem Threaded.opens_lost {f : Addr} (h : Threaded t live (some f)) (hn : n ≠ 0)
    (hnum : ∀ b ∈ live, numberOf t.mem b ≠ some n) (c : Int) (kmalloc : Option Addr)
    (uninit : Int) : myeventOpen t n c kmalloc uninit = none := by
  rw [myeventOpen, if_neg hn, h.lost hnum]
  rfl

/-- An open that returns found its number taken, or appended a node to an intact list. -/
theorem Threaded.opens (h : Threaded t live stop) (hn : n ≠ 0) {c : Int} {new : Addr}
    (hnew : t.mem new = none) {uninit r : Int} {t' : Table P}
    (hopen : myeventOpen t n c (some new) uninit = some (r, t')) :
    (r = 0 ∧ t' = t) ∨ (r ≠ 0 ∧ stop = none ∧ Threaded t' (live ++ [new]) none) := by
  rcases number_cases t.mem live n with hnum | ⟨a, pre, post, rfl, hnum⟩
  · cases stop with
    | none =>
      rcases h.wellLinked.opens hn c hnew uninit with hsame | ⟨r', t'', hr, hnew', hw⟩
      · rw [hsame, Option.some.injEq, Prod.mk.injEq] at hopen
        exact Or.inl ⟨hopen.1.symm, hopen.2.symm⟩
      · rw [hnew', Option.some.injEq, Prod.mk.injEq] at hopen
        obtain ⟨rfl, rfl⟩ := hopen
        exact Or.inr ⟨hr, rfl, hw.threaded⟩
    | some f => cases (h.opens_lost hn hnum c _ uninit).symm.trans hopen
  · rw [h.opens_existing hn hnum c _ uninit, Option.some.injEq, Prod.mk.injEq] at hopen
    exact Or.inl ⟨hopen.1.symm, hopen.2.symm⟩

/-! Closing. -/

theorem Threaded.erase_eq (h : Threaded t (pre ++ a :: post) stop) :
    (pre ++ a :: post).erase a = pre ++ post := by
  have hpre : a ∉ pre := fun hm => h.notMem_rest (List.mem_append_left _ hm)
  rw [List.erase_append_right _ hpre, List.erase_cons_head]

/-- Once the node is unlinked, the signal of the close reaches it no more. -/
theorem Threaded.signal_unlinked (h : Threaded t (pre ++ a :: post) stop)
    (hnum : numberOf t.mem a = some n) (hpost : post ≠ []) :
    ∃ t', Event.unlink t a pre.getLast? = some t' ∧ Threaded t' (pre ++ post) stop ∧
      ∀ b ∈ pre ++ post, numberOf t'.mem b ≠ some n := by
  obtain ⟨t', hunlink, hw, hsame⟩ := h.unlink hpost
  refine ⟨t', hunlink, hw, fun b hb => ?_⟩
  rw [hsame b]
  exact h.missing_rest hnum b hb

theorem Threaded.close_middle (h : Threaded t (pre ++ a :: post) stop)
    (hnum : numberOf t.mem a = some n) (hpost : post ≠ []) {r : Int × Table P}
    (hclose : myeventClose t n = some r) :
    stop = none ∧ r.1 = n ∧ Threaded r.2 (pre ++ post) none ∧ wokenByClose t n = none := by
  obtain ⟨t', hunlink, hw, hmiss⟩ := h.signal_unlinked hnum hpost
  have hfound := h.found hnum
  cases stop with
  | none =>
    have hsignal := hw.wellLinked.signal_missing hmiss
    have hsearch := hw.wellLinked.missing hmiss
    rw [myeventClose, hfound, Option.bind_some] at hclose
    simp only [hunlink, Option.bind_some, hsignal, Option.map_some, Option.some.injEq] at hclose
    subst hclose
    refine ⟨rfl, rfl, hw.kfree h.notMem_rest, ?_⟩
    simp only [wokenByClose, hfound, hunlink, Option.bind_some, wokenBySignal, hsearch,
      Option.bind_none]
  | some f =>
    -- the signal walks past the end of the list
    have hsearch := hw.lost hmiss
    rw [myeventClose, hfound, Option.bind_some] at hclose
    simp only [hunlink, Option.bind_some, myeventSignal, hsearch, Option.bind_none,
      Option.map_none] at hclose
    cases hclose

theorem Threaded.woken_last (h : Threaded t (pre ++ [a]) stop) (hnum : numberOf t.mem a = some n)
    {e : MyEvent P} (he : t.mem a = some e) :
    wokenByClose t n = if e.lockedInc.count ≤ 0 then e.p.head? else none := by
  have hend : some a = t.lpmyeventEnd := by rw [h.last, List.getLast?_concat]
  have hfound := h.found hnum
  have hfound' : scheventNum { t with lpmyeventEnd := pre.getLast? } n =
      some (some a, pre.getLast?) := hfound
  have hhead : e.lockedInc.wakeUp.1 = e.p.head? := by
    rw [MyEvent.wakeUp_fst, MyEvent.lockedInc_p]
  simp only [wokenByClose, hfound, Option.bind_some, Event.unlink, if_pos hend, wokenBySignal,
    hfound', he, hhead]

theorem Threaded.close_missing (h : Threaded t live stop)
    (hmiss : ∀ b ∈ live, numberOf t.mem b ≠ some n) {r : Int} {t' : Table P}
    (hclose : myeventClose t n = some (r, t')) : t' = t := by
  cases stop with
  | none =>
    rw [h.wellLinked.close_missing hmiss, Option.some.injEq, Prod.mk.injEq] at hclose
    exact hclose.2.symm
  | some f =>
    rw [myeventClose, h.lost hmiss] at hclose
    cases hclose

theorem Threaded.close (h : Threaded t (pre ++ a :: post) stop) (hnum : numberOf t.mem a = some n)
    {r : Int} {t' : Table P} (hclose : myeventClose t n = some (r, t')) :
    ∃ stop', Threaded t' (pre ++ post) stop' := by
  rcases eq_or_ne post [] with rfl | hpost
  · obtain ⟨t'', hlast, hw⟩ := h.close_last hnum
    rw [hlast, Option.some.injEq, Prod.mk.injEq] at hclose
    obtain ⟨rfl, rfl⟩ := hclose
    exact ⟨some a, by rwa [List.append_nil]⟩
  · obtain ⟨-, -, hw, -⟩ := h.close_middle hnum hpost hclose
    exact ⟨none, hw⟩

end KernelExperiment.Event
