import KernelExperiment.Event.Table
import KernelExperiment.Lib.Chain

/-! The event table against the ordered set of live events. Appending and the removal of a node
that is not the last keep the list; removing the last node leaves it linked after it is freed. -/

namespace KernelExperiment.Event
open Runs Chain

variable {P : Type*}

abbrev Linked (mem : Addr → Option (MyEvent P)) : Option Addr → List Addr → Option Addr → Prop :=
  Seg MyEvent.next mem

def numberOf (mem : Addr → Option (MyEvent P)) (a : Addr) : Option Int :=
  (mem a).map MyEvent.eventNum

theorem numberOf_update_none (mem : Addr → Option (MyEvent P)) {a b : Addr} (h : b ≠ a) :
    numberOf (Function.update mem a none) b = numberOf mem b := by
  rw [numberOf, Function.update_of_ne h, numberOf]

theorem numberOf_update_some {mem : Addr → Option (MyEvent P)} {a : Addr} {e w : MyEvent P}
    (h : mem a = some e) (hn : w.eventNum = e.eventNum) (b : Addr) :
    numberOf (Function.update mem a (some w)) b = numberOf mem b := by
  rcases eq_or_ne b a with rfl | hb
  · simp [numberOf, h, hn]
  · rw [numberOf, Function.update_of_ne hb, numberOf]

/-! The search of `scheventNum` on a list that ends at NULL or in freed memory. -/

theorem scheventWalk_found {mem : Addr → Option (MyEvent P)} {n : Int} {a : Addr}
    {pre post : List Addr} (ha : numberOf mem a = some n)
    (hpre : ∀ b ∈ pre, numberOf mem b ≠ some n)
    {p prev stop : Option Addr} {fuel : ℕ} (hseg : Linked mem p (pre ++ a :: post) stop)
    (hf : pre.length < fuel) :
    scheventWalk mem n fuel p prev = some (some a, pre.getLast?.or prev) := by
  induction pre generalizing p prev fuel with
  | nil =>
    obtain ⟨hp, e, he, -⟩ := hseg
    obtain ⟨fuel, rfl⟩ := Nat.exists_eq_add_of_lt hf
    have hnum : e.eventNum = n := by simpa [numberOf, he] using ha
    simp [hp, scheventWalk, he, hnum]
  | cons b pre ih =>
    obtain ⟨hp, e, he, hrest⟩ := hseg
    obtain ⟨fuel, rfl⟩ : ∃ k, fuel = k + 1 := ⟨fuel - 1, by simp at hf; omega⟩
    have hnum : e.eventNum ≠ n := by
      simpa [numberOf, he] using hpre b (List.mem_cons_self ..)
    have hlt : pre.length < fuel := by simpa using hf
    have hrec := @ih (fun c hc => hpre c (List.mem_cons_of_mem _ hc)) e.next (some b) fuel hrest hlt
    simp [hp, scheventWalk, he, hnum, hrec, List.getLast?_cons]

theorem scheventWalk_missing {mem : Addr → Option (MyEvent P)} {n : Int} {as : List Addr}
    (has : ∀ b ∈ as, numberOf mem b ≠ some n) {p prev : Option Addr} {fuel : ℕ}
    (hseg : Linked mem p as none) (hf : as.length < fuel) :
    scheventWalk mem n fuel p prev = some (none, as.getLast?.or prev) := by
  induction as generalizing p prev fuel with
  | nil =>
    obtain ⟨fuel, rfl⟩ := Nat.exists_eq_add_of_lt hf
    simp [seg_nil.mp hseg, scheventWalk]
  | cons b as ih =>
    obtain ⟨hp, e, he, hrest⟩ := hseg
    obtain ⟨fuel, rfl⟩ : ∃ k, fuel = k + 1 := ⟨fuel - 1, by simp at hf; omega⟩
    have hnum : e.eventNum ≠ n := by
      simpa [numberOf, he] using has b (List.mem_cons_self ..)
    have hlt : as.length < fuel := by simpa using hf
    have hrec := @ih (fun c hc => has c (List.mem_cons_of_mem _ hc)) e.next (some b) fuel hrest hlt
    simp [hp, scheventWalk, he, hnum, hrec, List.getLast?_cons]

theorem scheventWalk_freed {mem : Addr → Option (MyEvent P)} {n : Int} {as : List Addr} {f : Addr}
    (has : ∀ b ∈ as, numberOf mem b ≠ some n) (hf : mem f = none) {p prev : Option Addr} {fuel : ℕ}
    (hseg : Linked mem p as (some f)) : scheventWalk mem n fuel p prev = none := by
  induction as generalizing p prev fuel with
  | nil =>
    cases fuel with
    | zero => rfl
    | succ fuel => simp [seg_nil.mp hseg, scheventWalk, hf]
  | cons b as ih =>
    obtain ⟨hp, e, he, hrest⟩ := hseg
    have hnum : e.eventNum ≠ n := by
      simpa [numberOf, he] using has b (List.mem_cons_self ..)
    cases fuel with
    | zero => rfl
    | succ fuel =>
      have hrec : scheventWalk mem n fuel e.next (some b) = none :=
        ih (fun c hc => has c (List.mem_cons_of_mem _ hc)) hrest
      simp [hp, scheventWalk, he, hnum, hrec]

/-- The list of the table is the given one, short enough for the search, with distinct numbers. -/
structure WellLinked (t : Table P) (live : List Addr) : Prop where
  chain : Linked t.mem t.lpmyeventHead live none
  last : t.lpmyeventEnd = live.getLast?
  nodup : live.Nodup
  length_le : live.length ≤ t.nalloc
  distinct : ∀ a ∈ live, ∀ b ∈ live, numberOf t.mem a = numberOf t.mem b → a = b

theorem wellLinked_empty : WellLinked (Table.empty : Table P) [] :=
  ⟨rfl, rfl, List.nodup_nil, Nat.zero_le _, by simp⟩

/-- As `WellLinked`, but the list may go on into freed memory where it should end. -/
structure Threaded (t : Table P) (live : List Addr) (stop : Option Addr) : Prop where
  chain : Linked t.mem t.lpmyeventHead live stop
  freed : ∀ f ∈ stop, t.mem f = none
  last : t.lpmyeventEnd = live.getLast?
  nodup : live.Nodup
  length_le : live.length ≤ t.nalloc
  distinct : ∀ a ∈ live, ∀ b ∈ live, numberOf t.mem a = numberOf t.mem b → a = b

theorem WellLinked.threaded {t : Table P} {live : List Addr} (h : WellLinked t live) :
    Threaded t live none :=
  ⟨h.chain, fun _ hf => (by cases hf), h.last, h.nodup, h.length_le, h.distinct⟩

theorem Threaded.wellLinked {t : Table P} {live : List Addr} (h : Threaded t live none) :
    WellLinked t live :=
  ⟨h.chain, h.last, h.nodup, h.length_le, h.distinct⟩

theorem Threaded.found {t : Table P} {pre post : List Addr} {stop : Option Addr} {a : Addr} {n : Int}
    (h : Threaded t (pre ++ a :: post) stop) (ha : numberOf t.mem a = some n) :
    scheventNum t n = some (some a, pre.getLast?) := by
  have hpre : ∀ b ∈ pre, numberOf t.mem b ≠ some n := by
    intro b hb hn
    have hba := h.distinct b (by simp [hb]) a (by simp) (hn.trans ha.symm)
    have hdis := (List.nodup_append.mp h.nodup).2.2
    exact hdis b hb a (List.mem_cons_self ..) hba
  have hlen := h.length_le
  rw [List.length_append, List.length_cons] at hlen
  have hfuel : pre.length < t.nalloc + 1 := by omega
  rw [scheventNum, scheventWalk_found ha hpre h.chain hfuel, Option.or_none]

theorem WellLinked.found {t : Table P} {pre post : List Addr} {a : Addr} {n : Int}
    (h : WellLinked t (pre ++ a :: post)) (ha : numberOf t.mem a = some n) :
    scheventNum t n = some (some a, pre.getLast?) :=
  h.threaded.found ha

theorem WellLinked.missing {t : Table P} {live : List Addr} {n : Int} (h : WellLinked t live)
    (hn : ∀ b ∈ live, numberOf t.mem b ≠ some n) :
    scheventNum t n = some (none, live.getLast?) := by
  have hlen := h.length_le
  have hfuel : live.length < t.nalloc + 1 := by omega
  rw [scheventNum, scheventWalk_missing hn h.chain hfuel, Option.or_none]

theorem number_cases (mem : Addr → Option (MyEvent P)) (live : List Addr) (n : Int) :
    (∀ b ∈ live, numberOf mem b ≠ some n) ∨
      ∃ a pre post, live = pre ++ a :: post ∧ numberOf mem a = some n := by
  by_cases hex : ∃ a ∈ live, numberOf mem a = some n
  · obtain ⟨a, ha, hn⟩ := hex
    obtain ⟨pre, post, rfl⟩ := List.append_of_mem ha
    exact Or.inr ⟨a, pre, post, rfl, hn⟩
  · exact Or.inl fun b hb hn => hex ⟨b, hb, hn⟩

/-! Opening. -/

theorem WellLinked.notMem {t : Table P} {live : List Addr} (h : WellLinked t live) {a : Addr}
    (ha : t.mem a = none) : a ∉ live := by
  intro hm
  obtain ⟨e, he⟩ := h.chain.allocated hm
  rw [ha] at he
  cases he

theorem Threaded.opens_existing {t : Table P} {pre post : List Addr} {stop : Option Addr} {a : Addr}
    {n : Int} (h : Threaded t (pre ++ a :: post) stop) (hn : n ≠ 0)
    (hnum : numberOf t.mem a = some n) (c : Int) (kmalloc : Option Addr) (uninit : Int) :
    myeventOpen t n c kmalloc uninit = some (0, t) := by
  rw [myeventOpen, if_neg hn, h.found hnum]
  rfl

/-- What an open with count `c` leaves in memory: the new event with its number, and every other
node as it was but for its link. -/
structure Created (t t' : Table P) (new : Addr) (n c : Int) : Prop where
  node : ∃ e, t'.mem new = some e ∧ e.eventNum = n ∧ e.count = c ∧ e.initCount = c ∧ e.p = []
  others : ∀ b ≠ new, (t'.mem b).map MyEvent.data = (t.mem b).map MyEvent.data

theorem Created.number {t t' : Table P} {new b : Addr} {n c : Int} (h : Created t t' new n c)
    (hb : b ≠ new) : numberOf t'.mem b = numberOf t.mem b := by
  have hdata := congrArg (Option.map MyEvent.eventNum) (h.others b hb)
  rwa [Option.map_map, Option.map_map] at hdata

theorem WellLinked.opens_first {t : Table P} (h : WellLinked t []) {n : Int} (hn : n ≠ 0) (c : Int)
    (new : Addr) (uninit : Int) :
    ∃ t', myeventOpen t n c (some new) uninit = some (2, t') ∧ WellLinked t' [new] ∧
      Created t t' new 2 c := by
  have hhead : t.lpmyeventHead = none := h.chain.head
  have hfind := h.missing (n := n) (by simp)
  refine ⟨_, by rw [myeventOpen, if_neg hn, hfind]; simp [hhead]; rfl, ?_, ?_⟩
  · refine ⟨?_, rfl, List.nodup_singleton new, by simp [Table.write], fun a ha b hb _ => ?_⟩
    · exact ⟨rfl, _, Function.update_self .., rfl⟩
    · rw [List.mem_singleton.mp ha, List.mem_singleton.mp hb]
  · refine ⟨⟨_, Function.update_self .., rfl, rfl, rfl, rfl⟩, fun b hb => ?_⟩
    exact congrArg _ (Function.update_of_ne hb ..)

/-- A new number at the end keeps the numbers distinct. -/
theorem distinct_concat {mem mem' : Addr → Option (MyEvent P)}
    {as : List Addr} {new : Addr} {n : Int}
    (h : ∀ x ∈ as, ∀ y ∈ as, numberOf mem x = numberOf mem y → x = y)
    (hkept : ∀ b ∈ as, numberOf mem' b = numberOf mem b) (hnew : numberOf mem' new = some n)
    (hnum : ∀ b ∈ as, numberOf mem b ≠ some n) :
    ∀ x ∈ as ++ [new], ∀ y ∈ as ++ [new], numberOf mem' x = numberOf mem' y → x = y := by
  intro x hx y hy hxy
  rcases List.mem_append.mp hx with hx | hx <;> rcases List.mem_append.mp hy with hy | hy
  · exact h x hx y hy (by rwa [hkept x hx, hkept y hy] at hxy)
  · rw [List.mem_singleton.mp hy, hkept x hx, hnew] at hxy
    exact absurd hxy (hnum x hx)
  · rw [List.mem_singleton.mp hx, hkept y hy, hnew] at hxy
    exact absurd hxy.symm (hnum y hy)
  · rw [List.mem_singleton.mp hx, List.mem_singleton.mp hy]

theorem WellLinked.opens_append {t : Table P} {as : List Addr} {l : Addr}
    (h : WellLinked t (as ++ [l])) {n : Int} (hn : n ≠ 0) (c : Int) {new : Addr}
    (hnew : t.mem new = none) (hnum : ∀ b ∈ as ++ [l], numberOf t.mem b ≠ some n) (uninit : Int) :
    ∃ t', myeventOpen t n c (some new) uninit = some (n, t') ∧
      WellLinked t' (as ++ [l] ++ [new]) ∧ Created t t' new n c := by
  have hmem := h.notMem hnew
  have hne : l ≠ new := fun he => hmem (by simp [he])
  have hlast : t.lpmyeventEnd = some l := by rw [h.last, List.getLast?_concat]
  have hfind := h.missing hnum
  obtain ⟨el, hel⟩ := h.chain.allocated (a := l) (by simp)
  have hhead : ∃ a, t.lpmyeventHead = some a := by
    rw [h.chain.head]
    cases as <;> simp
  obtain ⟨a, ha⟩ := hhead
  have hl : l ∉ as := fun hm => (List.nodup_append.mp h.nodup).2.2 l hm l (by simp) rfl
  refine ⟨{ t with
    mem := Function.update (Function.update t.mem new (some (MyEvent.create n c))) l
      (some { el with next := some new })
    lpmyeventEnd := some new
    nalloc := t.nalloc + 1 }, ?_, ?_, ?_⟩
  · rw [myeventOpen, if_neg hn, hfind]
    simp [ha, hlast, Table.setNext, Table.write, Function.update_of_ne hne, hel]
  · have hl' : Function.update t.mem new (some (MyEvent.create n c)) l = some el := by
      rw [Function.update_of_ne hne, hel]
    have hnumber : ∀ b ∈ as ++ [l], numberOf (Function.update (Function.update t.mem new
        (some (MyEvent.create n c))) l (some { el with next := some new })) b =
          numberOf t.mem b := by
      intro b hb
      have hbn : b ≠ new := fun he => hmem (he ▸ hb)
      rw [numberOf_update_some (w := { el with next := some new }) hl' rfl, numberOf,
        Function.update_of_ne hbn, numberOf]
    have hnewnum : numberOf (Function.update (Function.update t.mem new
        (some (MyEvent.create n c))) l (some { el with next := some new })) new = some n := by
      rw [numberOf, Function.update_of_ne (Ne.symm hne), Function.update_self]
      rfl
    refine ⟨h.chain.snoc hl hmem rfl rfl, (List.getLast?_concat ..).symm, ?_, ?_,
      distinct_concat h.distinct hnumber hnewnum hnum⟩
    · exact List.nodup_append.mpr ⟨h.nodup, List.nodup_singleton new, fun a ha b hb he =>
        hmem (by rw [← List.mem_singleton.mp hb, ← he]; exact ha)⟩
    · have hlen := h.length_le
      rw [List.length_append, List.length_singleton]
      simp only
      omega
  · refine ⟨⟨MyEvent.create n c, ?_, rfl, rfl, rfl, rfl⟩, fun b hb => ?_⟩
    · exact (Function.update_of_ne (Ne.symm hne) ..).trans (Function.update_self ..)
    · rcases eq_or_ne b l with rfl | hbl
      · simp [hel, MyEvent.data]
      · simp only [Function.update_of_ne hbl, Function.update_of_ne hb]

theorem WellLinked.opens {t : Table P} {live : List Addr} (h : WellLinked t live) {n : Int}
    (hn : n ≠ 0) (c : Int) {new : Addr} (hnew : t.mem new = none) (uninit : Int) :
    myeventOpen t n c (some new) uninit = some (0, t) ∨
      ∃ r t', r ≠ 0 ∧ myeventOpen t n c (some new) uninit = some (r, t') ∧
        WellLinked t' (live ++ [new]) := by
  rcases number_cases t.mem live n with hnum | ⟨a, pre, post, rfl, hnum⟩
  · rcases List.eq_nil_or_concat' live with rfl | ⟨as, l, rfl⟩
    · obtain ⟨t', ht', hw, -⟩ := h.opens_first hn c new uninit
      exact Or.inr ⟨2, t', by decide, ht', hw⟩
    · obtain ⟨t', ht', hw, -⟩ := h.opens_append hn c hnew hnum uninit
      exact Or.inr ⟨n, t', hn, ht', hw⟩
  · exact Or.inl (h.threaded.opens_existing hn hnum c _ uninit)

/-! Closing. -/

theorem WellLinked.signal_missing {t : Table P} {live : List Addr} (h : WellLinked t live) {n : Int}
    (hn : ∀ b ∈ live, numberOf t.mem b ≠ some n) : myeventSignal t n = some (0, t) := by
  rw [myeventSignal, h.missing hn]
  rfl

theorem Threaded.kfree {t : Table P} {live : List Addr} {stop : Option Addr}
    (h : Threaded t live stop) {a : Addr} (ha : a ∉ live) : Threaded (t.kfree a) live stop := by
  refine ⟨h.chain.frame ha none, fun f hf => ?_, h.last, h.nodup, h.length_le,
    fun x hx y hy hxy => ?_⟩
  · rcases eq_or_ne f a with rfl | hne
    · exact Function.update_self ..
    · exact (Function.update_of_ne hne ..).trans (h.freed f hf)
  have hxa : x ≠ a := fun he => ha (he ▸ hx)
  have hya : y ≠ a := fun he => ha (he ▸ hy)
  apply h.distinct x hx y hy
  simpa only [Table.kfree, numberOf_update_none _ hxa, numberOf_update_none _ hya] using hxy

/-! Taking out a node that is not the last one. -/

theorem getLast?_middle {pre post : List Addr} {a : Addr} (hpost : post ≠ []) :
    (pre ++ a :: post).getLast? = (pre ++ post).getLast? := by
  rw [List.getLast?_append_of_ne_nil _ (List.cons_ne_nil a post),
    List.getLast?_append_of_ne_nil _ hpost, List.getLast?_cons_of_ne_nil hpost]

theorem Threaded.ne_end {t : Table P} {pre post : List Addr} {stop : Option Addr} {a : Addr}
    (h : Threaded t (pre ++ a :: post) stop) (hpost : post ≠ []) : some a ≠ t.lpmyeventEnd := by
  rw [h.last, getLast?_middle hpost, List.getLast?_append_of_ne_nil _ hpost]
  intro heq
  have hnd := (List.nodup_append.mp h.nodup).2.1
  exact (List.nodup_cons.mp hnd).1 (List.mem_of_getLast? heq.symm)

theorem Threaded.unlink_first {t : Table P} {post : List Addr} {stop : Option Addr} {a : Addr}
    (h : Threaded t (a :: post) stop) (hpost : post ≠ []) :
    ∃ t', unlink t a none = some t' ∧ Threaded t' post stop ∧
      ∀ b, numberOf t'.mem b = numberOf t.mem b := by
  obtain ⟨hhead, e, he, hrest⟩ := seg_cons.mp h.chain
  have hend : some a ≠ t.lpmyeventEnd :=
    (show Threaded t ([] ++ a :: post) stop from h).ne_end hpost
  have hsub : post.Sublist (a :: post) := List.sublist_cons_self a post
  refine ⟨{ t with lpmyeventHead := e.next }, ?_, ?_, fun b => rfl⟩
  · rw [Event.unlink, if_neg hend, he, Option.bind_some, if_pos hhead.symm]
  · exact ⟨hrest, h.freed, h.last.trans (List.getLast?_cons_of_ne_nil hpost),
      h.nodup.sublist hsub, hsub.length_le.trans h.length_le,
      fun x hx y hy => h.distinct x (hsub.subset hx) y (hsub.subset hy)⟩

theorem Threaded.unlink_behind {t : Table P} {pre post : List Addr} {stop : Option Addr}
    {a b : Addr} (h : Threaded t (pre ++ b :: a :: post) stop) (hpost : post ≠ []) :
    ∃ t', unlink t a (some b) = some t' ∧ Threaded t' (pre ++ b :: post) stop ∧
      ∀ c, numberOf t'.mem c = numberOf t.mem c := by
  have h' : Threaded t ((pre ++ [b]) ++ a :: post) stop := by
    rw [List.append_assoc]
    exact h
  obtain ⟨e, he⟩ := h.chain.allocated (a := a) (by simp)
  obtain ⟨eb, heb⟩ := h.chain.allocated (a := b) (by simp)
  have hsub : (pre ++ b :: post).Sublist (pre ++ b :: a :: post) :=
    ((List.sublist_cons_self a post).cons_cons b).append_left pre
  have hnumber : ∀ c, numberOf (t.write b { eb with next := e.next }).mem c = numberOf t.mem c :=
    numberOf_update_some (w := { eb with next := e.next }) heb rfl
  have hhead : some a ≠ t.lpmyeventHead := by
    rw [h.chain.head_of_ne_nil (by simp)]
    intro heq
    have hmem : a ∈ pre ++ [b] := by
      cases pre with
      | nil => simpa using heq
      | cons x pre => simp at heq; simp [heq]
    exact (List.nodup_append.mp h'.nodup).2.2 a hmem a (List.mem_cons_self ..) rfl
  have hlast : (pre ++ b :: a :: post).getLast? = (pre ++ b :: post).getLast? := by
    have hmiddle : ((pre ++ [b]) ++ a :: post).getLast? = ((pre ++ [b]) ++ post).getLast? :=
      getLast?_middle hpost
    rwa [List.append_assoc, List.append_assoc] at hmiddle
  refine ⟨t.write b { eb with next := e.next }, ?_, ?_, hnumber⟩
  · rw [Event.unlink, if_neg (h'.ne_end hpost), he, Option.bind_some, if_neg hhead]
    simp [Table.setNext, heb]
  · refine ⟨h.chain.bypass h.nodup he rfl, fun f hf => ?_, h.last.trans hlast,
      h.nodup.sublist hsub, hsub.length_le.trans h.length_le, fun x hx y hy hxy => ?_⟩
    · have hfb : f ≠ b := by
        rintro rfl
        cases heb.symm.trans (h.freed f hf)
      exact (Function.update_of_ne hfb ..).trans (h.freed f hf)
    · rw [hnumber, hnumber] at hxy
      exact h.distinct x (hsub.subset hx) y (hsub.subset hy) hxy

theorem Threaded.unlink {t : Table P} {pre post : List Addr} {stop : Option Addr} {a : Addr}
    (h : Threaded t (pre ++ a :: post) stop) (hpost : post ≠ []) :
    ∃ t', unlink t a pre.getLast? = some t' ∧ Threaded t' (pre ++ post) stop ∧
      ∀ b, numberOf t'.mem b = numberOf t.mem b := by
  rcases List.eq_nil_or_concat' pre with rfl | ⟨pre, b, rfl⟩
  · exact h.unlink_first hpost
  · rw [List.append_assoc] at h
    rw [List.getLast?_concat, List.append_assoc]
    exact h.unlink_behind hpost

theorem WellLinked.close_missing {t : Table P} {live : List Addr} (h : WellLinked t live) {n : Int}
    (hn : ∀ b ∈ live, numberOf t.mem b ≠ some n) : myeventClose t n = some (0, t) := by
  rw [myeventClose, h.missing hn]
  rfl

theorem Threaded.notMem_rest {t : Table P} {pre post : List Addr} {stop : Option Addr} {a : Addr}
    (h : Threaded t (pre ++ a :: post) stop) : a ∉ pre ++ post := by
  have hnd := List.nodup_append.mp h.nodup
  rw [List.mem_append]
  rintro (hm | hm)
  · exact hnd.2.2 a hm a (List.mem_cons_self ..) rfl
  · exact (List.nodup_cons.mp hnd.2.1).1 hm

theorem Threaded.missing_rest {t : Table P} {pre post : List Addr} {stop : Option Addr} {a : Addr}
    {n : Int} (h : Threaded t (pre ++ a :: post) stop) (hn : numberOf t.mem a = some n) :
    ∀ b ∈ pre ++ post, numberOf t.mem b ≠ some n := by
  intro b hb hbn
  have hmem : b ∈ pre ++ a :: post := by
    rcases List.mem_append.mp hb with hb | hb <;> simp [hb]
  exact h.notMem_rest (h.distinct b hmem a (by simp) (hbn.trans hn.symm) ▸ hb)

theorem WellLinked.close_found {t : Table P} {pre post : List Addr} {a : Addr} {n : Int}
    (h : WellLinked t (pre ++ a :: post)) (hn : numberOf t.mem a = some n) (hpost : post ≠ []) :
    ∃ t', myeventClose t n = some (n, t') ∧ WellLinked t' (pre ++ post) ∧
      ∀ b ∈ pre ++ post, numberOf t'.mem b ≠ some n := by
  obtain ⟨t', ht', hw, hnum⟩ := h.threaded.unlink hpost
  have ha := h.threaded.notMem_rest
  have hmiss : ∀ b ∈ pre ++ post, numberOf t'.mem b ≠ some n := by
    intro b hb
    rw [hnum b]
    exact h.threaded.missing_rest hn b hb
  refine ⟨t'.kfree a, ?_, (hw.kfree ha).wellLinked, fun b hb => ?_⟩
  · rw [myeventClose, h.found hn, Option.bind_some]
    simp only [ht', Option.bind_some, hw.wellLinked.signal_missing hmiss, Option.map_some]
  · have hba : b ≠ a := fun he => ha (he ▸ hb)
    rw [Table.kfree, numberOf_update_none _ hba]
    exact hmiss b hb

/-- Closing the last event succeeds, and its freed node stays behind the rest of the list. -/
theorem Threaded.close_last {t : Table P} {pre : List Addr} {stop : Option Addr} {a : Addr} {n : Int}
    (h : Threaded t (pre ++ [a]) stop) (hn : numberOf t.mem a = some n) :
    ∃ t', myeventClose t n = some (n, t') ∧ Threaded t' pre (some a) := by
  obtain ⟨e, he⟩ := h.chain.allocated (a := a) (by simp)
  have hend : some a = t.lpmyeventEnd := by rw [h.last, List.getLast?_concat]
  have hpre : a ∉ pre := fun hm => (List.nodup_append.mp h.nodup).2.2 a hm a (by simp) rfl
  obtain ⟨r, hseg, hr, -⟩ := seg_append.mp h.chain
  subst hr
  have hfound := h.found hn
  have hfound' : scheventNum { t with lpmyeventEnd := pre.getLast? } n =
      some (some a, pre.getLast?) := hfound
  have hsig : ∃ r e', myeventSignal { t with lpmyeventEnd := pre.getLast? } n =
      some (r, Table.write { t with lpmyeventEnd := pre.getLast? } a e') := by
    rw [myeventSignal, hfound', Option.bind_some]
    simp only [he, Option.map_some]
    split_ifs
    · exact ⟨n, _, rfl⟩
    · exact ⟨0, _, rfl⟩
  obtain ⟨r, e', hsig⟩ := hsig
  have hnumber : ∀ b ∈ pre, numberOf (Function.update (Function.update t.mem a (some e')) a none) b =
      numberOf t.mem b := by
    intro b hb
    have hba : b ≠ a := fun he => hpre (he ▸ hb)
    rw [numberOf_update_none _ hba, numberOf, Function.update_of_ne hba, numberOf]
  have hlen := h.length_le
  rw [List.length_append, List.length_singleton] at hlen
  refine ⟨(Table.write { t with lpmyeventEnd := pre.getLast? } a e').kfree a, ?_, ?_⟩
  · rw [myeventClose, hfound, Option.bind_some]
    simp only [Event.unlink, if_pos hend, Option.bind_some, hsig, Option.map_some]
  · refine ⟨(hseg.frame hpre (some e')).frame hpre none, fun f hf => ?_, rfl,
      (List.nodup_append.mp h.nodup).1, Nat.le_of_succ_le hlen, fun x hx y hy hxy => ?_⟩
    · rw [← Option.mem_some_iff.mp hf]
      exact Function.update_self ..
    · apply h.distinct x (List.mem_append_left _ hx) y (List.mem_append_left _ hy)
      rw [← hnumber x hx, ← hnumber y hy]
      exact hxy

end KernelExperiment.Event
