import Mathlib.Data.List.Basic
import Mathlib.Data.List.Nodup
import Mathlib.Logic.Function.Basic

/-! Linked lists in a heap of allocated cells, each with a nullable link. A segment names the cells
that a walk along the links visits, all of them allocated. -/

namespace KernelExperiment.Chain

variable {A C : Type*} (link : C → Option A)

/-- The walk from `p` visits the allocated cells `as` in order and stops at `q`. -/
def Seg (mem : A → Option C) : Option A → List A → Option A → Prop
  | p, [], q => p = q
  | p, a :: as, q => p = some a ∧ ∃ c, mem a = some c ∧ Seg mem (link c) as q

variable {link} {mem : A → Option C} {p q r : Option A} {a b : A} {as bs : List A} {c : C}

@[simp] theorem seg_nil : Seg link mem p [] q ↔ p = q := Iff.rfl

theorem seg_cons : Seg link mem p (a :: as) q ↔
    p = some a ∧ ∃ c, mem a = some c ∧ Seg link mem (link c) as q := Iff.rfl

theorem seg_append : Seg link mem p (as ++ bs) q ↔
    ∃ r, Seg link mem p as r ∧ Seg link mem r bs q := by
  induction as generalizing p with
  | nil => simp
  | cons a as ih =>
    simp only [List.cons_append, seg_cons, ih]
    constructor
    · rintro ⟨hp, c, hc, r, h1, h2⟩
      exact ⟨r, ⟨hp, c, hc, h1⟩, h2⟩
    · rintro ⟨r, ⟨hp, c, hc, h1⟩, h2⟩
      exact ⟨hp, c, hc, r, h1, h2⟩

theorem Seg.allocated (h : Seg link mem p as q) (ha : a ∈ as) : ∃ c, mem a = some c := by
  induction as generalizing p with
  | nil => simp at ha
  | cons b as ih =>
    obtain ⟨_, c, hc, hrest⟩ := h
    rcases List.mem_cons.mp ha with rfl | ha
    · exact ⟨c, hc⟩
    · exact ih hrest ha

theorem Seg.stop_unique (h1 : Seg link mem p as q) (h2 : Seg link mem p as r) : q = r := by
  induction as generalizing p with
  | nil => exact (seg_nil.mp h1).symm.trans (seg_nil.mp h2)
  | cons a as ih =>
    obtain ⟨_, c, hc, hrest⟩ := h1
    obtain ⟨_, c', hc', hrest'⟩ := h2
    rw [hc, Option.some.injEq] at hc'
    subst hc'
    exact ih hrest hrest'

theorem Seg.head (h : Seg link mem p as none) : p = as.head? := by
  cases as with
  | nil => exact h
  | cons a as => exact h.1

theorem Seg.head_of_ne_nil (h : Seg link mem p as q) (hne : as ≠ []) : p = as.head? := by
  cases as with
  | nil => exact absurd rfl hne
  | cons a as => exact h.1

section
variable [DecidableEq A]

/-- Cells that the walk does not visit may change or be freed. -/
theorem Seg.frame (h : Seg link mem p as q) (ha : a ∉ as) (o : Option C) :
    Seg link (Function.update mem a o) p as q := by
  induction as generalizing p with
  | nil => exact h
  | cons b as ih =>
    obtain ⟨hp, c, hc, hrest⟩ := h
    have hab : a ∉ as := fun hm => ha (List.mem_cons_of_mem _ hm)
    have hne : b ≠ a := fun he => ha (he ▸ List.mem_cons_self ..)
    exact ⟨hp, c, by rw [Function.update_of_ne hne, hc], ih hrest hab⟩

/-- A cell may change as long as its link stays. -/
theorem Seg.set (h : Seg link mem p as q) {c' : C} (hc : mem a = some c) (hl : link c' = link c) :
    Seg link (Function.update mem a (some c')) p as q := by
  induction as generalizing p with
  | nil => exact h
  | cons b as ih =>
    obtain ⟨hp, d, hd, hrest⟩ := h
    rcases eq_or_ne b a with rfl | hne
    · rw [hc, Option.some.injEq] at hd
      subst hd
      exact ⟨hp, c', Function.update_self .., by rw [hl]; exact ih hrest⟩
    · exact ⟨hp, d, by rw [Function.update_of_ne hne, hd], ih hrest⟩

theorem Seg.snoc (h : Seg link mem p (as ++ [a]) none) {c' d : C} (hnd : a ∉ as)
    (hb : b ∉ as ++ [a]) (hl : link c' = some b) (hd : link d = none) :
    Seg link (Function.update (Function.update mem b (some d)) a (some c')) p
      (as ++ [a] ++ [b]) none := by
  have hba : b ≠ a := fun he => hb (by simp [he])
  have hbas : b ∉ as := fun hm => hb (List.mem_append_left _ hm)
  obtain ⟨r, h1, h2⟩ := seg_append.mp h
  rw [List.append_assoc, seg_append]
  refine ⟨r, (h1.frame hbas _).frame hnd _, h2.1, c', Function.update_self .., hl, d, ?_, hd⟩
  rw [Function.update_of_ne hba, Function.update_self]

/-- Bypassing a cell by redirecting its predecessor. -/
theorem Seg.bypass {pre post : List A} (h : Seg link mem p (pre ++ b :: a :: post) q)
    (hnd : (pre ++ b :: a :: post).Nodup) {c' d : C} (hd : mem a = some d)
    (hl : link c' = link d) :
    Seg link (Function.update mem b (some c')) p (pre ++ b :: post) q := by
  obtain ⟨hpre, hrest, hdis⟩ := List.nodup_append.mp hnd
  obtain ⟨hb, hrest⟩ := List.nodup_cons.mp hrest
  obtain ⟨r, h1, hr, c, hc, ha, d', hd', h2⟩ := seg_append.mp h
  rw [hd, Option.some.injEq] at hd'
  subst hd'
  have hbpre : b ∉ pre := fun hm => hdis b hm b (List.mem_cons_self ..) rfl
  have hbpost : b ∉ post := fun hm => hb (List.mem_cons_of_mem _ hm)
  rw [seg_append]
  exact ⟨r, h1.frame hbpre _, hr, c', Function.update_self .., by rw [hl]; exact h2.frame hbpost _⟩

end
end KernelExperiment.Chain
