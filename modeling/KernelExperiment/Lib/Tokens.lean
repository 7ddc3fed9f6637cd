import Mathlib.Data.List.TakeWhile
import Mathlib.Data.List.Infix

/-! Words separated by runs of delimiters. A text spells a list of words when it consists of them, in
order, with delimiters between any two and perhaps at its ends. -/

namespace KernelExperiment.Tokens

variable {α : Type*}

/-- The first word of a text, empty if the text has none. -/
def first (d : α → Bool) (l : List α) : List α := (l.dropWhile d).takeWhile fun a => !d a

/-- What follows the first word and the delimiter that ends it. -/
def rest (d : α → Bool) (l : List α) : List α := (l.dropWhile d).drop ((first d l).length + 1)

/-- The text ends here, or a delimiter comes. -/
def Breaks (d : α → Bool) (l : List α) : Prop := ∀ a ∈ l.head?, d a = true

structure Word (d : α → Bool) (w : List α) : Prop where
  ne_nil : w ≠ []
  plain : ∀ a ∈ w, d a = false

inductive Spells (d : α → Bool) : List (List α) → List α → Prop
  | nil {g : List α} (hg : ∀ a ∈ g, d a = true) : Spells d [] g
  | cons {g w l : List α} {ws : List (List α)} (hg : ∀ a ∈ g, d a = true) (hw : Word d w)
      (hl : Breaks d l) (h : Spells d ws l) : Spells d (w :: ws) (g ++ (w ++ l))

variable {d e : α → Bool} {a : α} {g w l m : List α} {ws vs : List (List α)}

theorem Breaks.nil : Breaks d [] := by simp [Breaks]

theorem Breaks.cons (h : d a = true) : Breaks d (a :: l) := by simpa [Breaks] using h

theorem Breaks.append (hl : Breaks d l) (hm : Breaks d m) : Breaks d (l ++ m) := by
  cases l with
  | nil => exact hm
  | cons a l => simpa [Breaks] using hl

theorem Word.anti (h : Word d w) (hde : ∀ a, e a = true → d a = true) : Word e w := by
  refine ⟨h.ne_nil, fun a ha => ?_⟩
  have hplain := h.plain a ha
  cases he : e a with
  | false => rfl
  | true => rw [hde a he] at hplain; cases hplain

/-! The first word. -/

theorem drop_pad (d : α → Bool) (l : List α) :
    l.drop (l.takeWhile d).length = l.dropWhile d := by
  induction l with
  | nil => rfl
  | cons a l ih =>
    rw [List.takeWhile_cons, List.dropWhile_cons]
    split_ifs
    · exact ih
    · rfl

theorem Word.dropWhile (h : Word d w) (l : List α) : (w ++ l).dropWhile d = w ++ l := by
  obtain ⟨a, w, rfl⟩ := List.exists_cons_of_ne_nil h.ne_nil
  have ha := h.plain a (List.mem_cons_self ..)
  rw [List.cons_append, List.dropWhile_cons, if_neg (by simp [ha])]

theorem takeWhile_word (hw : ∀ a ∈ w, d a = false) (hl : Breaks d l) :
    (w ++ l).takeWhile (fun a => !d a) = w := by
  have hstop : l.takeWhile (fun a => !d a) = [] := by
    cases l with
    | nil => rfl
    | cons a l =>
      have ha : d a = true := by simpa [Breaks] using hl
      simp [ha]
  rw [List.takeWhile_append_of_pos (by simpa using hw), hstop, List.append_nil]

theorem dropWhile_pad (hg : ∀ a ∈ g, d a = true) : g.dropWhile d = [] :=
  List.dropWhile_eq_nil_iff.mpr hg

theorem first_pad (hg : ∀ a ∈ g, d a = true) : first d g = [] := by
  rw [first, dropWhile_pad hg, List.takeWhile_nil]

theorem first_word (hg : ∀ a ∈ g, d a = true) (hw : Word d w) (hl : Breaks d l) :
    first d (g ++ (w ++ l)) = w := by
  rw [first, List.dropWhile_append_of_pos hg, hw.dropWhile, takeWhile_word hw.plain hl]

theorem rest_word (hg : ∀ a ∈ g, d a = true) (hw : Word d w) (hl : Breaks d l) :
    rest d (g ++ (w ++ l)) = l.tail := by
  rw [rest, first_word hg hw hl, List.dropWhile_append_of_pos hg, hw.dropWhile, ← List.drop_drop,
    List.drop_left, List.drop_one]

theorem length_rest_lt (h : first d l ≠ []) : (rest d l).length < l.length := by
  have hfirst : (first d l).length ≤ (l.dropWhile d).length := (List.takeWhile_prefix _).length_le
  have hdrop : (l.dropWhile d).length ≤ l.length := (List.dropWhile_suffix d).length_le
  have hpos := List.length_pos_of_ne_nil h
  rw [rest, List.length_drop]
  omega

theorem dropWhile_of_first_nil (h : first d l = []) : l.dropWhile d = [] := by
  by_contra hne
  have hpos := List.length_pos_of_ne_nil hne
  have hstop := List.dropWhile_get_zero_not d l hpos
  rw [first, List.takeWhile_eq_nil_iff] at h
  exact h hpos (by simpa using hstop)

theorem rest_of_first_nil (h : first d l = []) : rest d l = [] := by
  rw [rest, dropWhile_of_first_nil h, List.drop_nil]

/-! What a text spells. -/

theorem Spells.first_nil (h : Spells d [] l) : first d l = [] := by
  cases h with
  | nil hg => exact first_pad hg

theorem Spells.pad (ha : d a = true) (h : Spells d ws l) : Spells d ws (a :: l) := by
  cases h with
  | nil hg =>
    apply Spells.nil
    intro b hb
    rcases List.mem_cons.mp hb with rfl | hb
    · exact ha
    · exact hg b hb
  | @cons g w l ws hg hw hl h =>
    refine .cons (g := a :: g) (fun b hb => ?_) hw hl h
    rcases List.mem_cons.mp hb with rfl | hb
    · exact ha
    · exact hg b hb

theorem Spells.tail (h : Spells d ws l) (hl : Breaks d l) : Spells d ws l.tail := by
  cases h with
  | nil hg => exact .nil fun a ha => hg a (List.mem_of_mem_tail ha)
  | @cons g w l ws hg hw hl' h =>
    cases g with
    | nil =>
      obtain ⟨a, w, rfl⟩ := List.exists_cons_of_ne_nil hw.ne_nil
      have ha : d a = true := by simpa [Breaks] using hl
      rw [hw.plain a (List.mem_cons_self ..)] at ha
      cases ha
    | cons a g => exact .cons (fun b hb => hg b (List.mem_cons_of_mem _ hb)) hw hl' h

theorem Spells.first_cons (h : Spells d (w :: ws) l) : first d l = w ∧ Spells d ws (rest d l) := by
  cases h with
  | cons hg hw hl h => exact ⟨first_word hg hw hl, rest_word hg hw hl ▸ h.tail hl⟩

theorem Spells.ne_nil (h : Spells d (w :: ws) l) : w ≠ [] := by
  cases h with
  | cons hg hw => exact hw.ne_nil

theorem Spells.of_nil (h : Spells d ws []) : ws = [] := by
  cases ws with
  | nil => rfl
  | cons w ws => exact absurd h.first_cons.1.symm h.ne_nil

theorem Spells.word_of_mem (h : Spells d ws l) : ∀ w ∈ ws, Word d w := by
  induction h with
  | nil hg => exact fun w hw => by cases hw
  | cons hg hw hl h ih =>
    intro v hv
    rcases List.mem_cons.mp hv with rfl | hv
    · exact hw
    · exact ih v hv

theorem Spells.mem (h : Spells d ws l) (ha : a ∈ l) : d a = true ∨ ∃ w ∈ ws, a ∈ w := by
  induction h with
  | nil hg => exact Or.inl (hg a ha)
  | cons hg hw hl h ih =>
    rcases List.mem_append.mp ha with ha | ha
    · exact Or.inl (hg a ha)
    · rcases List.mem_append.mp ha with ha | ha
      · exact Or.inr ⟨_, List.mem_cons_self .., ha⟩
      · exact (ih ha).imp_right fun ⟨v, hv, hav⟩ => ⟨v, List.mem_cons_of_mem _ hv, hav⟩

/-- Every text spells something. -/
theorem exists_spells (d : α → Bool) (l : List α) : ∃ ws, Spells d ws l := by
  induction l with
  | nil => exact ⟨[], .nil (by simp)⟩
  | cons a l ih =>
    obtain ⟨ws, h⟩ := ih
    cases ha : d a with
    | true => exact ⟨ws, h.pad ha⟩
    | false =>
      have hword : Word d [a] := ⟨by simp, by simpa using ha⟩
      by_cases hl : Breaks d l
      · exact ⟨[a] :: ws, .cons (g := []) (by simp) hword hl h⟩
      · -- the text goes on with a word, which grows by one letter
        cases h with
        | nil hg =>
          refine absurd (fun b hb => hg b ?_) hl
          exact List.mem_of_mem_head? hb
        | @cons g w l ws hg hw hl' h =>
          cases g with
          | nil =>
            have hgrown : Word d (a :: w) := by
              refine ⟨by simp, fun b hb => ?_⟩
              rcases List.mem_cons.mp hb with rfl | hb
              · exact ha
              · exact hw.plain b hb
            exact ⟨(a :: w) :: ws, .cons (g := []) (by simp) hgrown hl' h⟩
          | cons b g => exact absurd (.cons (hg b (List.mem_cons_self ..))) hl

theorem Spells.append (h : Spells d ws l) (h' : Spells d vs m) (hm : Breaks d m) :
    Spells d (ws ++ vs) (l ++ m) := by
  induction h with
  | nil hg =>
    rename_i g
    induction g with
    | nil => exact h'
    | cons a g ih =>
      exact (ih fun b hb => hg b (List.mem_cons_of_mem _ hb)).pad (hg a (List.mem_cons_self ..))
  | cons hg hw hl h ih =>
    rw [List.append_assoc, List.append_assoc]
    exact .cons hg hw (hl.append hm) ih

theorem Spells.word (hw : Word d w) : Spells d [w] w := by
  simpa using Spells.cons (g := []) (by simp) hw .nil (.nil (d := d) (g := []) (by simp))

/-- More delimiters make no difference if the words have none of them. -/
theorem Spells.mono (h : Spells d ws l) (hde : ∀ a, d a = true → e a = true)
    (hws : ∀ w ∈ ws, ∀ a ∈ w, e a = false) : Spells e ws l := by
  induction h with
  | nil hg => exact .nil fun a ha => hde a (hg a ha)
  | cons hg hw hl h ih =>
    refine .cons (fun a ha => hde a (hg a ha)) ⟨hw.ne_nil, hws _ (List.mem_cons_self ..)⟩
      (fun a ha => hde a (hl a ha)) (ih fun w hw => hws w (List.mem_cons_of_mem _ hw))

theorem Spells.intercalate (ha : d a = true) (hws : ∀ w ∈ ws, Word d w) :
    Spells d ws (List.intercalate [a] ws) := by
  induction ws with
  | nil => exact .nil (by simp)
  | cons w ws ih =>
    have hw := hws w (List.mem_cons_self ..)
    have ih := ih fun w hw => hws w (List.mem_cons_of_mem _ hw)
    cases ws with
    | nil => simpa using Spells.word hw
    | cons v vs =>
      have hcons : List.intercalate [a] (w :: v :: vs) =
          w ++ a :: List.intercalate [a] (v :: vs) := by simp [List.intercalate]
      rw [hcons]
      exact .cons (g := []) (by simp) hw (.cons ha) (ih.pad ha)

end KernelExperiment.Tokens
