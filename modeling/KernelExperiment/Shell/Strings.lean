import KernelExperiment.Lib.Tokens

/-! C strings as the shell uses them. A string is the rest of a buffer up to its NUL, and a pointer
to it is an offset from where the buffer starts. -/

namespace KernelExperiment.Shell
open Tokens

structure Str where
  offset : ℕ
  text : List Char
  deriving DecidableEq

def Str.drop (s : Str) (n : ℕ) : Str :=
  { offset := s.offset + min n s.text.length, text := s.text.drop n }

def Str.moveTo (s : Str) (offset : ℕ) : Str := { s with offset }

def nul : Char := Char.ofNat 0

/-- The string at the front of a buffer. -/
def cString (buffer : List Char) : List Char := buffer.takeWhile fun c => decide (c ≠ nul)

def strstr (s : Str) (needle : List Char) : Bool := decide (needle <:+: s.text)

/-- Each character of `delim` is a delimiter on its own. -/
def isDelim (delim : List Char) (c : Char) : Bool := delim.contains c

/-- `strtok` with the pointer it saves between calls. -/
def strtok (s : Option Str) (delim : List Char) (saved : Str) : Option Str × Str :=
  let s := s.getD saved
  let s := s.drop (s.text.takeWhile (isDelim delim)).length
  let len := (s.text.takeWhile fun c => !isDelim delim c).length
  -- the NUL behind a token cuts it off from the rest
  if len = 0 then (none, s) else (some { s with text := s.text.take len }, s.drop (len + 1))

/-- The loop `while (p = strtok(NULL, delim))`; there are no more tokens than characters. -/
def strtokAll (delim : List Char) : ℕ → Str → List Str × Str
  | 0, saved => ([], saved)
  | n + 1, saved =>
    match strtok none delim saved with
    | (none, saved) => ([], saved)
    | (some p, saved) =>
      let (ps, saved) := strtokAll delim n saved
      (p :: ps, saved)

/-! A token is the first word of what is left. -/

variable {delim : List Char} {p : Option Str} {s saved : Str} {ws : List (List Char)}

theorem take_takeWhile_length {α : Type*} (q : α → Bool) (l : List α) :
    l.take (l.takeWhile q).length = l.takeWhile q := by
  exact (List.prefix_iff_eq_take.mp (List.takeWhile_prefix q)).symm

theorem cString_eq {buffer : List Char} (h : ∀ c ∈ buffer, c ≠ nul) : cString buffer = buffer := by
  rw [cString, List.takeWhile_eq_self_iff]
  exact fun c hc => decide_eq_true (h c hc)

theorem strtok_fst (p : Option Str) (delim : List Char) (saved : Str) :
    (strtok p delim saved).1 =
      if first (isDelim delim) (p.getD saved).text = [] then none
      else some { offset := (p.getD saved).offset +
                    ((p.getD saved).text.takeWhile (isDelim delim)).length,
                  text := first (isDelim delim) (p.getD saved).text } := by
  generalize hs : p.getD saved = s
  have hlen := (List.takeWhile_prefix (isDelim delim) (l := s.text)).length_le
  unfold strtok
  simp only [hs, Str.drop, drop_pad, take_takeWhile_length, Nat.min_eq_left hlen]
  unfold first
  by_cases h : (s.text.dropWhile (isDelim delim)).takeWhile (fun c => !isDelim delim c) = []
  · rw [h, if_pos rfl]
    rfl
  · rw [if_neg h, if_neg (fun h' => h (List.eq_nil_of_length_eq_zero h'))]

theorem strtok_snd_text (p : Option Str) (delim : List Char) (saved : Str) :
    (strtok p delim saved).2.text = rest (isDelim delim) (p.getD saved).text := by
  generalize hs : p.getD saved = s
  unfold strtok
  simp only [hs, Str.drop, drop_pad]
  split_ifs with h
  · have hnone : first (isDelim delim) s.text = [] := List.eq_nil_of_length_eq_zero h
    rw [rest_of_first_nil hnone, dropWhile_of_first_nil hnone]
  · rfl

/-- The saved pointer is behind the token. -/
theorem strtok_offset_lt {t : Str} (h : (strtok p delim saved).1 = some t) :
    t.offset < (strtok p delim saved).2.offset := by
  unfold strtok at h ⊢
  dsimp only at h ⊢
  split_ifs at h ⊢ with hlen
  cases h
  dsimp only [Str.drop] at hlen ⊢
  have hle := (List.takeWhile_prefix (fun c => !isDelim delim c)
    (l := (p.getD saved).text.drop ((p.getD saved).text.takeWhile (isDelim delim)).length)).length_le
  omega

theorem strtok_of_nil (hs : Spells (isDelim delim) [] (p.getD saved).text) :
    (strtok p delim saved).1 = none ∧ (strtok p delim saved).2.text = [] := by
  have hfirst := hs.first_nil
  refine ⟨by rw [strtok_fst, if_pos hfirst], ?_⟩
  rw [strtok_snd_text, rest_of_first_nil hfirst]

theorem strtok_of_cons {w : List Char} (hs : Spells (isDelim delim) (w :: ws) (p.getD saved).text) :
    (strtok p delim saved).1 = some { offset := (p.getD saved).offset +
        ((p.getD saved).text.takeWhile (isDelim delim)).length, text := w } ∧
      Spells (isDelim delim) ws (strtok p delim saved).2.text := by
  obtain ⟨hfirst, hrest⟩ := hs.first_cons
  rw [strtok_fst, strtok_snd_text, hfirst, if_neg hs.ne_nil]
  exact ⟨rfl, hrest⟩

theorem strtok_first {w : List Char} (hs : Spells (isDelim delim) (w :: ws) s.text) (saved : Str) :
    (strtok (some s) delim saved).1 = some { offset := s.offset +
        (s.text.takeWhile (isDelim delim)).length, text := w } ∧
      Spells (isDelim delim) ws (strtok (some s) delim saved).2.text :=
  strtok_of_cons (p := some s) hs

/-- The next token after the first. -/
theorem strtok_next {w : List Char} (hs : Spells (isDelim delim) (w :: ws) s.text) (saved : Str) :
    (strtok none delim (strtok (some s) delim saved).2).1.map Str.text = ws.head? := by
  obtain ⟨-, hrest⟩ := strtok_first hs saved
  cases ws with
  | nil => rw [(strtok_of_nil (p := none) hrest).1]; rfl
  | cons v vs => rw [(strtok_of_cons (p := none) hrest).1]; rfl

theorem strtokAll_none {n : ℕ} (h : (strtok none delim saved).1 = none) :
    strtokAll delim (n + 1) saved = ([], (strtok none delim saved).2) := by
  rw [strtokAll]
  generalize strtok none delim saved = r at h ⊢
  obtain ⟨t, u⟩ := r
  cases h
  rfl

theorem strtokAll_some {n : ℕ} {t : Str} (h : (strtok none delim saved).1 = some t) :
    strtokAll delim (n + 1) saved =
      (t :: (strtokAll delim n (strtok none delim saved).2).1,
        (strtokAll delim n (strtok none delim saved).2).2) := by
  rw [strtokAll]
  generalize strtok none delim saved = r at h ⊢
  obtain ⟨t, u⟩ := r
  cases h
  rfl

/-- The loop yields all words that are left, and ends at the end of the string. -/
theorem strtokAll_spells {n : ℕ} (hn : saved.text.length ≤ n)
    (hs : Spells (isDelim delim) ws saved.text) :
    (strtokAll delim n saved).1.map Str.text = ws ∧ (strtokAll delim n saved).2.text = [] := by
  induction n generalizing saved ws with
  | zero =>
    have hnil : saved.text = [] := List.eq_nil_of_length_eq_zero (Nat.le_zero.mp hn)
    rw [hnil] at hs
    rw [hs.of_nil]
    exact ⟨rfl, hnil⟩
  | succ n ih =>
    cases ws with
    | nil =>
      obtain ⟨hnone, hend⟩ := strtok_of_nil (p := none) hs
      rw [strtokAll_none hnone]
      exact ⟨rfl, hend⟩
    | cons w ws =>
      obtain ⟨hsome, hrest⟩ := strtok_of_cons (p := none) hs
      have hlt : (strtok none delim saved).2.text.length < saved.text.length := by
        rw [strtok_snd_text]
        exact length_rest_lt (hs.first_cons.1 ▸ hs.ne_nil)
      obtain ⟨hmap, hend⟩ := ih (by omega) hrest
      rw [strtokAll_some hsome, List.map_cons, hmap]
      exact ⟨rfl, hend⟩

theorem strtok_offset_le (p : Option Str) (delim : List Char) (saved : Str) :
    (p.getD saved).offset ≤ (strtok p delim saved).2.offset := by
  unfold strtok
  dsimp only [Str.drop]
  split_ifs
  · exact Nat.le_add_right ..
  · exact (Nat.le_add_right ..).trans (Nat.le_add_right ..)

theorem strtokAll_offset {n : ℕ} : ∀ t ∈ (strtokAll delim n saved).1, saved.offset ≤ t.offset := by
  induction n generalizing saved with
  | zero => exact fun t ht => by cases ht
  | succ n ih =>
    cases hfirst : (strtok none delim saved).1 with
    | none =>
      rw [strtokAll_none hfirst]
      exact fun t ht => by cases ht
    | some u =>
      rw [strtokAll_some hfirst]
      intro t ht
      rcases List.mem_cons.mp ht with rfl | ht
      · rw [strtok_fst] at hfirst
        split_ifs at hfirst
        cases hfirst
        exact Nat.le_add_right ..
      · exact (strtok_offset_le none delim saved).trans (ih t ht)

end KernelExperiment.Shell
