import Mathlib.Data.List.Basic

/-! Texts made of records, one behind the other: how many of them get in when a limit is looked at
in front of each record only, and how far into a record an offset falls. -/

namespace KernelExperiment.Records

variable {α : Type*}

/-- A text with records put behind it as long as the limit has not been passed. -/
def fill (limit : Int) : List α → List (List α) → List α
  | buf, [] => buf
  | buf, r :: rs => if buf.length ≤ limit then fill limit (buf ++ r) rs else buf

/-- What holds of every record and of the length of all in front of it. -/
def Each (P : ℕ → List α → Prop) : ℕ → List (List α) → Prop
  | _, [] => True
  | len, r :: rs => P len r ∧ Each P (len + r.length) rs

/-- How far into its record an offset falls: not at all when it falls behind the last one. -/
def inside : ℕ → List (List α) → ℕ
  | _, [] => 0
  | offset, r :: rs => if r.length ≤ offset then inside (offset - r.length) rs else offset

variable {limit : Int} {len bound offset : ℕ} {buf r : List α} {rs : List (List α)}
  {P : ℕ → List α → Prop}

theorem fill_of_lt (h : limit < buf.length) (rs : List (List α)) : fill limit buf rs = buf := by
  cases rs with
  | nil => rfl
  | cons r rs => exact if_neg (Int.not_le.mpr h)

theorem fill_cons_of_le (h : buf.length ≤ limit) :
    fill limit buf (r :: rs) = fill limit (buf ++ r) rs := if_pos h

/-- Once the limit has been passed it stays so. -/
theorem fill_append (limit : Int) (buf : List α) (rs ss : List (List α)) :
    fill limit buf (rs ++ ss) = fill limit (fill limit buf rs) ss := by
  induction rs generalizing buf with
  | nil => rfl
  | cons r rs ih =>
    rcases Int.lt_or_le limit buf.length with hlt | hle
    · rw [fill_of_lt hlt, fill_of_lt hlt, fill_of_lt hlt]
    · rw [List.cons_append, fill_cons_of_le hle, fill_cons_of_le hle, ih]

theorem length_le_fill (buf : List α) (rs : List (List α)) :
    buf.length ≤ (fill limit buf rs).length := by
  induction rs generalizing buf with
  | nil => exact Nat.le_refl _
  | cons r rs ih =>
    rw [fill]
    split_ifs
    · exact Nat.le_trans (List.length_append ▸ Nat.le_add_right ..) (ih (buf ++ r))
    · exact Nat.le_refl _

theorem fill_begins (limit : Int) (buf : List α) (rs : List (List α)) :
    fill limit buf rs <+: buf ++ rs.flatten := by
  induction rs generalizing buf with
  | nil => exact List.prefix_append _ _
  | cons r rs ih =>
    rw [List.flatten_cons, ← List.append_assoc]
    rcases Int.lt_or_le limit buf.length with hlt | hle
    · rw [fill_of_lt hlt, List.append_assoc]
      exact List.prefix_append _ _
    · rw [fill_cons_of_le hle]
      exact ih (buf ++ r)

/-- The whole text gets in exactly when the limit has not been passed in front of its last record. -/
theorem fill_eq_iff (hne : ∀ r ∈ rs, r ≠ []) (hbuf : buf.length ≤ limit) :
    fill limit buf rs = buf ++ rs.flatten ↔ (buf ++ rs.dropLast.flatten).length ≤ limit := by
  induction rs generalizing buf with
  | nil => exact iff_of_true (List.append_nil _).symm (by simpa using hbuf)
  | cons r rs ih =>
    rw [fill_cons_of_le hbuf, List.flatten_cons, ← List.append_assoc]
    cases rs with
    | nil => exact iff_of_true (List.append_nil _).symm (by simpa using hbuf)
    | cons r' rs =>
      have hdrop : buf ++ (r :: r' :: rs).dropLast.flatten =
          buf ++ r ++ (r' :: rs).dropLast.flatten := by
        rw [List.dropLast_cons_cons, List.flatten_cons, List.append_assoc]
      rw [hdrop]
      rcases Int.lt_or_le limit (buf ++ r).length with hlt | hle
      · rw [fill_of_lt hlt]
        refine iff_of_false (fun he => ?_) fun hle => ?_
        · have hflat := List.self_eq_append_right.mp he
          rw [List.flatten_cons, List.append_eq_nil_iff] at hflat
          exact hne r' (by simp) hflat.1
        · rw [List.length_append] at hle
          omega
      · exact ih (fun r hr => hne r (List.mem_cons_of_mem _ hr)) hle

theorem each_append (rs ss : List (List α)) :
    Each P len (rs ++ ss) ↔ Each P len rs ∧ Each P (len + rs.flatten.length) ss := by
  induction rs generalizing len with
  | nil => exact (and_iff_right trivial).symm
  | cons r rs ih =>
    rw [List.cons_append, Each, ih, Each, and_assoc, List.flatten_cons, List.length_append,
      Nat.add_assoc]

/-- The records of a list of sources are gone through source by source. -/
theorem each_flatMap {σ : Type*} (f : σ → List (List α)) (as : List σ) :
    Each P len (as.flatMap f) ↔ ∀ before a after, as = before ++ a :: after →
      Each P (len + (before.flatMap f).flatten.length) (f a) := by
  induction as generalizing len with
  | nil => exact iff_of_true trivial fun before a after h => by simp at h
  | cons a as ih =>
    rw [List.flatMap_cons, each_append, ih]
    constructor
    · rintro ⟨hfirst, hrest⟩ before b after h
      cases before with
      | nil =>
        obtain ⟨rfl, -⟩ := List.cons.inj h
        exact hfirst
      | cons c before =>
        obtain ⟨rfl, htail⟩ := List.cons.inj h
        rw [List.flatMap_cons, List.flatten_append, List.length_append, ← Nat.add_assoc]
        exact hrest before b after htail
    · intro hall
      refine ⟨hall [] a as rfl, fun before b after h => ?_⟩
      have hb := hall (a :: before) b after (congrArg (a :: ·) h)
      rwa [List.flatMap_cons, List.flatten_append, List.length_append, ← Nat.add_assoc] at hb

theorem each_of_forall (h : ∀ n, ∀ r ∈ rs, P n r) : Each P len rs := by
  induction rs generalizing len with
  | nil => trivial
  | cons r rs ih =>
    exact ⟨h len r (List.mem_cons_self ..), ih fun n s hs => h n s (List.mem_cons_of_mem _ hs)⟩

/-- No record starts within a limit that has been passed. -/
theorem each_of_lt (h : limit < len) : Each (fun n r => n ≤ limit → P n r) len rs := by
  induction rs generalizing len with
  | nil => trivial
  | cons r rs ih => exact ⟨fun hle => absurd h (Int.not_lt.mpr hle), ih (by omega)⟩

/-- The text stays within a bound exactly when every record does that starts within the limit. -/
theorem length_fill_le_iff (h : buf.length ≤ bound) : (fill limit buf rs).length ≤ bound ↔
    Each (fun n r => n ≤ limit → n + r.length ≤ bound) buf.length rs := by
  induction rs generalizing buf with
  | nil => exact iff_of_true h trivial
  | cons r rs ih =>
    rcases Int.lt_or_le limit buf.length with hlt | hle
    · rw [fill_of_lt hlt]
      exact iff_of_true h (each_of_lt hlt)
    · rw [Each, fill_cons_of_le hle, ← List.length_append]
      by_cases hr : (buf ++ r).length ≤ bound
      · rw [ih hr, and_iff_right fun _ => hr]
      · refine iff_of_false (fun hall => hr ?_) fun hall => hr (hall.1 hle)
        exact Nat.le_trans (length_le_fill (buf ++ r) rs) hall

/-! Offsets. -/

theorem inside_of_le (h : r.length ≤ offset) :
    inside offset (r :: rs) = inside (offset - r.length) rs := if_pos h

theorem inside_of_lt (h : offset < r.length) : inside offset (r :: rs) = offset :=
  if_neg (Nat.not_le.mpr h)

/-- An offset falls into no record when it is behind them all, or where so many of them end. -/
theorem inside_eq_zero_iff : inside offset rs = 0 ↔
    rs.flatten.length ≤ offset ∨ ∃ k ≤ rs.length, offset = (rs.take k).flatten.length := by
  induction rs generalizing offset with
  | nil => exact iff_of_true rfl (Or.inl (Nat.zero_le _))
  | cons r rs ih =>
    rw [List.flatten_cons, List.length_append]
    rcases Nat.lt_or_ge offset r.length with hlt | hge
    · rw [inside_of_lt hlt]
      constructor
      · rintro rfl
        exact Or.inr ⟨0, Nat.zero_le _, rfl⟩
      · rintro (hle | ⟨k, hk, hoffset⟩)
        · omega
        · cases k with
          | zero => exact hoffset
          | succ k =>
            rw [List.take_succ_cons, List.flatten_cons, List.length_append] at hoffset
            omega
    · rw [inside_of_le hge, ih]
      apply or_congr
      · omega
      · constructor
        · rintro ⟨k, hk, hoffset⟩
          refine ⟨k + 1, Nat.succ_le_succ hk, ?_⟩
          rw [List.take_succ_cons, List.flatten_cons, List.length_append]
          omega
        · rintro ⟨k, hk, hoffset⟩
          cases k with
          | zero =>
            refine ⟨0, Nat.zero_le _, ?_⟩
            rw [List.take_zero, List.flatten_nil, List.length_nil] at hoffset ⊢
            omega
          | succ k =>
            refine ⟨k, Nat.le_of_succ_le_succ hk, ?_⟩
            rw [List.take_succ_cons, List.flatten_cons, List.length_append] at hoffset
            omega

end KernelExperiment.Records
