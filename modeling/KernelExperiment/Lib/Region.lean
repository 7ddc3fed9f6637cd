import Mathlib.Data.List.TakeDrop

/-! A block of memory cells with bounds-checked access to ranges of it. -/

namespace KernelExperiment.Region

variable {α : Type*} {mem bs cs : List α} {off n k : ℕ}

/-- The block with the cells from `off` on replaced. -/
def splice (mem : List α) (off : ℕ) (bs : List α) : List α :=
  mem.take off ++ bs ++ mem.drop (off + bs.length)

def readRange (mem : List α) (off n : ℕ) : Option (List α) :=
  if off + n ≤ mem.length then some ((mem.drop off).take n) else none

def writeRange (mem : List α) (off : ℕ) (bs : List α) : Option (List α) :=
  if off + bs.length ≤ mem.length then some (splice mem off bs) else none

def readFrom (mem : List α) (off : Int) (n : ℕ) : Option (List α) :=
  if 0 ≤ off then readRange mem off.toNat n else none

def writeTo (mem : List α) (off : Int) (bs : List α) : Option (List α) :=
  if 0 ≤ off then writeRange mem off.toNat bs else none

theorem readFrom_natCast : readFrom mem off n = readRange mem off n := by
  rw [readFrom, if_pos (Int.natCast_nonneg off), Int.toNat_natCast]

theorem writeTo_natCast : writeTo mem off bs = writeRange mem off bs := by
  rw [writeTo, if_pos (Int.natCast_nonneg off), Int.toNat_natCast]

theorem readRange_of_le (h : off + n ≤ mem.length) :
    readRange mem off n = some ((mem.drop off).take n) := if_pos h

theorem writeRange_of_le (h : off + bs.length ≤ mem.length) :
    writeRange mem off bs = some (splice mem off bs) := if_pos h

theorem writeRange_eq_some {mem' : List α} :
    writeRange mem off bs = some mem' ↔
      off + bs.length ≤ mem.length ∧ splice mem off bs = mem' := by
  rw [writeRange, Option.ite_none_right_eq_some, Option.some.injEq]

theorem length_of_readRange (h : readRange mem off n = some bs) :
    bs.length ≤ mem.length - off := by
  rw [readRange] at h
  split_ifs at h
  cases h
  rw [List.length_take, List.length_drop]
  exact Nat.min_le_right _ _

theorem length_splice (h : off + bs.length ≤ mem.length) :
    (splice mem off bs).length = mem.length := by
  simp only [splice, List.length_append, List.length_take, List.length_drop]
  omega

theorem take_splice (h : off + bs.length ≤ mem.length) (hk : k ≤ off) :
    (splice mem off bs).take k = mem.take k := by
  have hlen : k ≤ (mem.take off).length := by rw [List.length_take]; omega
  rw [splice, List.append_assoc, List.take_append_of_le_length hlen, List.take_take,
    Nat.min_eq_left hk]

theorem take_splice_end (h : off + bs.length ≤ mem.length) :
    (splice mem off bs).take (off + bs.length) = mem.take off ++ bs := by
  have hlen : (mem.take off ++ bs).length = off + bs.length := by
    rw [List.length_append, List.length_take]
    omega
  rw [splice, List.take_append_of_le_length (by omega),
    List.take_of_length_le (by omega)]

theorem drop_splice (h : off + bs.length ≤ mem.length) (hk : off + bs.length ≤ k) :
    (splice mem off bs).drop k = mem.drop k := by
  have hlen : (mem.take off ++ bs).length = off + bs.length := by
    rw [List.length_append, List.length_take]
    omega
  rw [splice, List.drop_append, hlen, List.drop_drop, List.drop_of_length_le (by omega),
    List.nil_append, Nat.add_sub_cancel' hk]

theorem getElem?_splice (h : off + bs.length ≤ mem.length) (i : ℕ) :
    (splice mem off bs)[i]? =
      if off ≤ i ∧ i < off + bs.length then bs[i - off]? else mem[i]? := by
  have hlen : (mem.take off).length = off := by rw [List.length_take]; omega
  rw [splice, List.append_assoc]
  rcases Nat.lt_or_ge i off with hi | hi
  · rw [List.getElem?_append_left (by omega), if_neg (by omega), List.getElem?_take_of_lt hi]
  · rw [List.getElem?_append_right (by omega), hlen]
    rcases Nat.lt_or_ge i (off + bs.length) with hj | hj
    · rw [List.getElem?_append_left (by omega), if_pos ⟨hi, hj⟩]
    · rw [List.getElem?_append_right (by omega), if_neg (by omega), List.getElem?_drop]
      congr 1
      omega

end KernelExperiment.Region
