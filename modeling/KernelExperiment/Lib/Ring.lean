import KernelExperiment.Lib.Region

/-! Circular buffers that keep one cell free. The content runs from the read position up to the
write position, around the end of the block. -/

namespace KernelExperiment.Ring
open Region

variable {α : Type*} {mem bs : List α} {rp wp n : ℕ}

def content (mem : List α) (rp wp : ℕ) : List α :=
  if rp ≤ wp then (mem.drop rp).take (wp - rp) else mem.drop rp ++ mem.take wp

/-- The position after a contiguous transfer. -/
def wrap (len i : ℕ) : ℕ := if i = len then 0 else i

theorem wrap_lt {len i : ℕ} (hlen : 0 < len) (h : i ≤ len) : wrap len i < len := by
  unfold wrap
  split <;> omega

@[simp] theorem content_self : content mem rp rp = [] := by simp [content]

theorem length_content (hr : rp < mem.length) (hw : wp < mem.length) :
    (content mem rp wp).length = if rp ≤ wp then wp - rp else mem.length - rp + wp := by
  unfold content
  split_ifs with h
  · rw [List.length_take, List.length_drop]
    omega
  · rw [List.length_append, List.length_take, List.length_drop]
    omega

theorem length_content_le (hr : rp < mem.length) (hw : wp < mem.length) :
    (content mem rp wp).length ≤ mem.length - 1 := by
  rw [length_content hr hw]
  split_ifs <;> omega

/-- Taking cells from the read position takes them from the front of the content. -/
theorem content_take (hw : wp < mem.length)
    (hn : if rp < wp then n ≤ wp - rp else wp < rp ∧ rp + n ≤ mem.length) :
    content mem rp wp = (mem.drop rp).take n ++ content mem (wrap mem.length (rp + n)) wp := by
  split_ifs at hn with h
  · have hwrap : wrap mem.length (rp + n) = rp + n := if_neg (by omega)
    have hsum : wp - rp = n + (wp - (rp + n)) := by omega
    rw [hwrap, content, if_pos (by omega), content, if_pos (by omega), hsum, List.take_add,
      List.drop_drop]
  · rw [content, if_neg (by omega)]
    rcases eq_or_ne (rp + n) mem.length with he | he
    · have htake : (mem.drop rp).take n = mem.drop rp :=
        List.take_of_length_le (by rw [List.length_drop]; omega)
      rw [wrap, if_pos he, content, if_pos (Nat.zero_le _), htake]
      simp
    · rw [wrap, if_neg he, content, if_neg (by omega), ← List.append_assoc, ← List.drop_drop,
        List.take_append_drop]

/-- Filling free cells from the write position appends them to the content. -/
theorem content_fill (hlen : wp + bs.length ≤ mem.length)
    (hn : if rp ≤ wp then rp = 0 → wp + bs.length < mem.length else wp + bs.length < rp)
    (hr : rp < mem.length) :
    content (splice mem wp bs) rp (wrap mem.length (wp + bs.length)) =
      content mem rp wp ++ bs := by
  have hend := take_splice_end hlen
  split_ifs at hn with h
  · have hdrop : (mem.drop rp).take (wp - rp) = (mem.take wp).drop rp := by
      rw [List.drop_take]
    have hrp : rp ≤ (mem.take wp).length := by
      rw [List.length_take]
      omega
    rw [content, content, if_pos h, hdrop]
    rcases eq_or_ne (wp + bs.length) mem.length with he | he
    · have hall : (splice mem wp bs) = mem.take wp ++ bs := by
        rw [← hend, List.take_of_length_le (by rw [length_splice hlen]; omega)]
      have hpos : rp ≠ 0 := fun hz => by have := hn hz; omega
      rw [wrap, if_pos he, if_neg (by omega), hall, List.take_zero, List.append_nil,
        List.drop_append_of_le_length hrp]
    · rw [wrap, if_neg he, if_pos (by omega), ← List.drop_take, hend,
        List.drop_append_of_le_length hrp]
  · have hwrap : wrap mem.length (wp + bs.length) = wp + bs.length := if_neg (by omega)
    rw [hwrap, content, if_neg (by omega), content, if_neg h, hend,
      drop_splice hlen (by omega), List.append_assoc]

theorem content_splice (hlen : wp + bs.length ≤ mem.length)
    (hn : wp < rp → wp + bs.length < rp) :
    content (splice mem wp bs) rp wp = content mem rp wp := by
  rcases Nat.lt_or_ge wp rp with h | h
  · have hfree := Nat.le_of_lt (hn h)
    rw [content, content, if_neg (Nat.not_le.mpr h), if_neg (Nat.not_le.mpr h),
      take_splice hlen (Nat.le_refl _), drop_splice hlen hfree]
  · rw [content, content, if_pos h, if_pos h, ← List.drop_take, ← List.drop_take,
      take_splice hlen (Nat.le_refl _)]

end KernelExperiment.Ring
