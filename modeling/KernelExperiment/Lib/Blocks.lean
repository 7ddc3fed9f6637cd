import KernelExperiment.Lib.Region
import Mathlib.Logic.Function.Basic

/-! A sparse sequence of cells kept in blocks of one size, some of them missing. -/

namespace KernelExperiment.Blocks
open Region

variable {α : Type*} {q p i n x : ℕ} {st : ℕ → Option (List α)} {b bs : List α}

/-- The cell at a position: in the block `p / q` at the offset `p % q`. -/
def cell (q : ℕ) (st : ℕ → Option (List α)) (p : ℕ) : Option α :=
  (st (p / q)).bind fun b => b[p % q]?

theorem div_add_of_lt (h : p % q + i < q) : (p + i) / q = p / q := by
  rw [← Nat.div_add_mod p q, Nat.add_assoc, Nat.mul_add_div (by omega), Nat.div_eq_of_lt h,
    Nat.mul_add_div (by omega), Nat.div_eq_of_lt (Nat.mod_lt _ (by omega))]

theorem mod_add_of_lt (h : p % q + i < q) : (p + i) % q = p % q + i := by
  rw [Nat.add_mod, Nat.mod_eq_of_lt (show i < q by omega), Nat.mod_eq_of_lt h]

theorem cell_of_block (h : st (p / q) = some b) : cell q st p = b[p % q]? := by
  rw [cell, h, Option.bind_some]

theorem getElem?_range (h : st (p / q) = some b) (hn : p % q + n ≤ q) (hi : i < n) :
    ((b.drop (p % q)).take n)[i]? = cell q st (p + i) := by
  have hlt : p % q + i < q := by omega
  rw [List.getElem?_take_of_lt hi, List.getElem?_drop, cell, div_add_of_lt hlt, h, Option.bind_some,
    mod_add_of_lt hlt]

theorem offset_range_iff (hp : x / q = p / q) :
    (p % q ≤ x % q ∧ x % q < p % q + n) ↔ p ≤ x ∧ x < p + n := by
  have hx := Nat.div_add_mod x q
  have hp' := Nat.div_add_mod p q
  rw [hp] at hx
  omega

/-- Replacing part of a block replaces the cells of that range. The other cells of the block are
those of the block that was changed, which need not be the one that was there. -/
theorem cell_write (st : ℕ → Option (List α)) (p : ℕ) (bs : List α) (hb : b.length = q)
    (hfit : p % q + bs.length ≤ q) (x : ℕ) :
    cell q (Function.update st (p / q) (some (splice b (p % q) bs))) x =
      if p ≤ x ∧ x < p + bs.length then bs[x - p]?
      else if x / q = p / q then b[x % q]? else cell q st x := by
  have hlen : p % q + bs.length ≤ b.length := by omega
  rcases eq_or_ne (x / q) (p / q) with he | hne
  · have hiff := offset_range_iff (n := bs.length) he
    have hx := Nat.div_add_mod x q
    have hp := Nat.div_add_mod p q
    rw [he] at hx
    rw [cell, he, Function.update_self, Option.bind_some, getElem?_splice hlen, if_pos rfl]
    rcases em (p ≤ x ∧ x < p + bs.length) with hin | hout
    · rw [if_pos (hiff.mpr hin), if_pos hin]
      congr 1
      omega
    · rw [if_neg (fun h => hout (hiff.mp h)), if_neg hout]
  · have hout : ¬(p ≤ x ∧ x < p + bs.length) := by
      rintro ⟨hle, hlt⟩
      obtain ⟨i, rfl⟩ := Nat.exists_eq_add_of_le hle
      exact hne (div_add_of_lt (by omega))
    rw [cell, Function.update_of_ne hne, if_neg hout, if_neg hne, cell]

end KernelExperiment.Blocks
