import KernelExperiment.Proc.Value

/-! The conversions of the `sprintf`s in the debugging files of scull, with the widest field that the
drivers count on for each. -/

namespace KernelExperiment.Proc
open Kernel

/-- `%i` is also the conversion of a `long`. -/
structure Conversions where
  int : Int32 → List Byte
  /-- `% 4i` -/
  spaced : Int32 → List Byte
  /-- `%p` -/
  pointer : UInt32 → List Byte
  /-- `%8p` -/
  wide : UInt32 → List Byte
  length_int_le : ∀ x, (int x).length ≤ 11
  length_pointer_le : ∀ p, (pointer p).length ≤ 8

def hexadecimal (p : UInt32) : List Byte :=
  (Nat.toDigits 16 p.toNat).map fun c => UInt8.ofNat c.toNat

def null : List Byte := ascii "(null)"

theorem length_decimal_le (x : Int32) : (decimal x.toInt).length ≤ 11 := by
  have hlt := x.toInt_lt
  have hle := x.le_toInt
  have hdigits : (Nat.toDigits 10 x.toInt.natAbs).length ≤ 10 :=
    (Nat.length_toDigits_le_iff (by decide) (by decide)).mpr (by omega)
  rw [decimal, List.length_append, List.length_map]
  split_ifs
  · rw [List.length_singleton]
    omega
  · rw [List.length_nil]
    omega

theorem length_hexadecimal_le (p : UInt32) : (hexadecimal p).length ≤ 8 := by
  rw [hexadecimal, List.length_map]
  exact (Nat.length_toDigits_le_iff (by decide) (by decide)).mpr p.toNat_lt

/-- `vsprintf` of the kernel. -/
def vsprintf : Conversions where
  int x := decimal x.toInt
  spaced x := List.leftpad 4 32 (if 0 ≤ x then 32 :: decimal x.toInt else decimal x.toInt)
  pointer p := if p = 0 then null else List.leftpad 8 48 (hexadecimal p)
  wide p := List.leftpad 8 32 (if p = 0 then null else hexadecimal p)
  length_int_le := length_decimal_le
  length_pointer_le p := by
    split_ifs
    · decide
    · rw [List.length_leftpad]
      exact Nat.max_le.mpr ⟨le_rfl, length_hexadecimal_le p⟩

/-- Every field as wide as it can get. -/
def widest : Conversions where
  int x := List.leftpad 11 32 (decimal x.toInt)
  spaced x := List.leftpad 11 32 (decimal x.toInt)
  pointer p := List.leftpad 8 32 (hexadecimal p)
  wide p := List.leftpad 8 32 (hexadecimal p)
  length_int_le x := by
    rw [List.length_leftpad]
    exact Nat.max_le.mpr ⟨le_rfl, length_decimal_le x⟩
  length_pointer_le p := by
    rw [List.length_leftpad]
    exact Nat.max_le.mpr ⟨le_rfl, length_hexadecimal_le p⟩

end KernelExperiment.Proc
