import Mathlib.Data.Int.Order.Basic
import Mathlib.Data.List.TakeDrop

/-! Integer conversions, error codes and user-memory copies of the 32-bit (i686) kernel build. -/

namespace KernelExperiment.Kernel

abbrev Byte := UInt8

/-- Conversion to `size_t` or `unsigned long`. -/
def sizeT (x : Int) : ℕ := (x % 4294967296).toNat

/-- Conversion to `int` or `long`. -/
def toLong (x : Int) : Int := Int.bmod x 4294967296

/-- Conversion to `loff_t`, with the wrap-around that `-fno-strict-overflow` gives its sums. -/
def toLoff (x : Int) : Int := Int.bmod x 18446744073709551616

/-- Signed division with its remainder. The processor traps when there is no 32-bit quotient. -/
def divMod (a b : Int) : Option (Int × Int) :=
  if b = 0 ∨ a = -2147483648 ∧ b = -1 then none else some (a.tdiv b, a.tmod b)

def block {β : Type*} (n : ℕ) (contents : ℕ → β) : List β := (List.range n).map contents

/-- What the calls of `kmalloc` return, by their number: NULL, or a block with these contents. -/
abbrev Kmalloc (β : Type*) := ℕ → Option (ℕ → β)

def ample : Kmalloc Byte := fun _ => some fun _ => 255

inductive Errno where
  | eperm
  | eagain
  | enomem
  | efault
  | ebusy
  | einval
  | enotty
  | enospc
  | erestartsys
  deriving DecidableEq, Repr

def Errno.code : Errno → Int
  | eperm => 1
  | eagain => 11
  | enomem => 12
  | efault => 14
  | ebusy => 16
  | einval => 22
  | enotty => 25
  | enospc => 28
  | erestartsys => 512

/-- Whether a copy of `n` bytes completes when the user memory faults after `fault` bytes. -/
def copyOk (n : ℕ) (fault : Option ℕ) : Prop := ∀ k ∈ fault, n ≤ k

instance (n : ℕ) (fault : Option ℕ) : Decidable (copyOk n fault) :=
  inferInstanceAs (Decidable (∀ k ∈ fault, n ≤ k))

/-- The kernel bytes after `copy_from_user`: what could not be copied is zeroed. -/
def copiedIn {β : Type*} [OfNat β 0] (user : List β) (fault : Option ℕ) : List β :=
  match fault with
  | none => user
  | some k => user.take k ++ List.replicate (user.length - k) 0

@[simp] theorem length_block {β : Type*} (n : ℕ) (contents : ℕ → β) :
    (block n contents).length = n := by
  rw [block, List.length_map, List.length_range]

theorem block_add {β : Type*} (m n : ℕ) (f : ℕ → β) :
    block (m + n) f = block m f ++ block n fun k => f (m + k) := by
  rw [block, List.range_add, List.map_append, List.map_map]
  rfl

theorem drop_block {β : Type*} (m n : ℕ) (f : ℕ → β) :
    (block (m + n) f).drop m = block n fun k => f (m + k) := by
  rw [block_add, List.drop_left' (length_block m f)]

theorem divMod_natCast {b : ℕ} (a : ℕ) (hb : 0 < b) :
    divMod a b = some (((a / b : ℕ) : Int), ((a % b : ℕ) : Int)) := by
  rw [divMod, if_neg (by omega), Int.ofNat_tdiv, Int.ofNat_tmod]

theorem sizeT_le (x : Int) : sizeT x ≤ x.toNat ∨ x < 0 := by
  unfold sizeT
  omega

theorem sizeT_of_lt {x : Int} (h0 : 0 ≤ x) (h : x < 4294967296) : sizeT x = x.toNat := by
  rw [sizeT, Int.emod_eq_of_lt h0 h]

theorem toLong_of_lt {x : Int} (h0 : 0 ≤ x) (h : x < 2147483648) : toLong x = x := by
  unfold toLong
  rw [Int.bmod_eq_of_le] <;> omega

theorem toLong_toLong_add (x y : Int) : toLong (toLong x + y) = toLong (x + y) := by
  unfold toLong
  rw [Int.bmod_add_bmod]

theorem toLoff_of_lt {x : Int} (h0 : 0 ≤ x) (h : x < 9223372036854775808) : toLoff x = x := by
  unfold toLoff
  rw [Int.bmod_eq_of_le] <;> omega

theorem toLoff_lt (x : Int) : toLoff x < 9223372036854775808 :=
  Int.bmod_lt (by decide)

theorem toLoff_natCast_add {p n : ℕ} (h : p + n < 9223372036854775808) :
    toLoff ((p : Int) + n) = ((p + n : ℕ) : Int) := by
  rw [toLoff_of_lt] <;> omega

theorem toLoff_add {start : ℕ} {off : Int} (hs : start < 9223372036854775808)
    (h1 : -9223372036854775808 ≤ off) (h2 : off < 9223372036854775808) :
    toLoff (start + off) = if start + off < 9223372036854775808 then start + off
      else start + off - 18446744073709551616 := by
  unfold toLoff
  rw [Int.bmod_def]
  split_ifs <;> omega

theorem cutCount_eq {p size : ℕ} (count : ℕ) (hp : p < size) (hsize : size < 4294967296) :
    (if (p : Int) + count > size then sizeT ((size : Int) - p) else count) =
      min count (size - p) := by
  have hrest : sizeT ((size : Int) - p) = size - p := by
    rw [sizeT_of_lt] <;> omega
  rw [hrest]
  split_ifs <;> omega

@[simp] theorem copyOk_none (n : ℕ) : copyOk n none := by simp [copyOk]

variable {β : Type*} [OfNat β 0]

@[simp] theorem length_copiedIn (user : List β) (fault : Option ℕ) :
    (copiedIn user fault).length = user.length := by
  cases fault with
  | none => rfl
  | some k =>
    rw [copiedIn, List.length_append, List.length_take, List.length_replicate]
    omega

theorem copiedIn_of_ok {user : List β} {fault : Option ℕ} (h : copyOk user.length fault) :
    copiedIn user fault = user := by
  cases fault with
  | none => rfl
  | some k =>
    have hk := h k rfl
    rw [copiedIn, List.take_of_length_le hk, Nat.sub_eq_zero_of_le hk, List.replicate_zero,
      List.append_nil]

end KernelExperiment.Kernel
