import KernelExperiment.Kernel.Abi

/-! Open files of a device, with the `llseek` that the two bare drivers share. -/

namespace KernelExperiment.Kernel

structure File where
  fPos : Int
  read : Bool
  write : Bool
  deriving DecidableEq

/-- The new position in a device of `size` bytes. -/
def llseek (fPos : Int) (size : ℕ) (off : Int) (whence : ℕ) : Except Errno Int :=
  let newpos : Option Int :=
    match whence with
    | 0 => some off
    | 1 => some (toLoff (fPos + off))
    | 2 => some (toLoff (size + off))
    | _ => none
  match newpos with
  | none => .error .einval
  | some newpos => if newpos < 0 then .error .einval else .ok newpos

theorem llseek_nonneg {fPos : Int} {size : ℕ} {off : Int} {whence : ℕ} {newpos : Int}
    (h : llseek fPos size off whence = .ok newpos) : 0 ≤ newpos := by
  simp only [llseek] at h
  split at h
  · cases h
  · split_ifs at h with hneg
    cases h
    exact Int.not_lt.mp hneg

theorem llseek_lt {fPos : Int} {size : ℕ} {off : Int} {whence : ℕ} {newpos : Int}
    (hoff : off < 9223372036854775808) (h : llseek fPos size off whence = .ok newpos) :
    newpos < 9223372036854775808 := by
  simp only [llseek] at h
  split at h
  · cases h
  next hpos =>
    split_ifs at h with hneg
    cases h
    split at hpos <;> cases hpos
    · exact hoff
    · exact toLoff_lt _
    · exact toLoff_lt _

theorem llseek_end {fPos : Int} {size : ℕ} (h : size < 9223372036854775808) :
    llseek fPos size 0 2 = .ok size := by
  have hpos : toLoff ((size : Int) + 0) = size := by
    rw [Int.add_zero, toLoff_of_lt (Int.natCast_nonneg size) (Int.ofNat_lt.mpr h)]
  have hneg : ¬(size : Int) < 0 := Int.not_lt.mpr (Int.natCast_nonneg size)
  simp only [llseek, hpos, if_neg hneg]

end KernelExperiment.Kernel
