import KernelExperiment.Kernel.Abi
import KernelExperiment.Lib.Terminated
import Mathlib.Data.UInt

/-! The value behind a proc file and `proc_write`, which all of the proc modules have with an array of
their own size, and the texts that their `sprintf`s print. -/

namespace KernelExperiment.Proc
open Kernel Region

def ascii (s : String) : List Byte := s.toList.map fun c => UInt8.ofNat c.toNat

/-- `%d` and `%ld`. -/
def decimal (x : Int) : List Byte :=
  (if x < 0 then [45] else []) ++ (Nat.toDigits 10 x.natAbs).map fun c => UInt8.ofNat c.toNat

def newline : Byte := 10

theorem ne_nul_of_all {bs : List Byte} (h : (bs.all fun b => decide (b ≠ 0)) = true) :
    ∀ b ∈ bs, b ≠ 0 := fun b hb => of_decide_eq_true (List.all_eq_true.mp h b hb)

/-- `MYDATA_LEN` is `n`. -/
structure MyProcData (n : ℕ) where
  value : List Byte
  length_eq : value.length = n
  deriving DecidableEq

namespace MyProcData

variable {n : ℕ}

/-- Stores from `value[i]` on; there is no result outside the array. -/
def store (d : MyProcData n) (i : Int) (bs : List Byte) : Option (MyProcData n) :=
  if h : 0 ≤ i ∧ i.toNat + bs.length ≤ n then
    some
      { value := splice d.value i.toNat bs
        length_eq := (length_splice (d.length_eq.symm ▸ h.2)).trans d.length_eq }
  else none

/-- How many bytes a call of `proc_write` takes. -/
def accepted (n : ℕ) (buffer : List Byte) : ℕ := if buffer.length > n then n else buffer.length

def procWrite (d : MyProcData n) (buffer : List Byte) (fault : Option ℕ) :
    Option (Except Errno ℕ × MyProcData n) :=
  let len := accepted n buffer
  (d.store 0 (copiedIn (buffer.take len) fault)).bind fun d =>
    if copyOk len fault then (d.store (len - 1) [0]).map fun d => (.ok len, d)
    else some (.error .efault, d)

variable {d e : MyProcData n} {buffer bs : List Byte} {fault : Option ℕ}

theorem store_natCast (d : MyProcData n) {i : ℕ} (h : i + bs.length ≤ n) :
    ∃ e, d.store i bs = some e ∧ e.value = splice d.value i bs :=
  ⟨_, dif_pos ⟨Int.natCast_nonneg i, h⟩, rfl⟩

theorem store_neg (d : MyProcData n) {i : Int} (h : i < 0) : d.store i bs = none :=
  dif_neg fun hi => absurd hi.1 (Int.not_le.mpr h)

theorem accepted_eq_min (n : ℕ) (buffer : List Byte) : accepted n buffer = min n buffer.length := by
  unfold accepted
  split_ifs <;> omega

theorem accepted_le (n : ℕ) (buffer : List Byte) : accepted n buffer ≤ n := by
  rw [accepted_eq_min]
  exact Nat.min_le_left ..

theorem accepted_pos (hn : 0 < n) (hne : buffer ≠ []) : 0 < accepted n buffer := by
  rw [accepted_eq_min]
  exact Nat.lt_min.mpr ⟨hn, List.length_pos_iff.mpr hne⟩

theorem length_copiedIn_accepted (n : ℕ) (buffer : List Byte) (fault : Option ℕ) :
    (copiedIn (buffer.take (accepted n buffer)) fault).length = accepted n buffer := by
  rw [length_copiedIn, List.length_take, accepted_eq_min]
  omega

/-- The copy stays inside the array. -/
theorem procWrite_copies (d : MyProcData n) (buffer : List Byte) (fault : Option ℕ) :
    ∃ e : MyProcData n,
      e.value = splice d.value 0 (copiedIn (buffer.take (accepted n buffer)) fault) ∧
      d.procWrite buffer fault =
        if copyOk (accepted n buffer) fault then
          (e.store (accepted n buffer - 1) [0]).map fun e => (.ok (accepted n buffer), e)
        else some (.error .efault, e) := by
  have hle : 0 + (copiedIn (buffer.take (accepted n buffer)) fault).length ≤ n := by
    rw [length_copiedIn_accepted, Nat.zero_add]
    exact accepted_le n buffer
  obtain ⟨e, he, hvalue⟩ := d.store_natCast hle
  refine ⟨e, hvalue, ?_⟩
  rw [procWrite, ← Int.natCast_zero, he, Option.bind_some]

/-- An empty write comes to the byte in front of the array. -/
theorem procWrite_nil (d : MyProcData n) (fault : Option ℕ) : d.procWrite [] fault = none := by
  obtain ⟨e, -, heq⟩ := d.procWrite_copies [] fault
  have hlen : accepted n [] = 0 := by rw [accepted_eq_min, List.length_nil, Nat.min_zero]
  have hok : copyOk 0 fault := fun k _ => Nat.zero_le k
  rw [heq, hlen, if_pos hok, store_neg e (by decide), Option.map_none]

/-- The last byte of a copy that has gone through gives way to the NUL. -/
theorem procWrite_copied (hn : 0 < n) (d : MyProcData n) (hne : buffer ≠ [])
    (hok : copyOk (accepted n buffer) fault) : ∃ e e' : MyProcData n,
      e.value = splice d.value 0 (copiedIn (buffer.take (accepted n buffer)) fault) ∧
      d.procWrite buffer fault = some (.ok (accepted n buffer), e') ∧
      e'.value = splice e.value (accepted n buffer - 1) [0] := by
  obtain ⟨e, hvalue, heq⟩ := d.procWrite_copies buffer fault
  have hpos : 0 < accepted n buffer := accepted_pos hn hne
  have hcast : ((accepted n buffer : ℕ) : Int) - 1 = (accepted n buffer - 1 : ℕ) := by omega
  have hle : accepted n buffer - 1 + [(0 : Byte)].length ≤ n := by
    rw [List.length_singleton, Nat.sub_add_cancel hpos]
    exact accepted_le n buffer
  obtain ⟨e', he', hvalue'⟩ := e.store_natCast hle
  refine ⟨e, e', hvalue, ?_, hvalue'⟩
  rw [heq, if_pos hok, hcast, he', Option.map_some]

/-- Where a write has bytes to store, it terminates what it has stored, or its copy is cut short and
has zeros at the end. -/
theorem procWrite_terminates (hn : 0 < n) (d : MyProcData n) (hne : buffer ≠ [])
    (fault : Option ℕ) : ∃ r e, d.procWrite buffer fault = some (r, e) ∧ 0 ∈ e.value := by
  by_cases hok : copyOk (accepted n buffer) fault
  · obtain ⟨e, e', -, heq, hvalue'⟩ := d.procWrite_copied hn hne hok
    refine ⟨_, e', heq, ?_⟩
    rw [hvalue']
    exact Terminated.zero_mem_splice (List.mem_singleton_self 0)
  · obtain ⟨e, hvalue, heq⟩ := d.procWrite_copies buffer fault
    rw [heq, if_neg hok]
    refine ⟨_, e, rfl, ?_⟩
    rw [hvalue]
    apply Terminated.zero_mem_splice
    -- the fault is before the end of the copy
    cases fault with
    | none => exact absurd (copyOk_none _) hok
    | some k =>
      have hk : k < accepted n buffer := by
        by_contra hle
        exact hok fun j hj => by cases hj; exact Nat.not_lt.mp hle
      have hlen : (buffer.take (accepted n buffer)).length = accepted n buffer := by
        rw [List.length_take, accepted_eq_min]
        omega
      rw [copiedIn, hlen]
      exact List.mem_append_right _ (List.mem_replicate.mpr ⟨by omega, rfl⟩)

/-- What a write leaves that has gone through. -/
theorem procWrite_ok (hn : 0 < n) (d : MyProcData n) (hne : buffer ≠ [])
    (hnul : ∀ b ∈ buffer.take (accepted n buffer - 1), b ≠ 0) :
    ∃ e, d.procWrite buffer none = some (.ok (accepted n buffer), e) ∧
      Terminated.text e.value = some (buffer.take (accepted n buffer - 1)) := by
  obtain ⟨e, e', hvalue, heq, hvalue'⟩ := d.procWrite_copied hn hne (copyOk_none _)
  refine ⟨e', heq, ?_⟩
  have hlength := length_copiedIn_accepted n buffer none
  rw [copiedIn] at hvalue hlength
  have hcopy : e.value.take (accepted n buffer) = buffer.take (accepted n buffer) := by
    have hfits : 0 + (buffer.take (accepted n buffer)).length ≤ d.value.length := by
      rw [hlength, d.length_eq, Nat.zero_add]
      exact accepted_le n buffer
    have hend := take_splice_end hfits
    rwa [← hvalue, hlength, Nat.zero_add, List.take_zero, List.nil_append] at hend
  have hfront : e.value.take (accepted n buffer - 1) = buffer.take (accepted n buffer - 1) := by
    have htake := congrArg (List.take (accepted n buffer - 1)) hcopy
    rwa [List.take_take, List.take_take, Nat.min_eq_left (Nat.sub_le _ _)] at htake
  rw [hvalue', splice, hfront, List.append_assoc, List.singleton_append]
  exact Terminated.text_append_zero hnul _

end MyProcData
end KernelExperiment.Proc
