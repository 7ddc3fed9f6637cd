import KernelExperiment.Lib.Records
import KernelExperiment.Proc.Conversions
import KernelExperiment.Scull.Geometry

/-! The file `/proc/scullmem` with what is allocated for the bare devices. The room is looked at in
front of a device and in front of an item of its list, and not while the pointers of the last item
are printed. -/

namespace KernelExperiment.Scull
open Kernel Proc Records

/-- A device whose pointer arrays are as long as `dev->qset` says. -/
structure Device (β : Type*) extends ScullDev β where
  slots_le : ∀ qs ∈ data, ∀ arr ∈ qs.data, qset.toNat ≤ arr.slots.length

/-- Where all sections are up to date the device stays one of these. -/
theorem exists_device_of_sectionsUpToDate {P β : Type*} [DecidableEq P] [OfNat β 0] {κ : Kmalloc β}
    {quantum qset : Int} (hgeo : GeometryOk quantum qset) {as : List (Overlap.Act P β)}
    (hup : Runs.Meets (Overlap.Sys.step κ) Overlap.Sys.SectionsUpToDate
      (Overlap.Sys.loaded quantum qset) as) :
    Runs.Always (Overlap.Sys.step κ) (fun s => ∃ d : Device β, d.toScullDev = s.driver.dev)
      (Overlap.Sys.loaded quantum qset) as := by
  refine Runs.meets_always (fun _ _ _ => Overlap.Sys.Inv.step) (fun s hinv => ?_)
    (Overlap.Sys.Inv.loaded hgeo) hup
  obtain ⟨q, n, hfit⟩ := hinv.fitting
  refine ⟨{ toScullDev := s.driver.dev, slots_le := fun qs hqs arr harr => ?_ }, rfl⟩
  rw [hfit.usable.qset_eq, hfit.sized.arrays qs hqs arr harr]
  exact Nat.le_refl _

/-- How the kernel prints numbers and pointers, and where the blocks of the driver are. -/
structure Printer where
  conv : Conversions
  addr : ℕ → UInt32

variable {β : Type*}

namespace Printer

variable (pr : Printer)

def deviceLine (i : ℕ) (d : Device β) : List Byte :=
  ascii "\nDevice " ++ pr.conv.int (Int32.ofNat i) ++ ascii ": qset " ++
    pr.conv.int (Int32.ofInt d.qset) ++ ascii ", q " ++ pr.conv.int (Int32.ofInt d.quantum) ++
    ascii ", sz " ++ pr.conv.int (Int32.ofNat d.size) ++ ascii "\n"

def itemLine (qs : ScullQset β) : List Byte :=
  ascii "  item at " ++ pr.conv.pointer (pr.addr qs.block) ++ ascii ", qset at " ++
    pr.conv.pointer (qs.data.elim 0 fun arr => pr.addr arr.block) ++ ascii "\n"

def quantumLine (j : ℕ) (qm : Quantum β) : List Byte :=
  ascii "    " ++ pr.conv.spaced (Int32.ofNat j) ++ ascii ": " ++ pr.conv.wide (pr.addr qm.block) ++
    ascii "\n"

/-- The loop over the pointers of an array. -/
def slotLines (qset : ℕ) (arr : PtrArray β) : List Byte :=
  (arr.slots.take qset).zipIdx.flatMap fun (slot, j) => slot.elim [] (pr.quantumLine j)

/-- `if (qs->data && !qs->next)` -/
def dump (d : Device β) (qs : ScullQset β) (next : List (ScullQset β)) : List Byte :=
  if next.isEmpty then qs.data.elim [] (pr.slotLines d.qset.toNat) else []

/-- `buf` after the loop over the list. -/
def scanList (d : Device β) (limit : Int) : List (ScullQset β) → List Byte → List Byte
  | [], buf => buf
  | qs :: next, buf =>
    if buf.length ≤ limit then scanList d limit next (buf ++ pr.itemLine qs ++ pr.dump d qs next)
    else buf

/-- Whether the loop over the devices has come to its end, and `buf`. -/
def scanDevices (interrupted : ℕ → Bool) (limit : Int) :
    ℕ → List (Device β) → List Byte → Bool × List Byte
  | _, [], buf => (true, buf)
  | i, d :: devs, buf =>
    if buf.length ≤ limit then
      if interrupted i then (false, buf)
      else
        scanDevices interrupted limit (i + 1) devs
          (pr.scanList d limit d.data (buf ++ pr.deviceLine i d))
    else (true, buf)

/-- `scull_read_procmem` with what it has in `buf` and whether it has set `*eof`. -/
def scullReadProcmem (interrupted : ℕ → Bool) (devs : List (Device β)) (count : Int) :
    Except Errno ℕ × Bool × List Byte :=
  match pr.scanDevices interrupted (count - 80) 0 devs [] with
  | (true, buf) => (.ok buf.length, true, buf)
  | (false, buf) => (.error .erestartsys, false, buf)

/-- The same loop in `scull_seq_show`, which has no limit to keep. -/
def showList (d : Device β) : List (ScullQset β) → List Byte
  | [] => []
  | qs :: next => pr.itemLine qs ++ pr.dump d qs next ++ showList d next

/-- `scull_seq_show` of device `i`. -/
def scullSeqShow (d : Device β) (i : ℕ) : List Byte := pr.deviceLine i d ++ pr.showList d d.data

end Printer

/-- The devices that a call gets the semaphores of if it does not run out of room before. -/
def obtained (interrupted : ℕ → Bool) (i : ℕ) (devs : List (Device β)) : List (Device β × ℕ) :=
  (devs.zipIdx i).takeWhile fun (_, j) => !interrupted j

theorem obtained_of_true {interrupted : ℕ → Bool} {i : ℕ} {d : Device β} {devs : List (Device β)}
    (h : interrupted i = true) : obtained interrupted i (d :: devs) = [] := by
  simp [obtained, h]

theorem obtained_of_false {interrupted : ℕ → Bool} {i : ℕ} {d : Device β} {devs : List (Device β)}
    (h : interrupted i = false) :
    obtained interrupted i (d :: devs) = (d, i) :: obtained interrupted (i + 1) devs := by
  simp [obtained, h]

namespace Printer

variable {pr : Printer} {d : Device β} {limit : Int} {interrupted : ℕ → Bool} {i : ℕ}

/-- A line is printed with what comes behind it unchecked. -/
def listRecords (pr : Printer) (d : Device β) : List (ScullQset β) → List (List Byte)
  | [] => []
  | qs :: next => (pr.itemLine qs ++ pr.dump d qs next) :: listRecords pr d next

def deviceRecords (pr : Printer) : Device β × ℕ → List (List Byte)
  | (d, i) => pr.deviceLine i d :: pr.listRecords d d.data

theorem flatten_listRecords (qss : List (ScullQset β)) :
    (pr.listRecords d qss).flatten = pr.showList d qss := by
  induction qss with
  | nil => rfl
  | cons qs next ih => rw [listRecords, List.flatten_cons, ih, showList]

theorem flatten_deviceRecords (devs : List (Device β × ℕ)) :
    (devs.flatMap pr.deviceRecords).flatten = devs.flatMap fun (d, i) => pr.scullSeqShow d i := by
  rw [List.flatMap, List.flatten_flatten, List.map_map, ← List.flatMap]
  congr 1
  funext ⟨d, i⟩
  exact congrArg (pr.deviceLine i d ++ ·) (flatten_listRecords d.data)

theorem scanList_eq (qss : List (ScullQset β)) (buf : List Byte) :
    pr.scanList d limit qss buf = fill limit buf (pr.listRecords d qss) := by
  induction qss generalizing buf with
  | nil => rfl
  | cons qs next ih => rw [scanList, listRecords, fill, ih, List.append_assoc]

theorem scanDevices_eq (devs : List (Device β)) (buf : List Byte) :
    (pr.scanDevices interrupted limit i devs buf).2 =
      fill limit buf ((obtained interrupted i devs).flatMap pr.deviceRecords) := by
  induction devs generalizing i buf with
  | nil => rfl
  | cons d devs ih =>
    rcases Int.lt_or_le limit buf.length with hlt | hle
    · rw [fill_of_lt hlt, scanDevices, if_neg (Int.not_le.mpr hlt)]
    · rw [scanDevices, if_pos hle]
      cases hi : interrupted i with
      | true => rw [obtained_of_true hi, if_pos rfl, List.flatMap_nil, fill]
      | false =>
        rw [obtained_of_false hi, if_neg Bool.false_ne_true, ih, scanList_eq, List.flatMap_cons,
          deviceRecords, List.cons_append, fill_cons_of_le hle, fill_append]

/-! No line is longer than what is kept free for it. -/

theorem length_deviceLine_le (pr : Printer) (i : ℕ) (d : Device β) :
    (pr.deviceLine i d).length ≤ 69 := by
  have hi := pr.conv.length_int_le (Int32.ofNat i)
  have hqset := pr.conv.length_int_le (Int32.ofInt d.qset)
  have hquantum := pr.conv.length_int_le (Int32.ofInt d.quantum)
  have hsize := pr.conv.length_int_le (Int32.ofNat d.size)
  have h8 : (ascii "\nDevice ").length = 8 := by decide
  have h7 : (ascii ": qset ").length = 7 := by decide
  have h4 : (ascii ", q ").length = 4 := by decide
  have h5 : (ascii ", sz ").length = 5 := by decide
  have h1 : (ascii "\n").length = 1 := by decide
  unfold deviceLine
  simp only [List.length_append, h8, h7, h4, h5, h1]
  omega

theorem length_itemLine_le (pr : Printer) (qs : ScullQset β) : (pr.itemLine qs).length ≤ 37 := by
  have hitem := pr.conv.length_pointer_le (pr.addr qs.block)
  have hdata := pr.conv.length_pointer_le (qs.data.elim 0 fun arr => pr.addr arr.block)
  have h10 : (ascii "  item at ").length = 10 := by decide
  have h10' : (ascii ", qset at ").length = 10 := by decide
  have h1 : (ascii "\n").length = 1 := by decide
  unfold itemLine
  simp only [List.length_append, h10, h10', h1]
  omega

theorem listRecords_concat (items : List (ScullQset β)) (last : ScullQset β) :
    pr.listRecords d (items ++ [last]) =
      items.map pr.itemLine ++ [pr.itemLine last ++ pr.dump d last []] := by
  induction items with
  | nil => rfl
  | cons qs items ih =>
    have hdump : pr.dump d qs (items ++ [last]) = [] := by simp [dump]
    rw [List.cons_append, listRecords, ih, hdump, List.append_nil, List.map_cons, List.cons_append]

end Printer

/-- Each last item that is come to with `count - 80` characters or less can be printed with all of
its pointers. -/
def Roomy (pr : Printer) (interrupted : ℕ → Bool) (devs : List (Device β)) (count : Int) : Prop :=
  ∀ before d i after, obtained interrupted 0 devs = before ++ (d, i) :: after →
    ∀ items last, d.data = items ++ [last] → last.data ≠ none →
      let front := (before.flatMap fun (d, i) => pr.scullSeqShow d i) ++ pr.deviceLine i d ++
        items.flatMap pr.itemLine
      front.length ≤ count - 80 →
        ((before ++ [(d, i)]).flatMap fun (d, i) => pr.scullSeqShow d i).length < count

namespace Printer

variable {pr : Printer} {d : Device β} {interrupted : ℕ → Bool} {i len bound : ℕ} {limit : Int}

/-- Only the last item can take more than its line. -/
theorem each_listRecords_iff (hbound : limit + 37 ≤ bound) (qss : List (ScullQset β)) :
    Each (fun n r => n ≤ limit → n + r.length ≤ bound) len (pr.listRecords d qss) ↔
      ∀ items last, qss = items ++ [last] → last.data ≠ none →
        (len + (items.flatMap pr.itemLine).length : ℕ) ≤ limit →
          len + (pr.showList d qss).length ≤ bound := by
  rcases List.eq_nil_or_concat' qss with rfl | ⟨items, last, rfl⟩
  · exact iff_of_true trivial fun items last h => by simp at h
  · have hline := pr.length_itemLine_le last
    have hlines : Each (fun n r => n ≤ limit → n + r.length ≤ bound) len
        (items.map pr.itemLine) := by
      refine each_of_forall fun n r hr hle => ?_
      obtain ⟨qs, -, rfl⟩ := List.mem_map.mp hr
      have hqs := pr.length_itemLine_le qs
      omega
    have hlen : ∀ r : List Byte, len + (items.flatMap pr.itemLine ++ r).length =
        len + (items.flatMap pr.itemLine).length + r.length :=
      fun r => by rw [List.length_append, Nat.add_assoc]
    rw [← flatten_listRecords, listRecords_concat, each_append, and_iff_right hlines, Each, Each,
      and_true, List.flatten_append, List.flatten_singleton, ← List.flatMap, hlen]
    constructor
    · intro hfits items' last' hlist hdata hle
      obtain ⟨rfl, -⟩ := List.append_inj' hlist rfl
      exact hfits hle
    · intro hfits hle
      by_cases hdata : last.data = none
      · have hdump : pr.dump d last [] = [] := by simp [dump, hdata]
        rw [hdump, List.append_nil]
        omega
      · exact hfits items last rfl hdata hle

theorem each_deviceRecords_iff (hbound : limit + 69 ≤ bound) :
    Each (fun n r => n ≤ limit → n + r.length ≤ bound) len (pr.deviceRecords (d, i)) ↔
      ∀ items last, d.data = items ++ [last] → last.data ≠ none →
        (len + (pr.deviceLine i d ++ items.flatMap pr.itemLine).length : ℕ) ≤ limit →
          len + (pr.scullSeqShow d i).length ≤ bound := by
  have hline := pr.length_deviceLine_le i d
  have hfirst : len ≤ limit → len + (pr.deviceLine i d).length ≤ bound := fun hle => by omega
  have hlen : ∀ r : List Byte, len + (pr.deviceLine i d ++ r).length =
      len + (pr.deviceLine i d).length + r.length :=
    fun r => by rw [List.length_append, Nat.add_assoc]
  rw [deviceRecords, Each, and_iff_right hfirst, each_listRecords_iff (by omega), scullSeqShow, hlen]
  simp only [hlen]

theorem scullReadProcmem_buf (devs : List (Device β)) (count : Int) :
    (pr.scullReadProcmem interrupted devs count).2.2 =
      fill (count - 80) [] ((obtained interrupted 0 devs).flatMap pr.deviceRecords) := by
  rw [← scanDevices_eq, scullReadProcmem]
  cases hscan : pr.scanDevices interrupted (count - 80) 0 devs [] with
  | mk finished buf => cases finished <;> rfl

/-- With the NUL behind it. -/
theorem length_scullReadProcmem_le_iff (devs : List (Device β)) {count : Int} (h : 80 ≤ count) :
    (pr.scullReadProcmem interrupted devs count).2.2.length + 1 ≤ count ↔
      Roomy pr interrupted devs count := by
  obtain ⟨bound, rfl⟩ : ∃ bound : ℕ, count = bound + 1 := ⟨(count - 1).toNat, by omega⟩
  rw [scullReadProcmem_buf, Int.add_le_add_iff_right, Int.ofNat_le,
    length_fill_le_iff (Nat.zero_le _), each_flatMap, Roomy]
  refine forall_congr' fun before => Prod.forall.trans (forall₄_congr fun d i after _ => ?_)
  rw [each_deviceRecords_iff (by omega), flatten_deviceRecords, List.length_nil, Nat.zero_add]
  refine forall₄_congr fun items last _ _ => imp_congr ?_ ?_
  · rw [List.append_assoc, ← List.length_append]
  · rw [List.flatMap_append, List.flatMap_singleton, List.length_append, Int.lt_add_one_iff,
      Int.ofNat_le]

/-! What the pointers alone take. -/

theorem length_quantumLine_ge (pr : Printer) (j : ℕ) (qm : Quantum β) :
    7 ≤ (pr.quantumLine j qm).length := by
  have h4 : (ascii "    ").length = 4 := by decide
  have h2 : (ascii ": ").length = 2 := by decide
  have h1 : (ascii "\n").length = 1 := by decide
  unfold quantumLine
  simp only [List.length_append, h4, h2, h1]
  omega

theorem length_slotLines_ge (pr : Printer) (qset : ℕ) (arr : PtrArray β) :
    7 * (arr.slots.take qset).countP Option.isSome ≤ (pr.slotLines qset arr).length := by
  have hlines : ∀ (slots : List (Option (Quantum β))) (j : ℕ), 7 * slots.countP Option.isSome ≤
      ((slots.zipIdx j).flatMap fun (slot, j) => slot.elim [] (pr.quantumLine j)).length := by
    intro slots
    induction slots with
    | nil => exact fun j => Nat.le_refl _
    | cons slot slots ih =>
      intro j
      have hrest := ih (j + 1)
      rw [List.zipIdx_cons, List.flatMap_cons, List.length_append]
      cases slot with
      | none =>
        rw [List.countP_cons_of_neg Bool.false_ne_true]
        exact Nat.le_trans hrest (Nat.le_add_left _ _)
      | some qm =>
        rw [List.countP_cons_of_pos rfl, Nat.mul_succ, Nat.add_comm]
        exact Nat.add_le_add (pr.length_quantumLine_ge j qm) hrest
  exact hlines _ 0

/-- The pointers of an only item are all printed, however many they are. -/
theorem length_scullReadProcmem_ge {qs : ScullQset β} {arr : PtrArray β} (hlist : d.data = [qs])
    (harr : qs.data = some arr) (h0 : interrupted 0 = false) (devs : List (Device β)) {count : Int}
    (hcount : 149 ≤ count) : 7 * (arr.slots.take d.qset.toNat).countP Option.isSome ≤
      (pr.scullReadProcmem interrupted (d :: devs) count).2.2.length := by
  have hline := pr.length_deviceLine_le 0 d
  have hdump : pr.dump d qs [] = pr.slotLines d.qset.toNat arr := by simp [dump, harr]
  have hempty : ([] : List Byte).length ≤ count - 80 := by
    rw [List.length_nil]
    omega
  have hnext : ([] ++ pr.deviceLine 0 d).length ≤ count - 80 := by
    rw [List.nil_append]
    omega
  rw [scullReadProcmem_buf, obtained_of_false h0, List.flatMap_cons, deviceRecords, hlist,
    listRecords, listRecords, hdump, List.cons_append, fill_cons_of_le hempty, List.cons_append,
    fill_cons_of_le hnext]
  refine Nat.le_trans ?_ (length_le_fill _ _)
  have hslots := pr.length_slotLines_ge d.qset.toNat arr
  simp only [List.length_append]
  omega

end Printer

/-- The blocks of the driver lie page by page. -/
def paged : Printer where
  conv := vsprintf
  addr block := UInt32.ofNat (4096 * (block + 1))

def sparse : Device Byte where
  data := [⟨0, none⟩, ⟨1, some ⟨2, [none, some ⟨3, [65, 66]⟩]⟩⟩]
  quantum := 2
  qset := 2
  size := 8
  slots_le := by decide

theorem roomy_sparse : Roomy { paged with conv := widest } (fun _ => false) [sparse, sparse] 3072 :=
  (Printer.length_scullReadProcmem_le_iff _ (by decide)).mp (by decide +kernel)

/-- An array of `n` pointers with a quantum of 4000 bytes behind each. -/
def full (n : ℕ) : PtrArray Byte where
  block := 1
  slots := (List.range n).map fun j => some ⟨j + 2, List.replicate 4000 65⟩

theorem length_full (n : ℕ) : (full n).slots.length = n := by
  rw [full, List.length_map, List.length_range]

theorem countP_full (n : ℕ) : (full n).slots.countP Option.isSome = n := by
  rw [full, List.countP_map]
  exact (List.countP_eq_length.mpr fun _ _ => rfl).trans List.length_range

/-- Four million bytes written from the beginning on. -/
def dense : Device Byte where
  data := [⟨0, some (full 1000)⟩]
  quantum := 4000
  qset := 1000
  size := 4000000
  slots_le := by
    intro qs hqs arr harr
    obtain rfl := List.mem_singleton.mp hqs
    obtain rfl := Option.mem_some.mp harr
    exact (length_full 1000).ge

theorem dense_overruns :
    ¬((paged.scullReadProcmem (fun _ => false) [dense] 3072).2.2.length + 1 : Int) ≤ 3072 := by
  have htake : (full 1000).slots.take dense.qset.toNat = (full 1000).slots :=
    List.take_of_length_le (length_full 1000).le
  have hall : 7 * ((full 1000).slots.take dense.qset.toNat).countP Option.isSome ≤
      (paged.scullReadProcmem (fun _ => false) [dense] 3072).2.2.length :=
    Printer.length_scullReadProcmem_ge rfl rfl rfl [] (by decide)
  rw [htake, countP_full] at hall
  omega

end KernelExperiment.Scull
