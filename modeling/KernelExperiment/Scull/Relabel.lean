import KernelExperiment.Scull.Calls
import Mathlib.Data.List.ReduceOption

/-! Every operation of the bare device commutes with a replacement of the bytes, since the driver
moves bytes around and never looks at one. -/

namespace KernelExperiment.Scull
open Kernel Region Runs

variable {F β γ : Type*} (f : β → γ)

def Quantum.map (qm : Quantum β) : Quantum γ := { block := qm.block, bytes := qm.bytes.map f }

def PtrArray.map (arr : PtrArray β) : PtrArray γ :=
  { block := arr.block, slots := arr.slots.map (Option.map (Quantum.map f)) }

def ScullQset.map (dptr : ScullQset β) : ScullQset γ :=
  { block := dptr.block, data := dptr.data.map (PtrArray.map f) }

def Driver.map (d : Driver β) : Driver γ :=
  { scullQuantum := d.scullQuantum
    scullQset := d.scullQset
    dev :=
      { data := d.dev.data.map (ScullQset.map f), quantum := d.dev.quantum, qset := d.dev.qset
        size := d.dev.size }
    nalloc := d.nalloc
    freed := d.freed }

def Result.map : Result β → Result γ
  | opened => .opened
  | told => .told
  | position newpos => .position newpos
  | stored n => .stored n
  | bytes bs => .bytes (bs.map f)
  | error e => .error e

def Act.map : Act F β → Act F γ
  | opens g r w interrupted => .opens g r w interrupted
  | ioctl cmd => .ioctl cmd
  | llseek g off whence => .llseek g off whence
  | read g count interrupted fault => .read g count interrupted fault
  | write g buf interrupted fault => .write g (buf.map f) interrupted fault

def Op.map : Op β → Op γ
  | llseek off whence => .llseek off whence
  | read count interrupted fault => .read count interrupted fault
  | write buf interrupted fault => .write (buf.map f) interrupted fault

def Sys.map (s : Sys F β) : Sys F γ :=
  { driver := s.driver.map f, files := s.files, results := s.results.map (Result.map f)
    written := s.written }

/-- The same calls of `kmalloc` succeed. -/
def relabel (κ : Kmalloc β) : Kmalloc γ := fun k => (κ k).map (f ∘ ·)

/-! The parts of the two sections. -/

theorem map_splice (mem bs : List β) (off : ℕ) :
    (splice mem off bs).map f = splice (mem.map f) off (bs.map f) := by
  simp only [splice, List.map_append, List.map_take, List.map_drop, List.length_map]

theorem readFrom_map (mem : List β) (off : Int) (n : ℕ) :
    readFrom (mem.map f) off n = (readFrom mem off n).map (List.map f) := by
  simp only [readFrom, readRange, List.length_map]
  split_ifs
  · simp only [Option.map_some, List.map_take, List.map_drop]
  · rfl
  · rfl

theorem writeTo_map (mem bs : List β) (off : Int) :
    writeTo (mem.map f) off (bs.map f) = (writeTo mem off bs).map (List.map f) := by
  simp only [writeTo, writeRange, List.length_map]
  split_ifs
  · rw [Option.map_some, map_splice]
  · rfl
  · rfl

theorem copiedIn_map [OfNat β 0] [OfNat γ 0] (h0 : f 0 = 0) (user : List β) (fault : Option ℕ) :
    copiedIn (user.map f) fault = (copiedIn user fault).map f := by
  cases fault with
  | none => rfl
  | some k =>
    simp only [copiedIn, List.map_append, List.map_take, List.map_replicate, List.length_map, h0]

theorem block_map (n : ℕ) (contents : ℕ → β) :
    block n (f ∘ contents) = (block n contents).map f := by
  rw [block, block, List.map_map]

theorem follow_map (κ : Kmalloc β) (n : ℕ) (data : List (ScullQset β)) (k : ℕ) :
    follow (relabel f κ) n (data.map (ScullQset.map f)) k =
      Prod.map id (Prod.map (List.map (ScullQset.map f)) id) (follow κ n data k) := by
  induction n generalizing data k with
  | zero =>
    cases data with
    | nil =>
      simp only [List.map_nil, follow, relabel]
      cases κ k <;> rfl
    | cons qs rest => rfl
  | succ n ih =>
    cases data with
    | nil =>
      have hrest := ih [] (k + 1)
      simp only [List.map_nil] at hrest
      simp only [List.map_nil, follow, hrest, relabel]
      cases κ k <;> rfl
    | cons qs rest =>
      simp only [List.map_cons, follow, ih]
      rfl

theorem scullFollow_map (κ : Kmalloc β) (data : List (ScullQset β)) (k : ℕ) (n : Int) :
    scullFollow (relabel f κ) (data.map (ScullQset.map f)) k n =
      Prod.map id (Prod.map (List.map (ScullQset.map f)) id) (scullFollow κ data k n) := by
  simp only [scullFollow, follow_map]
  rfl

theorem slot_map (arr : PtrArray β) (sPos : Int) :
    (arr.map f).slot sPos = (arr.slot sPos).map (Option.map (Quantum.map f)) := by
  simp only [PtrArray.slot, PtrArray.map, List.getElem?_map]
  split_ifs <;> rfl

theorem arrayAt_map (data : List (ScullQset β)) (item : ℕ) :
    arrayAt (data.map (ScullQset.map f)) item = (arrayAt data item).map (PtrArray.map f) := by
  simp only [arrayAt, List.getElem?_map]
  cases data[item]? <;> rfl

theorem lookup_map (data : List (ScullQset β)) (item j : ℕ) :
    lookup (data.map (ScullQset.map f)) item j = (lookup data item j).map (List.map f) := by
  simp only [lookup, List.getElem?_map]
  rcases data[item]? with _ | ⟨block, _ | arr⟩
  · rfl
  · rfl
  · simp only [Option.map_some, Option.bind_some, ScullQset.map, PtrArray.map, List.getElem?_map]
    rcases arr.slots[j]? with _ | _ | qm <;> rfl

theorem quantumAt_map (data : List (ScullQset β)) (dptr : Option ℕ) (sPos : Int) :
    quantumAt (data.map (ScullQset.map f)) dptr sPos =
      (quantumAt data dptr sPos).map (Option.map (Quantum.map f)) := by
  cases dptr with
  | none => rfl
  | some item =>
    simp only [quantumAt, Option.bind_some, arrayAt_map]
    cases arrayAt data item with
    | none => rfl
    | some arr => exact slot_map f arr sPos

theorem setArray_map (data : List (ScullQset β)) (item : ℕ) (arr : PtrArray β) :
    setArray (data.map (ScullQset.map f)) item (arr.map f) =
      (setArray data item arr).map (ScullQset.map f) := by
  refine List.ext_getElem? fun i => ?_
  simp only [setArray, List.getElem?_map, List.getElem?_modify]
  split_ifs <;> cases data[i]? <;> rfl

theorem setSlot_map (data : List (ScullQset β)) (item : ℕ) (sPos : Int) (qm : Quantum β) :
    setSlot (data.map (ScullQset.map f)) item sPos (qm.map f) =
      (setSlot data item sPos qm).map (ScullQset.map f) := by
  refine List.ext_getElem? fun i => ?_
  simp only [setSlot, List.getElem?_map, List.getElem?_modify]
  split_ifs
  · cases data[i]? with
    | none => rfl
    | some dptr =>
      obtain ⟨block, _ | arr⟩ := dptr
      · rfl
      · simp [ScullQset.map, PtrArray.map, List.map_set]
  · cases data[i]? <;> rfl

theorem needArray_map (κ : Kmalloc β) (data : List (ScullQset β)) (k item : ℕ) (qset : Int) :
    needArray (relabel f κ) (data.map (ScullQset.map f)) k item qset =
      Prod.map (Option.map (PtrArray.map f)) (Prod.map (List.map (ScullQset.map f)) id)
        (needArray κ data k item qset) := by
  simp only [needArray, arrayAt_map]
  cases arrayAt data item with
  | some arr => rfl
  | none =>
    simp only [Option.map_none, relabel]
    cases κ k with
    | none => rfl
    | some contents =>
      have hnew := setArray_map f data item
        { block := k, slots := List.replicate (entries qset) none }
      simp only [PtrArray.map, List.map_replicate, Option.map_none] at hnew
      simp only [Option.map_some, hnew, Prod.map_apply, PtrArray.map, List.map_replicate,
        Option.map_none, id]

theorem needQuantum_map (κ : Kmalloc β) (data : List (ScullQset β)) (k item : ℕ)
    (sPos quantum : Int) (slot : Option (Quantum β)) :
    needQuantum (relabel f κ) (data.map (ScullQset.map f)) k item sPos quantum
        (slot.map (Quantum.map f)) =
      Prod.map (Option.map (Quantum.map f)) (Prod.map (List.map (ScullQset.map f)) id)
        (needQuantum κ data k item sPos quantum slot) := by
  cases slot with
  | some qm => rfl
  | none =>
    simp only [needQuantum, Option.map_none, relabel]
    cases κ k with
    | none => rfl
    | some contents =>
      have hnew := setSlot_map f data item sPos
        { block := k, bytes := block (sizeT quantum) contents }
      simp only [Quantum.map, ← block_map] at hnew
      simp only [Option.map_some, hnew, Prod.map_apply, Quantum.map, ← block_map, id]

/-! The two sections, the other operations and whole calls. -/

namespace Driver

@[simp] theorem map_size (d : Driver β) : (d.map f).dev.size = d.dev.size := rfl

@[simp] theorem map_data (d : Driver β) :
    (d.map f).dev.data = d.dev.data.map (ScullQset.map f) := rfl

@[simp] theorem map_nalloc (d : Driver β) : (d.map f).nalloc = d.nalloc := rfl

theorem withData_map (d : Driver β) (data : List (ScullQset β)) (k : ℕ) :
    (d.map f).withData (data.map (ScullQset.map f)) k = (d.withData data k).map f := rfl

theorem withSize_map (d : Driver β) (size : ℕ) :
    (d.map f).withSize size = (d.withSize size).map f := rfl

theorem ioctl_map (d : Driver β) (cmd : Ioctl) : (d.map f).ioctl cmd = (d.ioctl cmd).map f := by
  cases cmd <;> rfl

theorem trim_map (qset : ℕ) (dptr : ScullQset β) : (dptr.map f).trim qset = dptr.trim qset := by
  obtain ⟨block, _ | arr⟩ := dptr
  · rfl
  · have hblocks : ∀ slots : List (Option (Quantum β)),
        (slots.map (Option.map (Quantum.map f))).reduceOption.map Quantum.block =
          slots.reduceOption.map Quantum.block := by
      intro slots
      rw [List.reduceOption_map, List.map_map]
      rfl
    simp only [ScullQset.map, ScullQset.trim, Option.map_some, PtrArray.map, List.length_map,
      ← List.map_take, hblocks]

theorem scullTrim_map (d : Driver β) : (d.map f).scullTrim = d.scullTrim.map (Driver.map f) := by
  have hblocks : (d.dev.data.map (ScullQset.map f)).mapM (ScullQset.trim d.dev.qset.toNat) =
      d.dev.data.mapM (ScullQset.trim d.dev.qset.toNat) := by
    rw [List.mapM_map]
    congr 1
    funext dptr
    exact trim_map f _ dptr
  rw [scullTrim, scullTrim, Option.map_map]
  show ((d.dev.data.map (ScullQset.map f)).mapM (ScullQset.trim d.dev.qset.toNat)).map _ = _
  rw [hblocks]
  rfl

theorem scullRead_map (κ : Kmalloc β) (d : Driver β) (quantum qset fPos : Int) (count : ℕ)
    (fault : Option ℕ) :
    (d.map f).scullRead (relabel f κ) quantum qset fPos count fault =
      (d.scullRead κ quantum qset fPos count fault).map
        (Prod.map (Except.map (List.map f)) (Driver.map f)) := by
  simp only [scullRead, map_data, map_nalloc, scullFollow_map]
  generalize hsize : (d.map f).dev.size = size
  obtain rfl : d.dev.size = size := hsize
  generalize (if fPos + (count : Int) > d.dev.size then sizeT (d.dev.size - fPos) else count) = n
  split_ifs with heof
  · rfl
  · cases address quantum qset fPos with
    | none => rfl
    | some a =>
      simp only [Option.bind_some]
      obtain ⟨dptr, data, k⟩ := scullFollow κ d.dev.data d.nalloc a.item
      simp only [Prod.map_apply, id, withData_map, quantumAt_map]
      rcases quantumAt data dptr a.sPos with _ | _ | qm
      · rfl
      · rfl
      · simp only [Option.map_some, Option.bind_some, Quantum.map, readFrom_map, Option.map_map]
        congr 1
        funext bytes
        simp only [Function.comp_apply]
        split_ifs <;> rfl

theorem scullWrite_map [OfNat β 0] [OfNat γ 0] (h0 : f 0 = 0) (κ : Kmalloc β) (d : Driver β)
    (quantum qset fPos : Int) (buf : List β) (fault : Option ℕ) :
    (d.map f).scullWrite (relabel f κ) quantum qset fPos (buf.map f) fault =
      (d.scullWrite κ quantum qset fPos buf fault).map (Prod.map id (Driver.map f)) := by
  simp only [scullWrite, map_data, map_nalloc, scullFollow_map]
  cases address quantum qset fPos with
  | none => rfl
  | some a =>
    simp only [Option.bind_some]
    obtain ⟨_ | dptr, data₁, k₁⟩ := scullFollow κ d.dev.data d.nalloc a.item
    · rfl
    · simp only [Prod.map_apply, id, needArray_map]
      obtain ⟨_ | arr, data₂, k₂⟩ := needArray κ data₁ k₁ dptr qset
      · rfl
      · simp only [Prod.map_apply, id, Option.map_some, slot_map]
        cases arr.slot a.sPos with
        | none => rfl
        | some slot =>
          simp only [Option.map_some, Option.bind_some, needQuantum_map]
          obtain ⟨_ | qm, data₃, k₃⟩ := needQuantum κ data₂ k₂ dptr a.sPos quantum slot
          · rfl
          · simp only [Prod.map_apply, id, Option.map_some, List.length_map, ← List.map_take,
              copiedIn_map f h0, Quantum.map, writeTo_map, Option.map_map]
            congr 1
            funext bytes
            have hset := setSlot_map f data₃ dptr a.sPos { qm with bytes }
            simp only [Quantum.map] at hset
            simp only [Function.comp_apply, hset, withData_map, map_size, withSize_map]
            split_ifs <;> rfl

end Driver

theorem Op.perform_map [OfNat β 0] [OfNat γ 0] (h0 : f 0 = 0) (κ : Kmalloc β) (d : Driver β)
    (file : File) (op : Op β) : (op.map f).perform (relabel f κ) (d.map f) file =
      (op.perform κ d file).map fun x => (x.1.map f, x.2.1, x.2.2.map f) := by
  cases op with
  | llseek off whence =>
    have hseek : (d.map f).scullLlseek file off whence = d.scullLlseek file off whence := rfl
    simp only [Op.map, perform, hseek]
    cases d.scullLlseek file off whence <;> rfl
  | read count interrupted fault =>
    have hread : (d.map f).scullRead (relabel f κ) (d.map f).dev.quantum (d.map f).dev.qset
        file.fPos count fault = _ :=
      Driver.scullRead_map f κ d d.dev.quantum d.dev.qset file.fPos count fault
    simp only [Op.map, perform, hread]
    split_ifs
    · rfl
    · rfl
    · rcases d.scullRead κ d.dev.quantum d.dev.qset file.fPos count fault with
        _ | ⟨e | bs, driver⟩
      · rfl
      · rfl
      · have hpos : (bs.map f).length = bs.length := List.length_map ..
        simp only [Option.map_some, Prod.map_apply, Except.map, hpos]
        rfl
  | write buf interrupted fault =>
    have hwrite : (d.map f).scullWrite (relabel f κ) (d.map f).dev.quantum (d.map f).dev.qset
        file.fPos (buf.map f) fault = _ :=
      Driver.scullWrite_map f h0 κ d d.dev.quantum d.dev.qset file.fPos buf fault
    simp only [Op.map, perform, hwrite]
    split_ifs
    · rfl
    · rfl
    · rcases d.scullWrite κ d.dev.quantum d.dev.qset file.fPos buf fault with _ | ⟨e | n, driver⟩ <;>
        rfl

namespace Sys

theorem loaded_map (quantum qset : Int) :
    (loaded quantum qset : Sys F β).map f = loaded quantum qset := rfl

theorem map_files (s : Sys F β) : (s.map f).files = s.files := rfl

theorem reply_map (s : Sys F β) (r : Result β) : (s.map f).reply (r.map f) = (s.reply r).map f := by
  simp only [reply, map, List.map_append, List.map_cons, List.map_nil]

variable [DecidableEq F]

theorem scullOpen_map (s : Sys F β) (g : F) (r w : Bool) :
    (s.map f).scullOpen g r w = (s.scullOpen g r w).map (map f) := by
  have hopened : ∀ s : Sys F β, ((s.map f).setFile g { fPos := 0, read := r, write := w }).reply
      .opened = ((s.setFile g { fPos := 0, read := r, write := w }).reply .opened).map f :=
    fun s => reply_map f (s.setFile g { fPos := 0, read := r, write := w }) .opened
  have htrim : (s.map f).driver.scullTrim = s.driver.scullTrim.map (Driver.map f) :=
    Driver.scullTrim_map f s.driver
  simp only [scullOpen, htrim]
  split_ifs
  · cases s.driver.scullTrim with
    | none => rfl
    | some driver =>
      exact congrArg Outcome.ok (hopened { s with driver, written := fun _ => false })
  · exact congrArg Outcome.ok (hopened s)

omit [DecidableEq F] in
theorem noted_map (s : Sys F β) (file : File) (op : Op β) (r : Result β) :
    (s.map f).noted file (op.map f) (r.map f) = s.noted file op r := by
  cases op with
  | write buf interrupted fault =>
    cases interrupted with
    | true => rfl
    | false =>
      have hlen : (buf.map f).length = buf.length := List.length_map ..
      cases r with
      | error e => cases e <;> simp only [Op.map, Result.map, noted, hlen] <;> rfl
      | _ =>
        simp only [Op.map, Result.map, noted, hlen]
        rfl
  | _ => rfl

theorem call_map [OfNat β 0] [OfNat γ 0] (h0 : f 0 = 0) (κ : Kmalloc β) (s : Sys F β) (g : F)
    (op : Op β) : (s.map f).call (relabel f κ) g (op.map f) = (s.call κ g op).map (map f) := by
  rw [call, map_files, call]
  cases s.files g with
  | none => rfl
  | some file =>
    have hperform : (op.map f).perform (relabel f κ) (s.map f).driver file = _ :=
      Op.perform_map f h0 κ s.driver file op
    dsimp only
    rw [hperform, Outcome.map_map, Outcome.map_map]
    congr 1
    funext ⟨driver, file', r⟩
    simp only [Function.comp_apply, noted_map]
    exact reply_map f (setFile { s with driver, written := s.noted file op r } g file') r

/-- A call on the replaced bytes is the call with its outcome replaced. -/
theorem step_map [OfNat β 0] [OfNat γ 0] (h0 : f 0 = 0) (κ : Kmalloc β) (s : Sys F β)
    (a : Act F β) : step (relabel f κ) (s.map f) (a.map f) = (step κ s a).map (map f) := by
  have hfails : ∀ e, Outcome.ok ((s.map f).reply (.error e)) = .ok ((s.reply (.error e)).map f) :=
    fun e => congrArg Outcome.ok (reply_map f s (.error e))
  cases a with
  | opens g r w interrupted =>
    have hopen := scullOpen_map f s g r w
    simp only [Act.map, step]
    generalize hfiles : (s.map f).files = files
    obtain rfl : s.files = files := hfiles
    split_ifs
    · rfl
    · exact hfails _
    · exact hopen
  | ioctl cmd =>
    have hdriver : (s.map f).driver.ioctl cmd = (s.driver.ioctl cmd).map f :=
      Driver.ioctl_map f s.driver cmd
    have htold := congrArg Outcome.ok (reply_map f { s with driver := s.driver.ioctl cmd } .told)
    simp only [Act.map, step]
    rw [hdriver]
    generalize s.driver.ioctl cmd = driver at htold ⊢
    rcases em (GeometryOk driver.scullQuantum driver.scullQset) with hok | hok
    · rw [if_pos hok]
      exact (if_pos hok).trans htold
    · rw [if_neg hok]
      exact if_neg hok
  | llseek g off whence => exact call_map f h0 κ s g (.llseek off whence)
  | read g count interrupted fault => exact call_map f h0 κ s g (.read count interrupted fault)
  | write g buf interrupted fault => exact call_map f h0 κ s g (.write buf interrupted fault)

end Sys

end KernelExperiment.Scull
