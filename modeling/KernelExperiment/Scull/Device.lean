import KernelExperiment.Kernel.Abi
import KernelExperiment.Lib.Region

/-! The bare scull device: a list of items, each with an array of pointers to quanta. The sections
of `scull_read` and `scull_write` under the semaphore get the geometry that the caller loaded
before. A missing result is an access outside an allocation or a trapping division. The driver
never looks at a byte, so the type of the bytes is left open. -/

namespace KernelExperiment.Scull
open Kernel Region

variable {β : Type*}

structure Quantum (β : Type*) where
  block : ℕ
  bytes : List β
  deriving DecidableEq

structure PtrArray (β : Type*) where
  block : ℕ
  slots : List (Option (Quantum β))
  deriving DecidableEq

/-- An item of the list; its `next` pointer is the order of the list. -/
structure ScullQset (β : Type*) where
  block : ℕ
  data : Option (PtrArray β)
  deriving DecidableEq

structure ScullDev (β : Type*) where
  data : List (ScullQset β)
  quantum : Int
  qset : Int
  size : ℕ
  deriving DecidableEq

/-- One device with the globals `scull_quantum` and `scull_qset`, the number of `kmalloc` calls so
far and the blocks given to `kfree`. -/
structure Driver (β : Type*) where
  scullQuantum : Int
  scullQset : Int
  dev : ScullDev β
  nalloc : ℕ
  freed : List ℕ
  deriving DecidableEq

/-- The entries of a pointer array: the byte count of its `kmalloc` is taken modulo `2 ^ 32`. -/
def entries (qset : Int) : ℕ := sizeT (qset * 4) / 4

structure Address where
  item : Int
  sPos : Int
  qPos : Int

def address (quantum qset fPos : Int) : Option Address :=
  (divMod (toLong fPos) (toLong (quantum * qset))).bind fun (item, rest) =>
    (divMod rest quantum).map fun (sPos, qPos) => { item, sPos, qPos }

def PtrArray.slot (arr : PtrArray β) (sPos : Int) : Option (Option (Quantum β)) :=
  if 0 ≤ sPos then arr.slots[sPos.toNat]? else none

/-- The blocks that the loop of `scull_trim` frees for one item. -/
def ScullQset.trim (qset : ℕ) (dptr : ScullQset β) : Option (List ℕ) :=
  match dptr.data with
  | none => some [dptr.block]
  | some arr =>
    if qset ≤ arr.slots.length then
      some ((arr.slots.take qset).reduceOption.map Quantum.block ++ [arr.block, dptr.block])
    else none

/-- The list from a pointer that `scull_follow` is at, after `n` more steps and with every NULL
pointer on the way filled in, and whether the last item was reached. -/
def follow (κ : Kmalloc β) : ℕ → List (ScullQset β) → ℕ → Bool × List (ScullQset β) × ℕ
  | 0, qs :: rest, k => (true, qs :: rest, k)
  | n + 1, qs :: rest, k =>
    let (found, rest, k) := follow κ n rest k
    (found, qs :: rest, k)
  | 0, [], k =>
    match κ k with
    | none => (false, [], k + 1)
    | some _ => (true, [{ block := k, data := none }], k + 1)
  | n + 1, [], k =>
    match κ k with
    | none => (false, [], k + 1)
    | some _ =>
      let (found, rest, k') := follow κ n [] (k + 1)
      (found, { block := k, data := none } :: rest, k')

/-- The position in the list of the item after `n` steps, or NULL. The loop counts `n` down to zero,
around through the negative numbers if need be. -/
def scullFollow (κ : Kmalloc β) (data : List (ScullQset β)) (k : ℕ) (n : Int) :
    Option ℕ × List (ScullQset β) × ℕ :=
  let (found, data, k) := follow κ (sizeT n) data k
  (if found then some (sizeT n) else none, data, k)

def arrayAt (data : List (ScullQset β)) (item : ℕ) : Option (PtrArray β) :=
  data[item]?.bind ScullQset.data

/-- `dptr->data[s_pos]`, NULL also where `dptr` or `dptr->data` is. -/
def quantumAt (data : List (ScullQset β)) (dptr : Option ℕ) (sPos : Int) :
    Option (Option (Quantum β)) :=
  match dptr.bind (arrayAt data) with
  | none => some none
  | some arr => arr.slot sPos

def setArray (data : List (ScullQset β)) (item : ℕ) (arr : PtrArray β) : List (ScullQset β) :=
  data.modify item fun dptr => { dptr with data := some arr }

def setSlot (data : List (ScullQset β)) (item : ℕ) (sPos : Int) (qm : Quantum β) :
    List (ScullQset β) :=
  data.modify item fun dptr =>
    { dptr with
      data := dptr.data.map fun arr =>
        { arr with slots := arr.slots.set sPos.toNat (some qm) } }

def needArray (κ : Kmalloc β) (data : List (ScullQset β)) (k item : ℕ) (qset : Int) :
    Option (PtrArray β) × List (ScullQset β) × ℕ :=
  match arrayAt data item with
  | some arr => (some arr, data, k)
  | none =>
    match κ k with
    | none => (none, data, k + 1)
    -- memset: the prior contents do not matter
    | some _ =>
      let arr := { block := k, slots := List.replicate (entries qset) none }
      (some arr, setArray data item arr, k + 1)

def needQuantum (κ : Kmalloc β) (data : List (ScullQset β)) (k item : ℕ) (sPos quantum : Int)
    (slot : Option (Quantum β)) : Option (Quantum β) × List (ScullQset β) × ℕ :=
  match slot with
  | some qm => (some qm, data, k)
  | none =>
    match κ k with
    | none => (none, data, k + 1)
    -- the quantum is used as kmalloc returns it
    | some contents =>
      let qm := { block := k, bytes := block (sizeT quantum) contents }
      (some qm, setSlot data item sPos qm, k + 1)

namespace Driver

def loaded (scullQuantum scullQset : Int) : Driver β :=
  { scullQuantum, scullQset, nalloc := 0, freed := [],
    dev := { data := [], quantum := scullQuantum, qset := scullQset, size := 0 } }

/-- `scull_trim` goes by `dev->qset` for the length of every pointer array. -/
def scullTrim (d : Driver β) : Option (Driver β) :=
  (d.dev.data.mapM (ScullQset.trim d.dev.qset.toNat)).map fun blocks =>
    { d with
      dev := { data := [], quantum := d.scullQuantum, qset := d.scullQset, size := 0 }
      freed := d.freed ++ blocks.flatten }

def withData (d : Driver β) (data : List (ScullQset β)) (k : ℕ) : Driver β :=
  { d with dev.data := data, nalloc := k }

def withSize (d : Driver β) (size : ℕ) : Driver β := { d with dev.size := size }

def scullRead (κ : Kmalloc β) (d : Driver β) (quantum qset fPos : Int) (count : ℕ)
    (fault : Option ℕ) : Option (Except Errno (List β) × Driver β) :=
  if fPos ≥ d.dev.size then some (.ok [], d)
  else
    let count := if fPos + count > d.dev.size then sizeT (d.dev.size - fPos) else count
    (address quantum qset fPos).bind fun a =>
      match scullFollow κ d.dev.data d.nalloc a.item with
      | (dptr, data, k) =>
        let d := d.withData data k
        (quantumAt data dptr a.sPos).bind fun
          -- a hole, or an array that the walk has just filled in
          | none => some (.ok [], d)
          | some qm =>
            let count := min count (sizeT (quantum - a.qPos))
            (readFrom qm.bytes a.qPos count).map fun bytes =>
              if copyOk count fault then (.ok bytes, d) else (.error .efault, d)

def scullWrite [OfNat β 0] (κ : Kmalloc β) (d : Driver β) (quantum qset fPos : Int)
    (buf : List β) (fault : Option ℕ) : Option (Except Errno ℕ × Driver β) :=
  (address quantum qset fPos).bind fun a =>
    match scullFollow κ d.dev.data d.nalloc a.item with
    | (none, data, k) => some (.error .enomem, d.withData data k)
    | (some dptr, data, k) =>
      match needArray κ data k dptr qset with
      | (none, data, k) => some (.error .enomem, d.withData data k)
      | (some arr, data, k) =>
        (arr.slot a.sPos).bind fun slot =>
          match needQuantum κ data k dptr a.sPos quantum slot with
          | (none, data, k) => some (.error .enomem, d.withData data k)
          | (some qm, data, k) =>
            let count := min buf.length (sizeT (quantum - a.qPos))
            (writeTo qm.bytes a.qPos (copiedIn (buf.take count) fault)).map fun bytes =>
              let d := d.withData (setSlot data dptr a.sPos { qm with bytes }) k
              let fPos := toLoff (fPos + count)
              if copyOk count fault then
                (.ok count, d.withSize (if d.dev.size < fPos then sizeT fPos else d.dev.size))
              else (.error .efault, d)

end Driver
end KernelExperiment.Scull
