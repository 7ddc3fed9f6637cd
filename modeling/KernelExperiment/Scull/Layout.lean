import KernelExperiment.Scull.Device
import KernelExperiment.Lib.Blocks

/-! What the list, the pointer arrays and the quanta of a device mean together: quantum number `i`
of the file hangs at entry `i % qset` of item `i / qset`. Walking the list and allocating on the way
changes none of the quanta that are there. -/

namespace KernelExperiment.Scull
open Kernel Region

variable {β : Type*}

def lookup (data : List (ScullQset β)) (item j : ℕ) : Option (List β) :=
  (data[item]?.bind ScullQset.data).bind fun arr => arr.slots[j]?.join.map Quantum.bytes

theorem lookup_of_length_le {data : List (ScullQset β)} {item : ℕ} (h : data.length ≤ item)
    (j : ℕ) : lookup data item j = none := by
  rw [lookup, List.getElem?_eq_none h, Option.bind_none, Option.bind_none]

theorem lt_of_lookup {data : List (ScullQset β)} {item j : ℕ} {bytes : List β}
    (h : lookup data item j = some bytes) : item < data.length := by
  by_contra hge
  rw [lookup_of_length_le (Nat.not_lt.mp hge)] at h
  cases h

/-- Every pointer array has `e` entries and every quantum `q` bytes. -/
structure Sized (q e : ℕ) (data : List (ScullQset β)) : Prop where
  arrays : ∀ node ∈ data, ∀ arr ∈ node.data, arr.slots.length = e
  quanta : ∀ node ∈ data, ∀ arr ∈ node.data, ∀ slot ∈ arr.slots, ∀ qm ∈ slot, qm.bytes.length = q

theorem entries_of_lt {n : ℕ} (hn : n < 1073741824) : entries n = n := by
  rw [entries, sizeT_of_lt] <;> omega

theorem entries_le (n : ℕ) : entries n ≤ n := by
  unfold entries sizeT
  omega

/-- Where the byte count wraps around, entries are missing. -/
theorem entries_lt {n : ℕ} (hn : 1073741824 ≤ n) : entries n < n := by
  unfold entries sizeT
  omega

theorem Sized.nil (q e : ℕ) : Sized q e ([] : List (ScullQset β)) := ⟨by simp, by simp⟩

/-! Walking the list. -/

/-- The walk appends empty items until the wanted one is there or memory runs out. -/
theorem follow_spec (κ : Kmalloc β) (n : ℕ) (data : List (ScullQset β)) (k : ℕ) :
    ∃ ext k', follow κ n data k = (decide (n < (data ++ ext).length), data ++ ext, k') ∧
      (∀ node ∈ ext, node.data = none) ∧ (n < data.length → ext = [] ∧ k' = k) ∧
        k ≤ k' ∧ ((∀ j ≥ k, (κ j).isSome) → n < (data ++ ext).length) := by
  induction n generalizing data k with
  | zero =>
    cases data with
    | nil =>
      cases hk : κ k with
      | none => exact ⟨[], k + 1, by simp [follow, hk], by simp, by simp, by omega, fun h => by
          simpa [hk] using h k (Nat.le_refl _)⟩
      | some c =>
        exact ⟨[{ block := k, data := none }], k + 1, by simp [follow, hk], by simp, by simp,
          by omega, by simp⟩
    | cons qs rest => exact ⟨[], k, by simp [follow], by simp, by simp, Nat.le_refl _, by simp⟩
  | succ n ih =>
    cases data with
    | nil =>
      cases hk : κ k with
      | none => exact ⟨[], k + 1, by simp [follow, hk], by simp, by simp, by omega, fun h => by
          simpa [hk] using h k (Nat.le_refl _)⟩
      | some c =>
        obtain ⟨ext, k', hrun, hext, -, hle, hall⟩ := ih [] (k + 1)
        refine ⟨{ block := k, data := none } :: ext, k', ?_, ?_, by simp, by omega, fun h => ?_⟩
        · simp [follow, hk, hrun]
        · simpa using hext
        · simpa using hall fun j hj => h j (by omega)
    | cons qs rest =>
      obtain ⟨ext, k', hrun, hext, hnone, hle, hall⟩ := ih rest k
      refine ⟨ext, k', ?_, hext, fun h => hnone (by simpa using h), hle, fun h => ?_⟩
      · simp [follow, hrun]
      · simpa using hall h

theorem lookup_append {data ext : List (ScullQset β)} (h : ∀ node ∈ ext, node.data = none)
    (item j : ℕ) : lookup (data ++ ext) item j = lookup data item j := by
  rcases Nat.lt_or_ge item data.length with hlt | hge
  · rw [lookup, List.getElem?_append_left hlt, lookup]
  · have hnone : data[item]? = none := List.getElem?_eq_none hge
    rw [lookup, List.getElem?_append_right hge, lookup, hnone]
    cases hx : ext[item - data.length]? with
    | none => rfl
    | some node => simp [h node (List.mem_of_getElem? hx)]

theorem Sized.append {q e : ℕ} {data ext : List (ScullQset β)} (h : Sized q e data)
    (hext : ∀ node ∈ ext, node.data = none) : Sized q e (data ++ ext) := by
  refine ⟨fun node hn arr ha => ?_, fun node hn arr ha => ?_⟩
  · rcases List.mem_append.mp hn with hn | hn
    · exact h.arrays node hn arr ha
    · simp [hext node hn] at ha
  · rcases List.mem_append.mp hn with hn | hn
    · exact h.quanta node hn arr ha
    · simp [hext node hn] at ha

theorem length_newBytes {q : ℕ} (hq : q < 4294967296) (c : ℕ → β) :
    (block (sizeT (q : Int)) c).length = q := by
  rw [length_block, sizeT_of_lt (by omega) (by omega), Int.toNat_natCast]

/-! Changing one item. -/

theorem getElem?_bind_modify (data : List (ScullQset β)) (item i : ℕ)
    (f : ScullQset β → ScullQset β) :
    (data.modify item f)[i]?.bind ScullQset.data =
      if item = i then data[i]?.bind fun node => (f node).data
      else data[i]?.bind ScullQset.data := by
  rw [List.getElem?_modify]
  split_ifs with h <;> cases data[i]? <;> rfl

theorem Sized.modify {q e item : ℕ} {data : List (ScullQset β)} (h : Sized q e data)
    {f : ScullQset β → ScullQset β}
    (hf : ∀ node ∈ data, ∀ arr ∈ (f node).data, arr.slots.length = e ∧
      ∀ slot ∈ arr.slots, ∀ qm ∈ slot, qm.bytes.length = q) :
    Sized q e (data.modify item f) := by
  have hmem : ∀ node ∈ data.modify item f, node ∈ data ∨ ∃ old ∈ data, node = f old := by
    intro node hn
    obtain ⟨i, hi⟩ := List.getElem?_of_mem hn
    rw [List.getElem?_modify] at hi
    cases hd : data[i]? with
    | none => simp [hd] at hi
    | some old =>
      have hold := List.mem_of_getElem? hd
      rw [hd] at hi
      split_ifs at hi with he
      · exact Or.inr ⟨old, hold, by simpa using hi.symm⟩
      · exact Or.inl (by simpa using (by simpa using hi : old = node) ▸ hold)
  refine ⟨fun node hn arr ha => ?_, fun node hn arr ha => ?_⟩
  · rcases hmem node hn with hn | ⟨old, hold, rfl⟩
    · exact h.arrays node hn arr ha
    · exact (hf old hold arr ha).1
  · rcases hmem node hn with hn | ⟨old, hold, rfl⟩
    · exact h.quanta node hn arr ha
    · exact (hf old hold arr ha).2

theorem scullFollow_spec (κ : Kmalloc β) (data : List (ScullQset β)) (k : ℕ) {n : ℕ}
    (hn : n < 4294967296) :
    ∃ ext k', scullFollow κ data k n =
        (if n < (data ++ ext).length then some n else none, data ++ ext, k') ∧
      (∀ node ∈ ext, node.data = none) ∧ (n < data.length → ext = [] ∧ k' = k) ∧ k ≤ k' ∧
        ((∀ j ≥ k, (κ j).isSome) → n < (data ++ ext).length) := by
  obtain ⟨ext, k', hrun, hext, hnone, hle, hall⟩ := follow_spec κ n data k
  have hsize : sizeT n = n := by rw [sizeT_of_lt (by omega) (by omega), Int.toNat_natCast]
  refine ⟨ext, k', ?_, hext, hnone, hle, hall⟩
  rw [scullFollow, hsize, hrun]
  simp only [decide_eq_true_eq]

theorem scullFollow_item {κ : Kmalloc β} {data data' : List (ScullQset β)} {k k' n i : ℕ}
    (hn : n < 4294967296) (h : scullFollow κ data k n = (some i, data', k')) : i = n := by
  obtain ⟨ext, k'', hrun, -⟩ := scullFollow_spec κ data k hn
  rw [hrun, Prod.mk.injEq] at h
  have hitem := h.1
  split_ifs at hitem
  exact (Option.some_inj.mp hitem).symm

theorem scullFollow_grows {κ : Kmalloc β} {data data' : List (ScullQset β)} {k k' n : ℕ}
    {dptr : Option ℕ} (hn : n < 4294967296) (h : scullFollow κ data k n = (dptr, data', k')) :
    data.length ≤ data'.length ∧ (dptr.isSome → n < data'.length) := by
  obtain ⟨ext, k'', hrun, -⟩ := scullFollow_spec κ data k hn
  rw [hrun] at h
  cases h
  refine ⟨by simp, fun hsome => ?_⟩
  by_contra hlen
  rw [if_neg hlen] at hsome
  cases hsome

/-- Where the list already has the item, the walk allocates nothing. -/
theorem scullFollow_of_lt (κ : Kmalloc β) {data : List (ScullQset β)} {n : ℕ} (k : ℕ)
    (hn : n < 4294967296) (hlt : n < data.length) :
    scullFollow κ data k n = (some n, data, k) := by
  obtain ⟨ext, k', hrun, -, hnone, -⟩ := scullFollow_spec κ data k hn
  obtain ⟨rfl, rfl⟩ := hnone hlt
  rw [hrun, List.append_nil, if_pos hlt]

theorem slot_natCast (arr : PtrArray β) (j : ℕ) : arr.slot j = arr.slots[j]? := by
  rw [PtrArray.slot, if_pos (Int.natCast_nonneg j), Int.toNat_natCast]

/-! The list keeps its length while arrays and quanta are hung in. -/

@[simp] theorem length_setArray (data : List (ScullQset β)) (item : ℕ) (arr : PtrArray β) :
    (setArray data item arr).length = data.length := List.length_modify ..

@[simp] theorem length_setSlot (data : List (ScullQset β)) (item : ℕ) (sPos : Int)
    (qm : Quantum β) : (setSlot data item sPos qm).length = data.length := List.length_modify ..

/-- How `scull_write` comes by the array of an item. -/
inductive NeedsArray (κ : Kmalloc β) (data : List (ScullQset β)) (k item : ℕ) (qset : Int) :
    Option (PtrArray β) × List (ScullQset β) × ℕ → Prop
  | there {arr} (h : arrayAt data item = some arr) :
      NeedsArray κ data k item qset (some arr, data, k)
  | fails (h : arrayAt data item = none) (hk : κ k = none) :
      NeedsArray κ data k item qset (none, data, k + 1)
  | allocated {c} (h : arrayAt data item = none) (hk : κ k = some c) :
      NeedsArray κ data k item qset (some ⟨k, List.replicate (entries qset) none⟩,
        setArray data item ⟨k, List.replicate (entries qset) none⟩, k + 1)

theorem needArray_needs (κ : Kmalloc β) (data : List (ScullQset β)) (k item : ℕ) (qset : Int) :
    NeedsArray κ data k item qset (needArray κ data k item qset) := by
  unfold needArray
  cases h : arrayAt data item with
  | some arr => exact .there h
  | none =>
    cases hk : κ k with
    | none => exact .fails h hk
    | some c => exact .allocated h hk

inductive NeedsQuantum (κ : Kmalloc β) (data : List (ScullQset β)) (k item : ℕ)
    (sPos quantum : Int) :
    Option (Quantum β) → Option (Quantum β) × List (ScullQset β) × ℕ → Prop
  | there {qm} : NeedsQuantum κ data k item sPos quantum (some qm) (some qm, data, k)
  | fails (hk : κ k = none) : NeedsQuantum κ data k item sPos quantum none (none, data, k + 1)
  | allocated {c} (hk : κ k = some c) :
      NeedsQuantum κ data k item sPos quantum none (some ⟨k, block (sizeT quantum) c⟩,
        setSlot data item sPos ⟨k, block (sizeT quantum) c⟩, k + 1)

theorem needQuantum_needs (κ : Kmalloc β) (data : List (ScullQset β)) (k item : ℕ)
    (sPos quantum : Int) (slot : Option (Quantum β)) :
    NeedsQuantum κ data k item sPos quantum slot
      (needQuantum κ data k item sPos quantum slot) := by
  cases slot with
  | some qm => exact .there
  | none =>
    unfold needQuantum
    cases hk : κ k with
    | none => exact .fails hk
    | some c => exact .allocated hk

theorem length_needArray {κ : Kmalloc β} {data data' : List (ScullQset β)} {k k' item : ℕ}
    {qset : Int} {arr : Option (PtrArray β)}
    (h : needArray κ data k item qset = (arr, data', k')) : data'.length = data.length := by
  have hneeds := needArray_needs κ data k item qset
  rw [h] at hneeds
  cases hneeds with
  | there => rfl
  | fails => rfl
  | allocated => exact length_setArray ..

theorem length_needQuantum {κ : Kmalloc β} {data data' : List (ScullQset β)} {k k' item : ℕ}
    {sPos quantum : Int} {slot qm : Option (Quantum β)}
    (h : needQuantum κ data k item sPos quantum slot = (qm, data', k')) :
    data'.length = data.length := by
  have hneeds := needQuantum_needs κ data k item sPos quantum slot
  rw [h] at hneeds
  cases hneeds with
  | there => rfl
  | fails => rfl
  | allocated => exact length_setSlot ..

/-! The arrays of all items, with one of them changed. -/

theorem arrayAt_append {data ext : List (ScullQset β)} (h : ∀ node ∈ ext, node.data = none) :
    arrayAt (data ++ ext) = arrayAt data := by
  funext i
  unfold arrayAt
  rcases Nat.lt_or_ge i data.length with hlt | hge
  · rw [List.getElem?_append_left hlt]
  · rw [List.getElem?_append_right hge, List.getElem?_eq_none hge]
    cases hx : ext[i - data.length]? with
    | none => rfl
    | some node => exact h node (List.mem_of_getElem? hx)

theorem arrayAt_of_length_le {data : List (ScullQset β)} {item : ℕ} (h : data.length ≤ item) :
    arrayAt data item = none := by
  rw [arrayAt, List.getElem?_eq_none h, Option.bind_none]

theorem arrayAt_modify_of_ne (data : List (ScullQset β)) {item i : ℕ} (hi : i ≠ item)
    (f : ScullQset β → ScullQset β) : arrayAt (data.modify item f) i = arrayAt data i := by
  rw [arrayAt, getElem?_bind_modify, if_neg hi.symm, arrayAt]

theorem scullFollow_arrays {κ : Kmalloc β} {data data' : List (ScullQset β)} {k k' n : ℕ}
    {dptr : Option ℕ} (hn : n < 4294967296) (h : scullFollow κ data k n = (dptr, data', k')) :
    arrayAt data' = arrayAt data := by
  obtain ⟨ext, k'', hrun, hext, -⟩ := scullFollow_spec κ data k hn
  rw [hrun] at h
  cases h
  exact arrayAt_append hext

theorem needArray_arrays {κ : Kmalloc β} {data data' : List (ScullQset β)} {k k' item i : ℕ}
    {qset : Int} {arr : Option (PtrArray β)} (h : needArray κ data k item qset = (arr, data', k'))
    (hi : i ≠ item) : arrayAt data' i = arrayAt data i := by
  have hneeds := needArray_needs κ data k item qset
  rw [h] at hneeds
  cases hneeds with
  | there => rfl
  | fails => rfl
  | allocated => exact arrayAt_modify_of_ne data hi _

theorem needQuantum_arrays {κ : Kmalloc β} {data data' : List (ScullQset β)} {k k' item i : ℕ}
    {sPos quantum : Int} {slot qm : Option (Quantum β)}
    (h : needQuantum κ data k item sPos quantum slot = (qm, data', k')) (hi : i ≠ item) :
    arrayAt data' i = arrayAt data i := by
  have hneeds := needQuantum_needs κ data k item sPos quantum slot
  rw [h] at hneeds
  cases hneeds with
  | there => rfl
  | fails => rfl
  | allocated => exact arrayAt_modify_of_ne data hi _

theorem arrayAt_setArray {data : List (ScullQset β)} {item : ℕ} (hi : item < data.length)
    (arr : PtrArray β) :
    arrayAt (setArray data item arr) = Function.update (arrayAt data) item (some arr) := by
  funext i
  rw [arrayAt, setArray, getElem?_bind_modify, Function.update_apply]
  rcases eq_or_ne item i with rfl | hne
  · rw [if_pos rfl, if_pos rfl, List.getElem?_eq_getElem hi, Option.bind_some]
  · rw [if_neg hne, if_neg hne.symm, arrayAt]

theorem arrayAt_setSlot {data : List (ScullQset β)} {item : ℕ} {arr : PtrArray β}
    (harr : arrayAt data item = some arr) (j : ℕ) (qm : Quantum β) :
    arrayAt (setSlot data item j qm) =
      Function.update (arrayAt data) item (some ⟨arr.block, arr.slots.set j (some qm)⟩) := by
  obtain ⟨node, hget, hdata⟩ := Option.bind_eq_some_iff.mp harr
  funext i
  rw [arrayAt, setSlot, getElem?_bind_modify, Function.update_apply, Int.toNat_natCast]
  rcases eq_or_ne item i with rfl | hne
  · rw [if_pos rfl, if_pos rfl, hget, Option.bind_some, hdata, Option.map_some]
  · rw [if_neg hne, if_neg hne.symm, arrayAt]

theorem arrayAt_setSlot_setSlot {data : List (ScullQset β)} {item : ℕ} {arr : PtrArray β}
    (harr : arrayAt data item = some arr) (j : ℕ) (qm qm' : Quantum β) :
    arrayAt (setSlot (setSlot data item j qm) item j qm') =
      Function.update (arrayAt data) item (some ⟨arr.block, arr.slots.set j (some qm')⟩) := by
  have hset : arrayAt (setSlot data item j qm) item =
      some ⟨arr.block, arr.slots.set j (some qm)⟩ := by
    rw [arrayAt_setSlot harr, Function.update_self]
  rw [arrayAt_setSlot hset, arrayAt_setSlot harr, Function.update_idem, List.set_set]

/-- What a read finds at an entry: nothing to be looked at, a hole or a quantum. -/
def slotAt (arr : Option (PtrArray β)) (j : ℕ) : Option (Option (Quantum β)) :=
  match arr with
  | none => some none
  | some arr => arr.slots[j]?

theorem quantumAt_eq (data : List (ScullQset β)) (item j : ℕ) :
    quantumAt data (some item) j = slotAt (arrayAt data item) j := by
  rw [quantumAt, Option.bind_some]
  cases arrayAt data item with
  | none => rfl
  | some arr => exact slot_natCast arr j

section
variable {q e item j k : ℕ} {data : List (ScullQset β)} {arr : PtrArray β}

theorem lookup_of_array (harr : arrayAt data item = some arr) (j : ℕ) :
    lookup data item j = arr.slots[j]?.join.map Quantum.bytes := by
  rw [arrayAt] at harr
  rw [lookup, harr, Option.bind_some]

theorem Sized.of_array (hs : Sized q e data) (harr : arrayAt data item = some arr) :
    arr.slots.length = e ∧ ∀ slot ∈ arr.slots, ∀ qm ∈ slot, qm.bytes.length = q := by
  obtain ⟨node, hget, hdata⟩ := Option.bind_eq_some_iff.mp harr
  have hnode := List.mem_of_getElem? hget
  exact ⟨hs.arrays node hnode arr hdata, hs.quanta node hnode arr hdata⟩

theorem Sized.lt_of_lookup {bytes : List β} (hs : Sized q e data)
    (h : lookup data item j = some bytes) : j < e ∧ bytes.length = q := by
  obtain ⟨arr, harr, hslot⟩ := Option.bind_eq_some_iff.mp h
  obtain ⟨hlen, hquanta⟩ := hs.of_array harr
  obtain ⟨qm, hqm, rfl⟩ := Option.map_eq_some_iff.mp hslot
  rw [Option.join_eq_some_iff] at hqm
  obtain ⟨hj, hget⟩ := List.getElem?_eq_some_iff.mp hqm
  exact ⟨hlen ▸ hj, hquanta _ (List.mem_of_getElem? hqm) qm rfl⟩

theorem quantumAt_spec (hs : Sized q e data) (item j : ℕ) :
    (quantumAt data (some item) j = some none ∧ lookup data item j = none) ∨
      (∃ qm, quantumAt data (some item) j = some (some qm) ∧ qm.bytes.length = q ∧
        lookup data item j = some qm.bytes) ∨
        (quantumAt data (some item) j = none ∧ e ≤ j) := by
  rw [quantumAt, Option.bind_some]
  cases harr : arrayAt data item with
  | none =>
    rw [arrayAt] at harr
    exact Or.inl ⟨rfl, by rw [lookup, harr, Option.bind_none]⟩
  | some arr =>
    obtain ⟨hlen, hquanta⟩ := hs.of_array harr
    dsimp only
    rw [slot_natCast, lookup_of_array harr]
    cases hslot : arr.slots[j]? with
    | none => exact Or.inr (Or.inr ⟨rfl, hlen ▸ List.getElem?_eq_none_iff.mp hslot⟩)
    | some slot =>
      cases slot with
      | none => exact Or.inl ⟨rfl, rfl⟩
      | some qm =>
        exact Or.inr (Or.inl ⟨qm, rfl, hquanta _ (List.mem_of_getElem? hslot) qm rfl, rfl⟩)

theorem setArray_spec (hi : item < data.length) (hnone : arrayAt data item = none) (b : ℕ) :
    arrayAt (setArray data item ⟨b, List.replicate e none⟩) item =
        some ⟨b, List.replicate e none⟩ ∧
      lookup (setArray data item ⟨b, List.replicate e none⟩) = lookup data ∧
      (Sized q e data → Sized q e (setArray data item ⟨b, List.replicate e none⟩)) := by
  have harrays := arrayAt_setArray hi ⟨b, List.replicate e none⟩
  refine ⟨?_, ?_, fun hs => hs.modify fun node _ arr ha => ?_⟩
  · rw [harrays, Function.update_self]
  · funext i l
    show (arrayAt _ i).bind _ = (arrayAt data i).bind _
    rw [harrays]
    rcases eq_or_ne i item with rfl | hne
    · rw [Function.update_self, hnone, Option.bind_some, Option.bind_none, List.getElem?_replicate]
      split_ifs <;> rfl
    · rw [Function.update_of_ne hne]
  · rw [Option.mem_some_iff] at ha
    rw [← ha]
    refine ⟨List.length_replicate, fun slot hslot qm hqm => ?_⟩
    rw [List.eq_of_mem_replicate hslot] at hqm
    cases hqm

theorem setSlot_spec (harr : arrayAt data item = some arr) (hj : j < arr.slots.length)
    (qm : Quantum β) :
    (∀ i l, lookup (setSlot data item j qm) i l =
      if i = item ∧ l = j then some qm.bytes else lookup data i l) ∧
    (qm.bytes.length = q → Sized q e data → Sized q e (setSlot data item j qm)) ∧
    ∃ arr', arrayAt (setSlot data item j qm) item = some arr' ∧ j < arr'.slots.length := by
  have harrays := arrayAt_setSlot harr j qm
  refine ⟨fun i l => ?_, fun hq hs => ?_, ⟨arr.block, arr.slots.set j (some qm)⟩, ?_, ?_⟩
  · show (arrayAt _ i).bind _ = _
    rw [harrays]
    rcases eq_or_ne i item with rfl | hne
    · rw [Function.update_self, lookup_of_array harr, Option.bind_some, List.getElem?_set]
      rcases eq_or_ne j l with rfl | hl
      · rw [if_pos rfl, if_pos hj, if_pos ⟨rfl, rfl⟩]
        rfl
      · rw [if_neg hl, if_neg fun h => hl h.2.symm]
    · rw [Function.update_of_ne hne, if_neg fun h => hne h.1]
      rfl
  · apply hs.modify
    intro node hn arr ha
    obtain ⟨old, hold, rfl⟩ := Option.map_eq_some_iff.mp ha
    rw [Int.toNat_natCast]
    refine ⟨by rw [List.length_set, hs.arrays node hn old hold], fun slot hslot qm' hqm => ?_⟩
    rcases List.mem_or_eq_of_mem_set hslot with hmem | rfl
    · exact hs.quanta node hn old hold slot hmem qm' hqm
    · rw [Option.mem_some_iff] at hqm
      rw [← hqm, hq]
  · rw [harrays, Function.update_self]
  · rwa [List.length_set]

/-- Memory runs out, or the item has an array afterwards and the quanta are the same. -/
theorem needArray_spec {qset : Int} (κ : Kmalloc β) (k : ℕ) (hs : Sized q (entries qset) data)
    (hi : item < data.length) :
    (κ k = none ∧ needArray κ data k item qset = (none, data, k + 1)) ∨
      ∃ arr data' k', needArray κ data k item qset = (some arr, data', k') ∧ k ≤ k' ∧
        arrayAt data' item = some arr ∧ Sized q (entries qset) data' ∧
          lookup data' = lookup data := by
  have hneeds := needArray_needs κ data k item qset
  generalize needArray κ data k item qset = res at hneeds
  cases hneeds with
  | there harr => exact Or.inr ⟨_, data, k, rfl, Nat.le_refl k, harr, hs, rfl⟩
  | fails _ hk => exact Or.inl ⟨hk, rfl⟩
  | allocated harr =>
    obtain ⟨hpresent, hlook, hsized⟩ := setArray_spec (q := q) (e := entries qset) hi harr k
    exact Or.inr ⟨_, _, k + 1, rfl, Nat.le_succ k, hpresent, hsized hs, hlook⟩

theorem needQuantum_spec (κ : Kmalloc β) (k : ℕ) (hq : q < 4294967296) (hs : Sized q e data)
    (harr : arrayAt data item = some arr) (hj : j < arr.slots.length) :
    (κ k = none ∧ needQuantum κ data k item j q arr.slots[j] = (none, data, k + 1)) ∨
      ∃ qm data' k', needQuantum κ data k item j q arr.slots[j] = (some qm, data', k') ∧ k ≤ k' ∧
        qm.bytes.length = q ∧ Sized q e data' ∧ (∀ b ∈ lookup data item j, b = qm.bytes) ∧
        (∃ arr', arrayAt data' item = some arr' ∧ j < arr'.slots.length) ∧
          ∀ i l, lookup data' i l =
            if i = item ∧ l = j then some qm.bytes else lookup data i l := by
  have hlook : lookup data item j = arr.slots[j].map Quantum.bytes := by
    rw [lookup_of_array harr, List.getElem?_eq_getElem hj]
    rfl
  have hquanta := (hs.of_array harr).2 _ (List.getElem_mem hj)
  have hneeds := needQuantum_needs κ data k item j q arr.slots[j]
  generalize needQuantum κ data k item j q arr.slots[j] = res at hneeds
  generalize arr.slots[j] = slot at hlook hquanta hneeds
  cases hneeds with
  | @there qm =>
    refine Or.inr ⟨qm, data, k, rfl, Nat.le_refl k, hquanta qm rfl, hs, fun b hb => ?_,
      ⟨arr, harr, hj⟩, fun i l => ?_⟩
    · rw [hlook] at hb
      exact (Option.mem_some_iff.mp hb).symm
    · split_ifs with h
      · rw [h.1, h.2, hlook]
        rfl
      · rfl
  | fails hk => exact Or.inl ⟨hk, rfl⟩
  | @allocated c hk =>
    have hlen := length_newBytes hq c
    obtain ⟨hupdate, hsized, hpresent⟩ :=
      setSlot_spec (q := q) (e := e) harr hj ⟨k, block (sizeT (q : Int)) c⟩
    refine Or.inr ⟨_, _, k + 1, rfl, Nat.le_succ k, hlen, hsized hlen hs, fun b hb => ?_, hpresent,
      hupdate⟩
    rw [hlook] at hb
    cases hb

end
end KernelExperiment.Scull
