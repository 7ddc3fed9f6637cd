import KernelExperiment.Scull.Reading
import KernelExperiment.Lib.Ledger

/-! The blocks of a device: the items of its list, their pointer arrays and the quanta in these.
Each that `kmalloc` has handed out is in the list until a trim frees it. -/

namespace KernelExperiment.Scull
open Kernel Runs Ledger

variable {F β : Type*} {q n p k : ℕ} {d d' : Driver β} {data : List (ScullQset β)}
  {held returned : List ℕ}

/-- Whether a request gets a block. -/
def granted (κ : Kmalloc β) (k : ℕ) : Bool := (κ k).isSome

def slotBlocks (slot : Option (Quantum β)) : List ℕ := (slot.map Quantum.block).toList

def PtrArray.owned (arr : PtrArray β) : List ℕ := arr.slots.flatMap slotBlocks ++ [arr.block]

def ScullQset.owned (dptr : ScullQset β) : List ℕ :=
  match dptr.data with
  | none => [dptr.block]
  | some arr => arr.owned ++ [dptr.block]

theorem ScullQset.owned_of_none {dptr : ScullQset β} (h : dptr.data = none) :
    dptr.owned = [dptr.block] := by rw [ScullQset.owned, h]

theorem ScullQset.owned_of_some {dptr : ScullQset β} {arr : PtrArray β} (h : dptr.data = some arr) :
    dptr.owned = arr.owned ++ [dptr.block] := by rw [ScullQset.owned, h]

def owned (data : List (ScullQset β)) : List ℕ := data.flatMap ScullQset.owned

/-- The trim goes through, frees every block got and not yet freed once and nothing else, and leaves
an empty device with the geometry of the globals. -/
def TrimReleases (κ : Kmalloc β) (d : Driver β) : Prop :=
  ∃ blocks : List ℕ,
    d.scullTrim = some { d with
      dev := { data := [], quantum := d.scullQuantum, qset := d.scullQset, size := 0 }
      freed := d.freed ++ blocks } ∧
    blocks.Nodup ∧ ∀ b, b ∈ blocks ↔ b < d.nalloc ∧ (κ b).isSome = true ∧ b ∉ d.freed

/-! Hanging a block into the list. -/

theorem owned_append (data ext : List (ScullQset β)) :
    owned (data ++ ext) = owned data ++ owned ext := List.flatMap_append

/-- Where one element is exchanged for one with more in it, the whole list has just that more. -/
theorem perm_flatMap_set {α γ : Type*} {l : List α} {i : ℕ} {a b : α} {g : α → List γ}
    {more : List γ} (hi : l[i]? = some a) (hb : (g b).Perm (more ++ g a)) :
    ((l.set i b).flatMap g).Perm (more ++ l.flatMap g) := by
  induction l generalizing i with
  | nil => cases hi
  | cons c l ih =>
    cases i with
    | zero =>
      cases hi
      rw [List.set_cons_zero, List.flatMap_cons, List.flatMap_cons, ← List.append_assoc]
      exact hb.append_right _
    | succ i =>
      rw [List.set_cons_succ, List.flatMap_cons, List.flatMap_cons]
      exact ((ih hi).append_left (g c)).trans (List.perm_append_comm_assoc ..)

theorem owned_modify {item : ℕ} {node : ScullQset β} {f : ScullQset β → ScullQset β}
    (more : List ℕ) (hget : data[item]? = some node)
    (hf : (f node).owned.Perm (more ++ node.owned)) :
    (owned (data.modify item f)).Perm (more ++ owned data) := by
  have hset : data.modify item f = data.set item (f node) := by
    rw [List.modify_eq_set_getElem?, hget]
    rfl
  rw [hset]
  exact perm_flatMap_set hget hf

theorem owned_setArray {item : ℕ} (hi : item < data.length) (hnone : arrayAt data item = none)
    (e : ℕ) : (owned (setArray data item ⟨k, List.replicate e none⟩)).Perm (k :: owned data) := by
  have hget := List.getElem?_eq_getElem hi
  have hdata : data[item].data = none := by
    rw [arrayAt, hget] at hnone
    exact hnone
  have hempty : (List.replicate e (none : Option (Quantum β))).flatMap slotBlocks = [] := by
    rw [List.flatMap_replicate]
    exact List.flatten_replicate_nil
  refine owned_modify [k] hget (List.Perm.of_eq ?_)
  rw [ScullQset.owned_of_some rfl, ScullQset.owned_of_none hdata, PtrArray.owned, hempty]
  rfl

theorem owned_setSlot {item j : ℕ} {arr : PtrArray β} {slot : Option (Quantum β)}
    {qm : Quantum β} (more : List ℕ) (harr : arrayAt data item = some arr)
    (hslot : arr.slots[j]? = some slot) (hqm : [qm.block] = more ++ slotBlocks slot) :
    (owned (setSlot data item j qm)).Perm (more ++ owned data) := by
  obtain ⟨node, hget, hdata⟩ := Option.bind_eq_some_iff.mp harr
  have hslots : ((arr.slots.set j (some qm)).flatMap slotBlocks).Perm
      (more ++ arr.slots.flatMap slotBlocks) :=
    perm_flatMap_set hslot (List.Perm.of_eq hqm)
  have hset : (node.data.map fun arr => { arr with slots := arr.slots.set j (some qm) }) =
      some ⟨arr.block, arr.slots.set j (some qm)⟩ := by rw [hdata, Option.map_some]
  apply owned_modify more hget
  rw [Int.toNat_natCast, ScullQset.owned_of_some hset, ScullQset.owned_of_some hdata,
    PtrArray.owned, PtrArray.owned, ← List.append_assoc, ← List.append_assoc]
  exact (hslots.append_right _).append_right _

/-! Every request of a write is accounted for. -/

theorem follow_balanced (returned : List ℕ) (κ : Kmalloc β) (n : ℕ) (data : List (ScullQset β))
    (k : ℕ) :
    ∃ ext, (follow κ n data k).2.1 = data ++ ext ∧
      ∀ held, Ledger.Balanced (granted κ) k held returned →
        Ledger.Balanced (granted κ) (follow κ n data k).2.2 (owned ext ++ held) returned := by
  induction n generalizing data k with
  | zero =>
    cases data with
    | nil =>
      unfold follow
      cases hk : κ k with
      | none => exact ⟨[], rfl, fun held h => h.missed (by rw [granted, hk]; rfl)⟩
      | some c => exact ⟨[⟨k, none⟩], rfl, fun held h => h.gained (by rw [granted, hk]; rfl)⟩
    | cons qs rest => exact ⟨[], (List.append_nil _).symm, fun held h => h⟩
  | succ n ih =>
    cases data with
    | nil =>
      unfold follow
      cases hk : κ k with
      | none => exact ⟨[], rfl, fun held h => h.missed (by rw [granted, hk]; rfl)⟩
      | some c =>
        obtain ⟨ext, hext, hbal⟩ := ih [] (k + 1)
        refine ⟨⟨k, none⟩ :: ext, ?_, fun held h => ?_⟩
        · show _ :: (follow κ n [] (k + 1)).2.1 = _
          rw [hext]
          rfl
        · have hgot := hbal (k :: held) (h.gained (by rw [granted, hk]; rfl))
          exact hgot.congr List.perm_middle.symm
    | cons qs rest =>
      obtain ⟨ext, hext, hbal⟩ := ih rest k
      refine ⟨ext, ?_, hbal⟩
      show qs :: (follow κ n rest k).2.1 = _
      rw [hext]
      rfl

/-- What the driver has got and not freed is in its list. -/
def Accounted (κ : Kmalloc β) (d : Driver β) : Prop :=
  Ledger.Balanced (granted κ) d.nalloc (owned d.dev.data) d.freed

section
variable {κ : Kmalloc β} {data' : List (ScullQset β)} {k' item : ℕ}

theorem scullFollow_balanced {i : Int} {dptr : Option ℕ}
    (h : Ledger.Balanced (granted κ) k (owned data) returned)
    (hwalk : scullFollow κ data k i = (dptr, data', k')) :
    Ledger.Balanced (granted κ) k' (owned data') returned := by
  obtain ⟨ext, hext, hbal⟩ := follow_balanced returned κ (sizeT i) data k
  have hgot := hbal (owned data) h
  cases hwalk
  rw [hext, owned_append]
  exact hgot.congr List.perm_append_comm

theorem needArray_balanced {e : Int} {arr : Option (PtrArray β)} (hi : item < data.length)
    (h : Ledger.Balanced (granted κ) k (owned data) returned)
    (harr : needArray κ data k item e = (arr, data', k')) :
    Ledger.Balanced (granted κ) k' (owned data') returned ∧ arrayAt data' item = arr := by
  have hneeds := needArray_needs κ data k item e
  rw [harr] at hneeds
  cases hneeds with
  | there hthere => exact ⟨h, hthere⟩
  | fails hnone hk => exact ⟨h.missed (by rw [granted, hk]; rfl), hnone⟩
  | allocated hnone hk =>
    have hgot := h.gained (k := k) (by rw [granted, hk]; rfl)
    refine ⟨hgot.congr (owned_setArray hi hnone _), ?_⟩
    rw [arrayAt_setArray hi, Function.update_self]

theorem needQuantum_balanced {j : ℕ} {quantum : Int} {slot qm : Option (Quantum β)}
    {arr : PtrArray β} (harr : arrayAt data item = some arr) (hslot : arr.slots[j]? = some slot)
    (h : Ledger.Balanced (granted κ) k (owned data) returned)
    (hqm : needQuantum κ data k item j quantum slot = (qm, data', k')) :
    Ledger.Balanced (granted κ) k' (owned data') returned ∧
      ∃ arr, arrayAt data' item = some arr ∧ arr.slots[j]? = some qm := by
  have hneeds := needQuantum_needs κ data k item j quantum slot
  rw [hqm] at hneeds
  cases hneeds with
  | there => exact ⟨h, arr, harr, hslot⟩
  | fails hk => exact ⟨h.missed (by rw [granted, hk]; rfl), arr, harr, hslot⟩
  | allocated hk =>
    have hgot := h.gained (k := k) (by rw [granted, hk]; rfl)
    have hj := (List.getElem?_eq_some_iff.mp hslot).1
    have hset (qm) : arrayAt (setSlot data item j qm) item =
        some ⟨arr.block, arr.slots.set j (some qm)⟩ := by
      rw [arrayAt_setSlot harr, Function.update_self]
    exact ⟨hgot.congr (owned_setSlot [k] harr hslot rfl), _, hset _, List.getElem?_set_self hj⟩

end

namespace Accounted
open Driver

variable {κ : Kmalloc β}

theorem write [OfNat β 0] (h : Accounted κ d) (hp : p < 2147483648) {buf : List β}
    {fault : Option ℕ} {r : Except Errno ℕ} (hw : WriteEnds κ d q n p buf fault r d') :
    Accounted κ d' := by
  have hitems : p / q / n < 4294967296 := div_div_lt hp
  cases hw with
  | noItem hwalk => exact scullFollow_balanced h hwalk
  | noArray hwalk harr =>
    have hi := (scullFollow_grows hitems hwalk).2 rfl
    exact (needArray_balanced hi (scullFollow_balanced h hwalk) harr).1
  | noQuantum hwalk harr hslot hqm =>
    have hi := (scullFollow_grows hitems hwalk).2 rfl
    obtain ⟨hbal, hthere⟩ := needArray_balanced hi (scullFollow_balanced h hwalk) harr
    exact (needQuantum_balanced hthere hslot hbal hqm).1
  | copied hwalk harr hslot hqm =>
    have hi := (scullFollow_grows hitems hwalk).2 rfl
    obtain ⟨hbal, hthere⟩ := needArray_balanced hi (scullFollow_balanced h hwalk) harr
    obtain ⟨hbal', arr, hthere', hslot'⟩ := needQuantum_balanced hthere hslot hbal hqm
    -- the bytes are stored into the block that is there
    exact hbal'.congr (owned_setSlot [] hthere' hslot' rfl)

end Accounted

/-! The trim. -/

theorem slotBlocks_eq (slots : List (Option (Quantum β))) :
    slots.reduceOption.map Quantum.block = slots.flatMap slotBlocks := by
  induction slots with
  | nil => rfl
  | cons slot slots ih =>
    cases slot with
    | none => exact ih
    | some qm => exact congrArg (qm.block :: ·) ih

theorem trim_of_le {dptr : ScullQset β} (h : ∀ arr ∈ dptr.data, arr.slots.length = n) :
    dptr.trim n = some dptr.owned := by
  unfold ScullQset.trim ScullQset.owned
  cases hdata : dptr.data with
  | none => rfl
  | some arr =>
    have hlen := h arr hdata
    dsimp only
    rw [if_pos (Nat.le_of_eq hlen.symm), List.take_of_length_le (Nat.le_of_eq hlen),
      slotBlocks_eq, PtrArray.owned, List.append_assoc]
    rfl

theorem trim_of_lt {dptr : ScullQset β} {arr : PtrArray β} (hdata : dptr.data = some arr)
    (h : arr.slots.length < n) : dptr.trim n = none := by
  rw [ScullQset.trim, hdata]
  exact if_neg (Nat.not_le.mpr h)

theorem mapM_of_forall {α γ : Type*} {l : List α} {f : α → Option γ} {g : α → γ}
    (h : ∀ a ∈ l, f a = some (g a)) : l.mapM f = some (l.map g) := by
  induction l with
  | nil => rfl
  | cons a l ih =>
    rw [List.mapM_cons, h a (List.mem_cons_self ..), ih fun b hb => h b (List.mem_cons_of_mem _ hb)]
    rfl

theorem mapM_of_none {α γ : Type*} {l : List α} {f : α → Option γ} {a : α} (ha : a ∈ l)
    (h : f a = none) : l.mapM f = none := by
  induction l with
  | nil => cases ha
  | cons b l ih =>
    rw [List.mapM_cons]
    rcases List.mem_cons.mp ha with rfl | ha
    · rw [h]
      rfl
    · rw [ih ha]
      cases f b <;> rfl

/-- A trim of whole arrays frees what the list owns. -/
theorem scullTrim_of_whole (hn : d.dev.qset = n)
    (h : ∀ dptr ∈ d.dev.data, ∀ arr ∈ dptr.data, arr.slots.length = n) :
    d.scullTrim = some { d with
      dev := { data := [], quantum := d.scullQuantum, qset := d.scullQset, size := 0 }
      freed := d.freed ++ owned d.dev.data } := by
  rw [Driver.scullTrim, hn, Int.toNat_natCast,
    mapM_of_forall (g := ScullQset.owned) fun dptr hd => trim_of_le (h dptr hd), Option.map_some,
    owned, List.flatMap_def]

theorem scullTrim_of_short (hn : d.dev.qset = n) {dptr : ScullQset β} {arr : PtrArray β}
    (hd : dptr ∈ d.dev.data) (harr : dptr.data = some arr) (hlt : arr.slots.length < n) :
    d.scullTrim = none := by
  rw [Driver.scullTrim, hn, Int.toNat_natCast, mapM_of_none hd (trim_of_lt harr hlt),
    Option.map_none]

namespace Accounted

variable {κ : Kmalloc β}

theorem trim (h : Accounted κ d) (hu : Usable q n d) (ht : d.scullTrim = some d') :
    Accounted κ d' := by
  have hwhole : ∀ dptr ∈ d.dev.data, ∀ arr ∈ dptr.data, arr.slots.length = n := by
    intro dptr hd arr harr
    have hlen := hu.sized.arrays dptr hd arr harr
    by_contra hne
    have hle := entries_le n
    have hnone := scullTrim_of_short hu.qset_eq hd harr (by omega)
    cases hnone.symm.trans ht
  rw [scullTrim_of_whole hu.qset_eq hwhole] at ht
  cases ht
  apply Ledger.Balanced.release
  show Ledger.Balanced _ _ (owned d.dev.data ++ []) _
  rw [List.append_nil]
  exact h

theorem call [OfNat β 0] (h : Accounted κ d) (hl : Laid q n d) (hc : Driver.Call κ d d') :
    Accounted κ d' := by
  cases hc with
  | none => exact h
  | trim ht => exact h.trim hl.toUsable ht
  | @ioctl cmd _ => cases cmd <;> exact h
  | read hp hd =>
    rw [hl.read_same hp hd]
    exact h
  | write hp hd =>
    rw [hl.quantum_eq, hl.qset_eq] at hd
    exact h.write hp (Driver.scullWrite_ends hl.geom hp hd)

theorem trimReleases_iff (h : Accounted κ d) (hu : Usable q n d) :
    TrimReleases κ d ↔ d.dev.qset < 1073741824 ∨ ∀ dptr ∈ d.dev.data, dptr.data = none := by
  have hqset := hu.qset_eq
  constructor
  · rintro ⟨blocks, ht, -⟩
    by_contra hno
    rw [not_or, not_forall] at hno
    obtain ⟨hlarge, dptr, hdptr⟩ := hno
    rw [Classical.not_imp] at hdptr
    obtain ⟨hd, hsome⟩ := hdptr
    obtain ⟨arr, harr⟩ := Option.ne_none_iff_exists'.mp hsome
    have hlen := hu.sized.arrays dptr hd arr harr
    have hlt := entries_lt (n := n) (by omega)
    have hnone := scullTrim_of_short hqset hd harr (by omega)
    cases hnone.symm.trans ht
  · intro hfits
    have hwhole : ∀ dptr ∈ d.dev.data, ∀ arr ∈ dptr.data, arr.slots.length = n := by
      intro dptr hd arr harr
      rcases hfits with hlt | hnone
      · rw [hu.sized.arrays dptr hd arr harr, entries_of_lt (by omega)]
      · cases (hnone dptr hd).symm.trans harr
    refine ⟨owned d.dev.data, scullTrim_of_whole hqset hwhole, ?_, fun b => h.mem_held_iff⟩
    exact (List.nodup_append'.mp h.nodup).1

end Accounted

/-- In every state that serialised calls reach, the trim releases exactly what the device owns if
and only if the byte count of its pointer arrays does not wrap around or it has none. -/
theorem trimReleases_iff_whole [DecidableEq F] [OfNat β 0] {κ : Kmalloc β} {quantum qset : Int}
    (hgeo : GeometryOk quantum qset) {as : List (Act F β)} {s : Sys F β}
    (hs : exec (Sys.step κ) (Sys.loaded quantum qset) as = .ok s) :
    TrimReleases κ s.driver ↔ s.driver.dev.qset < 1073741824 ∨
      ∀ dptr ∈ s.driver.dev.data, dptr.data = none := by
  have h0 : (∃ q n, Laid q n (Driver.loaded quantum qset : Driver β)) ∧
      Accounted κ (Driver.loaded quantum qset) := ⟨Laid.loaded hgeo, balanced_zero _⟩
  have hinv : (∃ q n, Laid q n s.driver) ∧ Accounted κ s.driver :=
    driver_run (I := fun d => (∃ q n, Laid q n d) ∧ Accounted κ d) hgeo h0
      (fun _ _ ⟨⟨_, _, hl⟩, ha⟩ hc => ⟨hl.call hc, ha.call hl hc⟩) hs
  obtain ⟨⟨q, n, hl⟩, ha⟩ := hinv
  exact ha.trimReleases_iff hl.toUsable

/-- A list with an item that has no array, after a request that failed. -/
theorem trimReleases_secondAttempt :
    ∃ s, exec (Sys.step scarce) (Sys.loaded 2 2) secondAttempt = .ok s ∧
      TrimReleases scarce s.driver := by
  have hgeo : GeometryOk 2 2 := by decide
  have hqset : (exec (Sys.step scarce) (Sys.loaded 2 2) secondAttempt).map
      (fun s => s.driver.dev.qset) = .ok 2 := by decide +kernel
  obtain ⟨s, hrun, hs⟩ := Outcome.map_eq_ok.mp hqset
  exact ⟨s, hrun, (trimReleases_iff_whole hgeo hrun).mpr (Or.inl (by omega))⟩

def oneByte : List (Act ℕ Byte) := [.opens 0 true true false, .write 0 [7] false none]

/-- The array of `2 ^ 30 + 1` pointers has room for one, and the trim goes on past it. -/
theorem trim_leaves_wrapped_array :
    GeometryOk 1 1073741825 ∧
      ∃ s, exec (Sys.step ample) (Sys.loaded 1 1073741825) oneByte = .ok s ∧
        ¬TrimReleases ample s.driver := by
  have htrim : (exec (Sys.step ample) (Sys.loaded 1 1073741825) oneByte).map
      (fun s => s.driver.scullTrim) = .ok none := by decide +kernel
  obtain ⟨s, hrun, hs⟩ := Outcome.map_eq_ok.mp htrim
  refine ⟨by decide, s, hrun, ?_⟩
  rintro ⟨blocks, hsome, -⟩
  cases hs.symm.trans hsome

end KernelExperiment.Scull
