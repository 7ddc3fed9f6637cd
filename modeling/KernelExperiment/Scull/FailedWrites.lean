import KernelExperiment.Scull.Observations

/-! What a write that fails leaves behind. It may have allocated an array or a quantum where reads
found a hole, or have stored part of its bytes and zeros for the others. -/

namespace KernelExperiment.Scull
open Kernel Runs Region Blocks

variable {F β : Type*} {q n p : ℕ} {d d' : Driver β}

namespace Driver

def itemOf (d : Driver β) (x : ℕ) : ℕ := x / d.dev.quantum.toNat / d.dev.qset.toNat

def entryOf (d : Driver β) (x : ℕ) : ℕ := x / d.dev.quantum.toNat % d.dev.qset.toNat

/-- The file ends before the quantum of the position. -/
def EndsBefore (d : Driver β) (p : ℕ) : Prop := d.dev.size ≤ p - p % d.dev.quantum.toNat

/-- A write at `p` that fails cannot be noticed: what it allocates holds no position below the size,
and does not cut any entry of the item off, or it stores the bytes that are there. -/
def Unnoticed [OfNat β 0] (κ : Kmalloc β) (d : Driver β) (p : ℕ) (buf : List β)
    (fault : Option ℕ) : Prop :=
  match arrayAt d.dev.data (d.itemOf p) with
  | none =>
    (κ d.nalloc).isSome →
      (∀ x < d.dev.size, d.itemOf x = d.itemOf p → d.entryOf x < entries d.dev.qset) ∧
        ((κ (d.nalloc + 1)).isSome → d.EndsBefore p)
  | some arr =>
    match arr.slots[d.entryOf p]?.join with
    | none => (κ d.nalloc).isSome → d.EndsBefore p
    | some qm =>
      ∀ i < Sys.storeLen d.dev.quantum p buf.length, p + i < d.dev.size →
        (copiedIn (buf.take (Sys.storeLen d.dev.quantum p buf.length)) fault)[i]? =
          qm.bytes[p % d.dev.quantum.toNat + i]?

end Driver

/-- The size, the positions of the files and the results of any later reads below `2 ^ 31` are the
same. -/
structure SameFile (κ : Kmalloc β) (s t : Sys F β) : Prop where
  size : t.driver.dev.size = s.driver.dev.size
  files : t.files = s.files
  reads : ∀ rs : List Request, (∀ r ∈ rs, r.pos < 2147483648) →
    t.driver.reads κ rs = s.driver.reads κ rs

/-! Which positions are in the quantum, and what changes where one array does. -/

theorem endsBefore_iff {size : ℕ} (hq : 0 < q) :
    size ≤ p - p % q ↔ ∀ x < size, x / q ≠ p / q := by
  have hp := Nat.div_add_mod' p q
  constructor
  · rintro hsize x hx hquot
    have hdiv := Nat.div_add_mod' x q
    rw [hquot] at hdiv
    omega
  · intro hne
    by_contra hlt
    apply hne (p / q * q) (by omega)
    exact Nat.mul_div_cancel _ hq

theorem peek_update_iff {a : Option (PtrArray β)}
    (h : arrayAt d'.dev.data = Function.update (arrayAt d.dev.data) (p / q / n) a) (size : ℕ) :
    (∀ x < size, d'.peek q n x = d.peek q n x) ↔
      ∀ x < size, x / q / n = p / q / n →
        peekIn a (x / q % n) (x % q) =
          peekIn (arrayAt d.dev.data (p / q / n)) (x / q % n) (x % q) := by
  refine forall₂_congr fun x _ => ?_
  rw [Driver.peek, Driver.peek, h]
  rcases eq_or_ne (x / q / n) (p / q / n) with heq | hne
  · rw [heq, Function.update_self]
    exact (imp_iff_right rfl).symm
  · rw [Function.update_of_ne hne]
    exact iff_of_true rfl fun heq => absurd heq hne

theorem peekIn_empty_iff {e j o : ℕ} (b : ℕ) :
    peekIn (some ⟨b, List.replicate e (none : Option (Quantum β))⟩) j o = peekIn none j o ↔
      j < e := by
  unfold peekIn slotAt
  dsimp only
  rw [List.getElem?_replicate]
  split_ifs with hj
  · exact iff_of_true rfl hj
  · exact iff_of_false (by simp) hj

/-- Setting an entry shows at that entry and nowhere else. -/
theorem peekIn_set (b : ℕ) {slots : List (Option (Quantum β))} {j : ℕ} (hj : j < slots.length)
    (qm : Quantum β) (i o : ℕ) :
    peekIn (some ⟨b, slots.set j (some qm)⟩) i o =
      if i = j then some qm.bytes[o]? else peekIn (some ⟨b, slots⟩) i o := by
  unfold peekIn slotAt
  dsimp only
  rw [List.getElem?_set]
  rcases eq_or_ne j i with rfl | hne
  · rw [if_pos rfl, if_pos rfl, if_pos hj]
    rfl
  · rw [if_neg hne, if_neg hne.symm]

/-! What shows after each kind of failure. -/

section
variable {a : Option (PtrArray β)} {b e : ℕ} {slots : List (Option (Quantum β))} {qm : Quantum β}

/-- Only an empty array was allocated. -/
theorem peek_empty_iff (hnone : arrayAt d.dev.data (p / q / n) = none)
    (h : arrayAt d'.dev.data =
      Function.update (arrayAt d.dev.data) (p / q / n) (some ⟨b, List.replicate e none⟩))
    (size : ℕ) :
    (∀ x < size, d'.peek q n x = d.peek q n x) ↔
      ∀ x < size, x / q / n = p / q / n → x / q % n < e := by
  rw [peek_update_iff h, hnone]
  exact forall₂_congr fun x _ => imp_congr_right fun _ => peekIn_empty_iff b

/-- A quantum was put where there was a hole. -/
theorem peek_filled_iff (hq : 0 < q) (hlen : qm.bytes.length = q) (hj : p / q % n < slots.length)
    (hhole : ∀ o, peekIn (arrayAt d.dev.data (p / q / n)) (p / q % n) o = some none)
    (h : arrayAt d'.dev.data = Function.update (arrayAt d.dev.data) (p / q / n)
      (some ⟨b, slots.set (p / q % n) (some qm)⟩)) (size : ℕ) :
    (∀ x < size, d'.peek q n x = d.peek q n x) ↔
      (∀ x < size, x / q / n = p / q / n → peekIn (some ⟨b, slots⟩) (x / q % n) (x % q) =
        peekIn (arrayAt d.dev.data (p / q / n)) (x / q % n) (x % q)) ∧
      size ≤ p - p % q := by
  rw [peek_update_iff h, endsBefore_iff hq]
  constructor
  · intro hsame
    have hne : ∀ x < size, x / q ≠ p / q := by
      intro x hx hquot
      have hx' := hsame x hx (by rw [hquot])
      have hmod := Nat.mod_lt x hq
      rw [hquot, peekIn_set b hj, if_pos rfl, hhole, Option.some.injEq,
        List.getElem?_eq_none_iff] at hx'
      omega
    refine ⟨fun x hx hitem => ?_, hne⟩
    have hentry : x / q % n ≠ p / q % n := fun h => hne x hx (Driver.div_mod_eq_iff.mp ⟨hitem, h⟩)
    rw [← hsame x hx hitem, peekIn_set b hj, if_neg hentry]
  · rintro ⟨hsame, hne⟩ x hx hitem
    have hentry : x / q % n ≠ p / q % n := fun h => hne x hx (Driver.div_mod_eq_iff.mp ⟨hitem, h⟩)
    rw [peekIn_set b hj, if_neg hentry]
    exact hsame x hx hitem

/-- Bytes were stored into a quantum that is there. -/
theorem peek_stored_iff {arr : PtrArray β} {cs : List β}
    (harr : arrayAt d.dev.data (p / q / n) = some arr)
    (hold : arr.slots[p / q % n]? = some (some qm)) (hlen : qm.bytes.length = q)
    (hfit : p % q + cs.length ≤ q)
    (h : arrayAt d'.dev.data = Function.update (arrayAt d.dev.data) (p / q / n)
      (some ⟨b, arr.slots.set (p / q % n) (some { qm with bytes := splice qm.bytes (p % q) cs })⟩))
    (size : ℕ) :
    (∀ x < size, d'.peek q n x = d.peek q n x) ↔
      ∀ i < cs.length, p + i < size → cs[i]? = qm.bytes[p % q + i]? := by
  have hj := (List.getElem?_eq_some_iff.mp hold).1
  have hbefore : ∀ o, peekIn (some arr) (p / q % n) o = some qm.bytes[o]? := by
    intro o
    rw [peekIn, slotAt, hold]
    rfl
  rw [peek_update_iff h, harr]
  constructor
  · intro hsame i hi hlt
    have hin : p % q + i < q := by omega
    have hx := hsame (p + i) hlt (by rw [div_add_of_lt hin])
    rw [div_add_of_lt hin, mod_add_of_lt hin, peekIn_set b hj, if_pos rfl, hbefore,
      Option.some.injEq, getElem?_splice (by omega), if_pos (by omega),
      Nat.add_sub_cancel_left] at hx
    exact hx
  · intro hbytes x hx hitem
    rw [peekIn_set b hj]
    rcases eq_or_ne (x / q) (p / q) with hquot | hne
    · rw [hquot, if_pos rfl, hbefore, getElem?_splice (by omega)]
      split_ifs with hrange
      · have hp := Nat.div_add_mod' p q
        have hdiv := Nat.div_add_mod' x q
        rw [hquot] at hdiv
        obtain ⟨i, hi⟩ := Nat.exists_eq_add_of_le hrange.1
        rw [hi, Nat.add_sub_cancel_left, hbytes i (by omega) (by omega)]
      · rfl
    · rw [if_neg fun h => hne (Driver.div_mod_eq_iff.mp ⟨hitem, h⟩)]
      rfl

end

namespace Driver.WriteEnds
variable [OfNat β 0] {κ : Kmalloc β} {buf : List β} {fault : Option ℕ} {r : Except Errno ℕ}

theorem arrays_of_ne (h : WriteEnds κ d q n p buf fault r d') (hp : p < 2147483648) {i : ℕ}
    (hi : i ≠ p / q / n) : arrayAt d'.dev.data i = arrayAt d.dev.data i := by
  have hitems : p / q / n < 4294967296 := div_div_lt hp
  cases h with
  | noItem hwalk => exact congrFun (scullFollow_arrays hitems hwalk) i
  | noArray hwalk harr =>
    exact (needArray_arrays harr hi).trans (congrFun (scullFollow_arrays hitems hwalk) i)
  | noQuantum hwalk harr hslot hqm =>
    exact (needQuantum_arrays hqm hi).trans
      ((needArray_arrays harr hi).trans (congrFun (scullFollow_arrays hitems hwalk) i))
  | copied hwalk harr hslot hqm =>
    exact (arrayAt_modify_of_ne _ hi _).trans ((needQuantum_arrays hqm hi).trans
      ((needArray_arrays harr hi).trans (congrFun (scullFollow_arrays hitems hwalk) i)))

end Driver.WriteEnds

namespace Laid
open Driver
variable [OfNat β 0] {κ : Kmalloc β} {buf : List β} {fault : Option ℕ} {r : Except Errno ℕ}
  {e : Errno}

/-! What `Unnoticed` asks for, by what is at the entry of the position. -/

theorem unnoticed_of_none (h : Laid q n d) (hnone : arrayAt d.dev.data (p / q / n) = none) :
    d.Unnoticed κ p buf fault ↔
      ((κ d.nalloc).isSome →
        (∀ x < d.dev.size, x / q / n = p / q / n → x / q % n < entries n) ∧
          ((κ (d.nalloc + 1)).isSome → d.dev.size ≤ p - p % q)) := by
  unfold Unnoticed itemOf entryOf EndsBefore
  rw [h.quantum_eq, h.qset_eq, Int.toNat_natCast, Int.toNat_natCast, hnone]

theorem unnoticed_of_hole (h : Laid q n d) {arr : PtrArray β}
    (harr : arrayAt d.dev.data (p / q / n) = some arr) (hslot : arr.slots[p / q % n]? = some none) :
    d.Unnoticed κ p buf fault ↔ ((κ d.nalloc).isSome → d.dev.size ≤ p - p % q) := by
  unfold Unnoticed itemOf entryOf EndsBefore
  rw [h.quantum_eq, h.qset_eq, Int.toNat_natCast, Int.toNat_natCast, harr]
  dsimp only
  rw [hslot]
  rfl

theorem unnoticed_of_quantum (h : Laid q n d) {arr : PtrArray β} {qm : Quantum β} {m : ℕ}
    (harr : arrayAt d.dev.data (p / q / n) = some arr)
    (hslot : arr.slots[p / q % n]? = some (some qm)) (hm : m = min buf.length (q - p % q)) :
    d.Unnoticed κ p buf fault ↔ ∀ i < m, p + i < d.dev.size →
      (copiedIn (buf.take m) fault)[i]? = qm.bytes[p % q + i]? := by
  unfold Unnoticed itemOf entryOf EndsBefore
  rw [h.quantum_eq, h.qset_eq, Int.toNat_natCast, Int.toNat_natCast, harr,
    Sys.storeLen_natCast h.geom, ← hm]
  dsimp only
  rw [hslot]
  rfl

/-! The ways to fail, by how far the call has come. -/

/-- Behind the end of the list there is nothing that a read could see change. -/
theorem peek_iff_beyond (h : Laid q n d) (hp : p < 2147483648)
    (hlen : d.dev.data.length ≤ p / q / n) (hw : WriteEnds κ d q n p buf fault r d') :
    (∀ x < d.dev.size, d'.peek q n x = d.peek q n x) ↔ d.Unnoticed κ p buf fault := by
  have hitem : ∀ x < d.dev.size, x / q / n ≠ p / q / n := fun x hx heq =>
    Nat.not_lt.mpr hlen (heq ▸ h.item_lt hx)
  rw [h.unnoticed_of_none (arrayAt_of_length_le hlen)]
  apply iff_of_true
  · intro x hx
    rw [peek, peek, hw.arrays_of_ne hp (hitem x hx)]
  · intro _
    refine ⟨fun x hx heq => absurd heq (hitem x hx), fun _ => ?_⟩
    exact (endsBefore_iff h.geom.quantum_pos).mpr fun x hx hquot =>
      hitem x hx (by rw [hquot])

section
variable {arr : PtrArray β} {data data' : List (ScullQset β)} {k k' : ℕ}
  {slot : Option (Quantum β)}

/-- There was no memory for the quantum. -/
theorem peek_iff_noQuantum (h : Laid q n d) (hlen : p / q / n < d.dev.data.length)
    (harr : needArray κ d.dev.data d.nalloc (p / q / n) n = (some arr, data, k))
    (hslot : arr.slots[p / q % n]? = some slot)
    (hqm : needQuantum κ data k (p / q / n) (p / q % n : ℕ) q slot = (none, data', k')) :
    (∀ x < d.dev.size, (d.withData data' k').peek q n x = d.peek q n x) ↔
      d.Unnoticed κ p buf fault := by
  have hneeds := needArray_needs κ d.dev.data d.nalloc (p / q / n) n
  have hneedsq := needQuantum_needs κ data k (p / q / n) (p / q % n : ℕ) q slot
  rw [harr] at hneeds
  rw [hqm] at hneedsq
  cases hneedsq with
  | fails hk' =>
    cases hneeds with
    | there hthere =>
      rw [h.unnoticed_of_hole hthere hslot, hk']
      exact iff_of_true (fun _ _ => rfl) fun hsome => by cases hsome
    | allocated hnone hk =>
      rw [peek_empty_iff hnone (arrayAt_setArray hlen _), h.unnoticed_of_none hnone, hk, hk']
      constructor
      · exact fun hin _ => ⟨hin, fun hsome => by cases hsome⟩
      · exact fun hcond => (hcond rfl).1

/-- The copy went wrong. -/
theorem peek_iff_copied (h : Laid q n d) (hlen : p / q / n < d.dev.data.length)
    {qm : Quantum β} {bytes : List β} {m size : ℕ}
    (harr : needArray κ d.dev.data d.nalloc (p / q / n) n = (some arr, data, k))
    (hslot : arr.slots[p / q % n]? = some slot)
    (hqm : needQuantum κ data k (p / q / n) (p / q % n : ℕ) q slot = (some qm, data', k'))
    (hm : m = min buf.length (q - p % q))
    (hbytes : writeRange qm.bytes (p % q) (copiedIn (buf.take m) fault) = some bytes) :
    (∀ x < d.dev.size, ((d.withData (setSlot data' (p / q / n) (p / q % n : ℕ)
        { qm with bytes }) k').withSize size).peek q n x = d.peek q n x) ↔
      d.Unnoticed κ p buf fault := by
  have hq := h.geom.quantum_pos
  have hmod := Nat.mod_lt p hq
  have hneeds := needArray_needs κ d.dev.data d.nalloc (p / q / n) n
  have hneedsq := needQuantum_needs κ data k (p / q / n) (p / q % n : ℕ) q slot
  rw [harr] at hneeds
  rw [hqm] at hneedsq
  obtain ⟨hfit, rfl⟩ := writeRange_eq_some.mp hbytes
  have hj := (List.getElem?_eq_some_iff.mp hslot).1
  have hcount : (copiedIn (buf.take m) fault).length = m := by
    rw [length_copiedIn, List.length_take]
    omega
  cases hneedsq with
  | there =>
    cases hneeds with
    | there hthere =>
      have hqm := (h.sized.of_array hthere).2 _ (List.mem_of_getElem? hslot) qm rfl
      have harrays := arrayAt_setSlot hthere (p / q % n)
        { qm with bytes := splice qm.bytes (p % q) (copiedIn (buf.take m) fault) }
      rw [peek_stored_iff hthere hslot hqm (by omega) harrays,
        h.unnoticed_of_quantum hthere hslot hm, hcount]
    | allocated hnone hk =>
      rw [List.getElem?_replicate] at hslot
      split_ifs at hslot
      cases hslot
  | @allocated c hk' =>
    have hlt := Nat.lt_of_lt_of_le h.geom.quantum_lt (by decide : 2147483648 ≤ 4294967296)
    have hqm := length_newBytes hlt c
    have hsplice := (length_splice hfit).trans hqm
    cases hneeds with
    | there hthere =>
      have harrays := arrayAt_setSlot_setSlot hthere (p / q % n) ⟨d.nalloc, block (sizeT q) c⟩
        ⟨d.nalloc, splice (block (sizeT q) c) (p % q) (copiedIn (buf.take m) fault)⟩
      have hhole : ∀ o, peekIn (arrayAt d.dev.data (p / q / n)) (p / q % n) o = some none := by
        intro o
        rw [hthere, peekIn, slotAt, hslot]
        rfl
      rw [peek_filled_iff hq hsplice hj hhole harrays, h.unnoticed_of_hole hthere hslot, hthere,
        hk']
      constructor
      · exact fun hcond _ => hcond.2
      · exact fun hcond => ⟨fun _ _ _ => rfl, hcond rfl⟩
    | allocated hnone hk =>
      have hset : arrayAt (setArray d.dev.data (p / q / n)
          ⟨d.nalloc, List.replicate (entries n) none⟩) (p / q / n) =
          some ⟨d.nalloc, List.replicate (entries n) none⟩ := by
        rw [arrayAt_setArray hlen, Function.update_self]
      have harrays := arrayAt_setSlot_setSlot hset (p / q % n)
        ⟨d.nalloc + 1, block (sizeT q) c⟩
        ⟨d.nalloc + 1, splice (block (sizeT q) c) (p % q) (copiedIn (buf.take m) fault)⟩
      rw [arrayAt_setArray hlen, Function.update_idem] at harrays
      have hhole : ∀ o, peekIn (arrayAt d.dev.data (p / q / n)) (p / q % n) o = some none := by
        intro o
        rw [hnone]
        rfl
      rw [peek_filled_iff hq hsplice hj hhole harrays, h.unnoticed_of_none hnone, hnone, hk, hk']
      simp only [peekIn_empty_iff]
      constructor
      · exact fun hcond _ => ⟨hcond.1, fun _ => hcond.2⟩
      · exact fun hcond => ⟨(hcond rfl).1, (hcond rfl).2 rfl⟩

end

theorem peek_iff_within (h : Laid q n d) (hp : p < 2147483648)
    (hlen : p / q / n < d.dev.data.length) (hw : WriteEnds κ d q n p buf fault r d') :
    (∀ x < d.dev.size, d'.peek q n x = d.peek q n x) ↔ d.Unnoticed κ p buf fault := by
  have hfound := scullFollow_of_lt κ d.nalloc (div_div_lt (q := q) (s := n) hp) hlen
  cases hw with
  | noItem hwalk => cases hfound.symm.trans hwalk
  | noArray hwalk harr =>
    cases hfound.symm.trans hwalk
    have hneeds := needArray_needs κ d.dev.data d.nalloc (p / q / n) n
    rw [harr] at hneeds
    cases hneeds with
    | fails hnone hk =>
      rw [h.unnoticed_of_none hnone, hk]
      exact iff_of_true (fun _ _ => rfl) fun hsome => by cases hsome
  | noQuantum hwalk harr hslot hqm =>
    cases hfound.symm.trans hwalk
    exact h.peek_iff_noQuantum hlen harr hslot hqm
  | copied hwalk harr hslot hqm hm hbytes =>
    cases hfound.symm.trans hwalk
    exact h.peek_iff_copied hlen harr hslot hqm hm hbytes

/-- A call that fails leaves the size alone, and what reads can see in the cases that it should. -/
theorem failed_write (h : Laid q n d) (hp : p < 2147483648)
    (hd : d.scullWrite κ d.dev.quantum d.dev.qset p buf fault = some (.error e, d')) :
    d'.dev.size = d.dev.size ∧
      ((∀ rs : List Request, (∀ r ∈ rs, r.pos < 2147483648) → d'.reads κ rs = d.reads κ rs) ↔
        d.Unnoticed κ p buf fault) := by
  have h' : Laid q n d' := h.write hp hd
  rw [h.quantum_eq, h.qset_eq] at hd
  have hw := scullWrite_ends h.geom hp hd
  have hsize : d'.dev.size = d.dev.size := by
    generalize hr : (Except.error e : Except Errno ℕ) = r at hw
    cases hw with
    | copied =>
      split_ifs at hr ⊢
      rfl
    | _ => rfl
  refine ⟨hsize, ?_⟩
  rw [h.reads_iff_peek h' hsize κ]
  rcases Nat.lt_or_ge (p / q / n) d.dev.data.length with hlen | hlen
  · exact h.peek_iff_within hp hlen hw
  · exact h.peek_iff_beyond hp hlen hw

end Laid

namespace Sys
variable [DecidableEq F] [OfNat β 0] {κ : Kmalloc β} {s t : Sys F β} {f : F} {file : File}
  {buf : List β} {interrupted : Bool} {fault : Option ℕ} {e : Errno}

theorem step_write_fails (hf : s.files f = some file)
    (hw : step κ s (.write f buf interrupted fault) = .ok t)
    (he : t.results = s.results ++ [.error e]) :
    t.files = s.files ∧
      (interrupted = true ∧ t.driver = s.driver ∨
        interrupted = false ∧ file.fPos < 2147483648 ∧
          ∃ e, s.driver.scullWrite κ s.driver.dev.quantum s.driver.dev.qset file.fPos buf fault =
            some (.error e, t.driver)) := by
  obtain ⟨file', driver, file'', r, hf', hx, rfl⟩ := call_ok hw
  cases hf.symm.trans hf'
  obtain rfl : r = .error e := List.singleton_inj.mp (List.append_cancel_left he)
  rw [Op.perform] at hx
  split_ifs at hx with hout hi
  · cases hx
    rw [setFile_self hf]
    exact ⟨rfl, Or.inl ⟨hi, rfl⟩⟩
  · rw [Bool.not_eq_true] at hi
    have hpos : file.fPos < 2147483648 := by omega
    split at hx <;> cases hx
    rename_i hd
    rw [setFile_self hf]
    exact ⟨rfl, Or.inr ⟨hi, hpos, _, hd⟩⟩

end Sys

/-- From every state that serialised calls reach, a write that fails leaves the size and the
positions alone, and all later reads too if and only if it was interrupted before it began or cannot
be noticed. -/
theorem failedWrite_kept [DecidableEq F] [OfNat β 0] {κ : Kmalloc β} {quantum qset : Int}
    (hgeo : GeometryOk quantum qset) {as : List (Act F β)} {s t : Sys F β}
    (hs : exec (Sys.step κ) (Sys.loaded quantum qset) as = .ok s) {f : F} {file : File}
    (hf : s.files f = some file) {buf : List β} {interrupted : Bool} {fault : Option ℕ} {e : Errno}
    (hw : Sys.step κ s (.write f buf interrupted fault) = .ok t)
    (he : t.results = s.results ++ [.error e]) :
    t.driver.dev.size = s.driver.dev.size ∧ t.files = s.files ∧
      (SameFile κ s t ↔
        (interrupted = false → s.driver.Unnoticed κ file.fPos.toNat buf fault)) := by
  obtain ⟨q, n, h⟩ := laid_run hgeo hs
  obtain ⟨hfiles, ⟨rfl, hsame⟩ | ⟨rfl, hpos, e', hd⟩⟩ := Sys.step_write_fails hf hw he
  · have hsize : t.driver.dev.size = s.driver.dev.size := by rw [hsame]
    refine ⟨hsize, hfiles, iff_of_true ⟨hsize, hfiles, fun rs _ => by rw [hsame]⟩ ?_⟩
    exact fun hno => by cases hno
  · obtain ⟨p, hp⟩ := Int.eq_ofNat_of_zero_le ((inv_run hgeo hs).nonneg f file hf)
    rw [hp] at hd
    rw [hp, Int.toNat_natCast]
    obtain ⟨hsize, hreads⟩ := h.failed_write (by omega : p < 2147483648) hd
    refine ⟨hsize, hfiles, ?_, ?_⟩
    · exact fun hkept _ => hreads.mp hkept.reads
    · exact fun hcond => ⟨hsize, hfiles, hreads.mpr (hcond rfl)⟩

/-- Memory runs out on the way to position 9. -/
theorem sameFile_noMemory :
    ∃ s t, exec (Sys.step scarce) (Sys.loaded 2 2) [.opens 0 true true false, .llseek 0 9 0] =
        .ok s ∧
      Sys.step scarce s (.write 0 [5] false none) = .ok t ∧
      t.results = s.results ++ [.error .enomem] ∧ SameFile scarce s t := by
  have hgeo : GeometryOk 2 2 := by decide
  have hrun : (exec (Sys.step scarce) (Sys.loaded 2 2)
      [.opens (0 : ℕ) true true false, .llseek 0 9 0]).map
      (fun s => (s.driver, s.files 0, (Sys.step scarce s (.write 0 [5] false none)).map
        fun t => decide (t.results = s.results ++ [.error .enomem]))) =
      .ok (Driver.loaded 2 2, some { fPos := 9, read := true, write := true }, .ok true) := by
    decide +kernel
  obtain ⟨s, hs, heq⟩ := Outcome.map_eq_ok.mp hrun
  rw [Prod.mk.injEq, Prod.mk.injEq] at heq
  obtain ⟨hd, hf, hstep⟩ := heq
  obtain ⟨t, ht, he⟩ := Outcome.map_eq_ok.mp hstep
  have he := of_decide_eq_true he
  refine ⟨s, t, hs, ht, he, (failedWrite_kept hgeo hs hf ht he).2.2.mpr fun _ => ?_⟩
  rw [hd]
  exact fun _ => ⟨fun x hx => absurd hx (Nat.not_lt_zero x), fun _ => Nat.zero_le _⟩

def fourBytes : List (Act ℕ Byte) :=
  [.opens 0 true true false, .write 0 [1, 2, 3, 4] false none, .llseek 0 0 0]

/-- A copy that faults after one of two bytes has stored that byte and a zero over the old ones. -/
theorem faulted_write_overwrites :
    GeometryOk 4 2 ∧ ∃ s t, exec (Sys.step ample) (Sys.loaded 4 2) fourBytes = .ok s ∧
      Sys.step ample s (.write 0 [9, 9] false (some 1)) = .ok t ∧
      t.results = s.results ++ [.error .efault] ∧ ¬SameFile ample s t := by
  have hrun : (exec (Sys.step ample) (Sys.loaded 4 2) fourBytes).map
      (fun s => (Sys.step ample s (.write 0 [9, 9] false (some 1))).map fun t =>
        decide (t.results = s.results ++ [.error .efault] ∧
          (t.driver.reads ample [⟨0, 4, none⟩]).map (List.map Except.toOption) ≠
            (s.driver.reads ample [⟨0, 4, none⟩]).map (List.map Except.toOption))) =
      .ok (.ok true) := by
    decide +kernel
  obtain ⟨s, hs, hstep⟩ := Outcome.map_eq_ok.mp hrun
  obtain ⟨t, ht, hbad⟩ := Outcome.map_eq_ok.mp hstep
  obtain ⟨he, hread⟩ := of_decide_eq_true hbad
  refine ⟨by decide, s, t, hs, ht, he, fun hsame => hread ?_⟩
  rw [hsame.reads [⟨0, 4, none⟩] (by simp)]

end KernelExperiment.Scull
