import KernelExperiment.Scull.Layout

/-! What one read or one write of the bare device does, in terms of the blocks of the file. -/

namespace KernelExperiment.Scull
open Kernel Region

variable {β : Type*} {q s p : ℕ}

/-- A positive geometry whose item size fits in an `int`. -/
structure GeomOk (q s : ℕ) : Prop where
  quantum_pos : 0 < q
  qset_pos : 0 < s
  lt : q * s < 2147483648

theorem GeomOk.quantum_lt (h : GeomOk q s) : q < 2147483648 :=
  Nat.lt_of_le_of_lt (Nat.le_mul_of_pos_right q h.qset_pos) h.lt

/-- Below `2 ^ 31` the computed address is the quantum number `p / q` split into item and entry,
with the offset `p % q`. -/
theorem address_eq (h : GeomOk q s) (hp : p < 2147483648) :
    address q s p =
      some { item := (p / q / s : ℕ), sPos := (p / q % s : ℕ), qPos := (p % q : ℕ) } := by
  have hlt : ((q * s : ℕ) : Int) < 2147483648 := Int.ofNat_lt.mpr h.lt
  have hitem : toLong ((q : Int) * s) = ((q * s : ℕ) : Int) := by
    rw [← Int.natCast_mul]
    exact toLong_of_lt (Int.natCast_nonneg _) hlt
  have hpos : toLong (p : Int) = p := toLong_of_lt (Int.natCast_nonneg p) (by omega)
  rw [address, hitem, hpos, divMod_natCast p (Nat.mul_pos h.quantum_pos h.qset_pos),
    Option.bind_some]
  dsimp only
  rw [divMod_natCast _ h.quantum_pos, Option.map_some, Nat.div_div_eq_div_mul,
    Nat.mod_mul_right_div_self, Nat.mod_mul_right_mod]

namespace Driver

def blocks (d : Driver β) (s : ℕ) (i : ℕ) : Option (List β) := lookup d.dev.data (i / s) (i % s)

structure SameSetup (d d' : Driver β) : Prop where
  scullQuantum : d'.scullQuantum = d.scullQuantum
  scullQset : d'.scullQset = d.scullQset
  quantum : d'.dev.quantum = d.dev.quantum
  qset : d'.dev.qset = d.dev.qset
  freed : d'.freed = d.freed

/-- Nothing but empty items and empty arrays has been added. -/
structure SameBlocks (q s : ℕ) (d d' : Driver β) : Prop where
  setup : SameSetup d d'
  sized : Sized q (entries s) d'.dev.data
  blocks : d'.blocks s = d.blocks s
  size : d'.dev.size = d.dev.size

/-- What a read at position `p` can do. -/
inductive Reads (d : Driver β) (q s p count : ℕ) (fault : Option ℕ) :
    Option (Except Errno (List β) × Driver β) → Prop
  | eof (h : d.dev.size ≤ p) : Reads d q s p count fault (some (.ok [], d))
  | hole {d'} (h : p < d.dev.size) (hb : d.blocks s (p / q) = none) (hd : SameBlocks q s d d') :
      Reads d q s p count fault (some (.ok [], d'))
  | outside (h : p < d.dev.size) (hj : entries s ≤ p / q % s) : Reads d q s p count fault none
  | copied {b n} (h : p < d.dev.size) (hb : d.blocks s (p / q) = some b)
      (hn : n = min (min count (d.dev.size - p)) (q - p % q)) :
      Reads d q s p count fault
        (some (if copyOk n fault then .ok ((b.drop (p % q)).take n) else .error .efault, d))

inductive Writes [OfNat β 0] (κ : Kmalloc β) (d : Driver β) (q s p : ℕ) (buf : List β)
    (fault : Option ℕ) : Option (Except Errno ℕ × Driver β) → Prop
  | enomem {d'} (hk : ∃ k ≥ d.nalloc, κ k = none) (hd : SameBlocks q s d d') :
      Writes κ d q s p buf fault (some (.error .enomem, d'))
  | outside (hj : entries s ≤ p / q % s) : Writes κ d q s p buf fault none
  | copied {d' old n} (hj : p / q % s < entries s) (hold : ∀ b ∈ d.blocks s (p / q), b = old)
      (hlen : old.length = q) (hn : n = min buf.length (q - p % q)) (hd : SameSetup d d')
      (hk : d.nalloc ≤ d'.nalloc)
      (hs : Sized q (entries s) d'.dev.data)
      (hb : d'.blocks s = Function.update (d.blocks s) (p / q)
        (some (splice old (p % q) (copiedIn (buf.take n) fault))))
      (hsize : d'.dev.size = if copyOk n fault then max d.dev.size (p + n) else d.dev.size) :
      Writes κ d q s p buf fault (some (if copyOk n fault then .ok n else .error .efault, d'))

/-- Every way out of `scull_write` at position `p`, with what it has done up to there. -/
inductive WriteEnds [OfNat β 0] (κ : Kmalloc β) (d : Driver β) (q s p : ℕ) (buf : List β)
    (fault : Option ℕ) : Except Errno ℕ → Driver β → Prop
  | noItem {data k} (hwalk : scullFollow κ d.dev.data d.nalloc (p / q / s : ℕ) = (none, data, k)) :
      WriteEnds κ d q s p buf fault (.error .enomem) (d.withData data k)
  | noArray {data₁ k₁ data k}
      (hwalk : scullFollow κ d.dev.data d.nalloc (p / q / s : ℕ) = (some (p / q / s), data₁, k₁))
      (harr : needArray κ data₁ k₁ (p / q / s) s = (none, data, k)) :
      WriteEnds κ d q s p buf fault (.error .enomem) (d.withData data k)
  | noQuantum {data₁ k₁ arr data₂ k₂ slot data k}
      (hwalk : scullFollow κ d.dev.data d.nalloc (p / q / s : ℕ) = (some (p / q / s), data₁, k₁))
      (harr : needArray κ data₁ k₁ (p / q / s) s = (some arr, data₂, k₂))
      (hslot : arr.slots[p / q % s]? = some slot)
      (hqm : needQuantum κ data₂ k₂ (p / q / s) (p / q % s : ℕ) q slot = (none, data, k)) :
      WriteEnds κ d q s p buf fault (.error .enomem) (d.withData data k)
  | copied {data₁ k₁ arr data₂ k₂ slot qm data₃ k₃ n bytes}
      (hwalk : scullFollow κ d.dev.data d.nalloc (p / q / s : ℕ) = (some (p / q / s), data₁, k₁))
      (harr : needArray κ data₁ k₁ (p / q / s) s = (some arr, data₂, k₂))
      (hslot : arr.slots[p / q % s]? = some slot)
      (hqm : needQuantum κ data₂ k₂ (p / q / s) (p / q % s : ℕ) q slot = (some qm, data₃, k₃))
      (hn : n = min buf.length (q - p % q))
      (hbytes : writeRange qm.bytes (p % q) (copiedIn (buf.take n) fault) = some bytes) :
      WriteEnds κ d q s p buf fault (if copyOk n fault then .ok n else .error .efault)
        ((d.withData (setSlot data₃ (p / q / s) (p / q % s : ℕ) { qm with bytes }) k₃).withSize
          (if copyOk n fault then max d.dev.size (p + n) else d.dev.size))

theorem sizeT_rest (h : GeomOk q s) (p : ℕ) : sizeT ((q : Int) - (p % q : ℕ)) = q - p % q := by
  have hlt := Nat.mod_lt p h.quantum_pos
  have hq := h.quantum_lt
  rw [sizeT_of_lt] <;> omega

theorem div_div_lt (hp : p < 2147483648) : p / q / s < 4294967296 := by
  have h1 := Nat.div_le_self p q
  have h2 := Nat.div_le_self (p / q) s
  omega

/-- The walk of `scull_follow` changes none of the quanta, however far it gets. -/
theorem sameBlocks_append {d : Driver β} {ext : List (ScullQset β)}
    (hs : Sized q (entries s) d.dev.data) (hext : ∀ node ∈ ext, node.data = none) (k : ℕ) :
    SameBlocks q s d (d.withData (d.dev.data ++ ext) k) :=
  ⟨⟨rfl, rfl, rfl, rfl, rfl⟩, hs.append hext, funext fun _ => lookup_append hext _ _, rfl⟩

theorem scullRead_reads (κ : Kmalloc β) {d : Driver β} (hg : GeomOk q s)
    (hs : Sized q (entries s) d.dev.data) (hsize : d.dev.size < 4294967296) (hp : p < 2147483648)
    (count : ℕ) (fault : Option ℕ) :
    Reads d q s p count fault (d.scullRead κ q s p count fault) := by
  rcases Nat.lt_or_ge p d.dev.size with hlt | hge
  · have hcount := cutCount_eq count hlt hsize
    obtain ⟨ext, k, hrun, hext, hnone, -, -⟩ :=
      scullFollow_spec κ d.dev.data d.nalloc (div_div_lt (q := q) (s := s) hp)
    have hsame := sameBlocks_append hs hext k
    rw [scullRead, if_neg (by omega), hcount, address_eq hg hp, Option.bind_some, hrun]
    dsimp only
    rcases Nat.lt_or_ge (p / q / s) (d.dev.data ++ ext).length with hlen | hlen
    · rw [if_pos hlen]
      rcases quantumAt_spec hsame.sized (p / q / s) (p / q % s) with
        ⟨hat, hnull⟩ | ⟨qm, hat, hqm, hbytes⟩ | ⟨hat, hj⟩
      · rw [withData] at hat
        rw [hat, Option.bind_some]
        refine .hole hlt ?_ hsame
        rw [← hsame.blocks]
        exact hnull
      · have hblock : d.blocks s (p / q) = some qm.bytes := by rw [← hsame.blocks]; exact hbytes
        obtain ⟨rfl, rfl⟩ := hnone (lt_of_lookup hblock)
        obtain ⟨n, hn⟩ : ∃ n, n = min (min count (d.dev.size - p)) (q - p % q) := ⟨_, rfl⟩
        have hfit : p % q + n ≤ qm.bytes.length := by
          have hmod := Nat.mod_lt p hg.quantum_pos
          omega
        have hcopied : Reads d q s p count fault (some (if copyOk n fault
            then .ok ((qm.bytes.drop (p % q)).take n) else .error .efault, d)) :=
          .copied hlt hblock hn
        have hsamed : d.withData (d.dev.data ++ []) d.nalloc = d := by
          rw [List.append_nil]
          rfl
        rw [withData] at hat
        rw [hat, Option.bind_some]
        dsimp only
        rw [sizeT_rest hg, ← hn, readFrom_natCast, readRange_of_le hfit, Option.map_some, hsamed]
        rcases em (copyOk n fault) with hok | hok
        · rw [if_pos hok] at hcopied ⊢
          exact hcopied
        · rw [if_neg hok] at hcopied ⊢
          exact hcopied
      · rw [withData] at hat
        rw [hat, Option.bind_none]
        exact .outside hlt hj
    · rw [if_neg (Nat.not_lt.mpr hlen)]
      refine .hole hlt ?_ hsame
      rw [← hsame.blocks]
      exact lookup_of_length_le hlen _
  · rw [scullRead, if_pos (by omega)]
    exact .eof hge

theorem div_mod_eq_iff {m i : ℕ} : (i / s = m / s ∧ i % s = m % s) ↔ i = m := by
  refine ⟨fun ⟨hd, hm⟩ => ?_, fun h => by rw [h]; exact ⟨rfl, rfl⟩⟩
  rw [← Nat.div_add_mod i s, ← Nat.div_add_mod m s, hd, hm]

/-- A change of one entry is a change of one block of the file. -/
theorem blocks_update {data data' : List (ScullQset β)} {m : ℕ} {bytes : List β}
    (h : ∀ i l, lookup data' i l = if i = m / s ∧ l = m % s then some bytes else lookup data i l) :
    (fun i => lookup data' (i / s) (i % s)) =
      Function.update (fun i => lookup data (i / s) (i % s)) m (some bytes) := by
  funext i
  rw [h, Function.update_apply]
  simp only [div_mod_eq_iff]

theorem newSize_eq {size n : ℕ} (hp : p < 2147483648) (hn : n < 2147483648) :
    (if (size : Int) < toLoff (p + n) then sizeT (toLoff (p + n)) else size) =
      max size (p + n) := by
  rw [toLoff_of_lt (by omega) (by omega), sizeT_of_lt (by omega) (by omega)]
  split_ifs <;> omega

theorem writes_of_quantum [OfNat β 0] {κ : Kmalloc β} {d : Driver β} (hg : GeomOk q s)
    (hp : p < 2147483648) {data : List (ScullQset β)} {k : ℕ} (hk : d.nalloc ≤ k)
    (hs : Sized q (entries s) data) {arr : PtrArray β} (harr : arrayAt data (p / q / s) = some arr)
    (hj : p / q % s < arr.slots.length) {qm : Quantum β} (hqm : qm.bytes.length = q)
    (hold : ∀ b ∈ d.blocks s (p / q), b = qm.bytes)
    (hlook : ∀ i l, lookup data i l =
      if i = p / q / s ∧ l = p / q % s then some qm.bytes else lookup d.dev.data i l)
    {buf : List β} {n : ℕ} (hn : n = min buf.length (q - p % q)) (fault : Option ℕ) :
    Writes κ d q s p buf fault
      ((writeTo qm.bytes (p % q : ℕ) (copiedIn (buf.take n) fault)).map fun bytes =>
        let d := d.withData (setSlot data (p / q / s) (p / q % s : ℕ) { qm with bytes }) k
        let fPos := toLoff (p + n)
        if copyOk n fault then
          (.ok n, d.withSize (if d.dev.size < fPos then sizeT fPos else d.dev.size))
        else (.error .efault, d)) := by
  obtain ⟨bs, hbs⟩ : ∃ bs, bs = copiedIn (buf.take n) fault := ⟨_, rfl⟩
  have hbslen : bs.length = n := by
    rw [hbs, length_copiedIn, List.length_take]
    omega
  have hmod := Nat.mod_lt p hg.quantum_pos
  have hfit : p % q + bs.length ≤ qm.bytes.length := by omega
  obtain ⟨bytes, hbytes⟩ : ∃ bytes, bytes = splice qm.bytes (p % q) bs := ⟨_, rfl⟩
  have hlen : bytes.length = q := by rw [hbytes, length_splice hfit, hqm]
  obtain ⟨hupdate, hresize, -⟩ := setSlot_spec (q := q) (e := entries s) harr hj { qm with bytes }
  obtain ⟨data', hdata⟩ : ∃ data', data' =
    setSlot data (p / q / s) (p / q % s : ℕ) { qm with bytes } := ⟨_, rfl⟩
  rw [← hdata] at hupdate hresize
  have hblocks : (d.withData data' k).blocks s = Function.update (d.blocks s) (p / q)
      (some (splice qm.bytes (p % q) (copiedIn (buf.take n) fault))) := by
    rw [← hbs, ← hbytes]
    apply blocks_update
    intro i l
    have hboth := hupdate i l
    rw [hlook] at hboth
    exact hboth.trans (by split_ifs <;> rfl)
  have hj' : p / q % s < entries s := (hs.of_array harr).1 ▸ hj
  have hwrites : Writes κ d q s p buf fault
      (some (if copyOk n fault then .ok n else .error .efault,
        (d.withData data' k).withSize
          (if copyOk n fault then max d.dev.size (p + n) else d.dev.size))) :=
    .copied hj' hold hqm hn ⟨rfl, rfl, rfl, rfl, rfl⟩ hk (hresize hlen hs) hblocks rfl
  rw [← hbs, writeTo_natCast, writeRange_of_le hfit, Option.map_some, ← hbytes, ← hdata]
  rcases em (copyOk n fault) with hok | hok
  · have hq := hg.quantum_lt
    rw [if_pos hok, if_pos hok, ← newSize_eq hp (by omega)] at hwrites
    rw [if_pos hok]
    exact hwrites
  · rw [if_neg hok, if_neg hok] at hwrites
    rw [if_neg hok]
    exact hwrites

theorem scullWrite_writes [OfNat β 0] (κ : Kmalloc β) {d : Driver β} (hg : GeomOk q s)
    (hs : Sized q (entries s) d.dev.data) (hp : p < 2147483648) (buf : List β)
    (fault : Option ℕ) :
    Writes κ d q s p buf fault (d.scullWrite κ q s p buf fault) := by
  obtain ⟨ext, k₁, hrun, hext, -, hk₁, hall⟩ :=
    scullFollow_spec κ d.dev.data d.nalloc (div_div_lt (q := q) (s := s) hp)
  have hsame := sameBlocks_append hs hext k₁
  rw [scullWrite, address_eq hg hp, Option.bind_some, hrun]
  dsimp only
  rcases Nat.lt_or_ge (p / q / s) (d.dev.data ++ ext).length with hlen | hlen
  · rw [if_pos hlen]
    dsimp only
    rcases needArray_spec κ k₁ hsame.sized hlen with
      ⟨hk, harr⟩ | ⟨arr, data₂, k₂, harr, hk₂, hpresent, hsized, hlook⟩
    · rw [withData] at harr
      rw [harr]
      exact .enomem ⟨k₁, hk₁, hk⟩ (sameBlocks_append hs hext (k₁ + 1))
    · have hlook₂ : ∀ i l, lookup data₂ i l = lookup d.dev.data i l := fun i l => by
        rw [hlook]
        exact lookup_append hext i l
      rw [withData] at harr
      rw [harr]
      dsimp only
      rw [slot_natCast]
      rcases Nat.lt_or_ge (p / q % s) arr.slots.length with hj | hj
      · rw [List.getElem?_eq_getElem hj, Option.bind_some]
        have hq := Nat.lt_of_lt_of_le hg.quantum_lt (by decide : 2147483648 ≤ 4294967296)
        rcases needQuantum_spec κ k₂ hq hsized hpresent hj with
          ⟨hk, hquantum⟩ | ⟨qm, data₃, k₃, hquantum, hk₃, hqm, hsized₃, hold, ⟨arr₃, harr₃, hj₃⟩,
            hlook₃⟩
        · have hsomek : ∃ k ≥ d.nalloc, κ k = none := ⟨k₂, Nat.le_trans hk₁ hk₂, hk⟩
          have hblocks : (d.withData data₂ (k₂ + 1)).blocks s = d.blocks s :=
            funext fun i => hlook₂ (i / s) (i % s)
          rw [hquantum]
          exact .enomem hsomek ⟨⟨rfl, rfl, rfl, rfl, rfl⟩, hsized, hblocks, rfl⟩
        · have hk : d.nalloc ≤ k₃ := Nat.le_trans hk₁ (Nat.le_trans hk₂ hk₃)
          rw [hlook₂] at hold
          rw [hquantum]
          dsimp only
          rw [sizeT_rest hg]
          exact writes_of_quantum hg hp hk hsized₃ harr₃ hj₃ hqm hold
            (fun i l => by rw [hlook₃, hlook₂]) rfl fault
      · rw [List.getElem?_eq_none hj, Option.bind_none]
        exact .outside ((hsized.of_array hpresent).1 ▸ hj)
  · rw [if_neg (Nat.not_lt.mpr hlen)]
    refine .enomem ?_ hsame
    by_contra hno
    have hsome : ∀ k ≥ d.nalloc, (κ k).isSome := fun k hk =>
      Option.isSome_iff_ne_none.mpr fun h => hno ⟨k, hk, h⟩
    exact absurd (hall hsome) (Nat.not_lt.mpr hlen)

theorem scullWrite_ends [OfNat β 0] {κ : Kmalloc β} {d d' : Driver β} (hg : GeomOk q s)
    (hp : p < 2147483648) {buf : List β} {fault : Option ℕ} {r : Except Errno ℕ}
    (h : d.scullWrite κ q s p buf fault = some (r, d')) : WriteEnds κ d q s p buf fault r d' := by
  rw [scullWrite, address_eq hg hp, Option.bind_some] at h
  dsimp only at h
  split at h
  · rename_i hwalk
    cases h
    exact .noItem hwalk
  · rename_i dptr data₁ k₁ hwalk
    obtain rfl : dptr = p / q / s := scullFollow_item (div_div_lt hp) hwalk
    split at h
    · rename_i harr
      cases h
      exact .noArray hwalk harr
    · rename_i harr
      obtain ⟨slot, hslot, h⟩ := Option.bind_eq_some_iff.mp h
      rw [slot_natCast] at hslot
      split at h
      · rename_i hqm
        cases h
        exact .noQuantum hwalk harr hslot hqm
      · rename_i hqm
        rw [sizeT_rest hg] at h
        obtain ⟨n, hn⟩ : ∃ n, n = min buf.length (q - p % q) := ⟨_, rfl⟩
        rw [← hn] at h
        obtain ⟨bytes, hbytes, h⟩ := Option.map_eq_some_iff.mp h
        rw [writeTo_natCast] at hbytes
        have hends := WriteEnds.copied (d := d) hwalk harr hslot hqm hn hbytes
        have hq := hg.quantum_lt
        rcases em (copyOk n fault) with hok | hok
        · rw [if_pos hok, newSize_eq hp (by omega)] at h
          rw [if_pos hok, if_pos hok] at hends
          cases h
          exact hends
        · rw [if_neg hok] at h
          rw [if_neg hok, if_neg hok] at hends
          cases h
          exact hends

end Driver
end KernelExperiment.Scull
