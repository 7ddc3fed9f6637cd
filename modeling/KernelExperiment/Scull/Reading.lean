import KernelExperiment.Scull.Calls

/-! The size of the device never runs ahead of its list, so a read always finds the item that it
walks to, and has nothing to allocate. -/

namespace KernelExperiment.Scull
open Kernel Runs Region

variable {F β : Type*} {q n p : ℕ} {d d' : Driver β}

namespace Driver

/-- What a read with this much to copy gets from an entry. -/
def copyFrom (slot : Option (Quantum β)) (offset count : ℕ) (fault : Option ℕ) :
    Except Errno (List β) :=
  match slot with
  | none => .ok []
  | some qm =>
    if copyOk count fault then .ok ((qm.bytes.drop offset).take count) else .error .efault

/-- The result of one read below `2 ^ 31` of a device that is laid out. -/
def result (d : Driver β) (q n p count : ℕ) (fault : Option ℕ) : Option (Except Errno (List β)) :=
  if p < d.dev.size then
    (slotAt (arrayAt d.dev.data (p / q / n)) (p / q % n)).map fun slot =>
      copyFrom slot (p % q) (min (min count (d.dev.size - p)) (q - p % q)) fault
  else some (.ok [])

end Driver

/-- The driver is laid out for its geometry, its list covers the size, and the size ends in the
quantum of a position below `2 ^ 31`. -/
structure Laid (q n : ℕ) (d : Driver β) : Prop extends Usable q n d where
  covers : d.dev.size ≤ d.dev.data.length * (q * n)
  near : ∀ x < d.dev.size, x / q * q < 2147483648

namespace Laid
open Driver

theorem item_lt (h : Laid q n d) (hp : p < d.dev.size) : p / q / n < d.dev.data.length := by
  rw [Nat.div_div_eq_div_mul]
  have hcovers := h.covers
  rw [Nat.mul_comm] at hcovers
  exact Nat.div_lt_of_lt_mul (Nat.lt_of_lt_of_le hp hcovers)

/-- The walk of a read finds its item. -/
theorem walk (h : Laid q n d) (κ : Kmalloc β) (hp : p < 2147483648) (hlt : p < d.dev.size) :
    scullFollow κ d.dev.data d.nalloc (p / q / n : ℕ) =
      (some (p / q / n), d.dev.data, d.nalloc) :=
  scullFollow_of_lt κ d.nalloc (div_div_lt hp) (h.item_lt hlt)

theorem length_of_slot (h : Laid q n d) {item j : ℕ} {qm : Quantum β}
    (hslot : slotAt (arrayAt d.dev.data item) j = some (some qm)) : qm.bytes.length = q := by
  cases harr : arrayAt d.dev.data item with
  | none =>
    rw [harr] at hslot
    cases hslot
  | some arr =>
    rw [harr] at hslot
    exact (h.sized.of_array harr).2 _ (List.mem_of_getElem? hslot) qm rfl

theorem read_eq (h : Laid q n d) (κ : Kmalloc β) (hp : p < 2147483648) (count : ℕ)
    (fault : Option ℕ) :
    d.scullRead κ d.dev.quantum d.dev.qset p count fault =
      (d.result q n p count fault).map fun r => (r, d) := by
  unfold Driver.result
  rw [h.quantum_eq, h.qset_eq, scullRead]
  rcases Nat.lt_or_ge p d.dev.size with hlt | hge
  · rw [if_neg (by omega), if_pos hlt, cutCount_eq count hlt h.size_lt, address_eq h.geom hp,
      Option.bind_some, h.walk κ hp hlt]
    dsimp only
    rw [quantumAt_eq]
    cases hslot : slotAt (arrayAt d.dev.data (p / q / n)) (p / q % n) with
    | none => rfl
    | some slot =>
      rw [Option.bind_some, Option.map_some, Option.map_some]
      cases slot with
      | none => rfl
      | some qm =>
        have hlen := h.length_of_slot hslot
        have hmod := Nat.mod_lt p h.geom.quantum_pos
        dsimp only
        rw [sizeT_rest h.geom, readFrom_natCast, readRange_of_le (by omega), Option.map_some,
          copyFrom]
        split_ifs <;> rfl
  · rw [if_pos (by omega), if_neg (Nat.not_lt.mpr hge)]
    rfl

theorem read_same (h : Laid q n d) {κ : Kmalloc β} (hp : p < 2147483648) {count : ℕ}
    {fault : Option ℕ} {r : Except Errno (List β)}
    (hd : d.scullRead κ d.dev.quantum d.dev.qset p count fault = some (r, d')) : d' = d := by
  rw [h.read_eq κ hp] at hd
  obtain ⟨result, -, heq⟩ := Option.map_eq_some_iff.mp hd
  cases heq
  rfl

theorem loaded {quantum qset : Int} (h : GeometryOk quantum qset) :
    ∃ q n, Laid q n (Driver.loaded quantum qset : Driver β) := by
  obtain ⟨q, n, hu⟩ := usable_loaded h
  exact ⟨q, n, hu, Nat.zero_le _, fun x hx => absurd hx (Nat.not_lt_zero x)⟩

theorem trim (h : Laid q n d) (ht : d.scullTrim = some d') : ∃ q n, Laid q n d' := by
  obtain ⟨q', n', hu⟩ := h.toUsable.trim ht
  obtain ⟨freed, -, rfl⟩ := Option.map_eq_some_iff.mp ht
  exact ⟨q', n', hu, Nat.zero_le _, fun x hx => absurd hx (Nat.not_lt_zero x)⟩

theorem ioctl (h : Laid q n d) {cmd : Ioctl}
    (hok : GeometryOk (d.ioctl cmd).scullQuantum (d.ioctl cmd).scullQset) :
    Laid q n (d.ioctl cmd) := by
  have hu := h.toUsable.ioctl hok
  cases cmd <;> exact ⟨hu, h.covers, h.near⟩

end Laid

namespace Driver.WriteEnds
variable [OfNat β 0] {κ : Kmalloc β} {buf : List β} {fault : Option ℕ} {r : Except Errno ℕ}

/-- A write makes the list no shorter, and a size that it raises is in an item of the list. -/
theorem grows (h : WriteEnds κ d q n p buf fault r d') (hp : p < 2147483648) :
    d.dev.data.length ≤ d'.dev.data.length ∧
      (d'.dev.size = d.dev.size ∨ p / q / n < d'.dev.data.length ∧
        ∃ m ≤ q - p % q, d'.dev.size = max d.dev.size (p + m)) := by
  have hitems : p / q / n < 4294967296 := div_div_lt hp
  cases h with
  | noItem hwalk => exact ⟨(scullFollow_grows hitems hwalk).1, Or.inl rfl⟩
  | noArray hwalk harr =>
    have hle := (scullFollow_grows hitems hwalk).1
    rw [← length_needArray harr] at hle
    exact ⟨hle, Or.inl rfl⟩
  | noQuantum hwalk harr hslot hqm =>
    have hle := (scullFollow_grows hitems hwalk).1
    rw [← length_needArray harr, ← length_needQuantum hqm] at hle
    exact ⟨hle, Or.inl rfl⟩
  | @copied data₁ _ _ _ _ _ qm data₃ _ m bytes hwalk harr hslot hqm hm hbytes =>
    obtain ⟨hle, hitem⟩ := scullFollow_grows hitems hwalk
    have hlen : (setSlot data₃ (p / q / n) (p / q % n : ℕ) { qm with bytes }).length =
        data₁.length := by
      rw [length_setSlot, length_needQuantum hqm, length_needArray harr]
    rw [← hlen] at hle hitem
    refine ⟨hle, ?_⟩
    split_ifs with hok
    · exact Or.inr ⟨hitem rfl, m, by omega, rfl⟩
    · exact Or.inl rfl

end Driver.WriteEnds

namespace Laid
open Driver

theorem write [OfNat β 0] (h : Laid q n d) {κ : Kmalloc β} (hp : p < 2147483648) {buf : List β}
    {fault : Option ℕ} {r : Except Errno ℕ}
    (hd : d.scullWrite κ d.dev.quantum d.dev.qset p buf fault = some (r, d')) : Laid q n d' := by
  obtain ⟨_, -, -, -, hu⟩ := h.toUsable.write (Int.natCast_nonneg p) (by omega) hd
  rw [h.quantum_eq, h.qset_eq] at hd
  obtain ⟨hle, hsize⟩ := (scullWrite_ends h.geom hp hd).grows hp
  have hkept := Nat.le_trans h.covers (Nat.mul_le_mul_right (q * n) hle)
  rcases hsize with hsame | ⟨hitem, m, hm, hsize⟩
  · rw [← hsame] at hkept
    exact ⟨hu, hkept, hsame ▸ h.near⟩
  · have hmod := Nat.mod_lt p h.geom.quantum_pos
    -- the write ends with its quantum, which is in the item
    have hend : p + m ≤ (p / q + 1) * q := by
      have hdiv := Nat.div_add_mod' p q
      rw [Nat.add_one_mul]
      omega
    have hquantum : p / q + 1 ≤ d'.dev.data.length * n := by
      have hdiv := Nat.div_lt_iff_lt_mul h.geom.qset_pos |>.mp hitem
      exact hdiv
    refine ⟨hu, ?_, fun x hx => ?_⟩
    · rw [hsize]
      apply Nat.max_le.mpr ⟨hkept, ?_⟩
      calc p + m ≤ (p / q + 1) * q := hend
        _ ≤ d'.dev.data.length * n * q := Nat.mul_le_mul_right q hquantum
        _ = d'.dev.data.length * (q * n) := by rw [Nat.mul_assoc, Nat.mul_comm n q]
    · rw [hsize] at hx
      rcases Nat.lt_or_ge x d.dev.size with hold | hnew
      · exact h.near x hold
      · have hquot : x / q ≤ p / q := by
          rw [← Nat.lt_add_one_iff, Nat.div_lt_iff_lt_mul h.geom.quantum_pos]
          omega
        have hstart := Nat.div_mul_le_self p q
        have hmul := Nat.mul_le_mul_right q hquot
        omega

theorem call [OfNat β 0] {κ : Kmalloc β} (h : Laid q n d) (hc : Driver.Call κ d d') :
    ∃ q n, Laid q n d' := by
  cases hc with
  | none => exact ⟨q, n, h⟩
  | trim ht => exact h.trim ht
  | ioctl hok => exact ⟨q, n, h.ioctl hok⟩
  | read hp hd =>
    rw [h.read_same hp hd]
    exact ⟨q, n, h⟩
  | write hp hd => exact ⟨q, n, h.write hp hd⟩

end Laid

theorem laid_run [DecidableEq F] [OfNat β 0] {κ : Kmalloc β} {quantum qset : Int}
    (hgeo : GeometryOk quantum qset) {as : List (Act F β)} {s : Sys F β}
    (hs : exec (Sys.step κ) (Sys.loaded quantum qset) as = .ok s) : ∃ q n, Laid q n s.driver :=
  driver_run (I := fun d : Driver β => ∃ q n, Laid q n d) hgeo (Laid.loaded hgeo)
    (fun _ _ ⟨_, _, h⟩ hc => h.call hc) hs

/-- In every state that serialised calls reach, a read below the size walks to an item that the list
has without allocating one, and a read anywhere leaves the driver as it was. -/
theorem read_leaves_driver [DecidableEq F] [OfNat β 0] {κ : Kmalloc β} {quantum qset : Int}
    (hgeo : GeometryOk quantum qset) {as : List (Act F β)} {s : Sys F β}
    (hs : exec (Sys.step κ) (Sys.loaded quantum qset) as = .ok s) {p : ℕ} (hp : p < 2147483648) :
    (p < s.driver.dev.size → ∃ a, address s.driver.dev.quantum s.driver.dev.qset p = some a ∧
      0 ≤ a.item ∧ a.item < s.driver.dev.data.length ∧
      scullFollow κ s.driver.dev.data s.driver.nalloc a.item =
        (some a.item.toNat, s.driver.dev.data, s.driver.nalloc)) ∧
    ∀ count fault r d', s.driver.scullRead κ s.driver.dev.quantum s.driver.dev.qset p count fault =
      some (r, d') → d' = s.driver := by
  obtain ⟨q, n, h⟩ := laid_run hgeo hs
  refine ⟨fun hlt => ?_, fun _ _ _ _ hd => h.read_same hp hd⟩
  rw [h.quantum_eq, h.qset_eq]
  refine ⟨_, address_eq h.geom hp, Int.natCast_nonneg _, ?_, h.walk κ hp hlt⟩
  exact Int.ofNat_lt.mpr (h.item_lt hlt)

/-- The third request fails, and with it the first attempt to get to position 9. -/
def scarce : Kmalloc Byte := fun k => if k = 2 then none else some fun _ => 255

def secondAttempt : List (Act ℕ Byte) :=
  [.opens 0 true true false, .llseek 0 9 0, .write 0 [5] false none, .write 0 [5] false none]

theorem read_hole_leaves_driver :
    ∃ s, exec (Sys.step scarce) (Sys.loaded 2 2) secondAttempt = .ok s ∧
      (∃ a, address s.driver.dev.quantum s.driver.dev.qset 5 = some a ∧
        0 ≤ a.item ∧ a.item < s.driver.dev.data.length ∧
        scullFollow scarce s.driver.dev.data s.driver.nalloc a.item =
          (some a.item.toNat, s.driver.dev.data, s.driver.nalloc)) ∧
      ∀ count fault r d', s.driver.scullRead scarce s.driver.dev.quantum s.driver.dev.qset 5 count
        fault = some (r, d') → d' = s.driver := by
  have hgeo : GeometryOk 2 2 := by decide
  have hsize : (exec (Sys.step scarce) (Sys.loaded 2 2) secondAttempt).map
      (fun s => s.driver.dev.size) = .ok 10 := by decide +kernel
  obtain ⟨s, hrun, hs⟩ := Outcome.map_eq_ok.mp hsize
  have hp : (5 : ℕ) < 2147483648 := by omega
  obtain ⟨hwalk, hread⟩ := read_leaves_driver hgeo hrun hp
  exact ⟨s, hrun, hwalk (by omega), hread⟩

end KernelExperiment.Scull
