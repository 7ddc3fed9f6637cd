import KernelExperiment.Scull.Calls

/-! Where `scull_read` and `scull_write` look for the byte at a file position. The position has 64
bits, and the cast to `long` before the first division keeps only the lower 32 of them. -/

namespace KernelExperiment.Scull
open Kernel

variable {β : Type*} {quantum qset p p' : Int}

/-- `while (n--)`, entered with `n`, runs its body `k` times. -/
inductive Countdown : Int → ℕ → Prop
  | done : Countdown 0 0
  | again {n : Int} {k : ℕ} (hn : n ≠ 0) (h : Countdown (toLong (n - 1)) k) : Countdown n (k + 1)

theorem Countdown.unique {n : Int} {k l : ℕ} (h : Countdown n k) (h' : Countdown n l) : k = l := by
  induction h generalizing l with
  | done =>
    cases h' with
    | done => rfl
    | again hn => exact absurd rfl hn
  | again hn _ ih =>
    cases h' with
    | done => exact absurd rfl hn
    | again _ hrest => rw [ih hrest]

theorem countdown_sizeT {n : Int} (h1 : -2147483648 ≤ n) (h2 : n < 2147483648) :
    Countdown n (sizeT n) := by
  induction hk : sizeT n generalizing n with
  | zero =>
    have hn : n = 0 := by
      unfold sizeT at hk
      omega
    rw [hn]
    exact .done
  | succ k ih =>
    -- below zero the counter runs down to the least int and around to the greatest
    have hpred : -2147483648 ≤ toLong (n - 1) ∧ toLong (n - 1) < 2147483648 ∧
        sizeT (toLong (n - 1)) = k := by
      unfold sizeT at hk
      unfold sizeT toLong
      rw [Int.bmod_def]
      split_ifs <;> omega
    refine .again ?_ (ih hpred.1 hpred.2.1 hpred.2.2)
    rintro rfl
    cases hk

/-- The walk of `scull_follow` goes as far as its loop counts. -/
theorem countdown_iff {n : Int} {k : ℕ} (h1 : -2147483648 ≤ n) (h2 : n < 2147483648) :
    Countdown n k ↔ k = sizeT n := by
  constructor
  · exact fun h => h.unique (countdown_sizeT h1 h2)
  · rintro rfl
    exact countdown_sizeT h1 h2

theorem countdown_natCast {m k : ℕ} (hm : m < 2147483648) : Countdown m k ↔ (k : Int) = m := by
  rw [countdown_iff (by omega) (by omega), sizeT_of_lt (by omega) (by omega), Int.toNat_natCast,
    Int.ofNat_inj]

/-- The address of a position stays in the geometry, leads back to the position, and the loop of
`scull_follow` makes as many steps as there are items before it. -/
def Exact (quantum qset p : Int) : Prop :=
  ∃ a, address quantum qset p = some a ∧ 0 ≤ a.item ∧ (0 ≤ a.sPos ∧ a.sPos < qset) ∧
    (0 ≤ a.qPos ∧ a.qPos < quantum) ∧
    p = a.item * quantum * qset + a.sPos * quantum + a.qPos ∧
    ∀ k : ℕ, Countdown a.item k ↔ (k : Int) = a.item

/-- Whatever the position, item and offsets make up what is left of it after the cast. -/
theorem address_sum (h : GeometryOk quantum qset) {a : Address}
    (ha : address quantum qset p = some a) :
    a.item * quantum * qset + a.sPos * quantum + a.qPos = toLong p := by
  obtain ⟨hq, hn, hlt⟩ := h
  have hsize : toLong (quantum * qset) = quantum * qset :=
    toLong_of_lt (Int.mul_nonneg (Int.le_of_lt hq) (Int.le_of_lt hn)) hlt
  obtain ⟨⟨item, rest⟩, houter, ha⟩ := Option.bind_eq_some_iff.mp ha
  obtain ⟨⟨sPos, qPos⟩, hinner, rfl⟩ := Option.map_eq_some_iff.mp ha
  have hdiv : ∀ {a b c d : Int}, divMod a b = some (c, d) → c * b + d = a := by
    intro a b c d h
    rw [divMod] at h
    split_ifs at h
    cases h
    exact Int.tdiv_mul_add_tmod a b
  have hrest := hdiv hinner
  have htotal := hdiv houter
  rw [hsize] at htotal
  calc item * quantum * qset + sPos * quantum + qPos
      = item * (quantum * qset) + (sPos * quantum + qPos) := by rw [Int.mul_assoc, Int.add_assoc]
    _ = toLong p := by rw [hrest, htotal]

theorem address_inj (h : GeometryOk quantum qset)
    (ha : address quantum qset p = address quantum qset p')
    (hsome : (address quantum qset p).isSome) : toLong p = toLong p' := by
  obtain ⟨a, hp⟩ := Option.isSome_iff_exists.mp hsome
  rw [← address_sum h hp, address_sum h (ha ▸ hp)]

theorem exact_of_lt (h : GeometryOk quantum qset) (h0 : 0 ≤ p) (hlt : p < 2147483648) :
    Exact quantum qset p := by
  obtain ⟨q, s, rfl, rfl, hgeom⟩ := h.geomOk
  obtain ⟨p, rfl⟩ := Int.eq_ofNat_of_zero_le h0
  have hp : p < 2147483648 := by omega
  have haddr := address_eq hgeom hp
  have hsum := address_sum h haddr
  rw [toLong_of_lt h0 hlt] at hsum
  have hitem : p / q / s < 2147483648 :=
    ((Nat.div_le_self _ _).trans (Nat.div_le_self _ _)).trans_lt hp
  refine ⟨_, haddr, Int.natCast_nonneg _, ⟨Int.natCast_nonneg _, ?_⟩, ⟨Int.natCast_nonneg _, ?_⟩,
    hsum.symm, fun _ => countdown_natCast hitem⟩
  · exact Int.ofNat_lt.mpr (Nat.mod_lt _ hgeom.qset_pos)
  · exact Int.ofNat_lt.mpr (Nat.mod_lt _ hgeom.quantum_pos)

theorem Exact.lt (h : GeometryOk quantum qset) (hp : Exact quantum qset p) : p < 2147483648 := by
  obtain ⟨a, ha, -, -, -, hsum, -⟩ := hp
  rw [address_sum h ha] at hsum
  rw [hsum]
  exact Int.bmod_lt (by decide)

/-- Two positions that `scull_llseek` accepts have exact and different addresses if and only if both
are below `2 ^ 31`. -/
theorem positionsExact_iff_lt (hgeo : GeometryOk quantum qset) {d d' : Driver β}
    {file file' : File} {off off' : Int} {whence whence' : ℕ}
    (hp : d.scullLlseek file off whence = .ok p)
    (hp' : d'.scullLlseek file' off' whence' = .ok p') :
    (Exact quantum qset p ∧ Exact quantum qset p' ∧
      (p ≠ p' → address quantum qset p ≠ address quantum qset p')) ↔
    p < 2147483648 ∧ p' < 2147483648 := by
  constructor
  · rintro ⟨hexact, hexact', -⟩
    exact ⟨hexact.lt hgeo, hexact'.lt hgeo⟩
  · rintro ⟨hlt, hlt'⟩
    have h0 : 0 ≤ p := llseek_nonneg hp
    have h0' : 0 ≤ p' := llseek_nonneg hp'
    have hexact := exact_of_lt hgeo h0 hlt
    refine ⟨hexact, exact_of_lt hgeo h0' hlt', fun hne haddr => hne ?_⟩
    obtain ⟨a, ha, -⟩ := hexact
    have hsame := address_inj hgeo haddr (Option.isSome_of_eq_some ha)
    rwa [toLong_of_lt h0 hlt, toLong_of_lt h0' hlt'] at hsame

theorem positionsExact_ends :
    Exact 4000 1000 0 ∧ Exact 4000 1000 2147483647 ∧
      ((0 : Int) ≠ 2147483647 → address 4000 1000 0 ≠ address 4000 1000 2147483647) := by
  have hgeo : GeometryOk 4000 1000 := by decide
  let d : Driver Byte := Driver.loaded 4000 1000
  let file : File := { fPos := 7, read := true, write := true }
  have hzero : d.scullLlseek file 0 0 = .ok 0 := by decide
  have hlast : d.scullLlseek file 2147483640 1 = .ok 2147483647 := by decide
  exact (positionsExact_iff_lt hgeo hzero hlast).mpr (by decide)

/-- Positions that are `2 ^ 32` apart have one address. -/
theorem address_add_word (quantum qset p : Int) :
    address quantum qset (p + 4294967296) = address quantum qset p := by
  have hlong : toLong (p + 4294967296) = toLong p := Int.add_bmod_right p 4294967296
  rw [address, hlong, address]

/-- A byte written at `2 ^ 32` is the byte at 0. -/
theorem far_position_aliases :
    GeometryOk 4000 1000 ∧ llseek 0 0 4294967296 0 = .ok 4294967296 ∧ llseek 0 0 0 0 = .ok 0 ∧
      ¬(Exact 4000 1000 4294967296 ∧ Exact 4000 1000 0 ∧
        ((4294967296 : Int) ≠ 0 → address 4000 1000 4294967296 ≠ address 4000 1000 0)) := by
  refine ⟨by decide, by decide, by decide, ?_⟩
  rintro ⟨-, -, hdistinct⟩
  exact hdistinct (by decide) (address_add_word 4000 1000 0)

end KernelExperiment.Scull
