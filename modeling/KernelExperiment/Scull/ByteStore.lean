import KernelExperiment.Scull.Calls

/-! The device as a byte file. A string written from a position by repeated calls is read back
unchanged, and nothing else that was readable changes, as long as no position of the string has its
entry beyond the end of a pointer array. -/

namespace KernelExperiment.Scull
open Kernel Runs Blocks Region

variable {β : Type*}

namespace Driver

/-- Calls `scull_write` until the buffer is consumed, at most `fuel` times. -/
def writeAll [OfNat β 0] (κ : Kmalloc β) : ℕ → Driver β → Int → List β → Option (Driver β)
  | _, d, _, [] => some d
  | 0, _, _, _ :: _ => none
  | fuel + 1, d, fPos, b :: buf =>
    match d.scullWrite κ d.dev.quantum d.dev.qset fPos (b :: buf) none with
    | some (.ok n, d) => writeAll κ fuel d (toLoff (fPos + n)) ((b :: buf).drop n)
    | _ => none

/-- Calls `scull_read` until `count` bytes are there, at most `fuel` times. -/
def readAll (κ : Kmalloc β) : ℕ → Driver β → Int → ℕ → Option (List β × Driver β)
  | _, d, _, 0 => some ([], d)
  | 0, _, _, _ + 1 => none
  | fuel + 1, d, fPos, count + 1 =>
    match d.scullRead κ d.dev.quantum d.dev.qset fPos (count + 1) none with
    | some (.ok bs, d) =>
      (readAll κ fuel d (toLoff (fPos + bs.length)) (count + 1 - bs.length)).map fun (rest, d) =>
        (bs ++ rest, d)
    | _ => none

def readByte (κ : Kmalloc β) (d : Driver β) (x : ℕ) : Option β :=
  match d.scullRead κ d.dev.quantum d.dev.qset x 1 none with
  | some (.ok [c], _) => some c
  | _ => none

/-- The entry of every position of the range is in the allocated part of its array. -/
def InEntries (d : Driver β) (p n : ℕ) : Prop :=
  ∀ x, p ≤ x → x < p + n →
    (x : Int) % (d.dev.quantum * d.dev.qset) / d.dev.quantum < entries d.dev.qset

/-- A string written at `p` reads back, what was readable elsewhere reads as before, and the size
covers the string. -/
def StoresBack [OfNat β 0] (κ : Kmalloc β) (d : Driver β) (p : ℕ) (b : List β) : Prop :=
  ∃ d', d.writeAll κ b.length p b = some d' ∧
    (∃ d'', d'.readAll κ b.length p b.length = some (b, d'')) ∧
    (∀ x, x < 2147483648 → ¬(p ≤ x ∧ x < p + b.length) → ∀ c, d.readByte κ x = some c →
      d'.readByte κ x = some c) ∧
    d'.dev.size = max d.dev.size (p + b.length)

end Driver

namespace Usable
open Driver

variable {q n p : ℕ} {d : Driver β} {κ : Kmalloc β}

theorem inEntries_iff (h : Usable q n d) (m : ℕ) :
    d.InEntries p m ↔ ∀ x, p ≤ x → x < p + m → x / q % n < entries n := by
  have hcast : ∀ x : ℕ, (x : Int) % (q * n) / q = (x / q % n : ℕ) := by
    intro x
    rw [← Nat.mod_mul_right_div_self]
    push_cast
    rfl
  simp only [InEntries, h.quantum_eq, h.qset_eq, hcast, Int.ofNat_lt]

theorem length_block (h : Usable q n d) {i : ℕ} {b : List β} (hb : d.blocks n i = some b) :
    i % n < entries n ∧ b.length = q := h.sized.lt_of_lookup hb

theorem read_cells (h : Usable q n d) (κ : Kmalloc β) (hp : p < 2147483648)
    (hlt : p < d.dev.size) {c : β} (hc : cell q (d.blocks n) p = some c) (count : ℕ) :
    ∃ bs, d.scullRead κ d.dev.quantum d.dev.qset p count none = some (.ok bs, d) ∧
      bs.length = min (min count (d.dev.size - p)) (q - p % q) ∧
        ∀ i < bs.length, bs[i]? = cell q (d.blocks n) (p + i) := by
  obtain ⟨b, hb, -⟩ := Option.bind_eq_some_iff.mp hc
  obtain ⟨hj, hlen⟩ := h.length_block hb
  have hmod := Nat.mod_lt p h.geom.quantum_pos
  have hr := h.reads κ hp count none
  generalize hres : d.scullRead κ d.dev.quantum d.dev.qset p count none = res at hr
  cases hr with
  | eof hle => exact absurd hle (Nat.not_le.mpr hlt)
  | hole _ hb' => cases hb.symm.trans hb'
  | outside _ hj' => exact absurd hj (Nat.not_lt.mpr hj')
  | @copied b' m _ hb' hm =>
    rw [hb, Option.some.injEq] at hb'
    subst hb'
    have hbs : ((b.drop (p % q)).take m).length = m := by
      rw [List.length_take, List.length_drop]
      omega
    refine ⟨_, by rw [if_pos (copyOk_none m)], hbs.trans hm, fun i hi => ?_⟩
    rw [hbs] at hi
    exact getElem?_range hb (by omega) hi

theorem read_nothing (h : Usable q n d) (κ : Kmalloc β) (hp : p < 2147483648)
    (hc : p < d.dev.size → cell q (d.blocks n) p = none) (count : ℕ) :
    d.scullRead κ d.dev.quantum d.dev.qset p count none = none ∨
      ∃ d', d.scullRead κ d.dev.quantum d.dev.qset p count none = some (.ok [], d') := by
  have hr := h.reads κ hp count none
  generalize hres : d.scullRead κ d.dev.quantum d.dev.qset p count none = res at hr
  cases hr with
  | eof => exact Or.inr ⟨d, rfl⟩
  | @hole d' => exact Or.inr ⟨d', rfl⟩
  | outside => exact Or.inl rfl
  | copied hlt hb =>
    have hnone := hc hlt
    obtain ⟨-, hlen⟩ := h.length_block hb
    have hmod := Nat.mod_lt p h.geom.quantum_pos
    rw [cell_of_block hb, List.getElem?_eq_none_iff] at hnone
    omega

theorem readByte_eq (h : Usable q n d) (κ : Kmalloc β) {x : ℕ} (hx : x < 2147483648) {c : β} :
    d.readByte κ x = some c ↔ x < d.dev.size ∧ cell q (d.blocks n) x = some c := by
  by_cases hstored : x < d.dev.size ∧ ∃ c, cell q (d.blocks n) x = some c
  · obtain ⟨hlt, c', hc'⟩ := hstored
    obtain ⟨bs, hread, hlen, hbs⟩ := h.read_cells κ hx hlt hc' 1
    have hmod := Nat.mod_lt x h.geom.quantum_pos
    obtain ⟨b, rfl⟩ := List.length_eq_one_iff.mp (by omega : bs.length = 1)
    have hb := hbs 0 (by simp)
    rw [Nat.add_zero, hc'] at hb
    simp only [readByte, hread, hc']
    simp only [List.getElem?_cons_zero] at hb
    simp [hlt, hb]
  · have hnone : x < d.dev.size → cell q (d.blocks n) x = none := fun hlt =>
      Option.eq_none_iff_forall_ne_some.mpr fun c hc => hstored ⟨hlt, c, hc⟩
    have hread : d.readByte κ x = none := by
      rcases h.read_nothing κ hx hnone 1 with hr | ⟨d', hr⟩ <;> simp only [readByte, hr]
    rw [hread]
    apply iff_of_false (by simp)
    rintro ⟨hlt, hc⟩
    exact hstored ⟨hlt, c, hc⟩

theorem readAll_cells (h : Usable q n d) (κ : Kmalloc β) (fuel : ℕ) (b : List β)
    (hf : b.length ≤ fuel) (hlt : p + b.length < 2147483648) (hsize : p + b.length ≤ d.dev.size)
    (hb : ∀ i < b.length, cell q (d.blocks n) (p + i) = b[i]?) :
    d.readAll κ fuel p b.length = some (b, d) := by
  induction fuel generalizing p b with
  | zero =>
    rw [List.length_eq_zero_iff.mp (Nat.le_zero.mp hf)]
    rfl
  | succ fuel ih =>
    cases b with
    | nil => rfl
    | cons c b =>
      rw [List.length_cons] at hf hlt hsize
      have hc : cell q (d.blocks n) p = some c := by simpa using hb 0 (by simp)
      -- the call returns at least one byte, so the fuel lasts for the rest
      obtain ⟨bs, hread, hlen, hbs⟩ := h.read_cells κ (by omega) (by omega) hc (b.length + 1)
      have hmod := Nat.mod_lt p h.geom.quantum_pos
      have hle : bs.length ≤ (c :: b).length := by
        rw [List.length_cons]
        omega
      have htake : bs = (c :: b).take bs.length := by
        refine List.ext_getElem? fun i => ?_
        rcases Nat.lt_or_ge i bs.length with hi | hi
        · rw [hbs i hi, hb i (by omega), List.getElem?_take_of_lt hi]
        · rw [List.getElem?_eq_none hi, List.getElem?_eq_none (by rw [List.length_take]; omega)]
      have hdrop : ((c :: b).drop bs.length).length = b.length + 1 - bs.length := by
        rw [List.length_drop, List.length_cons]
      have hrest := ih (p := p + bs.length) ((c :: b).drop bs.length) (by omega) (by omega)
        (by omega) fun i hi => by
          rw [Nat.add_assoc, hb _ (by rw [List.length_cons]; omega), List.getElem?_drop]
      rw [hdrop] at hrest
      rw [List.length_cons, readAll, hread]
      dsimp only
      rw [toLoff_natCast_add (by omega), hrest, Option.map_some]
      dsimp only
      rw [Option.some.injEq, Prod.mk.injEq]
      have happend := List.take_append_drop bs.length (c :: b)
      rw [← htake] at happend
      exact ⟨happend, rfl⟩

/-- One write with memory to spare stores up to the end of its quantum, or finds its entry outside
the array. -/
theorem write_cells [OfNat β 0] (h : Usable q n d) (hκ : ∀ k ≥ d.nalloc, (κ k).isSome)
    (hp : p < 2147483648) (b : List β) :
    (entries n ≤ p / q % n ∧ d.scullWrite κ d.dev.quantum d.dev.qset p b none = none) ∨
      (p / q % n < entries n ∧ ∃ m d', m = min b.length (q - p % q) ∧
        d.scullWrite κ d.dev.quantum d.dev.qset p b none = some (.ok m, d') ∧ Usable q n d' ∧
        d.nalloc ≤ d'.nalloc ∧ d'.dev.size = max d.dev.size (p + m) ∧
        (∀ i < m, cell q (d'.blocks n) (p + i) = b[i]?) ∧
        ∀ x, ¬(p ≤ x ∧ x < p + m) → ∀ c, cell q (d.blocks n) x = some c →
          cell q (d'.blocks n) x = some c) := by
  have hw := h.writes κ hp b none
  have hmod := Nat.mod_lt p h.geom.quantum_pos
  generalize hres : d.scullWrite κ d.dev.quantum d.dev.qset p b none = res at hw
  cases hw with
  | enomem hk =>
    obtain ⟨k, hk, hnone⟩ := hk
    have hsome := hκ k hk
    rw [hnone] at hsome
    cases hsome
  | outside hj => exact Or.inl ⟨hj, rfl⟩
  | @copied d' old m hj hold hlen hm hd hk hs hb hsize =>
    have hok : copyOk m none := copyOk_none m
    rw [if_pos hok] at hsize hres ⊢
    have htake : (copiedIn (b.take m) none).length = m := by
      rw [length_copiedIn, List.length_take]
      omega
    have hcell := cell_write (d.blocks n) p (copiedIn (b.take m) none) hlen
      (by omega)
    rw [← hb, htake] at hcell
    obtain ⟨p', -, -, -, hu⟩ := h.write (Int.natCast_nonneg p) (by omega) hres
    refine Or.inr ⟨hj, m, d', hm, rfl, hu, hk, hsize, fun i hi => ?_, fun x hx c hc => ?_⟩
    · rw [hcell, if_pos (by omega), Nat.add_sub_cancel_left]
      exact List.getElem?_take_of_lt hi
    · rw [hcell, if_neg hx]
      split_ifs with hblock
      · -- the quantum was there, so the write kept its other bytes
        obtain ⟨b', hb', hget⟩ := Option.bind_eq_some_iff.mp hc
        rw [hblock] at hb'
        rwa [← hold b' hb']
      · exact hc

theorem writeAll_stores [OfNat β 0] (h : Usable q n d) (hκ : ∀ k ≥ d.nalloc, (κ k).isSome)
    (fuel : ℕ) (b : List β) (hf : b.length ≤ fuel) (hlt : p + b.length < 2147483648)
    (hin : ∀ x, p ≤ x → x < p + b.length → x / q % n < entries n) :
    ∃ d', d.writeAll κ fuel p b = some d' ∧ Usable q n d' ∧
      (∀ i < b.length, cell q (d'.blocks n) (p + i) = b[i]?) ∧
      (∀ x, ¬(p ≤ x ∧ x < p + b.length) → ∀ c, cell q (d.blocks n) x = some c →
        cell q (d'.blocks n) x = some c) ∧
      d'.dev.size = if b = [] then d.dev.size else max d.dev.size (p + b.length) := by
  induction fuel generalizing p b d with
  | zero =>
    have hnil := List.length_eq_zero_iff.mp (Nat.le_zero.mp hf)
    subst hnil
    exact ⟨d, rfl, h, by simp, fun x _ c hc => hc, rfl⟩
  | succ fuel ih =>
    cases b with
    | nil => exact ⟨d, rfl, h, by simp, fun x _ c hc => hc, rfl⟩
    | cons a b =>
      have hmod := Nat.mod_lt p h.geom.quantum_pos
      rw [List.length_cons] at hf hlt hin
      rcases h.write_cells hκ (by omega : p < 2147483648) (a :: b) with
        ⟨hout, -⟩ | ⟨-, m, d₁, hm, hwrite, hu₁, hk₁, hsize₁, hcells₁, hkeep₁⟩
      · exact absurd (hin p (Nat.le_refl p) (by omega)) (Nat.not_lt.mpr hout)
      · rw [List.length_cons] at hm
        have hdrop : ((a :: b).drop m).length = b.length + 1 - m := by
          rw [List.length_drop, List.length_cons]
        obtain ⟨d', hrun, hu', hcells, hkeep, hsize⟩ :=
          ih (p := p + m) hu₁ (fun k hk => hκ k (Nat.le_trans hk₁ hk)) ((a :: b).drop m)
            (by omega) (by omega) fun x hx hx' => hin x (by omega) (by omega)
        rw [List.length_cons]
        refine ⟨d', ?_, hu', fun i hi => ?_, fun x hx c hc => ?_, ?_⟩
        · rw [writeAll, hwrite]
          dsimp only
          rw [toLoff_natCast_add (by omega), hrun]
        · rcases Nat.lt_or_ge i m with him | him
          · have hstored := hcells₁ i him
            rw [List.getElem?_eq_getElem (by rwa [List.length_cons])] at hstored ⊢
            exact hkeep (p + i) (by omega) _ hstored
          · obtain ⟨j, rfl⟩ := Nat.exists_eq_add_of_le him
            rw [← Nat.add_assoc, hcells j (by omega), List.getElem?_drop]
        · exact hkeep x (by omega) c (hkeep₁ x (by omega) c hc)
        · rw [hsize, hsize₁, if_neg (List.cons_ne_nil a b)]
          split_ifs with hnil
          · rw [hnil, List.length_nil] at hdrop
            omega
          · omega

theorem writeAll_outside [OfNat β 0] (h : Usable q n d) (hκ : ∀ k ≥ d.nalloc, (κ k).isSome)
    (fuel : ℕ) (b : List β) (hlt : p + b.length < 2147483648) {x : ℕ} (hx : p ≤ x)
    (hx' : x < p + b.length) (hout : entries n ≤ x / q % n) : d.writeAll κ fuel p b = none := by
  induction fuel generalizing p b d with
  | zero =>
    cases b with
    | nil => exact absurd hx' (by simpa using hx)
    | cons a b => rfl
  | succ fuel ih =>
    cases b with
    | nil => exact absurd hx' (by simpa using hx)
    | cons a b =>
      rw [List.length_cons] at hlt hx'
      rcases h.write_cells hκ (by omega : p < 2147483648) (a :: b) with
        ⟨-, hwrite⟩ | ⟨hj, m, d₁, hm, hwrite, hu₁, hk₁, -, -, -⟩
      · rw [writeAll, hwrite]
      · -- the call stores into the quantum of p, which has its entry, so it stops before x
        rw [List.length_cons] at hm
        have hxm : p + m ≤ x := by
          by_contra hlt'
          obtain ⟨i, rfl⟩ := Nat.exists_eq_add_of_le hx
          have hsame : (p + i) / q = p / q := div_add_of_lt (by omega)
          rw [hsame] at hout
          exact absurd hj (Nat.not_lt.mpr hout)
        have hdrop : ((a :: b).drop m).length = b.length + 1 - m := by
          rw [List.length_drop, List.length_cons]
        have hrest := ih (p := p + m) hu₁ (fun k hk => hκ k (Nat.le_trans hk₁ hk))
          ((a :: b).drop m) (by omega) hxm (by omega)
        rw [writeAll, hwrite]
        dsimp only
        rw [toLoff_natCast_add (by omega), hrest]

theorem storesBack_iff [OfNat β 0] (h : Usable q n d) (hκ : ∀ k ≥ d.nalloc, (κ k).isSome)
    {b : List β} (hb : b ≠ []) (hlt : p + b.length < 2147483648) :
    d.StoresBack κ p b ↔ d.InEntries p b.length := by
  rw [h.inEntries_iff]
  refine ⟨fun ⟨d', hrun, _⟩ x hx hx' => ?_, fun hin => ?_⟩
  · by_contra hout
    have hnone := h.writeAll_outside hκ b.length b hlt hx hx' (Nat.not_lt.mp hout)
    cases hrun.symm.trans hnone
  · obtain ⟨d', hrun, hu, hcells, hkeep, hsize⟩ :=
      h.writeAll_stores hκ b.length b (Nat.le_refl _) hlt hin
    rw [if_neg hb] at hsize
    refine ⟨d', hrun, ⟨d', ?_⟩, fun x hx hout c hc => ?_, hsize⟩
    · exact hu.readAll_cells κ b.length b (Nat.le_refl _) hlt (by omega) hcells
    · obtain ⟨hlt', hc'⟩ := (h.readByte_eq κ hx).mp hc
      exact (hu.readByte_eq κ hx).mpr ⟨by omega, hkeep x hout c hc'⟩

end Usable

/-- From every state that serialised calls reach, a string is stored and read back exactly when the
entries of all its positions are in the allocated part of their arrays. -/
theorem storesBack_iff_inEntries {F : Type*} [DecidableEq F] [OfNat β 0] {κ : Kmalloc β}
    {quantum qset : Int} (hgeo : GeometryOk quantum qset) {as : List (Act F β)} {s : Sys F β}
    (hs : exec (Sys.step κ) (Sys.loaded quantum qset) as = .ok s)
    (hκ : ∀ k ≥ s.driver.nalloc, (κ k).isSome) {p : ℕ} {b : List β} (hb : b ≠ [])
    (hlt : p + b.length < 2147483648) :
    s.driver.StoresBack κ p b ↔ s.driver.InEntries p b.length := by
  obtain ⟨q, n, hu⟩ := (inv_run hgeo hs).usable
  exact hu.storesBack_iff hκ hb hlt

def gap : List (Act ℕ Byte) :=
  [.opens 0 true true false, .llseek 0 9 0, .write 0 [5] false none]

theorem storesBack_gap :
    ∃ s, exec (Sys.step ample) (Sys.loaded 4 2) gap = .ok s ∧
      s.driver.StoresBack ample 3 [7, 8, 9] := by
  have hgeo : GeometryOk 4 2 := by decide
  have hdev : (exec (Sys.step ample) (Sys.loaded 4 2) gap).map
      (fun s => (s.driver.dev.quantum, s.driver.dev.qset)) = .ok (4, 2) := by decide
  obtain ⟨s, hrun, hs⟩ := Outcome.map_eq_ok.mp hdev
  rw [Prod.mk.injEq] at hs
  have hκ : ∀ k ≥ s.driver.nalloc, (ample k).isSome := fun _ _ => rfl
  refine ⟨s, hrun, (storesBack_iff_inEntries hgeo hrun hκ (by decide) (by decide)).mpr ?_⟩
  intro x hx hx'
  have hentries : entries 2 = 2 := by decide
  rw [hs.1, hs.2, hentries]
  omega

/-- The byte count of an array of `2 ^ 30` pointers is zero, so the first write already leaves the
array. -/
theorem string_lost_in_wrapped_array :
    GeometryOk 1 1073741824 ∧
      ¬(Driver.loaded 1 1073741824 : Driver Byte).StoresBack ample 0 [7] := by
  refine ⟨by decide, ?_⟩
  rintro ⟨d, hrun, -⟩
  have hnone : (Driver.loaded 1 1073741824 : Driver Byte).writeAll ample 1 0 [7] = none := by
    decide
  cases hnone.symm.trans hrun

end KernelExperiment.Scull
