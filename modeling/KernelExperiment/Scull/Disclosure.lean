import KernelExperiment.Scull.Geometry
import KernelExperiment.Scull.Relabel

/-! What reads of the bare device can tell about the memory that `kmalloc` handed out. A quantum is
not cleared, so a byte of it that the size covers must have been written; and behind a pointer array
whose byte count has wrapped around there is memory of others. -/

namespace KernelExperiment.Scull
open Kernel Runs Blocks Region

variable {F β γ : Type*}

def Driver.Allocated (d : Driver β) (x : ℕ) : Prop :=
  (d.blocks d.dev.qset.toNat (x / d.dev.quantum.toNat)).isSome

instance (d : Driver β) (x : ℕ) : Decidable (d.Allocated x) :=
  inferInstanceAs (Decidable (_ = true))

namespace Sys

/-- The byte count `dev->qset * sizeof(char *)` of a pointer array does not wrap around, and after a
write of `count` bytes at `fPos` everything below the size in the quantum of `fPos` and in the other
quanta has been written since the last trim. -/
def FillsGaps (s : Sys F β) (fPos : Int) (count : ℕ) (fault : Option ℕ) : Prop :=
  let p := fPos.toNat
  let n := storeLen s.driver.dev.quantum fPos count
  let size := if copyOk n fault then max s.driver.dev.size (p + n) else s.driver.dev.size
  s.driver.dev.qset < 1073741824 ∧
    ∀ x < size, x / s.driver.dev.quantum.toNat = p / s.driver.dev.quantum.toNat ∨
      s.driver.Allocated x → mark s.written p n x = true

instance (s : Sys F β) (fPos : Int) (count : ℕ) (fault : Option ℕ) :
    Decidable (s.FillsGaps fPos count fault) :=
  inferInstanceAs (Decidable (_ ∧ ∀ x < _, _ ∨ _ → _))

def WritesFillGaps (s : Sys F β) : Act F β → Prop
  | .write f buf false fault => ∀ file ∈ s.files f, s.FillsGaps file.fPos buf.length fault
  | _ => True

instance decidableWritesFillGaps (s : Sys F β) : ∀ a, Decidable (s.WritesFillGaps a)
  | .write f buf false fault =>
    inferInstanceAs (Decidable (∀ file ∈ s.files f, s.FillsGaps file.fPos buf.length fault))
  | .write _ _ true _ => isTrue trivial
  | .opens .. => isTrue trivial
  | .ioctl _ => isTrue trivial
  | .llseek .. => isTrue trivial
  | .read .. => isTrue trivial

/-- The bytes that a read returns have been written since the last trim. -/
def ReadsWritten (s : Sys F β) (a : Act F β) (t : Sys F β) : Prop :=
  match a with
  | .read f .. => ∀ file ∈ s.files f, ∀ bs, t.results = s.results ++ [.bytes bs] →
      ∀ i < bs.length, s.written (file.fPos.toNat + i) = true
  | _ => True

end Sys

/-! One run: the bytes that can be read are among those that were written. -/

theorem mem_copiedIn [OfNat β 0] {user : List β} {fault : Option ℕ} {b : β}
    (h : b ∈ copiedIn user fault) : b ∈ user ∨ b = 0 := by
  cases fault with
  | none => exact Or.inl h
  | some k =>
    rcases List.mem_append.mp h with hb | hb
    · exact Or.inl (List.mem_of_mem_take hb)
    · exact Or.inr (List.eq_of_mem_replicate hb)

theorem mark_iff {written : ℕ → Bool} {p n x : ℕ} :
    mark written p n x = true ↔ written x = true ∨ p ≤ x ∧ x < p + n := by
  simp [mark]

section
variable {q n p : ℕ} {d d' : Driver β}

theorem Usable.allocated_iff (h : Usable q n d) {x : ℕ} :
    d.Allocated x ↔ (d.blocks n (x / q)).isSome := by
  rw [Driver.Allocated, h.quantum_eq, h.qset_eq, Int.toNat_natCast, Int.toNat_natCast]

theorem Usable.reads_cells (h : Usable q n d) {count : ℕ} {fault : Option ℕ}
    {r : Except Errno (List β)} (hr : Driver.Reads d q n p count fault (some (r, d'))) :
    d'.blocks n = d.blocks n ∧ d'.dev.size = d.dev.size ∧
      ∀ bs, r = .ok bs → ∀ i < bs.length,
        p + i < d.dev.size ∧ cell q (d.blocks n) (p + i) = bs[i]? := by
  generalize hres : (some (r, d') : Option (Except Errno (List β) × Driver β)) = res at hr
  cases hr with
  | eof =>
    cases hres
    refine ⟨rfl, rfl, fun bs hbs i hi => ?_⟩
    cases hbs
    cases hi
  | hole _ _ hd =>
    cases hres
    refine ⟨hd.blocks, hd.size, fun bs hbs i hi => ?_⟩
    cases hbs
    cases hi
  | outside => cases hres
  | @copied b m hlt hb hm =>
    cases hres
    obtain ⟨-, hlen⟩ := h.sized.lt_of_lookup hb
    have hmod := Nat.mod_lt p h.geom.quantum_pos
    refine ⟨rfl, rfl, fun bs hbs i hi => ?_⟩
    split_ifs at hbs with hok
    cases hbs
    have hi' : i < m := by
      rw [List.length_take] at hi
      omega
    exact ⟨by omega, (getElem?_range hb (by omega) hi').symm⟩

theorem Usable.writes_enomem [OfNat β 0] {κ : Kmalloc β} {buf : List β} {fault : Option ℕ}
    (hw : Driver.Writes κ d q n p buf fault (some (.error .enomem, d'))) :
    d'.blocks n = d.blocks n ∧ d'.dev.size = d.dev.size := by
  generalize hres : (some (Except.error Errno.enomem, d') :
    Option (Except Errno ℕ × Driver β)) = res at hw
  cases hw with
  | enomem _ hd =>
    cases hres
    exact ⟨hd.blocks, hd.size⟩
  | outside => cases hres
  | copied => split_ifs at hres with hok <;> cases hres

/-- The bytes that writes have stored satisfy `C`, and no other byte is below the size. -/
structure Known (C : β → Prop) (q n : ℕ) (d : Driver β) (written : ℕ → Bool) : Prop where
  usable : Usable q n d
  stored : ∀ x, written x = true → ∃ c, cell q (d.blocks n) x = some c ∧ C c
  covered : ∀ x < d.dev.size, ∀ c, cell q (d.blocks n) x = some c → written x = true

namespace Known

variable {C : β → Prop} {written : ℕ → Bool}

theorem sameBlocks (h : Known C q n d written) (hu : Usable q n d')
    (hb : d'.blocks n = d.blocks n) (hsize : d'.dev.size = d.dev.size) : Known C q n d' written :=
  ⟨hu, by rw [hb]; exact h.stored, by rw [hb, hsize]; exact h.covered⟩

theorem trim (h : Known C q n d written) (ht : d.scullTrim = some d') :
    ∃ q n, Known C q n d' fun _ => false := by
  obtain ⟨q', n', hu⟩ := h.usable.trim ht
  obtain ⟨freed, -, rfl⟩ := Option.map_eq_some_iff.mp ht
  exact ⟨q', n', hu, fun x hx => absurd hx Bool.false_ne_true, fun x hx => by cases hx⟩

theorem ioctl (h : Known C q n d written) {cmd : Ioctl}
    (hok : GeometryOk (d.ioctl cmd).scullQuantum (d.ioctl cmd).scullQset) :
    Known C q n (d.ioctl cmd) written := by
  have hu := h.usable.ioctl hok
  cases cmd <;> exact ⟨hu, h.stored, h.covered⟩

/-- A write that stores makes its range known; the rest of its quantum must have been so before, or
the gap condition fails. -/
theorem write [OfNat β 0] (h : Known C q n d written) (hp : p < 2147483648) {κ : Kmalloc β}
    {buf : List β} {fault : Option ℕ} {r : Except Errno ℕ}
    (hw : Driver.Writes κ d q n p buf fault (some (r, d'))) (hr : r ≠ .error .enomem)
    (h0 : C 0) (hbuf : ∀ b ∈ buf, C b)
    (hfill : ∀ x < (if copyOk (min buf.length (q - p % q)) fault then
        max d.dev.size (p + min buf.length (q - p % q)) else d.dev.size),
      x / q = p / q ∨ (d.blocks n (x / q)).isSome →
        mark written p (min buf.length (q - p % q)) x = true) :
    Known C q n d' (mark written p (min buf.length (q - p % q))) := by
  have hu := h.usable.of_writes hp hw
  generalize hres : (some (r, d') : Option (Except Errno ℕ × Driver β)) = res at hw
  cases hw with
  | enomem =>
    cases hres
    exact absurd rfl hr
  | outside => cases hres
  | @copied _ old m hj hold hlen hm hd hk hs hb hsize =>
    cases hres
    rw [← hm] at hfill ⊢
    obtain ⟨bs, hbs⟩ : ∃ bs, bs = copiedIn (buf.take m) fault := ⟨_, rfl⟩
    have hbslen : bs.length = m := by
      rw [hbs, length_copiedIn, List.length_take]
      omega
    have hmod := Nat.mod_lt p h.usable.geom.quantum_pos
    have hcell := cell_write (d.blocks n) p bs hlen (by omega)
    rw [hbs, ← hb, ← hbs, hbslen] at hcell
    refine ⟨hu, fun x hx => ?_, fun x hx c hc => ?_⟩
    · rw [hcell]
      rcases em (p ≤ x ∧ x < p + m) with hin | hout
      · have hlt : x - p < bs.length := by omega
        rw [if_pos hin, List.getElem?_eq_getElem hlt]
        refine ⟨_, rfl, ?_⟩
        have hmem : bs[x - p] ∈ copiedIn (buf.take m) fault := hbs ▸ List.getElem_mem hlt
        rcases mem_copiedIn hmem with hb' | hb'
        · exact hbuf _ (List.mem_of_mem_take hb')
        · rw [hb']
          exact h0
      · rw [if_neg hout]
        obtain ⟨c, hc, hC⟩ := h.stored x ((mark_iff.mp hx).resolve_right hout)
        split_ifs with hblock
        · -- what was written in this quantum was there already, so the write kept it
          obtain ⟨b', hb', hget⟩ := Option.bind_eq_some_iff.mp hc
          rw [hblock] at hb'
          rw [← hold b' hb']
          exact ⟨c, hget, hC⟩
        · exact ⟨c, hc, hC⟩
    · -- below the new size, a byte outside the range has been written by the gap condition
      rw [hsize] at hx
      apply hfill x hx
      rcases eq_or_ne (x / q) (p / q) with he | hne
      · exact Or.inl he
      · obtain ⟨b', hb', -⟩ := Option.bind_eq_some_iff.mp hc
        rw [hb, Function.update_of_ne hne] at hb'
        exact Or.inr (by rw [hb']; rfl)

end Known
end

def Result.All (C : β → Prop) : Result β → Prop
  | bytes bs => ∀ b ∈ bs, C b
  | _ => True

def Act.All (C : β → Prop) : Act F β → Prop
  | write _ buf _ _ => ∀ b ∈ buf, C b
  | _ => True

/-- What is stored below the size is known, and everything read so far is. -/
structure Sys.Clean (C : β → Prop) (s : Sys F β) : Prop where
  known : ∃ q n, Known C q n s.driver s.written
  nonneg : ∀ f, ∀ file ∈ s.files f, 0 ≤ file.fPos
  results : ∀ r ∈ s.results, r.All C

namespace Sys.Clean

variable {C : β → Prop}

theorem inv {s : Sys F β} (h : s.Clean C) : s.Inv := by
  obtain ⟨q, n, hk⟩ := h.known
  exact ⟨⟨q, n, hk.usable⟩, h.nonneg⟩

theorem loaded {quantum qset : Int} (h : GeometryOk quantum qset) :
    (Sys.loaded quantum qset : Sys F β).Clean C := by
  refine ⟨?_, (Sys.Inv.loaded h).nonneg, fun r hr => by cases hr⟩
  obtain ⟨q, n, hu⟩ := usable_loaded h
  exact ⟨q, n, hu, fun x hx => absurd hx Bool.false_ne_true, fun x hx => by cases hx⟩

theorem append_results {results : List (Result β)} {r : Result β} (h : ∀ r ∈ results, r.All C)
    (hr : r.All C) : ∀ r' ∈ results ++ [r], r'.All C := by
  intro r' hr'
  rcases List.mem_append.mp hr' with hold | hnew
  · exact h r' hold
  · rw [List.mem_singleton.mp hnew]
    exact hr

theorem reply_inj {s t : Sys F β} {r r' : Result β} (hs : t.results = s.results)
    (h : (t.reply r).results = s.results ++ [r']) : r = r' := by
  have hlast : [r] = [r'] := List.append_cancel_left (hs ▸ h)
  exact List.singleton_inj.mp hlast

variable [DecidableEq F] [OfNat β 0] {κ : Kmalloc β} {s t : Sys F β} {a : Act F β}

omit [DecidableEq F] in
theorem wrote {q n : ℕ} (hk : Known C q n s.driver s.written) (h0 : C 0) {fPos : Int}
    (hpos : 0 ≤ fPos) (hlt : fPos < 2147483648) {buf : List β} (hbuf : ∀ b ∈ buf, C b)
    {fault : Option ℕ} (hfill : s.FillsGaps fPos buf.length fault) {r : Except Errno ℕ}
    {driver : Driver β} (hr : r ≠ .error .enomem)
    (hd : s.driver.scullWrite κ s.driver.dev.quantum s.driver.dev.qset fPos buf fault =
      some (r, driver)) :
    Known C q n driver (s.storedTo fPos buf.length driver).written := by
  obtain ⟨p, rfl, hp, hw, -⟩ := hk.usable.write hpos hlt hd
  have hg := hk.usable.geom
  simp only [FillsGaps, storedTo, hk.usable.quantum_eq, storeLen_natCast hg, Int.toNat_natCast,
    hk.usable.allocated_iff] at hfill ⊢
  exact hk.write hp hw hr h0 hbuf hfill.2

theorem step (h0 : C 0) (h : s.Clean C) (ha : a.All C) (hfill : s.WritesFillGaps a)
    (hs : Sys.step κ s a = .ok t) : t.Clean C := by
  have hinv : t.Inv := Sys.Inv.step h.inv hs
  obtain ⟨q, n, hk⟩ := h.known
  cases Sys.step_move hs with
  | fails => exact ⟨h.known, h.nonneg, append_results h.results trivial⟩
  | opened => exact ⟨h.known, hinv.nonneg, append_results h.results trivial⟩
  | trimmed hd => exact ⟨hk.trim hd, hinv.nonneg, append_results h.results trivial⟩
  | told hok => exact ⟨⟨q, n, hk.ioctl hok⟩, h.nonneg, append_results h.results trivial⟩
  | moved => exact ⟨h.known, hinv.nonneg, append_results h.results trivial⟩
  | readFails hf hpos hd =>
    obtain ⟨p, -, -, hr, hu⟩ := hk.usable.read (h.nonneg _ _ hf) hpos hd
    obtain ⟨hb, hsize, -⟩ := hk.usable.reads_cells hr
    exact ⟨⟨q, n, hk.sameBlocks hu hb hsize⟩, h.nonneg, append_results h.results trivial⟩
  | @read _ _ _ _ bs _ hf hpos hd =>
    obtain ⟨p, -, -, hr, hu⟩ := hk.usable.read (h.nonneg _ _ hf) hpos hd
    obtain ⟨hb, hsize, hcells⟩ := hk.usable.reads_cells hr
    have hclean : ∀ b ∈ bs, C b := by
      intro b hmem
      obtain ⟨i, hi, rfl⟩ := List.getElem_of_mem hmem
      obtain ⟨hlt, hcell⟩ := hcells bs rfl i hi
      rw [List.getElem?_eq_getElem hi] at hcell
      obtain ⟨c, hc, hC⟩ := hk.stored _ (hk.covered _ hlt _ hcell)
      rw [hcell, Option.some.injEq] at hc
      rwa [hc]
    exact ⟨⟨q, n, hk.sameBlocks hu hb hsize⟩, hinv.nonneg, append_results h.results hclean⟩
  | noMemory hf hpos hd =>
    obtain ⟨p, -, -, hw, hu⟩ := hk.usable.write (h.nonneg _ _ hf) hpos hd
    obtain ⟨hb, hsize⟩ := Usable.writes_enomem hw
    exact ⟨⟨q, n, hk.sameBlocks hu hb hsize⟩, h.nonneg, append_results h.results trivial⟩
  | writeFails hf hpos he hd =>
    have hne : ∀ e, e ≠ Errno.enomem → (Except.error e : Except Errno ℕ) ≠ .error .enomem :=
      fun e he heq => he (Except.error.inj heq)
    exact ⟨⟨q, n, wrote hk h0 (h.nonneg _ _ hf) hpos ha (hfill _ hf) (hne _ he) hd⟩, h.nonneg,
      append_results h.results trivial⟩
  | wrote hf hpos hd =>
    exact ⟨⟨q, n, wrote hk h0 (h.nonneg _ _ hf) hpos ha (hfill _ hf) (by simp) hd⟩, hinv.nonneg,
      append_results h.results trivial⟩

theorem readsWritten (h : s.Clean C) (hs : Sys.step κ s a = .ok t) : s.ReadsWritten a t := by
  obtain ⟨q, n, hk⟩ := h.known
  cases a with
  | read f count interrupted fault =>
    intro file hfile bs hbs i hi
    cases Sys.step_move hs with
    | fails => cases reply_inj rfl hbs
    | readFails => cases reply_inj rfl hbs
    | read hf hpos hd =>
      cases reply_inj rfl hbs
      cases hf.symm.trans hfile
      obtain ⟨p, hp, -, hr, -⟩ := hk.usable.read (h.nonneg _ _ hf) hpos hd
      obtain ⟨-, -, hcells⟩ := hk.usable.reads_cells hr
      obtain ⟨hlt, hcell⟩ := hcells bs rfl i hi
      rw [List.getElem?_eq_getElem hi] at hcell
      rw [hp, Int.toNat_natCast]
      exact hk.covered _ hlt _ hcell
  | _ => trivial

end Sys.Clean

/-! No access leaves its allocation while the writes fill their gaps. -/

theorem fitting_read [OfNat β 0] {q n : ℕ} {d : Driver β} (h : Overlap.Fitting q n d) {fPos : Int}
    (h0 : 0 ≤ fPos) (hlt : fPos < 2147483648) (κ : Kmalloc β) (count : ℕ) (fault : Option ℕ) :
    ∃ r d', d.scullRead κ d.dev.quantum d.dev.qset fPos count fault = some (r, d') ∧
      Overlap.Fitting q n d' := by
  have hpos : 0 ≤ (Overlap.Call.read fPos count : Overlap.Call β).fPos := h0
  have hup : (Overlap.Call.read fPos count : Overlap.Call β).UpToDate d d.dev.quantum d.dev.qset :=
    fun _ => ⟨rfl, rfl⟩
  obtain ⟨d', hd, hfit⟩ := h.runSection κ hpos hlt hup fault
  obtain ⟨⟨r, driver⟩, hrun, rfl⟩ := Option.map_eq_some_iff.mp hd
  exact ⟨r, driver, hrun, hfit⟩

theorem fitting_write [OfNat β 0] {q n : ℕ} {d : Driver β} (h : Overlap.Fitting q n d) {fPos : Int}
    (h0 : 0 ≤ fPos) (hlt : fPos < 2147483648) (hqset : d.dev.qset < 1073741824) (κ : Kmalloc β)
    (buf : List β) (fault : Option ℕ) :
    ∃ r d', d.scullWrite κ d.dev.quantum d.dev.qset fPos buf fault = some (r, d') ∧
      Overlap.Fitting q n d' := by
  have hpos : 0 ≤ (Overlap.Call.write fPos buf).fPos := h0
  have hup : (Overlap.Call.write fPos buf).UpToDate d d.dev.quantum d.dev.qset :=
    ⟨⟨rfl, rfl⟩, hqset⟩
  obtain ⟨d', hd, hfit⟩ := h.runSection κ hpos hlt hup fault
  obtain ⟨⟨r, driver⟩, hrun, rfl⟩ := Option.map_eq_some_iff.mp hd
  exact ⟨r, driver, hrun, hfit⟩

structure Sys.Fits (s : Sys F β) : Prop where
  inv : s.Inv
  fitting : ∃ q n, Overlap.Fitting q n s.driver

namespace Sys.Fits

theorem loaded {quantum qset : Int} (h : GeometryOk quantum qset) :
    (Sys.loaded quantum qset : Sys F β).Fits := by
  refine ⟨Sys.Inv.loaded h, ?_⟩
  obtain ⟨q, n, hu⟩ := usable_loaded h
  exact ⟨q, n, hu, Sized.nil _ _, Or.inr rfl⟩

variable [DecidableEq F] [OfNat β 0] {κ : Kmalloc β} {s t : Sys F β} {a : Act F β}

theorem call (h : s.Fits) (κ : Kmalloc β) (hfill : s.WritesFillGaps a) :
    Sys.step κ s a = .blocked ∨
      ∃ t, Sys.step κ s a = .ok t ∧ ∃ q n, Overlap.Fitting q n t.driver := by
  obtain ⟨q, n, hfit⟩ := h.fitting
  cases a with
  | opens f read write interrupted =>
    rw [Sys.step]
    split_ifs with hopen hint
    · exact Or.inl rfl
    · exact Or.inr ⟨_, rfl, q, n, hfit⟩
    · rw [scullOpen]
      split_ifs with htrims
      · -- the trim frees dev->qset entries of each array, which are all there
        have htotal := Overlap.scullTrim_of_sized hfit.usable.qset_eq hfit.sized
        obtain ⟨driver, htrim⟩ := Option.isSome_iff_exists.mp htotal
        rw [htrim]
        exact Or.inr ⟨_, rfl, hfit.trim htrim⟩
      · exact Or.inr ⟨_, rfl, q, n, hfit⟩
  | ioctl cmd =>
    rw [Sys.step]
    split_ifs with hok
    · exact Or.inr ⟨_, rfl, q, n, hfit.ioctl hok⟩
    · exact Or.inl rfl
  | llseek f off whence =>
    rw [Sys.step, Sys.call]
    split
    · exact Or.inl rfl
    · rw [Op.perform]
      split <;> exact Or.inr ⟨_, rfl, q, n, hfit⟩
  | read f count interrupted fault =>
    rw [Sys.step, Sys.call]
    split
    · exact Or.inl rfl
    · rename_i file hfile
      rw [Op.perform]
      split_ifs with hout hint
      · exact Or.inl rfl
      · exact Or.inr ⟨_, rfl, q, n, hfit⟩
      · obtain ⟨r, driver, hrun, hfit'⟩ :=
          fitting_read hfit (h.inv.nonneg f file hfile) (by omega) κ count fault
        rw [hrun]
        cases r <;> exact Or.inr ⟨_, rfl, q, n, hfit'⟩
  | write f buf interrupted fault =>
    rw [Sys.step, Sys.call]
    split
    · exact Or.inl rfl
    · rename_i file hfile
      rw [Op.perform]
      split_ifs with hout hint
      · exact Or.inl rfl
      · exact Or.inr ⟨_, rfl, q, n, hfit⟩
      · rw [Bool.not_eq_true] at hint
        subst hint
        have hqset := (hfill file hfile).1
        obtain ⟨r, driver, hrun, hfit'⟩ :=
          fitting_write hfit (h.inv.nonneg f file hfile) (by omega) hqset κ buf fault
        rw [hrun]
        cases r <;> exact Or.inr ⟨_, rfl, q, n, hfit'⟩

theorem step (h : s.Fits) (hfill : s.WritesFillGaps a) (hs : Sys.step κ s a = .ok t) : t.Fits := by
  refine ⟨h.inv.step hs, ?_⟩
  rcases h.call κ hfill with hb | ⟨t', ht, hfit⟩
  · cases hs.symm.trans hb
  · cases hs.symm.trans ht
    exact hfit

theorem no_fault (h : s.Fits) (hfill : s.WritesFillGaps a) : Sys.step κ s a ≠ .fault := by
  rcases h.call κ hfill with hb | ⟨t, ht, -⟩ <;> simp [*]

end Sys.Fits

/-! Two runs: they are the two halves of one run over pairs of bytes. -/

/-- A byte of each of two runs. -/
structure Twin where
  left : Byte
  right : Byte

instance : OfNat Twin 0 := ⟨{ left := 0, right := 0 }⟩

namespace Twin

def same (b : Byte) : Twin := { left := b, right := b }

def kmalloc (κ₁ κ₂ : Kmalloc Byte) : Kmalloc Twin := fun k =>
  match κ₁ k, κ₂ k with
  | some c₁, some c₂ => some fun i => { left := c₁ i, right := c₂ i }
  | _, _ => none

variable {κ₁ κ₂ : Kmalloc Byte}

theorem relabel_kmalloc (h : ∀ k, (κ₁ k).isSome = (κ₂ k).isSome) :
    relabel left (kmalloc κ₁ κ₂) = κ₁ ∧ relabel right (kmalloc κ₁ κ₂) = κ₂ := by
  have hk : ∀ k, relabel left (kmalloc κ₁ κ₂) k = κ₁ k ∧
      relabel right (kmalloc κ₁ κ₂) k = κ₂ k := by
    intro k
    have hsome := h k
    rw [relabel, relabel, kmalloc]
    generalize κ₁ k = c₁ at hsome ⊢
    generalize κ₂ k = c₂ at hsome ⊢
    rcases c₁ with _ | c₁ <;> rcases c₂ with _ | c₂
    · exact ⟨rfl, rfl⟩
    · cases hsome
    · cases hsome
    · exact ⟨rfl, rfl⟩
  exact ⟨funext fun k => (hk k).1, funext fun k => (hk k).2⟩

theorem map_same {f : Twin → Byte} (hf : ∀ b, f (same b) = b) (a : Act F Byte) :
    (a.map same).map f = a := by
  have hbuf : ∀ buf : List Byte, (buf.map same).map f = buf := by
    intro buf
    rw [List.map_map]
    exact (List.map_congr_left fun b _ => hf b).trans (List.map_id buf)
  cases a with
  | write g buf interrupted fault => exact congrArg (Act.write g · interrupted fault) (hbuf buf)
  | _ => rfl

theorem all_same (a : Act F Byte) : (a.map same).All fun b => b.left = b.right := by
  cases a with
  | write g buf interrupted fault =>
    intro b hb
    obtain ⟨c, -, rfl⟩ := List.mem_map.mp hb
    rfl
  | _ => trivial

theorem map_left_eq {r : Result Twin} (h : r.All fun b => b.left = b.right) :
    r.map left = r.map right := by
  cases r with
  | bytes bs => exact congrArg Result.bytes (List.map_congr_left h)
  | _ => rfl

theorem map_acts {f : Twin → Byte} (hf : ∀ b, f (same b) = b) (as : List (Act F Byte)) :
    (as.map (Act.map same)).map (Act.map f) = as := by
  rw [List.map_map]
  exact (List.map_congr_left fun a _ => map_same hf a).trans (List.map_id as)

/-- Either half of a run over pairs is a run of its own. -/
theorem exec_half [DecidableEq F] {f : Twin → Byte} (h0 : f 0 = 0) (hf : ∀ b, f (same b) = b)
    (κ : Kmalloc Twin) (quantum qset : Int) (as : List (Act F Byte)) :
    exec (Sys.step (relabel f κ)) (Sys.loaded quantum qset) as =
      (exec (Sys.step κ) (Sys.loaded quantum qset) (as.map (Act.map same))).map (Sys.map f) := by
  have hrun : exec (Sys.step (relabel f κ)) ((Sys.loaded quantum qset).map f)
      ((as.map (Act.map same)).map (Act.map f)) = _ := exec_map (Sys.step_map f h0 κ)
  rwa [map_acts hf, Sys.loaded_map] at hrun

end Twin

theorem writesFillGaps_map (f : β → γ) (s : Sys F β) (a : Act F β) :
    (s.map f).WritesFillGaps (a.map f) ↔ s.WritesFillGaps a := by
  have hallocated : ∀ x, (s.driver.map f).Allocated x ↔ s.driver.Allocated x := by
    intro x
    simp only [Driver.Allocated, Driver.blocks, Driver.map, lookup_map, Option.isSome_map]
  have hfills : ∀ fPos count fault, (s.map f).FillsGaps fPos count fault ↔
      s.FillsGaps fPos count fault := by
    intro fPos count fault
    refine and_congr Iff.rfl (forall_congr' fun x => imp_congr_right fun _ => imp_congr_left ?_)
    exact or_congr_right (hallocated x)
  cases a with
  | write g buf interrupted fault =>
    cases interrupted with
    | true => exact Iff.rfl
    | false =>
      simp only [Act.map, Sys.WritesFillGaps, List.length_map]
      exact forall_congr' fun file => imp_congr_right fun _ => hfills ..
  | _ => exact Iff.rfl

variable [DecidableEq F] {quantum qset : Int}

theorem clean_run [OfNat β 0] {C : β → Prop} (h0 : C 0) (hgeo : GeometryOk quantum qset)
    {κ : Kmalloc β} {as : List (Act F β)} {s : Sys F β} (ha : ∀ a ∈ as, a.All C)
    (hfill : Meets (Sys.step κ) Sys.WritesFillGaps (Sys.loaded quantum qset) as)
    (hs : exec (Sys.step κ) (Sys.loaded quantum qset) as = .ok s) : s.Clean C :=
  meets_invariant (fun _ _ _ hc hg => hc.step h0 hg.2 hg.1) (Sys.Clean.loaded hgeo)
    (hfill.and_forall ha) hs

theorem readsWritten_run [OfNat β 0] (hgeo : GeometryOk quantum qset) {κ : Kmalloc β}
    {as : List (Act F β)}
    (hfill : Meets (Sys.step κ) Sys.WritesFillGaps (Sys.loaded quantum qset) as) :
    Meets (Sys.step κ) (Ensures (Sys.step κ) Sys.ReadsWritten) (Sys.loaded quantum qset) as := by
  have hany : ∀ a : Act F β, a.All fun _ => True := by
    intro a
    cases a <;> simp [Act.All]
  have hclean : (Sys.loaded quantum qset : Sys F β).Clean fun _ => True := Sys.Clean.loaded hgeo
  exact hfill.imp (fun s a t hc hg hs => hc.step trivial (hany a) hg hs)
    (fun s a hc _ t hs => hc.readsWritten hs) hclean

/-- As long as every write fills its gaps, no access leaves its allocation, two runs that differ in
the contents of fresh memory get the same results, and their reads return written bytes. -/
theorem sameResults_of_writesFillGaps (hgeo : GeometryOk quantum qset) {κ₁ κ₂ : Kmalloc Byte}
    (hκ : ∀ k, (κ₁ k).isSome = (κ₂ k).isSome) {as : List (Act F Byte)}
    (hfill : Meets (Sys.step κ₁) Sys.WritesFillGaps (Sys.loaded quantum qset) as) :
    exec (Sys.step κ₁) (Sys.loaded quantum qset) as ≠ .fault ∧
      (exec (Sys.step κ₁) (Sys.loaded quantum qset) as).map Sys.results =
        (exec (Sys.step κ₂) (Sys.loaded quantum qset) as).map Sys.results ∧
      Meets (Sys.step κ₁) (Ensures (Sys.step κ₁) Sys.ReadsWritten) (Sys.loaded quantum qset)
        as := by
  have hsafe : exec (Sys.step κ₁) (Sys.loaded quantum qset) as ≠ .fault :=
    meets_no_fault (fun _ _ _ h hg hs => h.step hg hs) (fun _ _ h => h.no_fault)
      (Sys.Fits.loaded hgeo) hfill
  refine ⟨hsafe, ?_, readsWritten_run hgeo hfill⟩
  obtain ⟨κ, hκ'⟩ : ∃ κ, κ = Twin.kmalloc κ₁ κ₂ := ⟨_, rfl⟩
  obtain ⟨hleft, hright⟩ := Twin.relabel_kmalloc hκ
  rw [← hκ'] at hleft hright
  have hrun₁ := Twin.exec_half (f := Twin.left) rfl (fun _ => rfl) κ quantum qset as
  have hrun₂ := Twin.exec_half (f := Twin.right) rfl (fun _ => rfl) κ quantum qset as
  have hboth : Meets (Sys.step (relabel Twin.left κ)) Sys.WritesFillGaps
      ((Sys.loaded quantum qset).map Twin.left)
      ((as.map (Act.map Twin.same)).map (Act.map Twin.left)) ↔ _ :=
    meets_map (Sys.step_map Twin.left rfl κ) (writesFillGaps_map Twin.left)
  rw [Twin.map_acts fun _ => rfl, hleft, Sys.loaded_map] at hboth
  rw [hleft] at hrun₁
  rw [hright] at hrun₂
  rw [hrun₁, hrun₂, Outcome.map_map, Outcome.map_map]
  -- in the run over pairs, every byte that is read has equal halves
  apply Outcome.map_congr
  intro s hs
  have hall : ∀ a ∈ as.map (Act.map Twin.same), a.All fun b => b.left = b.right := by
    intro a ha
    obtain ⟨a', -, rfl⟩ := List.mem_map.mp ha
    exact Twin.all_same a'
  have hzero : (0 : Twin).left = (0 : Twin).right := rfl
  have hclean := clean_run (C := fun b => b.left = b.right) hzero hgeo hall (hboth.mp hfill) hs
  exact List.map_congr_left fun r hr => Twin.map_left_eq (hclean.results r hr)

def gapless : List (Act ℕ Byte) :=
  [.opens 0 true true false, .write 0 [1, 2] false none, .llseek 0 1 0, .write 0 [5] false none,
    .llseek 0 0 0, .read 0 9 false none]

def counting : Kmalloc Byte := fun _ => some fun i => UInt8.ofNat i

theorem sameResults_gapless :
    exec (Sys.step ample) (Sys.loaded 3 2) gapless ≠ .fault ∧
      (exec (Sys.step ample) (Sys.loaded 3 2) gapless).map Sys.results =
        (exec (Sys.step counting) (Sys.loaded 3 2) gapless).map Sys.results ∧
      Meets (Sys.step ample) (Ensures (Sys.step ample) Sys.ReadsWritten) (Sys.loaded 3 2)
        gapless := by
  have hgeo : GeometryOk 3 2 := by decide
  have hκ : ∀ k, (ample k).isSome = (counting k).isSome := fun _ => rfl
  have hfill : Meets (Sys.step ample) Sys.WritesFillGaps (Sys.loaded 3 2) gapless := by decide
  exact sameResults_of_writesFillGaps hgeo hκ hfill

def behindGap : List (Act ℕ Byte) :=
  [.opens 0 true true false, .llseek 0 1 0, .write 0 [7] false none, .llseek 0 0 0,
    .read 0 1 false none]

theorem read_discloses_quantum :
    (exec (Sys.step ample) (Sys.loaded 3 2) behindGap).map Sys.results ≠
      (exec (Sys.step counting) (Sys.loaded 3 2) behindGap).map Sys.results := by
  decide

end KernelExperiment.Scull
