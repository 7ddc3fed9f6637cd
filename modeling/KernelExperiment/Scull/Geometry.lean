import KernelExperiment.Scull.Ownership

/-! Calls of any number of processes on the bare device at once. `scull_read` and `scull_write` load
the geometry of the device before they take its semaphore, so a trim can come in between. As long as
no section works with a geometry that is out of date, and no pointer array has its byte count wrap
around, everything allocated fits the geometry of the device. -/

namespace KernelExperiment.Scull.Overlap
open Kernel Runs

variable {P β : Type*}

inductive Call (β : Type*) where
  | read (fPos : Int) (count : ℕ)
  | write (fPos : Int) (buf : List β)

namespace Call

def fPos : Call β → Int
  | read fPos _ => fPos
  | write fPos _ => fPos

/-- From `down_interruptible` to `up`. -/
def runSection [OfNat β 0] (κ : Kmalloc β) (call : Call β) (d : Driver β) (quantum qset : Int)
    (fault : Option ℕ) : Option (Driver β) :=
  match call with
  | read fPos count => (d.scullRead κ quantum qset fPos count fault).map Prod.snd
  | write fPos buf => (d.scullWrite κ quantum qset fPos buf fault).map Prod.snd

/-- The geometry is the one the device has, if the section uses it at all, and a write that may need
a pointer array can get all of its entries. -/
def UpToDate (call : Call β) (d : Driver β) (quantum qset : Int) : Prop :=
  match call with
  | read fPos _ => fPos < d.dev.size → quantum = d.dev.quantum ∧ qset = d.dev.qset
  | write .. => (quantum = d.dev.quantum ∧ qset = d.dev.qset) ∧ qset < 1073741824

instance (call : Call β) (d : Driver β) (quantum qset : Int) :
    Decidable (call.UpToDate d quantum qset) :=
  match call with
  | read .. => inferInstanceAs (Decidable (_ → _))
  | write .. => inferInstanceAs (Decidable (_ ∧ _))

end Call

/-- How far a process is in a call: the initialisers of `quantum` and `qset` are two loads. -/
inductive Pc (β : Type*) where
  | idle
  | loadedQuantum (call : Call β) (quantum : Int)
  | loaded (call : Call β) (quantum qset : Int)

def Pc.call : Pc β → Option (Call β)
  | idle => none
  | loadedQuantum call _ => some call
  | loaded call _ _ => some call

structure Sys (P β : Type*) where
  driver : Driver β
  pcs : P → Pc β

/-- Of the opens only the write-only ones that get the semaphore do anything to the device. -/
inductive Act (P β : Type*) where
  | enter (p : P) (call : Call β)
  | loadQset (p : P)
  | transfer (p : P) (interrupted : Bool) (fault : Option ℕ)
  | opensWriteOnly
  | ioctl (cmd : Ioctl)

namespace Sys

def loaded (quantum qset : Int) : Sys P β :=
  { driver := Driver.loaded quantum qset, pcs := fun _ => .idle }

variable [DecidableEq P]

def goto (s : Sys P β) (p : P) (pc : Pc β) : Sys P β :=
  { s with pcs := Function.update s.pcs p pc }

/-- Positions from `2 ^ 31` on and ioctls that leave an unusable geometry are left out. -/
def step [OfNat β 0] (κ : Kmalloc β) (s : Sys P β) : Act P β → Outcome (Sys P β)
  | .enter p call =>
    match s.pcs p with
    | .idle =>
      if 0 ≤ call.fPos ∧ call.fPos < 2147483648 then
        .ok (s.goto p (.loadedQuantum call s.driver.dev.quantum))
      else .blocked
    | _ => .blocked
  -- an ioctl or a trim can come between the two loads, and before the semaphore is taken
  | .loadQset p =>
    match s.pcs p with
    | .loadedQuantum call quantum => .ok (s.goto p (.loaded call quantum s.driver.dev.qset))
    | _ => .blocked
  | .transfer p interrupted fault =>
    match s.pcs p with
    | .loaded call quantum qset =>
      if interrupted then .ok (s.goto p .idle)
      else
        match call.runSection κ s.driver quantum qset fault with
        | none => .fault
        | some driver => .ok ({ s with driver }.goto p .idle)
    | _ => .blocked
  | .opensWriteOnly =>
    match s.driver.scullTrim with
    | none => .fault
    | some driver => .ok { s with driver }
  | .ioctl cmd =>
    let driver := s.driver.ioctl cmd
    if GeometryOk driver.scullQuantum driver.scullQset then .ok { s with driver } else .blocked

def SectionsUpToDate (s : Sys P β) : Act P β → Prop
  | .transfer p false _ =>
    match s.pcs p with
    | .loaded call quantum qset => call.UpToDate s.driver quantum qset
    | _ => True
  | _ => True

instance decidableSectionsUpToDate (s : Sys P β) : ∀ a, Decidable (s.SectionsUpToDate a)
  | .transfer p false _ =>
    match h : s.pcs p with
    | .loaded call quantum qset =>
      decidable_of_iff (call.UpToDate s.driver quantum qset) (by simp only [SectionsUpToDate, h])
    | .loadedQuantum .. => isTrue (by simp only [SectionsUpToDate, h])
    | .idle => isTrue (by simp only [SectionsUpToDate, h])
  | .transfer _ true _ => isTrue trivial
  | .enter .. => isTrue trivial
  | .loadQset _ => isTrue trivial
  | .opensWriteOnly => isTrue trivial
  | .ioctl _ => isTrue trivial

end Sys

/-- Every pointer array has `dev->qset` entries and every quantum `dev->quantum` bytes. -/
def Agrees (d : Driver β) : Prop :=
  ∀ dptr ∈ d.dev.data, ∀ arr ∈ dptr.data, (arr.slots.length : Int) = d.dev.qset ∧
    ∀ slot ∈ arr.slots, ∀ qm ∈ slot, (qm.bytes.length : Int) = d.dev.quantum

instance (d : Driver β) : Decidable (Agrees d) :=
  inferInstanceAs (Decidable (∀ dptr ∈ d.dev.data, ∀ arr ∈ dptr.data, _ ∧
    ∀ slot ∈ arr.slots, ∀ qm ∈ slot, _))

theorem agrees_iff {d : Driver β} {q n : ℕ} (hq : d.dev.quantum = q) (hn : d.dev.qset = n) :
    Agrees d ↔ Sized q n d.dev.data := by
  simp only [Agrees, hq, hn, Int.ofNat_inj]
  constructor
  · intro h
    exact ⟨fun dptr hd arr ha => (h dptr hd arr ha).1, fun dptr hd arr ha => (h dptr hd arr ha).2⟩
  · intro h dptr hd arr ha
    exact ⟨h.arrays dptr hd arr ha, h.quanta dptr hd arr ha⟩

theorem scullTrim_of_sized {d : Driver β} {q n : ℕ} (hn : d.dev.qset = n)
    (hs : Sized q n d.dev.data) : (d.scullTrim).isSome := by
  rw [scullTrim_of_whole hn hs.arrays]
  rfl

/-- The device is laid out for its geometry, and where the arrays of that geometry would wrap around
nothing has been stored. -/
structure Fitting (q n : ℕ) (d : Driver β) : Prop where
  usable : Usable q n d
  sized : Sized q n d.dev.data
  stores : n < 1073741824 ∨ d.dev.size = 0

namespace Fitting
open Driver

variable {q n p : ℕ} {d d' : Driver β}

theorem agrees (h : Fitting q n d) : Agrees d :=
  (agrees_iff h.usable.quantum_eq h.usable.qset_eq).mpr h.sized

theorem trim (h : Fitting q n d) (ht : d.scullTrim = some d') : ∃ q n, Fitting q n d' := by
  obtain ⟨q', n', hu⟩ := h.usable.trim ht
  obtain ⟨freed, -, rfl⟩ := Option.map_eq_some_iff.mp ht
  exact ⟨q', n', hu, Sized.nil _ _, Or.inr rfl⟩

theorem ioctl (h : Fitting q n d) {cmd : Ioctl}
    (hok : GeometryOk (d.ioctl cmd).scullQuantum (d.ioctl cmd).scullQset) :
    Fitting q n (d.ioctl cmd) := by
  have hu := h.usable.ioctl hok
  cases cmd <;> exact ⟨hu, h.sized, h.stores⟩

theorem of_usable (h : Usable q n d) (hn : n < 1073741824) : Fitting q n d := by
  have hs := h.sized
  rw [entries_of_lt hn] at hs
  exact ⟨h, hs, Or.inl hn⟩

theorem runSection [OfNat β 0] (h : Fitting q n d) (κ : Kmalloc β) {call : Call β}
    (h0 : 0 ≤ call.fPos) (hlt : call.fPos < 2147483648) {quantum qset : Int}
    (hup : call.UpToDate d quantum qset) (fault : Option ℕ) :
    ∃ d', call.runSection κ d quantum qset fault = some d' ∧ Fitting q n d' := by
  obtain ⟨p, hp⟩ := Int.eq_ofNat_of_zero_le h0
  have hmod : p / q % n < n := Nat.mod_lt _ h.usable.geom.qset_pos
  cases call with
  | read fPos count =>
    rw [Call.fPos] at hp hlt
    rw [Call.runSection]
    rcases Int.lt_or_le fPos d.dev.size with hbefore | heof
    · obtain ⟨hq, hn⟩ := hup hbefore
      have hn' : n < 1073741824 := h.stores.resolve_right (by omega)
      subst hp
      have hr := h.usable.reads κ (by omega : p < 2147483648) count fault
      rw [hq, hn]
      generalize hres : d.scullRead κ d.dev.quantum d.dev.qset p count fault = res at hr
      cases hr with
      | outside _ hj =>
        rw [entries_of_lt hn'] at hj
        exact absurd hmod (Nat.not_lt.mpr hj)
      | eof => exact ⟨_, rfl, h⟩
      | hole _ _ hd => exact ⟨_, rfl, of_usable (h.usable.sameBlocks hd) hn'⟩
      | copied => exact ⟨_, rfl, h⟩
    · rw [Driver.scullRead, if_pos heof]
      exact ⟨d, rfl, h⟩
  | write fPos buf =>
    rw [Call.fPos] at hp hlt
    obtain ⟨⟨hq, hn⟩, hlt'⟩ := hup
    have hn' : n < 1073741824 := by
      have hqset := h.usable.qset_eq
      omega
    subst hp
    have hp' : p < 2147483648 := by omega
    have hw := h.usable.writes κ hp' buf fault
    rw [Call.runSection, hq, hn]
    generalize hres : d.scullWrite κ d.dev.quantum d.dev.qset p buf fault = res at hw
    rcases res with _ | ⟨r, d'⟩
    · cases hw with
      | outside hj =>
        rw [entries_of_lt hn'] at hj
        exact absurd hmod (Nat.not_lt.mpr hj)
    · exact ⟨d', rfl, of_usable (h.usable.of_writes hp' hw) hn'⟩

end Fitting

structure Sys.Inv (s : Sys P β) : Prop where
  fitting : ∃ q n, Fitting q n s.driver
  positions : ∀ p, ∀ call ∈ (s.pcs p).call, 0 ≤ call.fPos ∧ call.fPos < 2147483648

namespace Sys.Inv

theorem agrees {s : Sys P β} (h : s.Inv) : Agrees s.driver := by
  obtain ⟨q, n, hfit⟩ := h.fitting
  exact hfit.agrees

theorem loaded {quantum qset : Int} (h : GeometryOk quantum qset) :
    (Sys.loaded quantum qset : Sys P β).Inv := by
  refine ⟨?_, fun p call hc => by cases hc⟩
  obtain ⟨q, n, hu⟩ := usable_loaded h
  exact ⟨q, n, hu, Sized.nil _ _, Or.inr rfl⟩

variable [DecidableEq P]

theorem goto {s : Sys P β} (hpos : ∀ p, ∀ call ∈ (s.pcs p).call,
      0 ≤ call.fPos ∧ call.fPos < 2147483648) {p : P} {pc : Pc β}
    (hpc : ∀ call ∈ pc.call, 0 ≤ call.fPos ∧ call.fPos < 2147483648) (p' : P) :
    ∀ call ∈ ((s.goto p pc).pcs p').call, 0 ≤ call.fPos ∧ call.fPos < 2147483648 := by
  rcases eq_or_ne p' p with rfl | hne
  · have hself : (s.goto p' pc).pcs p' = pc := Function.update_self ..
    rwa [hself]
  · have hsame : (s.goto p pc).pcs p' = s.pcs p' := Function.update_of_ne hne ..
    rw [hsame]
    exact hpos p'

variable [OfNat β 0] {κ : Kmalloc β} {s t : Sys P β} {a : Act P β}

/-- A step whose section is up to date succeeds where the invariant holds, and keeps it. -/
theorem step_of_upToDate (h : s.Inv) (κ : Kmalloc β) (hup : s.SectionsUpToDate a) :
    Sys.step κ s a = .blocked ∨ ∃ t, Sys.step κ s a = .ok t ∧ t.Inv := by
  obtain ⟨q, n, hfit⟩ := h.fitting
  cases a with
  | enter p call =>
    rw [Sys.step]
    split
    · split_ifs with hpos
      · refine Or.inr ⟨_, rfl, h.fitting, goto h.positions fun call' hc => ?_⟩
        cases hc
        exact hpos
      · exact Or.inl rfl
    · exact Or.inl rfl
  | loadQset p =>
    rw [Sys.step]
    split
    · rename_i call quantum hpc
      refine Or.inr ⟨_, rfl, h.fitting, goto h.positions fun call' hc => ?_⟩
      exact h.positions p call' (by rw [hpc]; exact hc)
    · exact Or.inl rfl
  | transfer p interrupted fault =>
    rw [Sys.step]
    split
    · rename_i call quantum qset hpc
      have hpos := h.positions p call (by rw [hpc]; rfl)
      cases interrupted with
      | true =>
        rw [if_pos rfl]
        exact Or.inr ⟨_, rfl, h.fitting, goto h.positions fun call' hc => by cases hc⟩
      | false =>
        simp only [SectionsUpToDate, hpc] at hup
        obtain ⟨driver, hrun, hfit'⟩ := hfit.runSection κ hpos.1 hpos.2 hup fault
        rw [if_neg Bool.false_ne_true, hrun]
        refine Or.inr ⟨_, rfl, ⟨q, n, hfit'⟩, ?_⟩
        exact goto (s := { s with driver }) h.positions fun call' hc => by cases hc
    · exact Or.inl rfl
  | opensWriteOnly =>
    -- the trim frees dev->qset entries of each array, which are all there
    have htotal := scullTrim_of_sized hfit.usable.qset_eq hfit.sized
    obtain ⟨driver, htrim⟩ := Option.isSome_iff_exists.mp htotal
    rw [Sys.step, htrim]
    exact Or.inr ⟨_, rfl, hfit.trim htrim, h.positions⟩
  | ioctl cmd =>
    rw [Sys.step]
    split_ifs with hok
    · exact Or.inr ⟨_, rfl, ⟨q, n, hfit.ioctl hok⟩, h.positions⟩
    · exact Or.inl rfl

theorem step (h : s.Inv) (hup : s.SectionsUpToDate a) (hs : Sys.step κ s a = .ok t) : t.Inv := by
  rcases h.step_of_upToDate κ hup with hb | ⟨t', ht, hinv⟩
  · cases hs.symm.trans hb
  · cases hs.symm.trans ht
    exact hinv

theorem no_fault (h : s.Inv) (hup : s.SectionsUpToDate a) : Sys.step κ s a ≠ .fault := by
  rcases h.step_of_upToDate κ hup with hb | ⟨t, ht, -⟩ <;> simp [*]

end Sys.Inv

/-- In every interleaving whose sections are all up to date, no access leaves its allocation and in
every state the allocations fit the geometry of the device. -/
theorem fits_of_sectionsUpToDate [DecidableEq P] [OfNat β 0] {κ : Kmalloc β} {quantum qset : Int}
    (hgeo : GeometryOk quantum qset) {as : List (Act P β)}
    (hup : Meets (Sys.step κ) Sys.SectionsUpToDate (Sys.loaded quantum qset) as) :
    exec (Sys.step κ) (Sys.loaded quantum qset) as ≠ .fault ∧
      Always (Sys.step κ) (fun s => Agrees s.driver) (Sys.loaded quantum qset) as :=
  ⟨meets_no_fault (fun _ _ _ => Sys.Inv.step) (fun _ _ => Sys.Inv.no_fault)
      (Sys.Inv.loaded hgeo) hup,
    meets_always (fun _ _ _ => Sys.Inv.step) (fun _ => Sys.Inv.agrees) (Sys.Inv.loaded hgeo) hup⟩

def calm : List (Act ℕ Byte) :=
  [.enter 0 (.write 9 [1]), .enter 1 (.read 0 4), .loadQset 1, .loadQset 0, .transfer 0 false none,
    .transfer 1 false none, .ioctl (.tellQuantum 4), .opensWriteOnly, .enter 1 (.write 5 [2, 3]),
    .loadQset 1, .transfer 1 false none]

theorem fits_calm :
    exec (Sys.step ample) (Sys.loaded 2 3) calm ≠ .fault ∧
      Always (Sys.step ample) (fun s => Agrees s.driver) (Sys.loaded 2 3) calm :=
  fits_of_sectionsUpToDate (by decide) (by decide)

/-- A writer has loaded quantum 2, the globals are set to 4, a write-only open trims, and the writer
then allocates a quantum of 2 bytes in a device whose quanta have 4. -/
def overtaken : List (Act ℕ Byte) :=
  [.enter 0 (.write 0 [1]), .loadQset 0, .ioctl (.tellQuantum 4), .opensWriteOnly,
    .transfer 0 false none]

theorem stale_quantum_allocated :
    GeometryOk 2 3 ∧ ∃ s, exec (Sys.step ample) (Sys.loaded 2 3) overtaken = .ok s ∧
      ¬Agrees s.driver := by
  have hrun : (exec (Sys.step ample) (Sys.loaded 2 3) overtaken).map
      (fun s => decide (Agrees s.driver)) = .ok false := by decide
  obtain ⟨s, hs, hbad⟩ := Outcome.map_eq_ok.mp hrun
  exact ⟨by decide, s, hs, of_decide_eq_false hbad⟩

end KernelExperiment.Scull.Overlap
