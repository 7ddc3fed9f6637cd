import KernelExperiment.Module.Loading
import KernelExperiment.Scull.Ownership

/-! What every run of loads, uses and unloads keeps: each device behind a number has been set up and is
in a state that it could have come to by itself, and what the module takes it gives back. -/

namespace KernelExperiment.Module
open Kernel Runs Scull

variable {P F β : Type*}

/-- A state of a bare device that serves nobody else. -/
def BareReached [DecidableEq F] [OfNat β 0] (κ : Kmalloc β) (c : Scull.Sys F β) : Prop :=
  ∃ quantum qset as, GeometryOk quantum qset ∧
    exec (Scull.Sys.step κ) (Scull.Sys.loaded quantum qset) as = .ok c

/-- A state of a pipe that serves nobody else. -/
def PipeReached [DecidableEq P] [DecidableEq F] [Fintype P] (c : Pipe.Lifetime.Sys P F) : Prop :=
  ∃ n as, exec Pipe.Lifetime.Sys.step (Pipe.Lifetime.Sys.loaded n) as = .ok c

section
variable [DecidableEq F] [OfNat β 0] {κ : Kmalloc β} {c c' : Scull.Sys F β} {a : Scull.Act F β}

theorem BareReached.loaded {quantum qset : Int} (h : GeometryOk quantum qset) :
    BareReached κ (Scull.Sys.loaded quantum qset : Scull.Sys F β) :=
  ⟨quantum, qset, [], h, rfl⟩

theorem BareReached.step (h : BareReached κ c) (hstep : Scull.Sys.step κ c a = .ok c') :
    BareReached κ c' := by
  obtain ⟨quantum, qset, as, hgeo, he⟩ := h
  exact ⟨quantum, qset, as ++ [a], hgeo, exec_snoc_ok he hstep⟩

/-- The globals are changed by ioctls only. -/
theorem bare_globals (hstep : Scull.Sys.step κ c a = .ok c') (ha : ∀ cmd, a ≠ .ioctl cmd) :
    c'.driver.scullQuantum = c.driver.scullQuantum ∧
      c'.driver.scullQset = c.driver.scullQset := by
  cases Scull.Sys.step_move hstep with
  | fails => exact ⟨rfl, rfl⟩
  | opened => exact ⟨rfl, rfl⟩
  | trimmed hd => exact Access.Private.scullTrim_globals hd
  | told => exact absurd rfl (ha _)
  | moved => exact ⟨rfl, rfl⟩
  | readFails _ _ hd => exact Access.Private.scullRead_globals hd
  | read _ _ hd => exact Access.Private.scullRead_globals hd
  | noMemory _ _ hd => exact Access.Private.scullWrite_globals hd
  | writeFails _ _ _ hd => exact Access.Private.scullWrite_globals hd
  | wrote _ _ hd => exact Access.Private.scullWrite_globals hd

/-- The trim of an unload leaves nothing behind. -/
theorem BareReached.freed {d : Driver β} (h : BareReached κ c) (ht : c.driver.scullTrim = some d) :
    d.freed.Perm ((List.range d.nalloc).filter (granted κ)) := by
  obtain ⟨quantum, qset, as, hgeo, he⟩ := h
  have h0 : (∃ q n, Laid q n (Driver.loaded quantum qset : Driver β)) ∧
      Accounted κ (Driver.loaded quantum qset) := ⟨Laid.loaded hgeo, Ledger.balanced_zero _⟩
  obtain ⟨⟨q, n, hl⟩, hacc⟩ : (∃ q n, Laid q n c.driver) ∧ Accounted κ c.driver :=
    driver_run (I := fun d => (∃ q n, Laid q n d) ∧ Accounted κ d) hgeo h0
      (fun _ _ ⟨⟨_, _, hl⟩, ha⟩ hc => ⟨hl.call hc, ha.call hl hc⟩) he
  have htrimmed := hacc.trim hl.toUsable ht
  obtain ⟨blocks, -, rfl⟩ := Option.map_eq_some_iff.mp ht
  exact htrimmed

end

section
variable [DecidableEq P] [DecidableEq F] [Fintype P] {c c' : Pipe.Lifetime.Sys P F}
  {a : Pipe.Act P F}

theorem PipeReached.loaded (n : Int32) :
    PipeReached (Pipe.Lifetime.Sys.loaded n : Pipe.Lifetime.Sys P F) := ⟨n, [], rfl⟩

theorem PipeReached.step (h : PipeReached c) (hstep : c.step a = .ok c') : PipeReached c' := by
  obtain ⟨n, as, he⟩ := h
  exact ⟨n, as ++ [a], exec_snoc_ok he hstep⟩

/-- Behind the last close there is no buffer, and the `kfree` of the cleanup frees nothing. -/
theorem PipeReached.freed [Fintype F] (h : PipeReached c) (hclosed : ∀ f, c.pipe.files f = none) :
    (kfreeBuffer c).freed.Perm (List.range c.nalloc) := by
  obtain ⟨n, as, he⟩ := h
  have hacc : Pipe.Lifetime.Accounted c :=
    exec_invariant (fun _ _ _ => Pipe.Lifetime.Accounted.step) (Pipe.Lifetime.Accounted.loaded n) he
  obtain ⟨hbuffer, hfreed⟩ := hacc.closed hclosed
  have hblock : c.block = none := by
    rw [← Option.not_isSome_iff_eq_none, hacc.block_iff, hbuffer]
    simp
  show (c.freed ++ c.block.toList).Perm _
  rw [hblock, Option.toList_none, List.append_nil]
  exact hfreed

/-- What a step of a pipe does to its files and to the size of the next buffer. -/
theorem pipe_files (hstep : c.step a = .ok c') (ha : ∀ arg, a ≠ .ioctlTsize arg)
    (hmeanwhile : ∀ f file interrupted kmalloc meanwhile,
      a = .opens f file interrupted kmalloc meanwhile → meanwhile = []) :
    c'.pipe.scullPBuffer = c.pipe.scullPBuffer ∧
      ∀ f, c'.pipe.files f ≠ none →
        (c.pipe.files f ≠ none ∧ a ≠ .release f) ∨ ∃ file interrupted kmalloc,
          a = .opens f file interrupted kmalloc [] := by
  obtain ⟨pipe, hpipe, rfl⟩ := Outcome.map_eq_ok.mp hstep
  have haccount : (c.account a pipe).pipe = pipe := by
    unfold Pipe.Lifetime.Sys.account
    split
    · split_ifs <;> rfl
    · split_ifs <;> rfl
    · rfl
  rw [haccount]
  cases Pipe.step_move hpipe with
  | tell arg => exact absurd rfl (ha arg)
  | openInterrupted => exact ⟨rfl, fun f hf => .inl ⟨hf, by simp⟩⟩
  | @openFails f file kmalloc meanwhile =>
    obtain rfl := hmeanwhile _ _ _ _ _ rfl
    exact ⟨rfl, fun f hf => .inl ⟨hf, by simp⟩⟩
  | @opened f file kmalloc meanwhile =>
    obtain rfl := hmeanwhile _ _ _ _ _ rfl
    refine ⟨rfl, fun g hg => ?_⟩
    rcases eq_or_ne g f with rfl | hne
    · exact .inr ⟨_, _, _, rfl⟩
    · refine .inl ⟨?_, by simp⟩
      have hsame : Function.update c.pipe.files f (some file) g = c.pipe.files g :=
        Function.update_of_ne hne _ _
      rw [← hsame]
      exact hg
  | @released f file =>
    refine ⟨rfl, fun g hg => ?_⟩
    rcases eq_or_ne g f with rfl | hne
    · exact absurd (Function.update_self ..) hg
    · refine .inl ⟨?_, fun he => hne (by cases he; rfl)⟩
      have hsame : Function.update c.pipe.files f none g = c.pipe.files g :=
        Function.update_of_ne hne _ _
      rw [← hsame]
      exact hg
  | entered => exact ⟨rfl, fun f hf => .inl ⟨hf, by simp⟩⟩
  | transferred => exact ⟨rfl, fun f hf => .inl ⟨hf, by simp⟩⟩
  | gaveUp => exact ⟨rfl, fun f hf => .inl ⟨hf, by simp⟩⟩

end

/-! The invariant. -/

namespace Devices

variable {α : Type*} {d : Devices α} {i j k : ℕ} {a : α} {g : α → α}

/-- The first `k` devices have been set up. -/
def Filled (d : Devices α) (k : ℕ) : Prop := ∀ j, (d.dev j).isSome ↔ j < k

theorem set_dev_self : (d.set i a).dev i = some a := Function.update_self ..

theorem set_dev_of_ne (h : j ≠ i) : (d.set i a).dev j = d.dev j := Function.update_of_ne h _ _

theorem Filled.set_next (h : d.Filled k) : (d.set k a).Filled (k + 1) := by
  intro j
  rcases eq_or_ne j k with rfl | hne
  · rw [set_dev_self]
    exact iff_of_true rfl (Nat.lt_succ_self j)
  · rw [set_dev_of_ne hne, h j]
    omega

theorem Filled.set_same (h : d.Filled k) (hi : (d.dev i).isSome) : (d.set i a).Filled k := by
  intro j
  rcases eq_or_ne j i with rfl | hne
  · rw [set_dev_self]
    exact iff_of_true rfl ((h j).mp hi)
  · rw [set_dev_of_ne hne]
    exact h j

theorem Filled.map (h : d.Filled k) (g : α → α) : (d.map g).Filled k := by
  intro j
  show ((d.dev j).map g).isSome ↔ _
  rw [Option.isSome_map, h j]

theorem mem_set_iff {b : α} : b ∈ (d.set i a).dev j ↔ if j = i then b = a else b ∈ d.dev j := by
  split_ifs with hji
  · rw [hji, set_dev_self, Option.mem_some]
    exact eq_comm
  · rw [set_dev_of_ne hji]

end Devices

/-- What is trimmed is the devices that are there. -/
theorem Devices.mem_trimAll {d : Devices (Scull.Sys F β)} {n i : ℕ} {drivers : List (ℕ × Driver β)}
    {driver : Driver β} (h : d.trimAll n = some drivers) (hi : (i, driver) ∈ drivers) :
    ∃ c, d.dev i = some c ∧ c.driver.scullTrim = some driver := by
  induction n generalizing drivers with
  | zero =>
    cases h
    cases hi
  | succ n ih =>
    obtain ⟨drivers', hall, h⟩ := Option.bind_eq_some_iff.mp h
    obtain ⟨c, hc, h⟩ := Option.bind_eq_some_iff.mp h
    obtain ⟨driver', htrim, rfl⟩ := Option.map_eq_some_iff.mp h
    rcases List.mem_append.mp hi with hi | hi
    · exact ih hall hi
    · cases List.mem_singleton.mp hi
      exact ⟨c, hc, htrim⟩

namespace Sys

variable {p : Params} {κ : ℕ → ℕ → Kmalloc β} {c₀ : Chrdevs Dev} {s t : Sys P F β} {k : ℕ}
  {k' : Option ℕ} {dev : Dev} {f : F} {i : ℕ}

/-- The range of the module with its first `k` bare devices, and that of its pipes. -/
def Numbered (p : Params) (c₀ : Chrdevs Dev) (s : Sys P F β) (k : ℕ) : Option ℕ → Prop
  | none => s.scullPDevices = none ∧
      Chrdevs.Extends c₀ (s.devno p) p.scullNrDevs Dev.bare k s.chrdevs
  | some k' => (k' ≤ p.scullPNrDevs ∧ ∃ d ∈ s.scullPDevices, d.Filled k') ∧
      ∃ c₁, Chrdevs.Extends c₀ (s.devno p) p.scullNrDevs Dev.bare k c₁ ∧
        Chrdevs.Extends c₁ (s.scullPDevno p) p.scullPNrDevs Dev.pipe k' s.chrdevs

structure Built (p : Params) (c₀ : Chrdevs Dev) (s : Sys P F β) (k : ℕ) (k' : Option ℕ) : Prop where
  le : k ≤ p.scullNrDevs
  devices : ∃ d ∈ s.scullDevices, d.Filled k
  numbered : s.Numbered p c₀ k k'
  geometryOk : GeometryOk s.scullQuantum s.scullQset

/-- How far the module has come. -/
def Stands (p : Params) (c₀ : Chrdevs Dev) (s : Sys P F β) : Prop :=
  match s.pc with
  | .unloaded => s.chrdevs = c₀ ∧ s.scullDevices = none ∧ s.scullPDevices = none ∧ s.refs = []
  | .setup i => s.Built p c₀ i none
  | .pInit => s.Built p c₀ p.scullNrDevs none
  | .pSetup i => s.Built p c₀ p.scullNrDevs (some i)
  | .live => s.Built p c₀ p.scullNrDevs none ∨ s.Built p c₀ p.scullNrDevs (some p.scullPNrDevs)

def held (s : Sys P F β) : List ℕ :=
  (s.scullDevices.map Devices.block).toList ++ (s.scullPDevices.map Devices.block).toList

/-- The files are open on devices that are there, and a pipe has no others. -/
structure Referred (s : Sys P F β) : Prop where
  bare : ∀ i f, (Dev.bare i, f) ∈ s.refs → ∃ d ∈ s.scullDevices, (d.dev i).isSome
  pipe : ∀ i f, (Dev.pipe i, f) ∈ s.refs → ∃ d ∈ s.scullPDevices, (d.dev i).isSome
  files : ∀ d ∈ s.scullPDevices, ∀ i, ∀ c ∈ d.dev i, ∀ f, c.pipe.files f ≠ none →
    (Dev.pipe i, f) ∈ s.refs

/-- Each device is as it would be by itself, with the globals of the module. -/
structure Apart [DecidableEq P] [DecidableEq F] [Fintype P] [OfNat β 0] (κ : ℕ → ℕ → Kmalloc β)
    (s : Sys P F β) : Prop where
  bare : ∀ d ∈ s.scullDevices, ∀ i, ∀ c ∈ d.dev i, BareReached (κ s.loads i) c ∧
    c.driver.scullQuantum = s.scullQuantum ∧ c.driver.scullQset = s.scullQset
  pipe : ∀ d ∈ s.scullPDevices, ∀ i, ∀ c ∈ d.dev i, PipeReached c ∧
    c.pipe.scullPBuffer = s.scullPBuffer

/-- What former loads have got has been freed, and that once. -/
structure Settled (κ : ℕ → ℕ → Kmalloc β) (s : Sys P F β) : Prop where
  arrays : Ledger.Balanced (fun _ => true) s.nalloc s.held s.freed
  devices : ∀ load i d, (load, i, d) ∈ s.oldDevices →
    d.freed.Perm ((List.range d.nalloc).filter (granted (κ load i)))
  pipes : ∀ load i c, (load, i, c) ∈ s.oldPipes → c.freed.Perm (List.range c.nalloc)

structure Inv [DecidableEq P] [DecidableEq F] [Fintype P] [OfNat β 0] (p : Params)
    (κ : ℕ → ℕ → Kmalloc β) (c₀ : Chrdevs Dev) (s : Sys P F β) : Prop where
  stands : s.Stands p c₀
  referred : s.Referred
  apart : s.Apart κ
  settled : s.Settled κ

section
variable [DecidableEq P] [DecidableEq F] [Fintype P] [OfNat β 0]

end

/-! What is behind a number. -/

theorem Built.congr (h : s.Built p c₀ k k') (hchrdevs : t.chrdevs = s.chrdevs)
    (hmajor : t.scullMajor = s.scullMajor)
    (hgeo : GeometryOk s.scullQuantum s.scullQset → GeometryOk t.scullQuantum t.scullQset)
    (hbare : ∀ k, (∃ d ∈ s.scullDevices, d.Filled k) → ∃ d ∈ t.scullDevices, d.Filled k)
    (hpipe : ∀ k, (∃ d ∈ s.scullPDevices, d.Filled k) → ∃ d ∈ t.scullPDevices, d.Filled k)
    (hnone : s.scullPDevices = none → t.scullPDevices = none) : t.Built p c₀ k k' := by
  have hdevno : t.devno p = s.devno p := by rw [devno, devno, hmajor]
  have hpdevno : t.scullPDevno p = s.scullPDevno p := by rw [scullPDevno, scullPDevno, hmajor]
  refine ⟨h.le, hbare k h.devices, ?_, hgeo h.geometryOk⟩
  have hnumbered := h.numbered
  cases k' with
  | none =>
    rw [Numbered, hchrdevs, hdevno]
    exact ⟨hnone hnumbered.1, hnumbered.2⟩
  | some k' =>
    rw [Numbered, hchrdevs, hdevno, hpdevno]
    exact ⟨⟨hnumbered.1.1, hpipe k' hnumbered.1.2⟩, hnumbered.2⟩

/-- The devices are used, and the module stays where it is. -/
theorem Stands.congr (h : s.Stands p c₀) (hpc : t.pc = s.pc) (hused : s.scullDevices ≠ none)
    (hchrdevs : t.chrdevs = s.chrdevs) (hmajor : t.scullMajor = s.scullMajor)
    (hgeo : GeometryOk s.scullQuantum s.scullQset → GeometryOk t.scullQuantum t.scullQset)
    (hbare : ∀ k, (∃ d ∈ s.scullDevices, d.Filled k) → ∃ d ∈ t.scullDevices, d.Filled k)
    (hpipe : ∀ k, (∃ d ∈ s.scullPDevices, d.Filled k) → ∃ d ∈ t.scullPDevices, d.Filled k)
    (hnone : s.scullPDevices = none → t.scullPDevices = none) : t.Stands p c₀ := by
  have hbuilt {k : ℕ} {k' : Option ℕ} (hb : s.Built p c₀ k k') : t.Built p c₀ k k' :=
    hb.congr hchrdevs hmajor hgeo hbare hpipe hnone
  unfold Stands at h ⊢
  rw [hpc]
  cases hs : s.pc with
  | unloaded =>
    rw [hs] at h
    exact absurd h.2.1 hused
  | setup i =>
    rw [hs] at h
    exact hbuilt h
  | pInit =>
    rw [hs] at h
    exact hbuilt h
  | pSetup i =>
    rw [hs] at h
    exact hbuilt h
  | live =>
    rw [hs] at h
    exact h.imp hbuilt hbuilt

/-- Whatever is used comes with the bare devices. -/
theorem Stands.used (h : s.Stands p c₀) (hne : s.scullPDevices ≠ none ∨ s.refs ≠ []) :
    s.scullDevices ≠ none := by
  have hbuilt {k : ℕ} {k' : Option ℕ} (hb : s.Built p c₀ k k') : s.scullDevices ≠ none := by
    obtain ⟨d, hd, -⟩ := hb.devices
    rw [Option.mem_def.mp hd]
    simp
  unfold Stands at h
  split at h
  · obtain ⟨-, -, hpipes, hrefs⟩ := h
    exact hne.elim (fun hp => absurd hpipes hp) fun hr => absurd hrefs hr
  · exact hbuilt h
  · exact hbuilt h
  · exact hbuilt h
  · exact h.elim hbuilt hbuilt

section
variable [DecidableEq P] [DecidableEq F] [Fintype P] [OfNat β 0]

omit [DecidableEq P] [Fintype P] in
theorem onBare_ok {a : Scull.Act F β} {c : Scull.Sys F β} (h : s.onBare κ i a = .ok (t, c)) :
    ∃ d b, s.scullDevices = some d ∧ d.dev i = some b ∧
      Scull.Sys.step (κ s.loads i) b a = .ok c ∧
      t = { s with scullDevices := some (d.set i c) } := by
  unfold onBare at h
  split at h
  · cases h
  next d hd =>
    split at h
    · cases h
    next b hb =>
      obtain ⟨c', hstep, he⟩ := Outcome.map_eq_ok.mp h
      cases he
      exact ⟨d, b, hd, hb, hstep, rfl⟩

omit [OfNat β 0] in
theorem onPipe_ok {a : Pipe.Act P F} {c : Pipe.Lifetime.Sys P F} (h : s.onPipe i a = .ok (t, c)) :
    ∃ d b, s.scullPDevices = some d ∧ d.dev i = some b ∧ b.step a = .ok c ∧
      t = { s with scullPDevices := some (d.set i c) } := by
  unfold onPipe at h
  split at h
  · cases h
  next d hd =>
    split at h
    · cases h
    next b hb =>
      obtain ⟨c', hstep, he⟩ := Outcome.map_eq_ok.mp h
      cases he
      exact ⟨d, b, hd, hb, hstep, rfl⟩

theorem Inv.onBare {a : Scull.Act F β} {c : Scull.Sys F β} (h : s.Inv p κ c₀)
    (hon : s.onBare κ i a = .ok (t, c)) (ha : ∀ cmd, a ≠ .ioctl cmd) : t.Inv p κ c₀ := by
  obtain ⟨d, b, hd, hb, hstep, rfl⟩ := onBare_ok hon
  have hsome : (d.dev i).isSome := by rw [hb]; rfl
  refine ⟨h.stands.congr rfl (by rw [hd]; simp) rfl rfl id (fun k hk => ?_) (fun k => id) id,
    ⟨fun j f hf => ?_, h.referred.pipe, h.referred.files⟩,
    ⟨fun d' hd' j c' hc' => ?_, h.apart.pipe⟩, ⟨?_, h.settled.devices, h.settled.pipes⟩⟩
  · obtain ⟨d', hd', hfilled⟩ := hk
    cases hd.symm.trans hd'
    exact ⟨_, rfl, hfilled.set_same hsome⟩
  · obtain ⟨d', hd', hj⟩ := h.referred.bare j f hf
    cases hd.symm.trans hd'
    refine ⟨_, rfl, ?_⟩
    rcases eq_or_ne j i with rfl | hne
    · rw [Devices.set_dev_self]
      rfl
    · rwa [Devices.set_dev_of_ne hne]
  · cases hd'
    rw [Devices.mem_set_iff] at hc'
    split_ifs at hc' with hji
    · rw [hji, hc']
      obtain ⟨hreached, hquantum, hqset⟩ := h.apart.bare d hd i b hb
      obtain ⟨hquantum', hqset'⟩ := bare_globals hstep ha
      exact ⟨hreached.step hstep, hquantum'.trans hquantum, hqset'.trans hqset⟩
    · exact h.apart.bare d hd j c' hc'
  · have harrays := h.settled.arrays
    rw [held, hd] at harrays
    exact harrays

/-- A call on a pipe, with what it leaves of the open files. -/
theorem Inv.onPipe {a : Pipe.Act P F} {c : Pipe.Lifetime.Sys P F} {refs : List (Dev × F)}
    (h : s.Inv p κ c₀) (hon : s.onPipe i a = .ok (t, c)) (ha : ∀ arg, a ≠ .ioctlTsize arg)
    (hmeanwhile : ∀ f file interrupted kmalloc meanwhile,
      a = .opens f file interrupted kmalloc meanwhile → meanwhile = [])
    (hsub : ∀ r ∈ refs, r ∈ s.refs ∨ r.1 = .pipe i)
    (hother : ∀ r ∈ s.refs, r.1 ≠ .pipe i → r ∈ refs)
    (hfiles : ∀ f, c.pipe.files f ≠ none → (Dev.pipe i, f) ∈ refs) :
    Sys.Inv p κ c₀ { t with refs } := by
  obtain ⟨d, b, hd, hb, hstep, rfl⟩ := onPipe_ok hon
  have hsome : (d.dev i).isSome := by rw [hb]; rfl
  have hused : s.scullDevices ≠ none := h.stands.used (.inl (by rw [hd]; simp))
  refine ⟨h.stands.congr rfl hused rfl rfl id (fun k => id) (fun k hk => ?_) (fun hnone => ?_),
    ⟨fun j f hf => ?_, fun j f hf => ?_, fun d' hd' j c' hc' f hf => ?_⟩,
    ⟨h.apart.bare, fun d' hd' j c' hc' => ?_⟩, ⟨?_, h.settled.devices, h.settled.pipes⟩⟩
  · obtain ⟨d', hd', hfilled⟩ := hk
    cases hd.symm.trans hd'
    exact ⟨_, rfl, hfilled.set_same hsome⟩
  · cases hd.symm.trans hnone
  · rcases hsub _ hf with hf | hf
    · exact h.referred.bare j f hf
    · cases hf
  · refine ⟨_, rfl, ?_⟩
    rcases eq_or_ne j i with rfl | hne
    · rw [Devices.set_dev_self]
      rfl
    · rw [Devices.set_dev_of_ne hne]
      rcases hsub _ hf with hf | hf
      · obtain ⟨d', hd', hj⟩ := h.referred.pipe j f hf
        cases hd.symm.trans hd'
        exact hj
      · cases hf
        exact absurd rfl hne
  · cases hd'
    rw [Devices.mem_set_iff] at hc'
    split_ifs at hc' with hji
    · rw [hc'] at hf
      rw [hji]
      exact hfiles f hf
    · refine hother _ (h.referred.files d hd j c' hc' f hf) fun he => hji ?_
      cases he
      rfl
  · cases hd'
    rw [Devices.mem_set_iff] at hc'
    split_ifs at hc' with hji
    · rw [hc']
      obtain ⟨hreached, hbuffer⟩ := h.apart.pipe d hd i b hb
      exact ⟨hreached.step hstep, (pipe_files hstep ha hmeanwhile).1.trans hbuffer⟩
    · exact h.apart.pipe d hd j c' hc'
  · have harrays := h.settled.arrays
    rw [held, hd] at harrays
    exact harrays

/-- The files of bare devices come and go. -/
theorem Inv.refsBare {refs : List (Dev × F)} (h : s.Inv p κ c₀) (hused : s.scullDevices ≠ none)
    (hbare : ∀ i f, (Dev.bare i, f) ∈ refs → ∃ d ∈ s.scullDevices, (d.dev i).isSome)
    (hpipe : ∀ i f, (Dev.pipe i, f) ∈ refs ↔ (Dev.pipe i, f) ∈ s.refs) :
    Sys.Inv p κ c₀ { s with refs } := by
  refine ⟨h.stands.congr rfl hused rfl rfl id (fun k => id) (fun k => id) id,
    ⟨hbare, fun i f hf => h.referred.pipe i f ((hpipe i f).mp hf), fun d hd i c hc f hf => ?_⟩,
    ⟨h.apart.bare, h.apart.pipe⟩,
    ⟨h.settled.arrays, h.settled.devices, h.settled.pipes⟩⟩
  exact (hpipe i f).mpr (h.referred.files d hd i c hc f hf)

theorem Inv.opensBare {a : Scull.Act F β} {c : Scull.Sys F β} {succeeds : Bool}
    (h : s.Inv p κ c₀) (hon : s.onBare κ i a = .ok (t, c)) (ha : ∀ cmd, a ≠ .ioctl cmd) :
    (t.opened (.bare i) f succeeds).Inv p κ c₀ := by
  have ht := h.onBare hon ha
  obtain ⟨d, b, hd, hb, -, rfl⟩ := onBare_ok hon
  unfold opened
  split_ifs
  · refine ht.refsBare (by simp) (fun j g hg => ?_) fun j g => ?_
    · rcases List.mem_cons.mp hg with he | hg
      · cases he
        refine ⟨_, rfl, ?_⟩
        rw [Devices.set_dev_self]
        rfl
      · exact ht.referred.bare j g hg
    · simp
  · exact ht

theorem Inv.release (h : s.Inv p κ c₀) (hf : (Dev.bare i, f) ∈ s.refs) :
    Sys.Inv p κ c₀ { s with refs := s.refs.erase (.bare i, f) } := by
  obtain ⟨d, hd, -⟩ := h.referred.bare i f hf
  refine h.refsBare (by rw [Option.mem_def.mp hd]; simp) (fun j g hg => ?_) fun j g => ?_
  · exact h.referred.bare j g (List.mem_of_mem_erase hg)
  · exact List.mem_erase_of_ne (by simp)

theorem Inv.opensPipe {c : Pipe.Lifetime.Sys P F} {file : Pipe.File} {interrupted : Bool}
    {kmalloc : Option (ℕ → Byte)} (h : s.Inv p κ c₀)
    (hon : s.onPipe i (.opens f file interrupted kmalloc []) = .ok (t, c)) :
    (t.opened (.pipe i) f (c.pipe.files f).isSome).Inv p κ c₀ := by
  obtain ⟨d, b, hd, hb, hstep, ht⟩ := onPipe_ok hon
  have hrefs : t.refs = s.refs := by rw [ht]
  have hfiles := (pipe_files hstep nofun (by rintro _ _ _ _ _ ⟨⟩; rfl)).2
  have hopened : t.opened (.pipe i) f (c.pipe.files f).isSome =
      { t with refs := if (c.pipe.files f).isSome then (.pipe i, f) :: s.refs else s.refs } := by
    unfold opened
    rw [hrefs]
    split_ifs
    · rfl
    · rw [← hrefs]
  rw [hopened]
  refine h.onPipe hon nofun (by rintro _ _ _ _ _ ⟨⟩; rfl) (fun r hr => ?_) (fun r hr _ => ?_)
    fun g hg => ?_
  · split_ifs at hr
    · rcases List.mem_cons.mp hr with rfl | hr
      · exact .inr rfl
      · exact .inl hr
    · exact .inl hr
  · split_ifs
    · exact List.mem_cons_of_mem _ hr
    · exact hr
  · rcases eq_or_ne g f with rfl | hne
    · rw [if_pos (Option.isSome_iff_ne_none.mpr hg)]
      exact List.mem_cons_self ..
    · have hold : (Dev.pipe i, g) ∈ s.refs := by
        rcases hfiles g hg with ⟨hg, -⟩ | ⟨_, _, _, he⟩
        · exact h.referred.files d hd i b hb g hg
        · cases he
          exact absurd rfl hne
      split_ifs
      · exact List.mem_cons_of_mem _ hold
      · exact hold

theorem Inv.releasePipe {c : Pipe.Lifetime.Sys P F} (h : s.Inv p κ c₀)
    (hon : s.onPipe i (.release f) = .ok (t, c)) :
    Sys.Inv p κ c₀ { t with refs := t.refs.erase (.pipe i, f) } := by
  obtain ⟨d, b, hd, hb, hstep, ht⟩ := onPipe_ok hon
  have hrefs : t.refs = s.refs := by rw [ht]
  have hfiles := (pipe_files hstep nofun nofun).2
  rw [hrefs]
  refine h.onPipe hon nofun nofun (fun r hr => .inl (List.mem_of_mem_erase hr))
    (fun r hr hne => (List.mem_erase_of_ne fun he => hne (by rw [he])).mpr hr) fun g hg => ?_
  rcases hfiles g hg with ⟨hold, hne⟩ | ⟨_, _, _, he⟩
  · refine (List.mem_erase_of_ne fun he => hne ?_).mpr (h.referred.files d hd i b hb g hold)
    cases he
    rfl
  · cases he

theorem Inv.callPipe {a : Pipe.Act P F} {c : Pipe.Lifetime.Sys P F} (h : s.Inv p κ c₀)
    (hon : s.onPipe i a = .ok (t, c)) (ha : ∀ arg, a ≠ .ioctlTsize arg)
    (hopens : ∀ f file interrupted kmalloc meanwhile,
      a ≠ .opens f file interrupted kmalloc meanwhile) : t.Inv p κ c₀ := by
  obtain ⟨d, b, hd, hb, hstep, ht⟩ := onPipe_ok hon
  have hmeanwhile : ∀ f file interrupted kmalloc meanwhile,
      a = .opens f file interrupted kmalloc meanwhile → meanwhile = [] :=
    fun f file interrupted kmalloc meanwhile he => absurd he (hopens f file interrupted kmalloc _)
  have hfiles := (pipe_files hstep ha hmeanwhile).2
  have hinv : Sys.Inv p κ c₀ { t with refs := s.refs } := by
    refine h.onPipe hon ha hmeanwhile (fun r => .inl) (fun r hr _ => hr) fun g hg => ?_
    rcases hfiles g hg with ⟨hg, -⟩ | ⟨_, _, _, he⟩
    · exact h.referred.files d hd i b hb g hg
    · exact absurd he (hopens _ _ _ _ _)
  rw [ht] at hinv ⊢
  exact hinv

theorem Inv.ioctl {cmd : Ioctl} (h : s.Inv p κ c₀) (hrefs : s.refs ≠ [])
    (hstep : s.scullIoctl cmd = .ok t) : t.Inv p κ c₀ := by
  simp only [scullIoctl] at hstep
  split_ifs at hstep with hok
  cases hstep
  have hused := h.stands.used (.inr hrefs)
  refine ⟨h.stands.congr rfl hused rfl rfl (fun _ => hok) (fun k hk => ?_) (fun k => id) id,
    ⟨fun i f hf => ?_, h.referred.pipe, h.referred.files⟩,
    ⟨fun d' hd' i c' hc' => ?_, h.apart.pipe⟩, ⟨?_, h.settled.devices, h.settled.pipes⟩⟩
  · obtain ⟨d, hd, hfilled⟩ := hk
    exact ⟨_, Option.mem_map_of_mem _ hd, hfilled.map _⟩
  · obtain ⟨d, hd, hi⟩ := h.referred.bare i f hf
    refine ⟨_, Option.mem_map_of_mem _ hd, ?_⟩
    show ((d.dev i).map _).isSome
    rw [Option.isSome_map]
    exact hi
  · obtain ⟨d, hd, rfl⟩ := Option.map_eq_some_iff.mp hd'
    obtain ⟨c, hc, rfl⟩ := Option.map_eq_some_iff.mp hc'
    obtain ⟨hreached, hquantum, hqset⟩ := h.apart.bare d hd i c hc
    have hdriver : (c.driver.ioctl cmd).scullQuantum =
          ((Driver.loaded s.scullQuantum s.scullQset : Driver β).ioctl cmd).scullQuantum ∧
        (c.driver.ioctl cmd).scullQset =
          ((Driver.loaded s.scullQuantum s.scullQset : Driver β).ioctl cmd).scullQset := by
      cases cmd <;> simp only [Driver.ioctl, Driver.loaded, hquantum, hqset, and_self]
    refine ⟨hreached.step (a := .ioctl cmd) ?_, hdriver⟩
    rw [Scull.Sys.step, hdriver.1, hdriver.2]
    exact if_pos hok
  · have harrays := h.settled.arrays
    rw [held] at harrays ⊢
    rw [Option.map_map]
    exact harrays

theorem Inv.ioctlTsize (h : s.Inv p κ c₀) (hrefs : s.refs ≠ []) (arg : UInt32) :
    (s.scullIoctlTsize arg).Inv p κ c₀ := by
  have hused := h.stands.used (.inr hrefs)
  refine ⟨h.stands.congr rfl hused rfl rfl id (fun k => id) (fun k hk => ?_) (fun hnone => ?_),
    ⟨h.referred.bare, fun i f hf => ?_, fun d' hd' i c' hc' f hf => ?_⟩,
    ⟨h.apart.bare, fun d' hd' i c' hc' => ?_⟩, ⟨?_, h.settled.devices, h.settled.pipes⟩⟩
  · obtain ⟨d, hd, hfilled⟩ := hk
    exact ⟨_, Option.mem_map_of_mem _ hd, hfilled.map _⟩
  · show s.scullPDevices.map _ = none
    rw [hnone]
    rfl
  · obtain ⟨d, hd, hi⟩ := h.referred.pipe i f hf
    refine ⟨_, Option.mem_map_of_mem _ hd, ?_⟩
    show ((d.dev i).map _).isSome
    rw [Option.isSome_map]
    exact hi
  · obtain ⟨d, hd, rfl⟩ := Option.map_eq_some_iff.mp hd'
    obtain ⟨c, hc, rfl⟩ := Option.map_eq_some_iff.mp hc'
    exact h.referred.files d hd i c hc f hf
  · obtain ⟨d, hd, rfl⟩ := Option.map_eq_some_iff.mp hd'
    obtain ⟨c, hc, rfl⟩ := Option.map_eq_some_iff.mp hc'
    obtain ⟨hreached, hbuffer⟩ := h.apart.pipe d hd i c hc
    refine ⟨hreached.step (a := .ioctlTsize arg) rfl, ?_⟩
    show Pipe.told c.pipe.scullPBuffer [arg] = Pipe.told s.scullPBuffer [arg]
    rw [hbuffer]
  · have harrays := h.settled.arrays
    rw [held] at harrays ⊢
    show Ledger.Balanced _ _ (_ ++ ((s.scullPDevices.map _).map _).toList) _
    rw [Option.map_map]
    exact harrays

/-! Load and unload. -/

omit [DecidableEq P] [DecidableEq F] [Fintype P] [OfNat β 0] in
theorem Stands.unloaded (h : s.Stands p c₀) (hpc : s.pc = .unloaded) :
    s.chrdevs = c₀ ∧ s.scullDevices = none ∧ s.scullPDevices = none ∧ s.refs = [] := by
  rw [Stands, hpc] at h
  exact h

omit [DecidableEq P] [DecidableEq F] [Fintype P] [OfNat β 0] in
theorem scullPCleanup_none (h : s.scullPDevices = none) : s.scullPCleanup p = s := by
  rw [scullPCleanup, h]

omit [DecidableEq P] [DecidableEq F] [Fintype P] [OfNat β 0] in
theorem scullPCleanup_some {d : Devices (Pipe.Lifetime.Sys P F)} (h : s.scullPDevices = some d) :
    s.scullPCleanup p = { s with
      chrdevs := (s.chrdevs.delAll (s.scullPDevno p) Dev.pipe p.scullPNrDevs).unregister
        (s.scullPDevno p) p.scullPNrDevs
      scullPDevices := none
      freed := s.freed ++ [d.block]
      oldPipes := s.oldPipes ++ (List.range p.scullPNrDevs).filterMap fun i =>
        (d.dev i).map fun c => (s.loads, i, kfreeBuffer c) } := by
  rw [scullPCleanup, h]

/-- A state in which nothing is loaded. -/
theorem Inv.of_unloaded (hpc : s.pc = .unloaded) (hchrdevs : s.chrdevs = c₀)
    (hdevices : s.scullDevices = none) (hpipes : s.scullPDevices = none) (hrefs : s.refs = [])
    (hsettled : s.Settled κ) : s.Inv p κ c₀ := by
  refine ⟨?_, ⟨fun i f hf => ?_, fun i f hf => ?_, fun d hd => ?_⟩,
    ⟨fun d hd => ?_, fun d hd => ?_⟩, hsettled⟩
  · rw [Stands, hpc]
    exact ⟨hchrdevs, hdevices, hpipes, hrefs⟩
  · rw [hrefs] at hf
    cases hf
  · rw [hrefs] at hf
    cases hf
  · rw [hpipes] at hd
    cases hd
  · rw [hdevices] at hd
    cases hd
  · rw [hpipes] at hd
    cases hd

theorem Inv.loadImage (h : s.Inv p κ c₀) (hpc : s.pc = .unloaded) (major : ℕ) :
    (s.loadImage p major).Inv p κ c₀ := by
  obtain ⟨hchrdevs, hdevices, hpipes, hrefs⟩ := h.stands.unloaded hpc
  have harrays := h.settled.arrays
  rw [held, hdevices, hpipes] at harrays
  exact .of_unloaded hpc hchrdevs rfl rfl hrefs ⟨harrays, h.settled.devices, h.settled.pipes⟩

theorem Inv.load {ok kmalloc : Bool} (hk : c₀.Kept) (h : s.Inv p κ c₀) (hpc : s.pc = .unloaded)
    (hgeo : GeometryOk s.scullQuantum s.scullQset)
    (hstep : s.scullInitModule p ok kmalloc = .ok t) : t.Inv p κ c₀ := by
  obtain ⟨hchrdevs, hdevices, hpipes, hrefs⟩ := h.stands.unloaded hpc
  have harrays := h.settled.arrays
  rw [held, hdevices, hpipes] at harrays
  unfold scullInitModule at hstep
  split at hstep
  next hreg =>
    cases hstep
    exact h
  next chrdevs hreg =>
    rw [hchrdevs] at hreg
    have hext := Chrdevs.Extends.register hk hreg Dev.bare
    split_ifs at hstep
    · cases hstep
      refine ⟨⟨Nat.zero_le _, ⟨_, rfl, fun j => ?_⟩, ⟨hpipes, hext⟩, hgeo⟩,
        ⟨fun i f hf => ?_, fun i f hf => ?_, fun d hd => ?_⟩,
        ⟨fun d hd i c hc => ?_, fun d hd => ?_⟩, ⟨?_, h.settled.devices, h.settled.pipes⟩⟩
      · exact iff_of_false (by simp) (Nat.not_lt_zero j)
      · replace hf : (Dev.bare i, f) ∈ s.refs := hf
        rw [hrefs] at hf
        cases hf
      · replace hf : (Dev.pipe i, f) ∈ s.refs := hf
        rw [hrefs] at hf
        cases hf
      · replace hd : d ∈ s.scullPDevices := hd
        rw [hpipes] at hd
        cases hd
      · cases hd
        cases hc
      · replace hd : d ∈ s.scullPDevices := hd
        rw [hpipes] at hd
        cases hd
      · unfold held
        show Ledger.Balanced _ (s.nalloc + 1) ([s.nalloc] ++ (s.scullPDevices.map _).toList) s.freed
        rw [hpipes]
        exact harrays.gained rfl
    · rw [scullCleanupModule, hdevices] at hstep
      cases hstep
      rw [scullPCleanup_none]
      · refine .of_unloaded rfl (Chrdevs.unregister_register hreg) rfl hpipes hrefs
          ⟨?_, h.settled.devices, h.settled.pipes⟩
        rw [held, hpipes]
        exact harrays
      · exact hpipes

theorem Inv.unload [Fintype F] (hk : c₀.Kept) (h : s.Inv p κ c₀) (hpc : s.pc = .live)
    (hrefs : s.refs = []) (hstep : s.scullCleanupModule p = .ok t) : t.Inv p κ c₀ := by
  have hstands := h.stands
  rw [Stands, hpc] at hstands
  obtain ⟨k', hk', hbuilt⟩ : ∃ k', (k' = none ∨ k' = some p.scullPNrDevs) ∧
      s.Built p c₀ p.scullNrDevs k' := by
    rcases hstands with hb | hb
    · exact ⟨none, .inl rfl, hb⟩
    · exact ⟨_, .inr rfl, hb⟩
  obtain ⟨d, hd, -⟩ := hbuilt.devices
  rw [Option.mem_def] at hd
  simp only [scullCleanupModule, hd] at hstep
  split at hstep
  · cases hstep
  next drivers htrim =>
    cases hstep
    have harrays := h.settled.arrays
    rw [held, hd] at harrays
    have hdevices : ∀ load i dr,
        (load, i, dr) ∈ s.oldDevices ++ drivers.map (fun e => (s.loads, e.1, e.2)) →
        dr.freed.Perm ((List.range dr.nalloc).filter (granted (κ load i))) := by
      intro load i dr hmem
      rcases List.mem_append.mp hmem with hmem | hmem
      · exact h.settled.devices load i dr hmem
      · obtain ⟨⟨j, dr'⟩, hj, he⟩ := List.mem_map.mp hmem
        cases he
        obtain ⟨c, hc, ht⟩ := Devices.mem_trimAll htrim hj
        exact (h.apart.bare d hd _ c hc).1.freed ht
    have hnumbered := hbuilt.numbered
    rcases hk' with rfl | rfl
    · obtain ⟨hpipes, hext⟩ := hnumbered
      rw [hpipes] at harrays
      rw [scullPCleanup_none]
      · refine .of_unloaded rfl (hext.restored hk) rfl hpipes hrefs ⟨?_, hdevices, h.settled.pipes⟩
        rw [held, hpipes]
        exact harrays.release
      · exact hpipes
    · obtain ⟨⟨-, pd, hpd, -⟩, c₁, hext, hext'⟩ := hnumbered
      rw [Option.mem_def] at hpd
      rw [hpd] at harrays
      rw [scullPCleanup_some (d := pd)]
      on_goal 2 => exact hpd
      have hext'' := hext.restored_below hext' hk p.nrDevs_pos
      refine .of_unloaded rfl (hext''.restored hk) rfl rfl hrefs
        ⟨?_, hdevices, fun load i c hc => ?_⟩
      · have hone : Ledger.Balanced (fun _ => true) s.nalloc ([pd.block] ++ []) (s.freed ++ [d.block]) :=
          harrays.release
        exact hone.release
      · rcases List.mem_append.mp hc with hc | hc
        · exact h.settled.pipes load i c hc
        · obtain ⟨j, -, hj⟩ := List.mem_filterMap.mp hc
          obtain ⟨b, hb, he⟩ := Option.map_eq_some_iff.mp hj
          cases he
          refine (h.apart.pipe pd hpd i b hb).1.freed fun f => ?_
          by_contra hf
          have hmem := h.referred.files pd hpd i b hb f hf
          rw [hrefs] at hmem
          cases hmem

/-- The loop over the bare devices. -/
theorem Inv.setup {ok : Bool} (h : s.Inv p κ c₀) (hpc : s.pc = .setup i) (hi : i < p.scullNrDevs)
    (hstep : s.scullSetupCdev p i ok = .ok t) : t.Inv p κ c₀ := by
  have hbuilt := h.stands
  rw [Stands, hpc] at hbuilt
  obtain ⟨d, hd, hfilled⟩ := hbuilt.devices
  rw [Option.mem_def] at hd
  obtain ⟨hpipes, hext⟩ := hbuilt.numbered
  unfold scullSetupCdev at hstep
  rw [hd] at hstep
  cases hstep
  refine ⟨⟨hi, ⟨_, rfl, hfilled.set_next⟩, ⟨hpipes, hext.add ok hi⟩, hbuilt.geometryOk⟩,
    ⟨fun j f hf => ?_, h.referred.pipe, h.referred.files⟩,
    ⟨fun d' hd' j c' hc' => ?_, h.apart.pipe⟩, ⟨?_, h.settled.devices, h.settled.pipes⟩⟩
  · obtain ⟨d', hd', hj⟩ := h.referred.bare j f hf
    cases hd.symm.trans hd'
    exact ⟨_, rfl, (hfilled.set_next j).mpr (Nat.lt_succ_of_lt ((hfilled j).mp hj))⟩
  · cases hd'
    rw [Devices.mem_set_iff] at hc'
    split_ifs at hc' with hji
    · rw [hc']
      exact ⟨.loaded hbuilt.geometryOk, rfl, rfl⟩
    · exact h.apart.bare d hd j c' hc'
  · have harrays := h.settled.arrays
    rw [held, hd] at harrays
    exact harrays

theorem Inv.pInit {ok kmalloc : Bool} (hk : c₀.Kept) (h : s.Inv p κ c₀) (hpc : s.pc = .pInit) :
    (s.scullPInit p ok kmalloc).Inv p κ c₀ := by
  have hbuilt := h.stands
  rw [Stands, hpc] at hbuilt
  obtain ⟨hpipes, hext⟩ := hbuilt.numbered
  have hlive : Sys.Inv p κ c₀ { s with pc := .live } :=
    ⟨.inl ⟨hbuilt.le, hbuilt.devices, hbuilt.numbered, hbuilt.geometryOk⟩,
      ⟨h.referred.bare, h.referred.pipe, h.referred.files⟩, ⟨h.apart.bare, h.apart.pipe⟩,
      ⟨h.settled.arrays, h.settled.devices, h.settled.pipes⟩⟩
  unfold scullPInit
  split
  · exact hlive
  next chrdevs hreg =>
    split_ifs
    · refine ⟨⟨hbuilt.le, hbuilt.devices, ⟨⟨Nat.zero_le _, _, rfl, fun j => ?_⟩, s.chrdevs, hext,
          .register (hext.kept hk) hreg _⟩, hbuilt.geometryOk⟩,
        ⟨h.referred.bare, fun j f hf => ?_, fun d hd j c hc => ?_⟩,
        ⟨h.apart.bare, fun d hd j c hc => ?_⟩, ⟨?_, h.settled.devices, h.settled.pipes⟩⟩
      · exact iff_of_false (by simp) (Nat.not_lt_zero j)
      · obtain ⟨d, hd, -⟩ := h.referred.pipe j f hf
        rw [hpipes] at hd
        cases hd
      · cases hd
        cases hc
      · cases hd
        cases hc
      · have harrays := h.settled.arrays
        rw [held, hpipes] at harrays
        have hgained := harrays.gained (k := s.nalloc) rfl
        refine hgained.congr ?_
        show ((s.scullDevices.map _).toList ++ [s.nalloc]).Perm _
        rw [Option.map_none, Option.toList_none, List.append_nil]
        exact List.perm_append_singleton _ _
    · rw [Chrdevs.unregister_register hreg]
      exact hlive

/-- The loop over the pipes. -/
theorem Inv.pSetup {ok : Bool} (h : s.Inv p κ c₀) (hpc : s.pc = .pSetup i)
    (hi : i < p.scullPNrDevs) (hstep : s.scullPSetupCdev p i ok = .ok t) : t.Inv p κ c₀ := by
  have hbuilt := h.stands
  rw [Stands, hpc] at hbuilt
  obtain ⟨⟨-, d, hd, hfilled⟩, c₁, hext, hext'⟩ := hbuilt.numbered
  rw [Option.mem_def] at hd
  unfold scullPSetupCdev at hstep
  rw [hd] at hstep
  cases hstep
  refine ⟨⟨hbuilt.le, hbuilt.devices, ⟨⟨hi, _, rfl, hfilled.set_next⟩, c₁, hext, hext'.add ok hi⟩,
      hbuilt.geometryOk⟩, ⟨h.referred.bare, fun j f hf => ?_, fun d' hd' j c' hc' f hf => ?_⟩,
    ⟨h.apart.bare, fun d' hd' j c' hc' => ?_⟩, ⟨?_, h.settled.devices, h.settled.pipes⟩⟩
  · obtain ⟨d', hd', hj⟩ := h.referred.pipe j f hf
    cases hd.symm.trans hd'
    exact ⟨_, rfl, (hfilled.set_next j).mpr (Nat.lt_succ_of_lt ((hfilled j).mp hj))⟩
  · cases hd'
    rw [Devices.mem_set_iff] at hc'
    split_ifs at hc' with hji
    · rw [hc'] at hf
      exact absurd rfl hf
    · exact h.referred.files d hd j c' hc' f hf
  · cases hd'
    rw [Devices.mem_set_iff] at hc'
    split_ifs at hc' with hji
    · rw [hc']
      exact ⟨.loaded _, rfl⟩
    · exact h.apart.pipe d hd j c' hc'
  · have harrays := h.settled.arrays
    rw [held, hd] at harrays
    exact harrays

/-- A loop comes to its end. -/
theorem Inv.proceed {ok kmalloc : Bool} (hk : c₀.Kept) (h : s.Inv p κ c₀)
    (hstep : s.step p κ (.proceed ok kmalloc) = .ok t) : t.Inv p κ c₀ := by
  have hgoes {pc : Pc} (hstands : Sys.Stands p c₀ { s with pc }) : Sys.Inv p κ c₀ { s with pc } :=
    ⟨hstands, ⟨h.referred.bare, h.referred.pipe, h.referred.files⟩,
      ⟨h.apart.bare, h.apart.pipe⟩, ⟨h.settled.arrays, h.settled.devices, h.settled.pipes⟩⟩
  have hstands := h.stands
  rw [Sys.step] at hstep
  split at hstep
  next i hpc =>
    split_ifs at hstep with hi
    · exact h.setup hpc hi hstep
    · cases hstep
      rw [Stands, hpc] at hstands
      obtain rfl : i = p.scullNrDevs := Nat.le_antisymm hstands.le (Nat.le_of_not_lt hi)
      exact hgoes ⟨hstands.le, hstands.devices, hstands.numbered, hstands.geometryOk⟩
  next hpc =>
    cases hstep
    exact h.pInit hk hpc
  next i hpc =>
    split_ifs at hstep with hi
    · exact h.pSetup hpc hi hstep
    · cases hstep
      rw [Stands, hpc] at hstands
      obtain rfl : i = p.scullPNrDevs :=
        Nat.le_antisymm hstands.numbered.1.1 (Nat.le_of_not_lt hi)
      exact hgoes (.inr ⟨hstands.le, hstands.devices, hstands.numbered, hstands.geometryOk⟩)
  next => cases hstep

theorem Inv.step [Fintype F] {a : Act P F β} (hk : c₀.Kept) (h : s.Inv p κ c₀)
    (hstep : s.step p κ a = .ok t) : t.Inv p κ c₀ := by
  cases a with
  | load major ok kmalloc =>
    rw [Sys.step] at hstep
    split at hstep
    next hpc => exact (h.loadImage hpc major).load hk hpc p.geometryOk hstep
    next => cases hstep
  | proceed ok kmalloc => exact h.proceed hk hstep
  | unload =>
    rw [Sys.step] at hstep
    split at hstep
    next hpc hrefs => exact h.unload hk hpc hrefs hstep
    next => cases hstep
  | opens devno f file interrupted kmalloc =>
    rw [Sys.step] at hstep
    split at hstep
    next i hdev =>
      obtain ⟨⟨r, c⟩, hon, rfl⟩ := Outcome.map_eq_ok.mp hstep
      exact h.opensBare hon nofun
    next i hdev =>
      obtain ⟨⟨r, c⟩, hon, rfl⟩ := Outcome.map_eq_ok.mp hstep
      exact h.opensPipe hon
    next =>
      cases hstep
      exact h
  | release i f =>
    rw [Sys.step] at hstep
    split_ifs at hstep with hf
    cases hstep
    exact h.release hf
  | call i f op =>
    rw [Sys.step] at hstep
    split_ifs at hstep with hf
    obtain ⟨⟨r, c⟩, hon, rfl⟩ := Outcome.map_eq_ok.mp hstep
    refine h.onBare hon ?_
    cases op <;> exact nofun
  | ioctl cmd =>
    rw [Sys.step] at hstep
    split_ifs at hstep with hrefs
    exact h.ioctl hrefs hstep
  | ioctlTsize arg =>
    rw [Sys.step] at hstep
    split_ifs at hstep with hrefs
    cases hstep
    exact h.ioctlTsize hrefs arg
  | pipe i a =>
    rw [Sys.step] at hstep
    split_ifs at hstep
    cases a with
    | opens => cases hstep
    | ioctlTsize => cases hstep
    | release f =>
      obtain ⟨⟨r, c⟩, hon, rfl⟩ := Outcome.map_eq_ok.mp hstep
      exact h.releasePipe hon
    | enter q call =>
      obtain ⟨⟨r, c⟩, hon, rfl⟩ := Outcome.map_eq_ok.mp hstep
      exact h.callPipe hon nofun nofun
    | transfer q fault =>
      obtain ⟨⟨r, c⟩, hon, rfl⟩ := Outcome.map_eq_ok.mp hstep
      exact h.callPipe hon nofun nofun
    | interrupted q =>
      obtain ⟨⟨r, c⟩, hon, rfl⟩ := Outcome.map_eq_ok.mp hstep
      exact h.callPipe hon nofun nofun

variable [Fintype F] {as : List (Act P F β)}

/-- One bare device and one pipe. -/
def one : Params where
  scullMajor := 250
  scullMinor := 0
  scullNrDevs := 1
  scullPNrDevs := 1
  scullQuantum := 2
  scullQset := 2
  scullPBuffer := 2
  nrDevs_pos := by decide
  minors_le := by decide
  geometryOk := by decide

def quiet : Chrdevs Dev := { regions := [], cdevs := fun _ => none }

end

end Sys

end KernelExperiment.Module
