import KernelExperiment.Scull.Ioctl

/-! Whether `scull_read` and `scull_write` can divide by the geometry of their device, under ioctls
of any kind from any caller. The globals that an ioctl assigns get into the device with the next
trim. -/

namespace KernelExperiment.Scull.Divisions
open Kernel Runs

variable {β : Type*}

structure Sys (β : Type*) where
  driver : Driver β
  scullPBuffer : Int
  deriving DecidableEq

/-- Of the opens only the write-only ones do anything to the device. -/
inductive Act (β : Type*) where
  | ioctl (cmd arg : UInt32) (c : Caller)
  | opensWriteOnly (interrupted : Bool)
  | read (fPos : Int) (count : ℕ) (interrupted : Bool) (fault : Option ℕ)
  | write (fPos : Int) (buf : List β) (interrupted : Bool) (fault : Option ℕ)

/-- The divisors are positive, and neither the item size nor the bytes of a pointer array
overflow. -/
def Sound (quantum qset : Int) : Prop :=
  1 ≤ quantum ∧ 1 ≤ qset ∧ toLong (quantum * qset) = quantum * qset ∧
    (sizeT (qset * 4) : Int) = qset * 4

instance (quantum qset : Int) : Decidable (Sound quantum qset) :=
  inferInstanceAs (Decidable (_ ∧ _))

namespace Sys

def loaded : Sys β := { driver := Driver.loaded 4000 1000, scullPBuffer := 4000 }

def step [OfNat β 0] (κ : Kmalloc β) (s : Sys β) : Act β → Outcome (Sys β)
  | .ioctl cmd arg c =>
    let g := ((s.driver.config s.scullPBuffer).scullIoctl cmd arg c).2
    .ok { driver := s.driver.withConfig g, scullPBuffer := g.scullPBuffer }
  | .opensWriteOnly interrupted =>
    if interrupted then .ok s
    else
      match s.driver.scullTrim with
      | none => .fault
      | some driver => .ok { s with driver }
  | .read fPos count interrupted fault =>
    if interrupted then .ok s
    else
      match s.driver.scullRead κ s.driver.dev.quantum s.driver.dev.qset fPos count fault with
      | none => .fault
      | some (_, driver) => .ok { s with driver }
  | .write fPos buf interrupted fault =>
    if interrupted then .ok s
    else
      match s.driver.scullWrite κ s.driver.dev.quantum s.driver.dev.qset fPos buf fault with
      | none => .fault
      | some (_, driver) => .ok { s with driver }

/-- A call that comes to its divisions, if it does, has a sound geometry for them. -/
def DividesSoundly (s : Sys β) : Act β → Prop
  | .read fPos _ false _ => fPos < s.driver.dev.size → Sound s.driver.dev.quantum s.driver.dev.qset
  | .write _ _ false _ => Sound s.driver.dev.quantum s.driver.dev.qset
  | _ => True

/-- A write-only open whose trim goes through finds sound globals. -/
def TrimsSoundly (s : Sys β) : Act β → Prop
  | .opensWriteOnly false =>
    s.driver.scullTrim.isSome → Sound s.driver.scullQuantum s.driver.scullQset
  | _ => True

end Sys

/-! The geometry of the device is a copy of the globals made by a trim. -/

variable {κ : Kmalloc β} {d d' : Driver β} {s t : Sys β} {a : Act β}

structure SameGeometry (d d' : Driver β) : Prop where
  quantum : d'.dev.quantum = d.dev.quantum
  qset : d'.dev.qset = d.dev.qset

theorem scullRead_geometry {quantum qset fPos : Int} {count : ℕ} {fault : Option ℕ}
    {r : Except Errno (List β)} (h : d.scullRead κ quantum qset fPos count fault = some (r, d')) :
    SameGeometry d d' := by
  rw [Driver.scullRead] at h
  by_cases heof : fPos ≥ d.dev.size
  · rw [if_pos heof] at h
    cases h
    exact ⟨rfl, rfl⟩
  · rw [if_neg heof] at h
    obtain ⟨a, -, h⟩ := Option.bind_eq_some_iff.mp h
    obtain ⟨slot, -, h⟩ := Option.bind_eq_some_iff.mp h
    cases slot with
    | none =>
      cases h
      exact ⟨rfl, rfl⟩
    | some qm =>
      obtain ⟨bytes, -, h⟩ := Option.map_eq_some_iff.mp h
      split_ifs at h <;> (cases h; exact ⟨rfl, rfl⟩)

theorem scullTrim_geometry (h : d.scullTrim = some d') :
    d'.dev.quantum = d.scullQuantum ∧ d'.dev.qset = d.scullQset := by
  obtain ⟨blocks, -, rfl⟩ := Option.map_eq_some_iff.mp h
  exact ⟨rfl, rfl⟩

/-- What any call whatever would divide by is sound. -/
def Sys.DeviceSound (s : Sys β) : Prop := Sound s.driver.dev.quantum s.driver.dev.qset

instance (s : Sys β) : Decidable s.DeviceSound := inferInstanceAs (Decidable (Sound _ _))

theorem deviceSound_iff : s.DeviceSound ↔ ∀ a, s.DividesSoundly a := by
  constructor
  · intro h a
    cases a with
    | read fPos count interrupted fault =>
      cases interrupted with
      | true => trivial
      | false => exact fun _ => h
    | write fPos buf interrupted fault =>
      cases interrupted with
      | true => trivial
      | false => exact h
    | _ => trivial
  · exact fun h => h (.write 0 [] false none)

theorem deviceSound_congr (h : SameGeometry s.driver t.driver) :
    t.DeviceSound ↔ s.DeviceSound := by
  rw [Sys.DeviceSound, Sys.DeviceSound, h.quantum, h.qset]

variable [OfNat β 0]

theorem scullWrite_geometry {quantum qset fPos : Int} {buf : List β} {fault : Option ℕ}
    {r : Except Errno ℕ} (h : d.scullWrite κ quantum qset fPos buf fault = some (r, d')) :
    SameGeometry d d' := by
  rw [Driver.scullWrite] at h
  obtain ⟨a, -, h⟩ := Option.bind_eq_some_iff.mp h
  split at h
  · cases h
    exact ⟨rfl, rfl⟩
  · split at h
    · cases h
      exact ⟨rfl, rfl⟩
    · obtain ⟨slot, -, h⟩ := Option.bind_eq_some_iff.mp h
      split at h
      · cases h
        exact ⟨rfl, rfl⟩
      · obtain ⟨bytes, -, h⟩ := Option.map_eq_some_iff.mp h
        dsimp only at h
        split_ifs at h <;> (cases h; exact ⟨rfl, rfl⟩)

/-- A step from a sound device leads to one exactly when a trim in it finds sound globals. -/
theorem step_sound_iff (hs : s.DeviceSound) (h : s.step κ a = .ok t) :
    t.DeviceSound ↔ s.TrimsSoundly a := by
  cases a with
  | ioctl cmd arg c =>
    cases h
    exact iff_of_true hs trivial
  | opensWriteOnly interrupted =>
    rw [Sys.step] at h
    cases interrupted with
    | true =>
      cases h
      exact iff_of_true hs trivial
    | false =>
      rw [if_neg Bool.false_ne_true] at h
      split at h
      · cases h
      next driver htrim =>
        cases h
        obtain ⟨hquantum, hqset⟩ := scullTrim_geometry htrim
        rw [Sys.TrimsSoundly, htrim, Sys.DeviceSound, hquantum, hqset]
        exact (imp_iff_right rfl).symm
  | read fPos count interrupted fault =>
    rw [Sys.step] at h
    split_ifs at h
    · cases h
      exact iff_of_true hs trivial
    · split at h
      · cases h
      next hread =>
        cases h
        exact iff_of_true ((deviceSound_congr (scullRead_geometry hread)).mpr hs) trivial
  | write fPos buf interrupted fault =>
    rw [Sys.step] at h
    split_ifs at h
    · cases h
      exact iff_of_true hs trivial
    · split at h
      · cases h
      next hwrite =>
        cases h
        exact iff_of_true ((deviceSound_congr (scullWrite_geometry hwrite)).mpr hs) trivial

theorem trimsSoundly_of_stuck (h : ∀ t, s.step κ a ≠ .ok t) : s.TrimsSoundly a := by
  cases a with
  | opensWriteOnly interrupted =>
    cases interrupted with
    | true => trivial
    | false =>
      intro htrim
      obtain ⟨driver, hdriver⟩ := Option.isSome_iff_exists.mp htrim
      refine absurd ?_ (h { s with driver })
      rw [Sys.step, if_neg Bool.false_ne_true, hdriver]
  | _ => trivial

/-- In every state of a run whatever call comes next divides soundly, exactly when all trims of the
run find sound globals. -/
theorem dividesSoundly_iff_trimsSoundly (κ : Kmalloc β) (acts : List (Act β)) :
    Always (Sys.step κ) (fun s => ∀ a, s.DividesSoundly a) Sys.loaded acts ↔
      Meets (Sys.step κ) Sys.TrimsSoundly Sys.loaded acts := by
  have hloaded : Sound 4000 1000 := by decide
  simp only [← deviceSound_iff]
  exact always_iff_meets (fun _ _ _ => step_sound_iff) (fun _ _ _ => trimsSoundly_of_stuck) hloaded

/-- A privileged caller tells a quantum of 0, and a write-only open takes it over. -/
def tellZero : List (Act Byte) :=
  [.ioctl (Command.tell .quantum).word 0
      { capSysAdmin := true, accessOk := true, user := none, storeOk := true },
    .opensWriteOnly false]

/-- The next write divides by zero. -/
theorem zero_quantum_divides :
    ¬Always (Sys.step ample) (fun s => ∀ a, s.DividesSoundly a) Sys.loaded tellZero ∧
      exec (Sys.step ample) Sys.loaded (tellZero ++ [.write 0 [1] false none]) = .fault := by
  have hrun : (exec (Sys.step ample) Sys.loaded tellZero).map
      (fun s => decide s.DeviceSound) = .ok false := by decide
  obtain ⟨s, hs, hbad⟩ := Outcome.map_eq_ok.mp hrun
  refine ⟨fun h => of_decide_eq_false hbad (deviceSound_iff.mpr (h.last hs)), by decide⟩

end KernelExperiment.Scull.Divisions
