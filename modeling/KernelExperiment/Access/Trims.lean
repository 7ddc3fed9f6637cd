import KernelExperiment.Access.Gate
import KernelExperiment.Access.Single

/-! All of the access devices with the reads and writes on them. An open is made through the `struct
file` that it will leave open; a write-only one trims the device after the section that has let it in,
while reads and writes go by the semaphore of the device. -/

namespace KernelExperiment.Access.Trims
open Kernel Population Runs

/-- The devices of `scullpriv` go by the terminal. -/
inductive Device where
  | single
  | user
  | wuser
  | priv (key : ℕ)
  deriving DecidableEq, Repr

/-- Whether the device is one that is created when it is first opened. -/
def Device.cloned : Device → Bool
  | priv _ => true
  | _ => false

/-- How far the open of a file has come, on which device. -/
inductive FileState where
  | closed
  | atomicInc
  | creating (key : ℕ) (wronly : Bool)
  | granted (dev : Device) (wronly : Bool)
  | trimming (dev : Device)
  | opened (dev : Device)
  deriving DecidableEq, Repr

/-- Where a process is in a read or a write. -/
inductive Pc (F : Type*) where
  | outside
  | down (f : F)
  | up (f : F)
  deriving DecidableEq

structure Sys (P F : Type*) where
  available : Int
  user : Gate
  wuser : Gate
  clones : List ℕ
  files : F → FileState
  sem : Device → Option P
  pc : P → Pc F

inductive Act (P F : Type*) where
  | opens (f : F) (dev : Device) (c : Cred) (wronly noMemory : Bool)
  | proceed (f : F)
  | release (f : F)
  | call (p : P) (f : F)
  | down (p : P) (interrupted : Bool)
  | up (p : P)

/-- The step begins nothing and gives nothing back. -/
def Act.GoesOn {P F : Type*} : Act P F → Prop
  | proceed _ | down _ _ | up _ => True
  | _ => False

namespace FileState

/-- In `scull_c_lookfor_device`, with a device that is not in the list yet. -/
def creates : FileState → Bool
  | creating _ _ => true
  | _ => false

/-- The device on which a `scull_trim` is under way. -/
def trims : FileState → Option Device
  | creating key _ => some (.priv key)
  | trimming dev => some dev
  | _ => none

/-- The device that a write-only open has been let in to, until its trim is over. -/
def pending : FileState → Option Device
  | granted dev true | trimming dev => some dev
  | _ => none

/-- The device that an open has got, once it has. -/
def device : FileState → Option Device
  | granted dev _ | trimming dev | opened dev => some dev
  | _ => none

end FileState

def Pc.uses {F : Type*} : Pc F → Option F
  | outside => none
  | down f | up f => some f

namespace Sys

variable {P F : Type*}

def initial : Sys P F :=
  { available := 1, user := .initial, wuser := .initial, clones := [], files := fun _ => .closed,
    sem := fun _ => none, pc := fun _ => .outside }

variable [DecidableEq P] [DecidableEq F]

def set (s : Sys P F) (f : F) (x : FileState) : Sys P F :=
  { s with files := Function.update s.files f x }

def goto (s : Sys P F) (p : P) (c : Pc F) : Sys P F := { s with pc := Function.update s.pc p c }

def setSem (s : Sys P F) (dev : Device) (holder : Option P) : Sys P F :=
  { s with sem := Function.update s.sem dev holder }

section
variable {s : Sys P F} {f g : F} {p q : P} {x : FileState} {c : Pc F} {dev dev' : Device}
  {holder : Option P}

omit [DecidableEq P] in
@[simp] theorem files_set_self : (s.set f x).files f = x := Function.update_self ..

omit [DecidableEq P] in
theorem files_set_of_ne (h : g ≠ f) : (s.set f x).files g = s.files g :=
  Function.update_of_ne h ..

omit [DecidableEq F] in
@[simp] theorem pc_goto_self : (s.goto p c).pc p = c := Function.update_self ..

omit [DecidableEq F] in
theorem pc_goto_of_ne (h : q ≠ p) : (s.goto p c).pc q = s.pc q := Function.update_of_ne h ..

omit [DecidableEq P] [DecidableEq F] in
@[simp] theorem sem_setSem_self : (s.setSem dev holder).sem dev = holder := Function.update_self ..

omit [DecidableEq P] [DecidableEq F] in
theorem sem_setSem_of_ne (h : dev' ≠ dev) : (s.setSem dev holder).sem dev' = s.sem dev' :=
  Function.update_of_ne h ..

end

/-- The section of an open. One that is turned away leaves everything as it is, and so does one that
has to wait, until it is made again. -/
def openSection (s : Sys P F) (f : F) (c : Cred) (wronly noMemory : Bool) : Device → Sys P F
  | .single =>
    match Single.atomicDecAndTest s.available with
    | (available, true) => { s with available }.set f (.granted .single wronly)
    | (available, false) => { s with available }.set f .atomicInc
  | .user =>
    if s.user.Busy c then s
    else { s with user := s.user.enter c }.set f (.granted .user wronly)
  | .wuser =>
    if s.wuser.Available c then { s with wuser := s.wuser.enter c }.set f (.granted .wuser wronly)
    else s
  | .priv key =>
    if key ∈ s.clones then s.set f (.granted (.priv key) wronly)
    else if noMemory then s
    else s.set f (.creating key wronly)

/-- What a release gives back. -/
def giveBack (s : Sys P F) : Device → Sys P F
  | .single => { s with available := s.available + 1 }
  | .user => { s with user := s.user.leave }
  | .wuser => { s with wuser := s.wuser.leave }
  | .priv _ => s

variable [Fintype P] [Fintype F]

def step (s : Sys P F) : Act P F → Outcome (Sys P F)
  | .opens f dev c wronly noMemory =>
    -- scull_c_lock is held as long as a device is being created
    if s.files f = .closed ∧ (dev.cloned = true → ∀ g, (s.files g).creates = false) then
      .ok (s.openSection f c wronly noMemory dev)
    else .blocked
  | .proceed f =>
    match s.files f with
    | .atomicInc => .ok ({ s with available := s.available + 1 }.set f .closed)
    | .creating key wronly =>
      .ok ({ s with clones := key :: s.clones }.set f (.granted (.priv key) wronly))
    | .granted dev true => .ok (s.set f (.trimming dev))
    | .granted dev false => .ok (s.set f (.opened dev))
    | .trimming dev => .ok (s.set f (.opened dev))
    | .closed => .blocked
    | .opened _ => .blocked
  -- a file is released when no call has it any more
  | .release f =>
    match s.files f with
    | .opened dev =>
      if ∀ p, (s.pc p).uses ≠ some f then .ok ((s.giveBack dev).set f .closed) else .blocked
    | _ => .blocked
  | .call p f =>
    match s.pc p, s.files f with
    | .outside, .opened _ => .ok (s.goto p (.down f))
    | _, _ => .blocked
  | .down p interrupted =>
    match s.pc p with
    | .down f =>
      match s.files f with
      | .opened dev =>
        if interrupted then .ok (s.goto p .outside)
        else
          match s.sem dev with
          | none => .ok ((s.setSem dev (some p)).goto p (.up f))
          | some _ => .blocked
      | _ => .blocked
    | _ => .blocked
  | .up p =>
    match s.pc p with
    | .up f =>
      match s.files f with
      | .opened dev => .ok ((s.setSem dev none).goto p .outside)
      | _ => .blocked
    | _ => .blocked

/-- A `scull_trim` of a device runs only while nobody is between the `down` and the `up` of a read or a
write on it. -/
def TrimsAlone (s : Sys P F) : Prop := ∀ f dev, (s.files f).trims = some dev → s.sem dev = none

/-- A read or a write of the device has been called and has not returned. -/
def InUse (s : Sys P F) (dev : Device) : Prop :=
  ∃ p f, (s.pc p).uses = some f ∧ s.files f = .opened dev

/-- The test of an open lets it in to a device that exists. -/
def LetsIn (s : Sys P F) (c : Cred) : Device → Prop
  | .single => s.available = 1
  | .user => ¬s.user.Busy c
  | .wuser => s.wuser.Available c
  | .priv key => key ∈ s.clones

/-- On the devices that can be open more than once, no write-only open is let in while a read or a
write is under way, and none is called from then on until the trim is over. -/
def Apart (s : Sys P F) : Act P F → Prop
  | .opens f dev c true _ =>
    s.files f = .closed → (dev.cloned = true → ∀ g, (s.files g).creates = false) →
      dev ≠ .single → s.LetsIn c dev → ¬s.InUse dev
  | .call p f =>
    s.pc p = .outside → ∀ dev, s.files f = .opened dev → dev ≠ .single →
      ∀ g, (s.files g).pending ≠ some dev
  | _ => True

/-- Trims run alone from here on, however the opens and the calls under way go on. -/
def StaysAlone (s : Sys P F) : Prop :=
  ∀ more, (∀ a ∈ more, Act.GoesOn a) → Always step TrimsAlone s more

/-! What a step does. -/

/-- The steps of a file that leave `scull_s_available` alone. -/
inductive FileMove (s : Sys P F) (f : F) : FileState → Prop
  | granted {dev wronly} (hf : s.files f = .closed) (hdev : dev ≠ .single)
      (hknown : ∀ key, dev = .priv key → key ∈ s.clones) : FileMove s f (.granted dev wronly)
  | creating {key wronly} (hf : s.files f = .closed) (hnew : key ∉ s.clones)
      (hlock : ∀ g, (s.files g).creates = false) : FileMove s f (.creating key wronly)
  | trimming {dev} (hf : s.files f = .granted dev true) : FileMove s f (.trimming dev)
  | opened {dev} (hf : s.files f = .granted dev false ∨ s.files f = .trimming dev) :
      FileMove s f (.opened dev)
  | closed {dev} (hf : s.files f = .opened dev) (hdev : dev ≠ .single)
      (hfree : ∀ p, (s.pc p).uses ≠ some f) : FileMove s f .closed

structure SameButGates (s u : Sys P F) : Prop where
  available : u.available = s.available
  clones : u.clones = s.clones
  files : u.files = s.files
  sem : u.sem = s.sem
  pc : u.pc = s.pc

inductive Move (s : Sys P F) : Sys P F → Prop
  | stay : Move s s
  | takes {f wronly} (hf : s.files f = .closed) (h : s.available = 1) :
      Move s ({ s with available := 0 }.set f (.granted .single wronly))
  | borrows {f} (hf : s.files f = .closed) :
      Move s ({ s with available := s.available - 1 }.set f .atomicInc)
  | undoes {f} (hf : s.files f = .atomicInc) :
      Move s ({ s with available := s.available + 1 }.set f .closed)
  | returns {f} (hf : s.files f = .opened .single) (hfree : ∀ p, (s.pc p).uses ≠ some f) :
      Move s ({ s with available := s.available + 1 }.set f .closed)
  | created {f key wronly} (hf : s.files f = .creating key wronly) :
      Move s ({ s with clones := key :: s.clones }.set f (.granted (.priv key) wronly))
  | file {f x u} (hu : SameButGates s u) (hx : FileMove s f x) : Move s (u.set f x)
  | call {p f dev} (hp : s.pc p = .outside) (hf : s.files f = .opened dev) :
      Move s (s.goto p (.down f))
  | interrupted {p f} (hp : s.pc p = .down f) : Move s (s.goto p .outside)
  | down {p f dev} (hp : s.pc p = .down f) (hf : s.files f = .opened dev)
      (hsem : s.sem dev = none) : Move s ((s.setSem dev (some p)).goto p (.up f))
  | up {p f dev} (hp : s.pc p = .up f) (hf : s.files f = .opened dev) :
      Move s ((s.setSem dev none).goto p .outside)

variable {s t u : Sys P F} {f : F} {p : P} {dev : Device}

omit [Fintype P] [Fintype F] in
theorem openSection_move {c : Cred} {wronly noMemory : Bool} (hf : s.files f = .closed)
    (hlock : dev.cloned = true → ∀ g, (s.files g).creates = false) :
    Move s (s.openSection f c wronly noMemory dev) := by
  cases dev with
  | single =>
    rw [openSection]
    split
    case h_1 available heq =>
      obtain ⟨rfl, htest⟩ := Prod.mk.inj heq
      have hzero : s.available - 1 = 0 := of_decide_eq_true htest
      rw [hzero]
      exact .takes hf (by omega)
    case h_2 available heq =>
      obtain ⟨rfl, -⟩ := Prod.mk.inj heq
      exact .borrows hf
  | user =>
    rw [openSection]
    split_ifs
    · exact .stay
    · exact .file ⟨rfl, rfl, rfl, rfl, rfl⟩ (.granted hf nofun nofun)
  | wuser =>
    rw [openSection]
    split_ifs
    · exact .file ⟨rfl, rfl, rfl, rfl, rfl⟩ (.granted hf nofun nofun)
    · exact .stay
  | priv key =>
    rw [openSection]
    split_ifs with hknown
    · exact .file ⟨rfl, rfl, rfl, rfl, rfl⟩ (.granted hf nofun fun k hk => by cases hk; exact hknown)
    · exact .stay
    · exact .file ⟨rfl, rfl, rfl, rfl, rfl⟩ (.creating hf hknown (hlock rfl))

theorem step_move {a : Act P F} (h : s.step a = .ok t) : Move s t := by
  cases a with
  | opens f dev c wronly noMemory =>
    rw [step] at h
    split_ifs at h with hok
    cases h
    exact openSection_move hok.1 hok.2
  | proceed f =>
    rw [step] at h
    split at h <;> cases h
    case h_1 hf => exact .undoes hf
    case h_2 hf => exact .created hf
    case h_3 hf => exact .file ⟨rfl, rfl, rfl, rfl, rfl⟩ (.trimming hf)
    case h_4 hf => exact .file ⟨rfl, rfl, rfl, rfl, rfl⟩ (.opened (Or.inl hf))
    case h_5 hf => exact .file ⟨rfl, rfl, rfl, rfl, rfl⟩ (.opened (Or.inr hf))
  | release f =>
    rw [step] at h
    split at h
    case h_1 dev hf =>
      split_ifs at h with hfree
      cases h
      cases dev with
      | single => exact .returns hf hfree
      | user => exact .file ⟨rfl, rfl, rfl, rfl, rfl⟩ (.closed hf nofun hfree)
      | wuser => exact .file ⟨rfl, rfl, rfl, rfl, rfl⟩ (.closed hf nofun hfree)
      | priv key => exact .file ⟨rfl, rfl, rfl, rfl, rfl⟩ (.closed hf nofun hfree)
    case h_2 => cases h
  | call p f =>
    rw [step] at h
    split at h
    case h_1 hp hf =>
      cases h
      exact .call hp hf
    case h_2 => cases h
  | down p interrupted =>
    rw [step] at h
    split at h
    case h_1 f hp =>
      split at h
      case h_1 dev hf =>
        split_ifs at h
        · cases h
          exact .interrupted hp
        · split at h
          case h_1 hsem =>
            cases h
            exact .down hp hf hsem
          case h_2 => cases h
      case h_2 => cases h
    case h_2 => cases h
  | up p =>
    rw [step] at h
    split at h
    case h_1 f hp =>
      split at h
      case h_1 dev hf =>
        cases h
        exact .up hp hf
      case h_2 => cases h
    case h_2 => cases h

/-! The single-open device is that of the module on its own, with files for processes. -/

end Sys

namespace FileState

def onSingle (x : FileState) : Bool := x.device = some .single

def singlePc : FileState → Single.Pc
  | atomicInc => .atomicInc
  | _ => .outside none

end FileState

namespace Sys

variable {P F : Type*} [Fintype F] {s t u : Sys P F} {f : F} {p : P} {dev : Device}

def single (s : Sys P F) : Single.Sys F :=
  { available := s.available
    files := num FileState.onSingle s.files
    pc := fun f => (s.files f).singlePc }

section
variable [DecidableEq F]

/-- What a move of one file does to the two counts. -/
theorem counts_set [DecidableEq P] (u : Sys P F) {y : FileState} (hf : u.files f = y)
    (x : FileState) :
    (u.set f x).single.files + y.onSingle.toNat = u.single.files + x.onSingle.toNat ∧
      num Single.Pc.undoing (u.set f x).single.pc + y.singlePc.undoing.toNat =
        num Single.Pc.undoing u.single.pc + x.singlePc.undoing.toNat := by
  have hpc : num Single.Pc.undoing (u.set f x).single.pc =
      num (fun x => x.singlePc.undoing) (Function.update u.files f x) := rfl
  rw [hpc, ← hf]
  exact ⟨num_update FileState.onSingle u.files f x,
    num_update (fun x : FileState => x.singlePc.undoing) u.files f x⟩

variable [DecidableEq P]

omit [DecidableEq P] [DecidableEq F] [Fintype F] in
theorem FileMove.same_single {x : FileState} (hx : FileMove s f x) :
    x.onSingle = (s.files f).onSingle ∧ x.singlePc = (s.files f).singlePc := by
  unfold FileState.onSingle
  cases hx with
  | granted hf hdev hknown => simp [hf, FileState.device, FileState.singlePc, hdev]
  | creating hf hnew hlock => simp [hf, FileState.device, FileState.singlePc]
  | trimming hf => simp [hf, FileState.device, FileState.singlePc]
  | opened hf => rcases hf with hf | hf <;> simp [hf, FileState.device, FileState.singlePc]
  | closed hf hdev hfree => simp [hf, FileState.device, FileState.singlePc, hdev]

/-- A step that has nothing to do with the single-open device. -/
theorem balanced_set (hb : Single.Balanced s.single) (u : Sys P F) {x : FileState}
    (havailable : u.available = s.available) (hfiles : u.files = s.files)
    (hx : x.onSingle = (s.files f).onSingle ∧ x.singlePc = (s.files f).singlePc) :
    Single.Balanced (u.set f x).single := by
  obtain ⟨hcount, hundoing⟩ := counts_set u (congrFun hfiles f) x
  have hsame : u.single.files = s.single.files ∧ u.single.pc = s.single.pc := by
    unfold single
    rw [hfiles]
    exact ⟨rfl, rfl⟩
  rw [hx.1, hsame.1] at hcount
  rw [hx.2, hsame.2] at hundoing
  have hc := Nat.add_right_cancel hcount
  have hu := Nat.add_right_cancel hundoing
  refine ⟨hc ▸ hb.files_le, ?_⟩
  rw [hc, hu]
  exact havailable.trans hb.available_eq

theorem balanced_move (hb : Single.Balanced s.single) (hm : Move s t) :
    Single.Balanced t.single := by
  cases hm with
  | stay => exact hb
  | @takes f wronly hf h =>
    obtain ⟨hfiles, hundoing⟩ := counts_set { s with available := 0 } hf (.granted .single wronly)
    exact hb.flow (.takes h rfl hfiles hundoing)
  | @borrows f hf =>
    obtain ⟨hfiles, hundoing⟩ := counts_set { s with available := s.available - 1 } hf .atomicInc
    exact hb.flow (.borrows rfl hfiles hundoing)
  | @undoes f hf =>
    obtain ⟨hfiles, hundoing⟩ := counts_set { s with available := s.available + 1 } hf .closed
    exact hb.flow (.undoes rfl hfiles hundoing)
  | @returns f hf hfree =>
    obtain ⟨hfiles, hundoing⟩ := counts_set { s with available := s.available + 1 } hf .closed
    exact hb.flow (.returns rfl hfiles hundoing)
  | created hf =>
    refine balanced_set hb _ rfl rfl ?_
    rw [hf]
    exact ⟨rfl, rfl⟩
  | file hu hx => exact balanced_set hb _ hu.available hu.files hx.same_single
  | call => exact hb
  | interrupted => exact hb
  | down => exact hb
  | up => exact hb

/-! Whoever has a semaphore is at work on the device of it, and a device that is being created is not
open yet. -/

def Held (s : Sys P F) : Prop :=
  ∀ dev p, s.sem dev = some p → ∃ f, s.pc p = .up f ∧ s.files f = .opened dev

/-- A call goes through an open file, and has the semaphore of its device from the `down` on. -/
structure Working (s : Sys P F) : Prop where
  opened : ∀ p f, (s.pc p).uses = some f → ∃ dev, s.files f = .opened dev
  holds : ∀ p f dev, s.pc p = .up f → s.files f = .opened dev → s.sem dev = some p

structure Listed (s : Sys P F) : Prop where
  known : ∀ f key, (s.files f).device = some (.priv key) → key ∈ s.clones
  new : ∀ f key wronly, s.files f = .creating key wronly → key ∉ s.clones
  one : ∀ f g, (s.files f).creates = true → (s.files g).creates = true → f = g

omit [DecidableEq P] [Fintype F] in
theorem held_set (h : Held s) (u : Sys P F) {x : FileState} (hfiles : u.files = s.files)
    (hsem : u.sem = s.sem) (hpc : u.pc = s.pc)
    (hidle : ∀ p dev, s.pc p = .up f → s.files f ≠ .opened dev) : Held (u.set f x) := by
  intro dev p hp
  obtain ⟨g, hg, hopened⟩ := h dev p ((congrFun hsem dev).symm.trans hp)
  have hne : g ≠ f := by
    rintro rfl
    exact hidle p dev hg hopened
  refine ⟨g, (congrFun hpc p).trans hg, ?_⟩
  rw [files_set_of_ne hne, hfiles, hopened]

omit [DecidableEq P] [DecidableEq F] [Fintype F] in
theorem FileMove.idle {x : FileState} (hx : FileMove s f x) (p : P) (dev : Device)
    (hp : s.pc p = .up f) : s.files f ≠ .opened dev := by
  cases hx with
  | granted hf hdev hknown => simp [hf]
  | creating hf hnew hlock => simp [hf]
  | trimming hf => simp [hf]
  | opened hf => rcases hf with hf | hf <;> simp [hf]
  | closed hf hdev hfree => exact absurd (by rw [hp]; rfl) (hfree p)

omit [DecidableEq F] [Fintype F] in
theorem held_goto (h : Held s) {c : Pc F} (hp : ∀ f, s.pc p ≠ .up f) : Held (s.goto p c) := by
  intro dev q hq
  obtain ⟨f, hf, hopened⟩ := h dev q hq
  have hne : q ≠ p := by
    rintro rfl
    exact hp f hf
  exact ⟨f, (pc_goto_of_ne hne).trans hf, hopened⟩

omit [DecidableEq F] [Fintype F] in
theorem held_down (h : Held s) (hp : s.pc p = .down f) (hf : s.files f = .opened dev) :
    Held ((s.setSem dev (some p)).goto p (.up f)) := by
  intro dev' q hq
  by_cases hdev : dev' = dev
  · subst hdev
    obtain rfl : p = q := Option.some.inj (sem_setSem_self.symm.trans hq)
    exact ⟨f, pc_goto_self, hf⟩
  · obtain ⟨g, hg, hopened⟩ := h dev' q ((sem_setSem_of_ne hdev).symm.trans hq)
    have hne : q ≠ p := by
      rintro rfl
      cases hp.symm.trans hg
    exact ⟨g, (pc_goto_of_ne hne).trans hg, hopened⟩

omit [DecidableEq F] [Fintype F] in
theorem held_up (h : Held s) (hp : s.pc p = .up f) (hf : s.files f = .opened dev) :
    Held ((s.setSem dev none).goto p .outside) := by
  intro dev' q hq
  have hdev : dev' ≠ dev := by
    rintro rfl
    cases sem_setSem_self.symm.trans hq
  obtain ⟨g, hg, hopened⟩ := h dev' q ((sem_setSem_of_ne hdev).symm.trans hq)
  have hne : q ≠ p := by
    rintro rfl
    obtain rfl : f = g := Pc.up.inj (hp.symm.trans hg)
    exact hdev (FileState.opened.inj (hopened.symm.trans hf))
  exact ⟨g, (pc_goto_of_ne hne).trans hg, hopened⟩

omit [Fintype F] in
theorem held_move (h : Held s) (hm : Move s t) : Held t := by
  cases hm with
  | stay => exact h
  | takes hf => exact held_set h _ rfl rfl rfl (by simp [hf])
  | borrows hf => exact held_set h _ rfl rfl rfl (by simp [hf])
  | undoes hf => exact held_set h _ rfl rfl rfl (by simp [hf])
  | returns hf hfree =>
    refine held_set h _ rfl rfl rfl fun p dev hp => ?_
    exact absurd (by rw [hp]; rfl) (hfree p)
  | created hf => exact held_set h _ rfl rfl rfl (by simp [hf])
  | file hu hx => exact held_set h _ hu.files hu.sem hu.pc hx.idle
  | call hp => exact held_goto h (by simp [hp])
  | interrupted hp => exact held_goto h (by simp [hp])
  | down hp hf => exact held_down h hp hf
  | up hp hf => exact held_up h hp hf

omit [DecidableEq P] [DecidableEq F] [Fintype F] in
/-- No call goes through a file that is not open. -/
theorem Working.free (h : Working s) (hf : ∀ dev, s.files f ≠ .opened dev) (p : P) :
    (s.pc p).uses ≠ some f := by
  intro hp
  obtain ⟨dev, hopened⟩ := h.opened p f hp
  exact hf dev hopened

omit [DecidableEq P] [DecidableEq F] [Fintype F] in
theorem FileMove.free {x : FileState} (h : Working s) (hx : FileMove s f x) (p : P) :
    (s.pc p).uses ≠ some f := by
  cases hx with
  | granted hf hdev hknown => exact h.free (by simp [hf]) p
  | creating hf hnew hlock => exact h.free (by simp [hf]) p
  | trimming hf => exact h.free (by simp [hf]) p
  | opened hf => exact h.free (by rcases hf with hf | hf <;> simp [hf]) p
  | closed hf hdev hfree => exact hfree p

omit [DecidableEq P] [Fintype F] in
theorem working_set (h : Working s) (u : Sys P F) {x : FileState} (hfiles : u.files = s.files)
    (hsem : u.sem = s.sem) (hpc : u.pc = s.pc) (hfree : ∀ p, (s.pc p).uses ≠ some f) :
    Working (u.set f x) := by
  have hsame : ∀ p g, (s.pc p).uses = some g → (u.set f x).files g = s.files g := by
    intro p g hg
    have hne : g ≠ f := by
      rintro rfl
      exact hfree p hg
    rw [files_set_of_ne hne, hfiles]
  refine ⟨fun p g hp => ?_, fun p g dev hp hg => ?_⟩
  · have hp' : (s.pc p).uses = some g := congrFun hpc p ▸ hp
    obtain ⟨dev, hopened⟩ := h.opened p g hp'
    exact ⟨dev, (hsame p g hp').trans hopened⟩
  · have hp' : s.pc p = .up g := congrFun hpc p ▸ hp
    rw [hsame p g (by rw [hp']; rfl)] at hg
    exact (congrFun hsem dev).trans (h.holds p g dev hp' hg)

omit [DecidableEq F] [Fintype F] in
/-- A process that goes on without the semaphore. -/
theorem working_goto (h : Working s) {c : Pc F} (hc : ∀ f, c ≠ .up f)
    (hopened : ∀ f, c.uses = some f → ∃ dev, s.files f = .opened dev) : Working (s.goto p c) := by
  refine ⟨fun q g hq => ?_, fun q g dev hq => ?_⟩
  · by_cases hqp : q = p
    · rw [hqp, pc_goto_self] at hq
      exact hopened g hq
    · rw [pc_goto_of_ne hqp] at hq
      exact h.opened q g hq
  · by_cases hqp : q = p
    · rw [hqp, pc_goto_self] at hq
      exact absurd hq (hc g)
    · rw [pc_goto_of_ne hqp] at hq
      exact h.holds q g dev hq

omit [DecidableEq F] [Fintype F] in
theorem working_down (h : Working s) (hf : s.files f = .opened dev) (hsem : s.sem dev = none) :
    Working ((s.setSem dev (some p)).goto p (.up f)) := by
  refine ⟨fun q g hq => ?_, fun q g dev' hq hg => ?_⟩
  · by_cases hqp : q = p
    · rw [hqp, pc_goto_self] at hq
      obtain rfl : f = g := Option.some.inj hq
      exact ⟨dev, hf⟩
    · rw [pc_goto_of_ne hqp] at hq
      exact h.opened q g hq
  · by_cases hqp : q = p
    · rw [hqp, pc_goto_self] at hq
      obtain rfl : f = g := Pc.up.inj hq
      obtain rfl : dev = dev' := FileState.opened.inj (hf.symm.trans hg)
      rw [hqp]
      exact sem_setSem_self
    · rw [pc_goto_of_ne hqp] at hq
      have hheld : s.sem dev' = some q := h.holds q g dev' hq hg
      have hne : dev' ≠ dev := by
        rintro rfl
        cases hsem.symm.trans hheld
      exact (sem_setSem_of_ne hne).trans hheld

omit [DecidableEq F] [Fintype F] in
theorem working_up (h : Working s) (hp : s.pc p = .up f) (hf : s.files f = .opened dev) :
    Working ((s.setSem dev none).goto p .outside) := by
  refine ⟨fun q g hq => ?_, fun q g dev' hq hg => ?_⟩
  · by_cases hqp : q = p
    · rw [hqp, pc_goto_self] at hq
      cases hq
    · rw [pc_goto_of_ne hqp] at hq
      exact h.opened q g hq
  · by_cases hqp : q = p
    · rw [hqp, pc_goto_self] at hq
      cases hq
    · rw [pc_goto_of_ne hqp] at hq
      have hheld : s.sem dev' = some q := h.holds q g dev' hq hg
      have hne : dev' ≠ dev := by
        rintro rfl
        exact hqp (Option.some.inj (hheld.symm.trans (h.holds p f dev' hp hf)))
      exact (sem_setSem_of_ne hne).trans hheld

omit [Fintype F] in
theorem working_move (h : Working s) (hm : Move s t) : Working t := by
  cases hm with
  | stay => exact h
  | takes hf => exact working_set h _ rfl rfl rfl (h.free (by simp [hf]))
  | borrows hf => exact working_set h _ rfl rfl rfl (h.free (by simp [hf]))
  | undoes hf => exact working_set h _ rfl rfl rfl (h.free (by simp [hf]))
  | returns hf hfree => exact working_set h _ rfl rfl rfl hfree
  | created hf => exact working_set h _ rfl rfl rfl (h.free (by simp [hf]))
  | file hu hx => exact working_set h _ hu.files hu.sem hu.pc (hx.free h)
  | @call p f dev hp hf =>
    refine working_goto h nofun fun g hg => ?_
    obtain rfl : f = g := Option.some.inj hg
    exact ⟨dev, hf⟩
  | interrupted hp => exact working_goto h nofun nofun
  | down hp hf hsem => exact working_down h hf hsem
  | up hp hf => exact working_up h hp hf

omit [DecidableEq P] [Fintype F] in
/-- A file that goes to a device of the list, or has none. -/
theorem listed_set (h : Listed s) (u : Sys P F) {x : FileState} (hfiles : u.files = s.files)
    (hclones : ∀ key, key ∈ s.clones → key ∈ u.clones)
    (hnew : ∀ g key wronly, g ≠ f → s.files g = .creating key wronly → key ∉ u.clones)
    (hx : x.creates = false) (hknown : ∀ key, x.device = some (.priv key) → key ∈ u.clones) :
    Listed (u.set f x) := by
  have hother : ∀ g, g ≠ f → (u.set f x).files g = s.files g := fun g hg =>
    (files_set_of_ne hg).trans (congrFun hfiles g)
  have hne : ∀ g, ((u.set f x).files g).creates = true → g ≠ f := by
    rintro g hg rfl
    rw [files_set_self, hx] at hg
    cases hg
  refine ⟨fun g key hg => ?_, fun g key wronly hg => ?_, fun g g' hg hg' => ?_⟩
  · by_cases hgf : g = f
    · subst hgf
      rw [files_set_self] at hg
      exact hknown key hg
    · rw [hother g hgf] at hg
      exact hclones key (h.known g key hg)
  · have hgf := hne g (by rw [hg]; rfl)
    exact hnew g key wronly hgf ((hother g hgf).symm.trans hg)
  · rw [hother g (hne g hg)] at hg
    rw [hother g' (hne g' hg')] at hg'
    exact h.one g g' hg hg'

omit [DecidableEq P] [Fintype F] in
theorem listed_keep (h : Listed s) (u : Sys P F) {x : FileState} (hfiles : u.files = s.files)
    (hclones : u.clones = s.clones) (hx : x.creates = false)
    (hknown : ∀ key, x.device = some (.priv key) → key ∈ s.clones) : Listed (u.set f x) := by
  apply listed_set h u hfiles _ _ hx <;> rw [hclones]
  · exact hknown
  · exact fun _ hk => hk
  · exact fun g key wronly _ hg => h.new g key wronly hg

omit [DecidableEq P] [Fintype F] in
theorem listed_created (h : Listed s) {key : ℕ} {wronly : Bool}
    (hf : s.files f = .creating key wronly) :
    Listed ({ s with clones := key :: s.clones }.set f (.granted (.priv key) wronly)) := by
  refine listed_set h _ rfl (fun k hk => List.mem_cons_of_mem _ hk) ?_ rfl fun k hk => ?_
  · intro g k w hgf hg
    exact absurd (h.one g f (by rw [hg]; rfl) (by rw [hf]; rfl)) hgf
  · obtain rfl : key = k := by simpa [FileState.device] using hk
    exact List.mem_cons_self

omit [DecidableEq P] [Fintype F] in
theorem listed_creating (h : Listed s) (u : Sys P F) {key : ℕ} {wronly : Bool}
    (hfiles : u.files = s.files) (hclones : u.clones = s.clones) (hnew : key ∉ s.clones)
    (hlock : ∀ g, (s.files g).creates = false) : Listed (u.set f (.creating key wronly)) := by
  have hother : ∀ g, g ≠ f → (u.set f (.creating key wronly)).files g = s.files g := fun g hg =>
    (files_set_of_ne hg).trans (congrFun hfiles g)
  have honly : ∀ g, ((u.set f (.creating key wronly)).files g).creates = true → g = f := by
    intro g hg
    by_contra hgf
    rw [hother g hgf, hlock g] at hg
    cases hg
  refine ⟨fun g k hg => ?_, fun g k w hg => ?_, fun g g' hg hg' => ?_⟩
  · have hgf : g ≠ f := by
      rintro rfl
      rw [files_set_self] at hg
      cases hg
    rw [hother g hgf] at hg
    exact hclones ▸ h.known g k hg
  · obtain rfl := honly g (by rw [hg]; rfl)
    rw [files_set_self] at hg
    cases hg
    exact hclones ▸ hnew
  · exact (honly g hg).trans (honly g' hg').symm

omit [Fintype F] in
theorem listed_move (h : Listed s) (hm : Move s t) : Listed t := by
  cases hm with
  | stay => exact h
  | takes hf => exact listed_keep h _ rfl rfl rfl nofun
  | borrows hf => exact listed_keep h _ rfl rfl rfl nofun
  | undoes hf => exact listed_keep h _ rfl rfl rfl nofun
  | returns hf hfree => exact listed_keep h _ rfl rfl rfl nofun
  | created hf => exact listed_created h hf
  | @file f x u hu hx =>
    have hkeep : x.creates = false → (∀ key, x.device = some (.priv key) → key ∈ s.clones) →
        Listed (u.set f x) := listed_keep h u hu.files hu.clones
    cases hx with
    | granted hf hdev hknown =>
      exact hkeep rfl fun key hk => hknown key (Option.some.inj hk)
    | creating hf hnew hlock => exact listed_creating h u hu.files hu.clones hnew hlock
    | trimming hf => exact hkeep rfl fun key hk => h.known f key (by rw [hf]; exact hk)
    | opened hf =>
      refine hkeep rfl fun key hk => h.known f key ?_
      rcases hf with hf | hf <;> (rw [hf]; exact hk)
    | closed hf hdev hfree => exact hkeep rfl nofun
  | call => exact ⟨h.known, h.new, h.one⟩
  | interrupted => exact ⟨h.known, h.new, h.one⟩
  | down => exact ⟨h.known, h.new, h.one⟩
  | up => exact ⟨h.known, h.new, h.one⟩

structure Inv (s : Sys P F) : Prop where
  balanced : Single.Balanced s.single
  held : Held s
  working : Working s
  listed : Listed s

omit [DecidableEq P] [DecidableEq F] in
theorem inv_initial : Inv (Sys.initial : Sys P F) where
  balanced := by
    have hnone : num FileState.onSingle (Sys.initial : Sys P F).files = 0 :=
      num_eq_zero.mpr fun _ => rfl
    refine ⟨hnone.trans_le (Nat.zero_le 1), ?_⟩
    have hidle : num Single.Pc.undoing (Sys.initial : Sys P F).single.pc = 0 :=
      num_eq_zero.mpr fun _ => rfl
    rw [hidle]
    simp only [single, hnone]
    rfl
  held := nofun
  working := ⟨nofun, nofun⟩
  listed := ⟨nofun, nofun, nofun⟩

theorem inv_move (h : Inv s) (hm : Move s t) : Inv t :=
  ⟨balanced_move h.balanced hm, held_move h.held hm, working_move h.working hm,
    listed_move h.listed hm⟩

omit [DecidableEq P] [DecidableEq F] in
theorem single_unique (h : Inv s) {g : F} (hf : (s.files f).device = some .single)
    (hg : (s.files g).device = some .single) : f = g :=
  eq_of_num_le_one h.balanced.files_le (q := FileState.onSingle) (decide_eq_true hf)
    (decide_eq_true hg)

omit [DecidableEq P] [DecidableEq F] in
/-- Whoever reads or writes the single-open device has the only open file of it. -/
theorem sem_single (h : Inv s) (hf : (s.files f).device = some .single)
    (hclosed : s.files f ≠ .opened .single) : s.sem .single = none := by
  by_contra hsem
  obtain ⟨p, hp⟩ := Option.ne_none_iff_exists'.mp hsem
  obtain ⟨g, -, hopened⟩ := h.held .single p hp
  obtain rfl := single_unique h hf (by rw [hopened]; rfl)
  exact hclosed hopened

omit [DecidableEq P] [DecidableEq F] in
/-- Nobody is at work on a device that is not in the list yet. -/
theorem sem_priv (h : Inv s) {key : ℕ} (hnew : key ∉ s.clones) : s.sem (.priv key) = none := by
  by_contra hsem
  obtain ⟨p, hp⟩ := Option.ne_none_iff_exists'.mp hsem
  obtain ⟨f, -, hopened⟩ := h.held _ p hp
  exact hnew (h.listed.known f key (by rw [hopened]; rfl))

/-! Write-only opens that have been let in, and calls that are under way. -/

/-- No call is under way on a device that is to be trimmed, other than the single-open one. -/
def Separate (s : Sys P F) : Prop :=
  ∀ f dev, (s.files f).pending = some dev → dev = .single ∨ ¬s.InUse dev

omit [DecidableEq P] [DecidableEq F] in
theorem trimsAlone_of_separate (hi : Inv s) (h : Separate s) : TrimsAlone s := by
  intro f dev hf
  cases hx : s.files f with
  | creating key wronly =>
    rw [hx] at hf
    obtain rfl := Option.some.inj hf
    exact sem_priv hi (hi.listed.new f key wronly hx)
  | trimming dev' =>
    rw [hx] at hf
    obtain rfl : dev' = dev := Option.some.inj hf
    rcases h f dev' (by rw [hx]; rfl) with rfl | hfree
    · exact sem_single hi (by rw [hx]; rfl) (by rw [hx]; nofun)
    · by_contra hsem
      obtain ⟨p, hp⟩ := Option.ne_none_iff_exists'.mp hsem
      obtain ⟨g, hg, hopened⟩ := hi.held dev' p hp
      exact hfree ⟨p, g, by rw [hg]; rfl, hopened⟩
  | closed | atomicInc | granted | opened =>
    rw [hx] at hf
    cases hf

omit [DecidableEq P] [Fintype F] in
/-- A file that no call goes through. -/
theorem inUse_set (u : Sys P F) {x : FileState} (hfiles : u.files = s.files) (hpc : u.pc = s.pc)
    (hfree : ∀ p, (s.pc p).uses ≠ some f) : (u.set f x).InUse dev ↔ s.InUse dev := by
  have hne : ∀ p g, (s.pc p).uses = some g → g ≠ f := by
    rintro p g hg rfl
    exact hfree p hg
  have hset : (u.set f x).pc = s.pc := hpc
  unfold InUse
  rw [hset]
  refine exists_congr fun p => exists_congr fun g => and_congr_right fun hg => ?_
  rw [files_set_of_ne (hne p g hg), hfiles]

omit [DecidableEq P] [Fintype F] in
theorem separate_set (h : Separate s) (u : Sys P F) {x : FileState} (hfiles : u.files = s.files)
    (hpc : u.pc = s.pc) (hfree : ∀ p, (s.pc p).uses ≠ some f) :
    Separate (u.set f x) ↔ ∀ dev, x.pending = some dev → dev = .single ∨ ¬s.InUse dev := by
  constructor
  · intro ht dev hx
    rw [← inUse_set u hfiles hpc hfree]
    exact ht f dev (by rwa [files_set_self])
  · intro hx g dev hg
    rw [inUse_set u hfiles hpc hfree]
    by_cases hgf : g = f
    · rw [hgf, files_set_self] at hg
      exact hx dev hg
    · rw [files_set_of_ne hgf, hfiles] at hg
      exact h g dev hg

omit [DecidableEq P] [Fintype F] in
theorem separate_quiet (h : Separate s) (u : Sys P F) {x : FileState} (hfiles : u.files = s.files)
    (hpc : u.pc = s.pc) (hfree : ∀ p, (s.pc p).uses ≠ some f) (hx : x.pending = none) :
    Separate (u.set f x) :=
  (separate_set h u hfiles hpc hfree).mpr fun dev hdev => by cases hx.symm.trans hdev

omit [DecidableEq P] [DecidableEq F] [Fintype F] in
theorem separate_mono (h : Separate s) (hfiles : u.files = s.files)
    (huses : ∀ p f, (u.pc p).uses = some f → (s.pc p).uses = some f) : Separate u := by
  intro f dev hf
  rw [hfiles] at hf
  refine (h f dev hf).imp_right fun hfree hin => hfree ?_
  obtain ⟨p, g, hp, hg⟩ := hin
  exact ⟨p, g, huses p g hp, hfiles ▸ hg⟩

omit [DecidableEq F] [Fintype F] in
theorem uses_goto {c : Pc F} (hc : ∀ f, c.uses = some f → (s.pc p).uses = some f) (q : P) (f : F)
    (hq : ((s.goto p c).pc q).uses = some f) : (s.pc q).uses = some f := by
  by_cases hqp : q = p
  · rw [hqp, pc_goto_self] at hq
    exact hqp ▸ hc f hq
  · rwa [pc_goto_of_ne hqp] at hq

omit [DecidableEq P] in
theorem separate_openSection (hi : Inv s) (h : Separate s) (hf : s.files f = .closed) {c : Cred}
    {wronly noMemory : Bool} :
    Separate (s.openSection f c wronly noMemory dev) ↔
      (wronly = true → dev ≠ .single → s.LetsIn c dev → ¬s.InUse dev) := by
  have hfree : ∀ p, (s.pc p).uses ≠ some f := hi.working.free (by simp [hf])
  -- only the open of a device that can be open already is put to the test
  have hgrants : ∀ u : Sys P F, u.files = s.files → u.pc = s.pc → dev ≠ .single →
      s.LetsIn c dev → (Separate (u.set f (.granted dev wronly)) ↔
        (wronly = true → dev ≠ .single → s.LetsIn c dev → ¬s.InUse dev)) := by
    intro u hfiles hpc hdev hlets
    rw [separate_set h u hfiles hpc hfree]
    cases wronly with
    | true => simp [FileState.pending, hdev, hlets]
    | false => simp [FileState.pending]
  have hrefuses : ∀ {u : Sys P F}, ¬s.LetsIn c dev → Separate u → (Separate u ↔
      (wronly = true → dev ≠ .single → s.LetsIn c dev → ¬s.InUse dev)) :=
    fun hlets hu => iff_of_true hu fun _ _ hin => absurd hin hlets
  cases dev with
  | single =>
    refine iff_of_true ?_ fun _ hdev => absurd rfl hdev
    rw [openSection]
    split
    · refine (separate_set h _ rfl rfl hfree).mpr fun dev hdev => Or.inl ?_
      cases wronly <;> cases hdev
      rfl
    · exact separate_quiet h _ rfl rfl hfree rfl
  | user =>
    rw [openSection]
    split_ifs with hbusy
    · exact hrefuses (not_not.mpr hbusy) h
    · exact hgrants _ rfl rfl nofun hbusy
  | wuser =>
    rw [openSection]
    split_ifs with havailable
    · exact hgrants _ rfl rfl nofun havailable
    · exact hrefuses havailable h
  | priv key =>
    rw [openSection]
    split_ifs with hknown
    · exact hgrants _ rfl rfl nofun hknown
    · exact hrefuses hknown h
    · exact hrefuses hknown (separate_quiet h _ rfl rfl hfree rfl)

omit [DecidableEq F] [Fintype F] in
/-- A read or a write that is called. -/
theorem separate_call (h : Separate s) (hp : s.pc p = .outside) (hf : s.files f = .opened dev) :
    Separate (s.goto p (.down f)) ↔ s.Apart (.call p f) := by
  have hin : (s.goto p (.down f)).InUse dev := ⟨p, f, by rw [pc_goto_self]; rfl, hf⟩
  constructor
  · intro ht _ dev' hdev' hsingle g hg
    obtain rfl : dev = dev' := FileState.opened.inj (hf.symm.trans hdev')
    exact (ht g dev hg).elim hsingle fun hfree => hfree hin
  · intro hquiet g dev' hg
    rcases h g dev' hg with hsingle | hfree
    · exact Or.inl hsingle
    · by_cases hdev' : dev' = dev
      · by_cases hsingle : dev = .single
        · exact Or.inl (hdev'.trans hsingle)
        · exact absurd (hdev' ▸ hg) (hquiet hp dev hf hsingle g)
      · refine Or.inr ?_
        rintro ⟨q, g', hq, hg'⟩
        by_cases hqp : q = p
        · rw [hqp, pc_goto_self] at hq
          obtain rfl : f = g' := Option.some.inj hq
          exact hdev' (FileState.opened.inj (hg'.symm.trans hf))
        · rw [pc_goto_of_ne hqp] at hq
          exact hfree ⟨q, g', hq, hg'⟩

variable [Fintype P] {a : Act P F}

/-- An open that goes on has its device pending already, or has just created it. -/
theorem separate_proceed (hi : Inv s) (h : Separate s) (hs : s.step (.proceed f) = .ok t) :
    Separate t := by
  have hfree : (∀ dev, s.files f ≠ .opened dev) → ∀ p, (s.pc p).uses ≠ some f := hi.working.free
  rw [step] at hs
  split at hs <;> cases hs
  case h_1 hf => exact separate_quiet h _ rfl rfl (hfree (by simp [hf])) rfl
  case h_2 key wronly hf =>
    refine (separate_set h _ rfl rfl (hfree (by simp [hf]))).mpr fun dev hdev => Or.inr ?_
    rintro ⟨p, g, -, hopened⟩
    -- the device was not in the list, so no file of it can be open
    obtain rfl : dev = .priv key := by cases wronly <;> cases hdev; rfl
    exact hi.listed.new f key wronly hf (hi.listed.known g key (by rw [hopened]; rfl))
  case h_3 dev hf =>
    refine (separate_set h _ rfl rfl (hfree (by simp [hf]))).mpr fun dev' hdev => ?_
    exact h f dev' (by rw [hf]; exact hdev)
  case h_4 hf => exact separate_quiet h _ rfl rfl (hfree (by simp [hf])) rfl
  case h_5 hf => exact separate_quiet h _ rfl rfl (hfree (by simp [hf])) rfl

theorem separate_step (hi : Inv s) (h : Separate s) (hs : s.step a = .ok t) :
    Separate t ↔ s.Apart a := by
  cases a with
  | opens f dev c wronly noMemory =>
    rw [step] at hs
    split_ifs at hs with hok
    cases hs
    rw [separate_openSection hi h hok.1]
    cases wronly with
    | true => exact ⟨fun h _ _ => h rfl, fun h _ => h hok.1 hok.2⟩
    | false => exact iff_of_true (fun hw => absurd hw Bool.false_ne_true) trivial
  | proceed f => exact iff_of_true (separate_proceed hi h hs) trivial
  | release f =>
    rw [step] at hs
    split at hs
    case h_1 dev hf =>
      split_ifs at hs with hfree
      cases hs
      have hpc : (s.giveBack dev).pc = s.pc := by cases dev <;> rfl
      have hfiles : (s.giveBack dev).files = s.files := by cases dev <;> rfl
      exact iff_of_true (separate_quiet h _ hfiles hpc hfree rfl) trivial
    case h_2 => cases hs
  | call p f =>
    rw [step] at hs
    split at hs
    case h_1 hp hf =>
      cases hs
      exact separate_call h hp hf
    case h_2 => cases hs
  | down p interrupted =>
    rw [step] at hs
    split at hs
    case h_1 f hp =>
      split at hs
      case h_1 dev hf =>
        split_ifs at hs
        · cases hs
          exact iff_of_true (separate_mono h rfl (uses_goto nofun)) trivial
        · split at hs
          case h_1 hsem =>
            cases hs
            have huses : ∀ g, (Pc.up f).uses = some g → (s.pc p).uses = some g := by
              rw [hp]
              exact fun g hg => hg
            exact iff_of_true
              (separate_mono h rfl (uses_goto (s := s.setSem dev (some p)) huses)) trivial
          case h_2 => cases hs
      case h_2 => cases hs
    case h_2 => cases hs
  | up p =>
    rw [step] at hs
    split at hs
    case h_1 f hp =>
      split at hs
      case h_1 dev hf =>
        cases hs
        exact iff_of_true (separate_mono h rfl (uses_goto (s := s.setSem dev none) nofun)) trivial
      case h_2 => cases hs
    case h_2 => cases hs

/-- A step that there is none of. -/
theorem apart_of_stuck (hstuck : ∀ t, s.step a ≠ .ok t) : s.Apart a := by
  cases a with
  | opens f dev c wronly noMemory =>
    cases wronly with
    | true =>
      intro hf hlock
      exact absurd (if_pos ⟨hf, hlock⟩) (hstuck _)
    | false => trivial
  | call p f =>
    intro hp dev hf
    exact absurd (by simp only [step, hp, hf]; rfl) (hstuck _)
  | proceed | release | down | up => trivial

omit [Fintype P] [Fintype F] [DecidableEq P] [DecidableEq F] in
theorem apart_of_goesOn (h : a.GoesOn) : s.Apart a := by
  cases a with
  | opens | release | call => exact h.elim
  | proceed | down | up => trivial

theorem StaysAlone.step (h : StaysAlone s) (ha : a.GoesOn) (hs : s.step a = .ok t) :
    StaysAlone t := by
  intro more hmore
  have hall := h (a :: more) (List.forall_mem_cons.mpr ⟨ha, hmore⟩)
  exact ((always_cons_ok hs).mp hall).2

/-- A call that has a device in use while it is trimmed comes to its section. -/
theorem not_staysAlone_trimming (hi : Inv s) {g : F} (hf : s.files f = .trimming dev)
    (hp : (s.pc p).uses = some g) (hg : s.files g = .opened dev) : ¬StaysAlone s := by
  intro h
  have halone : TrimsAlone s := h [] nofun
  have hsem : s.sem dev = none := halone f dev (by rw [hf]; rfl)
  cases hpc : s.pc p with
  | outside =>
    rw [hpc] at hp
    cases hp
  | up g' =>
    rw [hpc] at hp
    obtain rfl : g' = g := Option.some.inj hp
    cases hsem.symm.trans (hi.working.holds p g' dev hpc hg)
  | down g' =>
    rw [hpc] at hp
    obtain rfl : g' = g := Option.some.inj hp
    have hs : s.step (.down p false) = .ok ((s.setSem dev (some p)).goto p (.up g')) := by
      simp only [step, hpc, hg, hsem]
      rfl
    have hgoes : (Act.down p false : Act P F).GoesOn := trivial
    have ht : TrimsAlone ((s.setSem dev (some p)).goto p (.up g')) := h.step hgoes hs [] nofun
    have hnone : ((s.setSem dev (some p)).goto p (.up g')).sem dev = none :=
      ht f dev (by show (s.files f).trims = some dev; rw [hf]; rfl)
    cases sem_setSem_self.symm.trans hnone

theorem staysAlone_iff_separate (hi : Inv s) : StaysAlone s ↔ Separate s := by
  constructor
  · intro h f dev hf
    refine Or.inr ?_
    rintro ⟨p, g, hp, hg⟩
    cases hx : s.files f with
    | trimming dev' =>
      rw [hx] at hf
      obtain rfl : dev' = dev := Option.some.inj hf
      exact not_staysAlone_trimming hi hx hp hg h
    | granted dev' wronly =>
      rw [hx] at hf
      cases wronly with
      | false => cases hf
      | true =>
        obtain rfl : dev' = dev := Option.some.inj hf
        have hs : s.step (.proceed f) = .ok (s.set f (.trimming dev')) := by
          simp only [step, hx]
        have hne : g ≠ f := by
          rintro rfl
          cases hx.symm.trans hg
        have hg' : (s.set f (.trimming dev')).files g = .opened dev' :=
          (files_set_of_ne hne).trans hg
        have hgoes : (Act.proceed f : Act P F).GoesOn := trivial
        exact not_staysAlone_trimming (inv_move hi (step_move hs)) files_set_self hp hg'
          (h.step hgoes hs)
    | closed | atomicInc | creating | opened =>
      rw [hx] at hf
      cases hf
  · intro h more hmore
    have hm : Meets step (fun _ a => Act.GoesOn a) s more := Meets.of_forall fun _ a ha => hmore a ha
    refine meets_always (I := fun s => Inv s ∧ Separate s) ?_ ?_ ⟨hi, h⟩ hm
    · rintro s a t ⟨hi, h⟩ ha hs
      exact ⟨inv_move hi (step_move hs), (separate_step hi h hs).mpr (apart_of_goesOn ha)⟩
    · exact fun s hs => trimsAlone_of_separate hs.1 hs.2

/-- Trims run alone as long as no write-only open is let in during a call on the device and no call is
made from then on until its trim is over. In a run with any other step, the opens and the calls under
way can go on so that a trim meets a call in its section. -/
theorem trimsAlone_of_apart {acts : List (Act P F)} :
    (Meets step Apart initial acts → Always step TrimsAlone initial acts) ∧
      (Meets step Apart initial acts ↔ Always step StaysAlone initial acts) := by
  have hstep : ∀ (s : Sys P F) a t, Inv s ∧ Separate s → s.Apart a → s.step a = .ok t →
      Inv t ∧ Separate t := fun s a t h ha hs =>
    ⟨inv_move h.1 (step_move hs), (separate_step h.1 h.2 hs).mpr ha⟩
  have hinitial : Separate (initial : Sys P F) := nofun
  refine ⟨meets_always hstep (fun s h => trimsAlone_of_separate h.1 h.2) ⟨inv_initial, hinitial⟩, ?_⟩
  symm
  apply always_iff_meets_of_invariant (I := Inv)
  · exact fun s a t hi hs => inv_move hi (step_move hs)
  · intro s a t hi h hs
    rw [staysAlone_iff_separate hi] at h
    rw [staysAlone_iff_separate (inv_move hi (step_move hs))]
    exact separate_step hi h hs
  · exact fun s a _ _ hstuck => apart_of_stuck hstuck
  · exact inv_initial
  · exact (staysAlone_iff_separate inv_initial).mpr hinitial

/-- One user has the device open for reading and opens it again for writing, during a read. -/
def ownTrimRun : List (Act Bool Bool) :=
  [.opens true .user ⟨1000, 1000, false⟩ false false, .proceed true,
    .opens false .user ⟨1000, 1000, false⟩ true false, .call true true, .down true false,
    .proceed false]

theorem trims_during_read : ¬Always step TrimsAlone (initial : Sys Bool Bool) ownTrimRun := by
  intro h
  have he : exec step (initial : Sys Bool Bool) ownTrimRun = .ok _ := rfl
  have halone := h.last he false .user rfl
  cases halone

end
end Sys
end KernelExperiment.Access.Trims
