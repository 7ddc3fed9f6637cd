import KernelExperiment.Scull.Transfer
import KernelExperiment.Kernel.Files
import KernelExperiment.Lib.Runs

/-! The bare scull device under calls that are made one after another, through any number of open
files, at positions below `2 ^ 31` and with ioctls that keep the global geometry usable. -/

namespace KernelExperiment.Scull
open Kernel Runs

variable {F β : Type*}

/-- The ioctl commands that change the geometry to be used from the next trim on. Set, eXchange and
sHift assign the global as Tell does. -/
inductive Ioctl where
  | reset
  | tellQuantum (arg : UInt32)
  | tellQset (arg : UInt32)

def Driver.ioctl (d : Driver β) : Ioctl → Driver β
  | .reset => { d with scullQuantum := 4000, scullQset := 1000 }
  | .tellQuantum arg => { d with scullQuantum := arg.toInt32.toInt }
  | .tellQset arg => { d with scullQset := arg.toInt32.toInt }

/-- A positive geometry whose item size fits in an `int`. -/
def GeometryOk (quantum qset : Int) : Prop :=
  0 < quantum ∧ 0 < qset ∧ quantum * qset < 2147483648

instance (quantum qset : Int) : Decidable (GeometryOk quantum qset) :=
  inferInstanceAs (Decidable (_ ∧ _))

def Driver.scullLlseek (d : Driver β) (file : File) (off : Int) (whence : ℕ) : Except Errno Int :=
  llseek file.fPos d.dev.size off whence

inductive Result (β : Type*) where
  | opened
  | told
  | position (newpos : Int)
  | stored (n : ℕ)
  | bytes (bs : List β)
  | error (e : Errno)
  deriving DecidableEq

inductive Act (F β : Type*) where
  | opens (f : F) (read write interrupted : Bool)
  | ioctl (cmd : Ioctl)
  | llseek (f : F) (off : Int) (whence : ℕ)
  | read (f : F) (count : ℕ) (interrupted : Bool) (fault : Option ℕ)
  | write (f : F) (buf : List β) (interrupted : Bool) (fault : Option ℕ)

/-- A call on an open file. -/
inductive Op (β : Type*) where
  | llseek (off : Int) (whence : ℕ)
  | read (count : ℕ) (interrupted : Bool) (fault : Option ℕ)
  | write (buf : List β) (interrupted : Bool) (fault : Option ℕ)

def Op.on (f : F) : Op β → Act F β
  | llseek off whence => .llseek f off whence
  | read count interrupted fault => .read f count interrupted fault
  | write buf interrupted fault => .write f buf interrupted fault

/-- What a call leaves of the driver and of its file. Calls that the file system layer refuses and
positions from `2 ^ 31` on are left out. -/
def Op.perform [OfNat β 0] (κ : Kmalloc β) (d : Driver β) (file : File) :
    Op β → Outcome (Driver β × File × Result β)
  | llseek off whence =>
    match d.scullLlseek file off whence with
    | .error e => .ok (d, file, .error e)
    | .ok newpos => .ok (d, { file with fPos := newpos }, .position newpos)
  | read count interrupted fault =>
    if file.read = false ∨ 2147483648 ≤ file.fPos then .blocked
    else if interrupted then .ok (d, file, .error .erestartsys)
    else
      match d.scullRead κ d.dev.quantum d.dev.qset file.fPos count fault with
      | none => .fault
      | some (.error e, d) => .ok (d, file, .error e)
      | some (.ok bs, d) => .ok (d, { file with fPos := toLoff (file.fPos + bs.length) }, .bytes bs)
  | write buf interrupted fault =>
    if file.write = false ∨ 2147483648 ≤ file.fPos then .blocked
    else if interrupted then .ok (d, file, .error .erestartsys)
    else
      match d.scullWrite κ d.dev.quantum d.dev.qset file.fPos buf fault with
      | none => .fault
      | some (.error e, d) => .ok (d, file, .error e)
      | some (.ok n, d) => .ok (d, { file with fPos := toLoff (file.fPos + n) }, .stored n)

/-- The driver, the open files and the results so far. The code does not have `written`: it records
the positions that writes have stored to since the last trim. -/
structure Sys (F β : Type*) where
  driver : Driver β
  files : F → Option File
  results : List (Result β)
  written : ℕ → Bool

def Sys.loaded (quantum qset : Int) : Sys F β :=
  { driver := Driver.loaded quantum qset, files := fun _ => none, results := [],
    written := fun _ => false }

def mark (written : ℕ → Bool) (p n : ℕ) (x : ℕ) : Bool :=
  written x || (decide (p ≤ x) && decide (x < p + n))

namespace Sys

def reply (s : Sys F β) (r : Result β) : Sys F β := { s with results := s.results ++ [r] }

variable [DecidableEq F]

def setFile (s : Sys F β) (f : F) (file : File) : Sys F β :=
  { s with files := Function.update s.files f (some file) }

def scullOpen (s : Sys F β) (f : F) (read write : Bool) : Outcome (Sys F β) :=
  let opened (s : Sys F β) := (s.setFile f { fPos := 0, read, write }).reply .opened
  if write && !read then
    match s.driver.scullTrim with
    | none => .fault
    | some driver => .ok (opened { s with driver, written := fun _ => false })
  else .ok (opened s)

def storeLen (quantum fPos : Int) (count : ℕ) : ℕ := min count (sizeT (quantum - fPos % quantum))

theorem storeLen_natCast {q n : ℕ} (hg : GeomOk q n) (p count : ℕ) :
    storeLen q p count = min count (q - p % q) := by
  rw [storeLen, ← Int.natCast_emod, Driver.sizeT_rest hg]

def storedTo (s : Sys F β) (fPos : Int) (count : ℕ) (driver : Driver β) : Sys F β :=
  { s with
    driver
    written := mark s.written fPos.toNat (storeLen s.driver.dev.quantum fPos count) }

/-- The positions that have been stored to when a call returns. A copy that faults has stored what came
before the fault, and zeros after it. -/
def noted (s : Sys F β) (file : File) : Op β → Result β → ℕ → Bool
  | .write _ false _, .error .enomem => s.written
  | .write buf false _, _ =>
    mark s.written file.fPos.toNat (storeLen s.driver.dev.quantum file.fPos buf.length)
  | _, _ => s.written

def call [OfNat β 0] (κ : Kmalloc β) (s : Sys F β) (f : F) (op : Op β) : Outcome (Sys F β) :=
  match s.files f with
  | none => .blocked
  | some file =>
    (op.perform κ s.driver file).map fun (driver, file', r) =>
      ({ s with driver, written := s.noted file op r }.setFile f file').reply r

/-- One call. Opens of a file that is open and ioctls that leave an unusable geometry are left out. -/
def step [OfNat β 0] (κ : Kmalloc β) (s : Sys F β) : Act F β → Outcome (Sys F β)
  | .opens f read write interrupted =>
    if s.files f ≠ none then .blocked
    else if write && !read && interrupted then .ok (s.reply (.error .erestartsys))
    else s.scullOpen f read write
  | .ioctl cmd =>
    let driver := s.driver.ioctl cmd
    if GeometryOk driver.scullQuantum driver.scullQset then .ok ({ s with driver }.reply .told)
    else .blocked
  | .llseek f off whence => s.call κ f (.llseek off whence)
  | .read f count interrupted fault => s.call κ f (.read count interrupted fault)
  | .write f buf interrupted fault => s.call κ f (.write buf interrupted fault)

inductive Move [OfNat β 0] (κ : Kmalloc β) (s : Sys F β) : Act F β → Sys F β → Prop
  | fails {a} (e : Errno) : Move κ s a (s.reply (.error e))
  | opened {f read write i} :
      Move κ s (.opens f read write i) ((s.setFile f { fPos := 0, read, write }).reply .opened)
  | trimmed {f read write i driver} (hd : s.driver.scullTrim = some driver) :
      Move κ s (.opens f read write i)
        (({ s with driver, written := fun _ => false }.setFile f { fPos := 0, read, write }).reply
          .opened)
  | told {cmd} (hok : GeometryOk (s.driver.ioctl cmd).scullQuantum (s.driver.ioctl cmd).scullQset) :
      Move κ s (.ioctl cmd) ({ s with driver := s.driver.ioctl cmd }.reply .told)
  | moved {f off whence file newpos} (hf : s.files f = some file) (hpos : 0 ≤ newpos) :
      Move κ s (.llseek f off whence)
        ((s.setFile f { file with fPos := newpos }).reply (.position newpos))
  | readFails {f count fault file e driver} (hf : s.files f = some file)
      (hpos : file.fPos < 2147483648)
      (hd : s.driver.scullRead κ s.driver.dev.quantum s.driver.dev.qset file.fPos count fault =
        some (.error e, driver)) :
      Move κ s (.read f count false fault) ({ s with driver }.reply (.error e))
  | read {f count fault file bs driver} (hf : s.files f = some file)
      (hpos : file.fPos < 2147483648)
      (hd : s.driver.scullRead κ s.driver.dev.quantum s.driver.dev.qset file.fPos count fault =
        some (.ok bs, driver)) :
      Move κ s (.read f count false fault)
        (({ s with driver }.setFile f { file with fPos := toLoff (file.fPos + bs.length) }).reply
          (.bytes bs))
  | noMemory {f buf fault file driver} (hf : s.files f = some file)
      (hpos : file.fPos < 2147483648)
      (hd : s.driver.scullWrite κ s.driver.dev.quantum s.driver.dev.qset file.fPos buf fault =
        some (.error .enomem, driver)) :
      Move κ s (.write f buf false fault) ({ s with driver }.reply (.error .enomem))
  | writeFails {f buf fault file e driver} (hf : s.files f = some file)
      (hpos : file.fPos < 2147483648) (he : e ≠ .enomem)
      (hd : s.driver.scullWrite κ s.driver.dev.quantum s.driver.dev.qset file.fPos buf fault =
        some (.error e, driver)) :
      Move κ s (.write f buf false fault)
        ((s.storedTo file.fPos buf.length driver).reply (.error e))
  | wrote {f buf fault file n driver} (hf : s.files f = some file)
      (hpos : file.fPos < 2147483648)
      (hd : s.driver.scullWrite κ s.driver.dev.quantum s.driver.dev.qset file.fPos buf fault =
        some (.ok n, driver)) :
      Move κ s (.write f buf false fault)
        (((s.storedTo file.fPos buf.length driver).setFile f
          { file with fPos := toLoff (file.fPos + n) }).reply (.stored n))

theorem setFile_self {s : Sys F β} {f : F} {file : File} (hf : s.files f = some file)
    (driver : Driver β) (written : ℕ → Bool) :
    { s with driver, written }.setFile f file = { s with driver, written } := by
  rw [setFile, ← hf, Function.update_eq_self]

theorem call_ok [OfNat β 0] {κ : Kmalloc β} {s t : Sys F β} {f : F} {op : Op β}
    (h : s.call κ f op = .ok t) : ∃ file driver file' r, s.files f = some file ∧
      op.perform κ s.driver file = .ok (driver, file', r) ∧
      t = ({ s with driver, written := s.noted file op r }.setFile f file').reply r := by
  unfold call at h
  split at h
  · cases h
  next file hf =>
    obtain ⟨⟨driver, file', r⟩, hx, ht⟩ := Outcome.map_eq_ok.mp h
    exact ⟨file, driver, file', r, hf, hx, ht.symm⟩

theorem step_move [OfNat β 0] {κ : Kmalloc β} {s t : Sys F β} {a : Act F β}
    (h : step κ s a = .ok t) : Move κ s a t := by
  cases a with
  | opens f read write interrupted =>
    simp only [step, scullOpen] at h
    split_ifs at h with hf hi ht
    · cases h
      exact .fails _
    · cases hd : s.driver.scullTrim with
      | none =>
        rw [hd] at h
        cases h
      | some driver =>
        rw [hd] at h
        cases h
        exact .trimmed hd
    · cases h
      exact .opened
  | ioctl cmd =>
    simp only [step] at h
    split_ifs at h with hok
    cases h
    exact .told hok
  | llseek f off whence =>
    obtain ⟨file, driver, file', r, hf, hx, rfl⟩ := call_ok h
    rw [Op.perform] at hx
    split at hx <;> cases hx
    next e _ =>
      rw [setFile_self hf]
      exact .fails e
    next hseek => exact .moved hf (llseek_nonneg hseek)
  | read f count interrupted fault =>
    obtain ⟨file, driver, file', r, hf, hx, rfl⟩ := call_ok h
    rw [Op.perform] at hx
    split_ifs at hx with hout hi
    · cases hx
      rw [setFile_self hf]
      exact .fails _
    · have hpos : file.fPos < 2147483648 := by omega
      rw [Bool.not_eq_true] at hi
      subst hi
      split at hx <;> cases hx
      next hd =>
        rw [setFile_self hf]
        exact .readFails hf hpos hd
      next hd => exact .read hf hpos hd
  | write f buf interrupted fault =>
    obtain ⟨file, driver, file', r, hf, hx, rfl⟩ := call_ok h
    rw [Op.perform] at hx
    split_ifs at hx with hout hi
    · cases hx
      rw [setFile_self hf, hi]
      exact .fails _
    · have hpos : file.fPos < 2147483648 := by omega
      rw [Bool.not_eq_true] at hi
      subst hi
      split at hx <;> cases hx
      next e hd =>
        rw [setFile_self hf]
        cases e with
        | enomem => exact .noMemory hf hpos hd
        | _ => exact .writeFails hf hpos nofun hd
      next hd => exact .wrote hf hpos hd

end Sys

/-- The driver is laid out for the usable geometry of its device. -/
structure Usable (q n : ℕ) (d : Driver β) : Prop where
  geom : GeomOk q n
  quantum_eq : d.dev.quantum = q
  qset_eq : d.dev.qset = n
  sized : Sized q (entries n) d.dev.data
  size_lt : d.dev.size < 4294967296
  globals : GeometryOk d.scullQuantum d.scullQset

theorem GeometryOk.geomOk {quantum qset : Int} (h : GeometryOk quantum qset) :
    ∃ q n : ℕ, quantum = q ∧ qset = n ∧ GeomOk q n := by
  obtain ⟨hq, hn, hlt⟩ := h
  obtain ⟨q, rfl⟩ := Int.eq_ofNat_of_zero_le (Int.le_of_lt hq)
  obtain ⟨n, rfl⟩ := Int.eq_ofNat_of_zero_le (Int.le_of_lt hn)
  refine ⟨q, n, rfl, rfl, Int.natCast_pos.mp hq, Int.natCast_pos.mp hn, ?_⟩
  exact Int.ofNat_lt.mp hlt

theorem usable_loaded {quantum qset : Int} (h : GeometryOk quantum qset) :
    ∃ q n, Usable q n (Driver.loaded quantum qset : Driver β) := by
  obtain ⟨q, n, hq, hn, hgeom⟩ := h.geomOk
  exact ⟨q, n, hgeom, hq, hn, Sized.nil _ _, by simp [Driver.loaded], h⟩

namespace Usable
open Driver

variable {q n p : ℕ} {d d' : Driver β}

theorem trim (h : Usable q n d) (ht : d.scullTrim = some d') : ∃ q n, Usable q n d' := by
  obtain ⟨freed, -, rfl⟩ := Option.map_eq_some_iff.mp ht
  obtain ⟨q', n', hq, hn, hgeom⟩ := h.globals.geomOk
  exact ⟨q', n', hgeom, hq, hn, Sized.nil _ _, by simp, h.globals⟩

theorem ioctl (h : Usable q n d) {cmd : Ioctl}
    (hok : GeometryOk (d.ioctl cmd).scullQuantum (d.ioctl cmd).scullQset) :
    Usable q n (d.ioctl cmd) := by
  cases cmd <;> exact ⟨h.geom, h.quantum_eq, h.qset_eq, h.sized, h.size_lt, hok⟩

theorem sameSetup (h : Usable q n d) (hd : SameSetup d d') (hs : Sized q (entries n) d'.dev.data)
    (hsize : d'.dev.size < 4294967296) : Usable q n d' :=
  ⟨h.geom, hd.quantum.trans h.quantum_eq, hd.qset.trans h.qset_eq, hs, hsize, by
    rw [hd.scullQuantum, hd.scullQset]
    exact h.globals⟩

theorem sameBlocks (h : Usable q n d) (hd : SameBlocks q n d d') : Usable q n d' :=
  h.sameSetup hd.setup hd.sized (hd.size ▸ h.size_lt)

theorem reads (h : Usable q n d) (κ : Kmalloc β) (hp : p < 2147483648) (count : ℕ)
    (fault : Option ℕ) :
    Reads d q n p count fault (d.scullRead κ d.dev.quantum d.dev.qset p count fault) := by
  rw [h.quantum_eq, h.qset_eq]
  exact scullRead_reads κ h.geom h.sized h.size_lt hp count fault

theorem writes [OfNat β 0] (h : Usable q n d) (κ : Kmalloc β) (hp : p < 2147483648)
    (buf : List β) (fault : Option ℕ) :
    Writes κ d q n p buf fault (d.scullWrite κ d.dev.quantum d.dev.qset p buf fault) := by
  rw [h.quantum_eq, h.qset_eq]
  exact scullWrite_writes κ h.geom h.sized hp buf fault

theorem of_reads (h : Usable q n d) {count : ℕ} {fault : Option ℕ} {r : Except Errno (List β)}
    (hr : Reads d q n p count fault (some (r, d'))) : Usable q n d' := by
  cases hr with
  | eof => exact h
  | hole hlt hb hd => exact h.sameBlocks hd
  | copied => exact h

theorem of_writes [OfNat β 0] (h : Usable q n d) {κ : Kmalloc β} (hp : p < 2147483648)
    {buf : List β} {fault : Option ℕ} {r : Except Errno ℕ}
    (hw : Writes κ d q n p buf fault (some (r, d'))) : Usable q n d' := by
  cases hw with
  | enomem hk hd => exact h.sameBlocks hd
  | copied hj hold hlen hn hd hk hs hb hsize =>
    apply h.sameSetup hd hs
    have hq := h.geom.quantum_lt
    have hlt := h.size_lt
    rw [hsize]
    split_ifs <;> omega

theorem read (h : Usable q n d) {κ : Kmalloc β} {fPos : Int} (h0 : 0 ≤ fPos)
    (hlt : fPos < 2147483648) {count : ℕ} {fault : Option ℕ} {r : Except Errno (List β)}
    (hd : d.scullRead κ d.dev.quantum d.dev.qset fPos count fault = some (r, d')) :
    ∃ p : ℕ, fPos = p ∧ p < 2147483648 ∧ Reads d q n p count fault (some (r, d')) ∧
      Usable q n d' := by
  obtain ⟨p, rfl⟩ := Int.eq_ofNat_of_zero_le h0
  have hp : p < 2147483648 := by omega
  have hr := h.reads κ hp count fault
  rw [hd] at hr
  exact ⟨p, rfl, hp, hr, h.of_reads hr⟩

theorem write [OfNat β 0] (h : Usable q n d) {κ : Kmalloc β} {fPos : Int} (h0 : 0 ≤ fPos)
    (hlt : fPos < 2147483648) {buf : List β} {fault : Option ℕ} {r : Except Errno ℕ}
    (hd : d.scullWrite κ d.dev.quantum d.dev.qset fPos buf fault = some (r, d')) :
    ∃ p : ℕ, fPos = p ∧ p < 2147483648 ∧ Writes κ d q n p buf fault (some (r, d')) ∧
      Usable q n d' := by
  obtain ⟨p, rfl⟩ := Int.eq_ofNat_of_zero_le h0
  have hp : p < 2147483648 := by omega
  have hw := h.writes κ hp buf fault
  rw [hd] at hw
  exact ⟨p, rfl, hp, hw, h.of_writes hp hw⟩

theorem length_of_reads {count : ℕ} {fault : Option ℕ} {bs : List β}
    (hr : Reads d q n p count fault (some (.ok bs, d'))) : bs.length ≤ q := by
  generalize hres :
    (some (Except.ok bs, d') : Option (Except Errno (List β) × Driver β)) = res at hr
  cases hr with
  | eof =>
    cases hres
    exact Nat.zero_le q
  | hole =>
    cases hres
    exact Nat.zero_le q
  | outside => cases hres
  | copied hlt hb hn =>
    split_ifs at hres with hok <;> cases hres
    rw [List.length_take]
    omega

theorem count_of_writes [OfNat β 0] {κ : Kmalloc β} {buf : List β} {fault : Option ℕ} {m : ℕ}
    (hw : Writes κ d q n p buf fault (some (.ok m, d'))) : m ≤ q := by
  generalize hres : (some (Except.ok m, d') : Option (Except Errno ℕ × Driver β)) = res at hw
  cases hw with
  | enomem => cases hres
  | outside => cases hres
  | copied hj hold hlen hm =>
    split_ifs at hres with hok <;> cases hres
    omega

end Usable

structure Sys.Inv (s : Sys F β) : Prop where
  usable : ∃ q n, Usable q n s.driver
  nonneg : ∀ f, ∀ file ∈ s.files f, 0 ≤ file.fPos

namespace Sys.Inv

theorem loaded {quantum qset : Int} (h : GeometryOk quantum qset) :
    (Sys.loaded quantum qset : Sys F β).Inv :=
  ⟨usable_loaded h, fun f file hf => by cases hf⟩

variable [DecidableEq F] [OfNat β 0] {κ : Kmalloc β} {s t : Sys F β} {a : Act F β}

omit [OfNat β 0] in
theorem setFile (hs : ∀ f, ∀ file ∈ s.files f, 0 ≤ file.fPos) {f : F} {file : File}
    (hpos : 0 ≤ file.fPos) : ∀ g, ∀ file' ∈ (s.setFile f file).files g, 0 ≤ file'.fPos := by
  apply (Function.forall_update_iff s.files fun _ o => ∀ file' ∈ o, 0 ≤ file'.fPos).mpr
  refine ⟨fun file' hfile => ?_, fun g _ => hs g⟩
  rw [Option.mem_some_iff] at hfile
  rwa [← hfile]

theorem advance_nonneg {q n : ℕ} (hg : GeomOk q n) {fPos : Int} (h0 : 0 ≤ fPos)
    (hlt : fPos < 2147483648) {m : ℕ} (hm : m ≤ q) : 0 ≤ toLoff (fPos + m) := by
  have hq := hg.quantum_lt
  rw [toLoff_of_lt] <;> omega

theorem step (h : s.Inv) (hs : Sys.step κ s a = .ok t) : t.Inv := by
  obtain ⟨q, n, hu⟩ := h.usable
  cases Sys.step_move hs with
  | fails => exact ⟨h.usable, h.nonneg⟩
  | opened => exact ⟨h.usable, setFile h.nonneg (Int.le_refl 0)⟩
  | trimmed hd => exact ⟨hu.trim hd, setFile h.nonneg (Int.le_refl 0)⟩
  | told hok => exact ⟨⟨q, n, hu.ioctl hok⟩, h.nonneg⟩
  | moved hf hpos => exact ⟨h.usable, setFile h.nonneg hpos⟩
  | readFails hf hpos hd =>
    obtain ⟨p, -, -, -, hu'⟩ := hu.read (h.nonneg _ _ hf) hpos hd
    exact ⟨⟨q, n, hu'⟩, h.nonneg⟩
  | read hf hpos hd =>
    have h0 := h.nonneg _ _ hf
    obtain ⟨p, -, -, hr, hu'⟩ := hu.read h0 hpos hd
    exact ⟨⟨q, n, hu'⟩,
      setFile h.nonneg (advance_nonneg hu.geom h0 hpos (Usable.length_of_reads hr))⟩
  | noMemory hf hpos hd =>
    obtain ⟨p, -, -, -, hu'⟩ := hu.write (h.nonneg _ _ hf) hpos hd
    exact ⟨⟨q, n, hu'⟩, h.nonneg⟩
  | writeFails hf hpos he hd =>
    obtain ⟨p, -, -, -, hu'⟩ := hu.write (h.nonneg _ _ hf) hpos hd
    exact ⟨⟨q, n, hu'⟩, h.nonneg⟩
  | wrote hf hpos hd =>
    have h0 := h.nonneg _ _ hf
    obtain ⟨p, -, -, hw, hu'⟩ := hu.write h0 hpos hd
    exact ⟨⟨q, n, hu'⟩,
      setFile h.nonneg (advance_nonneg hu.geom h0 hpos (Usable.count_of_writes hw))⟩

end Sys.Inv

/-- Every state that serialised calls reach is laid out for a usable geometry. -/
theorem inv_run [DecidableEq F] [OfNat β 0] {κ : Kmalloc β} {quantum qset : Int}
    (h : GeometryOk quantum qset) {as : List (Act F β)} {s : Sys F β}
    (hs : exec (Sys.step κ) (Sys.loaded quantum qset) as = .ok s) : s.Inv :=
  exec_invariant (fun _ _ _ => Sys.Inv.step) (Sys.Inv.loaded h) hs

/-! What is kept of the driver alone. -/

/-- What one call does to the driver. -/
inductive Driver.Call [OfNat β 0] (κ : Kmalloc β) (d : Driver β) : Driver β → Prop
  | none : Call κ d d
  | trim {d'} (h : d.scullTrim = some d') : Call κ d d'
  | ioctl {cmd} (hok : GeometryOk (d.ioctl cmd).scullQuantum (d.ioctl cmd).scullQset) :
      Call κ d (d.ioctl cmd)
  | read {p : ℕ} {count fault r d'} (hp : p < 2147483648)
      (h : d.scullRead κ d.dev.quantum d.dev.qset p count fault = some (r, d')) : Call κ d d'
  | write {p : ℕ} {buf fault r d'} (hp : p < 2147483648)
      (h : d.scullWrite κ d.dev.quantum d.dev.qset p buf fault = some (r, d')) : Call κ d d'

theorem Sys.Inv.call [DecidableEq F] [OfNat β 0] {κ : Kmalloc β} {s t : Sys F β} {a : Act F β}
    (h : s.Inv) (hs : Sys.step κ s a = .ok t) : Driver.Call κ s.driver t.driver := by
  have hnat : ∀ {f file}, s.files f = some file → file.fPos < 2147483648 →
      ∃ p : ℕ, file.fPos = p ∧ p < 2147483648 := by
    intro f file hf hpos
    obtain ⟨p, hp⟩ := Int.eq_ofNat_of_zero_le (h.nonneg f file hf)
    exact ⟨p, hp, by omega⟩
  cases Sys.step_move hs with
  | fails => exact .none
  | opened => exact .none
  | trimmed hd => exact .trim hd
  | told hok => exact .ioctl hok
  | moved => exact .none
  | readFails hf hpos hd =>
    obtain ⟨p, hp, hlt⟩ := hnat hf hpos
    exact .read hlt (hp ▸ hd)
  | read hf hpos hd =>
    obtain ⟨p, hp, hlt⟩ := hnat hf hpos
    exact .read hlt (hp ▸ hd)
  | noMemory hf hpos hd =>
    obtain ⟨p, hp, hlt⟩ := hnat hf hpos
    exact .write hlt (hp ▸ hd)
  | writeFails hf hpos _ hd =>
    obtain ⟨p, hp, hlt⟩ := hnat hf hpos
    exact .write hlt (hp ▸ hd)
  | wrote hf hpos hd =>
    obtain ⟨p, hp, hlt⟩ := hnat hf hpos
    exact .write hlt (hp ▸ hd)

/-- What every call keeps of the driver holds in every state that serialised calls reach. -/
theorem driver_run [DecidableEq F] [OfNat β 0] {κ : Kmalloc β} {I : Driver β → Prop}
    {quantum qset : Int} (hgeo : GeometryOk quantum qset) (h0 : I (Driver.loaded quantum qset))
    (hcall : ∀ d d', I d → Driver.Call κ d d' → I d') {as : List (Act F β)} {s : Sys F β}
    (hs : exec (Sys.step κ) (Sys.loaded quantum qset) as = .ok s) : I s.driver := by
  have hstep : ∀ (s : Sys F β) a t, s.Inv ∧ I s.driver → Sys.step κ s a = .ok t →
      t.Inv ∧ I t.driver := fun s a t h hs => ⟨h.1.step hs, hcall _ _ h.2 (h.1.call hs)⟩
  exact (exec_invariant hstep ⟨Sys.Inv.loaded hgeo, h0⟩ hs).2

end KernelExperiment.Scull
