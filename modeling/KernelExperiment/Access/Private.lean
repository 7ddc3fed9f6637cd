import KernelExperiment.Lib.Trace
import KernelExperiment.Scull.Calls

/-! The device `scullpriv`, which is a bare device of its own for each terminal that opens it. The
devices are in a list and go by the device number of the terminal; their calls are those of the bare
device, and the geometry to be used from the next trim on is the one of the whole driver. -/

namespace KernelExperiment.Access.Private
open Kernel Runs Scull

/-- `struct scull_listitem`, with the answers of `kmalloc` that its device has used up. -/
structure ScullListitem (β : Type*) where
  device : ScullDev β
  key : ℕ
  nalloc : ℕ
  freed : List ℕ

/-- The items by their address, the list of the addresses from its head, and the open files with their
`private_data`. The results are those of calls that have got a device, with its terminal. -/
structure Sys (F β : Type*) where
  scullQuantum : Int
  scullQset : Int
  mem : ℕ → Option (ScullListitem β)
  scullCList : List ℕ
  files : F → Option (ℕ × File)
  results : List (ℕ × Result β)

inductive Act (F β : Type*) where
  | opens (f : F) (tty : Option ℕ) (read write : Bool) (kmalloc : Option ℕ)
  | ioctl (cmd : Ioctl)
  | call (f : F) (op : Op β)

variable {F β : Type*}

def ScullListitem.driver (lptr : ScullListitem β) (scullQuantum scullQset : Int) : Driver β :=
  { scullQuantum, scullQset, dev := lptr.device, nalloc := lptr.nalloc, freed := lptr.freed }

def ScullListitem.put (lptr : ScullListitem β) (d : Driver β) : ScullListitem β :=
  { lptr with device := d.dev, nalloc := d.nalloc, freed := d.freed }

namespace Sys

def loaded (scullQuantum scullQset : Int) : Sys F β :=
  { scullQuantum, scullQset, mem := fun _ => none, scullCList := [], files := fun _ => none,
    results := [] }

def driver (s : Sys F β) (lptr : ScullListitem β) : Driver β :=
  lptr.driver s.scullQuantum s.scullQset

/-- The first item of the list with the key. -/
def find (s : Sys F β) (key : ℕ) : Option ℕ :=
  s.scullCList.find? fun dev => (s.mem dev).any (·.key = key)

/-- A new item, all zeros but its key and then trimmed. -/
def create (s : Sys F β) (key dev : ℕ) : Sys F β :=
  { s with
    mem := Function.update s.mem dev (some {
      device := { data := [], quantum := s.scullQuantum, qset := s.scullQset, size := 0 }
      key
      nalloc := 0
      freed := [] })
    scullCList := dev :: s.scullCList }

/-- `scull_c_lookfor_device`. Memory that `kmalloc` returns is not in use. -/
def lookforDevice (s : Sys F β) (key : ℕ) (kmalloc : Option ℕ) : Option (ℕ × Sys F β) :=
  match s.find key with
  | some dev => some (dev, s)
  | none => kmalloc.map fun dev => (dev, s.create key dev)

variable [DecidableEq F]

/-- What a call leaves of its device and of its file. -/
def put (s : Sys F β) (dev : ℕ) (lptr : ScullListitem β) (d : Driver β) (f : F) (file : File)
    (r : Result β) : Sys F β :=
  { s with
    mem := Function.update s.mem dev (some (lptr.put d))
    files := Function.update s.files f (some (dev, file))
    results := s.results ++ [(lptr.key, r)] }

/-- What is left of `scull_c_open` once there is a device. -/
def openDevice (s : Sys F β) (dev : ℕ) (f : F) (read write : Bool) : Outcome (Sys F β) :=
  match s.mem dev with
  | none => .fault
  | some lptr =>
    match if write && !read then (s.driver lptr).scullTrim else some (s.driver lptr) with
    | none => .fault
    | some d => .ok (s.put dev lptr d f { fPos := 0, read, write } .opened)

/-- `scull_c_open` fails without a terminal and without memory, and leaves everything as it is. -/
def scullCOpen (s : Sys F β) (f : F) (tty : Option ℕ) (read write : Bool) (kmalloc : Option ℕ) :
    Except Errno (Outcome (Sys F β)) :=
  match tty with
  | none => .error .einval
  | some key =>
    match s.lookforDevice key kmalloc with
    | none => .error .enomem
    | some (dev, s) => .ok (s.openDevice dev f read write)

/-- The answers of `kmalloc` are told apart by the terminal for whose device they are. -/
def step [OfNat β 0] (κ : ℕ → Kmalloc β) (s : Sys F β) : Act F β → Outcome (Sys F β)
  | .opens f tty read write kmalloc =>
    if (s.files f).isSome ∨ (∃ dev ∈ kmalloc, (s.mem dev).isSome) then .blocked
    else
      match s.scullCOpen f tty read write kmalloc with
      | .error _ => .ok s
      | .ok s => s
  | .ioctl cmd =>
    let d : Driver β := (Driver.loaded s.scullQuantum s.scullQset : Driver β).ioctl cmd
    if GeometryOk d.scullQuantum d.scullQset then
      .ok { s with scullQuantum := d.scullQuantum, scullQset := d.scullQset }
    else .blocked
  | .call f op =>
    match s.files f with
    | none => .blocked
    | some (dev, file) =>
      match s.mem dev with
      | none => .fault
      | some lptr =>
        (op.perform (κ lptr.key) (s.driver lptr) file).map fun (d, file, r) =>
          s.put dev lptr d f file r

/-! The part of a run that concerns one terminal. -/

/-- Whose device a file is open on. -/
def owner (s : Sys F β) (f : F) : Option ℕ :=
  (s.files f).bind fun (dev, _) => (s.mem dev).map ScullListitem.key

/-- Its own calls, and from its first open on everybody's ioctls. -/
def own (key : ℕ) (s : Sys F β) : Act F β → List (Scull.Act F β)
  | .opens f tty read write kmalloc =>
    match tty with
    | none => []
    | some key' =>
      if key' = key ∧ (s.lookforDevice key' kmalloc).isSome then [.opens f read write false] else []
  | .ioctl cmd => if (s.find key).isSome then [.ioctl cmd] else []
  | .call f op => if s.owner f = some key then [op.on f] else []

/-- Items and keys correspond, the list has all items, and `private_data` points to one. -/
structure Linked (s : Sys F β) : Prop where
  listed : ∀ dev, dev ∈ s.scullCList ↔ (s.mem dev).isSome
  keys : ∀ dev dev' lptr lptr', s.mem dev = some lptr → s.mem dev' = some lptr' →
    lptr.key = lptr'.key → dev = dev'
  files : ∀ f dev file, s.files f = some (dev, file) → (s.mem dev).isSome

def fileOn (s : Sys F β) (dev : ℕ) (f : F) : Option File :=
  (s.files f).bind fun (dev', file) => if dev' = dev then some file else none

def resultsOf (s : Sys F β) (key : ℕ) : List (Result β) :=
  s.results.filterMap fun (key', r) => if key' = key then some r else none

end Sys

/-- The results of calls that go by the file. -/
def Result.ofFile : Result β → Bool
  | .told => false
  | _ => true

/-- A bare device is in the state of the one at `dev`. -/
structure Sees (s : Sys F β) (dev : ℕ) (lptr : ScullListitem β) (r : Scull.Sys F β) : Prop where
  item : s.mem dev = some lptr
  driver : r.driver = s.driver lptr
  files : r.files = s.fileOn dev
  results : r.results.filter Result.ofFile = s.resultsOf lptr.key

variable {s t : Sys F β} {key dev : ℕ} {lptr : ScullListitem β} {f : F} {file file' : File}
  {d d' : Driver β} {res : Result β} {r : Scull.Sys F β} {κ : ℕ → Kmalloc β}

/-! A call on the device of a file is the same call on a bare device. -/

theorem scullRead_globals {κ : Kmalloc β} {count : ℕ} {fault : Option ℕ}
    {out : Except Errno (List β)}
    (h : d.scullRead κ d.dev.quantum d.dev.qset file.fPos count fault = some (out, d')) :
    d'.scullQuantum = d.scullQuantum ∧ d'.scullQset = d.scullQset := by
  unfold Driver.scullRead at h
  by_cases heof : file.fPos ≥ d.dev.size
  · rw [if_pos heof] at h
    cases h
    exact ⟨rfl, rfl⟩
  · rw [if_neg heof] at h
    obtain ⟨addr, -, h⟩ := Option.bind_eq_some_iff.mp h
    obtain ⟨slot, -, h⟩ := Option.bind_eq_some_iff.mp h
    cases slot with
    | none =>
      cases h
      exact ⟨rfl, rfl⟩
    | some qm =>
      obtain ⟨bytes, -, h⟩ := Option.map_eq_some_iff.mp h
      split_ifs at h <;> cases h <;> exact ⟨rfl, rfl⟩

theorem scullWrite_globals [OfNat β 0] {κ : Kmalloc β} {buf : List β} {fault : Option ℕ}
    {out : Except Errno ℕ}
    (h : d.scullWrite κ d.dev.quantum d.dev.qset file.fPos buf fault = some (out, d')) :
    d'.scullQuantum = d.scullQuantum ∧ d'.scullQset = d.scullQset := by
  unfold Driver.scullWrite at h
  obtain ⟨addr, -, h⟩ := Option.bind_eq_some_iff.mp h
  split at h
  · cases h
    exact ⟨rfl, rfl⟩
  · split at h
    · cases h
      exact ⟨rfl, rfl⟩
    · obtain ⟨slot, -, h⟩ := Option.bind_eq_some_iff.mp h
      split at h
      · cases h
        exact ⟨rfl, rfl⟩
      · obtain ⟨bytes, -, h⟩ := Option.map_eq_some_iff.mp h
        split_ifs at h <;> cases h <;> exact ⟨rfl, rfl⟩

theorem perform_globals [OfNat β 0] {κ : Kmalloc β} {op : Op β}
    (h : op.perform κ d file = .ok (d', file', res)) :
    d'.scullQuantum = d.scullQuantum ∧ d'.scullQset = d.scullQset := by
  cases op with
  | llseek off whence =>
    rw [Op.perform] at h
    split at h <;> cases h <;> exact ⟨rfl, rfl⟩
  | read count interrupted fault =>
    rw [Op.perform] at h
    split_ifs at h
    · cases h
      exact ⟨rfl, rfl⟩
    · split at h
      · cases h
      next hread =>
        cases h
        exact scullRead_globals hread
      next hread =>
        cases h
        exact scullRead_globals hread
  | write buf interrupted fault =>
    rw [Op.perform] at h
    split_ifs at h
    · cases h
      exact ⟨rfl, rfl⟩
    · split at h
      · cases h
      next hwrite =>
        cases h
        exact scullWrite_globals hwrite
      next hwrite =>
        cases h
        exact scullWrite_globals hwrite

theorem perform_ofFile [OfNat β 0] {κ : Kmalloc β} {op : Op β}
    (h : op.perform κ d file = .ok (d', file', res)) : Result.ofFile res = true := by
  cases op with
  | llseek off whence =>
    rw [Op.perform] at h
    split at h <;> cases h <;> rfl
  | read count interrupted fault =>
    rw [Op.perform] at h
    split_ifs at h
    · cases h
      rfl
    · split at h <;> cases h <;> rfl
  | write buf interrupted fault =>
    rw [Op.perform] at h
    split_ifs at h
    · cases h
      rfl
    · split at h <;> cases h <;> rfl

variable [DecidableEq F]

/-- What a bare device shows after a call with the given outcome. -/
structure After (r : Scull.Sys F β) (d : Driver β) (f : F) (file : File) (res : Result β)
    (r' : Scull.Sys F β) : Prop where
  driver : r'.driver = d
  files : r'.files = Function.update r.files f (some file)
  results : r'.results = r.results ++ [res]

theorem step_of_perform [OfNat β 0] {κ : Kmalloc β} {op : Op β} (hf : r.files f = some file)
    (h : op.perform κ r.driver file = .ok (d', file', res)) :
    ∃ r', Scull.Sys.step κ r (op.on f) = .ok r' ∧ After r d' f file' res r' := by
  have hstep : Scull.Sys.step κ r (op.on f) = r.call κ f op := by cases op <;> rfl
  rw [hstep, Scull.Sys.call, hf]
  dsimp only
  rw [h]
  exact ⟨_, rfl, rfl, rfl, rfl⟩

/-! The list and the keys. -/

theorem scullTrim_globals (h : d.scullTrim = some d') :
    d'.scullQuantum = d.scullQuantum ∧ d'.scullQset = d.scullQset := by
  obtain ⟨blocks, -, rfl⟩ := Option.map_eq_some_iff.mp h
  exact ⟨rfl, rfl⟩

namespace Sys

omit [DecidableEq F] in
theorem find_eq_some (h : s.find key = some dev) : ∃ lptr, s.mem dev = some lptr ∧ lptr.key = key := by
  have hkey := List.find?_some h
  obtain ⟨lptr, hm, hk⟩ := (Option.any_eq_true _ _).mp hkey
  exact ⟨lptr, hm, by simpa using hk⟩

omit [DecidableEq F] in
theorem Linked.find_isSome_iff (h : s.Linked) :
    (s.find key).isSome ↔ ∃ dev lptr, s.mem dev = some lptr ∧ lptr.key = key := by
  constructor
  · intro hsome
    obtain ⟨dev, hdev⟩ := Option.isSome_iff_exists.mp hsome
    exact ⟨dev, find_eq_some hdev⟩
  · rintro ⟨dev, lptr, hm, hk⟩
    apply List.find?_isSome.mpr
    refine ⟨dev, (h.listed dev).mpr (by rw [hm]; rfl), ?_⟩
    simp [hm, hk]

omit [DecidableEq F] in
/-- There is one device for each key. -/
theorem Linked.find_eq (h : s.Linked) (hm : s.mem dev = some lptr) : s.find lptr.key = some dev := by
  obtain ⟨dev', hdev'⟩ := Option.isSome_iff_exists.mp (h.find_isSome_iff.mpr ⟨dev, lptr, hm, rfl⟩)
  obtain ⟨lptr', hm', hk⟩ := find_eq_some hdev'
  rw [hdev', h.keys dev' dev lptr' lptr hm' hm hk]

theorem Linked.put (h : s.Linked) (hm : s.mem dev = some lptr) (d : Driver β) (f : F)
    (file : File) (res : Result β) : (s.put dev lptr d f file res).Linked := by
  have hsome (dev' : ℕ) : ((s.put dev lptr d f file res).mem dev').isSome = (s.mem dev').isSome := by
    rcases eq_or_ne dev' dev with rfl | hne
    · simp [Sys.put, hm]
    · simp [Sys.put, hne]
  have hkey {dev' : ℕ} {lptr' : ScullListitem β}
      (hm' : (s.put dev lptr d f file res).mem dev' = some lptr') :
      ∃ lptr₀, s.mem dev' = some lptr₀ ∧ lptr₀.key = lptr'.key := by
    rcases eq_or_ne dev' dev with rfl | hne
    · simp only [Sys.put, Function.update_self, Option.some.injEq] at hm'
      exact ⟨lptr, hm, by rw [← hm']; rfl⟩
    · simp only [Sys.put, Function.update_of_ne hne] at hm'
      exact ⟨lptr', hm', rfl⟩
  refine ⟨fun dev' => ?_, fun dev₁ dev₂ lptr₁ lptr₂ h₁ h₂ hk => ?_, fun g dev' file' hg => ?_⟩
  · rw [hsome]
    exact h.listed dev'
  · obtain ⟨l₁, hl₁, hk₁⟩ := hkey h₁
    obtain ⟨l₂, hl₂, hk₂⟩ := hkey h₂
    exact h.keys dev₁ dev₂ l₁ l₂ hl₁ hl₂ (by rw [hk₁, hk₂, hk])
  · rw [hsome]
    rcases eq_or_ne g f with rfl | hne
    · simp only [Sys.put, Function.update_self, Option.some.injEq, Prod.mk.injEq] at hg
      rw [← hg.1, hm]
      rfl
    · simp only [Sys.put, Function.update_of_ne hne] at hg
      exact h.files g dev' file' hg

omit [DecidableEq F] in
theorem Linked.create (h : s.Linked) (hm : s.mem dev = none) (hkey : s.find key = none) :
    (s.create key dev).Linked := by
  have hnew {dev' : ℕ} {lptr' : ScullListitem β} (hne : dev' ≠ dev)
      (hm' : (s.create key dev).mem dev' = some lptr') : s.mem dev' = some lptr' ∧ lptr'.key ≠ key := by
    simp only [Sys.create, Function.update_of_ne hne] at hm'
    refine ⟨hm', ?_⟩
    rintro rfl
    rw [h.find_eq hm'] at hkey
    cases hkey
  have hold {lptr' : ScullListitem β} (hm' : (s.create key dev).mem dev = some lptr') :
      lptr'.key = key := by
    simp only [Sys.create, Function.update_self, Option.some.injEq] at hm'
    rw [← hm']
  refine ⟨fun dev' => ?_, fun dev₁ dev₂ lptr₁ lptr₂ h₁ h₂ hk => ?_, fun g dev' file' hg => ?_⟩
  · rcases eq_or_ne dev' dev with rfl | hne
    · simp [Sys.create]
    · simp [Sys.create, hne, h.listed]
  · by_cases hd₁ : dev₁ = dev
    · by_cases hd₂ : dev₂ = dev
      · rw [hd₁, hd₂]
      · rw [hd₁] at h₁
        exact absurd (hk.symm.trans (hold h₁)) (hnew hd₂ h₂).2
    · by_cases hd₂ : dev₂ = dev
      · rw [hd₂] at h₂
        exact absurd (hk.trans (hold h₂)) (hnew hd₁ h₁).2
      · exact h.keys dev₁ dev₂ lptr₁ lptr₂ (hnew hd₁ h₁).1 (hnew hd₂ h₂).1 hk
  · have hsome := h.files g dev' file' hg
    rcases eq_or_ne dev' dev with rfl | hne
    · rw [hm] at hsome
      cases hsome
    · simpa [Sys.create, hne] using hsome

theorem Linked.find_put (h : s.Linked) (hm : s.mem dev = some lptr) (key : ℕ) (d : Driver β) (f : F)
    (file : File) (res : Result β) :
    ((s.put dev lptr d f file res).find key).isSome = (s.find key).isSome := by
  rw [Bool.eq_iff_iff, (h.put hm d f file res).find_isSome_iff, h.find_isSome_iff]
  constructor
  · rintro ⟨dev', lptr', hm', hk⟩
    rcases eq_or_ne dev' dev with rfl | hne
    · simp only [Sys.put, Function.update_self, Option.some.injEq] at hm'
      exact ⟨dev', lptr, hm, by rw [← hk, ← hm']; rfl⟩
    · simp only [Sys.put, Function.update_of_ne hne] at hm'
      exact ⟨dev', lptr', hm', hk⟩
  · rintro ⟨dev', lptr', hm', hk⟩
    rcases eq_or_ne dev' dev with rfl | hne
    · obtain rfl : lptr = lptr' := Option.some.inj (hm.symm.trans hm')
      exact ⟨dev', lptr.put d, Function.update_self .., hk⟩
    · exact ⟨dev', lptr', by simp only [Sys.put, Function.update_of_ne hne, hm'], hk⟩

omit [DecidableEq F] in
/-- The device of another terminal. -/
theorem Linked.find_create (h : s.Linked) (hm : s.mem dev = none) {key' : ℕ}
    (hnone : s.find key' = none) (hne : key' ≠ key) :
    ((s.create key' dev).find key).isSome = (s.find key).isSome := by
  rw [Bool.eq_iff_iff, (h.create hm hnone).find_isSome_iff, h.find_isSome_iff]
  constructor
  · rintro ⟨dev', lptr, hm', hk⟩
    rcases eq_or_ne dev' dev with rfl | hd
    · simp only [Sys.create, Function.update_self, Option.some.injEq] at hm'
      exact absurd (by rw [← hk, ← hm']) hne
    · simp only [Sys.create, Function.update_of_ne hd] at hm'
      exact ⟨dev', lptr, hm', hk⟩
  · rintro ⟨dev', lptr, hm', hk⟩
    have hd : dev' ≠ dev := by
      rintro rfl
      rw [hm] at hm'
      cases hm'
    exact ⟨dev', lptr, by simp only [Sys.create, Function.update_of_ne hd, hm'], hk⟩

theorem fileOn_put_self (dev : ℕ) (lptr : ScullListitem β) (d : Driver β) (f : F) (file : File)
    (res : Result β) :
    (s.put dev lptr d f file res).fileOn dev = Function.update (s.fileOn dev) f (some file) := by
  funext g
  rcases eq_or_ne g f with rfl | hne
  · simp [fileOn, Sys.put]
  · simp [fileOn, Sys.put, hne]

/-- A file stays off a device when it is opened on another one, or stays there. -/
theorem fileOn_put_other {dev' : ℕ} (hne : dev' ≠ dev) (hf : s.fileOn dev f = none)
    (lptr : ScullListitem β) (d : Driver β) (file : File) (res : Result β) :
    (s.put dev' lptr d f file res).fileOn dev = s.fileOn dev := by
  funext g
  rcases eq_or_ne g f with rfl | hg
  · rw [hf]
    simp [fileOn, Sys.put, hne]
  · simp [fileOn, Sys.put, hg]

theorem resultsOf_put (key dev : ℕ) (lptr : ScullListitem β) (d : Driver β) (f : F) (file : File)
    (res : Result β) :
    (s.put dev lptr d f file res).resultsOf key =
      s.resultsOf key ++ if lptr.key = key then [res] else [] := by
  rw [resultsOf, resultsOf]
  simp only [Sys.put, List.filterMap_append]
  by_cases hk : lptr.key = key <;> simp [hk]

end Sys

open Private.Sys

theorem Sees.put (h : Sees s dev lptr r) {r' : Scull.Sys F β} (hafter : After r d f file res r')
    (hglobals : d.scullQuantum = s.scullQuantum ∧ d.scullQset = s.scullQset)
    (hres : Result.ofFile res = true) :
    Sees (s.put dev lptr d f file res) dev (lptr.put d) r' where
  item := Function.update_self ..
  driver := by
    rw [hafter.driver]
    show d = { d with scullQuantum := s.scullQuantum, scullQset := s.scullQset }
    rw [← hglobals.1, ← hglobals.2]
  files := by rw [hafter.files, h.files, fileOn_put_self]
  results := by
    rw [hafter.results, List.filter_append, h.results, resultsOf_put]
    simp [ScullListitem.put, hres]

/-- A call on another device. -/
theorem Sees.put_other (h : Sees s dev lptr r) {dev' : ℕ} {lptr' : ScullListitem β}
    (hm : s.mem dev' = some lptr') (hkey : lptr'.key ≠ lptr.key)
    (hf : s.fileOn dev f = none) : Sees (s.put dev' lptr' d f file res) dev lptr r := by
  have hne : dev' ≠ dev := by
    rintro rfl
    rw [h.item, Option.some.injEq] at hm
    exact hkey (by rw [hm])
  refine ⟨?_, h.driver, ?_, ?_⟩
  · rw [← h.item]
    exact Function.update_of_ne hne.symm ..
  · rw [h.files, fileOn_put_other hne hf]
  · rw [h.results, resultsOf_put, if_neg hkey, List.append_nil]

omit [DecidableEq F] in
theorem Sees.create (h : Sees s dev lptr r) {dev' : ℕ} (key : ℕ) (hm : s.mem dev' = none) :
    Sees (s.create key dev') dev lptr r := by
  have hne : dev ≠ dev' := by
    rintro rfl
    rw [h.item] at hm
    cases hm
  refine ⟨?_, h.driver, h.files, h.results⟩
  rw [← h.item]
  exact Function.update_of_ne hne ..

omit [DecidableEq F] in
/-- A device is created as a bare device that has just been loaded. -/
theorem sees_created (hlinked : s.Linked) (hm : s.mem dev = none) (hres : s.resultsOf key = []) :
    ∃ lptr, lptr.key = key ∧
      Sees (s.create key dev) dev lptr (Scull.Sys.loaded s.scullQuantum s.scullQset) := by
  refine ⟨_, rfl, Function.update_self .., rfl, ?_, hres.symm⟩
  funext f
  show none = (s.files f).bind _
  cases hf : s.files f with
  | none => rfl
  | some x =>
    obtain ⟨dev', file⟩ := x
    have hsome := hlinked.files f dev' file hf
    have hne : dev' ≠ dev := by
      rintro rfl
      rw [hm] at hsome
      cases hsome
    simp [hne]

theorem Sees.opens [OfNat β 0] (h : Sees s dev lptr r) (hf : s.files f = none) {read write : Bool}
    (hs : s.openDevice dev f read write = .ok t) (κ : Kmalloc β) :
    ∃ r' lptr', Scull.Sys.step κ r (.opens f read write false) = .ok r' ∧ lptr'.key = lptr.key ∧
      Sees t dev lptr' r' := by
  have hrf : r.files f = none := by rw [h.files, fileOn, hf]; rfl
  unfold openDevice at hs
  rw [h.item] at hs
  dsimp only at hs
  rw [← h.driver] at hs
  have hstep : Scull.Sys.step κ r (.opens f read write false) = r.scullOpen f read write := by
    rw [Scull.Sys.step, if_neg (not_not.mpr hrf), if_neg (by simp)]
  have hglobals : r.driver.scullQuantum = s.scullQuantum ∧ r.driver.scullQset = s.scullQset := by
    rw [h.driver]
    exact ⟨rfl, rfl⟩
  rw [hstep, Scull.Sys.scullOpen]
  by_cases hw : (write && !read) = true
  · rw [if_pos hw] at hs ⊢
    cases ht : r.driver.scullTrim with
    | none =>
      rw [ht] at hs
      cases hs
    | some d =>
      rw [ht] at hs
      cases hs
      have hd := scullTrim_globals ht
      exact ⟨_, lptr.put d, rfl, rfl,
        h.put ⟨rfl, rfl, rfl⟩ ⟨hd.1.trans hglobals.1, hd.2.trans hglobals.2⟩ rfl⟩
  · rw [if_neg hw] at hs ⊢
    cases hs
    exact ⟨_, lptr.put r.driver, rfl, rfl, h.put ⟨rfl, rfl, rfl⟩ hglobals rfl⟩

/-- The run behind one terminal: as long as it has no device there is nothing, and then its device is
a bare device that was loaded with the geometry, under its own calls and all ioctls. -/
structure Behind [OfNat β 0] (κ : ℕ → Kmalloc β) (key : ℕ) (quantum qset : Int)
    (as : List (Scull.Act F β)) (s : Sys F β) : Prop where
  linked : s.Linked
  globals : GeometryOk s.scullQuantum s.scullQset
  before : s.find key = none → as = [] ∧ s.resultsOf key = []
  after : (s.find key).isSome → ∃ dev lptr r,
    exec (Scull.Sys.step (κ key)) (Scull.Sys.loaded quantum qset) as = .ok r ∧ lptr.key = key ∧
    Sees s dev lptr r

namespace Behind

variable [OfNat β 0] {as : List (Scull.Act F β)} {quantum qset : Int}

theorem loaded (h : GeometryOk quantum qset) :
    Behind κ key quantum qset [] (Sys.loaded quantum qset : Sys F β) where
  linked := by
    refine ⟨fun dev => by simp [Sys.loaded], fun dev dev' lptr lptr' hm => ?_, fun f dev file hf => ?_⟩
    · cases hm
    · cases hf
  globals := h
  before _ := ⟨rfl, rfl⟩
  after h := by cases h

/-- Without a device yet, the terminal can be said to get one of the geometry of the moment. -/
theorem fresh (h : Behind κ key quantum qset as s) (hnone : s.find key = none) :
    Behind κ key s.scullQuantum s.scullQset [] s where
  linked := h.linked
  globals := h.globals
  before _ := ⟨rfl, (h.before hnone).2⟩
  after hsome := by
    rw [hnone] at hsome
    cases hsome

/-- The terminal's own call. -/
theorem of_step (ht : t.Linked) (hg : GeometryOk t.scullQuantum t.scullQset)
    {a : Scull.Act F β} {r' : Scull.Sys F β}
    (hrun : exec (Scull.Sys.step (κ key)) (Scull.Sys.loaded quantum qset) as = .ok r)
    (hstep : Scull.Sys.step (κ key) r a = .ok r') (hkey : lptr.key = key)
    (hsees : Sees t dev lptr r') : Behind κ key quantum qset (as ++ [a]) t where
  linked := ht
  globals := hg
  before hnone := by
    rw [← hkey, ht.find_eq hsees.item] at hnone
    cases hnone
  after _ := ⟨dev, lptr, r', exec_snoc_ok hrun hstep, hkey, hsees⟩

/-- What another terminal does to its own device. -/
theorem other (h : Behind κ key quantum qset as s) (ht : t.Linked) (hg : t.scullQuantum = s.scullQuantum ∧
    t.scullQset = s.scullQset) (hfind : (t.find key).isSome = (s.find key).isSome)
    (hres : t.resultsOf key = s.resultsOf key)
    (hsees : ∀ dev lptr r, lptr.key = key → Sees s dev lptr r → Sees t dev lptr r) :
    Behind κ key quantum qset as t where
  linked := ht
  globals := by
    rw [hg.1, hg.2]
    exact h.globals
  before hnone := by
    rw [hres]
    apply h.before
    rw [← Option.not_isSome_iff_eq_none, ← hfind, hnone]
    exact Bool.false_ne_true
  after hsome := by
    rw [hfind] at hsome
    obtain ⟨dev, lptr, r, hrun, hkey, hs⟩ := h.after hsome
    exact ⟨dev, lptr, r, hrun, hkey, hsees dev lptr r hkey hs⟩

omit [OfNat β 0] in
theorem openDevice_eq_ok {read write : Bool} (hs : s.openDevice dev f read write = .ok t) :
    ∃ lptr d, s.mem dev = some lptr ∧ t = s.put dev lptr d f { fPos := 0, read, write } .opened := by
  unfold openDevice at hs
  split at hs
  · cases hs
  next lptr hm =>
    split at hs
    · cases hs
    next d _ =>
      cases hs
      exact ⟨lptr, d, hm, rfl⟩

/-- A call through an open or opened file of another terminal's device. -/
theorem put_other (h : Behind κ key quantum qset as s) (hm : s.mem dev = some lptr) (hkey : lptr.key ≠ key)
    (hf : ∀ dev' lptr', s.mem dev' = some lptr' → lptr'.key = key → s.fileOn dev' f = none) :
    Behind κ key quantum qset as (s.put dev lptr d f file res) := by
  have ht := h.linked.put hm d f file res
  refine h.other ht ⟨rfl, rfl⟩ (h.linked.find_put hm key d f file res) ?_ ?_
  · rw [resultsOf_put, if_neg hkey, List.append_nil]
  · intro dev' lptr' r hk hsees
    exact hsees.put_other hm (hk ▸ hkey) (hf dev' lptr' hsees.item hk)

theorem opens (h : Behind κ key quantum qset as s) (hf : s.files f = none) {read write : Bool}
    (hm : s.mem dev = some lptr) (hs : s.openDevice dev f read write = .ok t) :
    Behind κ key quantum qset (as ++ if lptr.key = key then [.opens f read write false] else []) t := by
  obtain ⟨lptr', d, hm', rfl⟩ := openDevice_eq_ok hs
  obtain rfl : lptr' = lptr := by
    rw [hm, Option.some.injEq] at hm'
    exact hm'.symm
  split_ifs with hkey
  · have hsome : (s.find key).isSome := h.linked.find_isSome_iff.mpr ⟨dev, lptr', hm, hkey⟩
    obtain ⟨dev', l, r, hrun, hl, hsees⟩ := h.after hsome
    obtain rfl : dev' = dev := h.linked.keys _ _ _ _ hsees.item hm (hl.trans hkey.symm)
    obtain ⟨r', l', hstep, hl', hsees'⟩ := hsees.opens hf hs (κ key)
    exact of_step (h.linked.put hm ..) h.globals hrun hstep (hl'.trans hl) hsees'
  · rw [List.append_nil]
    refine h.put_other hm hkey fun dev' l _ _ => ?_
    rw [fileOn, hf]
    rfl

/-- The device is created on the first open; before it the terminal has seen nothing. -/
theorem create (h : Behind κ key quantum qset as s)
    (hgeo : s.find key = none → s.scullQuantum = quantum ∧ s.scullQset = qset) {key' : ℕ}
    (hm : s.mem dev = none) (hnone : s.find key' = none) :
    Behind κ key quantum qset as (s.create key' dev) := by
  have ht := h.linked.create hm hnone
  by_cases hkey : key' = key
  · subst hkey
    obtain ⟨rfl, hres⟩ := h.before hnone
    obtain ⟨rfl, rfl⟩ := hgeo hnone
    obtain ⟨lptr, hl, hsees⟩ := sees_created h.linked hm hres
    have hfound := ht.find_eq hsees.item
    rw [hl] at hfound
    refine ⟨ht, h.globals, fun hn => ?_, fun _ => ?_⟩
    · rw [hfound] at hn
      cases hn
    · exact ⟨dev, lptr, _, rfl, hl, hsees⟩
  · exact h.other ht ⟨rfl, rfl⟩ (h.linked.find_create hm hnone hkey) rfl
      fun dev' lptr r _ hsees => hsees.create key' hm

/-- An ioctl through whatever file is one on every device. -/
theorem ioctl (h : Behind κ key quantum qset as s) {cmd : Ioctl} {d : Driver β}
    (hd : d = (Driver.loaded s.scullQuantum s.scullQset : Driver β).ioctl cmd)
    (hok : GeometryOk d.scullQuantum d.scullQset) :
    Behind κ key quantum qset (as ++ if (s.find key).isSome then [.ioctl cmd] else [])
      { s with scullQuantum := d.scullQuantum, scullQset := d.scullQset } where
  linked := ⟨h.linked.listed, h.linked.keys, h.linked.files⟩
  globals := hok
  before hnone := by
    have hn : s.find key = none := hnone
    rw [hn, if_neg (by simp), List.append_nil]
    exact h.before hn
  after hsome := by
    have hs : (s.find key).isSome := hsome
    obtain ⟨dev, lptr, r, hrun, hkey, hsees⟩ := h.after hs
    have hdriver : r.driver.ioctl cmd = lptr.driver d.scullQuantum d.scullQset := by
      rw [hsees.driver, hd]
      cases cmd <;> rfl
    have hstep : Scull.Sys.step (κ key) r (.ioctl cmd) =
        .ok ({ r with driver := r.driver.ioctl cmd }.reply .told) := by
      rw [Scull.Sys.step, hdriver]
      exact if_pos hok
    rw [if_pos hs]
    refine ⟨dev, lptr, _, exec_snoc_ok hrun hstep, hkey, ?_⟩
    refine ⟨hsees.item, hdriver, hsees.files, ?_⟩
    show (r.results ++ [Result.told]).filter Result.ofFile = _
    rw [List.filter_append, hsees.results]
    exact List.append_nil _

theorem call (h : Behind κ key quantum qset as s) {op : Op β} (hf : s.files f = some (dev, file))
    (hm : s.mem dev = some lptr)
    (hop : op.perform (κ lptr.key) (s.driver lptr) file = .ok (d, file', res)) :
    Behind κ key quantum qset (as ++ if lptr.key = key then [op.on f] else []) (s.put dev lptr d f file' res) := by
  split_ifs with hkey
  · have hsome : (s.find key).isSome := h.linked.find_isSome_iff.mpr ⟨dev, lptr, hm, hkey⟩
    obtain ⟨dev', l, r, hrun, hl, hsees⟩ := h.after hsome
    obtain rfl : dev' = dev := h.linked.keys _ _ _ _ hsees.item hm (hl.trans hkey.symm)
    obtain rfl : l = lptr := by
      have hitem := hsees.item
      rw [hm, Option.some.injEq] at hitem
      exact hitem.symm
    have hrf : r.files f = some file := by rw [hsees.files, fileOn, hf]; simp
    rw [← hsees.driver, hkey] at hop
    obtain ⟨r', hstep, hafter⟩ := step_of_perform hrf hop
    have hglobals := perform_globals hop
    rw [hsees.driver] at hglobals
    have hl' : (l.put d).key = key := hl
    exact of_step (h.linked.put hm ..) h.globals hrun hstep hl'
      (hsees.put hafter hglobals (perform_ofFile hop))
  · rw [List.append_nil]
    refine h.put_other hm hkey fun dev' l hm' hl => ?_
    have hne : dev ≠ dev' := by
      rintro rfl
      rw [hm, Option.some.injEq] at hm'
      exact hkey (by rw [hm', hl])
    rw [fileOn, hf]
    simp [hne]

theorem step (h : Behind κ key quantum qset as s)
    (hgeo : s.find key = none → s.scullQuantum = quantum ∧ s.scullQset = qset) {a : Act F β}
    (hs : s.step κ a = .ok t) : Behind κ key quantum qset (as ++ own key s a) t := by
  cases a with
  | opens f tty read write kmalloc =>
    rw [Sys.step] at hs
    split_ifs at hs with hbusy
    obtain ⟨hf, hfresh⟩ := not_or.mp hbusy
    rw [Option.not_isSome_iff_eq_none] at hf
    cases tty with
    | none =>
      cases hs
      rwa [own, List.append_nil]
    | some key' =>
      rw [own]
      rw [scullCOpen] at hs
      cases hfind : s.find key' with
      | some dev =>
        have hlook : s.lookforDevice key' kmalloc = some (dev, s) := by
          rw [lookforDevice, hfind]
        rw [hlook] at hs
        obtain ⟨lptr, hm, rfl⟩ := find_eq_some hfind
        rw [hlook]
        simpa using h.opens hf hm hs
      | none =>
        cases kmalloc with
        | none =>
          have hlook : s.lookforDevice key' none = none := by rw [lookforDevice, hfind]; rfl
          rw [hlook] at hs ⊢
          cases hs
          simpa using h
        | some dev =>
          have hlook : s.lookforDevice key' (some dev) = some (dev, s.create key' dev) := by
            rw [lookforDevice, hfind]
            rfl
          rw [hlook] at hs ⊢
          have hm : s.mem dev = none := by simpa using hfresh
          have hnew := h.create hgeo hm hfind
          simpa using hnew.opens hf (Function.update_self ..) hs
  | ioctl cmd =>
    rw [Sys.step] at hs
    split_ifs at hs with hok
    cases hs
    exact h.ioctl rfl hok
  | call f op =>
    rw [Sys.step] at hs
    split at hs
    · cases hs
    next dev file hf =>
      split at hs
      · cases hs
      next lptr hm =>
        obtain ⟨⟨d, file', res⟩, hop, rfl⟩ := Outcome.map_eq_ok.mp hs
        have howner : s.owner f = some lptr.key := by simp [owner, hf, hm]
        rw [own, howner]
        simpa using h.call hf hm hop

theorem run (hgeo : GeometryOk quantum qset) (key : ℕ) {acts : List (Act F β)}
    (he : exec (Sys.step κ) (Sys.loaded quantum qset) acts = .ok s) :
    ∃ quantum qset as, Behind κ key quantum qset as s := by
  apply exec_invariant (I := fun s => ∃ quantum qset as, Behind κ key quantum qset as s) ?_
    ⟨quantum, qset, [], loaded hgeo⟩ he
  rintro s a t ⟨quantum, qset, as, h⟩ hs
  rcases hfind : s.find key with _ | dev
  · exact ⟨_, _, _, (h.fresh hfind).step (fun _ => ⟨rfl, rfl⟩) hs⟩
  · exact ⟨_, _, _, h.step (fun hnone => by cases hfind.symm.trans hnone) hs⟩

end Behind

end KernelExperiment.Access.Private
