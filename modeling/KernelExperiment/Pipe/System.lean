import KernelExperiment.Pipe.Transfer
import KernelExperiment.Lib.Population
import KernelExperiment.Lib.Runs

/-! A pipe device with its open files and the calls that processes have under way. A step is one
section under the device semaphore, the start of a call or its end by a signal. -/

namespace KernelExperiment.Pipe
open Kernel Runs Population

structure File where
  read : Bool
  write : Bool
  nonblock : Bool
  deriving DecidableEq

inductive Call (F : Type*) where
  | read (f : F) (count : ℕ)
  | write (f : F) (buf : List Byte)
  deriving DecidableEq

namespace Call

variable {F : Type*}

def file : Call F → F
  | read f _ => f
  | write f _ => f

/-- The check of the file system layer before it calls the driver. -/
def permitted : Call F → File → Bool
  | read .., file => file.read
  | write .., file => file.write

def runSection (call : Call F) (dev : ScullPipe) (fault : Option ℕ) :
    Option (Transfer × ScullPipe) :=
  match call with
  | read _ count => dev.readSection count fault
  | write _ buf => dev.writeSection buf fault

/-- Every way out of a section, with what it has done to the device. -/
inductive Ends (dev : ScullPipe) (fault : Option ℕ) : Call F → Transfer → ScullPipe → Prop
  | empty {f count} (h : dev.rp = dev.wp) : Ends dev fault (read f count) .wait dev
  | readFaults {f count} (h : dev.rp ≠ dev.wp) : Ends dev fault (read f count) .efault dev
  | readDone {f count bytes} (h : dev.rp ≠ dev.wp) :
      Ends dev fault (read f count) (.done bytes)
        { dev with rp := dev.wrapped (dev.rp + dev.readCount count) }
  | full {f buf} (h : dev.spacefree = some 0) : Ends dev fault (write f buf) .wait dev
  | writeFaults {f buf space mem mem'} (h : dev.spacefree = some space) (hne : space ≠ 0)
      (hmem : dev.buffer = some mem)
      (hwrite : Region.writeRange mem dev.wp
        (copiedIn (buf.take (dev.writeCount space buf.length)) fault) = some mem') :
      Ends dev fault (write f buf) .efault { dev with buffer := some mem' }
  | writeDone {f buf space mem mem'} (h : dev.spacefree = some space) (hne : space ≠ 0)
      (hmem : dev.buffer = some mem) :
      Ends dev fault (write f buf) (.done (buf.take (dev.writeCount space buf.length)))
        { dev with
          buffer := some mem'
          wp := dev.wrapped (dev.wp + dev.writeCount space buf.length) }

theorem runSection_ends {call : Call F} {dev dev' : ScullPipe} {fault : Option ℕ} {out : Transfer}
    (h : call.runSection dev fault = some (out, dev')) : Ends dev fault call out dev' := by
  cases call with
  | read f count =>
    rw [runSection, ScullPipe.readSection] at h
    rcases eq_or_ne dev.rp dev.wp with hempty | hne
    · rw [if_pos hempty] at h
      cases h
      exact .empty hempty
    · rw [if_neg hne] at h
      obtain ⟨mem, -, h⟩ := Option.bind_eq_some_iff.mp h
      obtain ⟨bytes, -, h⟩ := Option.map_eq_some_iff.mp h
      split_ifs at h
      · cases h
        exact .readDone hne
      · cases h
        exact .readFaults hne
  | write f buf =>
    rw [runSection, ScullPipe.writeSection] at h
    obtain ⟨space, hspace, h⟩ := Option.bind_eq_some_iff.mp h
    rcases eq_or_ne space 0 with rfl | hne
    · rw [if_pos rfl] at h
      cases h
      exact .full hspace
    · rw [if_neg hne] at h
      obtain ⟨mem, hmem, h⟩ := Option.bind_eq_some_iff.mp h
      obtain ⟨mem', hwrite, h⟩ := Option.map_eq_some_iff.mp h
      split_ifs at h
      · cases h
        exact .writeDone hspace hne hmem
      · cases h
        exact .writeFaults hspace hne hmem hwrite

def accepts : Call F → Transfer → List Byte
  | read .., _ => []
  | write .., out => out.bytes

def returns : Call F → Transfer → List Byte
  | read .., out => out.bytes
  | write .., _ => []

end Call

/-- The device, the global `scull_p_buffer`, the open files, the calls under way, and all bytes
accepted by writes and returned by reads so far. -/
structure Sys (P F : Type*) where
  scullPBuffer : Int32
  dev : ScullPipe
  files : F → Option File
  calls : P → Option (Call F)
  accepted : List Byte
  returned : List Byte

/-- `meanwhile` lists the arguments of the `SCULL_P_IOCTSIZE` calls between the two places where an
open reads `scull_p_buffer`; `ioctl` takes no semaphore. -/
inductive Act (P F : Type*) where
  | ioctlTsize (arg : UInt32)
  | opens (f : F) (file : File) (interrupted : Bool) (kmalloc : Option (ℕ → Byte))
      (meanwhile : List UInt32)
  | release (f : F)
  | enter (p : P) (call : Call F)
  | transfer (p : P) (fault : Option ℕ)
  | interrupted (p : P)

variable {P F : Type*}

def loaded (scullPBuffer : Int32) : Sys P F :=
  { scullPBuffer
    dev := { buffer := none, bufferEnd := 0, buffersize := 0, rp := 0, wp := 0,
             nreaders := 0, nwriters := 0 }
    files := fun _ => none
    calls := fun _ => none
    accepted := []
    returned := [] }

def told (scullPBuffer : Int32) (args : List UInt32) : Int32 :=
  args.foldl (fun _ arg => arg.toInt32) scullPBuffer

/-- A call that found nothing to do sleeps and will try again, unless its file is nonblocking. -/
def Sys.waits (s : Sys P F) (call : Call F) (out : Transfer) : Prop :=
  out = .wait ∧ ¬(s.files call.file).any File.nonblock

instance (s : Sys P F) (call : Call F) (out : Transfer) : Decidable (s.waits call out) :=
  inferInstanceAs (Decidable (_ ∧ _))

variable [DecidableEq P]

def Sys.finish (s : Sys P F) (p : P) (call : Call F) (out : Transfer) (dev : ScullPipe) : Sys P F :=
  { s with
    dev
    calls := if s.waits call out then s.calls else Function.update s.calls p none
    accepted := s.accepted ++ call.accepts out
    returned := s.returned ++ call.returns out }

variable [DecidableEq F]

/-- A file is released when its last reference is dropped, so not while a call on it is under
way. -/
def step [Fintype P] (s : Sys P F) : Act P F → Outcome (Sys P F)
  | .ioctlTsize arg => .ok { s with scullPBuffer := told s.scullPBuffer [arg] }
  | .opens f file interrupted kmalloc meanwhile =>
    if s.files f ≠ none then .blocked
    else if interrupted then .ok s
    else
      let size := told s.scullPBuffer meanwhile
      match s.dev.openSection s.scullPBuffer size kmalloc file.read file.write with
      | .error _ => .ok { s with scullPBuffer := size }
      | .ok dev =>
        .ok { s with scullPBuffer := size, dev, files := Function.update s.files f (some file) }
  | .release f =>
    match s.files f with
    | none => .blocked
    | some file =>
      if ∃ p, ∃ call ∈ s.calls p, call.file = f then .blocked
      else
        .ok { s with
          dev := s.dev.releaseSection file.read file.write
          files := Function.update s.files f none }
  | .enter p call =>
    if s.calls p = none ∧ (s.files call.file).any call.permitted then
      .ok { s with calls := Function.update s.calls p (some call) }
    else .blocked
  | .transfer p fault =>
    match s.calls p with
    | none => .blocked
    | some call =>
      match call.runSection s.dev fault with
      | none => .fault
      | some (out, dev) => .ok (s.finish p call out dev)
  | .interrupted p =>
    if s.calls p = none then .blocked
    else .ok { s with calls := Function.update s.calls p none }

inductive Move (s : Sys P F) : Act P F → Sys P F → Prop
  | tell (arg : UInt32) :
      Move s (.ioctlTsize arg) { s with scullPBuffer := told s.scullPBuffer [arg] }
  | openInterrupted {f file kmalloc meanwhile} (hf : s.files f = none) :
      Move s (.opens f file true kmalloc meanwhile) s
  | openFails {f file kmalloc meanwhile} (hf : s.files f = none)
      (hb : s.dev.openBuffer s.scullPBuffer kmalloc = none) :
      Move s (.opens f file false kmalloc meanwhile)
        { s with scullPBuffer := told s.scullPBuffer meanwhile }
  | opened {f file kmalloc meanwhile mem} (hf : s.files f = none)
      (hb : s.dev.openBuffer s.scullPBuffer kmalloc = some mem) :
      Move s (.opens f file false kmalloc meanwhile)
        { s with
          scullPBuffer := told s.scullPBuffer meanwhile
          dev := {
            buffer := some mem
            bufferEnd := (told s.scullPBuffer meanwhile).toInt
            buffersize := told s.scullPBuffer meanwhile
            rp := 0
            wp := 0
            nreaders := s.dev.nreaders + file.read.toInt
            nwriters := s.dev.nwriters + file.write.toInt }
          files := Function.update s.files f (some file) }
  | released {f file} (hf : s.files f = some file)
      (hcalls : ∀ p, ∀ call ∈ s.calls p, call.file ≠ f) :
      Move s (.release f)
        { s with
          dev := s.dev.releaseSection file.read file.write
          files := Function.update s.files f none }
  | entered {p call} (hp : s.calls p = none) (hf : (s.files call.file).any call.permitted) :
      Move s (.enter p call) { s with calls := Function.update s.calls p (some call) }
  | transferred {p fault call out dev} (hp : s.calls p = some call)
      (hrun : call.runSection s.dev fault = some (out, dev)) :
      Move s (.transfer p fault) (s.finish p call out dev)
  | gaveUp {p call} (hp : s.calls p = some call) :
      Move s (.interrupted p) { s with calls := Function.update s.calls p none }

theorem step_move [Fintype P] {s t : Sys P F} {a : Act P F} (h : step s a = .ok t) :
    Move s a t := by
  cases a with
  | ioctlTsize arg =>
    cases h
    exact .tell arg
  | opens f file interrupted kmalloc meanwhile =>
    simp only [step, ScullPipe.openSection] at h
    split_ifs at h with hf hi
    · cases h
      rw [hi]
      exact .openInterrupted (not_not.mp hf)
    · have hi' : interrupted = false := by simpa using hi
      rw [hi']
      cases hb : s.dev.openBuffer s.scullPBuffer kmalloc with
      | none =>
        rw [hb] at h
        cases h
        exact .openFails (not_not.mp hf) hb
      | some mem =>
        rw [hb] at h
        cases h
        exact .opened (not_not.mp hf) hb
  | release f =>
    simp only [step] at h
    cases hf : s.files f with
    | none =>
      rw [hf] at h
      cases h
    | some file =>
      rw [hf] at h
      dsimp only at h
      split_ifs at h with hcalls
      cases h
      refine .released hf fun p call hc he => hcalls ⟨p, call, hc, he⟩
  | enter p call =>
    simp only [step] at h
    split_ifs at h with hok
    cases h
    exact .entered hok.1 hok.2
  | transfer p fault =>
    simp only [step] at h
    cases hp : s.calls p with
    | none =>
      rw [hp] at h
      cases h
    | some call =>
      rw [hp] at h
      dsimp only at h
      cases hrun : call.runSection s.dev fault with
      | none =>
        rw [hrun] at h
        cases h
      | some r =>
        rw [hrun] at h
        cases h
        exact .transferred hp hrun
  | interrupted p =>
    simp only [step] at h
    split_ifs at h with hp
    cases h
    obtain ⟨call, hc⟩ := Option.ne_none_iff_exists'.mp hp
    exact .gaveUp hc

theorem step_fault [Fintype P] {s : Sys P F} {a : Act P F} (h : step s a = .fault) :
    ∃ p fault call, a = .transfer p fault ∧ s.calls p = some call ∧
      call.runSection s.dev fault = none := by
  cases a with
  | ioctlTsize arg => cases h
  | opens f file interrupted kmalloc meanwhile =>
    simp only [step] at h
    split_ifs at h
    split at h <;> cases h
  | release f =>
    simp only [step] at h
    split at h
    · cases h
    · split_ifs at h
  | enter p call =>
    simp only [step] at h
    split_ifs at h
  | transfer p fault =>
    simp only [step] at h
    cases hp : s.calls p with
    | none =>
      rw [hp] at h
      cases h
    | some call =>
      rw [hp] at h
      dsimp only at h
      cases hrun : call.runSection s.dev fault with
      | none => exact ⟨p, fault, call, rfl, hp, hrun⟩
      | some r =>
        rw [hrun] at h
        cases h
  | interrupted p =>
    simp only [step] at h
    split_ifs at h

end KernelExperiment.Pipe
