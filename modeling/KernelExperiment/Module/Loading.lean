import KernelExperiment.Kernel.Chrdevs
import KernelExperiment.Pipe.Lifetime
import KernelExperiment.Access.Private

/-! The life of the module, from `scull_init_module` to `scull_cleanup_module`. A device is open to
everybody from its `cdev_add` on, while the devices behind it are still being set up; what the files
are used for between load and unload is what the bare devices and the pipes do each for itself. -/

namespace KernelExperiment.Module
open Kernel Runs Scull

structure Params where
  scullMajor : ℕ
  scullMinor : ℕ
  scullNrDevs : ℕ
  scullPNrDevs : ℕ
  scullQuantum : Int
  scullQset : Int
  scullPBuffer : Int32
  nrDevs_pos : 0 < scullNrDevs
  minors_le : scullMinor + scullNrDevs + scullPNrDevs ≤ 1048576
  geometryOk : GeometryOk scullQuantum scullQset

def mkdev (major minor : ℕ) : ℕ := major * 1048576 + minor

inductive Dev where
  | other (k : ℕ)
  | bare (i : ℕ)
  | pipe (i : ℕ)
  deriving DecidableEq

/-- Memory for an array of devices, all zeros but for those that have been set up. -/
structure Devices (α : Type*) where
  block : ℕ
  dev : ℕ → Option α

namespace Devices

variable {α : Type*}

def set (d : Devices α) (i : ℕ) (a : α) : Devices α :=
  { d with dev := Function.update d.dev i (some a) }

/-- A global that all devices share has changed. -/
def map (g : α → α) (d : Devices α) : Devices α := { d with dev := fun i => (d.dev i).map g }

end Devices

inductive Pc where
  | unloaded
  | setup (i : ℕ)
  | pInit
  | pSetup (i : ℕ)
  | live
  deriving DecidableEq

/-- The kernel and the module. `refs` has the open files; `oldDevices` and `oldPipes` are what former
loads have left, with the number of the load and of the device. -/
structure Sys (P F β : Type*) where
  chrdevs : Chrdevs Dev
  pc : Pc
  scullMajor : ℕ
  scullQuantum : Int
  scullQset : Int
  scullPBuffer : Int32
  scullDevices : Option (Devices (Scull.Sys F β))
  scullPDevices : Option (Devices (Pipe.Lifetime.Sys P F))
  refs : List (Dev × F)
  loads : ℕ
  nalloc : ℕ
  freed : List ℕ
  oldDevices : List (ℕ × ℕ × Driver β)
  oldPipes : List (ℕ × ℕ × Pipe.Lifetime.Sys P F)

inductive Act (P F β : Type*) where
  | load (major : ℕ) (ok kmalloc : Bool)
  | proceed (ok kmalloc : Bool)
  | unload
  | opens (devno : ℕ) (f : F) (file : Pipe.File) (interrupted : Bool) (kmalloc : Option (ℕ → Byte))
  | release (i : ℕ) (f : F)
  | call (i : ℕ) (f : F) (op : Scull.Op β)
  | ioctl (cmd : Ioctl)
  | ioctlTsize (arg : UInt32)
  | pipe (i : ℕ) (a : Pipe.Act P F)

variable {P F β : Type*}

/-- `scull_trim` of one device after the other. -/
def Devices.trimAll (d : Devices (Scull.Sys F β)) : ℕ → Option (List (ℕ × Driver β))
  | 0 => some []
  | n + 1 =>
    (d.trimAll n).bind fun drivers =>
      (d.dev n).bind fun c => c.driver.scullTrim.map fun driver => drivers ++ [(n, driver)]

/-- `kfree(scull_p_devices[i].buffer)` -/
def kfreeBuffer (c : Pipe.Lifetime.Sys P F) : Pipe.Lifetime.Sys P F :=
  { c with block := none, freed := c.freed ++ c.block.toList }

namespace Sys

/-- Before the module is loaded for the first time. -/
def fresh (chrdevs : Chrdevs Dev) : Sys P F β :=
  { chrdevs, pc := .unloaded, scullMajor := 0, scullQuantum := 0, scullQset := 0, scullPBuffer := 0,
    scullDevices := none, scullPDevices := none, refs := [], loads := 0, nalloc := 0, freed := [],
    oldDevices := [], oldPipes := [] }

def devno (p : Params) (s : Sys P F β) : ℕ := mkdev s.scullMajor p.scullMinor

def scullPDevno (p : Params) (s : Sys P F β) : ℕ :=
  mkdev s.scullMajor (p.scullMinor + p.scullNrDevs)

def scullPCleanup (p : Params) (s : Sys P F β) : Sys P F β :=
  match s.scullPDevices with
  | none => s
  | some d => { s with
      chrdevs := (s.chrdevs.delAll (s.scullPDevno p) Dev.pipe p.scullPNrDevs).unregister
        (s.scullPDevno p) p.scullPNrDevs
      scullPDevices := none
      freed := s.freed ++ [d.block]
      oldPipes := s.oldPipes ++ (List.range p.scullPNrDevs).filterMap fun i =>
        (d.dev i).map fun c => (s.loads, i, kfreeBuffer c) }

/-- The region goes after the bare devices, and the pipes after that. -/
def scullCleanupModule (p : Params) (s : Sys P F β) : Outcome (Sys P F β) :=
  match s.scullDevices with
  | none =>
    .ok (scullPCleanup p { s with
      chrdevs := s.chrdevs.unregister (s.devno p) p.scullNrDevs
      pc := .unloaded })
  | some d =>
    match d.trimAll p.scullNrDevs with
    | none => .fault
    | some drivers =>
      .ok (scullPCleanup p { s with
        chrdevs := (s.chrdevs.delAll (s.devno p) Dev.bare p.scullNrDevs).unregister (s.devno p)
          p.scullNrDevs
        pc := .unloaded
        scullDevices := none
        freed := s.freed ++ [d.block]
        oldDevices := s.oldDevices ++ drivers.map fun e => (s.loads, e.1, e.2) })

/-- The variables of the module when it is loaded. Without `scull_major` the kernel chooses a number. -/
def loadImage (p : Params) (s : Sys P F β) (major : ℕ) : Sys P F β :=
  { s with
    scullMajor := if p.scullMajor ≠ 0 then p.scullMajor else major
    scullQuantum := p.scullQuantum
    scullQset := p.scullQset
    scullPBuffer := p.scullPBuffer
    scullDevices := none
    scullPDevices := none
    loads := s.loads + 1 }

/-- `scull_init_module` up to the loop. -/
def scullInitModule (p : Params) (s : Sys P F β) (ok kmalloc : Bool) : Outcome (Sys P F β) :=
  match s.chrdevs.register ok (s.devno p) p.scullNrDevs with
  | none => .ok s
  | some chrdevs =>
    if kmalloc then
      .ok { s with
        chrdevs
        scullDevices := some { block := s.nalloc, dev := fun _ => none }
        nalloc := s.nalloc + 1
        pc := .setup 0 }
    else scullCleanupModule p { s with chrdevs }

/-- One turn of the loop with `scull_setup_cdev`. -/
def scullSetupCdev (p : Params) (s : Sys P F β) (i : ℕ) (ok : Bool) : Outcome (Sys P F β) :=
  match s.scullDevices with
  | none => .fault
  | some d =>
    .ok { s with
      scullDevices := some (d.set i (Scull.Sys.loaded s.scullQuantum s.scullQset))
      chrdevs := s.chrdevs.add ok (s.devno p + i) (.bare i)
      pc := .setup (i + 1) }

/-- `scull_p_init` up to the loop. -/
def scullPInit (p : Params) (s : Sys P F β) (ok kmalloc : Bool) : Sys P F β :=
  match s.chrdevs.register ok (s.scullPDevno p) p.scullPNrDevs with
  | none => { s with pc := .live }
  | some chrdevs =>
    if kmalloc then
      { s with
        chrdevs
        scullPDevices := some { block := s.nalloc, dev := fun _ => none }
        nalloc := s.nalloc + 1
        pc := .pSetup 0 }
    else
      { s with
        chrdevs := chrdevs.unregister (s.scullPDevno p) p.scullPNrDevs
        pc := .live }

/-- One turn of its loop with `scull_p_setup_cdev`. -/
def scullPSetupCdev (p : Params) (s : Sys P F β) (i : ℕ) (ok : Bool) : Outcome (Sys P F β) :=
  match s.scullPDevices with
  | none => .fault
  | some d =>
    .ok { s with
      scullPDevices := some (d.set i (Pipe.Lifetime.Sys.loaded s.scullPBuffer))
      chrdevs := s.chrdevs.add ok (s.scullPDevno p + i) (.pipe i)
      pc := .pSetup (i + 1) }

variable [DecidableEq P] [DecidableEq F] [Fintype P] [OfNat β 0]

/-- A call on a bare device. Without the device there, it would go to memory that is not set up. -/
def onBare (κ : ℕ → ℕ → Kmalloc β) (s : Sys P F β) (i : ℕ) (a : Scull.Act F β) :
    Outcome (Sys P F β × Scull.Sys F β) :=
  match s.scullDevices with
  | none => .fault
  | some d =>
    match d.dev i with
    | none => .fault
    | some c =>
      (Scull.Sys.step (κ s.loads i) c a).map fun c =>
        ({ s with scullDevices := some (d.set i c) }, c)

def onPipe (s : Sys P F β) (i : ℕ) (a : Pipe.Act P F) :
    Outcome (Sys P F β × Pipe.Lifetime.Sys P F) :=
  match s.scullPDevices with
  | none => .fault
  | some d =>
    match d.dev i with
    | none => .fault
    | some c => (c.step a).map fun c => ({ s with scullPDevices := some (d.set i c) }, c)

/-- An open that succeeds leaves a file. -/
def opened (s : Sys P F β) (dev : Dev) (f : F) (succeeds : Bool) : Sys P F β :=
  if succeeds then { s with refs := (dev, f) :: s.refs } else s

/-- Both kinds of devices have `scull_ioctl`, and the globals are those of the module. -/
def scullIoctl (s : Sys P F β) (cmd : Ioctl) : Outcome (Sys P F β) :=
  let d : Driver β := (Driver.loaded s.scullQuantum s.scullQset : Driver β).ioctl cmd
  if GeometryOk d.scullQuantum d.scullQset then
    .ok { s with
      scullQuantum := d.scullQuantum
      scullQset := d.scullQset
      scullDevices := s.scullDevices.map (Devices.map fun c =>
        { c with driver := c.driver.ioctl cmd }.reply .told) }
  else .blocked

def scullIoctlTsize (s : Sys P F β) (arg : UInt32) : Sys P F β :=
  { s with
    scullPBuffer := Pipe.told s.scullPBuffer [arg]
    scullPDevices := s.scullPDevices.map (Devices.map fun c =>
      { c with pipe.scullPBuffer := Pipe.told c.pipe.scullPBuffer [arg] }) }

/-- What is done with an open pipe. -/
def callPipe (s : Sys P F β) (i : ℕ) : Pipe.Act P F → Outcome (Sys P F β)
  | .opens .. | .ioctlTsize _ => .blocked
  | .release f =>
    (s.onPipe i (.release f)).map fun (s, _) => { s with refs := s.refs.erase (.pipe i, f) }
  | .enter q call => (s.onPipe i (.enter q call)).map Prod.fst
  | .transfer q fault => (s.onPipe i (.transfer q fault)).map Prod.fst
  | .interrupted q => (s.onPipe i (.interrupted q)).map Prod.fst

/-- Opens go by the number; another driver, or none, may be behind it. An open of a pipe sees one
value of `scull_p_buffer`. -/
def step (p : Params) (κ : ℕ → ℕ → Kmalloc β) (s : Sys P F β) : Act P F β → Outcome (Sys P F β)
  | .load major ok kmalloc =>
    match s.pc with
    | .unloaded => (s.loadImage p major).scullInitModule p ok kmalloc
    | _ => .blocked
  | .proceed ok kmalloc =>
    match s.pc with
    | .setup i =>
      if i < p.scullNrDevs then s.scullSetupCdev p i ok else .ok { s with pc := .pInit }
    | .pInit => .ok (s.scullPInit p ok kmalloc)
    | .pSetup i =>
      if i < p.scullPNrDevs then s.scullPSetupCdev p i ok else .ok { s with pc := .live }
    | _ => .blocked
  | .unload =>
    match s.pc, s.refs with
    | .live, [] => s.scullCleanupModule p
    | _, _ => .blocked
  | .opens devno f file interrupted kmalloc =>
    match s.chrdevs.cdevs devno with
    | some (.bare i) =>
      (s.onBare κ i (.opens f file.read file.write interrupted)).map fun (s, c) =>
        s.opened (.bare i) f (c.files f).isSome
    | some (.pipe i) =>
      (s.onPipe i (.opens f file interrupted kmalloc [])).map fun (s, c) =>
        s.opened (.pipe i) f (c.pipe.files f).isSome
    | _ => .ok s
  | .release i f =>
    if (.bare i, f) ∈ s.refs then .ok { s with refs := s.refs.erase (.bare i, f) } else .blocked
  | .call i f op =>
    if (.bare i, f) ∈ s.refs then (s.onBare κ i (op.on f)).map Prod.fst else .blocked
  | .ioctl cmd => if s.refs = [] then .blocked else s.scullIoctl cmd
  | .ioctlTsize arg => if s.refs = [] then .blocked else .ok (s.scullIoctlTsize arg)
  | .pipe i a =>
    if ∃ r ∈ s.refs, r.1 = .pipe i then s.callPipe i a else .blocked

end Sys
end KernelExperiment.Module
