import KernelExperiment.Kernel.Files
import KernelExperiment.Lib.Region
import KernelExperiment.Lib.Runs

/-! The scull driver whose devices are arrays of a fixed size, under calls made one after another
through any number of open files. -/

namespace KernelExperiment.Fixed
open Kernel Region Runs

def scullDataSize : ℕ := 16

structure ScullDev where
  data : List Byte
  size : ℕ
  deriving DecidableEq

namespace ScullDev

def cleared : ScullDev := { data := List.replicate scullDataSize 0, size := 0 }

def scullTrim (dev : ScullDev) : ScullDev :=
  { dev with data := List.replicate scullDataSize 0, size := 0 }

/-- `scull_read` under the semaphore; a missing result is an access outside the array. -/
def scullRead (dev : ScullDev) (fPos : Int) (count : ℕ) (fault : Option ℕ) :
    Option (Except Errno (List Byte)) :=
  if fPos ≥ dev.size then some (.ok [])
  else
    let count := if fPos + count > dev.size then sizeT (dev.size - fPos) else count
    (readFrom dev.data fPos count).map fun bytes =>
      if copyOk count fault then .ok bytes else .error .efault

def scullWrite (dev : ScullDev) (fPos : Int) (buf : List Byte) (fault : Option ℕ) :
    Option (Except Errno ℕ × ScullDev) :=
  if fPos ≥ scullDataSize then some (.error .enospc, dev)
  else
    let count :=
      if fPos + buf.length > scullDataSize then sizeT (scullDataSize - fPos) else buf.length
    (writeTo dev.data fPos (copiedIn (buf.take count) fault)).map fun data =>
      let fPos := toLoff (fPos + count)
      -- the size becomes the new position, be it lower than before
      if copyOk count fault then (.ok count, { data, size := sizeT fPos })
      else (.error .efault, { dev with data })

def scullLlseek (dev : ScullDev) (file : File) (off : Int) (whence : ℕ) : Except Errno Int :=
  llseek file.fPos dev.size off whence

end ScullDev

inductive Result where
  | opened
  | position (newpos : Int)
  | stored (n : ℕ)
  | bytes (bs : List Byte)
  | error (e : Errno)
  deriving DecidableEq

inductive Act (F : Type*) where
  | opens (f : F) (read write interrupted : Bool)
  | llseek (f : F) (off : Int64) (whence : ℕ)
  | read (f : F) (count : ℕ) (interrupted : Bool)
  | write (f : F) (buf : List Byte) (interrupted : Bool)

structure Sys (F : Type*) where
  dev : ScullDev
  files : F → Option File
  results : List Result

namespace Sys

variable {F : Type*}

def loaded : Sys F := { dev := .cleared, files := fun _ => none, results := [] }

def reply (s : Sys F) (r : Result) : Sys F := { s with results := s.results ++ [r] }

variable [DecidableEq F]

def setFile (s : Sys F) (f : F) (file : File) : Sys F :=
  { s with files := Function.update s.files f (some file) }

/-- One call, with user memory that can be copied. Calls that the file system layer refuses are left
out. -/
def step (s : Sys F) : Act F → Outcome (Sys F)
  | .opens f read write interrupted =>
    if s.files f ≠ none then .blocked
    else if write && !read && interrupted then .ok (s.reply (.error .erestartsys))
    else
      let dev := if write && !read then s.dev.scullTrim else s.dev
      .ok (({ s with dev }.setFile f { fPos := 0, read, write }).reply .opened)
  | .llseek f off whence =>
    match s.files f with
    | none => .blocked
    | some file =>
      match s.dev.scullLlseek file off.toInt whence with
      | .error e => .ok (s.reply (.error e))
      | .ok newpos => .ok ((s.setFile f { file with fPos := newpos }).reply (.position newpos))
  | .read f count interrupted =>
    match s.files f with
    | none => .blocked
    | some file =>
      if file.read = false then .blocked
      else if interrupted then .ok (s.reply (.error .erestartsys))
      else
        match s.dev.scullRead file.fPos count none with
        | none => .fault
        | some (.error e) => .ok (s.reply (.error e))
        | some (.ok bs) =>
          .ok ((s.setFile f { file with fPos := toLoff (file.fPos + bs.length) }).reply (.bytes bs))
  | .write f buf interrupted =>
    match s.files f with
    | none => .blocked
    | some file =>
      if file.write = false then .blocked
      else if interrupted then .ok (s.reply (.error .erestartsys))
      else
        match s.dev.scullWrite file.fPos buf none with
        | none => .fault
        | some (.error e, dev) => .ok ({ s with dev }.reply (.error e))
        | some (.ok n, dev) =>
          .ok (({ s with dev }.setFile f { file with fPos := toLoff (file.fPos + n) }).reply
            (.stored n))

end Sys
end KernelExperiment.Fixed
