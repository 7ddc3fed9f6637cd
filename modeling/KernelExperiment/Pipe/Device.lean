import KernelExperiment.Kernel.Abi
import KernelExperiment.Lib.Ring

/-! The scull pipe device and the parts of its calls that run under the device semaphore. Pointers
into the buffer are offsets from its first byte. -/

namespace KernelExperiment.Pipe
open Kernel Region

structure ScullPipe where
  buffer : Option (List Byte)
  bufferEnd : Int
  buffersize : Int32
  rp : ℕ
  wp : ℕ
  nreaders : Int
  nwriters : Int
  deriving DecidableEq

/-- What a read or a write does once it holds the semaphore. -/
inductive Transfer where
  | wait
  | efault
  | done (bytes : List Byte)
  deriving DecidableEq

def Transfer.bytes : Transfer → List Byte
  | .done bytes => bytes
  | _ => []

namespace ScullPipe

/-- The queued bytes: the ring content, nothing while there is no buffer. -/
def queue (dev : ScullPipe) : List Byte :=
  match dev.buffer with
  | none => []
  | some mem => Ring.content mem dev.rp dev.wp

/-- How much space is free? There is no answer when the remainder is taken by zero. -/
def spacefree (dev : ScullPipe) : Option Int :=
  if dev.rp = dev.wp then some (dev.buffersize.toInt - 1)
  else if dev.buffersize = 0 then none
  else some ((toLong (dev.rp + dev.buffersize.toInt - dev.wp)).tmod dev.buffersize.toInt - 1)

def wrapped (dev : ScullPipe) (ptr : ℕ) : ℕ := if (ptr : Int) = dev.bufferEnd then 0 else ptr

/-- How much of a read of `count` bytes is copied: to the write position or to `dev->end`. -/
def readCount (dev : ScullPipe) (count : ℕ) : ℕ :=
  if dev.wp > dev.rp then min count (sizeT (dev.wp - dev.rp))
  else min count (sizeT (dev.bufferEnd - dev.rp))

/-- How much of a write of `count` bytes is copied: to `dev->end` or up to before `dev->rp`. -/
def writeCount (dev : ScullPipe) (space : Int) (count : ℕ) : ℕ :=
  if dev.wp ≥ dev.rp then min (min count (sizeT space)) (sizeT (dev.bufferEnd - dev.wp))
  else min (min count (sizeT space)) (sizeT (dev.rp - dev.wp - 1))

/-- `scull_p_read` under the semaphore. There is no result when the copy leaves the buffer. -/
def readSection (dev : ScullPipe) (count : ℕ) (fault : Option ℕ) :
    Option (Transfer × ScullPipe) :=
  if dev.rp = dev.wp then some (.wait, dev)
  else
    dev.buffer.bind fun mem =>
      (readRange mem dev.rp (dev.readCount count)).map fun bytes =>
        if copyOk (dev.readCount count) fault then
          (.done bytes, { dev with rp := dev.wrapped (dev.rp + dev.readCount count) })
        else (.efault, dev)

def writeSection (dev : ScullPipe) (buf : List Byte) (fault : Option ℕ) :
    Option (Transfer × ScullPipe) :=
  dev.spacefree.bind fun space =>
    if space = 0 then some (.wait, dev)
    else
      let count := dev.writeCount space buf.length
      dev.buffer.bind fun mem =>
        (writeRange mem dev.wp (copiedIn (buf.take count) fault)).map fun mem =>
          if copyOk count fault then
            (.done (buf.take count),
              { dev with buffer := some mem, wp := dev.wrapped (dev.wp + count) })
          -- the bytes copied before the fault are in the buffer, but not queued
          else (.efault, { dev with buffer := some mem })

def openBuffer (dev : ScullPipe) (size : Int32) (kmalloc : Option (ℕ → Byte)) :
    Option (List Byte) :=
  match dev.buffer with
  | some mem => some mem
  | none => kmalloc.map (block (sizeT size.toInt))

/-- `scull_p_open` under the semaphore. The global `scull_p_buffer` is read for the allocation and
again for the size. -/
def openSection (dev : ScullPipe) (allocSize size : Int32) (kmalloc : Option (ℕ → Byte))
    (read write : Bool) : Except Errno ScullPipe :=
  match dev.openBuffer allocSize kmalloc with
  | none => .error .enomem
  | some mem =>
    -- size and pointers are set whether the buffer is new or not
    .ok { buffer := some mem, bufferEnd := size.toInt, buffersize := size, rp := 0, wp := 0,
          nreaders := dev.nreaders + read.toInt, nwriters := dev.nwriters + write.toInt }

def releaseSection (dev : ScullPipe) (read write : Bool) : ScullPipe :=
  let nreaders := dev.nreaders - read.toInt
  let nwriters := dev.nwriters - write.toInt
  { dev with
    buffer := if nreaders + nwriters = 0 then none else dev.buffer,
    nreaders, nwriters }

end ScullPipe
end KernelExperiment.Pipe
