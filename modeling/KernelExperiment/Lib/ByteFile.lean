import KernelExperiment.Lib.Region

/-! A file of bounded length, and how a block of memory of that length represents it. -/

namespace KernelExperiment.ByteFiles
open Region

variable {β : Type*} [OfNat β 0] {cap p i : ℕ} {bytes bs : List β}

/-- The bytes after storing `bs` at `p`; a gap before `p` is filled with zeros. -/
def overwrite (bytes : List β) (p : ℕ) (bs : List β) : List β :=
  bytes.take p ++ List.replicate (p - bytes.length) 0 ++ bs ++ bytes.drop (p + bs.length)

/-- The file in a block of `cap` cells, with zeros after its end. -/
def image (cap : ℕ) (bytes : List β) : List β := bytes ++ List.replicate (cap - bytes.length) 0

theorem length_overwrite : (overwrite bytes p bs).length = max bytes.length (p + bs.length) := by
  simp only [overwrite, List.length_append, List.length_take, List.length_replicate,
    List.length_drop]
  omega

theorem length_image (h : bytes.length ≤ cap) : (image cap bytes).length = cap := by
  rw [image, List.length_append, List.length_replicate]
  omega

theorem drop_take_image {n : ℕ} (hn : p + n ≤ bytes.length) :
    ((image cap bytes).drop p).take n = (bytes.drop p).take n := by
  have hlen : n ≤ (bytes.drop p).length := by
    rw [List.length_drop]
    omega
  rw [image, List.drop_append_of_le_length (by omega), List.take_append_of_le_length hlen]

theorem splice_image (h : bytes.length ≤ cap) (hfit : p + bs.length ≤ cap) :
    splice (image cap bytes) p bs = image cap (overwrite bytes p bs) := by
  have hgap : min (p - bytes.length) (cap - bytes.length) = p - bytes.length := by omega
  have hrest : cap - bytes.length - (p + bs.length - bytes.length) =
      cap - max bytes.length (p + bs.length) := by omega
  rw [image, splice, List.take_append, List.drop_append, List.take_replicate, List.drop_replicate,
    hgap, hrest, image, length_overwrite, overwrite]
  simp only [List.append_assoc]

structure ByteFile (cap : ℕ) (β : Type*) where
  bytes : List β
  bounded : bytes.length ≤ cap

namespace ByteFile

variable (file : ByteFile cap β)

def empty : ByteFile cap β := { bytes := [], bounded := Nat.zero_le cap }

def read (p count : ℕ) : List β := (file.bytes.drop p).take count

/-- The number of bytes stored at `p`, as many as fit, and the file then; none at the end of the
capacity or behind it. -/
def write (p : ℕ) (buf : List β) : Option (ℕ × ByteFile cap β) :=
  if h : p < cap then
    some (min buf.length (cap - p),
      { bytes := overwrite file.bytes p (buf.take (cap - p))
        bounded := by
          have hb := file.bounded
          rw [length_overwrite, List.length_take]
          omega })
  else none

end ByteFile

end KernelExperiment.ByteFiles
