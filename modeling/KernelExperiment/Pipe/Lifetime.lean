import KernelExperiment.Pipe.Bounds
import KernelExperiment.Lib.Ledger

/-! The allocations behind `dev->buffer`. An open allocates where there is no buffer, a release frees
when the counts of readers and writers are both gone, and a file opened in neither mode is in none of
the counts. -/

namespace KernelExperiment.Pipe.Lifetime
open Kernel Runs Population Ledger

variable {P F : Type*}

/-- The device with the number of the allocation that is in `dev->buffer`, how many have been made
and what has been given to `kfree`. -/
structure Sys (P F : Type*) where
  pipe : Pipe.Sys P F
  block : Option ℕ
  nalloc : ℕ
  freed : List ℕ

namespace Sys

def loaded (scullPBuffer : Int32) : Sys P F :=
  { pipe := Pipe.loaded scullPBuffer, block := none, nalloc := 0, freed := [] }

/-- An open that gets the semaphore calls `kmalloc` where there is no buffer, and a release calls
`kfree`, be it with NULL, when the counts have come to zero. -/
def account (s : Sys P F) (a : Act P F) (pipe : Pipe.Sys P F) : Sys P F :=
  match a with
  | .opens _ _ false (some _) _ =>
    if s.pipe.dev.buffer = none then
      { s with pipe, block := some s.nalloc, nalloc := s.nalloc + 1 }
    else { s with pipe }
  | .release _ =>
    if pipe.dev.nreaders + pipe.dev.nwriters = 0 then
      { s with pipe, block := none, freed := s.freed ++ s.block.toList }
    else { s with pipe }
  | _ => { s with pipe }

variable [DecidableEq P] [DecidableEq F] [Fintype P]

def step (s : Sys P F) (a : Act P F) : Outcome (Sys P F) :=
  (Pipe.step s.pipe a).map (s.account a)

end Sys

/-! What a section under the semaphore does to the allocation. -/

theorem runSection_buffer {call : Call F} {dev dev' : ScullPipe} {fault : Option ℕ} {out : Transfer}
    (h : call.runSection dev fault = some (out, dev')) :
    dev'.buffer.isSome = dev.buffer.isSome := by
  cases Call.runSection_ends h with
  | writeFaults _ _ hmem => rw [hmem]; rfl
  | writeDone _ _ hmem => rw [hmem]; rfl
  | _ => rfl

theorem openBuffer_isSome {dev : ScullPipe} {size : Int32} {kmalloc : Option (ℕ → Byte)} :
    (dev.openBuffer size kmalloc).isSome ↔ dev.buffer.isSome ∨ kmalloc.isSome := by
  rw [ScullPipe.openBuffer]
  cases dev.buffer <;> simp

/-! The invariant. -/

variable [Fintype F]

structure Accounted (s : Sys P F) : Prop where
  counted : Counted s.pipe
  block_iff : s.block.isSome = s.pipe.dev.buffer.isSome
  balanced : Ledger.Balanced (fun _ => true) s.nalloc s.block.toList s.freed
  inUse : InUse s.pipe → s.pipe.dev.buffer.isSome
  opened : s.pipe.dev.buffer.isSome → ∃ f, s.pipe.files f ≠ none

namespace Accounted

theorem loaded (n : Int32) : Accounted (Sys.loaded n : Sys P F) := by
  refine ⟨Counted.loaded n, rfl, balanced_zero _, ?_, fun h => by cases h⟩
  rintro ⟨f, file, hf, -⟩
  cases hf

variable {s t : Sys P F} {a : Act P F}

/-- With no file open everything that has been allocated has been freed. -/
theorem closed (h : Accounted s) (hfiles : ∀ f, s.pipe.files f = none) :
    s.pipe.dev.buffer = none ∧ s.freed.Perm (List.range s.nalloc) := by
  have hnone : s.pipe.dev.buffer = none := by
    by_contra hsome
    obtain ⟨f, hf⟩ := h.opened (Option.isSome_iff_ne_none.mpr hsome)
    exact hf (hfiles f)
  have hblock : s.block = none := by
    rw [← Option.not_isSome_iff_eq_none, h.block_iff, hnone]
    simp
  have hbalanced := h.balanced
  rw [hblock, Ledger.Balanced, List.filter_true] at hbalanced
  exact ⟨hnone, hbalanced⟩

variable [DecidableEq F]

/-- The first open since the device was last given up allocates; the others find the buffer. -/
theorem opens (h : Accounted s) {f : F} {file : File} {kmalloc : Option (ℕ → Byte)}
    {meanwhile : List UInt32} {mem : List Byte} {pipe : Pipe.Sys P F} (hcounted : Counted pipe)
    (hb : s.pipe.dev.openBuffer s.pipe.scullPBuffer kmalloc = some mem)
    (hmem : pipe.dev.buffer = some mem)
    (hfiles : pipe.files = Function.update s.pipe.files f (some file)) :
    Accounted (s.account (.opens f file false kmalloc meanwhile) pipe) := by
  have hsome : pipe.dev.buffer.isSome := by rw [hmem]; rfl
  have hopen : ∃ g, pipe.files g ≠ none := ⟨f, by rw [hfiles, Function.update_self]; simp⟩
  cases hbuffer : s.pipe.dev.buffer with
  | none =>
    have hblock : s.block = none := by
      rw [← Option.not_isSome_iff_eq_none, h.block_iff, hbuffer]
      simp
    have hbalanced := h.balanced
    rw [hblock] at hbalanced
    rw [ScullPipe.openBuffer, hbuffer] at hb
    cases kmalloc with
    | none => cases hb
    | some contents =>
      simp only [Sys.account, hbuffer, if_true]
      exact ⟨hcounted, hsome.symm, hbalanced.gained rfl, fun _ => hsome, fun _ => hopen⟩
  | some old =>
    have hblock : s.block.isSome = pipe.dev.buffer.isSome := by
      rw [h.block_iff, hbuffer, hmem]
      rfl
    have hsame : s.account (.opens f file false kmalloc meanwhile) pipe = { s with pipe } := by
      cases kmalloc <;> simp [Sys.account, hbuffer]
    rw [hsame]
    exact ⟨hcounted, hblock, h.balanced, fun _ => hsome, fun _ => hopen⟩

/-- A release frees what is in `dev->buffer` unless a reader or a writer is left. -/
theorem releases (h : Accounted s) {f : F} {file : File} {pipe : Pipe.Sys P F}
    (hcounted : Counted pipe) (hdev : pipe.dev = s.pipe.dev.releaseSection file.read file.write)
    (hfiles : pipe.files = Function.update s.pipe.files f none) :
    Accounted (s.account (.release f) pipe) := by
  have hcount := hcounted.inUse_iff
  have hbuffer : pipe.dev.buffer =
      if pipe.dev.nreaders + pipe.dev.nwriters = 0 then none else s.pipe.dev.buffer := by
    rw [hdev]
    rfl
  rw [Sys.account]
  split_ifs with hzero
  · have hnone : pipe.dev.buffer = none := by rw [hbuffer, if_pos hzero]
    refine ⟨hcounted, by rw [hnone]; rfl, ?_, fun huse => ?_, fun hsome => ?_⟩
    · apply Ledger.Balanced.release
      rw [Option.toList_none, List.append_nil]
      exact h.balanced
    · exact absurd hzero (hcount.mp huse)
    · rw [hnone] at hsome
      cases hsome
  · have hsame : pipe.dev.buffer = s.pipe.dev.buffer := by rw [hbuffer, if_neg hzero]
    refine ⟨hcounted, by rw [hsame]; exact h.block_iff, h.balanced, fun huse => ?_, fun _ => ?_⟩
    · rw [hsame]
      exact h.inUse (inUse_of_released hfiles huse)
    · obtain ⟨g, file', hg, -⟩ := hcount.mpr hzero
      exact ⟨g, by rw [hg]; simp⟩

variable [DecidableEq P] [Fintype P]

theorem step (h : Accounted s) (hs : s.step a = .ok t) : Accounted t := by
  obtain ⟨pipe, hpipe, rfl⟩ := Outcome.map_eq_ok.mp hs
  have hcounted := h.counted.step hpipe
  cases step_move hpipe with
  | tell => exact ⟨hcounted, h.block_iff, h.balanced, h.inUse, h.opened⟩
  | openInterrupted => exact ⟨hcounted, h.block_iff, h.balanced, h.inUse, h.opened⟩
  | @openFails f file kmalloc meanwhile hf hb =>
    cases kmalloc with
    | none => exact ⟨hcounted, h.block_iff, h.balanced, h.inUse, h.opened⟩
    | some contents =>
      have hsome : (s.pipe.dev.openBuffer s.pipe.scullPBuffer (some contents)).isSome :=
        openBuffer_isSome.mpr (Or.inr rfl)
      rw [hb] at hsome
      cases hsome
  | opened hf hb => exact h.opens hcounted hb rfl rfl
  | released hf hcalls => exact h.releases hcounted rfl rfl
  | entered => exact ⟨hcounted, h.block_iff, h.balanced, h.inUse, h.opened⟩
  | @transferred p fault call out dev hp hrun =>
    have hbuffer := runSection_buffer hrun
    exact ⟨hcounted, h.block_iff.trans hbuffer.symm, h.balanced,
      fun huse => hbuffer.trans (h.inUse huse), fun hsome => h.opened (hbuffer.symm.trans hsome)⟩
  | gaveUp => exact ⟨hcounted, h.block_iff, h.balanced, h.inUse, h.opened⟩

end Accounted

/-- The counts are those of the open files, the buffer is there while they are not both zero, and the
allocation in `dev->buffer` and those freed are all that were made, each of them once. -/
structure FollowsFiles (s : Sys P F) : Prop where
  nreaders : s.pipe.dev.nreaders = num (Option.any File.read) s.pipe.files
  nwriters : s.pipe.dev.nwriters = num (Option.any File.write) s.pipe.files
  allocated : 0 < s.pipe.dev.nreaders + s.pipe.dev.nwriters → s.pipe.dev.buffer.isSome
  block_iff : s.block.isSome = s.pipe.dev.buffer.isSome
  once : (s.block.toList ++ s.freed).Perm (List.range s.nalloc)
  closed : (∀ f, s.pipe.files f = none) →
    s.pipe.dev.buffer = none ∧ s.freed.Perm (List.range s.nalloc)

theorem Accounted.followsFiles {s : Sys P F} (h : Accounted s) : FollowsFiles s := by
  have hbalanced := h.balanced
  rw [Ledger.Balanced, List.filter_true] at hbalanced
  refine ⟨h.counted.nreaders, h.counted.nwriters, fun hpos => ?_, h.block_iff, hbalanced, h.closed⟩
  exact h.inUse (h.counted.inUse_iff.mpr hpos.ne')

/-- In every run from loading the driver the buffer of the pipe follows its open files. -/
theorem followsFiles_run [DecidableEq P] [DecidableEq F] [Fintype P] (n : Int32)
    (as : List (Act P F)) : Always Sys.step FollowsFiles (Sys.loaded n) as := by
  have hall : Meets Sys.step (fun _ _ => True) (Sys.loaded n : Sys P F) as :=
    Meets.of_forall fun _ _ _ => trivial
  exact meets_always (fun _ _ _ h _ => h.step) (fun _ => Accounted.followsFiles)
    (Accounted.loaded n) hall

end KernelExperiment.Pipe.Lifetime
