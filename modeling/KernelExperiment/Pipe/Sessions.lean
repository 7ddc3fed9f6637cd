import KernelExperiment.Pipe.System

/-! Opening and releasing files of a pipe that is in use. The counts of readers and writers follow
the open files, so a release that leaves one of them keeps the buffer. An open puts both pointers
back to the start of the buffer, whatever is queued. -/

namespace KernelExperiment.Pipe
open Kernel Runs Population

variable {P F : Type*}

def InUse (s : Sys P F) : Prop := ∃ f, ∃ file ∈ s.files f, file.read = true ∨ file.write = true

instance [Fintype F] (s : Sys P F) : Decidable (InUse s) :=
  inferInstanceAs (Decidable (∃ f, ∃ file ∈ s.files f, _))

def Permitted (files : F → Option File) (calls : P → Option (Call F)) : Prop :=
  ∀ p, ∀ call ∈ calls p, (files call.file).any call.permitted = true

namespace Permitted

variable {files : F → Option File} {calls : P → Option (Call F)} {f : F} {p : P} {call : Call F}

theorem openFile [DecidableEq F] (h : Permitted files calls) (hf : files f = none) (file : File) :
    Permitted (Function.update files f (some file)) calls := by
  intro p call hc
  have hcall := h p call hc
  have hne : call.file ≠ f := by
    intro he
    simp [he, hf] at hcall
  rwa [Function.update_of_ne hne]

theorem releaseFile [DecidableEq F] (h : Permitted files calls)
    (hcalls : ∀ p, ∀ call ∈ calls p, call.file ≠ f) :
    Permitted (Function.update files f none) calls := by
  intro p call hc
  rw [Function.update_of_ne (hcalls p call hc)]
  exact h p call hc

theorem enter [DecidableEq P] (h : Permitted files calls)
    (hf : (files call.file).any call.permitted = true) :
    Permitted files (Function.update calls p (some call)) := by
  apply (Function.forall_update_iff calls fun _ o => ∀ c ∈ o,
    (files c.file).any c.permitted = true).mpr
  refine ⟨fun c hc => ?_, fun q _ => h q⟩
  rw [Option.mem_some_iff] at hc
  rwa [← hc]

theorem leave [DecidableEq P] (h : Permitted files calls) :
    Permitted files (Function.update calls p none) := by
  apply (Function.forall_update_iff calls fun _ o => ∀ c ∈ o,
    (files c.file).any c.permitted = true).mpr
  refine ⟨fun c hc => ?_, fun q _ => h q⟩
  cases hc

end Permitted

/-- `dev->nreaders` and `dev->nwriters` count the open files. -/
structure Counted [Fintype F] (s : Sys P F) : Prop where
  nreaders : s.dev.nreaders = num (Option.any File.read) s.files
  nwriters : s.dev.nwriters = num (Option.any File.write) s.files
  permitted : Permitted s.files s.calls

theorem runSection_counts {call : Call F} {dev dev' : ScullPipe} {fault : Option ℕ} {out : Transfer}
    (h : call.runSection dev fault = some (out, dev')) :
    dev'.nreaders = dev.nreaders ∧ dev'.nwriters = dev.nwriters := by
  cases Call.runSection_ends h <;> exact ⟨rfl, rfl⟩

section
variable [Fintype F] [DecidableEq F]

theorem num_open {files : F → Option File} {f : F} (hf : files f = none) (mode : File → Bool)
    (file : File) :
    (num (Option.any mode) (Function.update files f (some file)) : Int) =
      num (Option.any mode) files + (mode file).toInt := by
  have hnum := num_update (Option.any mode) files f (some file)
  rw [hf, Option.any_none, Option.any_some] at hnum
  have hbool : (mode file).toInt = (mode file).toNat := by cases mode file <;> rfl
  rw [hbool]
  exact_mod_cast hnum

theorem num_release {files : F → Option File} {f : F} {file : File} (hf : files f = some file)
    (mode : File → Bool) :
    (num (Option.any mode) (Function.update files f none) : Int) =
      num (Option.any mode) files - (mode file).toInt := by
  have hnum := num_update (Option.any mode) files f none
  rw [hf, Option.any_none, Option.any_some] at hnum
  have hbool : (mode file).toInt = (mode file).toNat := by cases mode file <;> rfl
  rw [hbool, eq_sub_iff_add_eq]
  exact_mod_cast hnum

omit [DecidableEq F] in
theorem Counted.loaded (n : Int32) : Counted (loaded n : Sys P F) := by
  have hnone : ∀ mode, num (Option.any mode) (Pipe.loaded n : Sys P F).files = 0 :=
    fun mode => num_eq_zero.mpr fun _ => rfl
  refine ⟨by rw [hnone]; rfl, by rw [hnone]; rfl, fun p call hc => ?_⟩
  cases hc

omit [DecidableEq F] in
/-- The driver's test on release: the device is in use while its counts do not add up to zero. -/
theorem Counted.inUse_iff {s : Sys P F} (h : Counted s) :
    InUse s ↔ s.dev.nreaders + s.dev.nwriters ≠ 0 := by
  have hsome : InUse s ↔ (0 < num (Option.any File.read) s.files) ∨
      0 < num (Option.any File.write) s.files := by
    rw [num_pos, num_pos, ← exists_or]
    apply exists_congr
    intro f
    cases s.files f <;> simp
  rw [hsome, h.nreaders, h.nwriters]
  omega

variable [Fintype P] [DecidableEq P]

theorem Counted.step {s t : Sys P F} {a : Act P F} (h : Counted s) (hs : step s a = .ok t) :
    Counted t := by
  cases step_move hs with
  | tell => exact ⟨h.nreaders, h.nwriters, h.permitted⟩
  | openInterrupted => exact h
  | openFails => exact ⟨h.nreaders, h.nwriters, h.permitted⟩
  | @opened f file _ _ _ hf =>
    refine ⟨?_, ?_, h.permitted.openFile hf file⟩
    · rw [num_open hf, h.nreaders]
    · rw [num_open hf, h.nwriters]
  | @released f file hf hcalls =>
    refine ⟨?_, ?_, h.permitted.releaseFile hcalls⟩
    · rw [num_release hf, ← h.nreaders]
      rfl
    · rw [num_release hf, ← h.nwriters]
      rfl
  | entered hp hf => exact ⟨h.nreaders, h.nwriters, h.permitted.enter hf⟩
  | @transferred p fault call out dev hp hrun =>
    obtain ⟨hr, hw⟩ := runSection_counts hrun
    refine ⟨hr.trans h.nreaders, hw.trans h.nwriters, ?_⟩
    simp only [Sys.finish]
    split_ifs
    · exact h.permitted
    · exact h.permitted.leave
  | gaveUp hp => exact ⟨h.nreaders, h.nwriters, h.permitted.leave⟩

/-- The step opens or releases a file of a device that another file keeps in use: an open while some
file is open, or a release after which the device is in use. -/
def Shared (s : Sys P F) (a : Act P F) (t : Sys P F) : Prop :=
  match a with
  | .opens .. => ∃ g, s.files g ≠ none
  | .release _ => InUse t
  | .ioctlTsize _ | .enter .. | .transfer .. | .interrupted _ => False

instance (s : Sys P F) (a : Act P F) (t : Sys P F) : Decidable (Shared s a t) := by
  cases a <;> unfold Shared <;> infer_instance

def Undisturbed (s : Sys P F) (a : Act P F) (t : Sys P F) : Prop :=
  Shared s a t → t.dev.queue = s.dev.queue

instance (s : Sys P F) (a : Act P F) (t : Sys P F) : Decidable (Undisturbed s a t) :=
  inferInstanceAs (Decidable (_ → _))

/-- An open taken while some file is open is interrupted or finds nothing queued. -/
def Quiet (s : Sys P F) : Act P F → Prop
  | .opens f _ interrupted .. =>
    s.files f = none → (∃ g, s.files g ≠ none) → interrupted = true ∨ s.dev.queue = []
  | _ => True

omit [Fintype F] in
theorem step_opens_queue {s : Sys P F} {f : F} (hf : s.files f = none) (file : File)
    {kmalloc : Option (ℕ → Byte)} (meanwhile : List UInt32) {mem : List Byte}
    (hb : s.dev.openBuffer s.scullPBuffer kmalloc = some mem) :
    ∃ t, step s (.opens f file false kmalloc meanwhile) = .ok t ∧ t.dev.queue = [] := by
  obtain ⟨t, ht⟩ : ∃ t, step s (.opens f file false kmalloc meanwhile) = .ok t := by
    simp [step, hf, ScullPipe.openSection, hb]
  refine ⟨t, ht, ?_⟩
  cases step_move ht with
  | openFails hf' hb' =>
    rw [hb] at hb'
    cases hb'
  | opened => exact Ring.content_self

theorem undisturbed_of_quiet {s : Sys P F} (h : Counted s) {a : Act P F} (hq : Quiet s a) :
    Ensures step Undisturbed s a := by
  intro t hs hshared
  have ht := h.step hs
  cases step_move hs with
  | tell => exact hshared.elim
  | openInterrupted => rfl
  | openFails => rfl
  | opened hf hb =>
    rcases hq hf hshared with hi | hempty
    · cases hi
    · rw [hempty]
      exact Ring.content_self
  | @released f file hf hcalls =>
    have hcount := ht.inUse_iff.mp hshared
    simp only [ScullPipe.releaseSection] at hcount
    simp only [ScullPipe.queue, ScullPipe.releaseSection, if_neg hcount]
  | entered => exact hshared.elim
  | transferred => exact hshared.elim
  | gaveUp => exact hshared.elim

omit [Fintype F] in
theorem quiet_of_undisturbed {s : Sys P F} {a : Act P F} (hu : Ensures step Undisturbed s a) :
    Quiet s a := by
  cases a with
  | opens f file interrupted kmalloc meanwhile =>
    intro hf hopen
    rcases eq_or_ne interrupted true with hi | hi
    · exact Or.inl hi
    · right
      cases hmem : s.dev.buffer with
      | none => simp only [ScullPipe.queue, hmem]
      | some mem =>
        have hb : s.dev.openBuffer s.scullPBuffer kmalloc = some mem := by
          simp only [ScullPipe.openBuffer, hmem]
        obtain ⟨t, hs, hqueue⟩ := step_opens_queue hf file meanwhile hb
        rw [← Bool.eq_false_iff.mpr hi] at hs
        rw [← hu t hs hopen, hqueue]
  | _ => trivial

/-- In every run from loading the driver, shared opens and releases keep the queued bytes exactly
when no byte is queued at any shared open that gets the semaphore. -/
theorem undisturbed_iff_quiet (n : Int32) (as : List (Act P F)) :
    Meets step (Ensures step Undisturbed) (loaded n : Sys P F) as ↔
      Meets step Quiet (loaded n) as :=
  meets_congr (fun _ _ _ => Counted.step)
    (fun _ _ h => ⟨quiet_of_undisturbed, undisturbed_of_quiet h⟩) (Counted.loaded n)

end

def lateReader : List (Act Bool Bool) :=
  [.opens true ⟨false, true, false⟩ false (some fun _ => 0) [], .enter true (.write true [65]),
    .transfer true none, .opens false ⟨true, false, false⟩ false none []]

theorem open_drops_queued :
    ¬ ∀ as : List (Act Bool Bool), Meets step (Ensures step Undisturbed) (loaded 4) as := by
  intro h
  have hlate : ¬Meets step (Ensures step Undisturbed) (loaded 4) lateReader := by decide
  exact hlate (h lateReader)

end KernelExperiment.Pipe
