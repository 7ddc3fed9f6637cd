import KernelExperiment.Pipe.Sessions

/-! The buffer size that the device goes by. Every open sets it from the global `scull_p_buffer`, so
it is the size of the allocation exactly as long as each open finds that value there. -/

namespace KernelExperiment.Pipe
open Kernel Runs Population

variable {P F : Type*}

/-- While the device is in use, its size and pointers fit the allocated buffer. -/
def InBounds (s : Sys P F) : Prop := InUse s → ∃ mem, s.dev.Intact mem

instance (dev : ScullPipe) : Decidable (∃ mem, dev.Intact mem) :=
  match h : dev.buffer with
  | none => isFalse fun ⟨mem, hmem⟩ => by cases h.symm.trans hmem.buffer
  | some mem =>
    decidable_of_iff (dev.buffersize.toInt = mem.length ∧ dev.bufferEnd = mem.length ∧
        dev.rp < mem.length ∧ dev.wp < mem.length) <| by
      refine ⟨fun ⟨hsize, hlast, hrp, hwp⟩ => ⟨mem, h, hsize, hlast, hrp, hwp⟩, ?_⟩
      rintro ⟨mem', hmem⟩
      cases h.symm.trans hmem.buffer
      exact ⟨hmem.size, hmem.last, hmem.rp_lt, hmem.wp_lt⟩

instance [Fintype F] (s : Sys P F) : Decidable (InBounds s) :=
  inferInstanceAs (Decidable (_ → _))

/-- An open after which the device is in use finds in `scull_p_buffer` a size of at least 1 that is
the size of the buffer it works with. -/
def SizeKept (s : Sys P F) : Act P F → Prop
  | .opens f file interrupted kmalloc meanwhile =>
    s.files f = none → interrupted = false → (InUse s ∨ file.read = true ∨ file.write = true) →
      ∀ mem ∈ s.dev.openBuffer s.scullPBuffer kmalloc,
        1 ≤ mem.length ∧ (told s.scullPBuffer meanwhile).toInt = mem.length
  | _ => True

variable [Fintype F] [DecidableEq F]

structure Bounded (s : Sys P F) : Prop where
  counted : Counted s
  inBounds : InBounds s

omit [DecidableEq F] in
theorem Bounded.loaded (n : Int32) : Bounded (loaded n : Sys P F) := by
  refine ⟨Counted.loaded n, ?_⟩
  rintro ⟨f, file, hf, -⟩
  cases hf

omit [Fintype F] [DecidableEq F] in
theorem inUse_of_permitted {s : Sys P F} {call : Call F}
    (h : (s.files call.file).any call.permitted = true) : InUse s := by
  obtain ⟨file, hf, hperm⟩ := (Option.any_eq_true _ _).mp h
  refine ⟨call.file, file, hf, ?_⟩
  cases call with
  | read => exact Or.inl hperm
  | write => exact Or.inr hperm

omit [Fintype F] in
theorem inUse_of_opened {s t : Sys P F} {f : F} {file : File}
    (ht : t.files = Function.update s.files f (some file)) (h : InUse t) :
    InUse s ∨ file.read = true ∨ file.write = true := by
  obtain ⟨g, file', hg, hmode⟩ := h
  rw [ht] at hg
  rcases eq_or_ne g f with rfl | hne
  · rw [Function.update_self, Option.mem_some_iff] at hg
    rw [hg]
    exact Or.inr hmode
  · rw [Function.update_of_ne hne] at hg
    exact Or.inl ⟨g, file', hg, hmode⟩

omit [Fintype F] in
theorem inUse_opened {s t : Sys P F} {f : F} {file : File} (hf : s.files f = none)
    (ht : t.files = Function.update s.files f (some file))
    (h : InUse s ∨ file.read = true ∨ file.write = true) : InUse t := by
  rcases h with ⟨g, file', hg, hmode⟩ | hmode
  · have hne : g ≠ f := by
      rintro rfl
      cases hf.symm.trans hg
    exact ⟨g, file', by rw [ht, Function.update_of_ne hne]; exact hg, hmode⟩
  · exact ⟨f, file, by rw [ht, Function.update_self]; rfl, hmode⟩

omit [Fintype F] in
theorem inUse_of_released {s t : Sys P F} {f : F} (ht : t.files = Function.update s.files f none)
    (h : InUse t) : InUse s := by
  obtain ⟨g, file, hg, hmode⟩ := h
  rw [ht] at hg
  rcases eq_or_ne g f with rfl | hne
  · simp at hg
  · rw [Function.update_of_ne hne] at hg
    exact ⟨g, file, hg, hmode⟩

variable [Fintype P] [DecidableEq P]

omit [DecidableEq F] [Fintype P] [DecidableEq P] in
theorem Bounded.runSection {s : Sys P F} (h : Bounded s) {p : P} {call : Call F}
    (hp : s.calls p = some call) (fault : Option ℕ) :
    ∃ out dev mem, call.runSection s.dev fault = some (out, dev) ∧ dev.Intact mem := by
  obtain ⟨mem, hmem⟩ := h.inBounds (inUse_of_permitted (h.counted.permitted p call hp))
  cases call with
  | read f count =>
    obtain ⟨out, dev, hrun, hdev, -⟩ := hmem.read count fault
    exact ⟨out, dev, mem, hrun, hdev⟩
  | write f buf =>
    obtain ⟨out, dev, mem', hrun, hdev, -⟩ := hmem.write buf fault
    exact ⟨out, dev, mem', hrun, hdev⟩

theorem Bounded.step_ne_fault {s : Sys P F} {a : Act P F} (h : Bounded s) : step s a ≠ .fault := by
  intro hfault
  obtain ⟨p, fault, call, -, hp, hrun⟩ := step_fault hfault
  obtain ⟨out, dev, mem, hrun', -⟩ := h.runSection hp fault
  cases hrun.symm.trans hrun'

theorem Bounded.step {s t : Sys P F} {a : Act P F} (h : Bounded s) (hg : SizeKept s a)
    (hs : step s a = .ok t) : Bounded t := by
  have ht := h.counted.step hs
  refine ⟨ht, fun huse => ?_⟩
  cases step_move hs with
  | tell => exact h.inBounds huse
  | openInterrupted => exact h.inBounds huse
  | openFails => exact h.inBounds huse
  | @opened f file kmalloc meanwhile mem hf hb =>
    obtain ⟨hpos, hsize⟩ := hg hf rfl (inUse_of_opened rfl huse) mem hb
    exact ⟨mem, rfl, hsize, hsize, hpos, hpos⟩
  | released hf hcalls =>
    obtain ⟨mem, hmem⟩ := h.inBounds (inUse_of_released rfl huse)
    have hcount := ht.inUse_iff.mp huse
    simp only [ScullPipe.releaseSection] at hcount
    refine ⟨mem, ?_, hmem.size, hmem.last, hmem.rp_lt, hmem.wp_lt⟩
    simp only [ScullPipe.releaseSection, if_neg hcount, hmem.buffer]
  | entered => exact h.inBounds huse
  | @transferred p fault call out dev hp hrun =>
    obtain ⟨out', dev', mem, hrun', hmem⟩ := h.runSection hp fault
    rw [hrun, Option.some.injEq, Prod.mk.injEq] at hrun'
    rw [← hrun'.2] at hmem
    exact ⟨mem, hmem⟩
  | gaveUp => exact h.inBounds huse

omit [Fintype F] in
theorem sizeKept_of_inBounds {s t : Sys P F} {a : Act P F} (hs : step s a = .ok t)
    (ht : InBounds t) : SizeKept s a := by
  cases step_move hs with
  | openInterrupted =>
    intro _ hi
    cases hi
  | openFails hf hb =>
    intro _ _ _ mem hmem
    cases hb.symm.trans hmem
  | @opened f file kmalloc meanwhile mem hf hb =>
    intro _ _ huse mem' hmem'
    cases hb.symm.trans hmem'
    obtain ⟨mem', hmem⟩ := ht (inUse_opened hf rfl huse)
    cases hmem.buffer
    exact ⟨hmem.rp_lt, hmem.size⟩
  | _ => trivial

omit [Fintype F] in
theorem sizeKept_of_blocked {s : Sys P F} {a : Act P F} (hs : step s a = .blocked) :
    SizeKept s a := by
  cases a with
  | opens f file interrupted kmalloc meanwhile =>
    intro hf hi
    simp only [step, hf, hi, ne_eq, not_true_eq_false, if_false, Bool.false_eq_true] at hs
    split at hs <;> cases hs
  | _ => trivial

/-- In every run from loading the driver, no copy leaves the allocation and the device in use always
fits its buffer exactly when every open keeps the size. -/
theorem inBounds_iff_sizeKept (n : Int32) (as : List (Act P F)) :
    (exec step (loaded n : Sys P F) as ≠ .fault ∧ Always step InBounds (loaded n) as) ↔
      Meets step SizeKept (loaded n) as :=
  safe_always_iff_meets (fun _ _ _ => Bounded.step) (fun _ _ h _ => h.step_ne_fault)
    (fun _ _ => sizeKept_of_blocked) (fun _ _ _ _ => sizeKept_of_inBounds)
    (fun _ => Bounded.inBounds) (Bounded.loaded n)

def raisedSize : List (Act Bool Bool) :=
  [.opens false ⟨true, false, false⟩ false (some fun _ => 0) [], .ioctlTsize 8,
    .opens true ⟨false, true, false⟩ false none []]

theorem size_exceeds_buffer :
    ¬ ∀ as : List (Act Bool Bool),
      exec step (loaded 4) as ≠ .fault ∧ Always step InBounds (loaded 4) as := by
  intro h
  have hrun : (exec step (loaded 4) raisedSize).map (fun s => decide (InBounds s)) = .ok false := by
    decide
  obtain ⟨s, hs, hbounds⟩ := Outcome.map_eq_ok.mp hrun
  exact of_decide_eq_false hbounds ((h raisedSize).2.last hs)

end KernelExperiment.Pipe
