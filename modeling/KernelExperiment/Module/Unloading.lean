import KernelExperiment.Module.Cycle

/-! What the module leaves behind when it is not loaded: the numbers are those of the other drivers
again, and all memory of the devices that any load has set up has been freed. -/

namespace KernelExperiment.Module
open Kernel Runs Scull

variable {P F β : Type*}

/-- The step neither loads nor unloads the module. -/
def Act.uses : Act P F β → Bool
  | load .. | proceed .. | unload => false
  | _ => true

namespace Sys

variable {p : Params} {κ : ℕ → ℕ → Kmalloc β} {c₀ : Chrdevs Dev} {s t : Sys P F β}
  {os : List (ℕ × Dev)}

/-- What former loads have left. -/
def left (s : Sys P F β) : List (ℕ × Dev) :=
  s.oldDevices.map (fun e => (e.1, Dev.bare e.2.1)) ++
    s.oldPipes.map fun e => (e.1, Dev.pipe e.2.1)

def pipes (s : Sys P F β) (k : ℕ) : List (ℕ × Dev) :=
  (List.range k).map fun i => (s.loads, .pipe i)

/-- The module is loaded as before, whatever its devices are used for. -/
structure SameLoad (s t : Sys P F β) : Prop where
  pc : t.pc = s.pc
  loads : t.loads = s.loads
  pipes : t.scullPDevices.isSome = s.scullPDevices.isSome
  oldDevices : t.oldDevices = s.oldDevices
  oldPipes : t.oldPipes = s.oldPipes

theorem SameLoad.left (h : SameLoad s t) : t.left = s.left := by
  rw [Sys.left, Sys.left, h.oldDevices, h.oldPipes]

section
variable [DecidableEq P] [DecidableEq F] [Fintype P] [OfNat β 0] {i : ℕ}

omit [DecidableEq P] [DecidableEq F] [Fintype P] [OfNat β 0] in
theorem SameLoad.opened (h : SameLoad s t) (dev : Dev) (f : F) (succeeds : Bool) :
    SameLoad s (t.opened dev f succeeds) := by
  cases succeeds
  · exact h
  · exact ⟨h.pc, h.loads, h.pipes, h.oldDevices, h.oldPipes⟩

variable [Fintype F] {as : List (Act P F β)}

end

end Sys

end KernelExperiment.Module
