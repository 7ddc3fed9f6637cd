import KernelExperiment.Kernel.Abi
import KernelExperiment.Lib.Population
import KernelExperiment.Lib.Runs

/-! The device that can be open once. An open takes one off `scull_s_available` and looks whether that
has left zero; if not, it puts it back in a step of its own. -/

namespace KernelExperiment.Access.Single
open Kernel Population Runs

inductive Pc where
  | outside (returned : Option (Except Errno Unit))
  | atomicInc
  deriving DecidableEq

/-- Between the decrement that has failed and the increment that takes it back. -/
def Pc.undoing : Pc → Bool
  | outside _ => false
  | atomicInc => true

/-- `available` is an `int`, and there are fewer processes than one can count. -/
structure Sys (P : Type*) where
  available : Int
  files : ℕ
  pc : P → Pc

inductive Act (P : Type*) where
  | opens (p : P)
  | proceed (p : P)
  | release

/-- The new value, and whether it is zero. -/
def atomicDecAndTest (available : Int) : Int × Bool := (available - 1, available - 1 = 0)

namespace Sys

variable {P : Type*}

def initial : Sys P := { available := 1, files := 0, pc := fun _ => .outside none }

variable [DecidableEq P]

def goto (s : Sys P) (p : P) (c : Pc) : Sys P := { s with pc := Function.update s.pc p c }

def step (s : Sys P) : Act P → Outcome (Sys P)
  | .opens p =>
    match s.pc p with
    | .outside _ =>
      match atomicDecAndTest s.available with
      | (available, true) =>
        .ok ({ s with available, files := s.files + 1 }.goto p (.outside (some (.ok ()))))
      | (available, false) => .ok ({ s with available }.goto p .atomicInc)
    | .atomicInc => .blocked
  | .proceed p =>
    match s.pc p with
    | .outside _ => .blocked
    | .atomicInc =>
      .ok ({ s with available := s.available + 1 }.goto p (.outside (some (.error .ebusy))))
  | .release =>
    match s.files with
    | 0 => .blocked
    | files + 1 => .ok { s with available := s.available + 1, files }

end Sys

/-! The one unit is available, with an open file, or out on loan to an open that will fail. -/

variable {P : Type*} [Fintype P]

/-- What a step does to the unit. -/
inductive Flow (s t : Sys P) : Prop
  | takes (h : s.available = 1) (ha : t.available = 0) (hf : t.files = s.files + 1)
      (hu : num Pc.undoing t.pc = num Pc.undoing s.pc)
  | borrows (ha : t.available = s.available - 1) (hf : t.files = s.files)
      (hu : num Pc.undoing t.pc = num Pc.undoing s.pc + 1)
  | undoes (ha : t.available = s.available + 1) (hf : t.files = s.files)
      (hu : num Pc.undoing t.pc + 1 = num Pc.undoing s.pc)
  | returns (ha : t.available = s.available + 1) (hf : t.files + 1 = s.files)
      (hu : num Pc.undoing t.pc = num Pc.undoing s.pc)

structure Balanced (s : Sys P) : Prop where
  files_le : s.files ≤ 1
  available_eq : s.available = 1 - s.files - num Pc.undoing s.pc

theorem balanced_initial : Balanced (Sys.initial : Sys P) where
  files_le := Nat.zero_le 1
  available_eq := by
    have h : num Pc.undoing (Sys.initial : Sys P).pc = 0 := num_eq_zero.mpr fun _ => rfl
    rw [h]
    rfl

theorem Balanced.flow {s t : Sys P} (h : Balanced s) (hf : Flow s t) : Balanced t := by
  obtain ⟨hle, heq⟩ := h
  cases hf with
  | takes hone ha hfiles hu =>
    -- a unit at hand means that there is no open file and no loan
    refine ⟨?_, ?_⟩
    · omega
    · rw [ha, hfiles, hu]
      push_cast
      omega
  | borrows ha hfiles hu => exact ⟨by omega, by rw [ha, hfiles, hu]; push_cast; omega⟩
  | undoes ha hfiles hu => exact ⟨by omega, by omega⟩
  | returns ha hfiles hu => exact ⟨by omega, by omega⟩

variable [DecidableEq P] {s t : Sys P} {a : Act P}

theorem num_goto (s : Sys P) (p : P) (c : Pc) :
    num Pc.undoing (s.goto p c).pc + (s.pc p).undoing.toNat =
      num Pc.undoing s.pc + c.undoing.toNat := num_update ..

theorem step_flow (h : s.step a = .ok t) : Flow s t := by
  cases a with
  | opens p =>
    have hmove := num_goto s p
    rw [Sys.step] at h
    split at h
    case h_1 r hp =>
      rw [hp] at hmove
      unfold atomicDecAndTest at h
      split at h
      case h_1 available heq =>
        obtain ⟨rfl, htest⟩ := Prod.mk.inj heq
        have hzero : s.available - 1 = 0 := of_decide_eq_true htest
        cases h
        exact .takes (by omega) hzero rfl (hmove (.outside _))
      case h_2 available heq =>
        obtain ⟨rfl, -⟩ := Prod.mk.inj heq
        cases h
        exact .borrows rfl rfl (hmove .atomicInc)
    case h_2 => cases h
  | proceed p =>
    have hmove := num_goto s p
    rw [Sys.step] at h
    split at h
    case h_1 => cases h
    case h_2 hp =>
      rw [hp] at hmove
      cases h
      exact .undoes rfl rfl (hmove (.outside _))
  | release =>
    rw [Sys.step] at h
    split at h
    case h_1 => cases h
    case h_2 files hfiles =>
      cases h
      exact .returns rfl hfiles.symm rfl

theorem balanced_of_exec {acts : List (Act P)} (he : exec Sys.step Sys.initial acts = .ok s) :
    Balanced s :=
  exec_invariant (I := Balanced) (fun _ _ _ h hs => h.flow (step_flow hs)) balanced_initial he

/-- The device is open at most once, and available again as soon as nothing is in progress and no file
is open. -/
theorem open_once {acts : List (Act P)} (he : exec Sys.step Sys.initial acts = .ok s) :
    s.files ≤ 1 ∧ s.available = 1 - s.files - num Pc.undoing s.pc ∧
      ((∀ p, s.pc p ≠ .atomicInc) → s.files = 0 → s.available = 1) := by
  obtain ⟨hle, heq⟩ := balanced_of_exec he
  refine ⟨hle, heq, fun hidle hclosed => ?_⟩
  have hnone : num Pc.undoing s.pc = 0 := by
    apply num_eq_zero.mpr
    intro p
    cases hp : s.pc p with
    | outside => rfl
    | atomicInc => exact absurd hp (hidle p)
  rw [heq, hclosed, hnone]
  rfl

/-- A second open fails, and its decrement is taken back behind the release of the first. -/
def overlapRun : List (Act Bool) :=
  [.opens true, .opens false, .release, .proceed false]

theorem open_once_overlapRun : ∃ s, exec Sys.step Sys.initial overlapRun = .ok s ∧
    s.files ≤ 1 ∧ s.available = 1 := by
  have he : exec Sys.step Sys.initial overlapRun = .ok _ := rfl
  exact ⟨_, he, (open_once he).1, rfl⟩

end KernelExperiment.Access.Single
