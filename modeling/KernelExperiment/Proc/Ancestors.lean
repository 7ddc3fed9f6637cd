import KernelExperiment.Lib.Chase
import KernelExperiment.Proc.Value
import Mathlib.Data.Fin.VecNotation
import Mathlib.Data.Fintype.Basic
import Mathlib.Logic.Function.Iterate

/-! The tasks of the system, and the loop from the current task to its ancestors that the modules with
the task list share. It looks for pid 1, which is not an ancestor of every task. -/

namespace KernelExperiment.Proc
open Kernel Runs

/-- `comm` of a task: up to 15 bytes in front of the NUL. -/
structure Comm where
  text : List Byte
  length_le : text.length ≤ 15
  ne_nul : ∀ b ∈ text, b ≠ 0

structure Tasks (T : Type*) where
  pid : T → Int
  comm : T → Comm
  parent : T → T

/-- From every task the parents lead to the idle task, which is its own parent. -/
structure Tree (T : Type*) extends Tasks T where
  idle : T
  pid_idle : pid idle = 0
  parent_idle : parent idle = idle
  ends : ∀ t, ∃ k, parent^[k] t = idle

namespace Tasks

variable {T A : Type*}

/-- `while (task->pid != 1)`, in at most `n` passes. -/
def climb (tb : Tasks T) (visit : T → A → Outcome A) (n : ℕ) (task : T) (a : A) : Outcome (T × A) :=
  chase (fun t => tb.pid t = 1) tb.parent visit n task a

/-- The loop reaches pid 1 and stops. -/
def Stops (tb : Tasks T) (current : T) : Prop :=
  ∃ n t, tb.climb (fun _ => .ok) n current () = .ok (t, ()) ∧ tb.pid t = 1

/-- The task of pid 1, and whatever it has started. -/
inductive FromInit (tb : Tasks T) : T → Prop
  | init {t} (h : tb.pid t = 1) : FromInit tb t
  | child {t} (h : FromInit tb (tb.parent t)) : FromInit tb t

/-- The ancestors of a task up to pid 1. -/
def Ancestors (tb : Tasks T) : T → List T → Prop := Path (fun t => tb.pid t = 1) tb.parent

variable {tb : Tasks T} {current t : T} {ts : List T}

theorem Ancestors.fromInit (h : tb.Ancestors t ts) : tb.FromInit t := by
  induction h with
  | here h => exact .init h
  | there h hl ih => exact .child ih

theorem FromInit.exists_ancestors (h : tb.FromInit t) : ∃ ts, tb.Ancestors t ts := by
  induction h with
  | init h => exact ⟨[], .here h⟩
  | @child t h ih =>
    obtain ⟨ts, hts⟩ := ih
    by_cases ht : tb.pid t = 1
    · exact ⟨[], .here ht⟩
    · exact ⟨_, .there ht hts⟩

/-- The loop stops for the tasks that come from pid 1, and for no others. -/
theorem stops_iff (tb : Tasks T) (current : T) : tb.Stops current ↔ tb.FromInit current := by
  constructor
  · rintro ⟨n, t, hclimb, -⟩
    obtain ⟨ts, hts⟩ := (path_of_chase hclimb).2
    exact Ancestors.fromInit hts
  · intro h
    have hvisit : ∀ (s : T) (a : Unit), ∃ b, Outcome.ok a = .ok b := fun _ a => ⟨a, rfl⟩
    obtain ⟨n, t, b, hclimb⟩ := (chase_ends_iff (a := ()) hvisit).mpr h.exists_ancestors
    exact ⟨n, t, hclimb, (path_of_chase hclimb).1⟩

end Tasks

namespace Tree

variable {T : Type*} {tr : Tree T} {t kthreadd : T}

theorem iterate_idle (tr : Tree T) (k : ℕ) : tr.parent^[k] tr.idle = tr.idle :=
  Function.iterate_fixed tr.parent_idle k

theorem not_fromInit_idle (tr : Tree T) : ¬tr.FromInit tr.idle := by
  intro h
  generalize ht : tr.idle = t at h
  induction h with
  | init h =>
    rw [← ht, tr.pid_idle] at h
    cases h
  | child h ih => exact ih (by rw [← ht, tr.parent_idle])

/-- Below another child of the idle task nothing comes from pid 1. -/
theorem not_fromInit_of_kthreadd {k : ℕ} (hpid : ∀ u, tr.pid u = 1 → tr.parent u = tr.idle)
    (hparent : tr.parent kthreadd = tr.idle) (hk : tr.pid kthreadd ≠ 1) (hidle : kthreadd ≠ tr.idle)
    (ht : tr.parent^[k] t = kthreadd) : ¬tr.FromInit t := by
  intro h
  induction h generalizing k with
  | @init t h =>
    cases k with
    | zero => exact hk (ht ▸ h)
    | succ k =>
      rw [Function.iterate_succ_apply, hpid t h, iterate_idle] at ht
      exact hidle ht.symm
  | @child t h ih =>
    cases k with
    | zero =>
      rw [Function.iterate_zero, id] at ht
      rw [ht, hparent] at h
      exact tr.not_fromInit_idle h
    | succ k => exact ih ht

theorem fromInit_of_ancestor {k : ℕ} (ht : tr.pid (tr.parent^[k] t) = 1) : tr.FromInit t := by
  induction k generalizing t with
  | zero => exact .init ht
  | succ k ih => exact .child (ih ht)

/-- Whatever is not the idle task is below a child of it. -/
theorem exists_top (tr : Tree T) (ht : t ≠ tr.idle) :
    ∃ k, tr.parent^[k] t ≠ tr.idle ∧ tr.parent (tr.parent^[k] t) = tr.idle := by
  classical
  have hpos : Nat.find (tr.ends t) ≠ 0 := by
    intro hzero
    have hspec := Nat.find_spec (tr.ends t)
    rw [hzero] at hspec
    exact ht hspec
  obtain ⟨k, hk⟩ := Nat.exists_eq_succ_of_ne_zero hpos
  have hspec := Nat.find_spec (tr.ends t)
  rw [hk, Function.iterate_succ_apply'] at hspec
  exact ⟨k, Nat.find_min (tr.ends t) (by omega), hspec⟩

/-- Where pid 1 is a child of the idle task, the loop stops for a task exactly when the child of the
idle task that it is below is pid 1. -/
theorem stops_iff_top (tr : Tree T) (hpid : ∀ u, tr.pid u = 1 → tr.parent u = tr.idle)
    (ht : t ≠ tr.idle) : ∃ k, tr.parent^[k] t ≠ tr.idle ∧ tr.parent (tr.parent^[k] t) = tr.idle ∧
      (tr.Stops t ↔ tr.pid (tr.parent^[k] t) = 1) := by
  obtain ⟨k, hidle, hparent⟩ := tr.exists_top ht
  refine ⟨k, hidle, hparent, ?_⟩
  rw [Tasks.stops_iff]
  constructor
  · intro hfrom
    by_contra hk
    exact not_fromInit_of_kthreadd hpid hparent hk hidle rfl hfrom
  · exact fromInit_of_ancestor

/-- In a process tree the loop of `proc_read` stops exactly for what comes from pid 1. -/
theorem stops_iff_fromInit (tr : Tree T) (current : T) :
    tr.Stops current ↔ tr.FromInit current := tr.toTasks.stops_iff current

/-- The idle task, pid 1 and pid 2 and a helper that pid 2 has started. -/
def helperTree : Tree (Fin 4) where
  pid t := t.val
  comm _ := { text := [], length_le := by decide, ne_nul := nofun }
  parent := ![0, 0, 0, 2]
  idle := 0
  pid_idle := rfl
  parent_idle := rfl
  ends t := ⟨2, by revert t; decide⟩

/-- A helper of the kernel that reads the file never comes out of the loop. -/
theorem helper_loops : ¬helperTree.Stops 3 := by
  rw [Tasks.stops_iff]
  have hpid : ∀ u, helperTree.pid u = 1 → helperTree.parent u = helperTree.idle := by decide
  have hparent : helperTree.parent 2 = helperTree.idle := rfl
  exact not_fromInit_of_kthreadd (k := 1) hpid hparent (by decide) (by decide) rfl

end Tree
end KernelExperiment.Proc
