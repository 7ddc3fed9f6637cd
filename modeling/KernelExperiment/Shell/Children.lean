import KernelExperiment.Shell.Calls
import KernelExperiment.Lib.Runs

/-! The children of the shell. `wait` takes any child that has exited, whatever line it was forked
for; a line without `&` calls it as many times as it forks. -/

namespace KernelExperiment.Shell.Children
open Runs

/-- A child goes by the number of the line it was forked for. -/
structure Sys where
  line : ℕ
  isbkg : Bool
  todo : List Call
  ending : Ending
  running : List ℕ
  zombies : List ℕ
  deriving DecidableEq

/-- What comes next: a line at the prompt, the exit of a child, or the next call of the line. A
`wait` without a child is one that finds none at all. -/
inductive Act where
  | line (input : List Char)
  | exits (child : ℕ)
  | fork (ok : Bool)
  | wait (child : Option ℕ)
  | descriptor

namespace Sys

def start : Sys :=
  { line := 0, isbkg := false, todo := [], ending := .prompt, running := [], zombies := [] }

def step (s : Sys) : Act → Outcome Sys
  | .line input =>
    if s.todo = [] ∧ s.ending = .prompt then
      match runLine input with
      | none => .ok { s with line := s.line + 1, isbkg := false }
      | some line => .ok { s with
          line := s.line + 1, isbkg := line.isbkg, todo := line.calls, ending := line.ending }
    else .blocked
  | .exits child =>
    if child ∈ s.running then
      .ok { s with running := s.running.erase child, zombies := child :: s.zombies }
    else .blocked
  | .fork ok =>
    match s.todo with
    | .fork :: todo => .ok { s with todo, running := if ok then s.line :: s.running else s.running }
    | _ => .blocked
  | .wait (some child) =>
    match s.todo with
    | .wait :: todo =>
      if child ∈ s.zombies then .ok { s with todo, zombies := s.zombies.erase child } else .blocked
    | _ => .blocked
  | .wait none =>
    match s.todo with
    | .wait :: todo => if s.running = [] ∧ s.zombies = [] then .ok { s with todo } else .blocked
    | _ => .blocked
  | .descriptor =>
    match s.todo with
    | .pipe :: todo => .ok { s with todo }
    | .close _ :: todo => .ok { s with todo }
    | _ => .blocked

/-- At the prompt behind a line without `&` no child of that line is running. -/
def WaitedFor (s : Sys) : Prop :=
  s.todo = [] → s.ending = .prompt → s.isbkg = false → s.line ∉ s.running

instance (s : Sys) : Decidable s.WaitedFor :=
  inferInstanceAs (Decidable (_ → _ → _ → _))

/-- The children of the line that are not reaped. -/
def unreaped (s : Sys) : ℕ := s.running.count s.line + s.zombies.count s.line

/-- A `wait` reaps a child of the line, if no failed `fork` has left one to spare. -/
def ReapsOwn (s : Sys) : Act → Prop
  | .wait (some child) =>
    child = s.line ∨ s.unreaped + s.todo.count .fork < s.todo.count .wait
  | _ => True

instance (s : Sys) (a : Act) : Decidable (s.ReapsOwn a) :=
  match a with
  | .wait (some _) => inferInstanceAs (Decidable (_ ∨ _))
  | .wait none | .line _ | .exits _ | .fork _ | .descriptor => inferInstanceAs (Decidable True)

end Sys

/-- From every point on there is a `wait` for each `fork`. -/
def Balanced : List Call → Prop
  | [] => True
  | call :: calls =>
    (call :: calls).count .fork ≤ (call :: calls).count .wait ∧ Balanced calls

theorem Balanced.count_le {calls : List Call} (h : Balanced calls) :
    calls.count .fork ≤ calls.count .wait := by
  cases calls with
  | nil => exact Nat.le_refl _
  | cons call calls => exact h.1

theorem balanced_job (job : Job) {calls : List Call} (h : Balanced calls) :
    Balanced (job.calls false ++ calls) := by
  have hle := h.count_le
  unfold Job.calls
  cases job.newPipe <;> cases job.ispipe.isSome <;>
    simp [Balanced, h] <;> omega

theorem balanced_calls {line : Line} (h : line.isbkg = false) : Balanced line.calls := by
  unfold Line.calls
  rw [h]
  induction line.jobs with
  | nil => trivial
  | cons job jobs ih => exact balanced_job job ih

/-- There is a `wait` left for each child of the line and each `fork` to come. -/
structure Covered (s : Sys) : Prop where
  known : ∀ child, child ∈ s.running ∨ child ∈ s.zombies → child ≤ s.line
  balanced : s.isbkg = false → Balanced s.todo
  covered : s.isbkg = false → s.unreaped + s.todo.count .fork ≤ s.todo.count .wait

variable {s t : Sys} {a : Act} {call : Call} {todo : List Call}

theorem Covered.waitedFor (hs : Covered s) : s.WaitedFor := by
  intro htodo hending hfg hmem
  have hcovered := hs.covered hfg
  have hpos := List.count_pos_iff.mpr hmem
  rw [htodo, Sys.unreaped] at hcovered
  simp only [List.count_nil] at hcovered
  omega

/-- A line has no children at its start. -/
theorem Covered.unreaped_next (hs : Covered s) :
    s.running.count (s.line + 1) = 0 ∧ s.zombies.count (s.line + 1) = 0 := by
  constructor
  · rw [List.count_eq_zero]
    intro hmem
    exact absurd (hs.known _ (Or.inl hmem)) (Nat.not_succ_le_self _)
  · rw [List.count_eq_zero]
    intro hmem
    exact absurd (hs.known _ (Or.inr hmem)) (Nat.not_succ_le_self _)

/-- The exit of a child does not reap it. -/
theorem count_exits {child : ℕ} {running : List ℕ} (zombies : List ℕ) (h : child ∈ running)
    (l : ℕ) : (running.erase child).count l + (child :: zombies).count l =
      running.count l + zombies.count l := by
  by_cases hl : child = l
  · subst hl
    have hpos := List.count_pos_iff.mpr h
    rw [List.count_erase_self, List.count_cons_self]
    omega
  · rw [List.count_erase_of_ne (Ne.symm hl), List.count_cons_of_ne hl]

/-! One lemma for each thing that can come next. -/

theorem Covered.line (hs : Covered s) (htodo : s.todo = []) :
    Covered { s with line := s.line + 1, isbkg := false } := by
  obtain ⟨hrunning, hzombies⟩ := hs.unreaped_next
  refine ⟨fun child hc => (hs.known child hc).trans (Nat.le_succ _), fun _ => ?_, fun _ => ?_⟩
  · rw [htodo]
    trivial
  · rw [htodo, Sys.unreaped, hrunning, hzombies]
    rfl

theorem Covered.runLine (hs : Covered s) (line : Line) : Covered { s with
    line := s.line + 1, isbkg := line.isbkg, todo := line.calls, ending := line.ending } := by
  obtain ⟨hrunning, hzombies⟩ := hs.unreaped_next
  refine ⟨fun child hc => (hs.known child hc).trans (Nat.le_succ _), balanced_calls,
    fun hfg => ?_⟩
  rw [Sys.unreaped, hrunning, hzombies, Nat.zero_add]
  exact (balanced_calls hfg).count_le

theorem Covered.exits (hs : Covered s) {child : ℕ} (hchild : child ∈ s.running) : Covered { s with
    running := s.running.erase child, zombies := child :: s.zombies } := by
  refine ⟨fun c hc => ?_, hs.balanced, fun hfg => ?_⟩
  · rcases hc with hc | hc
    · exact hs.known c (Or.inl (List.mem_of_mem_erase hc))
    · rcases List.mem_cons.mp hc with rfl | hc
      · exact hs.known c (Or.inl hchild)
      · exact hs.known c (Or.inr hc)
  · rw [Sys.unreaped, count_exits _ hchild]
    exact hs.covered hfg

/-- What is known of the calls to come is known behind the first of them. -/
theorem Covered.behind (hs : Covered s) (htodo : s.todo = call :: todo) :
    s.isbkg = false → Balanced todo ∧
      s.unreaped + (call :: todo).count .fork ≤ (call :: todo).count .wait := by
  intro hfg
  have hbalanced := hs.balanced hfg
  have hcovered := hs.covered hfg
  rw [htodo] at hbalanced hcovered
  exact ⟨hbalanced.2, hcovered⟩

theorem Covered.fork (hs : Covered s) (htodo : s.todo = .fork :: todo) :
    Covered { s with todo, running := s.line :: s.running } := by
  refine ⟨fun c hc => ?_, fun hfg => (hs.behind htodo hfg).1, fun hfg => ?_⟩
  · rcases hc with hc | hc
    · rcases List.mem_cons.mp hc with rfl | hc
      · exact Nat.le_refl _
      · exact hs.known c (Or.inl hc)
    · exact hs.known c (Or.inr hc)
  · have hle := (hs.behind htodo hfg).2
    rw [List.count_cons_self, List.count_cons_of_ne (by decide)] at hle
    rw [Sys.unreaped] at hle ⊢
    dsimp only
    rw [List.count_cons_self]
    omega

theorem Covered.forkFails (hs : Covered s) (htodo : s.todo = .fork :: todo) :
    Covered { s with todo } := by
  refine ⟨hs.known, fun hfg => (hs.behind htodo hfg).1, fun hfg => ?_⟩
  have hle := (hs.behind htodo hfg).2
  rw [List.count_cons_self, List.count_cons_of_ne (by decide)] at hle
  exact (Nat.add_le_add_left (Nat.le_succ _) _).trans hle

/-- A child of the line is one less to wait for; another one takes a `wait` that is to spare. -/
theorem Covered.reaps (hs : Covered s) (htodo : s.todo = .wait :: todo) {child : ℕ}
    (hchild : child ∈ s.zombies) (ha : s.ReapsOwn (.wait (some child))) :
    Covered { s with todo, zombies := s.zombies.erase child } := by
  refine ⟨fun c hc => hs.known c (hc.imp_right List.mem_of_mem_erase),
    fun hfg => (hs.behind htodo hfg).1, fun hfg => ?_⟩
  have hle := (hs.behind htodo hfg).2
  rw [Sys.ReapsOwn, htodo] at ha
  rw [List.count_cons_self, List.count_cons_of_ne (by decide)] at hle ha
  rw [Sys.unreaped] at hle ha ⊢
  dsimp only
  rcases ha with rfl | hspare
  · have hpos := List.count_pos_iff.mpr hchild
    rw [List.count_erase_self]
    omega
  · have herase : (s.zombies.erase child).count s.line ≤ s.zombies.count s.line :=
      List.erase_sublist.count_le s.line
    omega

theorem Covered.noChild (hs : Covered s) (htodo : s.todo = .wait :: todo)
    (hnone : s.running = [] ∧ s.zombies = []) : Covered { s with todo } := by
  refine ⟨hs.known, fun hfg => (hs.behind htodo hfg).1, fun hfg => ?_⟩
  rw [Sys.unreaped, hnone.1, hnone.2, List.count_nil, Nat.zero_add]
  exact (hs.behind htodo hfg).1.count_le

theorem Covered.descriptor (hs : Covered s) (htodo : s.todo = call :: todo)
    (hfork : call ≠ .fork) (hwait : call ≠ .wait) : Covered { s with todo } := by
  refine ⟨hs.known, fun hfg => (hs.behind htodo hfg).1, fun hfg => ?_⟩
  have hle := (hs.behind htodo hfg).2
  rw [List.count_cons_of_ne hfork, List.count_cons_of_ne hwait] at hle
  exact hle

theorem Covered.step (hs : Covered s) (ha : s.ReapsOwn a) (h : s.step a = .ok t) : Covered t := by
  unfold Sys.step at h
  cases a with
  | line input =>
    dsimp only at h
    split_ifs at h with hprompt
    split at h <;> cases h
    · exact hs.line hprompt.1
    · exact hs.runLine _
  | exits child =>
    dsimp only at h
    split_ifs at h with hchild
    cases h
    exact hs.exits hchild
  | fork ok =>
    dsimp only at h
    split at h <;> cases h
    next todo htodo =>
      cases ok with
      | true => exact hs.fork htodo
      | false => exact hs.forkFails htodo
  | wait child =>
    cases child with
    | some child =>
      dsimp only at h
      split at h
      next todo htodo =>
        split_ifs at h with hchild
        cases h
        exact hs.reaps htodo hchild ha
      next => cases h
    | none =>
      dsimp only at h
      split at h
      next todo htodo =>
        split_ifs at h with hnone
        cases h
        exact hs.noChild htodo hnone
      next => cases h
  | descriptor =>
    dsimp only at h
    split at h <;> cases h
    next todo htodo => exact hs.descriptor htodo nofun nofun
    next todo htodo => exact hs.descriptor htodo nofun nofun

theorem covered_start : Covered Sys.start :=
  ⟨fun _ hc => hc.elim nofun nofun, fun _ => trivial, fun _ => Nat.le_refl _⟩

/-- The shell waits for the children of a line without `&` in every run in which its calls of `wait`
are not used up by others. -/
theorem waitedFor_of_reapsOwn {acts : List Act} (h : Meets Sys.step Sys.ReapsOwn Sys.start acts) :
    Always Sys.step Sys.WaitedFor Sys.start acts :=
  meets_always (fun _ _ _ => Covered.step) (fun _ => Covered.waitedFor) covered_start h

/-- A piped line while a child of the line before is still running. -/
def pipedRun : List Act :=
  [.line ['a', '&'], .fork true, .line ['b', '|', 'c'], .descriptor, .fork true, .descriptor,
    .fork true, .exits 2, .wait (some 2), .descriptor, .exits 2, .wait (some 2), .exits 1]

theorem waitedFor_pipedRun : Always Sys.step Sys.WaitedFor Sys.start pipedRun :=
  waitedFor_of_reapsOwn (by decide +kernel)

/-- The wait for "sleep 5" reaps the child of "sleep 1 &". -/
def backgroundRun : List Act :=
  [.line ['s', 'l', 'e', 'e', 'p', ' ', '1', ' ', '&'], .fork true,
    .line ['s', 'l', 'e', 'e', 'p', ' ', '5'], .fork true, .exits 1, .wait (some 1)]

theorem prompt_too_early :
    exec Sys.step Sys.start backgroundRun = .ok { Sys.start with line := 2, running := [2] } ∧
      ¬Always Sys.step Sys.WaitedFor Sys.start backgroundRun := by
  have hrun : exec Sys.step Sys.start backgroundRun =
      .ok { Sys.start with line := 2, running := [2] } := by
    decide +kernel
  refine ⟨hrun, fun h => ?_⟩
  exact absurd (h.last hrun) (by decide)

end KernelExperiment.Shell.Children
