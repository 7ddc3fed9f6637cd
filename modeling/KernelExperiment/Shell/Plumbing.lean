import KernelExperiment.Shell.Descriptors

/-! The descriptors of the shell and of its children, with what they refer to. A child gets a copy of
the table of the shell and rearranges it before it calls `execvp`; `open` and `fork` may fail, `pipe`
may not. -/

namespace KernelExperiment.Shell.Plumbing
open Runs Descriptors

/-- What a descriptor refers to: a pipe goes by its number among all that have been made. -/
inductive Obj where
  | inherited (fd : ℕ)
  | file (name : List Char)
  | pipe (n : ℕ) (e : End)
  deriving DecidableEq

structure Fds where
  fds : Finset ℕ
  obj : ℕ → Obj

namespace Fds

def get (t : Fds) (fd : ℕ) : Option Obj := if fd ∈ t.fds then some (t.obj fd) else none

def place (t : Fds) (fd : ℕ) (o : Obj) : Fds :=
  { fds := insert fd t.fds, obj := Function.update t.obj fd o }

def close (t : Fds) (fd : ℕ) : Fds := { t with fds := t.fds.erase fd }

def dup (t : Fds) (oldfd : ℕ) : Fds :=
  match t.get oldfd with
  | some o => t.place (lowest t.fds) o
  | none => t

def dup2 (t : Fds) (oldfd newfd : ℕ) : Fds :=
  match t.get oldfd with
  | some o => t.place newfd o
  | none => t

/-- All descriptors of a process that ends. -/
def none : Fds := { fds := ∅, obj := Obj.inherited }

variable {t : Fds} {fd fd' : ℕ} {o : Obj}

@[simp] theorem get_place : (t.place fd o).get fd' = if fd' = fd then some o else t.get fd' := by
  unfold get place
  by_cases h : fd' = fd
  · simp [h]
  · simp [h]

@[simp] theorem get_close : (t.close fd).get fd' = if fd' = fd then Option.none else t.get fd' := by
  unfold get close
  by_cases h : fd' = fd
  · simp [h]
  · simp [h]

@[simp] theorem get_none : none.get fd = Option.none := by simp [get, none]

theorem get_isSome_iff : (t.get fd).isSome ↔ fd ∈ t.fds := by
  unfold get
  split_ifs with h <;> simp [h]

theorem get_lowest : t.get (lowest t.fds) = Option.none := if_neg (lowest_notMem t.fds)

end Fds

/-! The calls of a child between `fork` and `execvp`. -/

/-- `opens` sets `f_in` or `f_out`; a target that is missing cannot be opened. -/
inductive ChildOp where
  | opens (name : Option (List Char))
  | dupFile
  | closeFile
  | close (fd : ℕ)
  | closeEnd (e : End)
  | dup2End (e : End) (fd : ℕ)
  deriving DecidableEq

/-- The number in `mypipe`. -/
def ends (mypipe : ℕ × ℕ) : End → ℕ
  | .read => mypipe.1
  | .write => mypipe.2

/-- The table and the last result of `open`. -/
def ChildOp.run (mypipe : ℕ × ℕ) (ok : Bool) (t : Fds) (file : Option ℕ) :
    ChildOp → Fds × Option ℕ
  | opens name =>
    match name with
    | some name => if ok then (t.place (lowest t.fds) (.file name), some (lowest t.fds)) else (t, none)
    | none => (t, none)
  | dupFile => (file.elim t t.dup, file)
  | closeFile => (file.elim t t.close, file)
  | close fd => (t.close fd, file)
  | closeEnd e => (t.close (ends mypipe e), file)
  | dup2End e fd => (t.dup2 (ends mypipe e) fd, file)

def redirect (std : ℕ) : Option (Option (List Char)) → List ChildOp
  | some name => [.opens name, .close std, .dupFile, .closeFile]
  | none => []

def firstOps (j : Job) : List ChildOp :=
  redirect 1 j.filein ++ (redirect 0 j.fileout ++
    if j.ispipe.isSome then [.closeEnd .read, .close 1, .dup2End .write 1, .closeEnd .write] else [])

def secondOps : List ChildOp := [.closeEnd .write, .close 0, .dup2End .read 0, .closeEnd .read]

/-- `own` is the pipe that was made for the segment of the child. -/
structure Child where
  fds : Fds
  mypipe : ℕ × ℕ
  file : Option ℕ
  todo : List ChildOp
  job : Job
  first : Bool
  own : Option ℕ
  exited : Bool

/-! The shell. -/

inductive Stage where
  | forkFirst
  | closeWrite
  | forkSecond
  | waitFirst
  | closeRead
  | waitSecond
  deriving DecidableEq

inductive Pc where
  | prompt
  | segment (jobs : List Job)
  | at (stage : Stage) (j : Job) (later : List Job)

def Pc.stage : Pc → Option Stage
  | .at stage _ _ => some stage
  | _ => none

structure Sys where
  shell : Fds
  mypipe : ℕ × ℕ
  pipes : ℕ
  own : Option ℕ
  pc : Pc
  isbkg : Bool
  ending : Ending
  children : ℕ → Option Child
  forks : ℕ

inductive Act where
  | line (input : List Char)
  | proceed (ok : Bool)
  | wait (child : Option ℕ)
  | child (i : ℕ) (ok : Bool)
  | exits (i : ℕ)

namespace Sys

def start : Sys :=
  { shell := { fds := {0, 1, 2}, obj := .inherited }, mypipe := (0, 0), pipes := 0, own := none,
    pc := .prompt, isbkg := false, ending := .prompt, children := fun _ => none, forks := 0 }

/-- A segment with a `|` of its own makes a pipe first. -/
def pipe (s : Sys) : Sys :=
  let r := lowest s.shell.fds
  let w := lowest (insert r s.shell.fds)
  { s with
    shell := (s.shell.place r (.pipe s.pipes .read)).place w (.pipe s.pipes .write)
    mypipe := (r, w)
    pipes := s.pipes + 1
    own := some s.pipes }

def fork (s : Sys) (ok : Bool) (j : Job) (first : Bool) : Sys :=
  if ok then
    { s with
      children := Function.update s.children s.forks (some {
        fds := s.shell
        mypipe := s.mypipe
        file := none
        todo := if first then firstOps j else secondOps
        job := j
        first
        own := s.own
        exited := false })
      forks := s.forks + 1 }
  else s

def goto (s : Sys) (stage : Stage) (j : Job) (later : List Job) : Sys :=
  { s with pc := .at stage j later }

/-- Behind the last fork of a segment. -/
def forked (s : Sys) (j : Job) (later : List Job) : Sys :=
  if s.isbkg then { s with pc := .segment later } else s.goto .waitFirst j later

def closeEnd (s : Sys) (e : End) : Sys := { s with shell := s.shell.close (ends s.mypipe e) }

def setChild (s : Sys) (i : ℕ) (c : Option Child) : Sys :=
  { s with children := Function.update s.children i c }

/-- `wait` takes any child that has exited, and fails when there is none at all. -/
def reap (s : Sys) : Option ℕ → Outcome Sys
  | some i =>
    match s.children i with
    | some c => if c.exited then .ok (s.setChild i none) else .blocked
    | none => .blocked
  | none => if ∀ i ∈ List.range s.forks, (s.children i).isNone then .ok s else .blocked

def step (s : Sys) : Act → Outcome Sys
  | .line input =>
    match s.pc with
    | .prompt =>
      match runLine input with
      | none => .ok s
      | some l => .ok { s with pc := .segment l.jobs, isbkg := l.isbkg, ending := l.ending }
    | _ => .blocked
  | .proceed ok =>
    match s.pc with
    | .segment [] => if s.ending = .prompt then .ok { s with pc := .prompt } else .blocked
    | .segment (j :: later) =>
      .ok ((if j.newPipe then s.pipe else { s with own := none }).goto .forkFirst j later)
    | .at .forkFirst j later =>
      let s := s.fork ok j true
      .ok (if j.ispipe.isSome then s.goto .closeWrite j later else s.forked j later)
    | .at .closeWrite j later => .ok ((s.closeEnd .write).goto .forkSecond j later)
    | .at .forkSecond j later => .ok ((s.fork ok j false).forked j later)
    | .at .closeRead j later => .ok ((s.closeEnd .read).goto .waitSecond j later)
    | _ => .blocked
  | .wait child =>
    match s.pc with
    | .at .waitFirst j later =>
      (s.reap child).map fun s =>
        if j.ispipe.isSome then s.goto .closeRead j later else { s with pc := .segment later }
    | .at .waitSecond _ later => (s.reap child).map fun s => { s with pc := .segment later }
    | _ => .blocked
  | .child i ok =>
    match s.children i with
    | some c =>
      match c.exited, c.todo with
      | false, op :: todo =>
        let (fds, file) := op.run c.mypipe ok c.fds c.file
        .ok (s.setChild i (some { c with fds, file, todo }))
      | _, _ => .blocked
    | none => .blocked
  -- a program ends, or a signal ends the child before that
  | .exits i =>
    match s.children i with
    | some c =>
      if c.exited then .blocked
      else .ok (s.setChild i (some { c with fds := .none, exited := true }))
    | none => .blocked

end Sys

/-! What a child ends up with, whichever of its `open` calls fail. -/

theorem lowest_eq {fds : Finset ℕ} {n : ℕ} (h : n ∉ fds) (hbelow : ∀ m < n, m ∈ fds) :
    lowest fds = n := by
  have hcard : n < fds.card + 1 := by
    have hsub : Finset.range n ⊆ fds := fun m hm => hbelow m (Finset.mem_range.mp hm)
    have hle := Finset.card_le_card hsub
    rw [Finset.card_range] at hle
    exact Nat.lt_succ_of_le hle
  have hfind : (List.range (fds.card + 1)).find? (fun m => decide (m ∉ fds)) = some n := by
    rw [List.find?_range_eq_some]
    refine ⟨by simpa using h, List.mem_range.mpr hcard, fun m hm => ?_⟩
    simpa using hbelow m hm
  rw [lowest, hfind]
  rfl

/-- Every way through the calls of a child ends in a table with the property. -/
def Ends (mypipe : ℕ × ℕ) (P : Fds → Prop) : List ChildOp → Fds → Option ℕ → Prop
  | [], t, _ => P t
  | op :: ops, t, file =>
    ∀ ok, Ends mypipe P ops (op.run mypipe ok t file).1 (op.run mypipe ok t file).2

variable {mypipe : ℕ × ℕ} {P : Fds → Prop} {ops : List ChildOp} {t t' : Fds} {file : Option ℕ}
  {j : Job} {later : List Job} {s : Sys} {n : ℕ}

/-- What a redirected descriptor refers to. -/
def Target (name : Option (List Char)) (o : Option Obj) : Prop :=
  o = none ∨ ∃ f, name = some f ∧ o = some (.file f)

/-- The table with one descriptor redirected. -/
structure Redirected (std : ℕ) (name : Option (List Char)) (t t' : Fds) : Prop where
  target : Target name (t'.get std)
  rest : ∀ fd, fd ≠ std → t'.get fd = t.get fd

theorem ends_redirect {std : ℕ} {name : Option (List Char)} (hstd : std ∈ t.fds)
    (hbelow : ∀ m < std, m ∈ t.fds)
    (h : ∀ t' file', Redirected std name t t' → Ends mypipe P ops t' file') :
    Ends mypipe P (redirect std (some name) ++ ops) t file := by
  have hfails : Ends mypipe P ([.close std, .dupFile, .closeFile] ++ ops) t none := by
    intro _ _ _
    refine h _ _ ⟨.inl ?_, fun fd hne => ?_⟩
    · simp [ChildOp.run]
    · simp [ChildOp.run, hne]
  intro ok
  cases name with
  | none => exact hfails
  | some f =>
    cases ok with
    | false => exact hfails
    | true =>
      -- the copy goes where the standard descriptor has been closed, and its source is closed
      have hnew : lowest t.fds ≠ std := fun he => lowest_notMem t.fds (he ▸ hstd)
      have hlow : lowest ((t.place (lowest t.fds) (.file f)).close std).fds = std := by
        refine lowest_eq (Finset.notMem_erase std _) fun m hm => ?_
        exact Finset.mem_erase.mpr ⟨Nat.ne_of_lt hm, Finset.mem_insert_of_mem (hbelow m hm)⟩
      intro _ _ _
      refine h _ _ ⟨.inr ⟨f, rfl, ?_⟩, fun fd hne => ?_⟩
      · simp [ChildOp.run, Fds.dup, hnew, hlow, hnew.symm]
      · simp only [ChildOp.run, Option.elim, Fds.dup, Fds.get_place, Fds.get_close, hnew, if_false,
          if_true, hlow, hne]
        split_ifs with he
        · rw [he, Fds.get_lowest]
        · rfl

/-- The standard descriptors behind the redirections. -/
structure Arranged (j : Job) (t t' : Fds) : Prop where
  stdout : j.filein.elim (t'.get 1 = t.get 1) fun name => Target name (t'.get 1)
  stdin : j.fileout.elim (t'.get 0 = t.get 0) fun name => Target name (t'.get 0)
  rest : ∀ fd, fd ≠ 0 → fd ≠ 1 → t'.get fd = t.get fd

theorem ends_redirections (h0 : 0 ∈ t.fds) (h1 : 1 ∈ t.fds)
    (h : ∀ t' file', Arranged j t t' → Ends mypipe P ops t' file') :
    Ends mypipe P (redirect 1 j.filein ++ (redirect 0 j.fileout ++ ops)) t file := by
  have hin {t' : Fds} {file' : Option ℕ}
      (hout : j.filein.elim (t'.get 1 = t.get 1) fun name => Target name (t'.get 1))
      (hrest : ∀ fd, fd ≠ 1 → t'.get fd = t.get fd) :
      Ends mypipe P (redirect 0 j.fileout ++ ops) t' file' := by
    cases hf : j.fileout with
    | none =>
      refine h t' file' ⟨hout, ?_, fun fd _ hne => hrest fd hne⟩
      rw [hf]
      exact hrest 0 (by decide)
    | some name =>
      have h0' : 0 ∈ t'.fds := by
        rw [← Fds.get_isSome_iff, hrest 0 (by decide), Fds.get_isSome_iff]
        exact h0
      refine ends_redirect h0' (fun m hm => absurd hm (Nat.not_lt_zero m)) fun t'' file'' hr => ?_
      refine h t'' file'' ⟨?_, ?_, fun fd hne hne' => (hr.rest fd hne).trans (hrest fd hne')⟩
      · rwa [hr.rest 1 (by decide)]
      · rw [hf]
        exact hr.target
  cases hf : j.filein with
  | none => exact hin (by rw [hf]; rfl) fun _ _ => rfl
  | some name =>
    refine ends_redirect h1 (fun m hm => ?_) fun t' file' hr => hin ?_ hr.rest
    · rwa [Nat.lt_one_iff.mp hm]
    · rw [hf]
      exact hr.target

/-- The first child of a segment when it calls `execvp`. -/
structure First (j : Job) (own : Option ℕ) (t : Fds) : Prop where
  stdin : j.fileout.elim (t.get 0 = some (.inherited 0)) fun name => Target name (t.get 0)
  stdout : j.ispipe = none →
    j.filein.elim (t.get 1 = some (.inherited 1)) fun name => Target name (t.get 1)
  stderr : t.get 2 = some (.inherited 2)
  pipe : ∀ n, own = some n → t.get 1 = some (.pipe n .write) ∧
    ∀ fd e, t.get fd = some (.pipe n e) → fd = 1

/-- The second child. -/
structure Second (own : Option ℕ) (t : Fds) : Prop where
  stdout : t.get 1 = some (.inherited 1)
  stderr : t.get 2 = some (.inherited 2)
  pipe : ∀ n, own = some n → t.get 0 = some (.pipe n .read) ∧
    ∀ fd e, t.get fd = some (.pipe n e) → fd = 0

/-- The ends of the pipe `n` are where `mypipe` says. -/
def AtEnds (mypipe : ℕ × ℕ) (n : ℕ) (t : Fds) : Prop :=
  ∀ fd e, t.get fd = some (.pipe n e) → fd = ends mypipe e

def Standing (t : Fds) : Prop := ∀ fd < 3, t.get fd = some (.inherited fd)

theorem Standing.mem (h : Standing t) {fd : ℕ} (hfd : fd < 3) : fd ∈ t.fds := by
  rw [← Fds.get_isSome_iff, h fd hfd]
  rfl

theorem target_ne_pipe {name : Option (List Char)} {o : Option Obj} (h : Target name o) (n : ℕ)
    (e : End) : o ≠ some (.pipe n e) := by
  rintro rfl
  obtain h | ⟨f, -, h⟩ := h
  · cases h
  · cases h

theorem Arranged.stdin_ne_pipe (h : Arranged j t t') (hstd : Standing t) (n : ℕ) (e : End) :
    t'.get 0 ≠ some (.pipe n e) := by
  have hin := h.stdin
  cases hf : j.fileout with
  | none =>
    rw [hf] at hin
    rw [show t'.get 0 = t.get 0 from hin, hstd 0 (by decide)]
    simp
  | some name =>
    rw [hf] at hin
    exact target_ne_pipe hin n e

/-- The numbers in `mypipe` are those of a pipe. -/
structure Valid (mypipe : ℕ × ℕ) : Prop where
  le : ∀ e, 3 ≤ ends mypipe e
  ne : ends mypipe .read ≠ ends mypipe .write

/-- The end of a pipe at `b` is moved to the standard descriptor, and the other end is closed. -/
theorem get_moved {a b std : ℕ} (t : Fds) (hab : a ≠ b) (hb : b ≠ std) (fd : ℕ) :
    ((((t.close a).close std).dup2 b std).close b).get fd =
      if fd = b then none else if fd = std then t.get b else if fd = a then none else t.get fd := by
  have hget : ((t.close a).close std).get b = t.get b := by simp [hb, hab.symm]
  unfold Fds.dup2
  rw [hget]
  cases hval : t.get b with
  | none => simp only [Fds.get_close]
  | some o =>
    simp only [Fds.get_close, Fds.get_place]
    split_ifs <;> rfl

theorem ends_first {own : Option ℕ} (hstd : Standing t)
    (hvalid : j.ispipe.isSome = true → Valid mypipe) (hown : ∀ n, own = some n →
      j.ispipe.isSome = true ∧ AtEnds mypipe n t ∧ t.get (ends mypipe .write) = some (.pipe n .write)) :
    Ends mypipe (First j own) (firstOps j) t file := by
  refine ends_redirections (hstd.mem (by decide)) (hstd.mem (by decide)) fun t' file' harr => ?_
  have hin : j.fileout.elim (t'.get 0 = some (.inherited 0)) fun name => Target name (t'.get 0) := by
    rw [← hstd 0 (by decide)]
    exact harr.stdin
  have herr : t'.get 2 = some (.inherited 2) := by
    rw [harr.rest 2 (by decide) (by decide)]
    exact hstd 2 (by decide)
  cases hpipe : j.ispipe with
  | none =>
    refine ⟨hin, fun _ => ?_, herr, fun n hn => ?_⟩
    · rw [← hstd 1 (by decide)]
      exact harr.stdout
    · have hsome := (hown n hn).1
      rw [hpipe] at hsome
      cases hsome
  | some c =>
    have hv := hvalid (by rw [hpipe]; rfl)
    have hr := hv.le .read
    have hw := hv.le .write
    have hwrite : t'.get (ends mypipe .write) = t.get (ends mypipe .write) :=
      harr.rest _ (by omega) (by omega)
    have hmoved := get_moved t' hv.ne (show ends mypipe .write ≠ 1 by omega)
    intro _ _ _ _
    show First j own
      ((((t'.close (ends mypipe .read)).close 1).dup2 (ends mypipe .write) 1).close
        (ends mypipe .write))
    refine ⟨?_, fun hnone => ?_, ?_, fun n hn => ⟨?_, fun fd e hfd => ?_⟩⟩
    · rwa [hmoved, if_neg (by omega), if_neg (by decide), if_neg (by omega)]
    · rw [hpipe] at hnone
      cases hnone
    · rwa [hmoved, if_neg (by omega), if_neg (by decide), if_neg (by omega)]
    · rw [hmoved, if_neg (by omega), if_pos rfl, hwrite]
      exact (hown n hn).2.2
    · rw [hmoved] at hfd
      split_ifs at hfd with h1 h2 h3
      · exact h2
      · -- any other descriptor of the pipe would be one of the shell's
        by_cases h0 : fd = 0
        · rw [h0] at hfd
          exact absurd hfd (harr.stdin_ne_pipe hstd n e)
        · rw [harr.rest fd h0 h2] at hfd
          have hat := (hown n hn).2.1 fd e hfd
          cases e with
          | read => exact absurd hat h3
          | write => exact absurd hat h1

theorem ends_second {own : Option ℕ} (hstd : Standing t) (hv : Valid mypipe)
    (hown : ∀ n, own = some n →
      AtEnds mypipe n t ∧ t.get (ends mypipe .read) = some (.pipe n .read)) :
    Ends mypipe (Second own) secondOps t file := by
  have hr := hv.le .read
  have hw := hv.le .write
  have hmoved := get_moved t hv.ne.symm (show ends mypipe .read ≠ 0 by omega)
  intro _ _ _ _
  show Second own
    ((((t.close (ends mypipe .write)).close 0).dup2 (ends mypipe .read) 0).close (ends mypipe .read))
  refine ⟨?_, ?_, fun n hn => ⟨?_, fun fd e hfd => ?_⟩⟩
  · rw [hmoved, if_neg (by omega), if_neg (by decide), if_neg (by omega)]
    exact hstd 1 (by decide)
  · rw [hmoved, if_neg (by omega), if_neg (by decide), if_neg (by omega)]
    exact hstd 2 (by decide)
  · rw [hmoved, if_neg (by omega), if_pos rfl]
    exact (hown n hn).2
  · rw [hmoved] at hfd
    split_ifs at hfd with h1 h2 h3
    · exact h2
    · have hat := (hown n hn).1 fd e hfd
      cases e with
      | read => exact absurd hat h1
      | write => exact absurd hat h3

end KernelExperiment.Shell.Plumbing
