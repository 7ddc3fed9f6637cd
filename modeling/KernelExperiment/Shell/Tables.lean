import KernelExperiment.Shell.Buffers

/-! The tables of the shell: `fullpath` with the entries of PATH, `lines` with the segments of a line,
and the words of the two commands. What `malloc` reserves for each is settled at start, before
anything is known of PATH or of the lines to come. -/

namespace KernelExperiment.Shell.Tables
open Tokens Buffers

/-- The sizes that the compiler gives to a pointer and to what stands before `argv` in
`struct command_struct`. -/
structure Abi where
  pointer : ℕ
  argv : ℕ
  pointer_pos : 0 < pointer

inductive Table where
  | fullpath
  | lines
  | argv
  | argv2
  deriving DecidableEq, Repr

/-- The argument of the `malloc` of a table. -/
def Table.malloc (abi : Abi) : Table → ℕ
  | fullpath => abi.pointer
  | lines => abi.pointer
  -- `malloc(command)` and `malloc(command2)`, when both are still NULL
  | argv => 0
  | argv2 => 0

/-- The elements that there is room for. -/
def Table.elements (abi : Abi) : Table → ℕ
  | fullpath => fullpath.malloc abi / abi.pointer
  | lines => lines.malloc abi / abi.pointer
  | argv => (argv.malloc abi - abi.argv) / abi.pointer
  | argv2 => (argv2.malloc abi - abi.argv) / abi.pointer

/-- The size of `fullpathfilename` and of `fullpathfilename2`. -/
def fileSize : ℕ := 64

/-- A store into a table, or a path that is put into one of the two arrays. -/
inductive Effect where
  | store (table : Table) (index : ℕ)
  | file (text : List Char)
  deriving DecidableEq, Repr

def Effect.Fits (abi : Abi) : Effect → Prop
  | store table index => index < table.elements abi
  | file text => text.length + 1 ≤ fileSize

instance (abi : Abi) (e : Effect) : Decidable (e.Fits abi) :=
  match e with
  | .store _ _ => inferInstanceAs (Decidable (_ < _))
  | .file _ => inferInstanceAs (Decidable (_ ≤ _))

/-- A loop that fills a table from its start. -/
def fill (table : Table) (n : ℕ) : List Effect := (List.range n).map (Effect.store table)

/-- The loop over the entries of PATH. The first `strtok` is stored whatever it gives. -/
def loadPath (path : List Char) : List (Option (List Char)) :=
  let s : Str := { offset := 0, text := cString path }
  let (entry, saved) := strtok (some s) [':'] s
  let (entries, _) := strtokAll [':'] saved.text.length saved
  entry.map Str.text :: entries.map fun p => some p.text

/-- `main` up to the prompt. -/
def startUp (path : List Char) : List Effect :=
  fill .lines 5 ++ fill .fullpath (loadPath path).length

/-- A string as `%s` prints it. -/
def printed (s : Option (List Char)) : List Char := s.getD ['(', 'n', 'u', 'l', 'l', ')']

/-- What `getfullPath` puts into the array, one after the other. -/
def getfullPath (access : List Char → Bool) (name : Option (List Char)) :
    List (Option (List Char)) → List (List Char)
  | [] => [printed name]
  | dir :: dirs =>
    let file := printed dir ++ '/' :: printed name
    if access file then [file] else file :: getfullPath access name dirs

/-- `splitCmd` and `getfullPath`. -/
def lookUp (access : List Char → Bool) (fullpath : List (Option (List Char))) (table : Table)
    (command : Command) : List Effect :=
  fill table command.argv.length ++ (getfullPath access command.name fullpath).map .file

def jobCommands (job : Job) : List (Table × Command) :=
  (.argv, job.command) :: (job.ispipe.map (Prod.mk Table.argv2)).toList

/-- The commands that a line is taken apart into, with the one that has ended the shell. -/
def commands (text : List Char) : List (Table × Command) :=
  let (lines, _, _, saved) := segments text
  let (jobs, ending, v) := run { Vars.cleared with saved } lines
  jobs.flatMap jobCommands ++
    match ending with
    | .prompt => []
    | .exit | .crash => (v.parse.map fun (_, job) => (Table.argv, job.command)).toList

/-- `access` answers by what there is when the command is looked up, `n` being the first of the line. -/
def lineEffects (access : ℕ → List Char → Bool) (fullpath : List (Option (List Char))) (n : ℕ)
    (text : List Char) : List Effect :=
  fill .lines ((segments text).1.length + 1) ++
    (commands text).zipIdx.flatMap fun ((table, command), i) =>
      lookUp (access (n + i)) fullpath table command

def session (access : ℕ → List Char → Bool) (fullpath : List (Option (List Char))) :
    ℕ → List Input → List Effect
  | _, [] => []
  | n, input :: inputs =>
    match runLine input.text with
    | none => session access fullpath n inputs
    | some line =>
      let text := cString input.text
      lineEffects access fullpath n text ++
        match line.ending with
        | .prompt => session access fullpath (n + (commands text).length) inputs
        | .exit | .crash => []

/-- A run of the shell. -/
def shell (path : List Char) (access : ℕ → List Char → Bool) (inputs : List Input) : List Effect :=
  startUp path ++ session access (loadPath path) 0 inputs

def Hold (abi : Abi) (effects : List Effect) : Prop := ∀ e ∈ effects, e.Fits abi

instance (abi : Abi) (effects : List Effect) : Decidable (Hold abi effects) :=
  inferInstanceAs (Decidable (∀ _ ∈ effects, _))

variable {abi : Abi} {table : Table} {n : ℕ}

theorem hold_append {es fs : List Effect} : Hold abi (es ++ fs) ↔ Hold abi es ∧ Hold abi fs :=
  List.forall_mem_append

theorem hold_fill : Hold abi (fill table n) ↔ n ≤ table.elements abi := by
  unfold Hold fill
  rw [List.forall_mem_map]
  simp only [List.mem_range, Effect.Fits]
  exact ⟨fun h => Nat.le_of_not_lt fun hlt => (h _ hlt).false, fun h i hi => hi.trans_le h⟩

theorem elements_fullpath (abi : Abi) : Table.fullpath.elements abi = 1 :=
  Nat.div_self abi.pointer_pos

theorem elements_lines (abi : Abi) : Table.lines.elements abi = 1 := Nat.div_self abi.pointer_pos

/-- There is no room for any word of a command. -/
theorem elements_argv (abi : Abi) : Table.argv.elements abi = 0 ∧ Table.argv2.elements abi = 0 := by
  rw [Table.elements, Table.malloc, Table.elements, Table.malloc, Nat.zero_sub, Nat.zero_div]
  exact ⟨rfl, rfl⟩

/-! `fullpath` and the paths made of it. -/

variable {path : List Char} {ws : List (List Char)}

theorem length_loadPath (hs : Spells (isDelim [':']) ws (cString path)) :
    (loadPath path).length = max 1 ws.length := by
  have hall {saved : Str} {vs : List (List Char)}
      (h : Spells (isDelim [':']) vs saved.text) :
      (strtokAll [':'] saved.text.length saved).1.length = vs.length := by
    have hmap := (strtokAll_spells (Nat.le_refl _) h).1
    rw [← hmap, List.length_map]
  rw [loadPath, List.length_cons, List.length_map]
  generalize hs' : ({ offset := 0, text := cString path } : Str) = s
  have htext : s.text = cString path := hs' ▸ rfl
  rw [← htext] at hs
  cases ws with
  | nil =>
    have hend : _ ∧ (strtok (some s) [':'] s).2.text = [] := strtok_of_nil hs
    have hrest : Spells (isDelim [':']) [] (strtok (some s) [':'] s).2.text := by
      rw [hend.2]
      exact .nil nofun
    rw [hall hrest]
    rfl
  | cons w ws =>
    rw [hall (strtok_first hs s).2, List.length_cons]
    omega

/-- One entry is all that there is room for. -/
theorem hold_fullpath_iff (hs : Spells (isDelim [':']) ws (cString path)) :
    Hold abi (fill .fullpath (loadPath path).length) ↔ ws.length ≤ 1 := by
  rw [hold_fill, elements_fullpath, length_loadPath hs]
  omega

/-- The entries that `getfullPath` comes to, the one with the command being the last. -/
def tried (access : List Char → Bool) (name : Option (List Char))
    (dirs : List (Option (List Char))) : List (Option (List Char)) :=
  dirs.take (dirs.findIdx (fun dir => access (printed dir ++ '/' :: printed name)) + 1)

theorem hold_file {text : List Char} : Effect.Fits abi (.file text) ↔ text.length + 1 ≤ fileSize :=
  Iff.rfl

/-- A slash and the NUL come to an entry and a name. -/
theorem hold_getfullPath_iff {access : List Char → Bool} {name : Option (List Char)}
    {dirs : List (Option (List Char))} :
    Hold abi ((getfullPath access name dirs).map .file) ↔
      (∀ dir ∈ tried access name dirs,
        (printed dir).length + (printed name).length + 2 ≤ fileSize) ∧
      (printed name).length + 1 ≤ fileSize := by
  unfold Hold
  rw [List.forall_mem_map]
  simp only [hold_file]
  induction dirs with
  | nil => simp [getfullPath, tried]
  | cons dir dirs ih =>
    have hlength : (printed dir ++ '/' :: printed name).length + 1 =
        (printed dir).length + (printed name).length + 2 := by
      rw [List.length_append, List.length_cons]
      omega
    rw [getfullPath, tried, List.findIdx_cons]
    cases haccess : access (printed dir ++ '/' :: printed name) with
    | true =>
      simp only [if_true, cond_true, Nat.zero_add, List.take_succ_cons, List.take_zero,
        List.forall_mem_singleton, hlength]
      omega
    | false =>
      simp only [Bool.false_eq_true, if_false, cond_false, List.take_succ_cons,
        List.forall_mem_cons, hlength]
      rw [ih, tried, and_assoc]

/-! The lines and their commands. -/

variable {text w : List Char} {v : Vars} {command : Command}

/-- A line that is not empty has two elements of `lines` stored, the last being NULL. -/
theorem lines_overrun (text : List Char) : ¬Hold abi (fill .lines ((segments text).1.length + 1)) := by
  obtain ⟨saved, -, heq⟩ := segments_eq text
  rw [hold_fill, elements_lines, heq, List.length_cons]
  omega

theorem length_argv (buffer : Option Str) (saved : Str) :
    (splitCmd buffer saved).1.argv.length = (splitCmd buffer saved).1.argc + 2 := by
  simp [splitCmd]

/-- Split by `splitCmd`, that is with its name and the NULL behind the last word. -/
def Split (tc : Table × Command) : Prop :=
  (tc.1 = .argv ∨ tc.1 = .argv2) ∧ tc.2.argv.length = tc.2.argc + 2

theorem split_parse {v v' : Vars} {job : Job} (h : v.parse = some (v', job)) :
    ∀ tc ∈ jobCommands job, Split tc := by
  obtain ⟨⟨u, newPipe⟩, -, hr⟩ := Option.map_eq_some_iff.mp h
  obtain ⟨-, rfl⟩ := Prod.mk.inj hr
  intro tc htc
  rcases List.mem_cons.mp htc with rfl | htc
  · exact ⟨Or.inl rfl, length_argv ..⟩
  · obtain ⟨c, hc, rfl⟩ := Option.map_eq_some_iff.mp (Option.mem_toList.mp htc)
    dsimp only at hc
    split_ifs at hc
    cases hc
    exact ⟨Or.inr rfl, length_argv ..⟩

theorem split_segment {v v' : Vars} {job : Job} (h : v.segment = .ok (v', job)) :
    ∀ tc ∈ jobCommands job, Split tc := by
  cases hparse : v.parse with
  | none =>
    rw [Vars.segment, hparse] at h
    cases h
  | some r =>
    have hr : r = (v', job) := by
      rw [Vars.segment, hparse] at h
      dsimp only at h
      split at h
      · cases h
      · split_ifs at h
        exact Except.ok.inj h
    exact split_parse (hr ▸ hparse)

theorem split_run (v : Vars) (lines : List (Option Str)) :
    ∀ tc ∈ (run v lines).1.flatMap jobCommands, Split tc := by
  induction lines generalizing v with
  | nil => exact nofun
  | cons line lines ih =>
    rw [run]
    cases hsegment : { v with lineBuf := line.map fun s => Str.moveTo s 0 }.segment with
    | error e => exact fun tc htc => absurd htc List.not_mem_nil
    | ok r =>
      intro tc htc
      rcases List.mem_append.mp htc with htc | htc
      · exact split_segment hsegment tc htc
      · exact ih _ tc htc

theorem split_commands (text : List Char) : ∀ tc ∈ commands text, Split tc := by
  intro tc htc
  rcases hsegs : segments text with ⟨lines, lineBuf3, isbkg, saved⟩
  have hjobs := split_run { Vars.cleared with saved } lines
  rcases hrun : run { Vars.cleared with saved } lines with ⟨jobs, ending, v⟩
  simp only [commands, hsegs, hrun] at htc
  rw [hrun] at hjobs
  rcases List.mem_append.mp htc with htc | htc
  · exact hjobs tc htc
  · split at htc
    case h_1 => cases htc
    case h_2 | h_3 =>
      obtain ⟨⟨v, job⟩, hparse, rfl⟩ := Option.map_eq_some_iff.mp (Option.mem_toList.mp htc)
      exact split_parse hparse _ (List.mem_cons_self ..)

/-- Not even the name of a command has a place. -/
theorem argv_overrun (text : List Char) :
    ∀ tc ∈ commands text, ¬Hold abi (fill tc.1 tc.2.argv.length) := by
  intro tc htc
  obtain ⟨htable, hlength⟩ := split_commands text tc htc
  have hnone : tc.1.elements abi = 0 := by
    rcases htable with h | h <;> rw [h]
    · exact (elements_argv abi).1
    · exact (elements_argv abi).2
  rw [hold_fill, hnone, hlength]
  omega

/-! Runs of the shell. -/

variable {path : List Char} {access : ℕ → List Char → Bool} {fullpath : List (Option (List Char))}

/-- The first line that is not empty is too much for the tables. -/
theorem hold_session_iff (inputs : List Input) :
    Hold abi (session access fullpath n inputs) ↔ ∀ input ∈ inputs, cString input.text = [] := by
  induction inputs with
  | nil => exact iff_of_true nofun nofun
  | cons input inputs ih =>
    rw [session, List.forall_mem_cons, ← runLine_eq_none]
    cases hline : runLine input.text with
    | none => exact ih.trans (and_iff_right rfl).symm
    | some line =>
      refine iff_of_false (fun h => ?_) nofun
      have heffects := (hold_append.mp h).1
      exact lines_overrun _ (hold_append.mp heffects).1

/-- The five rows of `lines` are stored into a table of one, whatever comes after. -/
theorem shell_overruns (path : List Char) (access : ℕ → List Char → Bool) (inputs : List Input) :
    ¬Hold abi (shell path access inputs) := by
  intro h
  have hstart := (hold_append.mp h).1
  have hlines : 5 ≤ Table.lines.elements abi := hold_fill.mp (hold_append.mp hstart).1
  rw [elements_lines] at hlines
  omega

/-- "ls" with "/bin:/usr" in PATH, on a machine of 32 bits. -/
theorem ls_overruns :
    let abi : Abi := { pointer := 4, argv := 8, pointer_pos := by decide }
    let effects := shell ['/', 'b', 'i', 'n', ':', '/', 'u', 's', 'r'] (fun _ _ => true)
      [{ text := ['l', 's'], length_le := by decide }]
    (∀ e ∈ [Effect.store .lines 1, .store .fullpath 1, .store .argv 0],
      e ∈ effects ∧ ¬e.Fits abi) ∧ ¬Hold abi effects := by
  decide +kernel

end KernelExperiment.Shell.Tables
