import KernelExperiment.Shell.Syntax

/-! What one segment does to the variables of `main`: it overwrites what it sets and leaves the rest
as it has found it. What it sets can be read off its text. -/

namespace KernelExperiment.Shell
open Tokens

inductive Flag where
  | filein
  | fileout
  | ispipe
  deriving DecidableEq, Repr

def Vars.flag (v : Vars) : Flag → Bool
  | .filein => v.filein
  | .fileout => v.fileout
  | .ispipe => v.ispipe

def Job.flag (job : Job) : Flag → Bool
  | .filein => job.filein.isSome
  | .fileout => job.fileout.isSome
  | .ispipe => job.ispipe.isSome

/-- What is left of a segment behind the test for an operator. -/
def cut (op text : List Char) : List Char :=
  if op <:+: text then first (isDelim op) text else text

/-- How many characters the pointer moves in that test. -/
def skip (op text : List Char) : ℕ :=
  if op <:+: text then (text.takeWhile (isDelim op)).length else 0

/-- A segment behind the first test, behind the second and behind all three. -/
def cut₁ (text : List Char) : List Char := cut (redirection '>') text

def cut₂ (text : List Char) : List Char := cut (redirection '<') (cut₁ text)

def cut₃ (text : List Char) : List Char := cut ['|'] (cut₂ text)

def skipped (text : List Char) : ℕ :=
  skip (redirection '>') text + skip (redirection '<') (cut₁ text) + skip ['|'] (cut₂ text)

/-- The flags that a segment sets itself. -/
def Sets (text : List Char) : Flag → Prop
  | .filein => redirection '>' <:+: text
  | .fileout => redirection '<' <:+: cut₁ text
  | .ispipe => ['|'] <:+: cut₂ text

instance (text : List Char) (f : Flag) : Decidable (Sets text f) :=
  match f with
  | .filein => inferInstanceAs (Decidable (redirection '>' <:+: text))
  | .fileout => inferInstanceAs (Decidable (redirection '<' <:+: cut₁ text))
  | .ispipe => inferInstanceAs (Decidable (['|'] <:+: cut₂ text))

def commandName (text : List Char) : List Char := first (isDelim [' ']) (cut₃ text)

/-- A segment with a command, other than "exit". -/
def Runs (text : List Char) : Prop :=
  commandName text ≠ [] ∧ (commandName text).map Char.toLower ≠ ['e', 'x', 'i', 't']

instance (text : List Char) : Decidable (Runs text) :=
  inferInstanceAs (Decidable (_ ∧ _))

/-! The variables that are left over. -/

namespace Vars

/-- `v` with what it has not set itself taken from `u`. -/
def before (u v : Vars) : Vars :=
  { v with
    filein := u.filein || v.filein
    infile := if v.filein then v.infile else u.infile
    fileout := u.fileout || v.fileout
    outfile := if v.fileout then v.outfile else u.outfile
    ispipe := u.ispipe || v.ispipe
    lineBuf2 := if v.ispipe then v.lineBuf2 else u.lineBuf2 }

variable (u v : Vars)

theorem before_outputRedirection :
    (u.before v).outputRedirection = v.outputRedirection.map u.before := by
  unfold outputRedirection
  rw [Option.map_map]
  apply Option.map_congr
  intro s _
  cases h : strstr s (redirection '>') <;> simp [h, before]

theorem before_inputRedirection :
    (u.before v).inputRedirection = v.inputRedirection.map u.before := by
  unfold inputRedirection
  rw [Option.map_map]
  apply Option.map_congr
  intro s _
  cases h : strstr s (redirection '<') <;> simp [h, before]

theorem before_pipe : (u.before v).pipe = v.pipe.map fun r => (u.before r.1, r.2) := by
  unfold pipe
  rw [Option.map_map]
  apply Option.map_congr
  intro s _
  cases h : strstr s ['|'] <;> simp [h, before]

end Vars

/-- What a job goes by for one flag: its own value, or the one left over if the flag is set. -/
def leftover {α : Type*} (own : Option α) (set : Bool) (left : α) : Option α :=
  if own.isSome then own else if set then some left else none

theorem isSome_leftover {α : Type*} (own : Option α) (set : Bool) (left : α) :
    (leftover own set left).isSome = (own.isSome || set) := by
  cases own <;> cases set <;> rfl

theorem leftover_eq_iff {α : Type*} {own : Option α} {set : Bool} {left : α} :
    leftover own set left = own ↔ (set = true → own.isSome = true) := by
  cases own <;> cases set <;> simp [leftover]

def Job.after (u : Vars) (saved : Str) (job : Job) : Job :=
  { job with
    filein := leftover job.filein u.filein (u.infile.map Str.text)
    fileout := leftover job.fileout u.fileout (u.outfile.map Str.text)
    ispipe := leftover job.ispipe u.ispipe (splitCmd u.lineBuf2 saved).1 }

namespace Vars

theorem before_parse (u v : Vars) :
    (u.before v).parse = v.parse.map fun r => (u.before r.1, r.2.after u r.1.saved) := by
  cases h₁ : v.outputRedirection with
  | none => simp [parse, before_outputRedirection, h₁]
  | some v₁ =>
    have h₁' : (u.before v).outputRedirection = some (u.before v₁) := by
      rw [before_outputRedirection, h₁]
      rfl
    cases h₂ : v₁.inputRedirection with
    | none => simp [parse, h₁, h₁', before_inputRedirection, h₂]
    | some v₂ =>
      have h₂' : (u.before v₁).inputRedirection = some (u.before v₂) := by
        rw [before_inputRedirection, h₂]
        rfl
      cases h₃ : v₂.pipe with
      | none => simp [parse, h₁, h₁', h₂, h₂', before_pipe, h₃]
      | some r =>
        obtain ⟨v₃, newPipe⟩ := r
        have h₃' : (u.before v₂).pipe = some (u.before v₃, newPipe) := by
          rw [before_pipe, h₃]
          rfl
        rw [parse_of_stages h₁ h₂ h₃, parse_of_stages h₁' h₂' h₃', Option.map_some]
        cases hin : v₃.filein <;> cases hout : v₃.fileout <;> cases hpipe : v₃.ispipe <;>
          simp [before, Job.after, leftover, hin, hout, hpipe]

theorem strtok_some (s : Str) (delim : List Char) (saved saved' : Str) :
    strtok (some s) delim saved = strtok (some s) delim saved' := rfl

/-- The first `strtok` of a segment that has a text starts anew. -/
theorem parse_saved {v : Vars} {s : Str} (hv : v.lineBuf = some s) (saved : Str) :
    { v with saved }.parse = v.parse := by
  by_cases hout : strstr s (redirection '>') = true
  · have hstage : { v with saved }.outputRedirection = v.outputRedirection := by
      simp [outputRedirection, hv, hout, strtok_some s _ saved v.saved]
    rw [parse, hstage, parse]
  · have hstage (u : Vars) (hu : u.lineBuf = some s) : u.outputRedirection = some u := by
      simp [outputRedirection, hu, hout]
    by_cases hin : strstr s (redirection '<') = true
    · have hstage' : { v with saved }.inputRedirection = v.inputRedirection := by
        simp [inputRedirection, hv, hin, strtok_some s _ saved v.saved]
      rw [parse, hstage { v with saved } hv, parse, hstage v hv, Option.bind_some,
        Option.bind_some, hstage']
    · have hstage' (u : Vars) (hu : u.lineBuf = some s) : u.inputRedirection = some u := by
        simp [inputRedirection, hu, hin]
      by_cases hpipe : strstr s ['|'] = true
      · have hstage'' : { v with saved }.pipe = v.pipe := by
          simp [pipe, hv, hpipe, strtok_some s _ saved v.saved]
        rw [parse, hstage { v with saved } hv, parse, hstage v hv, Option.bind_some,
          Option.bind_some, hstage' { v with saved } hv, hstage' v hv, Option.bind_some,
          Option.bind_some, hstage'']
      · have hstage'' (u : Vars) (hu : u.lineBuf = some s) : u.pipe = some (u, false) := by
          simp [pipe, hu, hpipe]
        rw [parse_of_stages (hstage _ hv) (hstage' _ hv) (hstage'' _ hv),
          parse_of_stages (v := { v with saved }) (hstage _ hv) (hstage' _ hv) (hstage'' _ hv)]
        have hsplit : splitCmd (some s) saved = splitCmd (some s) v.saved := by
          rw [splitCmd, splitCmd, strtok_some s _ saved v.saved]
        simp only [hv, hsplit]

/-- A segment is parsed as it is alone, and what it does not set stays as it was. -/
theorem parse_eq {v : Vars} {s : Str} (hv : v.lineBuf = some s) :
    v.parse = Option.map (fun r => (v.before r.1, r.2.after v r.1.saved))
      { Vars.cleared with lineBuf := some s }.parse := by
  have hsame : { v with saved := Vars.cleared.saved } =
      v.before { Vars.cleared with lineBuf := some s } := by
    rw [before]
    simp [Vars.cleared, ← hv]
  rw [← before_parse, ← hsame]
  exact (parse_saved hv _).symm

theorem segment_eq {v : Vars} {s : Str} (hv : v.lineBuf = some s) :
    v.segment = match { Vars.cleared with lineBuf := some s }.segment with
      | .error e => .error e
      | .ok r => .ok (v.before r.1, r.2.after v r.1.saved) := by
  unfold segment
  rw [parse_eq hv]
  cases { Vars.cleared with lineBuf := some s }.parse with
  | none => rfl
  | some r =>
    have hname : (r.2.after v r.1.saved).command.name = r.2.command.name := rfl
    rw [Option.map_some]
    dsimp only
    rw [hname]
    cases r.2.command.name with
    | none => rfl
    | some name =>
      dsimp only
      split_ifs <;> rfl

end Vars

/-! The flags of a segment. -/

variable {u v v' : Vars} {job : Job} {s saved : Str} {text : List Char} {f : Flag}

theorem after_flag (u : Vars) (saved : Str) (job : Job) (f : Flag) :
    (job.after u saved).flag f = (job.flag f || u.flag f) := by
  cases f <;> exact isSome_leftover ..

/-- A segment makes the same job of leftovers and without exactly when it sets what is left over. -/
theorem after_eq_iff : job.after u saved = job ↔ ∀ f, u.flag f = true → job.flag f = true := by
  constructor
  · intro h f hu
    rw [← h, after_flag, hu, Bool.or_true]
  · intro h
    have hin x : leftover job.filein u.filein x = job.filein := leftover_eq_iff.mpr (h .filein)
    have hout x : leftover job.fileout u.fileout x = job.fileout := leftover_eq_iff.mpr (h .fileout)
    have hpipe x : leftover job.ispipe u.ispipe x = job.ispipe := leftover_eq_iff.mpr (h .ispipe)
    rw [Job.after, hin, hout, hpipe]

theorem parse_flag (h : v.parse = some (v', job)) (f : Flag) : job.flag f = v'.flag f := by
  obtain ⟨r, -, hr⟩ := Option.map_eq_some_iff.mp h
  obtain ⟨rfl, rfl⟩ := Prod.mk.inj hr
  rw [Bool.eq_iff_iff]
  cases f <;> exact Option.isSome_ite

/-! The three tests. -/

/-- The characters behind a pointer, none behind NULL. -/
def content (p : Option Str) : List Char := p.elim [] Str.text

/-- What a test leaves in `lineBuf`. -/
def took (op : List Char) (s : Str) : Option Str :=
  if op <:+: s.text then (strtok (some s) op s).1 else some s

theorem content_took (op : List Char) (s : Str) : content (took op s) = cut op s.text := by
  unfold took cut
  by_cases h : op <:+: s.text
  · rw [if_pos h, if_pos h, strtok_fst, Option.getD_some]
    split_ifs with hfirst
    · exact hfirst.symm
    · rfl
  · rw [if_neg h, if_neg h]
    rfl

theorem took_offset {op : List Char} {s t : Str} (h : took op s = some t) :
    t.offset = s.offset + skip op s.text := by
  unfold took at h
  unfold skip
  split_ifs at h ⊢
  · rw [strtok_fst, Option.getD_some] at h
    split_ifs at h
    cases h
    rfl
  · cases h
    rfl

theorem took_text {op : List Char} {s t : Str} (h : took op s = some t) :
    t.text = cut op s.text := by
  rw [← content_took, h]
  rfl

theorem cut_of_took_none {op : List Char} {s : Str} (h : took op s = none) :
    cut op s.text = [] := by
  rw [← content_took, h]
  rfl

theorem outputRedirection_took (hv : v.lineBuf = some s) : ∃ v', v.outputRedirection = some v' ∧
    v'.lineBuf = took (redirection '>') s ∧
      v'.filein = (v.filein || decide (redirection '>' <:+: s.text)) ∧
      v'.fileout = v.fileout ∧ v'.ispipe = v.ispipe := by
  by_cases h : redirection '>' <:+: s.text
  · refine ⟨_, outputRedirection_strtok hv h, ?_, by simp [h], rfl, rfl⟩
    rw [took, if_pos h]
    rfl
  · refine ⟨_, outputRedirection_skip hv h, ?_, by simp [h], rfl, rfl⟩
    rw [took, if_neg h, hv]

theorem inputRedirection_took (hv : v.lineBuf = some s) : ∃ v', v.inputRedirection = some v' ∧
    v'.lineBuf = took (redirection '<') s ∧
      v'.fileout = (v.fileout || decide (redirection '<' <:+: s.text)) ∧
      v'.filein = v.filein ∧ v'.ispipe = v.ispipe := by
  by_cases h : redirection '<' <:+: s.text
  · refine ⟨_, inputRedirection_strtok hv h, ?_, by simp [h], rfl, rfl⟩
    rw [took, if_pos h]
    rfl
  · refine ⟨_, inputRedirection_skip hv h, ?_, by simp [h], rfl, rfl⟩
    rw [took, if_neg h, hv]

/-- Without a first part of a pipe there is nothing behind it either. -/
theorem pipe_took (hv : v.lineBuf = some s) :
    ∃ v', v.pipe = some (v', decide (['|'] <:+: s.text)) ∧
      v'.lineBuf = took ['|'] s ∧ (v'.lineBuf = none → v'.saved.text = []) ∧
      v'.ispipe = (v.ispipe || decide (['|'] <:+: s.text)) ∧
      v'.filein = v.filein ∧ v'.fileout = v.fileout := by
  by_cases h : ['|'] <:+: s.text
  · rw [decide_eq_true h, took, if_pos h]
    refine ⟨_, pipe_strtok hv ((List.singleton_infix_iff _ _).mp h), rfl, fun hnone => ?_, by simp,
      rfl, rfl⟩
    dsimp only at hnone ⊢
    have hfirst : first (isDelim ['|']) s.text = [] := by
      rw [strtok_fst, Option.getD_some] at hnone
      split_ifs at hnone with hfirst
      exact hfirst
    rw [strtok_snd_text, Option.getD_none, strtok_snd_text, Option.getD_some,
      rest_of_first_nil hfirst]
    rfl
  · rw [decide_eq_false h, took, if_neg h]
    refine ⟨v, pipe_skip hv (fun h' => h ((List.singleton_infix_iff _ _).mpr h')), hv,
      fun hnone => ?_, by simp, rfl, rfl⟩
    rw [hv] at hnone
    cases hnone

theorem splitCmd_name (buffer : Option Str) (saved : Str) :
    (splitCmd buffer saved).1.name =
      if first (isDelim [' ']) (buffer.getD saved).text = [] then none
      else some (first (isDelim [' ']) (buffer.getD saved).text) := by
  show (strtok buffer [' '] saved).1.map Str.text = _
  rw [strtok_fst]
  split_ifs <;> rfl

@[simp]
theorem cut_nil (op : List Char) : cut op [] = [] := by
  unfold cut
  split_ifs <;> rfl

/-- A segment as the first one of a line. -/
def fresh (text : List Char) : Vars :=
  { Vars.cleared with lineBuf := some { offset := 0, text } }

/-- What the text of a segment says of its parse. -/
structure Parsed (text : List Char) (v : Vars) (job : Job) : Prop where
  name : job.command.name = if commandName text = [] then none else some (commandName text)
  lineBuf : commandName text ≠ [] → ∃ t, v.lineBuf = some t ∧ t.offset = skipped text
  newPipe : job.newPipe = true ↔ Sets text .ispipe
  flag : ∀ f, v.flag f = true ↔ Sets text f
  job_flag : ∀ f, job.flag f = v.flag f

theorem parse_fresh (text : List Char) : (fresh text).parse = none ∧ commandName text = [] ∨
    ∃ v job, (fresh text).parse = some (v, job) ∧ Parsed text v job := by
  obtain ⟨v₁, hout, htook₁, hfilein₁, hfileout₁, hispipe₁⟩ :=
    outputRedirection_took (v := fresh text) rfl
  cases h₁ : v₁.lineBuf with
  | none =>
    refine Or.inl ⟨by simp [Vars.parse, hout, Vars.inputRedirection, h₁], ?_⟩
    have hcut : cut₁ text = [] := cut_of_took_none (htook₁.symm.trans h₁)
    simp [commandName, cut₃, cut₂, hcut, first]
  | some s₁ =>
    obtain ⟨v₂, hin, htook₂, hfileout₂, hfilein₂, hispipe₂⟩ := inputRedirection_took h₁
    have hs₁ : s₁.text = cut₁ text := took_text (htook₁.symm.trans h₁)
    have ho₁ := took_offset (htook₁.symm.trans h₁)
    cases h₂ : v₂.lineBuf with
    | none =>
      refine Or.inl ⟨by simp [Vars.parse, hout, hin, Vars.pipe, h₂], ?_⟩
      have hcut : cut₂ text = [] := by
        rw [cut₂, ← hs₁, cut_of_took_none (htook₂.symm.trans h₂)]
      simp [commandName, cut₃, hcut, first]
    | some s₂ =>
      obtain ⟨v₃, hpipe, htook₃, hsaved, hispipe₃, hfilein₃, hfileout₃⟩ := pipe_took h₂
      have hs₂ : s₂.text = cut₂ text := by
        rw [cut₂, ← hs₁, took_text (htook₂.symm.trans h₂)]
      have ho₂ := took_offset (htook₂.symm.trans h₂)
      have hcut : (v₃.lineBuf.getD v₃.saved).text = cut₃ text := by
        rw [cut₃, ← hs₂, ← content_took, ← htook₃]
        cases h₃ : v₃.lineBuf with
        | none => exact hsaved h₃
        | some t => rfl
      rw [hs₁] at hfileout₂ ho₂
      rw [hs₂] at hpipe hispipe₃
      have hparse := parse_of_stages hout hin hpipe
      refine Or.inr ⟨_, _, hparse, ?_, ?_, ?_, ?_, parse_flag hparse⟩
      · rw [splitCmd_name, hcut]
        rfl
      · intro hname
        cases h₃ : v₃.lineBuf with
        | none =>
          rw [h₃, Option.getD_none, hsaved h₃] at hcut
          rw [commandName, ← hcut] at hname
          exact absurd rfl hname
        | some t =>
          refine ⟨t, rfl, ?_⟩
          rw [took_offset (htook₃.symm.trans h₃), ho₂, ho₁, hs₂, skipped]
          exact congrArg (· + _) (congrArg (· + _) (Nat.zero_add _))
      · exact decide_eq_true_iff
      · intro f
        cases f with
        | filein =>
          simp [Vars.flag, Sets, hfilein₃, hfilein₂, hfilein₁, fresh, Vars.cleared]
        | fileout =>
          simp [Vars.flag, Sets, hfileout₃, hfileout₂, hfileout₁, fresh, Vars.cleared]
        | ispipe =>
          simp [Vars.flag, Sets, hispipe₃, hispipe₂, hispipe₁, fresh, Vars.cleared]

/-! The loop over the segments. -/

/-- The job of a segment that does not end the run of the line. -/
def ownJob (text : List Char) : Option Job := (fresh text).segment.toOption.map Prod.snd

theorem segment_fresh (text : List Char) :
    (∃ e, e ≠ Ending.prompt ∧ (fresh text).segment = .error e) ∧ ¬Runs text ∨
      ∃ r, (fresh text).segment = .ok r ∧ Runs text ∧ Parsed text r.1 r.2 := by
  obtain ⟨hparse, hnil⟩ | ⟨v, job, hparse, hparsed⟩ := parse_fresh text
  · refine Or.inl ⟨⟨.crash, nofun, ?_⟩, fun h => h.1 hnil⟩
    rw [Vars.segment, hparse]
  · have hname := hparsed.name
    by_cases hnil : commandName text = []
    · rw [if_pos hnil] at hname
      refine Or.inl ⟨⟨.crash, nofun, ?_⟩, fun h => h.1 hnil⟩
      rw [Vars.segment, hparse]
      simp only [hname]
    · rw [if_neg hnil] at hname
      by_cases hexit : (commandName text).map Char.toLower = ['e', 'x', 'i', 't']
      · refine Or.inl ⟨⟨.exit, nofun, ?_⟩, fun h => h.2 hexit⟩
        rw [Vars.segment, hparse]
        simp only [hname, if_pos hexit]
      · refine Or.inr ⟨(v, job), ?_, ⟨hnil, hexit⟩, hparsed⟩
        rw [Vars.segment, hparse]
        simp only [hname, if_neg hexit]

theorem run_cons_error {e : Ending} {lines : List (Option Str)}
    (h : (fresh s.text).segment = .error e) :
    (run v (some s :: lines)).1 = [] ∧ (run v (some s :: lines)).2.1 = e := by
  have hseg := Vars.segment_eq (v := { v with lineBuf := some (s.moveTo 0) }) rfl
  rw [show ({ Vars.cleared with lineBuf := some (s.moveTo 0) } : Vars).segment = .error e from h]
    at hseg
  rw [run]
  simp only [Option.map_some, hseg, and_self]

/-- The run behind a segment has the flags of both and the pointer of the segment. -/
theorem run_cons_ok (v : Vars) (lines : List (Option Str)) {r : Vars × Job}
    (h : (fresh s.text).segment = .ok r) :
    ∃ v', (∀ f, v'.flag f = (v.flag f || r.1.flag f)) ∧
      v'.lineBuf = r.1.lineBuf.map (fun t => t.moveTo (t.offset + s.offset)) ∧
      run v (some s :: lines) =
        (r.2.after { v with lineBuf := some (s.moveTo 0) } r.1.saved :: (run v' lines).1,
          (run v' lines).2) := by
  have hseg := Vars.segment_eq (v := { v with lineBuf := some (s.moveTo 0) }) rfl
  rw [show ({ Vars.cleared with lineBuf := some (s.moveTo 0) } : Vars).segment = .ok r from h]
    at hseg
  rw [run]
  simp only [Option.map_some, hseg]
  refine ⟨_, fun f => ?_, rfl, rfl⟩
  cases f <;> rfl

/-- The jobs are those of the segments up to the first one that ends the run. -/
theorem run_newPipe (lines : List Str) (v : Vars) :
    (run v (lines.map some)).1.map Job.newPipe =
      (lines.takeWhile fun s => decide (Runs s.text)).map
        fun s => decide (Sets s.text .ispipe) := by
  induction lines generalizing v with
  | nil => rfl
  | cons s lines ih =>
    rw [List.map_cons, List.takeWhile_cons]
    obtain ⟨⟨e, -, hfresh⟩, hruns⟩ | ⟨r, hfresh, hruns, hparsed⟩ := segment_fresh s.text
    · rw [(run_cons_error hfresh).1, decide_eq_false hruns]
      rfl
    · obtain ⟨v', -, -, hrun⟩ := run_cons_ok v (lines.map some) hfresh
      have hnew : r.2.newPipe = decide (Sets s.text .ispipe) := by
        rw [Bool.eq_iff_iff, hparsed.newPipe, decide_eq_true_iff]
      rw [hrun, decide_eq_true hruns, if_pos rfl, List.map_cons, List.map_cons, ih, ← hnew]
      rfl

/-- The run comes back to the prompt when all segments have a command other than "exit". -/
theorem run_prompt_iff (lines : List Str) (v : Vars) :
    (run v (lines.map some)).2.1 = .prompt ↔ ∀ s ∈ lines, Runs s.text := by
  induction lines generalizing v with
  | nil => simp [run]
  | cons s lines ih =>
    rw [List.map_cons, List.forall_mem_cons]
    obtain ⟨⟨e, he, hfresh⟩, hruns⟩ | ⟨r, hfresh, hruns, -⟩ := segment_fresh s.text
    · rw [(run_cons_error hfresh).2]
      exact iff_of_false he fun h => hruns h.1
    · obtain ⟨v', -, -, hrun⟩ := run_cons_ok v (lines.map some) hfresh
      rw [hrun, ih, and_iff_right hruns]

/-- Behind the run the pointer is at the command of the last segment. -/
theorem run_lineBuf {lines : List Str} {last : Str} (hruns : ∀ s ∈ lines, Runs s.text)
    (hlast : lines.getLast? = some last) (v : Vars) :
    ∃ t, (run v (lines.map some)).2.2.lineBuf = some t ∧
      t.offset = skipped last.text + last.offset := by
  induction lines generalizing v with
  | nil => cases hlast
  | cons s lines ih =>
    rw [List.forall_mem_cons] at hruns
    rw [List.map_cons]
    obtain ⟨-, hnot⟩ | ⟨r, hfresh, -, hparsed⟩ := segment_fresh s.text
    · exact absurd hruns.1 hnot
    · obtain ⟨v', -, hlineBuf, hrun⟩ := run_cons_ok v (lines.map some) hfresh
      rw [hrun]
      cases lines with
      | nil =>
        obtain ⟨t, ht, hoffset⟩ := hparsed.lineBuf hruns.1.1
        rw [List.getLast?_singleton, Option.some.injEq] at hlast
        subst hlast
        refine ⟨t.moveTo (t.offset + s.offset), ?_, congrArg (· + s.offset) hoffset⟩
        rw [List.map_nil, run, hlineBuf, ht]
        rfl
      | cons u lines => exact ih hruns.2 (by rwa [List.getLast?_cons_cons] at hlast) v'

end KernelExperiment.Shell
