import KernelExperiment.Shell.Parse

/-! Which segments of the shell's command syntax its parsing code takes apart as they are meant. -/

namespace KernelExperiment.Shell
open Tokens

/-- Neither a blank nor a metacharacter. -/
def Plain (c : Char) : Prop := c ∉ [' ', ';', '&', '|', '<', '>', nul]

instance : DecidablePred Plain := fun c => inferInstanceAs (Decidable (c ∉ _))

structure PlainWord where
  text : List Char
  ne_nil : text ≠ []
  plain : ∀ c ∈ text, Plain c

/-- A command: words with blanks between them. -/
structure Phrase where
  first : PlainWord
  more : List PlainWord
  text : List Char
  spells : Spells (isDelim [' ']) ((first :: more).map PlainWord.text) text

inductive Suffix where
  | simple
  | output (out : PlainWord)
  | input (inp : PlainWord)
  | outputInput (out inp : PlainWord)
  | inputOutput (inp out : PlainWord)
  | pipe (second : Phrase)

structure Segment where
  phrase : Phrase
  suffix : Suffix

namespace Segment

def render (seg : Segment) : List Char :=
  seg.phrase.text ++
    match seg.suffix with
    | .simple => []
    | .output out => redirection '>' ++ out.text
    | .input inp => redirection '<' ++ inp.text
    | .outputInput out inp => redirection '>' ++ out.text ++ (redirection '<' ++ inp.text)
    | .inputOutput inp out => redirection '<' ++ inp.text ++ (redirection '>' ++ out.text)
    | .pipe second => '|' :: second.text

def output (seg : Segment) : Option PlainWord :=
  match seg.suffix with
  | .output out | .outputInput out _ | .inputOutput _ out => some out
  | _ => none

def input (seg : Segment) : Option PlainWord :=
  match seg.suffix with
  | .input inp | .outputInput _ inp | .inputOutput inp _ => some inp
  | _ => none

def second (seg : Segment) : Option Phrase :=
  match seg.suffix with
  | .pipe second => some second
  | _ => none

end Segment

/-- The words with the NULL that ends an `argv`. -/
def Phrase.argv (phrase : Phrase) : List (Option (List Char)) :=
  (phrase.first :: phrase.more).map (fun w => some w.text) ++ [none]

/-- What a segment means is what the shell goes by when it runs it. -/
structure Means (seg : Segment) (job : Job) : Prop where
  argv : job.command.argv = seg.phrase.argv
  output : job.filein = seg.output.map fun w => some w.text
  input : job.fileout = seg.input.map fun w => some w.text
  second : job.ispipe.map Command.argv = seg.second.map Phrase.argv

def Parses (seg : Segment) : Prop := ∃ job, alone seg.render = some job ∧ Means seg job

/-- No redirection, or one redirection of a command without arguments. -/
def Separable (seg : Segment) : Prop :=
  match seg.suffix with
  | .simple | .pipe _ => True
  | .output _ | .input _ => seg.phrase.more = []
  | .outputInput .. | .inputOutput .. => False

/-! The stages of the parse. -/

variable {v : Vars} {s saved : Str} {w : List Char} {ws : List (List Char)} {op : Char}

theorem splitCmd_spells {buffer : Option Str}
    (hs : Spells (isDelim [' ']) (w :: ws) (buffer.getD saved).text) :
    (splitCmd buffer saved).1 =
      { name := some w, argc := ws.length, argv := (w :: ws).map some ++ [none] } := by
  obtain ⟨hfirst, hrest⟩ := strtok_of_cons hs
  obtain ⟨hmap, -⟩ := strtokAll_spells (Nat.le_refl _) hrest
  rw [← hmap]
  simp [splitCmd, hfirst, Function.comp_def]

theorem outputRedirection_skip (hv : v.lineBuf = some s) (h : ¬redirection '>' <:+: s.text) :
    v.outputRedirection = some v := by
  simp [Vars.outputRedirection, hv, strstr, h]

theorem inputRedirection_skip (hv : v.lineBuf = some s) (h : ¬redirection '<' <:+: s.text) :
    v.inputRedirection = some v := by
  simp [Vars.inputRedirection, hv, strstr, h]

theorem pipe_skip (hv : v.lineBuf = some s) (h : '|' ∉ s.text) : v.pipe = some (v, false) := by
  have hbar : ¬['|'] <:+: s.text := fun h' => h ((List.singleton_infix_iff _ _).mp h')
  simp [Vars.pipe, hv, strstr, hbar]

/-! An operator that is found takes two tokens. -/

theorem outputRedirection_strtok (hv : v.lineBuf = some s) (h : redirection '>' <:+: s.text) :
    v.outputRedirection = some { v with
      filein := true
      lineBuf := (strtok (some s) (redirection '>') v.saved).1
      infile := (strtok none (redirection '>') (strtok (some s) (redirection '>') v.saved).2).1
      saved := (strtok none (redirection '>') (strtok (some s) (redirection '>') v.saved).2).2 } := by
  simp [Vars.outputRedirection, hv, strstr, h]

theorem inputRedirection_strtok (hv : v.lineBuf = some s) (h : redirection '<' <:+: s.text) :
    v.inputRedirection = some { v with
      fileout := true
      lineBuf := (strtok (some s) (redirection '<') v.saved).1
      outfile := (strtok none (redirection '<') (strtok (some s) (redirection '<') v.saved).2).1
      saved := (strtok none (redirection '<') (strtok (some s) (redirection '<') v.saved).2).2 } := by
  simp [Vars.inputRedirection, hv, strstr, h]

theorem pipe_strtok (hv : v.lineBuf = some s) (h : '|' ∈ s.text) :
    v.pipe = some ({ v with
      ispipe := true
      lineBuf := (strtok (some s) ['|'] v.saved).1
      lineBuf2 := (strtok none ['|'] (strtok (some s) ['|'] v.saved).2).1
      saved := (strtok none ['|'] (strtok (some s) ['|'] v.saved).2).2 }, true) := by
  have hbar : ['|'] <:+: s.text := (List.singleton_infix_iff _ _).mpr h
  simp [Vars.pipe, hv, strstr, hbar]

/-- A token taken out of `lineBuf` by a redirection has no blank and no redirection in it. -/
theorem token_no_redirection (hw : Word (isDelim (redirection op)) w) (op' : Char) :
    ¬redirection op' <:+: w := by
  intro h
  have hblank : ' ' ∈ w := h.subset (List.mem_cons_self ..)
  have hplain := hw.plain _ hblank
  simp [isDelim, redirection] at hplain

theorem spells_token (hw : Word (isDelim (redirection op)) w) : Spells (isDelim [' ']) [w] w := by
  refine Spells.word (hw.anti fun a ha => ?_)
  simp only [isDelim, redirection, List.contains_cons, List.contains_nil, Bool.or_false,
    Bool.or_eq_true] at ha ⊢
  exact Or.inl ha

/-- What a redirection makes of a segment: the first word is the command, the second the target. -/
theorem outputRedirection_split (hv : v.lineBuf = some s) (h : redirection '>' <:+: s.text)
    (hs : Spells (isDelim (redirection '>')) (w :: ws) s.text) :
    ∃ o infile saved, infile.map Str.text = ws.head? ∧ v.outputRedirection =
      some { v with filein := true, lineBuf := some { offset := o, text := w }, infile, saved } := by
  rw [outputRedirection_strtok hv h, (strtok_first hs v.saved).1]
  exact ⟨_, _, _, strtok_next hs v.saved, rfl⟩

theorem inputRedirection_split (hv : v.lineBuf = some s) (h : redirection '<' <:+: s.text)
    (hs : Spells (isDelim (redirection '<')) (w :: ws) s.text) :
    ∃ o outfile saved, outfile.map Str.text = ws.head? ∧ v.inputRedirection =
      some { v with fileout := true, lineBuf := some { offset := o, text := w }, outfile, saved } := by
  rw [inputRedirection_strtok hv h, (strtok_first hs v.saved).1]
  exact ⟨_, _, _, strtok_next hs v.saved, rfl⟩

theorem pipe_split (hv : v.lineBuf = some s) (h : '|' ∈ s.text)
    (hs : Spells (isDelim ['|']) (w :: ws) s.text) :
    ∃ o lineBuf2 saved, lineBuf2.map Str.text = ws.head? ∧ v.pipe =
      some ({ v with
        ispipe := true, lineBuf := some { offset := o, text := w }, lineBuf2, saved }, true) := by
  rw [pipe_strtok hv h, (strtok_first hs v.saved).1]
  exact ⟨_, _, _, strtok_next hs v.saved, rfl⟩

theorem parse_of_stages {v₁ v₂ v₃ : Vars} {newPipe : Bool} (h₁ : v.outputRedirection = some v₁)
    (h₂ : v₁.inputRedirection = some v₂) (h₃ : v₂.pipe = some (v₃, newPipe)) :
    v.parse = some ({ v₃ with saved := (splitCmd v₃.lineBuf v₃.saved).2 },
      { newPipe
        command := (splitCmd v₃.lineBuf v₃.saved).1
        filein := if v₃.filein then some (v₃.infile.map Str.text) else none
        fileout := if v₃.fileout then some (v₃.outfile.map Str.text) else none
        ispipe := if v₃.ispipe then
          some (splitCmd v₃.lineBuf2 (splitCmd v₃.lineBuf v₃.saved).2).1 else none }) := by
  simp [Vars.parse, h₁, h₂, h₃]

/-! The texts of the syntax. -/

theorem Phrase.not_mem (phrase : Phrase) {c : Char} (hc : c ≠ ' ') (hmeta : ¬Plain c) :
    c ∉ phrase.text := by
  intro h
  rcases phrase.spells.mem h with hblank | ⟨w, hw, hcw⟩
  · exact hc (by simpa [isDelim] using hblank)
  · obtain ⟨word, -, rfl⟩ := List.mem_map.mp hw
    exact hmeta (word.plain c hcw)

theorem PlainWord.word (word : PlainWord) {delim : List Char} (hd : ∀ c ∈ delim, ¬Plain c) :
    Word (isDelim delim) word.text := by
  refine ⟨word.ne_nil, fun c hc => ?_⟩
  rw [isDelim, Bool.eq_false_iff, ne_eq, List.contains_iff_mem]
  exact fun hmem => hd c hmem (word.plain c hc)

/-- The words of a command stay what they are when there are more delimiters. -/
theorem Phrase.spells_delims (phrase : Phrase) {delim : List Char} (hblank : ' ' ∈ delim)
    (hd : ∀ c ∈ delim, ¬Plain c) :
    Spells (isDelim delim) ((phrase.first :: phrase.more).map PlainWord.text) phrase.text := by
  refine phrase.spells.mono (fun c hc => ?_) fun w hw => ?_
  · have hc' : c = ' ' := by simpa [isDelim] using hc
    rw [hc', isDelim, List.contains_iff_mem]
    exact hblank
  · obtain ⟨word, -, rfl⟩ := List.mem_map.mp hw
    exact (word.word hd).plain

theorem not_plain_redirection : ∀ op ∈ ['>', '<'], ∀ c ∈ redirection op, ¬Plain c := by
  simp [redirection, Plain]

theorem spells_redirection (word : PlainWord) (hop : op ∈ ['>', '<']) :
    Spells (isDelim (redirection op)) [word.text] (redirection op ++ word.text) := by
  have hpad : ∀ c ∈ redirection op, isDelim (redirection op) c = true := fun c hc =>
    List.contains_iff_mem.mpr hc
  have hword := word.word (not_plain_redirection op hop)
  simpa using Spells.cons hpad hword .nil (.nil (g := []) (by simp))

theorem breaks_redirection (op op' : Char) (l : List Char) :
    Breaks (isDelim (redirection op)) (redirection op' ++ l) :=
  .cons (by simp [isDelim, redirection])

theorem not_infix_redirection {t : List Char} (h : op ∉ t) : ¬redirection op <:+: t := fun h' =>
  h (h'.subset (by simp [redirection]))

/-- With an output redirection all there is to the command is its first word. -/
theorem alone_output {text : List Char} (h : redirection '>' <:+: text)
    (hs : Spells (isDelim (redirection '>')) (w :: ws) text) (hbar : '|' ∉ w) :
    ∃ job, alone text = some job ∧ job.command.argv = [some w, none] ∧
      job.filein = some ws.head? ∧ job.fileout = none ∧ job.ispipe = none := by
  have hw := hs.word_of_mem w (List.mem_cons_self ..)
  obtain ⟨o, infile, saved, htarget, hout⟩ := outputRedirection_split
    (v := { Vars.cleared with lineBuf := some { offset := 0, text } }) rfl h hs
  have hin := inputRedirection_skip (v := { Vars.cleared with
    filein := true, lineBuf := some { offset := o, text := w }, infile, saved }) rfl
    (token_no_redirection hw '<')
  have hparse := parse_of_stages hout hin (pipe_skip rfl hbar)
  refine ⟨_, by rw [alone, hparse]; rfl, ?_, ?_, rfl, rfl⟩
  · exact congrArg Command.argv (splitCmd_spells (spells_token hw))
  · rw [← htarget]
    rfl

theorem alone_input {text : List Char} (hno : ¬redirection '>' <:+: text)
    (h : redirection '<' <:+: text) (hs : Spells (isDelim (redirection '<')) (w :: ws) text)
    (hbar : '|' ∉ w) :
    ∃ job, alone text = some job ∧ job.command.argv = [some w, none] ∧
      job.filein = none ∧ job.fileout = some ws.head? ∧ job.ispipe = none := by
  have hw := hs.word_of_mem w (List.mem_cons_self ..)
  have hout := outputRedirection_skip
    (v := { Vars.cleared with lineBuf := some { offset := 0, text } }) rfl hno
  obtain ⟨o, outfile, saved, htarget, hin⟩ := inputRedirection_split
    (v := { Vars.cleared with lineBuf := some { offset := 0, text } }) rfl h hs
  have hparse := parse_of_stages hout hin (pipe_skip rfl hbar)
  refine ⟨_, by rw [alone, hparse]; rfl, ?_, rfl, ?_, rfl⟩
  · exact congrArg Command.argv (splitCmd_spells (spells_token hw))
  · rw [← htarget]
    rfl

theorem Phrase.not_mem_first (phrase : Phrase) {c : Char} (hmeta : ¬Plain c) :
    c ∉ phrase.first.text := fun h => hmeta (phrase.first.plain c h)

theorem Phrase.argv_eq_iff (phrase : Phrase) :
    [some phrase.first.text, none] = phrase.argv ↔ phrase.more = [] := by
  cases hmore : phrase.more with
  | nil => simp [Phrase.argv, hmore]
  | cons w ws => simp [Phrase.argv, hmore]

theorem parses_iff_means (seg : Segment) {job : Job} (h : alone seg.render = some job) :
    Parses seg ↔ Means seg job := by
  constructor
  · rintro ⟨job', hjob, hm⟩
    rw [h, Option.some.injEq] at hjob
    exact hjob ▸ hm
  · exact fun hm => ⟨job, h, hm⟩

/-- The command and what follows it, for the delimiters of a redirection. -/
theorem Phrase.spells_append (phrase : Phrase) (hop : op ∈ ['>', '<']) {op' : Char} {t : List Char}
    (h : Spells (isDelim (redirection op)) ws (redirection op' ++ t)) :
    Spells (isDelim (redirection op)) (phrase.first.text :: (phrase.more.map PlainWord.text ++ ws))
      (phrase.text ++ (redirection op' ++ t)) := by
  have hphrase : Spells (isDelim (redirection op)) _ phrase.text :=
    phrase.spells_delims (List.mem_cons_self ..) (not_plain_redirection op hop)
  exact hphrase.append h (breaks_redirection op op' t)

theorem Phrase.splitCmd_argv (phrase : Phrase) {p : Option Str}
    (h : p.map Str.text = some phrase.text) (saved : Str) :
    (splitCmd p saved).1.argv = phrase.argv := by
  obtain ⟨s, rfl, hs⟩ := Option.map_eq_some_iff.mp h
  have hspells : Spells (isDelim [' ']) (phrase.first.text :: phrase.more.map PlainWord.text)
      ((some s).getD saved).text := by
    rw [Option.getD_some, hs]
    exact phrase.spells
  rw [splitCmd_spells hspells, Phrase.argv]
  simp [Function.comp_def]

theorem Phrase.word (phrase : Phrase) : Word (isDelim ['|']) phrase.text := by
  refine ⟨fun hnil => ?_, fun c hc => ?_⟩
  · have hspells := phrase.spells
    rw [hnil] at hspells
    cases hspells.of_nil
  · have hbar : '|' ∉ phrase.text := phrase.not_mem (by decide) (by decide)
    have hne : c ≠ '|' := fun he => hbar (he ▸ hc)
    simpa [isDelim] using hne

/-! Each form of a segment. -/

theorem Phrase.not_mem_gt (phrase : Phrase) : '>' ∉ phrase.text :=
  phrase.not_mem (by decide) (by decide)

theorem Phrase.not_mem_lt (phrase : Phrase) : '<' ∉ phrase.text :=
  phrase.not_mem (by decide) (by decide)

theorem Phrase.not_mem_bar (phrase : Phrase) : '|' ∉ phrase.text :=
  phrase.not_mem (by decide) (by decide)

theorem parses_simple (phrase : Phrase) : Parses ⟨phrase, .simple⟩ := by
  have hjob := parse_of_stages
    (v := { Vars.cleared with lineBuf := some { offset := 0, text := phrase.text ++ [] } })
    (outputRedirection_skip rfl (not_infix_redirection (by simpa using phrase.not_mem_gt)))
    (inputRedirection_skip rfl (not_infix_redirection (by simpa using phrase.not_mem_lt)))
    (pipe_skip rfl (by simpa using phrase.not_mem_bar))
  refine ⟨_, by rw [alone, Segment.render, hjob]; rfl, ?_, rfl, rfl, rfl⟩
  exact phrase.splitCmd_argv (by simp) _

theorem parses_output_iff (phrase : Phrase) (out : PlainWord) :
    Parses ⟨phrase, .output out⟩ ↔ phrase.more = [] := by
  have hop : '>' ∈ ['>', '<'] := by decide
  have hs := phrase.spells_append hop (spells_redirection out hop)
  obtain ⟨job, hjob, hargv, hfilein, hfileout, hispipe⟩ := alone_output
    ⟨phrase.text, out.text, by simp⟩ hs (phrase.not_mem_first (by decide))
  refine (parses_iff_means ⟨phrase, .output out⟩ hjob).trans ?_
  constructor
  · exact fun hm => phrase.argv_eq_iff.mp (hargv.symm.trans hm.argv)
  · intro hmore
    refine ⟨hargv.trans (phrase.argv_eq_iff.mpr hmore), ?_, hfileout, ?_⟩
    · rw [hfilein, hmore]
      rfl
    · rw [hispipe]
      rfl

theorem parses_input_iff (phrase : Phrase) (inp : PlainWord) :
    Parses ⟨phrase, .input inp⟩ ↔ phrase.more = [] := by
  have hop : '<' ∈ ['>', '<'] := by decide
  have hs := phrase.spells_append hop (spells_redirection inp hop)
  have hno : ¬redirection '>' <:+: phrase.text ++ (redirection '<' ++ inp.text) := by
    apply not_infix_redirection
    have hinp : '>' ∉ inp.text := fun h => absurd (inp.plain _ h) (by decide)
    simp [redirection, phrase.not_mem_gt, hinp]
  obtain ⟨job, hjob, hargv, hfilein, hfileout, hispipe⟩ := alone_input hno
    ⟨phrase.text, inp.text, by simp⟩ hs (phrase.not_mem_first (by decide))
  refine (parses_iff_means ⟨phrase, .input inp⟩ hjob).trans ?_
  constructor
  · exact fun hm => phrase.argv_eq_iff.mp (hargv.symm.trans hm.argv)
  · intro hmore
    refine ⟨hargv.trans (phrase.argv_eq_iff.mpr hmore), hfilein, ?_, ?_⟩
    · rw [hfileout, hmore]
      rfl
    · rw [hispipe]
      rfl

/-- An input redirection beside an output redirection is behind the first word, where it is not
looked for any more. -/
theorem not_parses_both {seg : Segment} {inp : PlainWord} {t : List Char}
    (hrender : seg.render = seg.phrase.text ++ (redirection op ++ t))
    (h : redirection '>' <:+: seg.render) (hinput : seg.input = some inp) : ¬Parses seg := by
  obtain ⟨vs, hvs⟩ := exists_spells (isDelim (redirection '>')) (redirection op ++ t)
  have hs := seg.phrase.spells_append (List.mem_cons_self ..) hvs
  rw [← hrender] at hs
  obtain ⟨job, hjob, -, -, hfileout, -⟩ := alone_output h hs (seg.phrase.not_mem_first (by decide))
  rw [parses_iff_means seg hjob]
  intro hm
  have hinput' := hm.input
  rw [hfileout, hinput] at hinput'
  cases hinput'

theorem parses_pipe (phrase second : Phrase) : Parses ⟨phrase, .pipe second⟩ := by
  have hs : Spells (isDelim ['|']) [phrase.text, second.text]
      (phrase.text ++ '|' :: second.text) :=
    .cons (g := []) (by simp) phrase.word (.cons (by decide))
      ((Spells.word second.word).pad (by decide))
  obtain ⟨o, lineBuf2, saved, hsecond, hpipe⟩ := pipe_split
    (v := { Vars.cleared with
      lineBuf := some { offset := 0, text := phrase.text ++ '|' :: second.text } })
    rfl (by simp) hs
  have hjob := parse_of_stages
    (outputRedirection_skip rfl
      (not_infix_redirection (by simp [phrase.not_mem_gt, second.not_mem_gt])))
    (inputRedirection_skip rfl
      (not_infix_redirection (by simp [phrase.not_mem_lt, second.not_mem_lt]))) hpipe
  refine ⟨_, by rw [alone, Segment.render, hjob]; rfl, ?_, rfl, rfl, ?_⟩
  · exact phrase.splitCmd_argv rfl _
  · exact congrArg some (second.splitCmd_argv hsecond _)

/-- The shell parses a segment as it is meant exactly when it has no redirection, or one redirection
and no arguments. -/
theorem parses_iff_separable (seg : Segment) : Parses seg ↔ Separable seg := by
  obtain ⟨phrase, suffix⟩ := seg
  cases suffix with
  | simple => exact iff_of_true (parses_simple phrase) trivial
  | output out => exact parses_output_iff phrase out
  | input inp => exact parses_input_iff phrase inp
  | outputInput out inp =>
    have hrender : Segment.render ⟨phrase, .outputInput out inp⟩ = phrase.text ++
        (redirection '>' ++ (out.text ++ (redirection '<' ++ inp.text))) := by
      simp [Segment.render]
    refine iff_of_false (not_parses_both hrender ?_ rfl) id
    exact ⟨phrase.text, out.text ++ (redirection '<' ++ inp.text), by simp [Segment.render]⟩
  | inputOutput inp out =>
    have hrender : Segment.render ⟨phrase, .inputOutput inp out⟩ = phrase.text ++
        (redirection '<' ++ (inp.text ++ (redirection '>' ++ out.text))) := by
      simp [Segment.render]
    refine iff_of_false (not_parses_both hrender ?_ rfl) id
    exact ⟨phrase.text ++ (redirection '<' ++ inp.text), out.text, by simp [Segment.render]⟩
  | pipe second => exact iff_of_true (parses_pipe phrase second) trivial

def letter (c : Char) (h : Plain c) : PlainWord :=
  { text := [c], ne_nil := by simp, plain := by simpa using h }

/-- The command "a b". -/
def twoWords : Phrase where
  first := letter 'a' (by decide)
  more := [letter 'b' (by decide)]
  text := ['a', ' ', 'b']
  spells := .cons (g := []) (by simp) ((letter 'a' (by decide)).word (by simp [Plain]))
    (.cons (by decide))
    (Spells.pad (by decide) (Spells.word ((letter 'b' (by decide)).word (by simp [Plain]))))

/-- Of "a b > c" the shell makes the command "a" with its output to "b". -/
theorem argument_becomes_target :
    (alone (Segment.render ⟨twoWords, .output (letter 'c' (by decide))⟩)).map
        (fun job => (job.command.argv, job.filein)) = some ([some ['a'], none], some (some ['b'])) ∧
      ¬Parses ⟨twoWords, .output (letter 'c' (by decide))⟩ := by
  have hrun : (alone (Segment.render ⟨twoWords, .output (letter 'c' (by decide))⟩)).map
      (fun job => (job.command.argv, job.filein)) =
        some ([some ['a'], none], some (some ['b'])) := by decide
  refine ⟨hrun, ?_⟩
  rintro ⟨job, hjob, hm⟩
  rw [hjob, Option.map_some, hm.argv] at hrun
  revert hrun
  simp [Phrase.argv, twoWords]

end KernelExperiment.Shell
