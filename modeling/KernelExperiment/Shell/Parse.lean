import KernelExperiment.Shell.Strings

/-! How the shell takes a command line apart: `&`, `;`, one redirection after the other, `|` and the
words of a command, all with the same `strtok`. -/

namespace KernelExperiment.Shell
open Tokens

structure Command where
  name : Option (List Char)
  argc : ℕ
  argv : List (Option (List Char))
  deriving DecidableEq

/-- The entries of `argv` behind the first are copies, with a NULL at the end. -/
def splitCmd (buffer : Option Str) (saved : Str) : Command × Str :=
  let (argv0, saved) := strtok buffer [' '] saved
  let (args, saved) := strtokAll [' '] saved.text.length saved
  let name := argv0.map Str.text
  ({ name, argc := args.length, argv := name :: args.map (fun p => some p.text) ++ [none] }, saved)

/-- The variables of `main` that a segment finds as the one before has left them. -/
structure Vars where
  lineBuf : Option Str
  lineBuf2 : Option Str
  infile : Option Str
  outfile : Option Str
  filein : Bool
  fileout : Bool
  ispipe : Bool
  saved : Str

/-- At the start of a line. `infile`, `outfile` and `lineBuf2` are assigned before they are read. -/
def Vars.cleared : Vars :=
  { lineBuf := none, lineBuf2 := none, infile := none, outfile := none, filein := false,
    fileout := false, ispipe := false, saved := { offset := 0, text := [] } }

/-- The delimiters of a redirection, each of the three characters on its own. -/
def redirection (op : Char) : List Char := [' ', op, ' ']

namespace Vars

/-! Each of the three looks into `lineBuf`; there is no result when that is NULL. -/

def outputRedirection (v : Vars) : Option Vars :=
  v.lineBuf.map fun s =>
    if strstr s (redirection '>') then
      let (lineBuf, saved) := strtok (some s) (redirection '>') v.saved
      let (infile, saved) := strtok none (redirection '>') saved
      { v with filein := true, lineBuf, infile, saved }
    else v

def inputRedirection (v : Vars) : Option Vars :=
  v.lineBuf.map fun s =>
    if strstr s (redirection '<') then
      let (lineBuf, saved) := strtok (some s) (redirection '<') v.saved
      let (outfile, saved) := strtok none (redirection '<') saved
      { v with fileout := true, lineBuf, outfile, saved }
    else v

/-- Whether the segment has a pipe of its own is known from the call of `pipe`. -/
def pipe (v : Vars) : Option (Vars × Bool) :=
  v.lineBuf.map fun s =>
    if strstr s ['|'] then
      let (lineBuf, saved) := strtok (some s) ['|'] v.saved
      let (lineBuf2, saved) := strtok none ['|'] saved
      ({ v with ispipe := true, lineBuf, lineBuf2, saved }, true)
    else (v, false)

end Vars

/-- What the parent and its children work with: the command of the first child with the targets of
its standard output and input, and the command of the second child where there is one. -/
structure Job where
  newPipe : Bool
  command : Command
  filein : Option (Option (List Char))
  fileout : Option (Option (List Char))
  ispipe : Option Command
  deriving DecidableEq

/-- How the run of a line ends. -/
inductive Ending where
  | prompt
  | exit
  | crash
  deriving DecidableEq, Repr

/-- The loop body up to the look-up of the command, with `lineBuf` set to `lines[q]`. -/
def Vars.parse (v : Vars) : Option (Vars × Job) :=
  ((v.outputRedirection.bind inputRedirection).bind pipe).map fun (v, newPipe) =>
    let (command, saved) := splitCmd v.lineBuf v.saved
    ({ v with saved },
      { newPipe
        command
        filein := if v.filein then some (v.infile.map Str.text) else none
        fileout := if v.fileout then some (v.outfile.map Str.text) else none
        -- the second child parses lineBuf2 when it has been forked
        ispipe := if v.ispipe then some (splitCmd v.lineBuf2 saved).1 else none })

/-- A segment as the only one of its line. -/
def alone (text : List Char) : Option Job :=
  ({ Vars.cleared with lineBuf := some { offset := 0, text } }.parse).map Prod.snd

/-- The loop body before `fork`, with the comparison of the name with "exit". -/
def Vars.segment (v : Vars) : Except Ending (Vars × Job) :=
  match v.parse with
  | none => .error .crash
  | some (v, job) =>
    match job.command.name with
    | none => .error .crash
    | some name =>
      if name.map Char.toLower = ['e', 'x', 'i', 't'] then .error .exit else .ok (v, job)

/-- The loop over the segments. The pointer at its end is relative to the buffer again. -/
def run : Vars → List (Option Str) → List Job × Ending × Vars
  | v, [] => ([], .prompt, v)
  | v, line :: lines =>
    let v := { v with lineBuf := line.map fun s => Str.moveTo s 0 }
    match v.segment with
    | .error e => ([], e, v)
    | .ok (v, job) =>
      let lineBuf := v.lineBuf.map fun s => Str.moveTo s (s.offset + line.elim 0 Str.offset)
      let (jobs, rest) := run { v with lineBuf } lines
      (job :: jobs, rest)

structure Line where
  jobs : List Job
  isbkg : Bool
  ending : Ending
  lineBuf : Option Str
  lineBuf3 : Option Str

/-- `lines`, the segments of a line, with the pointer `lineBuf3` and the flag `isbkg`. -/
def segments (text : List Char) : List (Option Str) × Option Str × Bool × Str :=
  let s : Str := { offset := 0, text }
  let end_ : Str := { offset := 0, text := [] }
  let (isbkg, lineBuf3, saved) :=
    if strstr s ['&'] then
      let (p, saved) := strtok (some s) ['&'] end_
      (true, p, saved)
    else (false, some s, end_)
  let (line0, saved) := strtok lineBuf3 [';'] saved
  let (more, saved) := strtokAll [';'] saved.text.length saved
  (line0 :: more.map some, lineBuf3, isbkg, saved)

/-- One pass of the prompt loop over what `gets` has read. A line without text changes nothing. -/
def runLine (input : List Char) : Option Line :=
  let text := cString input
  if text = [] then none
  else
    let (lines, lineBuf3, isbkg, saved) := segments text
    let (jobs, ending, v) := run { Vars.cleared with saved } lines
    some { jobs, isbkg, ending, lineBuf := v.lineBuf, lineBuf3 }

end KernelExperiment.Shell
