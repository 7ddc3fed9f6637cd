import KernelExperiment.Shell.Lines

/-! The system calls that the parent makes for a line. Whether a segment has a pipe of its own and
whether it goes through the branches for a pipe are two things. -/

namespace KernelExperiment.Shell

/-- `mypipe[0]` and `mypipe[1]`. -/
inductive End where
  | read
  | write
  deriving DecidableEq, Repr

inductive Call where
  | pipe
  | fork
  | close (e : End)
  | wait
  deriving DecidableEq, Repr

/-- One segment, from `pipe` to the last `wait`. The second child is forked where the flag is up. -/
def Job.calls (isbkg : Bool) (job : Job) : List Call :=
  (if job.newPipe then [.pipe] else []) ++ [.fork] ++
    (if job.ispipe.isSome then [.close .write, .fork] else []) ++
    if isbkg then []
    else .wait :: if job.ispipe.isSome then [.close .read, .wait] else []

def Line.calls (line : Line) : List Call := line.jobs.flatMap (Job.calls line.isbkg)

/-- In a row of jobs the flag is up from the first pipe on, or from the start. -/
def PipesFrom : Bool → List Job → Prop
  | _, [] => True
  | up, job :: jobs =>
    job.ispipe.isSome = (up || job.newPipe) ∧ PipesFrom (up || job.newPipe) jobs

theorem run_pipesFrom (lines : List Str) (v : Vars) :
    PipesFrom v.ispipe (run v (lines.map some)).1 := by
  induction lines generalizing v with
  | nil => trivial
  | cons s lines ih =>
    rw [List.map_cons]
    obtain ⟨⟨e, -, hfresh⟩, -⟩ | ⟨r, hfresh, -, hparsed⟩ := segment_fresh s.text
    · rw [(run_cons_error hfresh).1]
      trivial
    · obtain ⟨v', hflag, -, hrun⟩ := run_cons_ok v (lines.map some) hfresh
      have hnew : r.1.flag .ispipe = r.2.newPipe := by
        rw [Bool.eq_iff_iff, hparsed.flag, hparsed.newPipe]
      have hup : v'.ispipe = (v.ispipe || r.2.newPipe) := (hflag .ispipe).trans (by rw [hnew]; rfl)
      rw [hrun]
      refine ⟨?_, ?_⟩
      · apply (after_flag _ _ _ .ispipe).trans
        rw [hparsed.job_flag, hnew, Bool.or_comm]
        rfl
      · show PipesFrom (v.ispipe || r.2.newPipe) _
        rw [← hup]
        exact ih v'

theorem runLine_pipesFrom {input : List Char} {line : Line} (h : runLine input = some line) :
    PipesFrom false line.jobs := by
  obtain ⟨-, v, hran⟩ := runLine_cases h
  obtain ⟨ws, hws⟩ := exists_segments (cString input)
  cases ws with
  | nil =>
    rw [hran.jobs, segments_nil hws, run_none]
    trivial
  | cons w ws =>
    obtain ⟨s, lines, hlines, -⟩ := segments_cons hws
    rw [hran.jobs, hlines, ← hran.flags .ispipe]
    exact run_pipesFrom (s :: lines) v

end KernelExperiment.Shell
