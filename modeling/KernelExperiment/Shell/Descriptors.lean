import KernelExperiment.Shell.Calls
import KernelExperiment.Lib.Runs
import Mathlib.Data.Finset.Card

/-! The file descriptors of the shell. What a line does to them is the work of its calls of `pipe`
and `close`, both of which succeed or fail by what is open. -/

namespace KernelExperiment.Shell.Descriptors
open Runs

/-- `own` is the pipe that was created for the segment being run. -/
structure Table where
  fds : Finset ℕ
  mypipe : ℕ × ℕ
  own : Option (ℕ × ℕ)
  deriving DecidableEq

/-- The lowest number that is free, one of the first that are one more than the open ones. -/
def lowest (fds : Finset ℕ) : ℕ :=
  ((List.range (fds.card + 1)).find? fun n => decide (n ∉ fds)).getD 0

theorem lowest_notMem (fds : Finset ℕ) : lowest fds ∉ fds := by
  unfold lowest
  cases hfind : (List.range (fds.card + 1)).find? fun n => decide (n ∉ fds) with
  | some n =>
    have hfree := List.find?_some hfind
    exact of_decide_eq_true hfree
  | none =>
    have hsub : Finset.range (fds.card + 1) ⊆ fds := by
      intro n hn
      have hopen := List.find?_eq_none.mp hfind n (List.mem_range.mpr (Finset.mem_range.mp hn))
      simpa using hopen
    have hcard := Finset.card_le_card hsub
    rw [Finset.card_range] at hcard
    exact absurd hcard (Nat.not_succ_le_self _)

namespace Table

def fd (s : Table) : End → ℕ
  | .read => s.mypipe.1
  | .write => s.mypipe.2

/-- A `close` of a number that is not open fails. -/
def call (s : Table) : Call → Table
  | .pipe =>
    let r := lowest s.fds
    let w := lowest (insert r s.fds)
    { fds := insert w (insert r s.fds), mypipe := (r, w), own := some (r, w) }
  | .close e => { s with fds := s.fds.erase (s.fd e) }
  | .fork | .wait => s

def job (isbkg : Bool) (s : Table) (j : Job) : Table :=
  (j.calls isbkg).foldl call { s with own := none }

def line (s : Table) (l : Line) : Table := l.jobs.foldl (job l.isbkg) s

/-- One pass of the prompt loop. -/
def step (s : Table) (input : List Char) : Outcome Table :=
  match runLine input with
  | none => .ok s
  | some l =>
    match l.ending with
    | .prompt => .ok (s.line l)
    | .exit => .blocked
    | .crash => .fault

/-- The call does not name a descriptor other than the ends of the own pipe. -/
def NamesOwn (s : Table) : Call → Prop
  | .close e => ∃ p, s.own = some p ∧ (s.fd e = p.1 ∨ s.fd e = p.2)
  | _ => True

/-- The call does not close a descriptor other than the ends of the own pipe. -/
def ClosesOwn (s : Table) : Call → Prop
  | .close e => s.fd e ∈ s.fds → s.NamesOwn (.close e)
  | _ => True

def InJob (P : Table → Call → Prop) (isbkg : Bool) (s : Table) (j : Job) : Prop :=
  Meets (fun s c => .ok (s.call c)) P { s with own := none } (j.calls isbkg)

/-- All calls of the line are made in a state that allows them. -/
def InLine (P : Table → Call → Prop) (s : Table) (input : List Char) : Prop :=
  ∀ l, runLine input = some l → Meets (fun s j => .ok (s.job l.isbkg j)) (InJob P l.isbkg) s l.jobs

end Table

/-- A line with `&` that comes back to the prompt, if it does, has no pipe. -/
def Leakless (text : List Char) : Prop :=
  ∀ ws, Segments text ws → Returns ws → ['&'] <:+: text → ∀ w ∈ ws, ¬Sets w .ispipe

/-- A segment with a pipe is followed by segments with a pipe only, as far as the line is run. -/
def PipesLast (text : List Char) : Prop :=
  ∀ ws, Segments text ws → (ws.takeWhile fun w => decide (Runs w)).Pairwise
    fun w later => Sets w .ispipe → Sets later .ispipe

variable {s t : Table} {isbkg up : Bool} {j : Job} {jobs : List Job}

/-- What is left of a pipe of the line that is not that of the segment any more. -/
def Settled (isbkg : Bool) (s : Table) : Prop :=
  s.mypipe.2 ∉ s.fds ∧ (isbkg = false → s.mypipe.1 ∉ s.fds)

/-- The ends of the pipe that would be created. -/
def opened (s : Table) : ℕ × ℕ := (lowest s.fds, lowest (insert (lowest s.fds) s.fds))

theorem opened_fst (s : Table) : (opened s).1 ∉ s.fds := lowest_notMem s.fds

theorem opened_snd (s : Table) : (opened s).2 ∉ insert (opened s).1 s.fds := lowest_notMem _

/-! A segment with a pipe of its own, one that finds the flag up, and one without. -/

theorem job_own (s : Table) (isbkg : Bool) (hnew : j.newPipe = true)
    (hup : j.ispipe.isSome = true) :
    s.job isbkg j =
      { fds := if isbkg then insert (opened s).1 s.fds else s.fds
        mypipe := opened s
        own := some (opened s) } := by
  have hfst := opened_fst s
  have hsnd := opened_snd s
  cases isbkg with
  | true =>
    simp only [Table.job, Job.calls, hnew, hup]
    show Table.mk ((insert (opened s).2 (insert (opened s).1 s.fds)).erase (opened s).2) _ _ = _
    rw [Finset.erase_insert hsnd]
    rfl
  | false =>
    simp only [Table.job, Job.calls, hnew, hup]
    show Table.mk (((insert (opened s).2 (insert (opened s).1 s.fds)).erase (opened s).2).erase
      (opened s).1) _ _ = _
    rw [Finset.erase_insert hsnd, Finset.erase_insert hfst]
    rfl

theorem job_stale (hnew : j.newPipe = false) (hup : j.ispipe.isSome = true)
    (hs : Settled isbkg s) : s.job isbkg j = { s with own := none } := by
  cases isbkg with
  | true =>
    simp only [Table.job, Job.calls, hnew, hup]
    show Table.mk (s.fds.erase s.mypipe.2) _ _ = _
    rw [Finset.erase_eq_of_notMem hs.1]
    rfl
  | false =>
    simp only [Table.job, Job.calls, hnew, hup]
    show Table.mk ((s.fds.erase s.mypipe.2).erase s.mypipe.1) _ _ = _
    rw [Finset.erase_eq_of_notMem hs.1, Finset.erase_eq_of_notMem (hs.2 rfl)]
    rfl

theorem job_plain (hnew : j.newPipe = false) (hup : j.ispipe.isSome = false) :
    s.job isbkg j = { s with own := none } := by
  cases isbkg <;> simp only [Table.job, Job.calls, hnew, hup] <;> rfl

theorem closesOwn_of_namesOwn {c : Call} (h : s.NamesOwn c) : s.ClosesOwn c := by
  cases c with
  | close e => exact fun _ => h
  | _ => trivial

theorem inJob_own (s : Table) (isbkg : Bool) (hnew : j.newPipe = true)
    (hup : j.ispipe.isSome = true) : s.InJob Table.NamesOwn isbkg j := by
  cases isbkg <;>
    simp [Table.InJob, Job.calls, hnew, hup, Meets, Table.call, Table.NamesOwn, Table.fd]

theorem inJob_stale (hnew : j.newPipe = false) (hup : j.ispipe.isSome = true)
    (hs : Settled isbkg s) : s.InJob Table.ClosesOwn isbkg j ∧ ¬s.InJob Table.NamesOwn isbkg j := by
  obtain ⟨hwrite, hread⟩ := hs
  cases isbkg <;>
    simp [Table.InJob, Job.calls, hnew, hup, Meets, Table.call, Table.ClosesOwn, Table.NamesOwn,
      Table.fd, hwrite, hread]

theorem inJob_plain (s : Table) (isbkg : Bool) (hnew : j.newPipe = false)
    (hup : j.ispipe.isSome = false) : s.InJob Table.NamesOwn isbkg j := by
  cases isbkg <;> simp [Table.InJob, Job.calls, hnew, hup, Meets, Table.NamesOwn]

/-- What a segment does to the table and to what its pipe, or an older one, leaves behind. -/
structure JobDone (isbkg up : Bool) (s : Table) (j : Job) : Prop where
  fds : (s.job isbkg j).fds = if isbkg && j.newPipe then insert (lowest s.fds) s.fds else s.fds
  settled : (up || j.newPipe) = true → Settled isbkg (s.job isbkg j)
  closesOwn : s.InJob Table.ClosesOwn isbkg j
  namesOwn : s.InJob Table.NamesOwn isbkg j ↔ (up = true → j.newPipe = true)

theorem inJob_closesOwn (h : s.InJob Table.NamesOwn isbkg j) : s.InJob Table.ClosesOwn isbkg j :=
  Meets.imp (I := fun _ => True) (fun _ _ _ _ _ _ => trivial)
    (fun _ _ _ => closesOwn_of_namesOwn) trivial h

theorem jobDone (hflag : j.ispipe.isSome = (up || j.newPipe))
    (hs : up = true → Settled isbkg s) : JobDone isbkg up s j := by
  cases hnew : j.newPipe with
  | true =>
    have hup : j.ispipe.isSome = true := by rw [hflag, hnew, Bool.or_true]
    have hjob := job_own s isbkg hnew hup
    have hnames := inJob_own s isbkg hnew hup
    refine ⟨?_, fun _ => ?_, inJob_closesOwn hnames, iff_of_true hnames fun _ => hnew⟩
    · rw [hjob, hnew, Bool.and_true]
      rfl
    · rw [hjob]
      have hsnd := opened_snd s
      cases isbkg with
      | true => exact ⟨hsnd, nofun⟩
      | false => exact ⟨fun h => hsnd (Finset.mem_insert_of_mem h), fun _ => opened_fst s⟩
  | false =>
    rw [hnew, Bool.or_false] at hflag
    cases up with
    | true =>
      have hjob := job_stale hnew hflag (hs rfl)
      obtain ⟨hcloses, hnames⟩ := inJob_stale hnew hflag (hs rfl)
      refine ⟨?_, fun _ => ?_, hcloses, iff_of_false hnames fun h => ?_⟩
      · rw [hjob, hnew, Bool.and_false]
        rfl
      · rw [hjob]
        exact hs rfl
      · rw [hnew] at h
        cases h rfl
    | false =>
      have hnames := inJob_plain s isbkg hnew hflag
      refine ⟨?_, fun h => ?_, inJob_closesOwn hnames, iff_of_true hnames nofun⟩
      · rw [job_plain hnew hflag, hnew, Bool.and_false]
        rfl
      · rw [hnew] at h
        cases h

/-! A row of segments. -/

theorem jobs_fds (h : PipesFrom up jobs) (hs : up = true → Settled isbkg s) :
    s.fds ⊆ (jobs.foldl (Table.job isbkg) s).fds ∧
      ((jobs.foldl (Table.job isbkg) s).fds = s.fds ↔
        (isbkg = true → ∀ j ∈ jobs, j.newPipe = false)) := by
  induction jobs generalizing s up with
  | nil => exact ⟨Finset.Subset.refl _, iff_of_true rfl fun _ _ hj => nomatch hj⟩
  | cons j jobs ih =>
    have hdone := jobDone h.1 hs
    obtain ⟨hsub, heq⟩ := ih h.2 hdone.settled
    have hfds := hdone.fds
    rw [List.foldl_cons, List.forall_mem_cons]
    cases hleak : isbkg && j.newPipe with
    | true =>
      rw [Bool.and_eq_true] at hleak
      rw [hleak.1, hleak.2, Bool.and_self, if_pos rfl] at hfds
      rw [hleak.1] at hsub ⊢
      rw [hfds] at hsub
      refine ⟨(Finset.subset_insert _ _).trans hsub, iff_of_false (fun h' => ?_) fun h' => ?_⟩
      · rw [h'] at hsub
        exact lowest_notMem s.fds (hsub (Finset.mem_insert_self _ _))
      · have hfalse := (h' rfl).1
        rw [hleak.2] at hfalse
        cases hfalse
    | false =>
      rw [hleak] at hfds
      rw [if_neg Bool.false_ne_true] at hfds
      rw [hfds] at hsub heq
      refine ⟨hsub, heq.trans (forall_congr' fun hbkg => ?_)⟩
      rw [hbkg, Bool.true_and] at hleak
      rw [and_iff_right hleak]

theorem jobs_closesOwn (h : PipesFrom up jobs) (hs : up = true → Settled isbkg s) :
    Meets (fun s j => .ok (s.job isbkg j)) (Table.InJob Table.ClosesOwn isbkg) s jobs := by
  induction jobs generalizing s up with
  | nil => trivial
  | cons j jobs ih =>
    have hdone := jobDone h.1 hs
    exact ⟨hdone.closesOwn, ih h.2 hdone.settled⟩

theorem jobs_namesOwn (h : PipesFrom up jobs) (hs : up = true → Settled isbkg s) :
    Meets (fun s j => .ok (s.job isbkg j)) (Table.InJob Table.NamesOwn isbkg) s jobs ↔
      (up = true → ∀ j ∈ jobs, j.newPipe = true) ∧
        jobs.Pairwise fun j later => j.newPipe = true → later.newPipe = true := by
  induction jobs generalizing s up with
  | nil => simp [Meets]
  | cons j jobs ih =>
    have hdone := jobDone h.1 hs
    rw [meets_cons_ok rfl, hdone.namesOwn, ih h.2 hdone.settled, List.pairwise_cons,
      Bool.or_eq_true]
    simp only [List.mem_cons, forall_eq_or_imp]
    constructor
    · rintro ⟨hj, hlater, hpair⟩
      exact ⟨fun hup => ⟨hj hup, hlater (Or.inl hup)⟩, fun k hk hnew => hlater (Or.inr hnew) k hk,
        hpair⟩
    · rintro ⟨hup, hlater, hpair⟩
      exact ⟨fun h' => (hup h').1,
        fun h' k hk => h'.elim (fun h' => (hup h').2 k hk) (hlater k hk), hpair⟩

/-! A line of the session. -/

/-- The segments of a line that are run, and their pipes. -/
theorem runLine_newPipe {input : List Char} {l : Line} {ws : List (List Char)}
    (h : runLine input = some l) (hws : Segments (cString input) ws) :
    l.jobs.map Job.newPipe =
      (ws.takeWhile fun w => decide (Runs w)).map fun w => decide (Sets w .ispipe) := by
  obtain ⟨-, v, hran⟩ := runLine_cases h
  cases ws with
  | nil =>
    rw [hran.jobs, segments_nil hws, run_none]
    rfl
  | cons w ws =>
    obtain ⟨u, lines, hlines, htexts, -⟩ := segments_cons hws
    rw [hran.jobs, hlines, run_newPipe, ← htexts, List.takeWhile_map, List.map_map]
    rfl

variable {input : List Char}

theorem inLine_closesOwn (s : Table) (input : List Char) : s.InLine Table.ClosesOwn input :=
  fun _ hl => jobs_closesOwn (runLine_pipesFrom hl) nofun

theorem inLine_namesOwn_iff : s.InLine Table.NamesOwn input ↔ PipesLast (cString input) := by
  cases hl : runLine input with
  | none =>
    refine iff_of_true (fun l h => by rw [hl] at h; cases h) fun ws hws => ?_
    rw [runLine_eq_none.mp hl] at hws
    rw [hws.of_nil]
    exact List.Pairwise.nil
  | some l =>
    obtain ⟨ws, hws⟩ := exists_segments (cString input)
    have hpipes : (ws.takeWhile fun w => decide (Runs w)).Pairwise
        (fun w later => Sets w .ispipe → Sets later .ispipe) ↔
          l.jobs.Pairwise fun j later => j.newPipe = true → later.newPipe = true := by
      rw [← List.pairwise_map (f := Job.newPipe) (R := fun a b => a = true → b = true),
        runLine_newPipe hl hws, List.pairwise_map]
      simp only [decide_eq_true_iff]
    have hlast : PipesLast (cString input) ↔ (ws.takeWhile fun w => decide (Runs w)).Pairwise
        fun w later => Sets w .ispipe → Sets later .ispipe :=
      ⟨fun h => h ws hws, fun h ws' hws' => hws.unique hws' ▸ h⟩
    have hline : s.InLine Table.NamesOwn input ↔
        Meets (fun s j => .ok (s.job l.isbkg j)) (Table.InJob Table.NamesOwn l.isbkg) s l.jobs :=
      ⟨fun h => h l hl, fun h l' hl' => Option.some.inj (hl.symm.trans hl') ▸ h⟩
    rw [hline, jobs_namesOwn (runLine_pipesFrom hl) nofun, hlast, hpipes]
    exact and_iff_right nofun

theorem line_fds_iff {l : Line} (hl : runLine input = some l) (hending : l.ending = .prompt) :
    (s.line l).fds = s.fds ↔ Leakless (cString input) := by
  obtain ⟨-, v, hran⟩ := runLine_cases hl
  obtain ⟨ws, hws⟩ := exists_segments (cString input)
  have hreturns := (run_returns_iff hws v).mp (hran.ending.symm.trans hending)
  have hall : (ws.takeWhile fun w => decide (Runs w)) = ws := by
    rw [List.takeWhile_eq_self_iff]
    exact fun w hw => decide_eq_true (hreturns.2 w hw)
  have hnew := runLine_newPipe hl hws
  rw [hall] at hnew
  have hjobs : (∀ j ∈ l.jobs, j.newPipe = false) ↔ ∀ w ∈ ws, ¬Sets w .ispipe := by
    rw [← List.forall_mem_map (f := Job.newPipe) (P := fun b => b = false), hnew,
      List.forall_mem_map]
    simp only [decide_eq_false_iff_not]
  rw [Table.line, (jobs_fds (runLine_pipesFrom hl) nofun).2, hjobs, hran.isbkg, decide_eq_true_iff]
  exact ⟨fun h ws' hws' _ => hws.unique hws' ▸ h, fun h => h ws hws hreturns⟩

/-- A pass that comes back to the prompt leaves the table as it was exactly when its line is
leakless. -/
theorem step_fds_iff (h : s.step input = .ok t) : t.fds = s.fds ↔ Leakless (cString input) := by
  unfold Table.step at h
  split at h
  next hnone =>
    cases h
    rw [runLine_eq_none.mp hnone]
    exact iff_of_true rfl fun ws hws hreturns => absurd hws.of_nil hreturns.1
  next l hl =>
    split at h <;> cases h
    exact line_fds_iff hl ‹_›

theorem leakless_of_stuck (h : ∀ t, s.step input ≠ .ok t) : Leakless (cString input) := by
  intro ws hws hreturns
  cases hl : runLine input with
  | none => exact absurd (by rw [Table.step, hl]) (h s)
  | some l =>
    obtain ⟨-, v, hran⟩ := runLine_cases hl
    have hending := hran.ending.trans ((run_returns_iff hws v).mpr hreturns)
    exact absurd (by rw [Table.step, hl]; dsimp only; rw [hending]) (h (s.line l))

/-- The table survives a session exactly when no line with `&` has a pipe; nothing else is closed
in any case. A `close` only fails behind the last pipe of a line. -/
theorem fds_iff_leakless (s : Table) (inputs : List (List Char)) :
    ((Always Table.step (fun t => t.fds = s.fds) s inputs ∧
        Meets Table.step (Table.InLine Table.ClosesOwn) s inputs) ↔
      Meets Table.step (fun _ input => Leakless (cString input)) s inputs) ∧
    (Meets Table.step (Table.InLine Table.NamesOwn) s inputs ↔
      Meets Table.step (fun _ input => PipesLast (cString input)) s inputs) := by
  constructor
  · rw [and_iff_left (Meets.of_forall fun s input _ => inLine_closesOwn s input)]
    refine always_iff_meets (fun u input t hu h => ?_) (fun _ _ _ => leakless_of_stuck) rfl
    rw [← hu]
    exact step_fds_iff h
  · exact meets_congr (I := fun _ => True) (fun _ _ _ _ _ => trivial)
      (fun _ _ _ => inLine_namesOwn_iff) trivial

/-- The standard descriptors. -/
def standard : Table := { fds := {0, 1, 2}, mypipe := (0, 0), own := none }

/-- "a|b&" leaves the reading end of its pipe open. -/
theorem pipe_end_leaks :
    (standard.step ['a', '|', 'b', '&']).map Table.fds = .ok {3, 0, 1, 2} ∧
      ¬Always Table.step (fun t => t.fds = standard.fds) standard [['a', '|', 'b', '&']] := by
  have hstep : (standard.step ['a', '|', 'b', '&']).map Table.fds = .ok {3, 0, 1, 2} := by
    decide +kernel
  refine ⟨hstep, fun h => ?_⟩
  obtain ⟨t, ht, hfds⟩ := Outcome.map_eq_ok.mp hstep
  have hkept : t.fds = standard.fds := ((always_cons_ok ht).mp h).2
  rw [hkept] at hfds
  exact absurd hfds (by decide)

end KernelExperiment.Shell.Descriptors
