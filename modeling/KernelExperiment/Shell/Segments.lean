import KernelExperiment.Shell.Lines
import Mathlib.Data.List.Forall2

/-! What the segments of one line leave to each other: the flags that an earlier one has set, with
the strings that go with them. -/

namespace KernelExperiment.Shell
open Tokens

/-- The text between two semicolons of a line without `&`. -/
structure SegmentText where
  text : List Char
  ne_nil : text ≠ []
  plain : ∀ c ∈ text, c ∉ [';', '&', nul]

def line (segs : List SegmentText) : List Char := [';'].intercalate (segs.map SegmentText.text)

def jobsOf (input : List Char) : List Job := (runLine input).elim [] Line.jobs

/-- The segments up to the first one that ends the run of the line. -/
def reached (segs : List SegmentText) : List SegmentText :=
  segs.takeWhile fun seg => decide (Runs seg.text)

/-- Each segment that is run is run as it is when it makes up a line. -/
def Independent (segs : List SegmentText) : Prop :=
  List.Forall₂ (fun job seg => jobsOf (line [seg]) = [job])
    (jobsOf (line segs)) (segs.take (jobsOf (line segs)).length)

/-- Every flag that one of the segments sets is set by all that follow it. -/
def FlagsKept (segs : List SegmentText) : Prop :=
  (reached segs).Pairwise fun seg later => ∀ f, Sets seg.text f → Sets later.text f

/-! The jobs of a line and of its segments. -/

/-- The jobs of a run are those of the segments alone exactly when every flag that is up at its
start, or gets set, is set by all segments after that. -/
theorem run_forall₂_iff (lines : List Str) (v : Vars) {jobs : List Job}
    (hjobs : (run v (lines.map some)).1 = jobs) :
    List.Forall₂ (fun job (s : Str) => ownJob s.text = some job) jobs (lines.take jobs.length) ↔
      (∀ f, v.flag f = true → ∀ s ∈ lines.take jobs.length, Sets s.text f) ∧
        (lines.take jobs.length).Pairwise fun s t => ∀ f, Sets s.text f → Sets t.text f := by
  induction lines generalizing v jobs with
  | nil =>
    subst hjobs
    simp [run]
  | cons s lines ih =>
    rw [List.map_cons] at hjobs
    obtain ⟨⟨e, -, hfresh⟩, -⟩ | ⟨r, hfresh, -, hparsed⟩ := segment_fresh s.text
    · rw [(run_cons_error hfresh).1] at hjobs
      subst hjobs
      simp
    · obtain ⟨v', hflag, -, hrun⟩ := run_cons_ok v (lines.map some) hfresh
      have hown : ownJob s.text = some r.2 := by rw [ownJob, hfresh]; rfl
      have hsets (f : Flag) : v'.flag f = true ↔ v.flag f = true ∨ Sets s.text f := by
        rw [hflag, Bool.or_eq_true, hparsed.flag]
      have hsame : some r.2 = some (r.2.after { v with lineBuf := some (s.moveTo 0) } r.1.saved) ↔
          ∀ f, v.flag f = true → Sets s.text f := by
        rw [Option.some.injEq, eq_comm, after_eq_iff]
        exact forall_congr' fun f => by rw [hparsed.job_flag, hparsed.flag]; cases f <;> rfl
      rw [hrun] at hjobs
      subst hjobs
      rw [List.length_cons, List.take_succ_cons, List.forall₂_cons, hown, hsame, ih v' rfl,
        List.pairwise_cons]
      simp only [hsets, List.mem_cons, forall_eq_or_imp]
      constructor
      · rintro ⟨hown, hleft, hpair⟩
        exact ⟨fun f hf => ⟨hown f hf, hleft f (Or.inl hf)⟩,
          fun t ht f hf => hleft f (Or.inr hf) t ht, hpair⟩
      · rintro ⟨hall, hlater, hpair⟩
        refine ⟨fun f hf => (hall f hf).1, fun f hf t ht => ?_, hpair⟩
        rcases hf with hf | hf
        · exact (hall f hf).2 t ht
        · exact hlater t ht f hf

theorem SegmentText.word (seg : SegmentText) : Word (isDelim [';']) seg.text := by
  refine ⟨seg.ne_nil, fun c hc => ?_⟩
  have hplain := seg.plain c hc
  simp only [List.mem_cons, not_or] at hplain
  simpa [isDelim] using hplain.1

theorem line_spells (segs : List SegmentText) :
    Spells (isDelim [';']) (segs.map SegmentText.text) (line segs) := by
  apply Spells.intercalate (by decide)
  intro w hw
  obtain ⟨seg, -, rfl⟩ := List.mem_map.mp hw
  exact seg.word

theorem not_mem_line (segs : List SegmentText) : ∀ c ∈ line segs, c ≠ '&' ∧ c ≠ nul := by
  intro c hc
  rcases (line_spells segs).mem hc with hsemi | ⟨w, hw, hcw⟩
  · have he : c = ';' := by simpa [isDelim] using hsemi
    rw [he]
    decide
  · obtain ⟨seg, -, rfl⟩ := List.mem_map.mp hw
    have hplain := seg.plain c hcw
    simp only [List.mem_cons, not_or] at hplain
    exact ⟨hplain.2.1, hplain.2.2.1⟩

/-- The jobs of the line come from a run over its segments with all flags down. -/
theorem jobsOf_line (segs : List SegmentText) : ∃ (v : Vars) (lines : List Str),
    (∀ f, v.flag f = false) ∧ lines.map Str.text = segs.map SegmentText.text ∧
      jobsOf (line segs) = (run v (lines.map some)).1 := by
  have hspells := line_spells segs
  have hplain := not_mem_line segs
  have hamp : cut ['&'] (line segs) = line segs :=
    if_neg fun h => (hplain _ ((List.singleton_infix_iff _ _).mp h)).1 rfl
  have hnul := cString_eq fun c hc => (hplain c hc).2
  cases segs with
  | nil => exact ⟨Vars.cleared, [], fun f => by cases f <;> rfl, rfl, rfl⟩
  | cons seg segs =>
    have hne : line (seg :: segs) ≠ [] := by
      intro hnil
      rw [hnil] at hspells
      cases hspells.of_nil
    have hsegs : Segments (line (seg :: segs)) ((seg :: segs).map SegmentText.text) := by
      rw [Segments, hamp]
      exact hspells
    obtain ⟨s, lines, hlines, htexts, -⟩ := segments_cons hsegs
    obtain ⟨l, v, hrun, hran⟩ := runLine_ran (hnul.symm ▸ hne)
    have hjobs := hran.jobs
    rw [hnul, hlines] at hjobs
    exact ⟨v, s :: lines, hran.flags, htexts, by rw [jobsOf, hrun, Option.elim_some, hjobs]⟩

theorem jobsOf_one (seg : SegmentText) : jobsOf (line [seg]) = (ownJob seg.text).toList := by
  obtain ⟨v, lines, hflags, htexts, hjobs⟩ := jobsOf_line [seg]
  obtain ⟨s, rfl, hs⟩ : ∃ s, lines = [s] ∧ s.text = seg.text := by
    simpa [List.map_eq_cons_iff] using htexts
  rw [hjobs, ownJob, ← hs, List.map_singleton]
  cases hfresh : (fresh s.text).segment with
  | error e =>
    rw [(run_cons_error hfresh).1]
    rfl
  | ok r =>
    obtain ⟨v', -, -, hrun⟩ := run_cons_ok v [] hfresh
    have hsame : r.2.after { v with lineBuf := some (s.moveTo 0) } r.1.saved = r.2 := by
      apply after_eq_iff.mpr
      intro f hf
      have hdown : v.flag f = true := by
        cases f <;> exact hf
      rw [hflags] at hdown
      cases hdown
    rw [hrun, hsame]
    rfl

/-- The shell runs the segments of a line up to the first one that ends the run. -/
theorem take_jobsOf (segs : List SegmentText) :
    segs.take (jobsOf (line segs)).length = reached segs := by
  obtain ⟨v, lines, -, htexts, hjobs⟩ := jobsOf_line segs
  have hlen : (lines.takeWhile fun s => decide (Runs s.text)).length = (reached segs).length := by
    have h := congrArg (fun texts => (texts.takeWhile fun t => decide (Runs t)).length) htexts
    rw [List.takeWhile_map, List.takeWhile_map, List.length_map, List.length_map] at h
    exact h
  have hrun := congrArg List.length (run_newPipe lines v)
  rw [List.length_map, List.length_map, hlen] at hrun
  rw [hjobs, hrun]
  exact (List.prefix_iff_eq_take.mp (List.takeWhile_prefix _)).symm

/-- The segments of a line are run independently exactly when every flag that one sets is set by
all that follow. -/
theorem independent_iff_flagsKept (segs : List SegmentText) : Independent segs ↔ FlagsKept segs := by
  obtain ⟨v, lines, hflags, htexts, hjobs⟩ := jobsOf_line segs
  have hrun := run_forall₂_iff lines v hjobs.symm
  have htake : (lines.take (jobsOf (line segs)).length).map Str.text =
      (reached segs).map SegmentText.text := by
    rw [List.map_take, htexts, ← List.map_take, take_jobsOf]
  have hleft : List.Forall₂ (fun job (s : Str) => ownJob s.text = some job) (jobsOf (line segs))
      (lines.take (jobsOf (line segs)).length) ↔ Independent segs := by
    have hone (job : Job) (text : List Char) :
        (ownJob text).toList = [job] ↔ ownJob text = some job := by
      cases ownJob text <;> simp
    have hmap := List.forall₂_map_right_iff (f := Str.text)
      (R := fun job text => ownJob text = some job) (l := jobsOf (line segs))
      (u := lines.take (jobsOf (line segs)).length)
    rw [htake, List.forall₂_map_right_iff] at hmap
    rw [← hmap, Independent, take_jobsOf]
    simp only [jobsOf_one, hone]
  have hright : (lines.take (jobsOf (line segs)).length).Pairwise
      (fun s t => ∀ f, Sets s.text f → Sets t.text f) ↔ FlagsKept segs := by
    rw [FlagsKept, ← List.pairwise_map (R := fun a b => ∀ f, Sets a f → Sets b f), htake,
      List.pairwise_map]
  rw [← hleft, hrun, hright, and_iff_right]
  intro f hf
  rw [hflags] at hf
  cases hf

def listing : SegmentText :=
  { text := ['l', 's', ' ', '>', ' ', 'a'], ne_nil := by decide, plain := by simp [nul] }

def workingDirectory : SegmentText :=
  { text := ['p', 'w', 'd'], ne_nil := by decide, plain := by simp [nul] }

/-- The second command of "ls > a;pwd" writes into the file of the first. -/
theorem target_left_over :
    (jobsOf (line [listing, workingDirectory])).map Job.filein =
        [some (some ['a']), some (some ['a'])] ∧
      ¬Independent [listing, workingDirectory] := by
  have hline : (jobsOf (line [listing, workingDirectory])).map Job.filein =
      [some (some ['a']), some (some ['a'])] := by decide +kernel
  have halone : (jobsOf (line [workingDirectory])).map Job.filein = [none] := by decide +kernel
  refine ⟨hline, fun h => ?_⟩
  obtain ⟨first, jobs, hjobs, -, hrest⟩ := List.map_eq_cons_iff.mp hline
  obtain ⟨second, rfl, hsecond⟩ := List.map_eq_singleton_iff.mp hrest
  rw [Independent, hjobs] at h
  have hpwd : jobsOf (line [workingDirectory]) = [second] := by
    simpa using (List.forall₂_cons.mp h).2
  rw [hpwd, List.map_singleton, hsecond] at halone
  cases halone

end KernelExperiment.Shell
