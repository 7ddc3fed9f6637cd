import KernelExperiment.Shell.Stages

/-! One line of input: the text in front of the first `&` that is not at its start, and the segments
between the semicolons of it. -/

namespace KernelExperiment.Shell
open Tokens

variable {text w : List Char} {ws : List (List Char)} {v : Vars}

/-- The segments of a line. -/
def Segments (text : List Char) (ws : List (List Char)) : Prop :=
  Spells (isDelim [';']) ws (cut ['&'] text)

/-- The shell comes back to the prompt after these segments. -/
def Returns (ws : List (List Char)) : Prop := ws ≠ [] ∧ ∀ w ∈ ws, Runs w

theorem exists_segments (text : List Char) : ∃ ws, Segments text ws :=
  exists_spells (isDelim [';']) (cut ['&'] text)

/-- A lone delimiter is skipped where it occurs. -/
theorem length_takeWhile_isDelim (c : Char) (text : List Char) :
    (text.takeWhile (isDelim [c])).length = skip [c] text := by
  unfold skip
  split_ifs with h
  · rfl
  · rw [List.length_eq_zero_iff, List.takeWhile_eq_nil_iff]
    intro hpos hdelim
    have hc : text[0] = c := by simpa [isDelim] using hdelim
    exact h ((List.singleton_infix_iff _ _).mpr (hc ▸ List.getElem_mem hpos))

/-- Once there is nothing in front of the `&`, `strtok` finds no segment either. -/
theorem segments_eq (text : List Char) : ∃ saved : Str,
    ((took ['&'] { offset := 0, text }).getD saved).text = cut ['&'] text ∧
      segments text =
        ((strtok (took ['&'] { offset := 0, text }) [';'] saved).1 ::
          (strtokAll [';'] (strtok (took ['&'] { offset := 0, text }) [';'] saved).2.text.length
            (strtok (took ['&'] { offset := 0, text }) [';'] saved).2).1.map some,
        took ['&'] { offset := 0, text }, decide (['&'] <:+: text),
        (strtokAll [';'] (strtok (took ['&'] { offset := 0, text }) [';'] saved).2.text.length
            (strtok (took ['&'] { offset := 0, text }) [';'] saved).2).2) := by
  by_cases h : ['&'] <:+: text
  · refine ⟨(strtok (some { offset := 0, text }) ['&'] { offset := 0, text := [] }).2, ?_, ?_⟩
    · cases hp : took ['&'] { offset := 0, text } with
      | some t => exact took_text hp
      | none =>
        have hcut := cut_of_took_none hp
        dsimp only at hcut
        have hfirst : first (isDelim ['&']) text = [] := by rwa [cut, if_pos h] at hcut
        rw [Option.getD_none, strtok_snd_text, Option.getD_some, rest_of_first_nil hfirst, hcut]
    · simp only [segments, strstr, took, h, decide_true, if_true]
      rfl
  · refine ⟨{ offset := 0, text := [] }, ?_, ?_⟩
    · rw [took, if_neg h, cut, if_neg h, Option.getD_some]
    · simp only [segments, strstr, took, h, decide_false, if_false, Bool.false_eq_true]

theorem segments_nil (hs : Segments text []) : (segments text).1 = [none] := by
  obtain ⟨saved, htext, heq⟩ := segments_eq text
  unfold Segments at hs
  rw [← htext] at hs
  obtain ⟨hnone, hend⟩ := strtok_of_nil hs
  rw [heq, hnone, hend]
  rfl

/-- In front of the `&` there is a text as soon as there is a segment. -/
theorem Segments.took (hs : Segments text (w :: ws)) :
    ∃ p, took ['&'] { offset := 0, text } = some p ∧ p.offset = skip ['&'] text := by
  cases hp : Shell.took ['&'] { offset := 0, text } with
  | some p => exact ⟨p, rfl, (took_offset hp).trans (Nat.zero_add _)⟩
  | none =>
    have hcut : cut ['&'] text = [] := cut_of_took_none hp
    unfold Segments at hs
    rw [hcut] at hs
    cases hs.of_nil

/-- Where the segments of a line are in its buffer. -/
theorem segments_cons (hs : Segments text (w :: ws)) : ∃ (s : Str) (lines : List Str),
    (segments text).1 = (s :: lines).map some ∧ (s :: lines).map Str.text = w :: ws ∧
      s.offset = skip ['&'] text + skip [';'] (cut ['&'] text) ∧
      ∀ t ∈ lines, s.offset < t.offset := by
  obtain ⟨p, hp, hoffset⟩ := hs.took
  obtain ⟨saved, htext, heq⟩ := segments_eq text
  rw [hp] at htext heq
  rw [Option.getD_some] at htext
  unfold Segments at hs
  rw [← htext] at hs
  obtain ⟨hfirst, hrest⟩ := strtok_first hs saved
  obtain ⟨hmap, -⟩ := strtokAll_spells (Nat.le_refl _) hrest
  have hlt := strtok_offset_lt hfirst
  rw [htext, length_takeWhile_isDelim, hoffset] at hfirst hlt
  generalize strtok (some p) [';'] saved = r at heq hfirst hlt hmap
  refine ⟨_, (strtokAll [';'] r.2.text.length r.2).1, ?_, ?_, rfl,
    fun t ht => hlt.trans_le (strtokAll_offset t ht)⟩
  · rw [heq, hfirst]
    rfl
  · rw [List.map_cons, hmap]

theorem Segments.unique {ws' : List (List Char)} (h : Segments text ws) (h' : Segments text ws') :
    ws = ws' := by
  have heq {ws : List (List Char)} (h : Segments text ws) :
      (segments text).1.filterMap (Option.map Str.text) = ws := by
    cases ws with
    | nil => rw [segments_nil h]; rfl
    | cons w ws =>
      obtain ⟨s, lines, hlines, htexts, -⟩ := segments_cons h
      rw [hlines, ← htexts, List.filterMap_map, ← List.filterMap_eq_map]
      rfl
  rw [← heq h, heq h']

theorem Segments.of_nil (h : Segments [] ws) : ws = [] := by
  unfold Segments at h
  rw [cut_nil] at h
  exact h.of_nil

theorem segments_lineBuf3 (text : List Char) :
    (segments text).2.1 = took ['&'] { offset := 0, text } := by
  obtain ⟨saved, -, heq⟩ := segments_eq text
  rw [heq]

theorem segments_isbkg (text : List Char) :
    (segments text).2.2.1 = decide (['&'] <:+: text) := by
  obtain ⟨saved, -, heq⟩ := segments_eq text
  rw [heq]

/-- What a line with text comes from: a run with all flags down. -/
structure Line.Ran (line : Line) (text : List Char) (v : Vars) : Prop where
  flags : ∀ f, v.flag f = false
  jobs : line.jobs = (run v (segments text).1).1
  isbkg : line.isbkg = decide (['&'] <:+: text)
  ending : line.ending = (run v (segments text).1).2.1
  lineBuf : line.lineBuf = (run v (segments text).1).2.2.lineBuf
  lineBuf3 : line.lineBuf3 = took ['&'] { offset := 0, text }

theorem runLine_of_nil {input : List Char} (h : cString input = []) : runLine input = none := by
  rw [runLine]
  dsimp only
  rw [if_pos h]

theorem runLine_ran {input : List Char} (h : cString input ≠ []) :
    ∃ line v, runLine input = some line ∧ line.Ran (cString input) v := by
  have hisbkg := segments_isbkg (cString input)
  have hlineBuf3 := segments_lineBuf3 (cString input)
  rcases hsegs : segments (cString input) with ⟨lines, lineBuf3, isbkg, saved⟩
  rw [hsegs] at hisbkg hlineBuf3
  rcases hrun : run { Vars.cleared with saved } lines with ⟨jobs, ending, v⟩
  refine ⟨{ jobs, isbkg, ending, lineBuf := v.lineBuf, lineBuf3 },
    { Vars.cleared with saved }, ?_, fun f => by cases f <;> rfl, ?_, hisbkg, ?_, ?_, hlineBuf3⟩
  · rw [runLine]
    simp only [if_neg h, hsegs, hrun]
  all_goals simp only [hsegs, hrun]

theorem runLine_eq_none {input : List Char} : runLine input = none ↔ cString input = [] := by
  refine ⟨fun h => ?_, runLine_of_nil⟩
  by_contra hne
  obtain ⟨line, v, hline, -⟩ := runLine_ran hne
  rw [h] at hline
  cases hline

theorem runLine_cases {input : List Char} {line : Line} (h : runLine input = some line) :
    cString input ≠ [] ∧ ∃ v, line.Ran (cString input) v := by
  have hne : cString input ≠ [] := by
    rw [ne_eq, ← runLine_eq_none, h]
    nofun
  obtain ⟨line', v, hline, hran⟩ := runLine_ran hne
  rw [h, Option.some.injEq] at hline
  exact ⟨hne, v, hline ▸ hran⟩

theorem run_none (v : Vars) : run v [none] = ([], .crash, { v with lineBuf := none }) := by
  rfl

theorem run_returns_iff (hs : Segments text ws) (v : Vars) :
    (run v (segments text).1).2.1 = .prompt ↔ Returns ws := by
  cases ws with
  | nil =>
    rw [segments_nil hs, run_none]
    exact iff_of_false nofun fun h => h.1 rfl
  | cons w ws =>
    obtain ⟨s, lines, hlines, htexts, -⟩ := segments_cons hs
    rw [hlines, run_prompt_iff, Returns, ← htexts, and_iff_right (by simp), List.forall_mem_map]

end KernelExperiment.Shell
