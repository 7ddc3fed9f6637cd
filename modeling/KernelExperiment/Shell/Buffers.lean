import KernelExperiment.Shell.Lines
import KernelExperiment.Lib.Runs

/-! The buffers of the prompt loop. `lineBuf` and `lineBuf3` point to blocks of their own at first;
each line moves both to where `strtok` has left them in the block of `lineBuf3`. -/

namespace KernelExperiment.Shell.Buffers
open Tokens Runs

def LS : ℕ := 80

/-- The blocks are allocated at start and freed behind the endless loop. -/
inductive Block where
  | lineBuf
  | lineBuf3
  deriving DecidableEq, Repr

def Block.size : Block → ℕ
  | .lineBuf | .lineBuf3 => LS + 1

structure Ptr where
  block : Block
  offset : ℕ
  deriving DecidableEq, Repr

namespace Ptr

/-- The bytes from `p` to the end of its block. -/
def room (p : Ptr) : ℕ := p.block.size - p.offset

/-- The pointer to a string in the buffer at `p`. -/
def shift (p : Ptr) (s : Str) : Ptr := { p with offset := p.offset + s.offset }

def Fits (p : Ptr) : Prop := LS + 1 ≤ p.room

instance (p : Ptr) : Decidable p.Fits := inferInstanceAs (Decidable (_ ≤ _))

theorem fits_iff {p : Ptr} : p.Fits ↔ p.offset = 0 := by
  unfold Fits room
  cases p.block <;> simp only [Block.size] <;> omega

end Ptr

structure Input where
  text : List Char
  length_le : text.length ≤ LS

structure Sys where
  lineBuf : Option Ptr
  lineBuf3 : Option Ptr
  deriving DecidableEq, Repr

namespace Sys

def start : Sys :=
  { lineBuf := some { block := .lineBuf, offset := 0 }
    lineBuf3 := some { block := .lineBuf3, offset := 0 } }

/-- One pass of the prompt loop: `bzero(lineBuf, LS+1)`, `gets(lineBuf3)` and the line. -/
def step (s : Sys) (input : Input) : Outcome Sys :=
  match s.lineBuf, s.lineBuf3 with
  | some p, some p3 =>
    if LS + 1 ≤ p.room ∧ input.text.length + 1 ≤ p3.room then
      match runLine input.text with
      | none => .ok s
      | some line =>
        match line.ending with
        | .prompt =>
          .ok { lineBuf := line.lineBuf.map p3.shift, lineBuf3 := line.lineBuf3.map p3.shift }
        | .exit => .blocked
        | .crash => .fault
    else .fault
  | _, _ => .fault

/-- Both pointers have their block before them. -/
def Fits (s : Sys) : Prop :=
  (∃ p, s.lineBuf = some p ∧ p.Fits) ∧ ∃ p, s.lineBuf3 = some p ∧ p.Fits

end Sys

/-- A line that comes back to the prompt, if it does, starts with the only command it has. -/
def Steady (text : List Char) : Prop :=
  ∀ ws, Segments text ws → Returns ws →
    skip ['&'] text = 0 ∧ skip [';'] (cut ['&'] text) = 0 ∧ ∃ w, ws = [w] ∧ skipped w = 0

variable {s t : Sys} {input : Input}

theorem steady_nil : Steady [] := fun _ hws hreturns => absurd hws.of_nil hreturns.1

/-- A pass that fits reads its line and goes on where the line leaves off. -/
theorem step_cases (hs : s.Fits) (h : s.step input = .ok t) :
    cString input.text = [] ∧ t = s ∨
      ∃ p3 line, s.lineBuf3 = some p3 ∧ runLine input.text = some line ∧ line.ending = .prompt ∧
        t = { lineBuf := line.lineBuf.map p3.shift, lineBuf3 := line.lineBuf3.map p3.shift } := by
  obtain ⟨⟨p, hp, -⟩, p3, hp3, -⟩ := hs
  rw [Sys.step, hp, hp3] at h
  dsimp only at h
  split_ifs at h
  cases hline : runLine input.text with
  | none =>
    rw [hline] at h
    cases h
    exact Or.inl ⟨runLine_eq_none.mp hline, rfl⟩
  | some line =>
    rw [hline] at h
    dsimp only at h
    split at h <;> cases h
    exact Or.inr ⟨p3, line, hp3, rfl, ‹_›, rfl⟩

theorem shift_fits_iff {p : Ptr} {u : Str} (hp : p.Fits) : (p.shift u).Fits ↔ u.offset = 0 := by
  rw [Ptr.fits_iff] at hp
  rw [Ptr.fits_iff, Ptr.shift, hp, Nat.zero_add]

/-- Where the last command of a line is that comes back to the prompt. -/
theorem lineBuf_start_iff {line : Line} {text : List Char} {v : Vars} {ws : List (List Char)}
    (hran : line.Ran text v) (hws : Segments text ws) (hreturns : Returns ws) :
    ∃ r, line.lineBuf = some r ∧ (r.offset = 0 ↔ skip ['&'] text = 0 ∧
      skip [';'] (cut ['&'] text) = 0 ∧ ∃ w, ws = [w] ∧ skipped w = 0) := by
  cases ws with
  | nil => exact absurd rfl hreturns.1
  | cons w ws =>
    obtain ⟨u, lines, hlines, htexts, hoffset, hlater⟩ := segments_cons hws
    have hruns : ∀ s ∈ u :: lines, Runs s.text := by
      have hall := hreturns.2
      rw [← htexts, List.forall_mem_map] at hall
      exact hall
    obtain ⟨last, hlast⟩ : ∃ last, (u :: lines).getLast? = some last :=
      ⟨_, List.getLast?_eq_some_getLast (List.cons_ne_nil u lines)⟩
    obtain ⟨r, hr, hroffset⟩ := run_lineBuf hruns hlast v
    refine ⟨r, by rw [hran.lineBuf, hlines, hr], ?_⟩
    rw [hroffset]
    cases lines with
    | nil =>
      rw [List.getLast?_singleton, Option.some.injEq] at hlast
      obtain ⟨rfl, rfl⟩ := List.cons.inj htexts
      rw [← hlast, hoffset]
      constructor
      · intro hzero
        exact ⟨by omega, by omega, u.text, rfl, by omega⟩
      · rintro ⟨hamp, hsemi, w, hw, hskipped⟩
        obtain ⟨rfl, -⟩ := List.cons.inj hw
        omega
    -- a later segment starts behind the first
    | cons u' lines =>
      have hmem : last ∈ u' :: lines := by
        rw [List.getLast?_cons_cons] at hlast
        exact List.mem_of_getLast? hlast
      have hlt := hlater last hmem
      refine iff_of_false (fun h => by omega) ?_
      rintro ⟨-, -, w', hw', -⟩
      rw [hw'] at htexts
      cases (List.cons.inj htexts).2

/-- A pass keeps the buffers exactly when its line is steady. -/
theorem step_fits_iff (hs : s.Fits) (h : s.step input = .ok t) :
    t.Fits ↔ Steady (cString input.text) := by
  obtain ⟨hnil, rfl⟩ | ⟨p3, line, hp3, hline, hending, rfl⟩ := step_cases hs h
  · rw [hnil]
    exact iff_of_true hs steady_nil
  · have hfits3 : p3.Fits := by
      obtain ⟨q, hq, hfits⟩ := hs.2
      cases hp3.symm.trans hq
      exact hfits
    obtain ⟨-, v, hran⟩ := runLine_cases hline
    obtain ⟨ws, hws⟩ := exists_segments (cString input.text)
    have hreturns := (run_returns_iff hws v).mp (hran.ending.symm.trans hending)
    obtain ⟨r, hr, hstart⟩ := lineBuf_start_iff hran hws hreturns
    obtain ⟨q, hq, hqoffset⟩ : ∃ q, line.lineBuf3 = some q ∧
        q.offset = skip ['&'] (cString input.text) := by
      rw [hran.lineBuf3]
      cases ws with
      | nil => exact absurd rfl hreturns.1
      | cons w ws => exact hws.took
    have hsteady : Steady (cString input.text) ↔ skip ['&'] (cString input.text) = 0 ∧
        skip [';'] (cut ['&'] (cString input.text)) = 0 ∧ ∃ w, ws = [w] ∧ skipped w = 0 :=
      ⟨fun hall => hall ws hws hreturns, fun hone ws' hws' _ => hws.unique hws' ▸ hone⟩
    dsimp only [Sys.Fits]
    rw [hsteady, hr, hq]
    simp only [Option.map_some, Option.some.injEq, exists_eq_left', shift_fits_iff hfits3]
    rw [hstart, hqoffset]
    exact and_iff_left_of_imp And.left

/-- A pass that stops is one of a line that does not come back to the prompt. -/
theorem steady_of_stuck (hs : s.Fits) (h : ∀ t, s.step input ≠ .ok t) :
    Steady (cString input.text) := by
  intro ws hws hreturns
  obtain ⟨⟨p, hp, hfits⟩, p3, hp3, hfits3⟩ := hs
  have hroom : LS + 1 ≤ p.room ∧ input.text.length + 1 ≤ p3.room :=
    ⟨hfits, (Nat.succ_le_succ input.length_le).trans hfits3⟩
  have hne : cString input.text ≠ [] := by
    intro hnil
    rw [hnil] at hws
    exact hreturns.1 hws.of_nil
  obtain ⟨line, v, hrun, hran⟩ := runLine_ran hne
  have hending := hran.ending.trans ((run_returns_iff hws v).mpr hreturns)
  have hok : ∃ t, s.step input = .ok t := by
    rw [Sys.step, hp, hp3]
    dsimp only
    rw [if_pos hroom, hrun]
    dsimp only
    rw [hending]
    exact ⟨_, rfl⟩
  obtain ⟨t, ht⟩ := hok
  exact absurd ht (h t)

theorem start_fits : Sys.start.Fits := ⟨⟨_, rfl, by decide⟩, _, rfl, by decide⟩

/-- The buffers survive a session exactly when all of its lines are steady. -/
theorem fits_iff_steady (inputs : List Input) :
    Always Sys.step Sys.Fits Sys.start inputs ↔
      Meets Sys.step (fun _ input => Steady (cString input.text)) Sys.start inputs :=
  always_iff_meets (fun _ _ _ => step_fits_iff) (fun _ _ => steady_of_stuck) start_fits

/-- Behind "ls;pwd" the next `bzero` writes three bytes too many. -/
theorem second_command_moves_lineBuf :
    Sys.start.step { text := ['l', 's', ';', 'p', 'w', 'd'], length_le := by decide } =
        .ok { lineBuf := some { block := .lineBuf3, offset := 3 }
              lineBuf3 := some { block := .lineBuf3, offset := 0 } } ∧
      ¬Always Sys.step Sys.Fits Sys.start
        [{ text := ['l', 's', ';', 'p', 'w', 'd'], length_le := by decide }] := by
  have hstep : Sys.start.step { text := ['l', 's', ';', 'p', 'w', 'd'], length_le := by decide } =
      .ok { lineBuf := some { block := .lineBuf3, offset := 3 }
            lineBuf3 := some { block := .lineBuf3, offset := 0 } } := by
    decide +kernel
  refine ⟨hstep, fun h => ?_⟩
  obtain ⟨p, hp, hfits⟩ := ((always_cons_ok hstep).mp h).2.1
  cases hp
  exact absurd hfits (by decide)

end KernelExperiment.Shell.Buffers
