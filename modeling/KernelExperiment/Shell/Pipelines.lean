import KernelExperiment.Shell.PipeEnds

/-! Pipelines of a session without `&` in which no `fork` fails. While the shell waits, whoever is at
one end of a pipe has a partner at the other, or the other end is closed. -/

namespace KernelExperiment.Shell.Plumbing
open Runs Descriptors

/-- A line without `&`, a `fork` that succeeds, or a step of a child. -/
def Act.Plain : Act → Prop
  | .line input => ∀ l ∈ runLine input, l.isbkg = false
  | .proceed ok => ok = true
  | _ => True

instance (a : Act) : Decidable a.Plain := by
  unfold Act.Plain
  split <;> infer_instance

/-- The flags `first` of the children that the shell still waits for, as it does so at each point. -/
def Pc.crews : Pc → List (List Bool)
  | .at .closeWrite _ _ | .at .forkSecond _ _ => [[true]]
  | .at .waitFirst j _ => if j.ispipe.isSome then [[false, true]] else [[true]]
  | .at .closeRead _ _ | .at .waitSecond _ _ => [[true], [false]]
  | _ => [[]]

/-- Whether the shell may have the reading end of the pipe of a segment. -/
def Pc.holdsRead : Pc → Bool
  | .at .waitSecond _ _ => false
  | .at _ _ _ => true
  | _ => false

def other : End → End
  | .read => .write
  | .write => .read

/-- The standard descriptor for an end. -/
def std : End → ℕ
  | .read => 0
  | .write => 1

namespace Sys

variable {s t : Sys} {a : Act} {as : List Act} {j : Job} {later : List Job} {n i : ℕ}
  {crew : List (ℕ × Bool)}

/-- The children by number, with their flags. -/
def Roster (s : Sys) (crew : List (ℕ × Bool)) : Prop :=
  ∀ i b, (∃ c, s.children i = some c ∧ c.first = b) ↔ (i, b) ∈ crew

structure Attended (s : Sys) : Prop where
  foreground : s.isbkg = false
  fresh : ∀ i, s.forks ≤ i → s.children i = none
  manned : ∃ crew, s.Roster crew ∧ crew.map Prod.snd ∈ s.pc.crews
  own : ∀ i, ∀ c ∈ s.children i, c.own = s.own
  shellReads : ∀ fd n, s.shell.get fd = some (.pipe n .read) →
    s.own = some n ∧ s.pc.holdsRead = true
  childReads : ∀ i, ∀ c ∈ s.children i, ∀ fd n, c.fds.get fd = some (.pipe n .read) →
    c.own = some n

theorem setChild_self (s : Sys) (i : ℕ) (c : Option Child) : (s.setChild i c).children i = c :=
  Function.update_self ..

theorem setChild_of_ne {k : ℕ} (h : k ≠ i) (c : Option Child) :
    (s.setChild i c).children k = s.children k := Function.update_of_ne h ..

theorem Roster.nobody (h : s.Roster []) (i : ℕ) : s.children i = none := by
  cases hc : s.children i with
  | none => rfl
  | some c =>
    have hmem := (h i c.first).mp ⟨c, hc, rfl⟩
    exact absurd hmem List.not_mem_nil

/-- There is one child. -/
theorem Roster.alone {k : ℕ} {c d : Child} (h : s.Roster crew) (hlen : crew.length = 1)
    (hc : s.children i = some c) (hd : s.children k = some d) : k = i := by
  obtain ⟨x, rfl⟩ := List.length_eq_one_iff.mp hlen
  have hi := List.mem_singleton.mp ((h i _).mp ⟨c, hc, rfl⟩)
  have hk := List.mem_singleton.mp ((h k _).mp ⟨d, hd, rfl⟩)
  rw [← hi, Prod.mk.injEq] at hk
  exact hk.1

theorem Roster.set (h : s.Roster crew) {c c' : Child} (hc : s.children i = some c)
    (hfirst : c'.first = c.first) : (s.setChild i (some c')).Roster crew := by
  intro k b
  rw [← h k b]
  rcases eq_or_ne k i with rfl | hne
  · simp [setChild_self, hc, hfirst]
  · simp [setChild_of_ne hne]

/-- A child is reaped. -/
theorem Roster.unset (h : s.Roster crew) (i : ℕ) :
    (s.setChild i none).Roster (crew.filter fun x => x.1 ≠ i) := by
  intro k b
  rw [List.mem_filter, ← h k b]
  rcases eq_or_ne k i with rfl | hne
  · simp [setChild_self]
  · simp [setChild_of_ne hne, hne]

theorem Roster.fork (h : s.Roster crew) (hfresh : s.children s.forks = none) (j : Job)
    (first : Bool) : (s.fork true j first).Roster ((s.forks, first) :: crew) := by
  have hnew (b : Bool) : (s.forks, b) ∉ crew := by
    rw [← h s.forks b, hfresh]
    rintro ⟨c, hc, -⟩
    cases hc
  intro k b
  rw [List.mem_cons, Prod.mk.injEq, ← h k b, Sys.fork, if_pos rfl]
  rcases eq_or_ne k s.forks with rfl | hne
  · simp [hfresh, eq_comm]
  · simp [hne]

theorem Attended.no_reads (h : s.Attended) (hpc : s.pc.holdsRead = false) (fd n : ℕ) :
    s.shell.get fd ≠ some (.pipe n .read) := by
  intro hfd
  have hholds := (h.shellReads fd n hfd).2
  rw [hpc] at hholds
  cases hholds

/-! What there is behind each step. -/

/-- A child goes on or ends. -/
theorem Attended.set (h : s.Attended) {c c' : Child} (hc : s.children i = some c)
    (hfirst : c'.first = c.first) (hown : c'.own = c.own)
    (hreads : ∀ fd n, c'.fds.get fd = some (.pipe n .read) → c'.own = some n) :
    (s.setChild i (some c')).Attended := by
  obtain ⟨crew, hroster, hcrews⟩ := h.manned
  refine ⟨h.foreground, fun k hk => ?_, ⟨crew, hroster.set hc hfirst, hcrews⟩, fun k d hd => ?_,
    h.shellReads, fun k d hd => ?_⟩
  · have hne : k ≠ i := by
      rintro rfl
      rw [h.fresh k hk] at hc
      cases hc
    rw [setChild_of_ne hne]
    exact h.fresh k hk
  · rcases eq_or_ne k i with rfl | hne
    · rw [setChild_self] at hd
      cases hd
      exact hown.trans (h.own k c hc)
    · rw [setChild_of_ne hne] at hd
      exact h.own k d hd
  · rcases eq_or_ne k i with rfl | hne
    · rw [setChild_self] at hd
      cases hd
      exact hreads
    · rw [setChild_of_ne hne] at hd
      exact h.childReads k d hd

/-- A child has been reaped, and the shell is told. -/
theorem Attended.reap (h : s.Attended) (hcrew : [] ∉ s.pc.crews) {child : Option ℕ} {pc : Pc}
    (hr : s.reap child = .ok t) (hcrews : ∀ (crew : List (ℕ × Bool)) k b,
      crew.map Prod.snd ∈ s.pc.crews → (k, b) ∈ crew → (∀ b', (k, b') ∈ crew → b' = b) →
        (crew.filter fun x => x.1 ≠ k).map Prod.snd ∈ pc.crews)
    (hreads : ∀ fd n, s.shell.get fd = some (.pipe n .read) → pc.holdsRead = true) : Sys.Attended { t with pc } := by
  obtain ⟨crew, hroster, hmanned⟩ := h.manned
  cases child with
  | none =>
    -- there is a child to wait for
    rw [Sys.reap] at hr
    split_ifs at hr with hnone
    cases crew with
    | nil => exact absurd hmanned hcrew
    | cons x crew =>
      obtain ⟨c, hc, -⟩ := (hroster x.1 x.2).mpr List.mem_cons_self
      have hlt : x.1 < s.forks := by
        by_contra hle
        rw [h.fresh x.1 (Nat.le_of_not_lt hle)] at hc
        cases hc
      have hgone := hnone x.1 (List.mem_range.mpr hlt)
      rw [hc] at hgone
      cases hgone
  | some k =>
    rw [Sys.reap] at hr
    split at hr
    next c hc =>
      split_ifs at hr
      cases hr
      have hmem {l : ℕ} {d : Child} (hd : (s.setChild k none).children l = some d) :
          s.children l = some d := by
        rcases eq_or_ne l k with rfl | hne
        · rw [setChild_self] at hd
          cases hd
        · rwa [setChild_of_ne hne] at hd
      refine ⟨h.foreground, fun l hl => ?_, ⟨_, hroster.unset k, ?_⟩, fun l d hd => ?_,
        fun fd n hfd => ?_, fun l d hd => ?_⟩
      · cases hd : (s.setChild k none).children l with
        | none => rfl
        | some d =>
          rw [← hmem hd]
          exact h.fresh l hl
      · refine hcrews crew k c.first hmanned ((hroster k _).mp ⟨c, hc, rfl⟩) fun b' hb' => ?_
        obtain ⟨d, hd, hfirst⟩ := (hroster k b').mpr hb'
        rw [hc, Option.some.injEq] at hd
        rw [← hfirst, ← hd]
      · exact h.own l d (hmem hd)
      · exact ⟨(h.shellReads fd n hfd).1, hreads fd n hfd⟩
      · exact h.childReads l d (hmem hd)
    next => cases hr

/-- A child is forked. -/
theorem Attended.fork (h : s.Attended) (first : Bool) {pc : Pc}
    (hcrews : ∀ l ∈ s.pc.crews, first :: l ∈ pc.crews) (hholds : pc.holdsRead = true) :
    Sys.Attended { s.fork true j first with pc } := by
  obtain ⟨crew, hroster, hmanned⟩ := h.manned
  have hnone := h.fresh s.forks (Nat.le_refl _)
  have hcases {k : ℕ} {d : Child} (hd : (s.fork true j first).children k = some d) :
      s.children k = some d ∨ d.own = s.own ∧ d.fds = s.shell := by
    rcases eq_or_ne k s.forks with rfl | hne
    · simp only [Sys.fork, if_true, Function.update_self, Option.some.injEq] at hd
      rw [← hd]
      exact .inr ⟨rfl, rfl⟩
    · simp only [Sys.fork, if_true, Function.update_of_ne hne] at hd
      exact .inl hd
  refine ⟨h.foreground, fun k hk => ?_, ⟨_, hroster.fork hnone j first, hcrews _ hmanned⟩,
    fun k d hd => ?_, fun fd n hfd => ⟨(h.shellReads fd n hfd).1, hholds⟩, fun k d hd fd n hfd => ?_⟩
  · replace hk : s.forks + 1 ≤ k := hk
    show Function.update s.children s.forks _ k = none
    rw [Function.update_of_ne (by omega)]
    exact h.fresh k (by omega)
  · obtain hd | ⟨hown, -⟩ := hcases hd
    · exact h.own k d hd
    · exact hown
  · obtain hd | ⟨hown, hfds⟩ := hcases hd
    · exact h.childReads k d hd fd n hfd
    · rw [hfds] at hfd
      rw [hown]
      exact (h.shellReads fd n hfd).1

/-- The shell goes on by itself. -/
theorem Attended.moved (h : s.Attended) {s' : Sys} (hsame : s'.children = s.children ∧
      s'.forks = s.forks ∧ s'.own = s.own ∧ s'.isbkg = s.isbkg)
    (hcrews : s.pc.crews ⊆ s'.pc.crews)
    (hreads : ∀ fd n, s'.shell.get fd = some (.pipe n .read) →
      s.shell.get fd = some (.pipe n .read) ∧ s'.pc.holdsRead = true) : s'.Attended := by
  obtain ⟨hchildren, hforks, hown, hisbkg⟩ := hsame
  obtain ⟨crew, hroster, hmanned⟩ := h.manned
  refine ⟨hisbkg.trans h.foreground, ?_, ⟨crew, fun i b => ?_, hcrews hmanned⟩, ?_,
    fun fd n hfd => ?_, ?_⟩
  · rw [hchildren, hforks]
    exact h.fresh
  · rw [hchildren]
    exact hroster i b
  · rw [hchildren, hown]
    exact h.own
  · obtain ⟨hold, hholds⟩ := hreads fd n hfd
    exact ⟨hown ▸ (h.shellReads fd n hold).1, hholds⟩
  · rw [hchildren]
    exact h.childReads

/-- Nobody is left when a segment begins. -/
theorem Attended.segment {j : Job} (h : s.Attended) (hpc : s.pc = .segment (j :: later)) :
    ((if j.newPipe then s.pipe else { s with own := none }).goto .forkFirst j later).Attended := by
  obtain ⟨crew, hroster, hmanned⟩ := h.manned
  rw [hpc] at hmanned
  have hcrew : crew = [] := List.map_eq_nil_iff.mp (List.mem_singleton.mp hmanned)
  rw [hcrew] at hroster
  have hnone := hroster.nobody
  have hreads := h.no_reads (by rw [hpc]; rfl)
  have hnobody {i : ℕ} {c : Child} (hc : c ∈ s.children i) : False := by
    rw [hnone i] at hc
    cases hc
  cases j.newPipe with
  | true =>
    refine ⟨h.foreground, h.fresh, ⟨[], hroster, List.mem_singleton_self _⟩,
      fun i c hc => (hnobody hc).elim, fun fd n hfd => ?_, fun i c hc => (hnobody hc).elim⟩
    replace hfd : s.pipe.shell.get fd = _ := hfd
    rw [Sys.pipe, Fds.get_place, Fds.get_place] at hfd
    split_ifs at hfd
    · cases hfd
    · cases hfd
      exact ⟨rfl, rfl⟩
    · exact absurd hfd (hreads fd n)
  | false =>
    exact ⟨h.foreground, h.fresh, ⟨[], hroster, List.mem_singleton_self _⟩,
      fun i c hc => (hnobody hc).elim, fun fd n hfd => absurd hfd (hreads fd n),
      fun i c hc => (hnobody hc).elim⟩

/-- Behind its `close` the shell has no reading end. -/
theorem Attended.closeRead (h : s.Attended) (hinv : s.Inv) (hpc : s.pc = .at .closeRead j later) :
    ((s.closeEnd .read).goto .waitSecond j later).Attended := by
  have hflagged := hinv.shell.flagged
  rw [Flagged, hpc] at hflagged
  refine h.moved ⟨rfl, rfl, rfl, rfl⟩ ?_ fun fd n hfd => ?_
  · rw [hpc]
    exact List.Subset.refl _
  · replace hfd : (s.shell.close (ends s.mypipe .read)).get fd = _ := hfd
    rw [Fds.get_close] at hfd
    split_ifs at hfd with hne
    have hown := (h.shellReads fd n hfd).1
    rw [hflagged.own] at hown
    split_ifs at hown with hnew
    have hpos := (hinv.shell.held _ j later hpc hnew).pos
    have hlast := Option.some.inj hown
    exact absurd (hinv.shell.atEnds n (by omega) fd .read hfd) hne

theorem Attended.proceed (h : s.Attended) (hinv : s.Inv) (hstep : s.step (.proceed true) = .ok t) :
    t.Attended := by
  have hflagged := hinv.shell.flagged
  rw [Flagged] at hflagged
  rw [Sys.step] at hstep
  split at hstep
  next hpc =>
    split_ifs at hstep
    cases hstep
    refine h.moved ⟨rfl, rfl, rfl, rfl⟩ ?_ fun fd n hfd => ?_
    · rw [hpc]
      exact List.Subset.refl _
    · exact absurd hfd (h.no_reads (by rw [hpc]; rfl) fd n)
  next j later hpc =>
    cases hstep
    exact h.segment hpc
  next j later hpc =>
    have hcrews (l : List Bool) (hl : l ∈ s.pc.crews) : l = [] := by
      rw [hpc] at hl
      exact List.mem_singleton.mp hl
    cases hp : j.ispipe.isSome with
    | true =>
      simp only [hp, if_true] at hstep
      cases hstep
      refine h.fork true (fun l hl => ?_) rfl
      rw [hcrews l hl]
      exact List.mem_singleton_self _
    | false =>
      simp only [hp, Bool.false_eq_true, if_false, Sys.forked] at hstep
      rw [if_neg (by rw [(fork_shell s true j true).2.2.2.2, h.foreground]; decide)] at hstep
      cases hstep
      refine h.fork true (fun l hl => ?_) rfl
      rw [hcrews l hl, Pc.crews, hp]
      exact List.mem_singleton_self _
  next j later hpc =>
    cases hstep
    refine h.moved ⟨rfl, rfl, rfl, rfl⟩ ?_ fun fd n hfd => ?_
    · rw [hpc]
      exact List.Subset.refl _
    · replace hfd : (s.shell.close (ends s.mypipe .write)).get fd = _ := hfd
      rw [Fds.get_close] at hfd
      split_ifs at hfd
      exact ⟨hfd, rfl⟩
  next j later hpc =>
    rw [hpc] at hflagged
    rw [Sys.forked, if_neg (by rw [(fork_shell s true j false).2.2.2.2, h.foreground]; decide)] at hstep
    cases hstep
    refine h.fork false (fun l hl => ?_) rfl
    rw [hpc] at hl
    rw [List.mem_singleton.mp hl, Pc.crews, hflagged.piped (by decide) (by decide)]
    exact List.mem_singleton_self _
  next j later hpc =>
    cases hstep
    exact h.closeRead hinv hpc
  next => cases hstep

/-- One of one child is gone. -/
theorem map_filter_one {b : Bool} {k : ℕ} (hcrew : crew.map Prod.snd ∈ [[true], [false]])
    (hk : (k, b) ∈ crew) : (crew.filter fun x => x.1 ≠ k).map Prod.snd = [] := by
  cases crew with
  | nil => simp at hcrew
  | cons x crew =>
    cases crew with
    | nil => simp [← List.mem_singleton.mp hk]
    | cons y crew => simp at hcrew

/-- One of two is gone. -/
theorem map_filter_two {b : Bool} {k : ℕ} (hcrew : crew.map Prod.snd = [false, true])
    (hk : (k, b) ∈ crew) (hflag : ∀ b', (k, b') ∈ crew → b' = b) :
    (crew.filter fun x => x.1 ≠ k).map Prod.snd ∈ [[true], [false]] := by
  obtain ⟨⟨i, _⟩, l, rfl, rfl, hl⟩ := List.map_eq_cons_iff.mp hcrew
  obtain ⟨⟨i', _⟩, l', rfl, rfl, hl'⟩ := List.map_eq_cons_iff.mp hl
  rw [List.map_eq_nil_iff] at hl'
  subst hl'
  rcases eq_or_ne i k with rfl | hi
  · rcases eq_or_ne i' i with rfl | hi'
    · have h1 := hflag false (by simp)
      have h2 := hflag true (by simp)
      rw [← h1] at h2
      cases h2
    · simp [hi']
  · rcases eq_or_ne i' k with rfl | hi'
    · simp [hi]
    · simp [hi.symm, hi'.symm] at hk

theorem Attended.wait (h : s.Attended) (hinv : s.Inv) {child : Option ℕ}
    (hstep : s.step (.wait child) = .ok t) : t.Attended := by
  have hflagged := hinv.shell.flagged
  rw [Flagged] at hflagged
  rw [Sys.step] at hstep
  split at hstep
  next j later hpc =>
    rw [hpc] at hflagged
    obtain ⟨r, hr, rfl⟩ := Outcome.map_eq_ok.mp hstep
    cases hp : j.ispipe.isSome with
    | true =>
      have hcrews : s.pc.crews = [[false, true]] := by rw [hpc, Pc.crews, hp, if_pos rfl]
      rw [if_pos rfl]
      refine h.reap (by rw [hcrews]; decide) hr (fun crew k b hcrew hk hflag => ?_) fun _ _ _ => rfl
      rw [hcrews] at hcrew
      exact map_filter_two (List.mem_singleton.mp hcrew) hk hflag
    | false =>
      have hcrews : s.pc.crews = [[true]] := by
        rw [hpc, Pc.crews, hp, if_neg Bool.false_ne_true]
      rw [if_neg Bool.false_ne_true]
      refine h.reap (by rw [hcrews]; decide) hr (fun crew k b hcrew hk _ => ?_) fun fd n hfd => ?_
      · rw [hcrews] at hcrew
        rw [map_filter_one (List.mem_cons.mpr (.inl (List.mem_singleton.mp hcrew))) hk]
        exact List.mem_singleton_self _
      · -- without a pipe there is nothing to close
        have hown := (h.shellReads fd n hfd).1
        rw [hflagged.own] at hown
        split_ifs at hown with hnew
        rw [hflagged.flag hnew] at hp
        cases hp
  next j later hpc =>
    obtain ⟨r, hr, rfl⟩ := Outcome.map_eq_ok.mp hstep
    have hcrews : s.pc.crews = [[true], [false]] := by rw [hpc, Pc.crews]
    refine h.reap (by rw [hcrews]; decide) hr (fun crew k b hcrew hk _ => ?_) fun fd n hfd => ?_
    · rw [hcrews] at hcrew
      rw [map_filter_one hcrew hk]
      exact List.mem_singleton_self _
    · exact absurd hfd (h.no_reads (by rw [hpc]; rfl) fd n)
  next => cases hstep

theorem Attended.step (h : s.Attended) (hinv : s.Inv) (ha : a.Plain) (hstep : s.step a = .ok t) :
    t.Attended := by
  cases a with
  | line input =>
    rw [Sys.step] at hstep
    split at hstep
    next hpc =>
      cases hl : runLine input with
      | none =>
        simp only [hl] at hstep
        cases hstep
        exact h
      | some l =>
        simp only [hl] at hstep
        cases hstep
        obtain ⟨crew, hroster, hmanned⟩ := h.manned
        rw [hpc] at hmanned
        refine ⟨ha l hl, h.fresh, ⟨crew, hroster, hmanned⟩, h.own, fun fd n hfd => ?_, h.childReads⟩
        exact absurd hfd (h.no_reads (by rw [hpc]; rfl) fd n)
    next => cases hstep
  | proceed ok =>
    cases ok with
    | true => exact h.proceed hinv hstep
    | false => cases ha
  | wait child => exact h.wait hinv hstep
  | child i ok =>
    rw [Sys.step] at hstep
    split at hstep
    next c hc =>
      split at hstep
      next op todo _ _ =>
        cases hstep
        refine h.set hc rfl rfl fun fd n hfd => ?_
        obtain ⟨fd', hfd'⟩ := run_pipe hfd
        exact h.childReads i c hc fd' n hfd'
      next => cases hstep
    next => cases hstep
  | exits i =>
    rw [Sys.step] at hstep
    split at hstep
    next c hc =>
      split_ifs at hstep
      cases hstep
      refine h.set hc rfl rfl fun fd n hfd => ?_
      rw [Fds.get_none] at hfd
      cases hfd
    next => cases hstep

/-- The shell cannot take a step. -/
def Stuck (s : Sys) : Prop :=
  (∀ input t, s.step (.line input) ≠ .ok t) ∧ (∀ ok t, s.step (.proceed ok) ≠ .ok t) ∧
    ∀ child t, s.step (.wait child) ≠ .ok t

/-- Where there are children it waits for one of them, and none has exited. -/
theorem Stuck.waits (hstuck : s.Stuck) (h : s.Attended) {c : Child} (hc : s.children i = some c) :
    (∃ j later, s.pc = .at .waitFirst j later ∨ s.pc = .at .waitSecond j later) ∧
      ∀ k d, s.children k = some d → d.exited = false := by
  obtain ⟨hline, hproceed, hwait⟩ := hstuck
  have hrunning {k : ℕ} {d : Child} {j : Job} {later : List Job}
      (hpc : s.pc = .at .waitFirst j later ∨ s.pc = .at .waitSecond j later)
      (hd : s.children k = some d) : d.exited = false := by
    cases hex : d.exited with
    | false => rfl
    | true =>
      obtain hpc | hpc := hpc
      · exact absurd (by simp only [Sys.step, hpc, reap, hd, hex, if_true, Outcome.map_ok]; rfl)
          (hwait (some k) _)
      · exact absurd (by simp only [Sys.step, hpc, reap, hd, hex, if_true, Outcome.map_ok]; rfl)
          (hwait (some k) _)
  cases hpc : s.pc with
  | prompt =>
    cases hl : runLine [] with
    | none => exact absurd (by simp only [Sys.step, hpc, hl]; rfl) (hline [] _)
    | some l => exact absurd (by simp only [Sys.step, hpc, hl]; rfl) (hline [] _)
  | segment jobs =>
    cases jobs with
    | nil =>
      -- the shell has exited, and left no child
      obtain ⟨crew, hroster, hmanned⟩ := h.manned
      rw [hpc] at hmanned
      rw [List.map_eq_nil_iff.mp (List.mem_singleton.mp hmanned)] at hroster
      rw [hroster.nobody] at hc
      cases hc
    | cons j later => exact absurd (by simp only [Sys.step, hpc]; rfl) (hproceed true _)
  | «at» stage j later =>
    cases stage with
    | waitFirst => exact ⟨⟨j, later, .inl rfl⟩, fun k d hd => hrunning (.inl hpc) hd⟩
    | waitSecond => exact ⟨⟨j, later, .inr rfl⟩, fun k d hd => hrunning (.inr hpc) hd⟩
    | forkFirst => exact absurd (by simp only [Sys.step, hpc]; rfl) (hproceed true _)
    | closeWrite => exact absurd (by simp only [Sys.step, hpc]; rfl) (hproceed true _)
    | forkSecond => exact absurd (by simp only [Sys.step, hpc]; rfl) (hproceed true _)
    | closeRead => exact absurd (by simp only [Sys.step, hpc]; rfl) (hproceed true _)

end Sys
end KernelExperiment.Shell.Plumbing
