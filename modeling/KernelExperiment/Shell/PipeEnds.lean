import KernelExperiment.Shell.Plumbing

/-! Which process has which end of a pipe open while a session goes on, the shell and its children
each at their own pace. -/

namespace KernelExperiment.Shell.Plumbing
open Runs Descriptors

variable {mypipe : ℕ × ℕ} {t : Fds} {file : Option ℕ} {j : Job} {later : List Job} {s : Sys} {n : ℕ}

/-- What is wired for a child while it is still at it, and when it calls `execvp`. -/
structure Child.Sound (c : Child) : Prop where
  ends : c.exited = false →
    Ends c.mypipe (if c.first then First c.job c.own else Second c.own) c.todo c.fds c.file
  writes : ∀ fd n, c.fds.get fd = some (.pipe n .write) → c.first = true ∧ c.own = some n
  gone : c.exited = true → ∀ fd, c.fds.get fd = none

/-- A call only moves around what the table has, but for a file that it opens. -/
theorem run_pipe {op : ChildOp} {ok : Bool} {fd : ℕ} {e : End}
    (h : (op.run mypipe ok t file).1.get fd = some (.pipe n e)) :
    ∃ fd', t.get fd' = some (.pipe n e) := by
  have hclose {k : ℕ} (h : (t.close k).get fd = some (.pipe n e)) :
      ∃ fd', t.get fd' = some (.pipe n e) := by
    rw [Fds.get_close] at h
    split_ifs at h
    exact ⟨fd, h⟩
  have hplace {k k' : ℕ} {o : Obj} (ho : t.get k' = some o)
      (h : (t.place k o).get fd = some (.pipe n e)) : ∃ fd', t.get fd' = some (.pipe n e) := by
    rw [Fds.get_place] at h
    split_ifs at h
    · exact ⟨k', ho.trans h⟩
    · exact ⟨fd, h⟩
  cases op with
  | opens name =>
    cases name with
    | none => exact ⟨fd, h⟩
    | some f =>
      cases ok with
      | false => exact ⟨fd, h⟩
      | true =>
        simp only [ChildOp.run, if_true, Fds.get_place] at h
        split_ifs at h
        · cases h
        · exact ⟨fd, h⟩
  | dupFile =>
    cases file with
    | none => exact ⟨fd, h⟩
    | some k =>
      simp only [ChildOp.run, Option.elim, Fds.dup] at h
      split at h
      next o ho => exact hplace ho h
      next => exact ⟨fd, h⟩
  | closeFile =>
    cases file with
    | none => exact ⟨fd, h⟩
    | some k => exact hclose h
  | close k => exact hclose h
  | closeEnd e' => exact hclose h
  | dup2End e' k =>
    simp only [ChildOp.run, Fds.dup2] at h
    split at h
    next o ho => exact hplace ho h
    next => exact ⟨fd, h⟩

theorem Child.Sound.run {c : Child} (h : c.Sound) {op : ChildOp} {todo : List ChildOp}
    (hrun : c.exited = false) (htodo : c.todo = op :: todo) (ok : Bool) :
    Child.Sound { c with
      fds := (op.run c.mypipe ok c.fds c.file).1
      file := (op.run c.mypipe ok c.fds c.file).2
      todo } := by
  refine ⟨fun _ => ?_, fun fd n hfd => ?_, fun hexited => ?_⟩
  · have hends := h.ends hrun
    rw [htodo] at hends
    exact hends ok
  · obtain ⟨fd', hfd'⟩ := run_pipe hfd
    exact h.writes fd' n hfd'
  · rw [hrun] at hexited
    cases hexited

theorem Child.sound_exits (c : Child) :
    Child.Sound { c with fds := .none, exited := true } := by
  refine ⟨nofun, fun fd n hfd => ?_, fun _ fd => Fds.get_none⟩
  rw [Fds.get_none] at hfd
  cases hfd

namespace Sys

/-- Between the making of a pipe and the `close` of its writing end. -/
def Piping (s : Sys) : Prop :=
  ∃ stage j later, s.pc = .at stage j later ∧ j.newPipe = true ∧
    (stage = .forkFirst ∨ stage = .closeWrite)

/-- What holds of the flags and of the numbers in `mypipe` while a segment is run. -/
structure Within (mypipe : ℕ × ℕ) (pipes : ℕ) (own : Option ℕ) (stage : Stage) (j : Job)
    (later : List Job) : Prop where
  later : PipesFrom j.ispipe.isSome later
  valid : j.ispipe.isSome = true → Valid mypipe
  flag : j.newPipe = true → j.ispipe.isSome = true
  piped : stage ≠ .forkFirst → stage ≠ .waitFirst → j.ispipe.isSome = true
  own : own = if j.newPipe then some (pipes - 1) else none

def Flagged (s : Sys) : Prop :=
  match s.pc with
  | .prompt => True
  | .segment jobs => ∃ up, PipesFrom up jobs ∧ (up = true → Valid s.mypipe)
  | .at stage j later => Within s.mypipe s.pipes s.own stage j later

/-- The last pipe is at the numbers in `mypipe` as long as the segment needs it. -/
structure Held (t : Fds) (mypipe : ℕ × ℕ) (pipes : ℕ) (stage : Stage) : Prop where
  pos : 0 < pipes
  write : stage = .forkFirst → t.get (ends mypipe .write) = some (.pipe (pipes - 1) .write)
  read : stage = .forkFirst ∨ stage = .closeWrite ∨ stage = .forkSecond →
    t.get (ends mypipe .read) = some (.pipe (pipes - 1) .read)

structure ShellOk (s : Sys) : Prop where
  standing : Standing s.shell
  known : ∀ fd n e, s.shell.get fd = some (.pipe n e) → n < s.pipes
  atEnds : ∀ n, n + 1 = s.pipes → AtEnds s.mypipe n s.shell
  writes : ∀ fd n, s.shell.get fd = some (.pipe n .write) → n + 1 = s.pipes ∧ s.Piping
  flagged : s.Flagged
  held : ∀ stage j later, s.pc = .at stage j later → j.newPipe = true →
    Held s.shell s.mypipe s.pipes stage

structure ChildrenOk (children : ℕ → Option Child) (pipes : ℕ) : Prop where
  sound : ∀ i, ∀ c ∈ children i, c.Sound
  owned : ∀ i, ∀ c ∈ children i, ∀ n, c.own = some n → n < pipes
  unique : ∀ i i', ∀ c ∈ children i, ∀ c' ∈ children i', c.first = true → c'.first = true →
    ∀ n, c.own = some n → c'.own = some n → i = i'

structure Inv (s : Sys) : Prop where
  shell : s.ShellOk
  children : ChildrenOk s.children s.pipes
  unclaimed : ∀ j later, s.pc = .at .forkFirst j later → j.newPipe = true →
    ∀ i, ∀ c ∈ s.children i, c.own ≠ some (s.pipes - 1)

theorem ChildrenOk.set {children : ℕ → Option Child} {pipes i : ℕ} {c' : Option Child}
    (h : ChildrenOk children pipes) (hsound : ∀ c ∈ c', c.Sound)
    (hsame : ∀ c ∈ c', ∃ c₀ ∈ children i, c.first = c₀.first ∧ c.own = c₀.own) :
    ChildrenOk (Function.update children i c') pipes := by
  have hold {k : ℕ} {c : Child} (hc : c ∈ Function.update children i c' k) :
      ∃ c₀ ∈ children k, c.first = c₀.first ∧ c.own = c₀.own := by
    rcases eq_or_ne k i with rfl | hne
    · rw [Function.update_self] at hc
      exact hsame c hc
    · rw [Function.update_of_ne hne] at hc
      exact ⟨c, hc, rfl, rfl⟩
  refine ⟨fun k c hc => ?_, fun k c hc n hn => ?_, fun k k' c hc d hd hcf hdf n hcn hdn => ?_⟩
  · rcases eq_or_ne k i with rfl | hne
    · rw [Function.update_self] at hc
      exact hsound c hc
    · rw [Function.update_of_ne hne] at hc
      exact h.sound k c hc
  · obtain ⟨c₀, hc₀, -, hown⟩ := hold hc
    exact h.owned k c₀ hc₀ n (hown ▸ hn)
  · obtain ⟨c₀, hc₀, hf, hown⟩ := hold hc
    obtain ⟨d₀, hd₀, hf', hown'⟩ := hold hd
    exact h.unique k k' c₀ hc₀ d₀ hd₀ (hf ▸ hcf) (hf' ▸ hdf) n (hown ▸ hcn) (hown' ▸ hdn)

theorem ChildrenOk.fork {children : ℕ → Option Child} {pipes i : ℕ} {c : Child}
    (h : ChildrenOk children pipes) (hsound : c.Sound) (hown : ∀ n, c.own = some n → n < pipes)
    (hfirst : c.first = true → ∀ n, c.own = some n → ∀ k, ∀ d ∈ children k, d.own ≠ some n) :
    ChildrenOk (Function.update children i (some c)) pipes := by
  have hcases {k : ℕ} {d : Child} (hd : d ∈ Function.update children i (some c) k) :
      (k = i ∧ d = c) ∨ d ∈ children k := by
    rcases eq_or_ne k i with rfl | hne
    · rw [Function.update_self] at hd
      exact .inl ⟨rfl, (Option.some.inj hd).symm⟩
    · rw [Function.update_of_ne hne] at hd
      exact .inr hd
  refine ⟨fun k d hd => ?_, fun k d hd n hn => ?_, fun k k' d hd d' hd' hf hf' n hn hn' => ?_⟩
  · obtain ⟨-, rfl⟩ | hd := hcases hd
    · exact hsound
    · exact h.sound k d hd
  · obtain ⟨-, rfl⟩ | hd := hcases hd
    · exact hown n hn
    · exact h.owned k d hd n hn
  · obtain ⟨rfl, rfl⟩ | hd := hcases hd
    · obtain ⟨rfl, -⟩ | hd' := hcases hd'
      · rfl
      · exact absurd hn' (hfirst hf n hn k' d' hd')
    · obtain ⟨-, hd'⟩ | hd' := hcases hd'
      · rw [hd'] at hf' hn'
        exact absurd hn (hfirst hf' n hn' k d hd)
      · exact h.unique k k' d hd d' hd' hf hf' n hn hn'

theorem ChildrenOk.mono {children : ℕ → Option Child} {pipes pipes' : ℕ}
    (h : ChildrenOk children pipes) (hle : pipes ≤ pipes') : ChildrenOk children pipes' :=
  ⟨h.sound, fun i c hc n hn => Nat.lt_of_lt_of_le (h.owned i c hc n hn) hle, h.unique⟩

/-- A child goes on, ends or is reaped. -/
theorem Inv.setChild {i : ℕ} {c' : Option Child} (h : s.Inv) (hsound : ∀ c ∈ c', c.Sound)
    (hsame : ∀ c ∈ c', ∃ c₀ ∈ s.children i, c.first = c₀.first ∧ c.own = c₀.own) :
    (s.setChild i c').Inv where
  shell := ⟨h.shell.standing, h.shell.known, h.shell.atEnds, h.shell.writes, h.shell.flagged,
    h.shell.held⟩
  children := h.children.set hsound hsame
  unclaimed j later hpc hnew k c hc := by
    rcases eq_or_ne k i with rfl | hne
    · simp only [Sys.setChild, Function.update_self] at hc
      obtain ⟨c₀, hc₀, -, hown⟩ := hsame c hc
      rw [hown]
      exact h.unclaimed j later hpc hnew k c₀ hc₀
    · simp only [Sys.setChild, Function.update_of_ne hne] at hc
      exact h.unclaimed j later hpc hnew k c hc

/-! The shell. -/

theorem not_piping_of {s : Sys} (h : ∀ stage j later, s.pc = .at stage j later →
    stage ≠ .forkFirst ∧ stage ≠ .closeWrite) : ¬s.Piping := by
  rintro ⟨stage, j, later, hpc, -, hstage⟩
  obtain ⟨hfork, hclose⟩ := h stage j later hpc
  exact hstage.elim hfork hclose

/-- The shell goes on and leaves its descriptors alone. -/
theorem ShellOk.moved {s' : Sys} (h : s.ShellOk) (hshell : s'.shell = s.shell)
    (hmypipe : s'.mypipe = s.mypipe) (hpipes : s'.pipes = s.pipes)
    (hpiping : s.Piping → s'.Piping) (hflagged : s'.Flagged)
    (hheld : ∀ stage j later, s'.pc = .at stage j later → j.newPipe = true →
      Held s.shell s.mypipe s.pipes stage) : s'.ShellOk := by
  refine ⟨?_, ?_, ?_, ?_, hflagged, ?_⟩
  · rw [hshell]
    exact h.standing
  · rw [hshell, hpipes]
    exact h.known
  · rw [hshell, hmypipe, hpipes]
    exact h.atEnds
  · rw [hshell, hpipes]
    intro fd n hfd
    obtain ⟨hlast, hpip⟩ := h.writes fd n hfd
    exact ⟨hlast, hpiping hpip⟩
  · rw [hshell, hmypipe, hpipes]
    exact hheld

/-- The shell goes on to another segment, or waits for the next line. -/
theorem Inv.moved {s' : Sys} (h : s.Inv) (hsame : s'.shell = s.shell ∧ s'.mypipe = s.mypipe ∧
      s'.pipes = s.pipes ∧ s'.children = s.children)
    (hpiping : ¬s.Piping) (hflagged : s'.Flagged)
    (hheld : ∀ stage j later, s'.pc = .at stage j later → j.newPipe = true → stage ≠ .forkFirst ∧
      Held s.shell s.mypipe s.pipes stage) : s'.Inv where
  shell := h.shell.moved hsame.1 hsame.2.1 hsame.2.2.1 (fun hp => absurd hp hpiping) hflagged
    fun stage j later hpc hnew => (hheld stage j later hpc hnew).2
  children := by
    rw [hsame.2.2.1, hsame.2.2.2]
    exact h.children
  unclaimed j later hpc hnew := absurd rfl (hheld _ j later hpc hnew).1

theorem Inv.no_writes (h : s.Inv) (hpiping : ¬s.Piping) (fd n : ℕ) :
    s.shell.get fd ≠ some (.pipe n .write) :=
  fun hfd => hpiping (h.shell.writes fd n hfd).2

theorem shellOk_pipe (h : s.Inv) (hpiping : ¬s.Piping) (hnew : j.newPipe = true)
    (hflag : j.ispipe.isSome = true) (hlater : PipesFrom j.ispipe.isSome later) :
    (s.pipe.goto .forkFirst j later).ShellOk := by
  have hr : s.shell.get (lowest s.shell.fds) = none := Fds.get_lowest
  have hw : s.shell.get (lowest (insert (lowest s.shell.fds) s.shell.fds)) = none := by
    refine if_neg fun hmem => ?_
    exact lowest_notMem _ (Finset.mem_insert_of_mem hmem)
  have hne : lowest s.shell.fds ≠ lowest (insert (lowest s.shell.fds) s.shell.fds) := by
    intro he
    refine lowest_notMem (insert (lowest s.shell.fds) s.shell.fds) ?_
    rw [← he]
    exact Finset.mem_insert_self _ _
  have hfree {fd : ℕ} (hfd : s.shell.get fd = none) : 3 ≤ fd := by
    by_contra hlt
    rw [h.shell.standing fd (by omega)] at hfd
    cases hfd
  have hvalid : Valid s.pipe.mypipe := by
    refine ⟨fun e => ?_, hne⟩
    cases e with
    | read => exact hfree hr
    | write => exact hfree hw
  have hget (fd : ℕ) : s.pipe.shell.get fd =
      if fd = ends s.pipe.mypipe .write then some (.pipe s.pipes .write)
      else if fd = ends s.pipe.mypipe .read then some (.pipe s.pipes .read)
      else s.shell.get fd := by
    unfold Sys.pipe
    rw [Fds.get_place, Fds.get_place]
    rfl
  refine ⟨fun fd hfd => ?_, fun fd n e hfd => ?_, fun n hn fd e hfd => ?_, fun fd n hfd => ?_, ?_, ?_⟩
  · have hrd := hvalid.le .read
    have hwr := hvalid.le .write
    show s.pipe.shell.get fd = _
    rw [hget, if_neg (by omega), if_neg (by omega)]
    exact h.shell.standing fd hfd
  · replace hfd : s.pipe.shell.get fd = _ := hfd
    rw [hget] at hfd
    show n < s.pipes + 1
    split_ifs at hfd
    · cases hfd
      exact Nat.lt_succ_self _
    · cases hfd
      exact Nat.lt_succ_self _
    · exact Nat.lt_succ_of_lt (h.shell.known fd n e hfd)
  · replace hfd : s.pipe.shell.get fd = _ := hfd
    replace hn : n + 1 = s.pipes + 1 := hn
    rw [hget] at hfd
    split_ifs at hfd with h1 h2
    · cases hfd
      exact h1
    · cases hfd
      exact h2
    · have hlt := h.shell.known fd n e hfd
      omega
  · replace hfd : s.pipe.shell.get fd = _ := hfd
    rw [hget] at hfd
    split_ifs at hfd with h1 h2
    · cases hfd
      exact ⟨rfl, .forkFirst, j, later, rfl, hnew, .inl rfl⟩
    · cases hfd
    · exact absurd hfd (h.no_writes hpiping fd n)
  · refine ⟨hlater, fun _ => hvalid, fun _ => hflag, fun _ _ => hflag, ?_⟩
    rw [hnew]
    rfl
  · intro stage j' later' hpc _
    refine ⟨Nat.succ_pos _, fun _ => ?_, fun _ => ?_⟩
    · show s.pipe.shell.get (ends s.pipe.mypipe .write) = _
      rw [hget, if_pos rfl]
      rfl
    · show s.pipe.shell.get (ends s.pipe.mypipe .read) = _
      rw [hget, if_neg hvalid.ne, if_pos rfl]
      rfl

theorem Inv.pipe (h : s.Inv) (hpiping : ¬s.Piping) (hnew : j.newPipe = true)
    (hflag : j.ispipe.isSome = true) (hlater : PipesFrom j.ispipe.isSome later) :
    (s.pipe.goto .forkFirst j later).Inv where
  shell := shellOk_pipe h hpiping hnew hflag hlater
  children := h.children.mono (Nat.le_succ _)
  unclaimed j' later' _ _ i c hc hown := by
    have hlt := h.children.owned i c hc s.pipes hown
    exact lt_irrefl _ hlt

/-- What a child starts with. -/
theorem sound_fork {stage : Stage} (h : s.Inv) (hpc : s.pc = .at stage j later) {first : Bool}
    (hstage : stage = if first then .forkFirst else .forkSecond) :
    Child.Sound {
      fds := s.shell
      mypipe := s.mypipe
      file := none
      todo := if first then firstOps j else secondOps
      job := j
      first
      own := s.own
      exited := false } := by
  have hflagged := h.shell.flagged
  rw [Flagged, hpc] at hflagged
  have hown {n : ℕ} (hn : s.own = some n) : j.newPipe = true ∧ n = s.pipes - 1 := by
    rw [hflagged.own] at hn
    split_ifs at hn with hnew
    exact ⟨hnew, (Option.some.inj hn).symm⟩
  have hat {n : ℕ} (hn : s.own = some n) : AtEnds s.mypipe n s.shell := by
    obtain ⟨hnew, rfl⟩ := hown hn
    have hpos := (h.shell.held stage j later hpc hnew).pos
    exact h.shell.atEnds _ (by omega)
  refine ⟨fun _ => ?_, fun fd n hfd => ?_, nofun⟩
  · cases first with
    | true =>
      refine ends_first h.shell.standing hflagged.valid fun n hn => ?_
      obtain ⟨hnew, hlast⟩ := hown hn
      refine ⟨hflagged.flag hnew, hat hn, ?_⟩
      rw [hlast]
      exact (h.shell.held stage j later hpc hnew).write hstage
    | false =>
      have hpiped : j.ispipe.isSome = true := by
        refine hflagged.piped ?_ ?_ <;> rw [hstage] <;> decide
      refine ends_second h.shell.standing (hflagged.valid hpiped) fun n hn => ?_
      obtain ⟨hnew, hlast⟩ := hown hn
      refine ⟨hat hn, ?_⟩
      rw [hlast]
      exact (h.shell.held stage j later hpc hnew).read (.inr (.inr hstage))
  · obtain ⟨hlast, stage', j', later', hpc', hnew, hpiping⟩ := h.shell.writes fd n hfd
    rw [hpc] at hpc'
    cases hpc'
    cases first with
    | true =>
      refine ⟨rfl, ?_⟩
      show s.own = some n
      rw [hflagged.own, hnew, ← hlast]
      rfl
    | false =>
      rw [hstage] at hpiping
      exact absurd hpiping (by decide)

theorem Inv.children_fork {stage : Stage} (h : s.Inv) (hpc : s.pc = .at stage j later)
    {first : Bool} (hstage : stage = if first then .forkFirst else .forkSecond) (ok : Bool) :
    ChildrenOk (s.fork ok j first).children s.pipes := by
  have hflagged := h.shell.flagged
  rw [Flagged, hpc] at hflagged
  have hown {n : ℕ} (hn : s.own = some n) :
      j.newPipe = true ∧ n = s.pipes - 1 ∧ n < s.pipes := by
    rw [hflagged.own] at hn
    split_ifs at hn with hnew
    have hpos := (h.shell.held stage j later hpc hnew).pos
    have hlast := Option.some.inj hn
    exact ⟨hnew, hlast.symm, by omega⟩
  cases ok with
  | false => exact h.children
  | true =>
    refine h.children.fork (sound_fork h hpc hstage) (fun n hn => (hown hn).2.2) ?_
    intro hfirst n hn k d hd
    obtain ⟨hnew, hlast, -⟩ := hown hn
    replace hfirst : first = true := hfirst
    rw [hlast]
    rw [hstage, hfirst] at hpc
    exact h.unclaimed j later hpc hnew k d hd

theorem fork_shell (s : Sys) (ok : Bool) (j : Job) (first : Bool) :
    (s.fork ok j first).shell = s.shell ∧ (s.fork ok j first).mypipe = s.mypipe ∧
      (s.fork ok j first).pipes = s.pipes ∧ (s.fork ok j first).own = s.own ∧
      (s.fork ok j first).isbkg = s.isbkg := by
  cases ok <;> exact ⟨rfl, rfl, rfl, rfl, rfl⟩

/-- The shell closes the end of the pipe that is the only one to write to, if there is any. -/
theorem Inv.closeEnd {stage stage' : Stage} {e : End} (h : s.Inv) (hpc : s.pc = .at stage j later)
    (hpiped : j.ispipe.isSome = true)
    (hwrites : ∀ fd n, s.shell.get fd = some (.pipe n .write) → fd = ends s.mypipe e)
    (hheld : j.newPipe = true → stage' ≠ .forkFirst ∧
      Held (s.shell.close (ends s.mypipe e)) s.mypipe s.pipes stage') :
    ((s.closeEnd e).goto stage' j later).Inv := by
  have hflagged := h.shell.flagged
  rw [Flagged, hpc] at hflagged
  have hvalid := hflagged.valid hpiped
  have hget {fd : ℕ} {o : Obj} (hfd : (s.shell.close (ends s.mypipe e)).get fd = some o) :
      fd ≠ ends s.mypipe e ∧ s.shell.get fd = some o := by
    rw [Fds.get_close] at hfd
    split_ifs at hfd with hne
    exact ⟨hne, hfd⟩
  refine ⟨⟨fun fd hfd => ?_, fun fd n e' hfd => ?_, fun n hn fd e' hfd => ?_, fun fd n hfd => ?_,
    ?_, fun stage'' j' later' hpc' hnew => ?_⟩, h.children, fun j' later' hpc' hnew => ?_⟩
  · have hle := hvalid.le e
    show (s.shell.close (ends s.mypipe e)).get fd = _
    rw [Fds.get_close, if_neg (by omega)]
    exact h.shell.standing fd hfd
  · exact h.shell.known fd n e' (hget hfd).2
  · exact h.shell.atEnds n hn fd e' (hget hfd).2
  · obtain ⟨hne, hfd'⟩ := hget hfd
    exact absurd (hwrites fd n hfd') hne
  · exact ⟨hflagged.later, hflagged.valid, hflagged.flag, fun _ _ => hpiped, hflagged.own⟩
  · cases hpc'
    exact (hheld hnew).2
  · cases hpc'
    exact absurd rfl (hheld hnew).1

theorem Inv.closeWrite (h : s.Inv) (hpc : s.pc = .at .closeWrite j later) :
    ((s.closeEnd .write).goto .forkSecond j later).Inv := by
  have hflagged := h.shell.flagged
  rw [Flagged, hpc] at hflagged
  have hpiped := hflagged.piped (by decide) (by decide)
  refine h.closeEnd hpc hpiped (fun fd n hfd => ?_) fun hnew => ⟨by decide, ?_⟩
  · exact h.shell.atEnds n (h.shell.writes fd n hfd).1 fd .write hfd
  · have hheld := h.shell.held _ j later hpc hnew
    refine ⟨hheld.pos, nofun, fun _ => ?_⟩
    rw [Fds.get_close, if_neg (hflagged.valid hpiped).ne]
    exact hheld.read (.inr (.inl rfl))

theorem Inv.closeRead (h : s.Inv) (hpc : s.pc = .at .closeRead j later) :
    ((s.closeEnd .read).goto .waitSecond j later).Inv := by
  have hflagged := h.shell.flagged
  rw [Flagged, hpc] at hflagged
  have hpiping : ¬s.Piping := not_piping_of fun stage j' later' hpc' => by
    rw [hpc] at hpc'
    cases hpc'
    decide
  refine h.closeEnd hpc (hflagged.piped (by decide) (by decide)) (fun fd n hfd => ?_) fun hnew => ?_
  · exact absurd hfd (h.no_writes hpiping fd n)
  · exact ⟨by decide, (h.shell.held _ j later hpc hnew).pos, nofun, nofun⟩

/-- Behind a fork of the second child, or of a child without one. -/
theorem Inv.forked {stage : Stage} (h : s.Inv) (hpc : s.pc = .at stage j later) (first : Bool)
    (hstage : stage = if first then .forkFirst else .forkSecond) (ok : Bool) (hpiping : ¬s.Piping) :
    ((s.fork ok j first).forked j later).Inv := by
  have hflagged := h.shell.flagged
  rw [Flagged, hpc] at hflagged
  obtain ⟨hshell, hmypipe, hpipes, hown, hisbkg⟩ := fork_shell s ok j first
  have hchildren := h.children_fork hpc hstage ok
  have hheld (hnew : j.newPipe = true) : Held s.shell s.mypipe s.pipes .waitFirst :=
    ⟨(h.shell.held stage j later hpc hnew).pos, nofun, nofun⟩
  rw [Sys.forked, hisbkg]
  cases s.isbkg with
  | true =>
    refine ⟨h.shell.moved hshell hmypipe hpipes (fun hp => absurd hp hpiping) ?_
      (fun _ _ _ hpc' => nomatch hpc'), ?_, (fun _ _ hpc' => nomatch hpc')⟩
    · refine ⟨j.ispipe.isSome, hflagged.later, ?_⟩
      show j.ispipe.isSome = true → Valid (s.fork ok j first).mypipe
      rw [hmypipe]
      exact hflagged.valid
    · show ChildrenOk (s.fork ok j first).children (s.fork ok j first).pipes
      rw [hpipes]
      exact hchildren
  | false =>
    refine ⟨h.shell.moved hshell hmypipe hpipes (fun hp => absurd hp hpiping) ?_ ?_, ?_, ?_⟩
    · show Within (s.fork ok j first).mypipe (s.fork ok j first).pipes (s.fork ok j first).own _ j
        later
      rw [hmypipe, hpipes, hown]
      exact ⟨hflagged.later, hflagged.valid, hflagged.flag, nofun, hflagged.own⟩
    · intro stage' j' later' hpc' hnew
      cases hpc'
      exact hheld hnew
    · show ChildrenOk (s.fork ok j first).children (s.fork ok j first).pipes
      rw [hpipes]
      exact hchildren
    · intro j' later' hpc'
      cases hpc'

theorem Inv.forkFirst (h : s.Inv) (hpc : s.pc = .at .forkFirst j later) (ok : Bool)
    (hpiped : j.ispipe.isSome = true) :
    ((s.fork ok j true).goto .closeWrite j later).Inv := by
  have hflagged := h.shell.flagged
  rw [Flagged, hpc] at hflagged
  obtain ⟨hshell, hmypipe, hpipes, hown, -⟩ := fork_shell s ok j true
  have hchildren : ChildrenOk (s.fork ok j true).children s.pipes := h.children_fork hpc rfl ok
  refine ⟨h.shell.moved hshell hmypipe hpipes (fun hp => ?_) ?_ ?_, ?_, ?_⟩
  · obtain ⟨stage, j', later', hpc', hnew, -⟩ := hp
    rw [hpc] at hpc'
    cases hpc'
    exact ⟨.closeWrite, j, later, rfl, hnew, .inr rfl⟩
  · show Within (s.fork ok j true).mypipe (s.fork ok j true).pipes (s.fork ok j true).own _ j later
    rw [hmypipe, hpipes, hown]
    exact ⟨hflagged.later, hflagged.valid, hflagged.flag, fun _ _ => hpiped, hflagged.own⟩
  · intro stage j' later' hpc' hnew
    cases hpc'
    have hheld := h.shell.held _ j later hpc hnew
    exact ⟨hheld.pos, nofun, fun _ => hheld.read (.inl rfl)⟩
  · show ChildrenOk (s.fork ok j true).children (s.fork ok j true).pipes
    rw [hpipes]
    exact hchildren
  · intro j' later' hpc'
    cases hpc'

theorem Inv.reap {child : Option ℕ} {s' : Sys} (h : s.Inv) (hr : s.reap child = .ok s') :
    s'.Inv ∧ s'.pc = s.pc := by
  cases child with
  | none =>
    rw [Sys.reap] at hr
    split_ifs at hr
    cases hr
    exact ⟨h, rfl⟩
  | some i =>
    rw [Sys.reap] at hr
    split at hr
    · split_ifs at hr
      cases hr
      exact ⟨h.setChild (fun c hc => absurd hc (Option.not_mem_none c)) fun c hc =>
        absurd hc (Option.not_mem_none c), rfl⟩
    · cases hr

/-- After a `wait` that is not followed by another one. -/
theorem Inv.waited {stage : Stage} (h : s.Inv) (hpc : s.pc = .at stage j later)
    (hstage : stage = .waitFirst ∨ stage = .waitSecond) : Sys.Inv { s with pc := .segment later } := by
  have hflagged := h.shell.flagged
  rw [Flagged, hpc] at hflagged
  refine h.moved ⟨rfl, rfl, rfl, rfl⟩ ?_ ⟨_, hflagged.later, hflagged.valid⟩ fun _ _ _ hpc' =>
    nomatch hpc'
  refine not_piping_of fun stage' j' later' hpc' => ?_
  rw [hpc] at hpc'
  cases hpc'
  obtain rfl | rfl := hstage
  · decide
  · decide

theorem Inv.waitedFirst (h : s.Inv) (hpc : s.pc = .at .waitFirst j later)
    (hpiped : j.ispipe.isSome = true) : (s.goto .closeRead j later).Inv := by
  have hflagged := h.shell.flagged
  rw [Flagged, hpc] at hflagged
  refine h.moved ⟨rfl, rfl, rfl, rfl⟩ ?_ ?_ fun stage j' later' hpc' hnew => ?_
  · refine not_piping_of fun stage j' later' hpc' => ?_
    rw [hpc] at hpc'
    cases hpc'
    decide
  · exact ⟨hflagged.later, hflagged.valid, hflagged.flag, fun _ _ => hpiped, hflagged.own⟩
  · cases hpc'
    exact ⟨by decide, (h.shell.held _ j later hpc hnew).pos, nofun, nofun⟩

/-- The next segment begins. -/
theorem Inv.segment {j : Job} (h : s.Inv) (hpc : s.pc = .segment (j :: later)) :
    ((if j.newPipe then s.pipe else { s with own := none }).goto .forkFirst j later).Inv := by
  have hflagged := h.shell.flagged
  rw [Flagged, hpc] at hflagged
  obtain ⟨up, ⟨hup, hlater⟩, hvalid⟩ := hflagged
  rw [← hup] at hlater
  have hpiping : ¬s.Piping := not_piping_of fun stage j' later' hpc' => by
    rw [hpc] at hpc'
    cases hpc'
  cases hnew : j.newPipe with
  | true =>
    rw [if_pos rfl]
    refine h.pipe hpiping hnew ?_ hlater
    rw [hup, hnew, Bool.or_true]
  | false =>
    rw [if_neg Bool.false_ne_true]
    rw [hnew, Bool.or_false] at hup
    refine h.moved ⟨rfl, rfl, rfl, rfl⟩ hpiping ?_ fun stage j' later' hpc' hnew' => ?_
    · refine ⟨hlater, fun hp => hvalid (hup ▸ hp), fun hn => ?_, fun hne => absurd rfl hne, ?_⟩
      · rw [hnew] at hn
        cases hn
      · rw [hnew]
        rfl
    · cases hpc'
      rw [hnew] at hnew'
      cases hnew'

/-- A line, if there is one to wait for, is read. -/
theorem Inv.line {input : List Char} {s' : Sys} (h : s.Inv) (hpc : s.pc = .prompt)
    (hstep : s.step (.line input) = .ok s') : s'.Inv := by
  have hpiping : ¬s.Piping := not_piping_of fun stage j later hpc' => by
    rw [hpc] at hpc'
    cases hpc'
  rw [Sys.step, hpc] at hstep
  cases hl : runLine input with
  | none =>
    simp only [hl] at hstep
    cases hstep
    exact h
  | some l =>
    simp only [hl] at hstep
    cases hstep
    exact h.moved ⟨rfl, rfl, rfl, rfl⟩ hpiping ⟨false, runLine_pipesFrom hl, nofun⟩
      fun _ _ _ hpc' => nomatch hpc'

theorem Inv.proceed {ok : Bool} {s' : Sys} (h : s.Inv) (hstep : s.step (.proceed ok) = .ok s') :
    s'.Inv := by
  rw [Sys.step] at hstep
  split at hstep
  next hpc =>
    split_ifs at hstep
    cases hstep
    refine h.moved ⟨rfl, rfl, rfl, rfl⟩ ?_ trivial fun _ _ _ hpc' => nomatch hpc'
    refine not_piping_of fun stage j later hpc' => ?_
    rw [hpc] at hpc'
    cases hpc'
  next j later hpc =>
    cases hstep
    exact h.segment hpc
  next j later hpc =>
    cases hp : j.ispipe.isSome with
    | true =>
      simp only [hp, if_true] at hstep
      cases hstep
      exact h.forkFirst hpc ok hp
    | false =>
      simp only [hp, Bool.false_eq_true, if_false] at hstep
      cases hstep
      refine h.forked hpc true rfl ok ?_
      rintro ⟨stage, j', later', hpc', hnew, -⟩
      have hflagged := h.shell.flagged
      rw [Flagged, hpc] at hflagged
      rw [hpc] at hpc'
      cases hpc'
      rw [hflagged.flag hnew] at hp
      cases hp
  next j later hpc =>
    cases hstep
    exact h.closeWrite hpc
  next j later hpc =>
    cases hstep
    refine h.forked hpc false rfl ok (not_piping_of fun stage j' later' hpc' => ?_)
    rw [hpc] at hpc'
    cases hpc'
    decide
  next j later hpc =>
    cases hstep
    exact h.closeRead hpc
  next => cases hstep

theorem Inv.wait {child : Option ℕ} {s' : Sys} (h : s.Inv)
    (hstep : s.step (.wait child) = .ok s') : s'.Inv := by
  rw [Sys.step] at hstep
  split at hstep
  next j later hpc =>
    obtain ⟨r, hr, rfl⟩ := Outcome.map_eq_ok.mp hstep
    obtain ⟨hinv, hrpc⟩ := h.reap hr
    rw [hpc] at hrpc
    split_ifs with hp
    · exact hinv.waitedFirst hrpc hp
    · exact hinv.waited hrpc (.inl rfl)
  next j later hpc =>
    obtain ⟨r, hr, rfl⟩ := Outcome.map_eq_ok.mp hstep
    obtain ⟨hinv, hrpc⟩ := h.reap hr
    rw [hpc] at hrpc
    exact hinv.waited hrpc (.inr rfl)
  next => cases hstep

theorem Inv.child {i : ℕ} {ok : Bool} {s' : Sys} (h : s.Inv)
    (hstep : s.step (.child i ok) = .ok s') : s'.Inv := by
  rw [Sys.step] at hstep
  split at hstep
  next c hc =>
    split at hstep
    next op todo hexited htodo =>
      cases hstep
      refine h.setChild (fun c' hc' => ?_) fun c' hc' => ⟨c, hc, ?_⟩
      · cases hc'
        exact (h.children.sound i c hc).run hexited htodo ok
      · cases hc'
        exact ⟨rfl, rfl⟩
    next => cases hstep
  next => cases hstep

theorem Inv.exits {i : ℕ} {s' : Sys} (h : s.Inv) (hstep : s.step (.exits i) = .ok s') :
    s'.Inv := by
  rw [Sys.step] at hstep
  split at hstep
  next c hc =>
    split_ifs at hstep
    cases hstep
    refine h.setChild (fun c' hc' => ?_) fun c' hc' => ⟨c, hc, ?_⟩
    · cases hc'
      exact c.sound_exits
    · cases hc'
      exact ⟨rfl, rfl⟩
  next => cases hstep

theorem Inv.step {a : Act} {s' : Sys} (h : s.Inv) (hstep : s.step a = .ok s') : s'.Inv := by
  cases a with
  | line input =>
    cases hpc : s.pc with
    | prompt => exact h.line hpc hstep
    | segment jobs =>
      rw [Sys.step, hpc] at hstep
      cases hstep
    | «at» stage j later =>
      rw [Sys.step, hpc] at hstep
      cases hstep
  | proceed ok => exact h.proceed hstep
  | wait child => exact h.wait hstep
  | child i ok => exact h.child hstep
  | exits i => exact h.exits hstep

variable {as : List Act}

/-- Both children of "a|b", which get to their programs one after the other. -/
def session : List Act :=
  [.line ['a', '|', 'b'], .proceed true, .proceed true, .proceed true, .proceed true,
    .child 0 true, .child 0 true, .child 0 true, .child 0 true,
    .child 1 true, .child 1 true, .child 1 true, .child 1 true]

end Sys

end KernelExperiment.Shell.Plumbing
