import KernelExperiment.Event.Dangling

/-! The event table under any number of processes. An open or a close of an event is one step;
`myevent_wait` and `myevent_signal` go through the event that they found in single steps, so it may
be closed under them. -/

namespace KernelExperiment.Event.Callers
open Runs Chain

variable {P : Type*}

/-- Where a process is. Behind the search it works on the address of the node found. -/
inductive Pc where
  | outside
  | waitFound (tmp : Addr)
  | waitRecheck (tmp : Addr)
  | waitEnqueue (tmp : Addr)
  | waitSchedule (tmp : Addr)
  | asleep (tmp : Addr)
  | woken
  | signalFound (tmp : Addr)
  | signalRecheck (tmp : Addr)
  | signalWake (tmp : Addr)
  deriving DecidableEq, Repr

structure Sys (P : Type*) where
  hist : Hist P
  pc : P → Pc

/-- `interrupt` ends the sleep of a process by a signal to it. -/
inductive Act (P : Type*) where
  | opens (eventNum c : Int) (new : Addr)
  | close (eventNum : Int)
  | wait (p : P) (eventNum : Int)
  | signal (p : P) (eventNum : Int)
  | proceed (p : P)
  | interrupt (p : P)

namespace Sys

def initial : Sys P := { hist := Hist.empty, pc := fun _ => .outside }

variable [DecidableEq P]

def goto (s : Sys P) (p : P) (c : Pc) : Sys P := { s with pc := Function.update s.pc p c }

def wake (s : Sys P) (p : Option P) : Sys P :=
  match p with
  | none => s
  | some p => s.goto p .woken

def put (s : Sys P) (tmp : Addr) (e : MyEvent P) : Sys P :=
  { s with hist.table := s.hist.table.write tmp e }

/-- A use of the node at `tmp`. -/
def use (s : Sys P) (tmp : Addr) (f : MyEvent P → Sys P) : Outcome (Sys P) :=
  match s.hist.table.mem tmp with
  | none => .fault
  | some e => .ok (f e)

/-- The search that starts a call of `myevent_wait` or `myevent_signal`. -/
def search (s : Sys P) (p : P) (eventNum : Int) (found : Addr → Pc) : Outcome (Sys P) :=
  if s.pc p ≠ .outside then .blocked
  else
    match scheventNum s.hist.table eventNum with
    | none => .fault
    | some (none, _) => .ok s
    | some (some tmp, _) => .ok (s.goto p (found tmp))

def proceed (s : Sys P) (p : P) : Outcome (Sys P) :=
  match s.pc p with
  | .outside => .blocked
  | .waitFound tmp => s.use tmp fun e => (s.put tmp e.lockedDec).goto p (.waitRecheck tmp)
  | .waitRecheck tmp =>
    s.use tmp fun e => s.goto p (if e.count < 0 then .waitEnqueue tmp else .outside)
  | .waitEnqueue tmp =>
    s.use tmp fun e => (s.put tmp (e.prepareToWaitExclusive p)).goto p (.waitSchedule tmp)
  | .waitSchedule tmp => .ok (s.goto p (.asleep tmp))
  | .asleep _ => .blocked
  -- finish_wait finds the entry already off the queue and leaves the node alone
  | .woken => .ok (s.goto p .outside)
  | .signalFound tmp => s.use tmp fun e => (s.put tmp e.lockedInc).goto p (.signalRecheck tmp)
  | .signalRecheck tmp =>
    s.use tmp fun e => s.goto p (if e.count ≤ 0 then .signalWake tmp else .outside)
  | .signalWake tmp => s.use tmp fun e => ((s.put tmp e.wakeUp.2).wake e.wakeUp.1).goto p .outside

def step (s : Sys P) : Act P → Outcome (Sys P)
  | .opens eventNum c new => (s.hist.step (.opens eventNum c new)).map fun hist => { s with hist }
  | .close eventNum =>
    (s.hist.step (.close eventNum)).map fun hist =>
      { s with hist }.wake (wokenByClose s.hist.table eventNum)
  | .wait p eventNum => s.search p eventNum .waitFound
  | .signal p eventNum => s.search p eventNum .signalFound
  | .proceed p => s.proceed p
  | .interrupt p =>
    match s.pc p with
    -- finish_wait takes the entry off the queue
    | .asleep tmp => s.use tmp fun e => (s.put tmp { e with p := e.p.erase p }).goto p .woken
    | _ => .blocked

end Sys

/-! The list of live events in every reachable state. -/

variable [DecidableEq P] {s t : Sys P} {a : Act P}

/-- What a step does to the table: a whole call, a change of one node in its place, or nothing. -/
inductive Changes (h : Hist P) : Hist P → Prop
  | call {call : Call} {h' : Hist P} (hs : h.step call = .ok h') : Changes h h'
  | node {tmp : Addr} {e w : MyEvent P} (he : h.table.mem tmp = some e)
      (hnum : w.eventNum = e.eventNum) (hnext : w.next = e.next) :
      Changes h { h with table := h.table.write tmp w }
  | same : Changes h h

@[simp] theorem goto_hist (s : Sys P) (p : P) (c : Pc) : (s.goto p c).hist = s.hist := rfl

@[simp] theorem wake_hist (s : Sys P) (p : Option P) : (s.wake p).hist = s.hist := by
  cases p <;> rfl

omit [DecidableEq P] in
theorem use_eq_ok {tmp : Addr} {f : MyEvent P → Sys P} (hs : s.use tmp f = .ok t) :
    ∃ e, s.hist.table.mem tmp = some e ∧ t = f e := by
  rw [Sys.use] at hs
  split at hs
  · cases hs
  · rename_i e he
    cases hs
    exact ⟨e, he, rfl⟩

theorem proceed_changes {p : P} (hs : s.proceed p = .ok t) : Changes s.hist t.hist := by
  rw [Sys.proceed] at hs
  split at hs
  case h_1 => cases hs
  case h_2 =>
    obtain ⟨e, he, rfl⟩ := use_eq_ok hs
    exact .node he (MyEvent.lockedDec_eventNum e) (MyEvent.lockedDec_next e)
  case h_3 =>
    obtain ⟨e, he, rfl⟩ := use_eq_ok hs
    exact .same
  case h_4 =>
    obtain ⟨e, he, rfl⟩ := use_eq_ok hs
    exact .node he (MyEvent.prepareToWaitExclusive_eventNum e p)
      (MyEvent.prepareToWaitExclusive_next e p)
  case h_5 =>
    cases hs
    exact .same
  case h_6 => cases hs
  case h_7 =>
    cases hs
    exact .same
  case h_8 =>
    obtain ⟨e, he, rfl⟩ := use_eq_ok hs
    exact .node he (MyEvent.lockedInc_eventNum e) (MyEvent.lockedInc_next e)
  case h_9 =>
    obtain ⟨e, he, rfl⟩ := use_eq_ok hs
    exact .same
  case h_10 tmp _ =>
    obtain ⟨e, he, rfl⟩ := use_eq_ok hs
    have hchange : Changes s.hist (s.put tmp e.wakeUp.2).hist :=
      .node he (MyEvent.wakeUp_eventNum e) (MyEvent.wakeUp_next e)
    rwa [goto_hist, wake_hist]

theorem search_changes {p : P} {n : Int} {found : Addr → Pc} (hs : s.search p n found = .ok t) :
    Changes s.hist t.hist := by
  rw [Sys.search] at hs
  split_ifs at hs
  split at hs <;> cases hs <;> exact .same

theorem step_changes (hs : s.step a = .ok t) : Changes s.hist t.hist := by
  cases a with
  | opens n c new =>
    obtain ⟨h, hh, rfl⟩ := Outcome.map_eq_ok.mp hs
    exact .call hh
  | close n =>
    obtain ⟨h, hh, rfl⟩ := Outcome.map_eq_ok.mp hs
    rw [wake_hist]
    exact .call hh
  | wait p n => exact search_changes hs
  | signal p n => exact search_changes hs
  | proceed p => exact proceed_changes hs
  | interrupt p =>
    rw [Sys.step] at hs
    split at hs
    · obtain ⟨e, he, rfl⟩ := use_eq_ok hs
      exact .node (w := { e with p := e.p.erase p }) he rfl rfl
    · cases hs

omit [DecidableEq P] in
theorem Changes.threaded {h h' : Hist P} (hc : Changes h h')
    (hw : ∃ stop, Threaded h.table h.live stop) : ∃ stop, Threaded h'.table h'.live stop := by
  obtain ⟨stop, hw⟩ := hw
  cases hc with
  | node he hnum hnext => exact ⟨stop, hw.write he hnum hnext⟩
  | same => exact ⟨stop, hw⟩
  | @call call _ hs =>
    cases call with
    | opens n c new =>
      simp only [Hist.step] at hs
      split_ifs at hs with hb
      obtain ⟨hn, hmem⟩ := not_or.mp hb
      have hfree : h.table.mem new = none := by simpa using hmem
      split at hs
      · cases hs
      · rename_i r t' hopen
        cases hs
        rcases hw.opens hn hfree hopen with ⟨rfl, rfl⟩ | ⟨hr, -, hw'⟩
        · exact ⟨stop, hw⟩
        · exact ⟨none, by simpa only [if_neg hr] using hw'⟩
    | close n =>
      simp only [Hist.step] at hs
      split at hs
      · rename_i b prev r t' hfind hclose
        cases hs
        rcases hw.search n with ⟨-, hnot⟩ | ⟨a, pre, post, hlive, hnum, hfound⟩
        · exact absurd hfind (hnot b prev)
        · rw [hfound, Option.some.injEq, Prod.mk.injEq, Option.some.injEq] at hfind
          obtain ⟨rfl, -⟩ := hfind
          rw [hlive] at hw ⊢
          rw [hw.erase_eq]
          exact hw.close hnum hclose
      · rename_i prev r t' hfind hclose
        cases hs
        rcases hw.search n with ⟨hmiss, -⟩ | ⟨a, pre, post, hlive, hnum, hfound⟩
        · rw [hw.close_missing hmiss hclose]
          exact ⟨stop, hw⟩
        · cases hfound.symm.trans hfind
      · cases hs

theorem threaded_run {acts : List (Act P)} (hs : exec Sys.step Sys.initial acts = .ok s) :
    ∃ stop, Threaded s.hist.table s.hist.live stop := by
  have hstart : ∃ stop, Threaded (Hist.empty : Hist P).table (Hist.empty : Hist P).live stop :=
    ⟨none, wellLinked_empty.threaded⟩
  exact exec_invariant (I := fun s : Sys P => ∃ stop, Threaded s.hist.table s.hist.live stop)
    (fun _ _ _ hw hs => (step_changes hs).threaded hw) hstart hs

/-! Closing an event with processes asleep on it. -/

/-- The process sleeps on the wait queue of the event at `a`. -/
def AsleepOn (s : Sys P) (a : Addr) (p : P) : Prop :=
  s.pc p = .asleep a ∧ ∃ e ∈ s.hist.table.mem a, p ∈ e.p

/-- Nobody sleeps on the event, or only the first of its wait queue does, the event is the last of
the table, and the bounded increment leaves `count` at zero or below. -/
def ReleasesAll (s : Sys P) (a : Addr) : Prop :=
  ∀ p, AsleepOn s a p → s.hist.table.lpmyeventEnd = some a ∧
    ∃ e ∈ s.hist.table.mem a, e.p.head? = some p ∧ e.lockedInc.count ≤ 0

theorem wake_pc (s : Sys P) (o : Option P) (p : P) :
    (s.wake o).pc p = if o = some p then .woken else s.pc p := by
  cases o with
  | none => rfl
  | some q =>
    show Function.update s.pc q .woken p = _
    rcases eq_or_ne p q with rfl | hne
    · rw [Function.update_self, if_pos rfl]
    · rw [Function.update_of_ne hne, if_neg fun he => hne (Option.some.inj he).symm]

theorem close_pc {n : Int} (hs : s.step (.close n) = .ok t) (p : P) :
    t.pc p = if wokenByClose s.hist.table n = some p then .woken else s.pc p := by
  obtain ⟨h, -, rfl⟩ := Outcome.map_eq_ok.mp hs
  exact wake_pc { s with hist := h } _ p

theorem close_returns {n : Int} (hs : s.step (.close n) = .ok t) :
    ∃ r, myeventClose s.hist.table n = some r := by
  obtain ⟨h, hh, -⟩ := Outcome.map_eq_ok.mp hs
  simp only [Hist.step] at hh
  split at hh
  · exact ⟨_, ‹_›⟩
  · exact ⟨_, ‹_›⟩
  · cases hh

/-- In every reachable state, a close that returns has woken every process asleep on the event
exactly when `ReleasesAll` held. -/
theorem released_iff_releasesAll {acts : List (Act P)}
    (hs : exec Sys.step Sys.initial acts = .ok s) {n : Int} {b : Addr} (hb : b ∈ s.hist.live)
    (hn : numberOf s.hist.table.mem b = some n) (ht : s.step (.close n) = .ok t) :
    (∀ p, AsleepOn s b p → t.pc p ≠ .asleep b) ↔ ReleasesAll s b := by
  obtain ⟨stop, hw⟩ := threaded_run hs
  obtain ⟨r, hclose⟩ := close_returns ht
  obtain ⟨e, he⟩ := hw.chain.allocated hb
  obtain ⟨pre, post, hlive⟩ := List.append_of_mem hb
  rw [hlive] at hw
  refine forall_congr' fun p => imp_congr_right fun hp => ?_
  have hwoken : t.pc p ≠ .asleep b ↔ wokenByClose s.hist.table n = some p := by
    rw [close_pc ht p, hp.1]
    split_ifs with h <;> simp [h]
  rw [hwoken]
  rcases eq_or_ne post [] with rfl | hpost
  · have hlast : s.hist.table.lpmyeventEnd = some b := by rw [hw.last, List.getLast?_concat]
    rw [hw.woken_last hn he]
    split_ifs with hc <;> simp [hlast, he, hc]
  · obtain ⟨-, -, -, hnone⟩ := hw.close_middle hn hpost hclose
    have hlast : s.hist.table.lpmyeventEnd ≠ some b := by
      obtain ⟨post, l, rfl⟩ := (List.eq_nil_or_concat' post).resolve_left hpost
      have hlb : l ≠ b := by
        rintro rfl
        exact hw.notMem_rest (by simp)
      rw [hw.last]
      simpa [List.getLast?_append, List.getLast?_cons] using hlb
    rw [hnone]
    simp [hlast]

/-- Process 0 passes an event of count 1, and processes 1 and 2 sleep on it. -/
def twoWaiters : List (Act ℕ) :=
  [.opens 2 1 0, .wait 0 2, .proceed 0, .proceed 0, .wait 1 2, .proceed 1, .proceed 1, .proceed 1,
    .proceed 1, .wait 2 2, .proceed 2, .proceed 2, .proceed 2, .proceed 2]

theorem twoWaiters_run :
    ∃ s t : Sys ℕ, exec Sys.step Sys.initial twoWaiters = .ok s ∧ 0 ∈ s.hist.live ∧
      numberOf s.hist.table.mem 0 = some 2 ∧ s.step (.close 2) = .ok t ∧ AsleepOn s 0 2 ∧
        t.pc 2 = .asleep 0 := by
  have hrun : (exec Sys.step (Sys.initial : Sys ℕ) twoWaiters).map (fun s =>
      (s.hist.live, s.hist.table.mem 0, s.pc 2, (s.step (.close 2)).map fun t => t.pc 2)) =
      .ok ([0], some { eventNum := 2, p := [1, 2], next := none, count := -2, initCount := 1 },
        .asleep 0, .ok (.asleep 0)) := by decide
  obtain ⟨s, hs, hobs⟩ := Outcome.map_eq_ok.mp hrun
  simp only [Prod.mk.injEq] at hobs
  obtain ⟨hlive, hnode, hpc, hclose⟩ := hobs
  obtain ⟨t, ht, hpc'⟩ := Outcome.map_eq_ok.mp hclose
  refine ⟨s, t, hs, by simp [hlive], by simp [numberOf, hnode], ht, ⟨hpc, _, hnode, by simp⟩, hpc'⟩

theorem released_twoWaiters :
    ∃ s t : Sys ℕ, exec Sys.step Sys.initial twoWaiters = .ok s ∧ s.step (.close 2) = .ok t ∧
      ((∀ p, AsleepOn s 0 p → t.pc p ≠ .asleep 0) ↔ ReleasesAll s 0) := by
  obtain ⟨s, t, hs, hlive, hnum, ht, -, -⟩ := twoWaiters_run
  exact ⟨s, t, hs, ht, released_iff_releasesAll hs hlive hnum ht⟩

theorem close_leaves_sleeper :
    ¬ ∀ (acts : List (Act ℕ)) (s t : Sys ℕ) (n : Int) (b : Addr),
      exec Sys.step Sys.initial acts = .ok s → b ∈ s.hist.live →
        numberOf s.hist.table.mem b = some n → s.step (.close n) = .ok t →
          ∀ p, AsleepOn s b p → t.pc p ≠ .asleep b := by
  intro h
  obtain ⟨s, t, hs, hlive, hnum, ht, hsleeps, hpc⟩ := twoWaiters_run
  exact h twoWaiters s t 2 0 hs hlive hnum ht 2 hsleeps hpc

end KernelExperiment.Event.Callers
