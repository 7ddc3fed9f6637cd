import KernelExperiment.Access.Gate
import KernelExperiment.Lib.Runs
import Mathlib.Logic.Function.Basic

/-! Opens and releases of the uid devices by any number of processes. A section under the spin lock is
one step; each comparison that the blocking open makes without the lock, its moves on and off the wait
queue, the sleep and the wake-up are steps of their own. -/

namespace KernelExperiment.Access
open Kernel Tenancy Runs

/-- `sculluid` turns others away, `scullwuid` makes them wait. -/
inductive UidDevice where
  | sculluid
  | scullwuid
  deriving DecidableEq, Repr

/-- A call of open: who makes it, and `O_NONBLOCK`. -/
structure Open where
  cred : Cred
  nonblock : Bool
  deriving DecidableEq, Repr

/-- The comparison of `scull_w_available` that comes next. -/
inductive Test where
  | count
  | uid
  | euid
  deriving DecidableEq, Repr

/-- Where a process is. It is outside with what its last open has returned; its tests are made before
it joins the wait queue or after. -/
inductive Pc where
  | outside (returned : Option (Except Errno Unit))
  | lock (o : Open)
  | test (o : Open) (joined : Bool) (next : Test)
  | prepareToWait (o : Open)
  | schedule (o : Open)
  | finishWait (o : Open) (interrupted : Bool)
  | wakeUp

/-- The code does not keep by whom the files have been opened, nor who was the last to find the count
zero. -/
structure Sys (P : Type*) where
  gate : Gate
  files : List Cred
  founder : Option Cred
  pc : P → Pc
  interruptible : P → Bool
  queued : P → Bool
  signalPending : P → Bool

inductive Act (P : Type*) where
  | opens (p : P) (o : Open)
  | proceed (p : P)
  | release (p : P) (file : ℕ)
  | signal (p : P)

namespace Sys

variable {P : Type*}

def initial : Sys P :=
  { gate := .initial, files := [], founder := none, pc := fun _ => .outside none,
    interruptible := fun _ => false, queued := fun _ => false, signalPending := fun _ => false }

variable [DecidableEq P]

def goto (s : Sys P) (p : P) (c : Pc) : Sys P := { s with pc := Function.update s.pc p c }

/-- An open returns. -/
def reply (s : Sys P) (p : P) (r : Except Errno Unit) : Sys P := s.goto p (.outside (some r))

/-- The section of an open that goes through, up to its return. -/
def grant (s : Sys P) (p : P) (c : Cred) : Sys P :=
  { s with
    gate := s.gate.enter c
    files := c :: s.files
    founder := if s.gate.count = 0 then some c else s.founder }.reply p (.ok ())

def prepareToWait (s : Sys P) (p : P) : Sys P :=
  { s with
    queued := Function.update s.queued p true
    interruptible := Function.update s.interruptible p true }

def finishWait (s : Sys P) (p : P) : Sys P :=
  { s with
    queued := Function.update s.queued p false
    interruptible := Function.update s.interruptible p false }

def running (s : Sys P) (p : P) : Sys P :=
  { s with interruptible := Function.update s.interruptible p false }

/-- Every sleeper on the queue is runnable again and off it. -/
def wakeUpInterruptible (s : Sys P) : Sys P :=
  { s with
    queued := fun p => s.queued p && !s.interruptible p
    interruptible := fun p => !s.queued p && s.interruptible p }

/-- The section of an open. -/
def locked (dev : UidDevice) (s : Sys P) (p : P) (o : Open) : Sys P :=
  match dev with
  | .sculluid => if s.gate.Busy o.cred then s.reply p (.error .ebusy) else s.grant p o.cred
  | .scullwuid =>
    if s.gate.Available o.cred then s.grant p o.cred
    else if o.nonblock then s.reply p (.error .eagain)
    else s.goto p (.test o false .count)

/-- What a comparison without the lock leads to. -/
def tested (s : Sys P) (p : P) (o : Open) (joined : Bool) : Test → Bool → Sys P
  | _, true => s.goto p (if joined then .finishWait o false else .lock o)
  | .count, false => s.goto p (.test o joined .uid)
  | .uid, false => s.goto p (.test o joined .euid)
  | .euid, false =>
    if joined then
      if s.signalPending p then s.goto p (.finishWait o true) else s.goto p (.schedule o)
    else s.goto p (.prepareToWait o)

/-- The comparison with `euid` goes on to `capable`, which looks at the process alone. -/
def compare (g : Gate) (c : Cred) : Test → Bool
  | .count => g.count = 0
  | .uid => g.owner = c.uid
  | .euid => g.owner = c.euid || c.dacOverride

def proceed (dev : UidDevice) (s : Sys P) (p : P) : Outcome (Sys P) :=
  match s.pc p with
  | .outside _ => .blocked
  | .lock o => .ok (s.locked dev p o)
  | .test o joined k => .ok (s.tested p o joined k (compare s.gate o.cred k))
  | .prepareToWait o => .ok ((s.prepareToWait p).goto p (.test o true .count))
  | .schedule o =>
    if s.interruptible p ∧ ¬s.signalPending p then .blocked
    else .ok ((s.running p).goto p (.prepareToWait o))
  | .finishWait o interrupted =>
    .ok (if interrupted then (s.finishWait p).reply p (.error .erestartsys)
      else (s.finishWait p).goto p (.lock o))
  | .wakeUp => .ok (s.wakeUpInterruptible.goto p (.outside none))

/-- The release that brings the count of `scullwuid` to zero goes on to wake the sleepers. -/
def released (dev : UidDevice) (g : Gate) : Pc :=
  match dev with
  | .sculluid => .outside none
  | .scullwuid => if g.count = 0 then .wakeUp else .outside none

/-- Signals are delivered on the way back to user mode, so a call starts with none pending. -/
def step (dev : UidDevice) (s : Sys P) : Act P → Outcome (Sys P)
  | .opens p o =>
    match s.pc p with
    | .outside _ =>
      .ok ({ s with signalPending := Function.update s.signalPending p false }.goto p (.lock o))
    | _ => .blocked
  | .proceed p => s.proceed dev p
  | .release p file =>
    match s.pc p with
    | .outside _ =>
      if file < s.files.length then
        .ok ({ s with gate := s.gate.leave, files := s.files.eraseIdx file }.goto p
          (released dev s.gate.leave))
      else .blocked
    | _ => .blocked
  | .signal p =>
    .ok { s.running p with signalPending := Function.update s.signalPending p true }

/-! What a step does to the gate. -/

inductive Effect (dev : UidDevice) (s : Sys P) : Act P → Sys P → Prop
  | granted {p o} (hp : s.pc p = .lock o) (h : s.gate.Available o.cred) :
      Effect dev s (.proceed p) (s.grant p o.cred)
  | closed {p r file} (hp : s.pc p = .outside r) (h : file < s.files.length) :
      Effect dev s (.release p file)
        ({ s with gate := s.gate.leave, files := s.files.eraseIdx file }.goto p
          (released dev s.gate.leave))
  | none {a t} (hgate : t.gate = s.gate) (hfiles : t.files = s.files)
      (hfounder : t.founder = s.founder)
      (hpc : ∀ p o, s.pc p = .lock o → t.pc p ≠ .outside (some (.ok ()))) : Effect dev s a t

variable {dev : UidDevice} {s t u : Sys P} {a : Act P} {p q : P} {o : Open}

@[simp] theorem goto_pc_self (s : Sys P) (p : P) (c : Pc) : (s.goto p c).pc p = c :=
  Function.update_self ..

theorem goto_pc_of_ne (s : Sys P) (c : Pc) (h : q ≠ p) : (s.goto p c).pc q = s.pc q :=
  Function.update_of_ne h ..

/-- A process moves, and no open returns with success. -/
theorem Effect.move (u : Sys P) (p : P) {c : Pc} (hc : c ≠ .outside (some (.ok ())))
    (hpc : u.pc = s.pc) (hgate : u.gate = s.gate) (hfiles : u.files = s.files)
    (hfounder : u.founder = s.founder) : Effect dev s a (u.goto p c) := by
  refine .none hgate hfiles hfounder fun q o hq => ?_
  by_cases hqp : q = p
  · rwa [hqp, goto_pc_self]
  · rw [goto_pc_of_ne u c hqp, hpc, hq]
    nofun

theorem locked_effect (hp : s.pc p = .lock o) :
    Effect dev s (.proceed p) (s.locked dev p o) := by
  cases dev with
  | sculluid =>
    rw [locked]
    split_ifs with hbusy
    · exact .move s p nofun rfl rfl rfl rfl
    · exact .granted hp (Gate.not_busy_iff.mp hbusy)
  | scullwuid =>
    rw [locked]
    split_ifs with hok
    · exact .granted hp hok
    · exact .move s p nofun rfl rfl rfl rfl
    · exact .move s p nofun rfl rfl rfl rfl

/-- Where a process goes from a comparison without the lock. -/
inductive AfterTest (o : Open) : Bool → Test → Bool → Pc → Prop
  | retry {k} : AfterTest o false k true (.lock o)
  | found {k} : AfterTest o true k true (.finishWait o false)
  | uid {joined} : AfterTest o joined .count false (.test o joined .uid)
  | euid {joined} : AfterTest o joined .uid false (.test o joined .euid)
  | join : AfterTest o false .euid false (.prepareToWait o)
  | sleep : AfterTest o true .euid false (.schedule o)
  | interrupted : AfterTest o true .euid false (.finishWait o true)

theorem AfterTest.ne_return {joined b : Bool} {k : Test} {c : Pc} (h : AfterTest o joined k b c) :
    c ≠ .outside (some (.ok ())) := by
  cases h <;> nofun

theorem tested_goto (s : Sys P) (p : P) (o : Open) (joined : Bool) (k : Test) (b : Bool) :
    ∃ c, s.tested p o joined k b = s.goto p c ∧ AfterTest o joined k b c := by
  cases b with
  | true =>
    cases joined with
    | true => exact ⟨_, by cases k <;> rfl, .found⟩
    | false => exact ⟨_, by cases k <;> rfl, .retry⟩
  | false =>
    cases k with
    | count => exact ⟨_, rfl, .uid⟩
    | uid => exact ⟨_, rfl, .euid⟩
    | euid =>
      cases joined with
      | false => exact ⟨_, rfl, .join⟩
      | true =>
        by_cases hp : s.signalPending p = true
        · exact ⟨_, by simp [tested, hp], .interrupted⟩
        · exact ⟨_, by simp [tested, hp], .sleep⟩

theorem step_effect (h : step dev s a = .ok t) : Effect dev s a t := by
  cases a with
  | opens p o =>
    rw [step] at h
    split at h <;> cases h
    exact .move _ p nofun rfl rfl rfl rfl
  | release p file =>
    rw [step] at h
    split at h
    case h_1 r hp =>
      split_ifs at h with hfile
      cases h
      exact .closed hp hfile
    case h_2 => cases h
  | signal p =>
    cases h
    exact .none rfl rfl rfl fun q o hq => by rw [running, hq]; nofun
  | proceed p =>
    rw [step, proceed] at h
    split at h
    case h_1 => cases h
    case h_2 o hp =>
      cases h
      exact locked_effect hp
    case h_3 o joined k hp =>
      obtain ⟨c, hc, hafter⟩ := s.tested_goto p o joined k (compare s.gate o.cred k)
      rw [hc] at h
      cases h
      exact .move s p hafter.ne_return rfl rfl rfl rfl
    case h_4 =>
      cases h
      exact .move _ p nofun rfl rfl rfl rfl
    case h_5 =>
      split_ifs at h
      cases h
      exact .move _ p nofun rfl rfl rfl rfl
    case h_6 =>
      cases h
      split_ifs
      · exact .move _ p nofun rfl rfl rfl rfl
      · exact .move _ p nofun rfl rfl rfl rfl
    case h_7 =>
      cases h
      exact .move _ p nofun rfl rfl rfl rfl

/-! The gate is that of a room. -/

structure Kept (s : Sys P) : Prop where
  count_eq : s.gate.count = s.files.length
  owner_eq : s.gate.count ≠ 0 → ∃ c ∈ s.founder, s.gate.owner = c.uid
  sound : (room s.gate s.files).Sound users

omit [DecidableEq P] in
theorem kept_initial : Kept (initial : Sys P) where
  count_eq := rfl
  owner_eq h := absurd rfl h
  sound c hc := by cases hc

theorem Kept.effect (h : Kept s) (he : Effect dev s a t) : Kept t := by
  cases he with
  | @granted p o hp hok =>
    have hcount := h.count_eq
    refine ⟨?_, fun _ => ?_, ?_⟩
    · show s.gate.count + 1 = ((o.cred :: s.files).length : ℕ)
      rw [hcount, List.length_cons]
      rfl
    · show ∃ c ∈ (if s.gate.count = 0 then some o.cred else s.founder),
        (if s.gate.count = 0 then o.cred.uid else s.gate.owner) = c.uid
      split_ifs with hzero
      · exact ⟨_, rfl, rfl⟩
      · exact h.owner_eq hzero
    · show (room (s.gate.enter o.cred) (o.cred :: s.files)).Sound users
      rw [room_enter hcount]
      exact h.sound.enter ((available_iff hcount).mp hok)
  | @closed p r file hp hfile =>
    refine ⟨?_, fun hne => ?_, ?_⟩
    · show s.gate.count - 1 = ((s.files.eraseIdx file).length : ℕ)
      rw [h.count_eq, List.length_eraseIdx_of_lt hfile]
      omega
    · have hpos : s.gate.count ≠ 0 := by
        rw [h.count_eq]
        omega
      exact h.owner_eq hpos
    · show (room s.gate.leave (s.files.eraseIdx file)).Sound users
      rw [room_leave]
      exact h.sound.leave file
  | none hgate hfiles hfounder hpc =>
    obtain ⟨hcount, howner, hsound⟩ := h
    exact ⟨by rw [hgate, hfiles, hcount], by rw [hgate, hfounder]; exact howner,
      by rw [hgate, hfiles]; exact hsound⟩

theorem kept_of_exec {acts : List (Act P)} (he : exec (step dev) initial acts = .ok s) : Kept s :=
  exec_invariant (I := Kept) (fun _ _ _ h hs => h.effect (step_effect hs)) kept_initial he

/-- The device belongs to one user at a time. -/
structure Owned (dev : UidDevice) (s : Sys P) : Prop where
  /-- The count is that of the open files. -/
  count_eq : s.gate.count = s.files.length
  /-- The owner is the user whose open found the count zero, -/
  owner_eq : 0 < s.gate.count → ∃ c ∈ s.founder, s.gate.owner = c.uid
  /-- and stays so while it is positive. -/
  constant : ∀ a t, step dev s a = .ok t → 0 < s.gate.count → t.gate.owner = s.gate.owner
  /-- Nothing but a release and the return of a successful open changes count and owner. -/
  failed : ∀ a t, step dev s a = .ok t → (∀ p file, a ≠ .release p file) →
    (∀ p o, s.pc p = .lock o → t.pc p ≠ .outside (some (.ok ()))) → t.gate = s.gate
  /-- While the count is positive an open succeeds for those whom the owner lets in. -/
  succeeded : ∀ a t p o, step dev s a = .ok t → s.pc p = .lock o →
    t.pc p = .outside (some (.ok ())) → 0 < s.gate.count →
    o.cred.uid = s.gate.owner ∨ o.cred.euid = s.gate.owner ∨ o.cred.dacOverride = true
  /-- So all of the open files are the owner's. -/
  files_owned : ∀ c ∈ s.files, s.gate.owner = c.uid ∨ s.gate.owner = c.euid ∨
    c.dacOverride = true

theorem owned_of_exec {acts : List (Act P)} (he : exec (step dev) initial acts = .ok s) :
    Owned dev s := by
  have hkept := kept_of_exec he
  refine ⟨hkept.count_eq, fun hpos => hkept.owner_eq hpos.ne', ?_, ?_, ?_, hkept.sound⟩
  · intro a t h hpos
    cases step_effect h with
    | granted => exact if_neg hpos.ne'
    | closed => rfl
    | none hgate => rw [hgate]
  · intro a t h hrelease hfail
    cases step_effect h with
    | granted hp => exact absurd (goto_pc_self ..) (hfail _ _ hp)
    | @closed p r file => exact absurd rfl (hrelease p file)
    | none hgate => exact hgate
  · intro a t p o h hp hreturn hpos
    cases step_effect h with
    | @granted q o' hq hok =>
      by_cases hpq : p = q
      · subst hpq
        cases hp.symm.trans hq
        rcases hok with hzero | howner | howner | hcap
        · exact absurd hzero hpos.ne'
        · exact Or.inl howner.symm
        · exact Or.inr (Or.inl howner.symm)
        · exact Or.inr (Or.inr hcap)
      · rw [grant, reply, goto_pc_of_ne _ _ hpq, hp] at hreturn
        cases hreturn
    | @closed q r file hq =>
      have hpq : p ≠ q := by
        rintro rfl
        cases hp.symm.trans hq
      rw [goto_pc_of_ne _ _ hpq, hp] at hreturn
      cases hreturn
    | none hgate hfiles hfounder hpc => exact absurd hreturn (hpc p o hp)

/-- An open that may wait, by a user without privileges. -/
def plainOpen (uid : ℕ) : Open :=
  { cred := { uid, euid := uid, dacOverride := false }, nonblock := false }

/-- One user has the device open and opens it again after `su`, and another one has to go. -/
def suRun : List (Act Bool) :=
  [.opens true (plainOpen 500), .proceed true,
    .opens true { plainOpen 500 with cred.uid := 501 }, .proceed true,
    .opens false { plainOpen 501 with nonblock := true }, .proceed false, .release true 1]

theorem owned_suRun :
    (∃ s, exec (step .sculluid) initial suRun = .ok s ∧ Owned .sculluid s ∧
      s.gate = { count := 1, owner := 500 }) ∧
    (∃ s, exec (step .scullwuid) initial suRun = .ok s ∧ Owned .scullwuid s ∧
      s.gate = { count := 1, owner := 500 }) := by
  constructor
  · have he : exec (step .sculluid) initial suRun = .ok _ := rfl
    exact ⟨_, he, owned_of_exec he, rfl⟩
  · have he : exec (step .scullwuid) initial suRun = .ok _ := rfl
    exact ⟨_, he, owned_of_exec he, rfl⟩

end Sys
end KernelExperiment.Access
