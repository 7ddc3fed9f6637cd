import KernelExperiment.Event.Event
import KernelExperiment.Lib.Runs
import Mathlib.Logic.Function.Basic

/-! One kernel event used as a semaphore. Each process repeats `myevent_wait`, its critical section
and `myevent_signal`; a step runs one process up to its next access to the shared node. -/

namespace KernelExperiment.Event.Semaphore
open Runs

/-- Where a process is. The two re-read locations remember the value that the process's own locked
update left in `count`; no branch of the code looks at it. -/
inductive Pc where
  | outside
  | waitRecheck (own : Int)
  | waitEnqueue
  | waitSchedule
  | asleep
  | woken
  | critical
  | signalRecheck (own : Int)
  | signalWake
  deriving DecidableEq, Repr

def Pc.waitOwn : Pc → Option Int
  | .waitRecheck own => some own
  | _ => none

def Pc.signalOwn : Pc → Option Int
  | .signalRecheck own => some own
  | _ => none

structure Sys (P : Type*) where
  event : MyEvent P
  pc : P → Pc

variable {P : Type*} [DecidableEq P]

def initial (eventNum c : Int) : Sys P :=
  { event := MyEvent.create eventNum c, pc := fun _ => .outside }

def moveTo (s : Sys P) (p : P) (e : MyEvent P) (c : Pc) : Sys P :=
  { event := e, pc := Function.update s.pc p c }

/-- The next step of process `p`; only a sleeper has none. Sleepers are woken by `wake_up` alone, there
are no signals. -/
def step (s : Sys P) (p : P) : Outcome (Sys P) :=
  match s.pc p with
  -- myevent_wait: the locked decrement, then the re-read outside the lock
  | .outside => .ok (moveTo s p s.event.lockedDec (.waitRecheck s.event.lockedDec.count))
  | .waitRecheck _ =>
    .ok (moveTo s p s.event (if s.event.count < 0 then .waitEnqueue else .critical))
  | .waitEnqueue => .ok (moveTo s p (s.event.prepareToWaitExclusive p) .waitSchedule)
  | .waitSchedule => .ok (moveTo s p s.event .asleep)
  | .asleep => .blocked
  -- schedule() has returned: finish_wait finds the entry already off the queue
  | .woken => .ok (moveTo s p s.event .critical)
  -- myevent_signal: the bounded increment, then the re-read outside the lock
  | .critical => .ok (moveTo s p s.event.lockedInc (.signalRecheck s.event.lockedInc.count))
  | .signalRecheck _ =>
    .ok (moveTo s p s.event (if s.event.count ≤ 0 then .signalWake else .outside))
  | .signalWake =>
    match s.event.wakeUp with
    | (none, e) => .ok (moveTo s p e .outside)
    -- a waiter woken before its schedule() is runnable again and does not sleep
    | (some q, e) => .ok (moveTo (moveTo s q e .woken) p e .outside)

inductive Move (s : Sys P) (p : P) : Sys P → Prop
  | decrement (h : s.pc p = .outside) :
      Move s p (moveTo s p s.event.lockedDec (.waitRecheck (s.event.count - 1)))
  | mustSleep {own} (h : s.pc p = .waitRecheck own) (hc : s.event.count < 0) :
      Move s p (moveTo s p s.event .waitEnqueue)
  | enter {own} (h : s.pc p = .waitRecheck own) (hc : 0 ≤ s.event.count) :
      Move s p (moveTo s p s.event .critical)
  | enqueue (h : s.pc p = .waitEnqueue) :
      Move s p (moveTo s p (s.event.prepareToWaitExclusive p) .waitSchedule)
  | schedule (h : s.pc p = .waitSchedule) : Move s p (moveTo s p s.event .asleep)
  | finishWait (h : s.pc p = .woken) : Move s p (moveTo s p s.event .critical)
  | increment (h : s.pc p = .critical) :
      Move s p (moveTo s p s.event.lockedInc (.signalRecheck s.event.lockedInc.count))
  | mustWake {own} (h : s.pc p = .signalRecheck own) (hc : s.event.count ≤ 0) :
      Move s p (moveTo s p s.event .signalWake)
  | skipWake {own} (h : s.pc p = .signalRecheck own) (hc : 0 < s.event.count) :
      Move s p (moveTo s p s.event .outside)
  | wakeNobody (h : s.pc p = .signalWake) (hq : s.event.p = []) :
      Move s p (moveTo s p s.event .outside)
  | wakeHead {q qs} (h : s.pc p = .signalWake) (hq : s.event.p = q :: qs) :
      Move s p (moveTo (moveTo s q { s.event with p := qs } .woken) p { s.event with p := qs }
        .outside)

theorem step_move {s t : Sys P} {p : P} (h : step s p = .ok t) : Move s p t := by
  unfold step at h
  split at h
  case h_1 hp =>
    cases h
    exact .decrement hp
  case h_2 hp =>
    cases h
    split_ifs with hc
    · exact .mustSleep hp hc
    · exact .enter hp (by omega)
  case h_3 hp =>
    cases h
    exact .enqueue hp
  case h_4 hp =>
    cases h
    exact .schedule hp
  case h_5 => cases h
  case h_6 hp =>
    cases h
    exact .finishWait hp
  case h_7 hp =>
    cases h
    exact .increment hp
  case h_8 hp =>
    cases h
    split_ifs with hc
    · exact .mustWake hp hc
    · exact .skipWake hp (by omega)
  case h_9 hp =>
    cases hq : s.event.p with
    | nil =>
      rw [MyEvent.wakeUp_nil hq] at h
      cases h
      exact .wakeNobody hp hq
    | cons q qs =>
      rw [MyEvent.wakeUp_cons hq] at h
      cases h
      exact .wakeHead hp hq

@[simp] theorem moveTo_event (s : Sys P) (p : P) (e : MyEvent P) (c : Pc) :
    (moveTo s p e c).event = e := rfl

@[simp] theorem moveTo_pc_self (s : Sys P) (p : P) (e : MyEvent P) (c : Pc) :
    (moveTo s p e c).pc p = c := Function.update_self ..

@[simp] theorem moveTo_pc_of_ne (s : Sys P) {p q : P} (e : MyEvent P) (c : Pc) (h : q ≠ p) :
    (moveTo s p e c).pc q = s.pc q := Function.update_of_ne h ..

end KernelExperiment.Event.Semaphore
