import KernelExperiment.Event.Event
import KernelExperiment.Lib.Runs
import Mathlib.Logic.Function.Basic

/-! The table of events: nodes linked from `lpmyevent_head`, with `lpmyevent_end` for appending.
`none` as the result of an operation stands for a use of NULL or of freed memory. -/

namespace KernelExperiment.Event
open Runs

structure Table (P : Type*) where
  mem : Addr → Option (MyEvent P)
  lpmyeventHead : Option Addr
  lpmyeventEnd : Option Addr
  nalloc : ℕ

variable {P : Type*}

namespace Table

def empty : Table P :=
  { mem := fun _ => none, lpmyeventHead := none, lpmyeventEnd := none, nalloc := 0 }

def write (t : Table P) (a : Addr) (e : MyEvent P) : Table P :=
  { t with mem := Function.update t.mem a (some e) }

def kfree (t : Table P) (a : Addr) : Table P := { t with mem := Function.update t.mem a none }

def setNext (t : Table P) (p n : Option Addr) : Option (Table P) :=
  p.bind fun a => (t.mem a).map fun e => t.write a { e with next := n }

end Table

/-- The loop of `scheventNum` from `tmp`: the node found and its predecessor. The walk is given up
after `fuel` tests. -/
def scheventWalk (mem : Addr → Option (MyEvent P)) (eventNum : Int) :
    ℕ → Option Addr → Option Addr → Option (Option Addr × Option Addr)
  | 0, _, _ => none
  | _ + 1, none, prev => some (none, prev)
  | fuel + 1, some tmp, prev =>
    match mem tmp with
    | none => none
    | some e =>
      if e.eventNum = eventNum then some (some tmp, prev)
      else scheventWalk mem eventNum fuel e.next (some tmp)

/-- A walk over more nodes than were ever allocated goes round in a cycle and never ends. -/
def scheventNum (t : Table P) (eventNum : Int) : Option (Option Addr × Option Addr) :=
  scheventWalk t.mem eventNum (t.nalloc + 1) t.lpmyeventHead none

/-- `kmalloc` gives the new node or NULL, whose members are then written all the same. For event
number 0 the code returns a local that it never set, here `uninit`. -/
def myeventOpen (t : Table P) (eventNum c : Int) (kmalloc : Option Addr) (uninit : Int) :
    Option (Int × Table P) :=
  if eventNum = 0 then some (uninit, t)
  else
    (scheventNum t eventNum).bind fun found =>
      if found.1.isSome then some (0, t)
      else
        kmalloc.bind fun new =>
          let t := { t with nalloc := t.nalloc + 1 }
          match t.lpmyeventHead with
          -- the first node gets number 2 whatever was asked for
          | none =>
            some (2, { t.write new (MyEvent.create 2 c) with
              lpmyeventHead := some new, lpmyeventEnd := some new })
          | some _ =>
            ((t.write new (MyEvent.create eventNum c)).setNext t.lpmyeventEnd (some new)).map
              fun t => (eventNum, { t with lpmyeventEnd := some new })

def myeventSignal (t : Table P) (eventNum : Int) : Option (Int × Table P) :=
  (scheventNum t eventNum).bind fun found =>
    match found.1 with
    | none => some (0, t)
    | some tmp =>
      (t.mem tmp).map fun e =>
        let e := e.lockedInc
        if e.count ≤ 0 then (eventNum, t.write tmp e.wakeUp.2) else (0, t.write tmp e)

def unlink (t : Table P) (releaseItem : Addr) (prev : Option Addr) : Option (Table P) :=
  -- the tail is tested first, so a single node takes this branch and the head keeps pointing to it
  if some releaseItem = t.lpmyeventEnd then some { t with lpmyeventEnd := prev }
  else
    (t.mem releaseItem).bind fun e =>
      if some releaseItem = t.lpmyeventHead then some { t with lpmyeventHead := e.next }
      else t.setNext prev e.next

def myeventClose (t : Table P) (eventNum : Int) : Option (Int × Table P) :=
  (scheventNum t eventNum).bind fun found =>
    match found.1 with
    | none => some (0, t)
    | some releaseItem =>
      (unlink t releaseItem found.2).bind fun t =>
        -- the signal searches anew, and finds the node only if it is still linked
        (myeventSignal t eventNum).map fun r => (eventNum, r.2.kfree releaseItem)

/-- The waiter that `myevent_signal` takes off the queue of the event it finds. -/
def wokenBySignal (t : Table P) (eventNum : Int) : Option P :=
  (scheventNum t eventNum).bind fun found =>
    found.1.bind fun tmp =>
      (t.mem tmp).bind fun e =>
        let e := e.lockedInc
        if e.count ≤ 0 then e.wakeUp.1 else none

/-- The waiter that `myevent_close` wakes through `myevent_signal`. -/
def wokenByClose (t : Table P) (eventNum : Int) : Option P :=
  (scheventNum t eventNum).bind fun found =>
    found.1.bind fun releaseItem =>
      (unlink t releaseItem found.2).bind fun t => wokenBySignal t eventNum

inductive Call where
  | opens (eventNum c : Int) (new : Addr)
  | close (eventNum : Int)
  deriving DecidableEq, Repr

/-- The table with the history that its meaning depends on: the events created and not yet closed,
oldest first, and the number of the event that the last call closed. -/
structure Hist (P : Type*) where
  table : Table P
  live : List Addr
  closed : Option Int

def Hist.empty : Hist P := { table := Table.empty, live := [], closed := none }

/-- One call. `kmalloc` succeeds with memory that is not in use; event number 0 is not opened. -/
def Hist.step (s : Hist P) : Call → Outcome (Hist P)
  | .opens eventNum c new =>
    if eventNum = 0 ∨ (s.table.mem new).isSome then .blocked
    else
      match myeventOpen s.table eventNum c (some new) 0 with
      | none => .fault
      | some (r, t) =>
        .ok { table := t, live := if r = 0 then s.live else s.live ++ [new], closed := none }
  | .close eventNum =>
    match scheventNum s.table eventNum, myeventClose s.table eventNum with
    | some (some releaseItem, _), some (_, t) =>
      .ok { table := t, live := s.live.erase releaseItem, closed := some eventNum }
    | some (none, _), some (_, t) => .ok { s with table := t, closed := none }
    | _, _ => .fault

end KernelExperiment.Event
