import Mathlib.Data.List.Basic

/-! The event node of the kernel semaphore (`myevent_t`) and the updates that the exported
functions make to one node. -/

namespace KernelExperiment.Event

abbrev Addr := ℕ

/-- `myevent_t`. The wait queue `p` lists its exclusive waiters from the head. `count` is a C int
that stays between `init_count` minus the number of waiting processes and `init_count`. -/
structure MyEvent (P : Type*) where
  eventNum : Int
  p : List P
  next : Option Addr
  count : Int
  initCount : Int
  deriving DecidableEq, Repr

namespace MyEvent
variable {P : Type*}

def create (eventNum c : Int) : MyEvent P :=
  { eventNum := eventNum, p := [], next := none, count := c, initCount := c }

/-- `tmp->count--` under `mr_lock`. -/
def lockedDec (e : MyEvent P) : MyEvent P := { e with count := e.count - 1 }

/-- The bounded `tmp->count++` under `mr_lock`. -/
def lockedInc (e : MyEvent P) : MyEvent P :=
  if e.count + 1 ≤ e.initCount then { e with count := e.count + 1 } else e

/-- `prepare_to_wait_exclusive` joins the queue at its tail. -/
def prepareToWaitExclusive (e : MyEvent P) (q : P) : MyEvent P := { e with p := e.p ++ [q] }

/-- `wake_up` takes the first exclusive waiter off the queue. -/
def wakeUp (e : MyEvent P) : Option P × MyEvent P :=
  match e.p with
  | [] => (none, e)
  | q :: qs => (some q, { e with p := qs })

/-- The event without its place in the table. -/
def data (e : MyEvent P) : MyEvent P := { e with next := none }

@[simp] theorem lockedDec_count (e : MyEvent P) : e.lockedDec.count = e.count - 1 := rfl
@[simp] theorem lockedDec_p (e : MyEvent P) : e.lockedDec.p = e.p := rfl
@[simp] theorem lockedDec_initCount (e : MyEvent P) : e.lockedDec.initCount = e.initCount := rfl

@[simp] theorem lockedDec_eventNum (e : MyEvent P) : e.lockedDec.eventNum = e.eventNum := rfl
@[simp] theorem lockedDec_next (e : MyEvent P) : e.lockedDec.next = e.next := rfl

@[simp] theorem lockedInc_p (e : MyEvent P) : e.lockedInc.p = e.p := by
  unfold lockedInc
  split <;> rfl

@[simp] theorem lockedInc_initCount (e : MyEvent P) : e.lockedInc.initCount = e.initCount := by
  unfold lockedInc
  split <;> rfl

@[simp] theorem lockedInc_eventNum (e : MyEvent P) : e.lockedInc.eventNum = e.eventNum := by
  unfold lockedInc
  split <;> rfl

@[simp] theorem lockedInc_next (e : MyEvent P) : e.lockedInc.next = e.next := by
  unfold lockedInc
  split <;> rfl

theorem lockedInc_count (e : MyEvent P) (h : e.count < e.initCount) :
    e.lockedInc.count = e.count + 1 := by
  rw [lockedInc, if_pos (by omega)]

@[simp] theorem prepareToWaitExclusive_p (e : MyEvent P) (q : P) :
    (e.prepareToWaitExclusive q).p = e.p ++ [q] := rfl
@[simp] theorem prepareToWaitExclusive_count (e : MyEvent P) (q : P) :
    (e.prepareToWaitExclusive q).count = e.count := rfl
@[simp] theorem prepareToWaitExclusive_initCount (e : MyEvent P) (q : P) :
    (e.prepareToWaitExclusive q).initCount = e.initCount := rfl

@[simp] theorem prepareToWaitExclusive_eventNum (e : MyEvent P) (q : P) :
    (e.prepareToWaitExclusive q).eventNum = e.eventNum := rfl
@[simp] theorem prepareToWaitExclusive_next (e : MyEvent P) (q : P) :
    (e.prepareToWaitExclusive q).next = e.next := rfl

theorem wakeUp_nil {e : MyEvent P} (h : e.p = []) : e.wakeUp = (none, e) := by
  rw [wakeUp, h]

theorem wakeUp_cons {e : MyEvent P} {q : P} {qs : List P} (h : e.p = q :: qs) :
    e.wakeUp = (some q, { e with p := qs }) := by
  rw [wakeUp, h]

@[simp] theorem wakeUp_eventNum (e : MyEvent P) : e.wakeUp.2.eventNum = e.eventNum := by
  unfold wakeUp
  split <;> rfl

@[simp] theorem wakeUp_next (e : MyEvent P) : e.wakeUp.2.next = e.next := by
  unfold wakeUp
  split <;> rfl

theorem wakeUp_fst (e : MyEvent P) : e.wakeUp.1 = e.p.head? := by
  unfold wakeUp
  split <;> simp [*]

end MyEvent
end KernelExperiment.Event
