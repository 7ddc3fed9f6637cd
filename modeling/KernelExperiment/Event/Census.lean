import KernelExperiment.Event.Semaphore
import KernelExperiment.Lib.Population

/-! What holds of the semaphore in every run, whatever the re-reads of `count` saw: `count` accounts
for every process between its decrement and its increment, and the wait queue holds exactly the
processes that joined it and were not woken. -/

namespace KernelExperiment.Event.Semaphore
open Runs Population

namespace Pc

/-- Between the decrement of `myevent_wait` and the increment of `myevent_signal`. -/
def holdsUnit : Pc → Bool
  | .waitRecheck _ => true
  | .waitEnqueue => true
  | .waitSchedule => true
  | .asleep => true
  | .woken => true
  | .critical => true
  | _ => false

def onQueue : Pc → Bool
  | .waitSchedule => true
  | .asleep => true
  | _ => false

/-- Let in by the decrement's own value or by a waker, and not yet past the increment. -/
def entering : Pc → Bool
  | .waitRecheck own => decide (0 ≤ own)
  | .woken => true
  | .critical => true
  | _ => false

/-- Sent to sleep by the decrement's own value or by the re-read, and not yet woken. -/
def waits : Pc → Bool
  | .waitRecheck own => decide (¬0 ≤ own)
  | .waitEnqueue => true
  | .waitSchedule => true
  | .asleep => true
  | _ => false

/-- Bound to wake a waiter by the increment's own value or by the re-read. -/
def wakes : Pc → Bool
  | .signalRecheck own => decide (own ≤ 0)
  | .signalWake => true
  | _ => false

def inCritical : Pc → Bool
  | .critical => true
  | _ => false

def sleeping : Pc → Bool
  | .asleep => true
  | _ => false

end Pc

attribute [simp] Pc.holdsUnit Pc.onQueue Pc.entering Pc.waits Pc.wakes Pc.inCritical Pc.sleeping

section
variable {P : Type*} [Fintype P] [DecidableEq P]

theorem num_moveTo (q : Pc → Bool) (s : Sys P) (p : P) (e : MyEvent P) (c : Pc) :
    num q (moveTo s p e c).pc + (q (s.pc p)).toNat = num q s.pc + (q c).toNat :=
  num_update q s.pc p c

theorem Pc.holdsUnit_of_onQueue {c : Pc} (h : c.onQueue = true) : c.holdsUnit = true := by
  cases c <;> simp_all

theorem Pc.entering_of_onQueue {c : Pc} (h : c.onQueue = true) : c.entering = false := by
  cases c <;> simp_all

theorem Pc.waits_of_onQueue {c : Pc} (h : c.onQueue = true) : c.waits = true := by
  cases c <;> simp_all

theorem Pc.wakes_of_onQueue {c : Pc} (h : c.onQueue = true) : c.wakes = false := by
  cases c <;> simp_all

structure QueueOk (s : Sys P) : Prop where
  nodup : s.event.p.Nodup
  mem_iff : ∀ q, q ∈ s.event.p ↔ (s.pc q).onQueue = true

/-- `count` is the initial count less the units taken, and the queue is consistent. -/
structure Inv (c : Int) (s : Sys P) : Prop where
  bound : s.event.initCount = c
  count : s.event.count + num Pc.holdsUnit s.pc = c
  queue : QueueOk s

omit [Fintype P] in
theorem QueueOk.moveTo_off {s : Sys P} (h : QueueOk s) {p : P} {e : MyEvent P} {c : Pc}
    (hp : e.p = s.event.p) (hpc : (s.pc p).onQueue = c.onQueue) : QueueOk (moveTo s p e c) := by
  refine ⟨by simpa only [moveTo_event, hp] using h.nodup, fun q => ?_⟩
  rw [moveTo_event, hp, h.mem_iff]
  rcases eq_or_ne q p with rfl | hq
  · rw [moveTo_pc_self, hpc]
  · rw [moveTo_pc_of_ne s e c hq]

omit [Fintype P] in
theorem QueueOk.enqueue {s : Sys P} (h : QueueOk s) {p : P} (hp : s.pc p = .waitEnqueue) :
    QueueOk (moveTo s p (s.event.prepareToWaitExclusive p) .waitSchedule) := by
  have hnot : p ∉ s.event.p := by
    rw [h.mem_iff, hp]
    simp
  refine ⟨?_, fun q => ?_⟩
  · simpa [List.nodup_append, h.nodup] using fun a ha => ne_of_mem_of_not_mem ha hnot
  · rcases eq_or_ne q p with rfl | hq
    · simp
    · simp [h.mem_iff, hq]

omit [Fintype P] [DecidableEq P] in
theorem QueueOk.waker_ne_head {s : Sys P} (h : QueueOk s) {p q : P} {qs : List P}
    (hp : s.pc p = .signalWake) (hq : s.event.p = q :: qs) : p ≠ q := by
  intro hpq
  have hon := (h.mem_iff q).mp (by simp [hq])
  rw [← hpq, hp] at hon
  simp at hon

omit [Fintype P] in
theorem QueueOk.wakeHead {s : Sys P} (h : QueueOk s) {p q : P} {qs : List P} {e : MyEvent P}
    (hp : s.pc p = .signalWake) (hq : s.event.p = q :: qs) (he : e.p = qs) :
    QueueOk (moveTo (moveTo s q e .woken) p e .outside) := by
  have hnd : q ∉ qs ∧ qs.Nodup := by simpa only [hq, List.nodup_cons] using h.nodup
  refine ⟨by simpa only [moveTo_event, he] using hnd.2, fun r => ?_⟩
  have hr := h.mem_iff r
  rw [hq, List.mem_cons] at hr
  rw [moveTo_event, he]
  rcases eq_or_ne r p with rfl | hrp
  · have : r ∉ qs := by
      intro hmem
      rw [hp] at hr
      simpa using hr.mp (Or.inr hmem)
    simp [this]
  · rcases eq_or_ne r q with rfl | hrq
    · simp [hnd.1, hrp]
    · simpa [hrp, hrq] using hr

theorem num_wakeHead (t : Pc → Bool) {s : Sys P} (h : QueueOk s) {p q : P} {qs : List P}
    (e : MyEvent P) (hp : s.pc p = .signalWake) (hq : s.event.p = q :: qs) :
    num t (moveTo (moveTo s q e .woken) p e .outside).pc + (t (s.pc q)).toNat +
        (t .signalWake).toNat =
      num t s.pc + (t .woken).toNat + (t .outside).toNat := by
  have hpq : p ≠ q := h.waker_ne_head hp hq
  have h1 := num_moveTo t s q e .woken
  have h2 := num_moveTo t (moveTo s q e .woken) p e .outside
  rw [moveTo_pc_of_ne s e .woken hpq, hp] at h2
  omega

omit [DecidableEq P] in
theorem num_initial {q : Pc → Bool} (h : q .outside = false) (eventNum c : Int) :
    num q (initial eventNum c : Sys P).pc = 0 :=
  num_const_false fun _ => h

omit [DecidableEq P] in
theorem inv_initial (eventNum c : Int) : Inv c (initial eventNum c : Sys P) := by
  refine ⟨rfl, ?_, by simp [initial, MyEvent.create], fun q => ?_⟩
  · rw [num_initial rfl]
    simp [initial, MyEvent.create]
  · simp [initial, MyEvent.create]

omit [DecidableEq P] in
/-- The process that leaves the critical section gives its unit back: the bound never stops it. -/
theorem Inv.increment {c : Int} {s : Sys P} (h : Inv c s) {p : P} (hp : s.pc p = .critical) :
    s.event.lockedInc.count = s.event.count + 1 := by
  have hpos : 0 < num Pc.holdsUnit s.pc := num_pos.mpr ⟨p, by rw [hp]; rfl⟩
  have hc := h.count
  have hb := h.bound
  exact MyEvent.lockedInc_count _ (by omega)

theorem Inv.moveTo_same {c : Int} {s : Sys P} (h : Inv c s) {p : P} {d : Pc}
    (hu : (s.pc p).holdsUnit = d.holdsUnit) (hq : (s.pc p).onQueue = d.onQueue) :
    Inv c (moveTo s p s.event d) := by
  have hn := num_moveTo Pc.holdsUnit s p s.event d
  have hc := h.count
  rw [hu] at hn
  refine ⟨h.bound, ?_, h.queue.moveTo_off rfl hq⟩
  rw [moveTo_event]
  omega

theorem inv_move {c : Int} {s t : Sys P} {p : P} (h : Inv c s) (hm : Move s p t) : Inv c t := by
  have hc := h.count
  cases hm with
  | decrement hp =>
    have hn := num_moveTo Pc.holdsUnit s p s.event.lockedDec (.waitRecheck (s.event.count - 1))
    simp only [hp, Pc.holdsUnit, Bool.toNat_false, Bool.toNat_true] at hn
    refine ⟨h.bound, ?_, h.queue.moveTo_off rfl (by simp [hp])⟩
    rw [moveTo_event, MyEvent.lockedDec_count]
    omega
  | mustSleep hp => exact h.moveTo_same (by simp [hp]) (by simp [hp])
  | enter hp => exact h.moveTo_same (by simp [hp]) (by simp [hp])
  | enqueue hp =>
    have hn := num_moveTo Pc.holdsUnit s p (s.event.prepareToWaitExclusive p) .waitSchedule
    simp only [hp, Pc.holdsUnit, Bool.toNat_true] at hn
    refine ⟨h.bound, ?_, h.queue.enqueue hp⟩
    rw [moveTo_event, MyEvent.prepareToWaitExclusive_count]
    omega
  | schedule hp => exact h.moveTo_same (by simp [hp]) (by simp [hp])
  | finishWait hp => exact h.moveTo_same (by simp [hp]) (by simp [hp])
  | increment hp =>
    have hinc := h.increment hp
    have hn := num_moveTo Pc.holdsUnit s p s.event.lockedInc
      (.signalRecheck s.event.lockedInc.count)
    simp only [hp, Pc.holdsUnit, Bool.toNat_false, Bool.toNat_true] at hn
    refine ⟨by simpa using h.bound, ?_, h.queue.moveTo_off (by simp) (by simp [hp])⟩
    rw [moveTo_event]
    omega
  | mustWake hp => exact h.moveTo_same (by simp [hp]) (by simp [hp])
  | skipWake hp => exact h.moveTo_same (by simp [hp]) (by simp [hp])
  | wakeNobody hp => exact h.moveTo_same (by simp [hp]) (by simp [hp])
  | @wakeHead q qs hp hq =>
    have hn := num_wakeHead Pc.holdsUnit h.queue { s.event with p := qs } hp hq
    have hmem : (s.pc q).holdsUnit = true :=
      Pc.holdsUnit_of_onQueue ((h.queue.mem_iff q).mp (by simp [hq]))
    rw [hmem] at hn
    simp only [Pc.holdsUnit, Bool.toNat_false, Bool.toNat_true] at hn
    refine ⟨h.bound, ?_, h.queue.wakeHead hp hq rfl⟩
    simp only [moveTo_event]
    omega

theorem inv_run {c eventNum : Int} {ps : List P} {s : Sys P}
    (h : exec step (initial eventNum c) ps = .ok s) : Inv c s :=
  exec_invariant (fun _ _ _ hi hs => inv_move hi (step_move hs)) (inv_initial eventNum c) h

omit [DecidableEq P] in
theorem Inv.units {c : Int} {s : Sys P} (h : Inv c s) :
    s.event.count + num Pc.entering s.pc + num Pc.waits s.pc = c := by
  have hsplit : num Pc.holdsUnit s.pc = num Pc.entering s.pc + num Pc.waits s.pc := by
    refine num_add (fun d => ?_) s.pc
    cases d with
    | waitRecheck own => by_cases ho : 0 ≤ own <;> simp [ho]
    | _ => rfl
  have hc := h.count
  rw [hsplit] at hc
  push_cast at hc
  omega

/-- How one move changes the count and the numbers of processes let in, sent to sleep and bound to
wake. The `stale` rows are the moves whose re-read decides otherwise than the process's own
update. -/
inductive Flow (s : Sys P) (p : P) (t : Sys P) : Prop
  | take (hc : t.event.count = s.event.count - 1) (hpos : 0 ≤ t.event.count)
      (he : num Pc.entering t.pc = num Pc.entering s.pc + 1)
      (hw : num Pc.waits t.pc = num Pc.waits s.pc) (hk : num Pc.wakes t.pc = num Pc.wakes s.pc)
  | queueUp (hc : t.event.count = s.event.count - 1) (hneg : t.event.count < 0)
      (he : num Pc.entering t.pc = num Pc.entering s.pc)
      (hw : num Pc.waits t.pc = num Pc.waits s.pc + 1) (hk : num Pc.wakes t.pc = num Pc.wakes s.pc)
  | keep (hc : t.event.count = s.event.count)
      (he : num Pc.entering t.pc = num Pc.entering s.pc)
      (hw : num Pc.waits t.pc = num Pc.waits s.pc) (hk : num Pc.wakes t.pc = num Pc.wakes s.pc)
  | staleSleep {own} (hp : s.pc p = .waitRecheck own) (ho : 0 ≤ own) (hneg : s.event.count < 0)
      (hc : t.event.count = s.event.count)
      (he : num Pc.entering t.pc + 1 = num Pc.entering s.pc)
      (hw : num Pc.waits t.pc = num Pc.waits s.pc + 1) (hk : num Pc.wakes t.pc = num Pc.wakes s.pc)
  | staleEnter {own} (hp : s.pc p = .waitRecheck own) (ho : own < 0) (hpos : 0 ≤ s.event.count)
      (hc : t.event.count = s.event.count)
      (he : num Pc.entering t.pc = num Pc.entering s.pc + 1)
      (hw : num Pc.waits t.pc + 1 = num Pc.waits s.pc) (hk : num Pc.wakes t.pc = num Pc.wakes s.pc)
  | giveBack (hc : t.event.count = s.event.count + 1) (hpos : 0 < t.event.count)
      (he : num Pc.entering t.pc + 1 = num Pc.entering s.pc)
      (hw : num Pc.waits t.pc = num Pc.waits s.pc) (hk : num Pc.wakes t.pc = num Pc.wakes s.pc)
  | passOn (hc : t.event.count = s.event.count + 1) (hneg : t.event.count ≤ 0)
      (he : num Pc.entering t.pc + 1 = num Pc.entering s.pc)
      (hw : num Pc.waits t.pc = num Pc.waits s.pc) (hk : num Pc.wakes t.pc = num Pc.wakes s.pc + 1)
  | staleWake {own} (hp : s.pc p = .signalRecheck own) (ho : 0 < own) (hneg : s.event.count ≤ 0)
      (hc : t.event.count = s.event.count)
      (he : num Pc.entering t.pc = num Pc.entering s.pc)
      (hw : num Pc.waits t.pc = num Pc.waits s.pc) (hk : num Pc.wakes t.pc = num Pc.wakes s.pc + 1)
  | staleSkip {own} (hp : s.pc p = .signalRecheck own) (ho : own ≤ 0) (hpos : 0 < s.event.count)
      (hc : t.event.count = s.event.count)
      (he : num Pc.entering t.pc = num Pc.entering s.pc)
      (hw : num Pc.waits t.pc = num Pc.waits s.pc) (hk : num Pc.wakes t.pc + 1 = num Pc.wakes s.pc)
  | wakeNobody (hp : s.pc p = .signalWake) (hq : s.event.p = [])
      (hc : t.event.count = s.event.count)
      (he : num Pc.entering t.pc = num Pc.entering s.pc)
      (hw : num Pc.waits t.pc = num Pc.waits s.pc) (hk : num Pc.wakes t.pc + 1 = num Pc.wakes s.pc)
  | wakeHead (hc : t.event.count = s.event.count)
      (he : num Pc.entering t.pc = num Pc.entering s.pc + 1)
      (hw : num Pc.waits t.pc + 1 = num Pc.waits s.pc)
      (hk : num Pc.wakes t.pc + 1 = num Pc.wakes s.pc)

theorem flow_moveTo (s : Sys P) (p : P) (e : MyEvent P) (d : Pc) :
    num Pc.entering (moveTo s p e d).pc + (s.pc p).entering.toNat =
        num Pc.entering s.pc + d.entering.toNat ∧
      num Pc.waits (moveTo s p e d).pc + (s.pc p).waits.toNat = num Pc.waits s.pc + d.waits.toNat ∧
      num Pc.wakes (moveTo s p e d).pc + (s.pc p).wakes.toNat = num Pc.wakes s.pc + d.wakes.toNat :=
  ⟨num_moveTo _ s p e d, num_moveTo _ s p e d, num_moveTo _ s p e d⟩

theorem move_flow {c : Int} {s t : Sys P} {p : P} (h : Inv c s) (hm : Move s p t) :
    Flow s p t := by
  cases hm with
  | decrement hp =>
    obtain ⟨he, hw, hk⟩ :=
      flow_moveTo s p s.event.lockedDec (.waitRecheck (s.event.count - 1))
    -- what the decrement left decides where the process is counted until it enters or sleeps
    by_cases ho : 0 ≤ s.event.count - 1 <;>
      simp only [hp, Pc.entering, Pc.waits, Pc.wakes, ho, not_true_eq_false, not_false_eq_true,
        decide_true, decide_false, Bool.toNat_false, Bool.toNat_true, Nat.add_zero] at he hw hk
    · exact .take rfl ho he hw hk
    · exact .queueUp rfl (not_le.mp ho) he hw hk
  | @mustSleep own hp hneg =>
    obtain ⟨he, hw, hk⟩ := flow_moveTo s p s.event .waitEnqueue
    by_cases ho : 0 ≤ own <;>
      simp only [hp, Pc.entering, Pc.waits, Pc.wakes, ho, not_true_eq_false, not_false_eq_true,
        decide_true, decide_false, Bool.toNat_false, Bool.toNat_true, Nat.add_zero] at he hw hk
    · exact .staleSleep hp ho hneg rfl he hw hk
    · exact .keep rfl he (by omega) hk
  | @enter own hp hpos =>
    obtain ⟨he, hw, hk⟩ := flow_moveTo s p s.event .critical
    by_cases ho : 0 ≤ own <;>
      simp only [hp, Pc.entering, Pc.waits, Pc.wakes, ho, not_true_eq_false, not_false_eq_true,
        decide_true, decide_false, Bool.toNat_false, Bool.toNat_true, Nat.add_zero] at he hw hk
    · exact .keep rfl (by omega) hw hk
    · exact .staleEnter hp (not_le.mp ho) hpos rfl he hw hk
  | enqueue hp =>
    obtain ⟨he, hw, hk⟩ := flow_moveTo s p (s.event.prepareToWaitExclusive p) .waitSchedule
    simp only [hp, Pc.entering, Pc.waits, Pc.wakes, Bool.toNat_false, Bool.toNat_true] at he hw hk
    exact .keep rfl he (by omega) hk
  | schedule hp =>
    obtain ⟨he, hw, hk⟩ := flow_moveTo s p s.event .asleep
    simp only [hp, Pc.entering, Pc.waits, Pc.wakes, Bool.toNat_false, Bool.toNat_true] at he hw hk
    exact .keep rfl he (by omega) hk
  | finishWait hp =>
    obtain ⟨he, hw, hk⟩ := flow_moveTo s p s.event .critical
    simp only [hp, Pc.entering, Pc.waits, Pc.wakes, Bool.toNat_false, Bool.toNat_true] at he hw hk
    exact .keep rfl (by omega) hw hk
  | increment hp =>
    have hinc := h.increment hp
    obtain ⟨he, hw, hk⟩ :=
      flow_moveTo s p s.event.lockedInc (.signalRecheck s.event.lockedInc.count)
    -- likewise what the increment left decides whether it owes a wake-up
    by_cases ho : s.event.lockedInc.count ≤ 0 <;>
      simp only [hp, Pc.entering, Pc.waits, Pc.wakes, ho, decide_true, decide_false,
        Bool.toNat_false, Bool.toNat_true, Nat.add_zero] at he hw hk
    · exact .passOn hinc ho he hw hk
    · exact .giveBack hinc (not_le.mp ho) he hw hk
  | @mustWake own hp hneg =>
    obtain ⟨he, hw, hk⟩ := flow_moveTo s p s.event .signalWake
    by_cases ho : own ≤ 0 <;>
      simp only [hp, Pc.entering, Pc.waits, Pc.wakes, ho, decide_true, decide_false,
        Bool.toNat_false, Bool.toNat_true, Nat.add_zero] at he hw hk
    · exact .keep rfl he hw (by omega)
    · exact .staleWake hp (not_le.mp ho) hneg rfl he hw hk
  | @skipWake own hp hpos =>
    obtain ⟨he, hw, hk⟩ := flow_moveTo s p s.event .outside
    by_cases ho : own ≤ 0 <;>
      simp only [hp, Pc.entering, Pc.waits, Pc.wakes, ho, decide_true, decide_false,
        Bool.toNat_false, Bool.toNat_true, Nat.add_zero] at he hw hk
    · exact .staleSkip hp ho hpos rfl he hw hk
    · exact .keep rfl he hw hk
  | wakeNobody hp hq =>
    obtain ⟨he, hw, hk⟩ := flow_moveTo s p s.event .outside
    simp only [hp, Pc.entering, Pc.waits, Pc.wakes, Bool.toNat_false, Bool.toNat_true] at he hw hk
    exact .wakeNobody hp hq rfl he hw hk
  | @wakeHead q qs hp hq =>
    have hon := (h.queue.mem_iff q).mp (by simp [hq])
    have he := num_wakeHead Pc.entering h.queue { s.event with p := qs } hp hq
    have hw := num_wakeHead Pc.waits h.queue { s.event with p := qs } hp hq
    have hk := num_wakeHead Pc.wakes h.queue { s.event with p := qs } hp hq
    rw [Pc.entering_of_onQueue hon] at he
    rw [Pc.waits_of_onQueue hon] at hw
    rw [Pc.wakes_of_onQueue hon] at hk
    simp only [Pc.entering, Pc.waits, Pc.wakes, Bool.toNat_false, Bool.toNat_true] at he hw hk
    exact .wakeHead rfl he hw hk

end
end KernelExperiment.Event.Semaphore
