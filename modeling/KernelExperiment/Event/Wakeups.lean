import KernelExperiment.Event.Census

/-! Lost wake-ups. A waiter is between its decrement and the wait queue for two steps, and a wake-up
issued then reaches nobody; without such wake-ups, and without re-reads that send a process to sleep
or drop a wake-up against the process's own update, sleepers mean that all permits are in use. -/

namespace KernelExperiment.Event.Semaphore
open Runs Population

variable {P : Type*}

/-- A re-read neither sends the caller to sleep nor drops its wake-up against the value that the
caller's own locked update left, and no wake-up finds the queue empty while a process that owes a
sleep is still on its way to it. -/
def NoLostWakeup (s : Sys P) (p : P) : Prop :=
  (∀ own ∈ (s.pc p).waitOwn, s.event.count < 0 → own < 0) ∧
    (∀ own ∈ (s.pc p).signalOwn, 0 < s.event.count → 0 < own) ∧
      (s.pc p = .signalWake → s.event.p = [] → ∀ q, (s.pc q).waits = false)

instance [Fintype P] [DecidableEq P] (s : Sys P) (p : P) : Decidable (NoLostWakeup s p) :=
  inferInstanceAs (Decidable (_ ∧ _ ∧ (_ → _ → _)))

/-- Every process is outside, in the critical section, or asleep in `schedule()`. -/
def Quiescent (s : Sys P) : Prop :=
  ∀ p, s.pc p = .outside ∨ s.pc p = .critical ∨ s.pc p = .asleep

section
variable [Fintype P]

def NoIdlePermit (c : Int) (s : Sys P) : Prop :=
  Quiescent s → (∃ p, s.pc p = .asleep) → c ≤ num Pc.inCritical s.pc

/-- Waiters are covered by pending wake-ups and by the shortfall of the count. -/
structure Covered (c : Int) (s : Sys P) : Prop where
  inv : Inv c s
  cover : (num Pc.waits s.pc : Int) ≤ num Pc.wakes s.pc + max 0 (-s.event.count)

theorem covered_step [DecidableEq P] {c : Int} {s t : Sys P} {p : P} (h : Covered c s)
    (hg : NoLostWakeup s p) (hs : step s p = .ok t) : Covered c t := by
  have hm := step_move hs
  have hcov := h.cover
  refine ⟨inv_move h.inv hm, ?_⟩
  cases move_flow h.inv hm with
  | take hc hpos he hw hk => omega
  | queueUp hc hneg he hw hk => omega
  | keep hc he hw hk => omega
  | staleSleep hpc ho hneg =>
    have hown := hg.1 _ (by rw [hpc]; rfl) hneg
    exact absurd hown (not_lt.mpr ho)
  | staleEnter hpc ho hpos hc he hw hk => omega
  | giveBack hc hpos he hw hk => omega
  | passOn hc hneg he hw hk => omega
  | staleWake hpc ho hneg hc he hw hk => omega
  | staleSkip hpc ho hpos =>
    have hown := hg.2.1 _ (by rw [hpc]; rfl) hpos
    exact absurd hown (not_lt.mpr ho)
  | wakeNobody hpc hq hc he hw hk =>
    have hnone : num Pc.waits s.pc = 0 := num_eq_zero.mpr (hg.2.2 hpc hq)
    omega
  | wakeHead hc he hw hk => omega

theorem covered_initial (eventNum c : Int) : Covered c (initial eventNum c : Sys P) := by
  refine ⟨inv_initial eventNum c, ?_⟩
  rw [num_initial rfl, num_initial rfl]
  omega

theorem Covered.noIdlePermit {c : Int} {s : Sys P} (h : Covered c s) : NoIdlePermit c s := by
  rintro hquiet ⟨p, hp⟩
  have hwakes : num Pc.wakes s.pc = 0 := by
    apply num_eq_zero.mpr
    intro q
    rcases hquiet q with hq | hq | hq <;> rw [hq] <;> rfl
  have hcrit : num Pc.entering s.pc ≤ num Pc.inCritical s.pc := by
    apply num_mono
    intro q hqe
    rcases hquiet q with hq | hq | hq <;> rw [hq] at hqe ⊢ <;> simp_all
  have hwait : 0 < num Pc.waits s.pc := num_pos.mpr ⟨p, by rw [hp]; rfl⟩
  have hcov := h.cover
  have hu := h.inv.units
  omega

/-- In every state of a run without lost wake-ups, nobody sleeps while a permit is free. -/
theorem noIdlePermit_of_noLostWakeup [DecidableEq P] (eventNum c : Int) (ps : List P)
    (hm : Meets step NoLostWakeup (initial eventNum c) ps) :
    Always step (NoIdlePermit c) (initial eventNum c) ps :=
  meets_always (fun _ _ _ => covered_step) (fun _ => Covered.noIdlePermit)
    (covered_initial eventNum c) hm

end

theorem noIdlePermit_handover :
    Always step (NoIdlePermit 1) (initial 2 1 : Sys (Fin 2)) [0, 0, 1, 1, 1, 1, 0, 0, 0, 1] :=
  noIdlePermit_of_noLostWakeup 2 1 _ (by decide)

/-- Process 0 signals while process 1 is between its re-read and the wait queue, finds nobody to
wake and leaves; process 1 then sleeps with the permit free. -/
def lostWakeup : List (Fin 2) := [0, 0, 1, 1, 0, 0, 0, 1, 1]

theorem sleeps_while_permit_free :
    ¬ ∀ ps : List (Fin 2), Always step (NoIdlePermit 1) (initial 2 1) ps := by
  intro h
  have hrun : (exec step (initial 2 1) lostWakeup).map (fun s => (s.pc 0, s.pc 1)) =
      .ok (.outside, .asleep) := by decide
  obtain ⟨s, hs, hpc⟩ := Outcome.map_eq_ok.mp hrun
  obtain ⟨h0, h1⟩ := Prod.mk.inj hpc
  have hquiet : Quiescent s := fun p => by
    rcases (by omega : p = 0 ∨ p = 1) with rfl | rfl
    · exact Or.inl h0
    · exact Or.inr (Or.inr h1)
  have hnone : num Pc.inCritical s.pc = 0 := num_eq_zero.mpr fun p => by
    rcases (by omega : p = 0 ∨ p = 1) with rfl | rfl
    · rw [h0]; rfl
    · rw [h1]; rfl
  have hle := (h lostWakeup).last hs hquiet ⟨1, h1⟩
  rw [hnone] at hle
  exact absurd hle (by decide)

end KernelExperiment.Event.Semaphore
