import KernelExperiment.Event.Census

/-! Mutual exclusion. The numbers of processes let in and of wake-ups still to come stay within the
permits as long as no re-read of `count` admits somebody whom the locked update did not admit. -/

namespace KernelExperiment.Event.Semaphore
open Runs Population

variable {P : Type*} [DecidableEq P]

/-- A re-read that lets the caller in, or makes it wake a waiter, agrees with the value that the
caller's own locked update left. -/
def NoStaleAdmission (s : Sys P) (p : P) : Prop :=
  (∀ own ∈ (s.pc p).waitOwn, 0 ≤ s.event.count → 0 ≤ own) ∧
    ∀ own ∈ (s.pc p).signalOwn, s.event.count ≤ 0 → own ≤ 0

instance (s : Sys P) (p : P) : Decidable (NoStaleAdmission s p) :=
  inferInstanceAs (Decidable (_ ∧ _))

section
variable [Fintype P]

/-- Everybody let in or about to be let in by a wake-up has a permit, and every pending wake-up has
a waiter to go to. -/
structure Admission (c : Int) (s : Sys P) : Prop where
  inv : Inv c s
  permits : (num Pc.entering s.pc + num Pc.wakes s.pc : Int) ≤ c
  matched : num Pc.wakes s.pc ≤ num Pc.waits s.pc

theorem admission_step {c : Int} {s t : Sys P} {p : P} (h : Admission c s)
    (hg : NoStaleAdmission s p) (hs : step s p = .ok t) : Admission c t := by
  have hm := step_move hs
  have hinv := inv_move h.inv hm
  have hu := h.inv.units
  have hu' := hinv.units
  have hp := h.permits
  have hw := h.matched
  cases move_flow h.inv hm with
  | take hc hpos he hw' hk => exact ⟨hinv, by omega, by omega⟩
  | queueUp hc hneg he hw' hk => exact ⟨hinv, by omega, by omega⟩
  | keep hc he hw' hk => exact ⟨hinv, by omega, by omega⟩
  | staleSleep hpc ho hneg hc he hw' hk => exact ⟨hinv, by omega, by omega⟩
  | staleEnter hpc ho hpos =>
    have hown := hg.1 _ (by rw [hpc]; rfl) hpos
    exact absurd hown (not_le.mpr ho)
  | giveBack hc hpos he hw' hk => exact ⟨hinv, by omega, by omega⟩
  | passOn hc hneg he hw' hk =>
    -- the count is at most zero, so the permits still let in leave a waiter for this wake-up
    exact ⟨hinv, by omega, by omega⟩
  | staleWake hpc ho hneg =>
    have hown := hg.2 _ (by rw [hpc]; rfl) hneg
    exact absurd hown (not_le.mpr ho)
  | staleSkip hpc ho hpos hc he hw' hk => exact ⟨hinv, by omega, by omega⟩
  | wakeNobody hpc hq hc he hw' hk => exact ⟨hinv, by omega, by omega⟩
  | wakeHead hc he hw' hk => exact ⟨hinv, by omega, by omega⟩

omit [DecidableEq P] in
theorem admission_initial (eventNum : Int) {c : Int} (hc : 1 ≤ c) :
    Admission c (initial eventNum c : Sys P) := by
  refine ⟨inv_initial eventNum c, ?_, ?_⟩
  · rw [num_initial rfl, num_initial rfl]
    omega
  · rw [num_initial rfl, num_initial rfl]

omit [DecidableEq P] in
theorem Admission.critical_le {c : Int} {s : Sys P} (h : Admission c s) :
    (num Pc.inCritical s.pc : Int) ≤ c := by
  have hle : num Pc.inCritical s.pc ≤ num Pc.entering s.pc := by
    apply num_mono
    intro p hp
    cases hpc : s.pc p <;> simp_all
  have hp := h.permits
  omega

/-- At most `c` processes are in the critical section in every state of a run without stale
admissions. -/
theorem critical_le_of_noStaleAdmission (eventNum : Int) {c : Int} (hc : 1 ≤ c) (ps : List P)
    (hm : Meets step NoStaleAdmission (initial eventNum c) ps) :
    Always step (fun s => (num Pc.inCritical s.pc : Int) ≤ c) (initial eventNum c) ps :=
  meets_always (fun _ _ _ => admission_step) (fun _ => Admission.critical_le)
    (admission_initial eventNum hc) hm

end

theorem critical_le_handover :
    Always step (fun s => (num Pc.inCritical s.pc : Int) ≤ 1) (initial 2 1 : Sys (Fin 2))
      [0, 0, 1, 1, 1, 1, 0, 0, 0, 1] :=
  critical_le_of_noStaleAdmission 2 (by decide) _ (by decide)

/-- Process 1 enters on the increment of process 0 before process 0 re-reads the count. Process 2
takes the count below zero again and sleeps, so process 0 wakes it too. -/
def doubleAdmission : List (Fin 3) := [0, 0, 1, 0, 1, 2, 2, 2, 2, 0, 0, 2]

theorem critical_exceeds_permits :
    ¬ ∀ ps : List (Fin 3), Always step (fun s => (num Pc.inCritical s.pc : Int) ≤ 1)
      (initial 2 1) ps := by
  intro h
  have hrun : (exec step (initial 2 1) doubleAdmission).map (fun s => num Pc.inCritical s.pc) =
      .ok 2 := by decide
  obtain ⟨s, hs, hn⟩ := Outcome.map_eq_ok.mp hrun
  have hle := (h doubleAdmission).last hs
  rw [hn] at hle
  exact absurd hle (by decide)

end KernelExperiment.Event.Semaphore
