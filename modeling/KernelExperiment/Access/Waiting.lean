import KernelExperiment.Access.Users

/-! The wait queue of the blocking uid device. What a process has found out of the gate since it joined
the queue stays true until the count drops to zero, and then a wake-up is to come. -/

namespace KernelExperiment.Access
open Kernel Runs

namespace Gate

/-- A count that is not zero stays so, under the same owner. -/
def Keeps (g g' : Gate) : Prop := g.count ≠ 0 → g'.count ≠ 0 ∧ g'.owner = g.owner

/-- What the comparisons in front of the next one have found. -/
def Denies (g : Gate) (c : Cred) : Test → Prop
  | .count => True
  | .uid => g.count ≠ 0
  | .euid => g.count ≠ 0 ∧ g.owner ≠ c.uid

variable {g g' : Gate} {c d : Cred} {k : Test}

theorem Keeps.refl (g : Gate) : g.Keeps g := fun h => ⟨h, rfl⟩

theorem keeps_enter (h : 0 ≤ g.count) (d : Cred) : g.Keeps (g.enter d) := by
  intro hne
  refine ⟨?_, if_neg hne⟩
  show g.count + 1 ≠ 0
  omega

theorem keeps_leave (h : g.leave.count ≠ 0) : g.Keeps g.leave := fun _ => ⟨h, rfl⟩

theorem Denies.keeps (h : g.Denies c k) (hk : g.Keeps g') : g'.Denies c k := by
  cases k with
  | count => trivial
  | uid => exact (hk h).1
  | euid =>
    obtain ⟨hne, howner⟩ := hk h.1
    exact ⟨hne, by rw [howner]; exact h.2⟩

theorem not_available_keeps (h : ¬g.Available c) (hk : g.Keeps g') : ¬g'.Available c := by
  obtain ⟨hne, howner⟩ := hk fun hzero => h (Or.inl hzero)
  rintro (hzero | hother)
  · exact hne hzero
  · rw [howner] at hother
    exact h (Or.inr hother)

end Gate

namespace Sys

variable {P : Type*} {s t u : Sys P} {p q : P} {o : Open}

/-- A release has brought the count to zero and is about to wake the sleepers. -/
def Pending (s : Sys P) : Prop := ∃ r, s.pc r = .wakeUp

/-- What there is to say of a process in an interruptible state. -/
def Guarded (s : Sys P) (p : P) : Prop :=
  match s.pc p with
  | .test o true k => s.queued p = true ∧ (s.Pending ∨ s.gate.Denies o.cred k)
  | .schedule o => s.queued p = true ∧ (s.Pending ∨ ¬s.gate.Available o.cred)
  | _ => True

def Safe (s : Sys P) : Prop := ∀ p, s.interruptible p = true → s.Guarded p

/-- Asleep in `scull_w_open`. -/
def asleep (s : Sys P) (p : P) (o : Open) : Prop :=
  s.pc p = .schedule o ∧ s.interruptible p = true ∧ s.signalPending p = false

/-- A process that does not move stays guarded when a wake-up is to come or the gate keeps its
owner. -/
theorem Guarded.of_same (hg : s.Guarded p) (hpc : t.pc p = s.pc p) (hqueued : t.queued p = s.queued p)
    (hpending : s.Pending → t.Pending) (hgate : t.Pending ∨ s.gate.Keeps t.gate) :
    t.Guarded p := by
  unfold Guarded at hg ⊢
  rw [hpc, hqueued]
  split
  case h_1 o k hp =>
    rw [hp] at hg
    refine ⟨hg.1, ?_⟩
    rcases hg.2 with hp | hd
    · exact Or.inl (hpending hp)
    · exact hgate.imp_right hd.keeps
  case h_2 o hp =>
    rw [hp] at hg
    refine ⟨hg.1, ?_⟩
    rcases hg.2 with hp | hd
    · exact Or.inl (hpending hp)
    · exact hgate.imp_right (Gate.not_available_keeps hd)
  case h_3 => trivial

/-- Where no test is under way behind the queue and no sleep ahead. -/
def Pc.Free : Pc → Prop
  | .test _ true _ => False
  | .schedule _ => False
  | _ => True

theorem guarded_of_free (h : Pc.Free (s.pc p)) : s.Guarded p := by
  unfold Guarded
  split
  case h_1 o k hp => rw [hp] at h; exact h.elim
  case h_2 o hp => rw [hp] at h; exact h.elim
  case h_3 => trivial

variable [DecidableEq P]

theorem guarded_goto_free {c : Pc} (hc : Pc.Free c) : (s.goto p c).Guarded p := by
  apply guarded_of_free
  rwa [goto_pc_self]

theorem pending_goto {c : Pc} (hpc : u.pc = s.pc) (hp : s.pc p ≠ .wakeUp) (h : s.Pending) :
    (u.goto p c).Pending := by
  obtain ⟨r, hr⟩ := h
  have hrp : r ≠ p := by
    rintro rfl
    exact hp hr
  exact ⟨r, by rw [goto_pc_of_ne u c hrp, hpc, hr]⟩

/-- One process moves, and not from a wake-up; the others stay on the queue. -/
theorem Safe.move (hs : s.Safe) (hp : s.pc p ≠ .wakeUp) {c : Pc} (hpc : u.pc = s.pc)
    (hqueued : ∀ r, r ≠ p → u.queued r = s.queued r)
    (hint : ∀ r, r ≠ p → u.interruptible r = s.interruptible r)
    (hgate : (u.goto p c).Pending ∨ s.gate.Keeps u.gate)
    (hown : u.interruptible p = true → (u.goto p c).Guarded p) : (u.goto p c).Safe := by
  intro r hr
  by_cases hrp : r = p
  · rw [hrp] at hr ⊢
    exact hown hr
  · refine (hs r ((hint r hrp).symm.trans hr)).of_same ?_ (hqueued r hrp) (pending_goto hpc hp) hgate
    rw [goto_pc_of_ne u c hrp, hpc]

/-- A move to a place where there is nothing to guard. -/
theorem Safe.moveFree (hs : s.Safe) (hp : s.pc p ≠ .wakeUp) {c : Pc} (hc : Pc.Free c)
    (hpc : u.pc = s.pc) (hqueued : ∀ r, r ≠ p → u.queued r = s.queued r)
    (hint : ∀ r, r ≠ p → u.interruptible r = s.interruptible r)
    (hgate : (u.goto p c).Pending ∨ s.gate.Keeps u.gate) : (u.goto p c).Safe := by
  exact hs.move hp hpc hqueued hint hgate fun _ => guarded_goto_free hc

theorem Safe.goto (hs : s.Safe) (hp : s.pc p ≠ .wakeUp) {c : Pc} (hc : Pc.Free c) :
    (s.goto p c).Safe :=
  hs.moveFree hp hc rfl (fun _ _ => rfl) (fun _ _ => rfl) (Or.inr (.refl _))

theorem Safe.grant (hs : s.Safe) (hpos : 0 ≤ s.gate.count) (hp : s.pc p = .lock o) :
    (s.grant p o.cred).Safe := by
  have hnw : s.pc p ≠ .wakeUp := by rw [hp]; nofun
  exact hs.moveFree hnw trivial rfl (fun _ _ => rfl) (fun _ _ => rfl)
    (Or.inr (Gate.keeps_enter hpos o.cred))

theorem Safe.locked (hs : s.Safe) (hpos : 0 ≤ s.gate.count) (hp : s.pc p = .lock o) :
    (s.locked .scullwuid p o).Safe := by
  have hnw : s.pc p ≠ .wakeUp := by rw [hp]; nofun
  rw [Sys.locked]
  split_ifs
  · exact hs.grant hpos hp
  · exact hs.goto hnw trivial
  · exact hs.goto hnw trivial

/-! Each comparison that fails is one more that denies. -/

section
variable {g : Gate} {c : Cred}

theorem denies_uid (h : compare g c .count = false) : g.Denies c .uid := of_decide_eq_false h

theorem denies_euid (hd : g.Denies c .uid) (h : compare g c .uid = false) : g.Denies c .euid :=
  ⟨hd, of_decide_eq_false h⟩

theorem not_available_of_denies (hd : g.Denies c .euid) (h : compare g c .euid = false) :
    ¬g.Available c := by
  obtain ⟨hne, huid⟩ := hd
  rw [compare, Bool.or_eq_false_iff] at h
  rintro (hzero | howner | howner | hcap)
  · exact hne hzero
  · exact huid howner
  · exact of_decide_eq_false h.1 howner
  · rw [h.2] at hcap
    cases hcap

end

theorem Safe.tested (hs : s.Safe) {joined : Bool} {k : Test} (hp : s.pc p = .test o joined k) :
    (s.tested p o joined k (compare s.gate o.cred k)).Safe := by
  have hnw : s.pc p ≠ .wakeUp := by rw [hp]; nofun
  obtain ⟨c, hc, hafter⟩ := s.tested_goto p o joined k (compare s.gate o.cred k)
  rw [hc]
  -- what the process has found out so far
  have hfound : joined = true → s.interruptible p = true →
      s.queued p = true ∧ ((s.goto p c).Pending ∨ s.gate.Denies o.cred k) := by
    rintro rfl hint
    have hg := hs p hint
    rw [Guarded, hp] at hg
    exact ⟨hg.1, hg.2.imp_left (pending_goto rfl hnw)⟩
  refine hs.move hnw rfl (fun _ _ => rfl) (fun _ _ => rfl) (Or.inr (.refl _)) fun hint => ?_
  generalize hb : compare s.gate o.cred k = b at hafter
  cases hafter with
  | retry => exact guarded_goto_free trivial
  | found => exact guarded_goto_free trivial
  | join => exact guarded_goto_free trivial
  | interrupted => exact guarded_goto_free trivial
  | uid =>
    cases joined with
    | false => exact guarded_goto_free trivial
    | true =>
      obtain ⟨hqueued, hdenies⟩ := hfound rfl hint
      rw [Guarded, goto_pc_self]
      exact ⟨hqueued, hdenies.imp_right fun _ => denies_uid hb⟩
  | euid =>
    cases joined with
    | false => exact guarded_goto_free trivial
    | true =>
      obtain ⟨hqueued, hdenies⟩ := hfound rfl hint
      rw [Guarded, goto_pc_self]
      exact ⟨hqueued, hdenies.imp_right fun hd => denies_euid hd hb⟩
  | sleep =>
    obtain ⟨hqueued, hdenies⟩ := hfound rfl hint
    rw [Guarded, goto_pc_self]
    exact ⟨hqueued, hdenies.imp_right fun hd => not_available_of_denies hd hb⟩

/-- Whoever is still in an interruptible state behind a wake-up was not on the queue, or there is
another one to come. -/
theorem Safe.wakeUp (hs : s.Safe) :
    (s.wakeUpInterruptible.goto p (.outside none)).Safe := by
  intro r hr
  have hwoken : s.queued r = false ∧ s.interruptible r = true := by
    simpa [Sys.goto, wakeUpInterruptible] using hr
  by_cases hrp : r = p
  · refine guarded_of_free ?_
    rw [hrp, goto_pc_self]
    trivial
  · have hg := hs r hwoken.2
    unfold Guarded at hg ⊢
    rw [goto_pc_of_ne _ _ hrp]
    change match s.pc r with
      | .test o true k => _
      | .schedule o => _
      | _ => _
    split
    case h_1 o k hpc =>
      rw [hpc, hwoken.1] at hg
      cases hg.1
    case h_2 o hpc =>
      rw [hpc, hwoken.1] at hg
      cases hg.1
    case h_3 => trivial

theorem Safe.proceed (hs : s.Safe) (hpos : 0 ≤ s.gate.count)
    (h : s.proceed .scullwuid p = .ok t) : t.Safe := by
  unfold Sys.proceed at h
  split at h
  case h_1 => cases h
  case h_2 o hp =>
    cases h
    exact hs.locked hpos hp
  case h_3 o joined k hp =>
    cases h
    exact hs.tested hp
  case h_4 o hp =>
    have hnw : s.pc p ≠ .wakeUp := by rw [hp]; nofun
    cases h
    refine hs.move hnw rfl (fun r hr => ?_) (fun r hr => ?_) (Or.inr (.refl _)) fun _ => ?_
    · exact Function.update_of_ne hr ..
    · exact Function.update_of_ne hr ..
    · rw [Guarded, goto_pc_self]
      exact ⟨Function.update_self .., Or.inr trivial⟩
  case h_5 o hp =>
    have hnw : s.pc p ≠ .wakeUp := by rw [hp]; nofun
    split_ifs at h
    cases h
    refine hs.moveFree hnw trivial rfl (fun _ _ => rfl) (fun r hr => ?_) (Or.inr (.refl _))
    exact Function.update_of_ne hr ..
  case h_6 o interrupted hp =>
    have hnw : s.pc p ≠ .wakeUp := by rw [hp]; nofun
    have hfinish {c : Pc} (hc : Pc.Free c) : ((s.finishWait p).goto p c).Safe := by
      refine hs.moveFree hnw hc rfl (fun r hr => ?_) (fun r hr => ?_) (Or.inr (.refl _))
      · exact Function.update_of_ne hr ..
      · exact Function.update_of_ne hr ..
    cases h
    split_ifs
    · exact hfinish trivial
    · exact hfinish trivial
  case h_7 =>
    cases h
    exact hs.wakeUp

/-- The release that empties the device has a wake-up to come; after another one the owner stays. -/
theorem Safe.release (hs : s.Safe) {r : Option (Except Errno Unit)} (hp : s.pc p = .outside r)
    (file : ℕ) :
    ({ s with gate := s.gate.leave, files := s.files.eraseIdx file }.goto p
      (released .scullwuid s.gate.leave)).Safe := by
  have hnw : s.pc p ≠ .wakeUp := by rw [hp]; nofun
  by_cases hzero : s.gate.leave.count = 0
  · have hwake : released .scullwuid s.gate.leave = .wakeUp := if_pos hzero
    rw [hwake]
    exact hs.moveFree hnw trivial rfl (fun _ _ => rfl) (fun _ _ => rfl)
      (Or.inl ⟨p, goto_pc_self ..⟩)
  · have hout : released .scullwuid s.gate.leave = .outside none := if_neg hzero
    rw [hout]
    exact hs.moveFree hnw trivial rfl (fun _ _ => rfl) (fun _ _ => rfl)
      (Or.inr (Gate.keeps_leave hzero))

theorem Safe.step {a : Act P} (hs : s.Safe) (hpos : 0 ≤ s.gate.count)
    (h : step .scullwuid s a = .ok t) : t.Safe := by
  cases a with
  | opens p o =>
    rw [Sys.step] at h
    split at h
    case h_1 r hp =>
      cases h
      have hnw : s.pc p ≠ .wakeUp := by simp [hp]
      exact hs.moveFree hnw trivial rfl (fun _ _ => rfl) (fun _ _ => rfl) (Or.inr (.refl _))
    case h_2 => cases h
  | proceed p => exact hs.proceed hpos h
  | release p file =>
    rw [Sys.step] at h
    split at h
    case h_1 r hp =>
      split_ifs at h
      cases h
      exact hs.release hp file
    case h_2 => cases h
  | signal p =>
    cases h
    intro r hr
    have hne : r ≠ p := by
      rintro rfl
      simp [running] at hr
    have hint : s.interruptible r = true := by simpa [running, hne] using hr
    exact (hs r hint).of_same rfl rfl id (Or.inr (.refl _))

theorem safe_of_exec {acts : List (Act P)} (he : exec (step .scullwuid) initial acts = .ok s) :
    s.Safe := by
  have hboth : Kept s ∧ s.Safe := by
    refine exec_invariant (I := fun s => Kept s ∧ s.Safe) (fun s a t hs h => ?_)
      ⟨kept_initial, fun _ h => by cases h⟩ he
    have hpos : 0 ≤ s.gate.count := by
      rw [hs.1.count_eq]
      exact Int.natCast_nonneg _
    exact ⟨hs.1.effect (step_effect h), hs.2.step hpos h⟩
  exact hboth.2

/-- With no release between its section and its wake-up, nobody sleeps who could go in. -/
theorem sleepers_unavailable {acts : List (Act P)}
    (he : exec (step .scullwuid) initial acts = .ok s) (hwake : ∀ r, s.pc r ≠ .wakeUp)
    (hasleep : s.asleep p o) : ¬s.gate.Available o.cred := by
  have hg := safe_of_exec he p hasleep.2.1
  rw [Guarded, hasleep.1] at hg
  apply hg.2.resolve_left
  rintro ⟨r, hr⟩
  exact hwake r hr

/-- A user has the device open, and another one waits for him to close it. -/
def waitRun : List (Act Bool) :=
  [.opens true (plainOpen 500), .proceed true, .opens false (plainOpen 501), .proceed false,
    .proceed false, .proceed false, .proceed false, .proceed false, .proceed false,
    .proceed false, .proceed false]

theorem waitRun_unavailable : ∃ s, exec (step .scullwuid) initial waitRun = .ok s ∧
    ¬s.gate.Available (plainOpen 501).cred := by
  have he : exec (step .scullwuid) initial waitRun = .ok _ := rfl
  refine ⟨_, he, sleepers_unavailable (p := false) (o := plainOpen 501) he ?_ ⟨rfl, rfl, rfl⟩⟩
  intro r h
  cases r <;> cases h

end Sys
end KernelExperiment.Access
