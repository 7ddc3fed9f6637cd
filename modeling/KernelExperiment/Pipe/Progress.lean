import KernelExperiment.Lib.Ranking
import KernelExperiment.Pipe.Poll
import KernelExperiment.Pipe.Streams

/-! Blocking readers and writers come to rest. Without new calls and signals a run has boundedly many
steps, and where nobody can take one the calls left sleep on one side of the pipe and with reason. -/

namespace KernelExperiment.Pipe.Sleepers

open Kernel Runs Ranking

/-- What has been loaded of the pointers is what they are. -/
def Exact (dev : ScullPipe) (rp wp : Option ℕ) : Prop := (∀ r ∈ rp, r = dev.rp) ∧ ∀ w ∈ wp, w = dev.wp

instance (dev : ScullPipe) (rp wp : Option ℕ) : Decidable (Exact dev rp wp) :=
  inferInstanceAs (Decidable (_ ∧ _))

variable {dev dev' : ScullPipe} {call : Call File} {rp wp : Option ℕ} {interruptible signal : Bool}

theorem exact_none (dev : ScullPipe) : Exact dev none none := by simp [Exact]

theorem Exact.loadRp (h : Exact dev rp wp) : Exact dev (some dev.rp) wp := ⟨by simp, h.2⟩

theorem Exact.loadWp (h : Exact dev rp wp) : Exact dev rp (some dev.wp) := ⟨h.1, by simp⟩

theorem exact_congr (h : SameRing dev dev') : Exact dev' rp wp ↔ Exact dev rp wp := by
  rw [Exact, Exact, h.rp, h.wp]

/-- On exact loads a check finds what is the case. -/
theorem Exact.ready_eq {r w : ℕ} (h : Exact dev (some r) (some w)) (call : Call File) :
    ready { dev with rp := r, wp := w } call = ready dev call := by
  rw [h.1 r rfl, h.2 w rfl]

namespace Pc

/-- A call can disturb the others by its transfer and by its wake-up, once each. -/
def tickets : Pc → ℕ
  | .outside => 0
  | .wakeUp _ => 1
  | _ => 2

/-- How many steps a process can take at most before it sleeps, returns or disturbs the others. -/
def rank (dev : ScullPipe) (interruptible signal : Bool) : Pc → ℕ
  | .outside => 0
  | .wakeUp _ => 0
  | .schedule (.read ..) => if interruptible ∧ ¬signal then 0 else 10
  | .schedule (.write ..) => if signal then 2 else if interruptible then 0 else 10
  | .finishWait (.read ..) interrupted => if interrupted then 1 else 7
  | .finishWait (.write ..) _ => if signal then 1 else 7
  | .downInterruptible _ => 6
  | .waitEvent call rp wp => if Exact dev rp wp ∧ ready dev call = some false then 5 else 11
  | .prepareToWait call => if ready dev call = some false then 4 else 9
  | .check call rp wp =>
    if ¬Exact dev rp wp then 11
    else if ready dev call = some false then if interruptible then 3 else 11
    else 8

theorem rank_le (dev : ScullPipe) (interruptible signal : Bool) (pc : Pc) :
    pc.rank dev interruptible signal ≤ 11 := by
  unfold rank
  split <;> first | omega | (split_ifs <;> omega)

theorem rank_congr (h : SameRing dev dev') (pc : Pc) :
    pc.rank dev' interruptible signal = pc.rank dev interruptible signal := by
  cases pc with
  | waitEvent call rp wp => simp only [rank, exact_congr h, ready_congr h]
  | prepareToWait call => simp only [rank, ready_congr h]
  | check call rp wp => simp only [rank, exact_congr h, ready_congr h]
  | schedule call => cases call <;> rfl
  | finishWait call b => cases call <;> rfl
  | _ => rfl

theorem tickets_le (pc : Pc) : pc.tickets ≤ 2 := by
  unfold tickets
  split <;> omega

theorem rank_finishWait_le : (finishWait call false).rank dev interruptible signal ≤ 7 := by
  cases call with
  | read f n => exact Nat.le_refl 7
  | write f b =>
    rw [rank]
    split_ifs <;> omega

theorem rank_schedule_le : (schedule call).rank dev interruptible signal ≤ 10 := by
  cases call <;> rw [rank] <;> split_ifs <;> omega

theorem rank_prepareToWait_le : (prepareToWait call).rank dev interruptible signal ≤ 9 := by
  rw [rank]
  split_ifs <;> omega

/-- A pointer more is loaded. -/
theorem rank_waitEvent_load {rp' wp' : Option ℕ} (hexact : Exact dev rp wp → Exact dev rp' wp') :
    (waitEvent call rp' wp').rank dev interruptible signal ≤
      (waitEvent call rp wp).rank dev interruptible signal := by
  by_cases he : Exact dev rp wp
  · simp only [rank, he, hexact he, Nat.le_refl]
  · apply (rank_le ..).trans_eq
    rw [rank, if_neg fun h => he h.1]

theorem rank_check_load {rp' wp' : Option ℕ} (hexact : Exact dev rp wp → Exact dev rp' wp') :
    (check call rp' wp').rank dev interruptible signal ≤
      (check call rp wp).rank dev interruptible signal := by
  by_cases he : Exact dev rp wp
  · simp only [rank, he, hexact he, Nat.le_refl]
  · apply (rank_le ..).trans_eq
    rw [rank, if_pos he]

end Pc

namespace Sys

variable {P : Type*} {s t : Sys P} {p : P} {fault : Option ℕ} {n : ℕ}

def tickets (s : Sys P) (p : P) : ℕ := (s.pc p).tickets

def rank (s : Sys P) (p : P) : ℕ := (s.pc p).rank s.dev (s.interruptible p) (s.signalPending p)

/-- A step of `p` of which the others do not notice anything. -/
structure Calm (s t : Sys P) (p : P) : Prop where
  dev : SameRing s.dev t.dev
  pc : ∀ r, r ≠ p → t.pc r = s.pc r
  interruptible : ∀ r, r ≠ p → t.interruptible r = s.interruptible r
  signalPending : ∀ r, r ≠ p → t.signalPending r = s.signalPending r
  tickets : t.tickets p ≤ s.tickets p

/-- A calm step that brings `p` nearer to its rest. -/
structure Advances (s t : Sys P) (p : P) : Prop extends Calm s t p where
  rank : t.rank p + 1 ≤ s.rank p

/-- A step that the others may notice costs a ticket. -/
structure Disturbs (s t : Sys P) (p : P) : Prop where
  pc : ∀ r, r ≠ p → t.pc r = s.pc r
  tickets : t.tickets p + 1 ≤ s.tickets p

theorem Calm.rank (h : Calm s t p) {r : P} (hr : r ≠ p) : t.rank r = s.rank r := by
  unfold Sys.rank
  rw [h.pc r hr, h.interruptible r hr, h.signalPending r hr, Pc.rank_congr h.dev]

variable [DecidableEq P]

theorem calm_goto {u : Sys P} {c c' : Pc} (hp : s.pc p = c) (hdev : SameRing s.dev u.dev)
    (hpc : u.pc = s.pc) (hint : ∀ r, r ≠ p → u.interruptible r = s.interruptible r)
    (hsignal : u.signalPending = s.signalPending) (htickets : c'.tickets ≤ c.tickets) :
    Calm s (u.goto p c') p where
  dev := hdev
  pc r hr := by rw [goto_pc_of_ne _ _ hr, hpc]
  interruptible := hint
  signalPending r _ := congrFun hsignal r
  tickets := by rwa [tickets, tickets, goto_pc_self, hp]

theorem rank_goto (u : Sys P) (p : P) (c : Pc) :
    (u.goto p c).rank p = c.rank u.dev (u.interruptible p) (u.signalPending p) := by
  unfold rank
  rw [goto_pc_self]
  rfl

theorem Advances.of_goto {u : Sys P} {c c' : Pc} (hp : s.pc p = c) (hdev : SameRing s.dev u.dev)
    (hpc : u.pc = s.pc) (hint : ∀ r, r ≠ p → u.interruptible r = s.interruptible r)
    (hsignal : u.signalPending = s.signalPending) (htickets : c'.tickets ≤ c.tickets)
    (hrank : c'.rank s.dev (u.interruptible p) (s.signalPending p) + 1 ≤
      c.rank s.dev (s.interruptible p) (s.signalPending p)) :
    Advances s (u.goto p c') p := by
  refine ⟨calm_goto hp hdev hpc hint hsignal htickets, ?_⟩
  rw [rank_goto, Pc.rank_congr hdev, hsignal, Sys.rank, hp]
  exact hrank

theorem advances_of_locked (hp : s.pc p = .downInterruptible call)
    (h : s.locked p call fault = .ok t) :
    Advances s t p ∨ Disturbs s t p := by
  unfold locked at h
  cases hrun : call.runSection s.dev fault with
  | none =>
    rw [hrun] at h
    cases h
  | some r =>
    obtain ⟨out, dev⟩ := r
    rw [hrun] at h
    cases section_of_run hrun with
    | wait hready =>
      left
      dsimp only at h
      split_ifs at h
      · cases h
        exact .of_goto hp (.refl _) rfl (fun _ _ => rfl) rfl (Nat.zero_le _) (by simp [Pc.rank])
      · cases call with
        | read f n =>
          cases h
          refine .of_goto hp (.refl _) rfl (fun _ _ => rfl) rfl (Nat.le_refl _) ?_
          simp [Pc.rank, exact_none, hready]
        | write f b =>
          cases h
          refine .of_goto hp (.refl _) rfl (fun _ _ => rfl) rfl (Nat.le_refl _) ?_
          simp [Pc.rank, hready]
    | efault hd =>
      cases h
      left
      exact .of_goto (u := { s with dev }) hp hd rfl (fun _ _ => rfl) rfl (Nat.zero_le _)
        (by simp [Pc.rank])
    | done hready hk =>
      cases h
      right
      refine ⟨fun r hr => goto_pc_of_ne _ _ hr, ?_⟩
      rw [tickets, tickets, goto_pc_self, hp]
      exact Nat.le_refl 2

theorem Advances.checked {r w : ℕ} {b : Bool} (hp : s.pc p = .check call (some r) (some w))
    (hb : ready { s.dev with rp := r, wp := w } call = some b) :
    Advances s (s.checked p call b) p := by
  have hto {c : Pc} (htickets : c.tickets ≤ 2)
      (hrank : c.rank s.dev (s.interruptible p) (s.signalPending p) + 1 ≤ s.rank p) :
      Advances s (s.goto p c) p := by
    rw [Sys.rank, hp] at hrank
    exact .of_goto hp (.refl _) rfl (fun _ _ => rfl) rfl htickets hrank
  have hrank : s.rank p = (Pc.check call (some r) (some w)).rank s.dev (s.interruptible p)
      (s.signalPending p) := by rw [Sys.rank, hp]
  rw [Pc.rank] at hrank
  cases b with
  | true =>
    have hle : (Pc.finishWait call false).rank s.dev (s.interruptible p) (s.signalPending p) ≤ 7 :=
      Pc.rank_finishWait_le
    refine hto (Nat.le_refl _) ?_
    split_ifs at hrank with hexact hready hint
    · rw [hexact.ready_eq, hready] at hb
      cases hb
    · omega
    · omega
    · omega
  | false =>
    have hle : (Pc.schedule call).rank s.dev (s.interruptible p) (s.signalPending p) ≤ 10 :=
      Pc.rank_schedule_le
    have hready (he : Exact s.dev (some r) (some w)) : ready s.dev call = some false := by
      rw [← he.ready_eq, hb]
    cases call with
    | read f n =>
      rw [Sys.checked]
      split_ifs with hsignal
      · refine hto (Nat.le_refl _) ?_
        rw [Pc.rank, if_pos rfl]
        split_ifs at hrank <;> omega
      · refine hto (Nat.le_refl _) ?_
        split_ifs at hrank with hexact hwait hint
        · rw [Pc.rank, if_pos ⟨hint, hsignal⟩]
          omega
        · omega
        · exact absurd (hready hexact) hwait
        · omega
    | write f buf =>
      refine hto (Nat.le_refl _) ?_
      split_ifs at hrank with hexact hwait hint
      · rw [Pc.rank, if_pos hint]
        split_ifs <;> omega
      · omega
      · exact absurd (hready hexact) hwait
      · omega

theorem advances_of_proceed (h : s.proceed p fault = .ok t) : Advances s t p ∨ Disturbs s t p := by
  unfold proceed at h
  split at h
  case h_1 => cases h
  case h_2 call hp => exact advances_of_locked hp h
  case h_3 call r w hp =>
    left
    have hrank : s.rank p = (Pc.waitEvent call (some r) (some w)).rank s.dev (s.interruptible p)
        (s.signalPending p) := by rw [rank, hp]
    have hto {c : Pc} (htickets : c.tickets ≤ 2)
        (hrank : c.rank s.dev (s.interruptible p) (s.signalPending p) + 1 ≤ s.rank p) :
        Advances s (s.goto p c) p := by
      rw [rank, hp] at hrank
      exact .of_goto hp (.refl _) rfl (fun _ _ => rfl) rfl htickets hrank
    rw [Pc.rank] at hrank
    split at h
    · cases h
    next hb =>
      cases h
      refine hto (Nat.le_refl _) ?_
      split_ifs at hrank with hexact
      · rw [hexact.1.ready_eq, hexact.2] at hb
        cases hb
      · rw [Pc.rank]
        omega
    next hb =>
      cases h
      refine hto (Nat.le_refl _) ?_
      split_ifs at hrank with hexact
      · rw [Pc.rank, if_pos hexact.2]
        omega
      · have hle : (Pc.prepareToWait call).rank s.dev (s.interruptible p) (s.signalPending p) ≤ 9 :=
          Pc.rank_prepareToWait_le
        omega
  case h_4 => cases h
  case h_5 call hp =>
    cases h
    left
    refine .of_goto hp (.refl _) rfl (fun r hr => Function.update_of_ne hr ..) rfl (Nat.le_refl _) ?_
    have hint : (s.prepareToWait p (waitsOn call)).interruptible p = true :=
      Function.update_self ..
    rw [hint, Pc.rank, Pc.rank, if_neg (not_not.mpr (exact_none _))]
    split_ifs <;> simp_all
  case h_6 call r w hp =>
    split at h
    · cases h
    next hb =>
      cases h
      exact .inl (.checked hp hb)
  case h_7 => cases h
  case h_8 call hp =>
    split_ifs at h with hasleep
    cases h
    left
    have hint : ∀ r, r ≠ p → (s.running p).interruptible r = s.interruptible r :=
      fun r hr => Function.update_of_ne hr ..
    cases call with
    | read f n =>
      have hle : (Pc.prepareToWait (.read f n)).rank s.dev ((s.running p).interruptible p)
          (s.signalPending p) ≤ 9 := Pc.rank_prepareToWait_le
      refine .of_goto hp (.refl _) rfl hint rfl (Nat.le_refl _) ?_
      conv_rhs => rw [Pc.rank, if_neg hasleep]
      omega
    | write f b =>
      refine .of_goto hp (.refl _) rfl hint rfl (Nat.le_refl _) ?_
      rw [Pc.rank, Pc.rank]
      split_ifs <;> simp_all
  case h_9 call interrupted hp =>
    cases h
    left
    refine .of_goto hp (.refl _) rfl (fun r hr => Function.update_of_ne hr ..) rfl ?_ ?_
    · split_ifs
      · exact Nat.zero_le _
      · exact Nat.le_refl _
    · cases call <;> simp only [Pc.rank] <;> split_ifs <;> simp_all
  case h_10 call hp =>
    cases h
    right
    refine ⟨fun r hr => goto_pc_of_ne _ _ hr, ?_⟩
    rw [tickets, tickets, goto_pc_self, hp]
    exact Nat.le_refl 1

/-- A step of the calls under way; the others come from outside the driver. -/
def Act.own : Act P → Bool
  | .enter .. => false
  | .signal _ => false
  | _ => true

/-- Loads can be repeated, but what else a call does brings it on. -/
def Act.works : Act P → Bool
  | .proceed .. => true
  | .interrupted _ => true
  | _ => false

def potential [Fintype P] (s : Sys P) : ℕ := Ranking.potential 11 s.tickets s.rank

omit [DecidableEq P] in
theorem Calm.tickets_le (h : Calm s t p) (r : P) : t.tickets r ≤ s.tickets r := by
  by_cases hr : r = p
  · rw [hr]
    exact h.tickets
  · rw [Sys.tickets, Sys.tickets, h.pc r hr]

omit [DecidableEq P] in
theorem Calm.potential_le [Fintype P] (h : Calm s t p) (hrank : t.rank p + n ≤ s.rank p) :
    t.potential + n ≤ s.potential :=
  potential_calm h.tickets_le hrank fun _ hr => (h.rank hr).le

omit [DecidableEq P] in
theorem Disturbs.potential_lt [Fintype P] (h : Disturbs s t p) : t.potential + 1 ≤ s.potential := by
  refine potential_disturbed h.tickets (fun r hr => ?_) fun r => Pc.rank_le ..
  rw [Sys.tickets, Sys.tickets, h.pc r hr]

theorem potential_load [Fintype P] {c c' : Pc} (hp : s.pc p = c) (htickets : c'.tickets ≤ c.tickets)
    (hrank : c'.rank s.dev (s.interruptible p) (s.signalPending p) ≤
      c.rank s.dev (s.interruptible p) (s.signalPending p)) :
    (s.goto p c').potential + 0 ≤ s.potential := by
  refine (calm_goto hp (.refl _) rfl (fun _ _ => rfl) rfl htickets).potential_le ?_
  rwa [rank_goto, rank, hp]

/-- A step of the calls under way does not raise the potential, and work lowers it. -/
theorem potential_step [Fintype P] {a : Act P} (ha : Act.own a = true) (h : s.step a = .ok t) :
    t.potential + (Act.works a).toNat ≤ s.potential := by
  cases a with
  | enter p call => cases ha
  | signal p => cases ha
  | proceed p fault =>
    rcases advances_of_proceed h with hadv | hdis
    · exact hadv.toCalm.potential_le hadv.rank
    · exact hdis.potential_lt
  | loadRp p =>
    rw [step] at h
    split at h
    case h_1 call rp wp hp =>
      cases h
      exact potential_load hp (Nat.le_refl _) (Pc.rank_waitEvent_load Exact.loadRp)
    case h_2 call rp wp hp =>
      cases h
      exact potential_load hp (Nat.le_refl _) (Pc.rank_check_load Exact.loadRp)
    case h_3 => cases h
  | loadWp p =>
    rw [step] at h
    split at h
    case h_1 call rp wp hp =>
      cases h
      exact potential_load hp (Nat.le_refl _) (Pc.rank_waitEvent_load Exact.loadWp)
    case h_2 call rp wp hp =>
      cases h
      exact potential_load hp (Nat.le_refl _) (Pc.rank_check_load Exact.loadWp)
    case h_3 => cases h
  | interrupted p =>
    rw [step] at h
    split at h
    case h_1 call hp =>
      split_ifs at h
      cases h
      have hadv : Advances s (s.goto p .outside) p :=
        .of_goto hp (.refl _) rfl (fun _ _ => rfl) rfl (Nat.zero_le _) (by simp [Pc.rank])
      exact hadv.toCalm.potential_le hadv.rank
    case h_2 => cases h

/-- The calls under way do boundedly much work before they have all returned or sleep, whoever takes
the next step. -/
theorem works_le [Fintype P] {acts : List (Act P)} (hacts : ∀ a ∈ acts, Act.own a = true)
    (he : exec step s acts = .ok t) :
    acts.countP Act.works ≤
      (11 * Fintype.card P + 1) * (2 * Fintype.card P) + 11 * Fintype.card P := by
  have hm : Meets step (fun _ a => Act.own a = true) s acts := .of_forall fun _ => hacts
  have hcount := countP_add_rank_le (fun _ _ _ => potential_step) hm he
  have hle : s.potential ≤
      (11 * Fintype.card P + 1) * (2 * Fintype.card P) + 11 * Fintype.card P :=
    potential_le (fun r => Pc.tickets_le _) fun r => Pc.rank_le ..
  omega

/-- A reader and a writer have entered. -/
def bothEntered : Sys Bool :=
  { idle oneByte with pc := fun p => .downInterruptible (if p then readOne else writeTwo) }

/-- The writer and then the reader go through, the reader without having slept. -/
def handover : List (Act Bool) :=
  [.proceed false none, .proceed false none, .proceed true none, .proceed true none]

theorem works_le_handover : ∃ t, exec step bothEntered handover = .ok t ∧
    (∀ p, t.pc p = .outside) ∧
    handover.countP Act.works ≤
      (11 * Fintype.card Bool + 1) * (2 * Fintype.card Bool) + 11 * Fintype.card Bool := by
  have he : exec step bothEntered handover = .ok _ := rfl
  refine ⟨_, he, fun p => ?_, works_le (by decide) he⟩
  cases p <;> rfl

/-! Where nobody can take a step. -/

def Stuck (s : Sys P) : Prop := ∀ a t, Act.own a = true → s.step a ≠ .ok t

theorem Stuck.asleep (h : s.Stuck) (hs : s.Sound n) (p : P) :
    s.pc p = .outside ∨ ∃ call, s.asleep p call := by
  have hp : s.proceed p none = .blocked := by
    cases ho : s.proceed p none with
    | blocked => rfl
    | fault => exact absurd ho (hs.proceed_ne_fault p none)
    | ok t => exact absurd ho (h (.proceed p none) t rfl)
  have hrp := fun t => h (.loadRp p) t rfl
  have hwp := fun t => h (.loadWp p) t rfl
  obtain ⟨mem, hdev, -⟩ := hs
  unfold Sys.proceed at hp
  cases hpc : s.pc p with
  | outside => exact .inl rfl
  | schedule call =>
    right
    refine ⟨call, hpc, ?_⟩
    rw [hpc] at hp
    dsimp only at hp
    split_ifs at hp with hasleep
    exact ⟨hasleep.1, by simpa using hasleep.2⟩
  | waitEvent call rp wp =>
    simp only [step, hpc] at hrp
    exact absurd rfl (hrp _)
  | check call rp wp =>
    simp only [step, hpc] at hrp
    exact absurd rfl (hrp _)
  | downInterruptible call =>
    exfalso
    obtain ⟨out, dev, hrun⟩ := runSection_isSome hdev call none
    rw [hpc] at hp
    dsimp only at hp
    rw [locked, hrun] at hp
    cases out with
    | wait =>
      dsimp only at hp
      split_ifs at hp
      cases call <;> cases hp
    | efault => cases hp
    | done bytes => cases hp
  | _ =>
    rw [hpc] at hp
    cases hp

end Sys
end KernelExperiment.Pipe.Sleepers
