import KernelExperiment.Pipe.Poll
import KernelExperiment.Pipe.Streams

/-! What one step of the blocking readers and writers does to the call of a process, and to the two
conditions for which they wait. -/

namespace KernelExperiment.Pipe.Sleepers

open Kernel Runs Queue

/-- The call that a process is in. -/
def Pc.call? : Pc → Option (Call File)
  | .outside => none
  | .downInterruptible call => some call
  | .waitEvent call _ _ => some call
  | .prepareToWait call => some call
  | .check call _ _ => some call
  | .schedule call => some call
  | .finishWait call _ => some call
  | .wakeUp call => some call

def Pc.isWakeUp : Pc → Bool
  | .wakeUp _ => true
  | _ => false

def Pc.isDown : Pc → Bool
  | .downInterruptible _ => true
  | _ => false

/-- The calls that wait on a queue have nothing to do. -/
def Unready (dev : ScullPipe) : WaitQueue → Prop
  | .inq => dev.rp = dev.wp
  | .outq => dev.spacefree = some 0

instance (dev : ScullPipe) (q : WaitQueue) : Decidable (Unready dev q) := by
  cases q <;> unfold Unready <;> infer_instance

variable {dev dev' : ScullPipe} {call : Call File} {q : WaitQueue} {mem : List Byte}
  {out : Transfer} {fault : Option ℕ}

theorem unready_iff : Unready dev (waitsOn call) ↔ ready dev call = some false := by
  cases call <;> simp [Unready, waitsOn, ready]

theorem unready_congr (h : SameRing dev dev') : Unready dev' q ↔ Unready dev q := by
  cases q with
  | inq => rw [Unready, Unready, h.rp, h.wp]
  | outq => rw [Unready, Unready, spacefree_congr h]

theorem unready_inq_iff (h : dev.Intact mem) : Unready dev .inq ↔ dev.queue = [] := by
  constructor
  · intro he
    rw [h.queue_eq, show dev.rp = dev.wp from he]
    exact Ring.content_self
  · intro he
    have hrp := h.rp_lt
    have hlen := Ring.length_content hrp h.wp_lt
    rw [← h.queue_eq, he, List.length_nil] at hlen
    show dev.rp = dev.wp
    split_ifs at hlen <;> omega

theorem unready_outq_iff (h : dev.Intact mem) (hmax : mem.length ≤ 1073741824) :
    Unready dev .outq ↔ dev.queue.length + 1 = mem.length := by
  rw [Unready, h.spacefree_queue hmax, Option.some.injEq]
  omega

/-- A transfer of the other side leaves enough for the calls that wait on a queue. -/
theorem ready_of_section (h : dev.Intact mem) (hmax : mem.length ≤ 1073741824)
    (hrun : call.runSection dev fault = some (out, dev')) (hside : waitsOn call ≠ q)
    (hq : ¬Unready dev q) : ¬Unready dev' q := by
  obtain ⟨⟨mem', hdev, hlen⟩, hserves⟩ := runSection_serves h hrun
  cases call with
  | read f count =>
    cases q with
    | inq => exact absurd rfl hside
    | outq =>
      rw [unready_outq_iff h hmax] at hq
      rw [unready_outq_iff hdev (hlen ▸ hmax), hlen]
      have hle := h.length_queue_le
      have hpos := h.length_pos
      have hshort : dev'.queue.length ≤ dev.queue.length := by
        have hsum := congrArg List.length hserves.conserves
        cases out <;> simp [Call.ops, puts, takes] at hsum <;> omega
      omega
  | write f buf =>
    cases q with
    | outq => exact absurd rfl hside
    | inq =>
      rw [unready_inq_iff h] at hq
      rw [unready_inq_iff hdev]
      have hsum := hserves.conserves
      have htakes : takes ((Call.write f buf).ops out) = [] := by cases out <;> rfl
      rw [htakes, List.nil_append] at hsum
      rw [← hsum]
      exact List.append_ne_nil_of_left_ne_nil hq _

def Act.process {P : Type*} : Act P → P
  | .enter p _ => p
  | .proceed p _ => p
  | .loadRp p => p
  | .loadWp p => p
  | .interrupted p => p
  | .signal p => p

/-- Where a step takes a process. The semaphore and the wake-up are left by `proceed` alone, but for
the return of a process that is interrupted as it waits for the semaphore. -/
inductive PcStep {P : Type*} (a : Act P) (r : P) : Pc → Pc → Prop
  | stays {c : Pc} : PcStep a r c c
  | enters {call : Call File} (ha : a = .enter r call) :
      PcStep a r .outside (.downInterruptible call)
  | goesOn {c c' : Pc} {call : Call File} (ha : a.process = r) (hc : c.call? = some call)
      (hc' : c'.call? = some call) (hw : c.isWakeUp = false)
      (hd : c.isDown = false ∨ ∃ fault, a = .proceed r fault)
      (hu : c'.isWakeUp = false ∨ c.isDown = true) : PcStep a r c c'
  | returns {c : Pc} (ha : a.process = r)
      (hw : c.isWakeUp = false ∨ ∃ fault, a = .proceed r fault) : PcStep a r c .outside

namespace Sys

variable {P : Type*} [DecidableEq P] {s t : Sys P} {p r : P} {a : Act P} {n : ℕ}

theorem pcStep_goto {u : Sys P} {c : Pc} (hu : u.pc = s.pc) (h : PcStep a p (s.pc p) c) (r : P) :
    PcStep a r (s.pc r) ((u.goto p c).pc r) := by
  by_cases hr : r = p
  · rw [hr, goto_pc_self]
    exact h
  · rw [goto_pc_of_ne _ _ hr, hu]
    exact .stays

theorem pcStep_goesOn {u : Sys P} {c c' : Pc} (hu : u.pc = s.pc) (ha : a.process = p)
    (hp : s.pc p = c) (hc : c.call? = some call) (hc' : c'.call? = some call)
    (hw : c.isWakeUp = false) (hd : c.isDown = false ∨ ∃ fault, a = .proceed p fault)
    (hup : c'.isWakeUp = false ∨ c.isDown = true) (r : P) :
    PcStep a r (s.pc r) ((u.goto p c').pc r) := by
  refine pcStep_goto hu ?_ r
  rw [hp]
  exact .goesOn ha hc hc' hw hd hup

theorem pcStep_returns {u : Sys P} (hu : u.pc = s.pc) (ha : a.process = p)
    (hw : (s.pc p).isWakeUp = false ∨ ∃ fault, a = .proceed p fault) (r : P) :
    PcStep a r (s.pc r) ((u.goto p .outside).pc r) :=
  pcStep_goto hu (.returns ha hw) r

theorem locked_pcStep (hp : s.pc p = .downInterruptible call)
    (h : s.locked p call fault = .ok t) (r : P) :
    PcStep (.proceed p fault) r (s.pc r) (t.pc r) := by
  have hproceed : ∃ fault', Act.proceed p fault = .proceed p fault' := ⟨fault, rfl⟩
  unfold locked at h
  split at h
  · cases h
  · cases h
    exact pcStep_goesOn rfl rfl hp rfl rfl rfl (.inr hproceed) (.inr rfl) r
  · cases h
    exact pcStep_returns rfl rfl (.inr hproceed) r
  · split_ifs at h
    · cases h
      exact pcStep_returns rfl rfl (.inr hproceed) r
    · cases call with
      | read f count =>
        cases h
        exact pcStep_goesOn rfl rfl hp rfl rfl rfl (.inr hproceed) (.inl rfl) r
      | write f buf =>
        cases h
        exact pcStep_goesOn rfl rfl hp rfl rfl rfl (.inr hproceed) (.inl rfl) r

theorem proceed_pcStep (h : s.proceed p fault = .ok t) (r : P) :
    PcStep (.proceed p fault) r (s.pc r) (t.pc r) := by
  have hproceed : ∃ fault', Act.proceed p fault = .proceed p fault' := ⟨fault, rfl⟩
  unfold proceed at h
  split at h
  case h_1 => cases h
  case h_2 call hp => exact locked_pcStep hp h r
  case h_3 call _ _ hp =>
    split at h <;> cases h
    · exact pcStep_goesOn rfl rfl hp rfl rfl rfl (.inr hproceed) (.inl rfl) r
    · exact pcStep_goesOn rfl rfl hp rfl rfl rfl (.inr hproceed) (.inl rfl) r
  case h_4 => cases h
  case h_5 call hp =>
    cases h
    exact pcStep_goesOn rfl rfl hp rfl rfl rfl (.inr hproceed) (.inl rfl) r
  case h_6 call _ _ hp =>
    split at h
    · cases h
    next b _ =>
      cases h
      cases b with
      | true => exact pcStep_goesOn rfl rfl hp rfl rfl rfl (.inr hproceed) (.inl rfl) r
      | false =>
        cases call with
        | read f count =>
          rw [checked]
          split_ifs
          · exact pcStep_goesOn rfl rfl hp rfl rfl rfl (.inr hproceed) (.inl rfl) r
          · exact pcStep_goesOn rfl rfl hp rfl rfl rfl (.inr hproceed) (.inl rfl) r
        | write f buf => exact pcStep_goesOn rfl rfl hp rfl rfl rfl (.inr hproceed) (.inl rfl) r
  case h_7 => cases h
  case h_8 call hp =>
    split_ifs at h
    cases h
    cases call with
    | read f count => exact pcStep_goesOn rfl rfl hp rfl rfl rfl (.inr hproceed) (.inl rfl) r
    | write f buf => exact pcStep_goesOn rfl rfl hp rfl rfl rfl (.inr hproceed) (.inl rfl) r
  case h_9 call interrupted hp =>
    cases h
    unfold leave
    dsimp only
    split_ifs
    · exact pcStep_returns rfl rfl (.inr hproceed) r
    · exact pcStep_goesOn rfl rfl hp rfl rfl rfl (.inr hproceed) (.inl rfl) r
  case h_10 call hp =>
    cases h
    exact pcStep_returns rfl rfl (.inr hproceed) r

theorem step_pcStep (h : s.step a = .ok t) (r : P) : PcStep a r (s.pc r) (t.pc r) := by
  cases a with
  | enter p call =>
    rw [step] at h
    split_ifs at h with hok
    cases h
    refine pcStep_goto rfl ?_ r
    rw [hok.1]
    exact .enters rfl
  | proceed p fault => exact proceed_pcStep h r
  | loadRp p =>
    rw [step] at h
    split at h
    case h_1 hp =>
      cases h
      exact pcStep_goesOn rfl rfl hp rfl rfl rfl (.inl rfl) (.inl rfl) r
    case h_2 hp =>
      cases h
      exact pcStep_goesOn rfl rfl hp rfl rfl rfl (.inl rfl) (.inl rfl) r
    case h_3 => cases h
  | loadWp p =>
    rw [step] at h
    split at h
    case h_1 hp =>
      cases h
      exact pcStep_goesOn rfl rfl hp rfl rfl rfl (.inl rfl) (.inl rfl) r
    case h_2 hp =>
      cases h
      exact pcStep_goesOn rfl rfl hp rfl rfl rfl (.inl rfl) (.inl rfl) r
    case h_3 => cases h
  | interrupted p =>
    rw [step] at h
    split at h
    case h_1 hp =>
      split_ifs at h
      cases h
      exact pcStep_returns rfl rfl (.inl (by rw [Act.process, hp]; rfl)) r
    case h_2 => cases h
  | signal p =>
    cases h
    exact .stays

theorem step_pc_of_ne (h : s.step a = .ok t) (hr : r ≠ a.process) : t.pc r = s.pc r := by
  have hstep := step_pcStep h r
  generalize s.pc r = c, t.pc r = c' at hstep ⊢
  cases hstep with
  | stays => rfl
  | enters ha => exact absurd (ha ▸ rfl) hr
  | goesOn ha => exact absurd ha.symm hr
  | returns ha => exact absurd ha.symm hr

/-- The step runs through a wait queue. -/
def wakesUp (s : Sys P) : Act P → Bool
  | .proceed p _ => (s.pc p).isWakeUp
  | _ => false

/-- Only the wake-up itself takes the wake-up to come away. -/
theorem Pending.step (hq : s.Pending q) (hw : s.wakesUp a = false) (h : s.step a = .ok t) :
    t.Pending q := by
  obtain ⟨r, c, hr, hc⟩ := hq
  refine ⟨r, c, ?_, hc⟩
  have hstep := step_pcStep h r
  rw [hr] at hstep
  generalize t.pc r = c' at hstep ⊢
  cases hstep with
  | stays => rfl
  | goesOn _ _ _ hgo => cases hgo
  | returns _ hproceed =>
    rcases hproceed with hwake | ⟨fault, rfl⟩
    · cases hwake
    · rw [wakesUp, hr] at hw
      cases hw

/-- A section finds nothing to do, leaves the pointers or is a transfer with a wake-up to come. -/
inductive LockedEffect (s : Sys P) (p : P) (call : Call File) (t : Sys P) : Prop
  | waits (hready : ready s.dev call = some false) (hdev : t.dev = s.dev)
      (hpc : (t.pc p).isWakeUp = false) : LockedEffect s p call t
  | efault (hdev : SameRing s.dev t.dev) (hpc : t.pc p = .outside) : LockedEffect s p call t
  | done (hready : ready s.dev call = some true) (hk : Kept call s.dev t.dev)
      (hpc : t.pc p = .wakeUp call) : LockedEffect s p call t

theorem locked_effect (h : s.locked p call fault = .ok t) : LockedEffect s p call t := by
  unfold locked at h
  cases hrun : call.runSection s.dev fault with
  | none =>
    rw [hrun] at h
    cases h
  | some o =>
    obtain ⟨out, dev⟩ := o
    rw [hrun] at h
    cases section_of_run hrun with
    | wait hready =>
      have hgoto (c : Pc) (hc : c.isWakeUp = false) : LockedEffect s p call (s.goto p c) :=
        .waits hready rfl (by rwa [goto_pc_self])
      dsimp only at h
      split_ifs at h
      · cases h
        exact hgoto _ rfl
      · cases call with
        | read f count =>
          cases h
          exact hgoto _ rfl
        | write f buf =>
          cases h
          exact hgoto _ rfl
    | efault hd =>
      cases h
      exact .efault hd (goto_pc_self ..)
    | done hready hk =>
      cases h
      exact .done hready hk (goto_pc_self ..)

/-- A step of the device is a section of the process that takes it. -/
theorem step_section (h : s.step a = .ok t) :
    t.dev = s.dev ∨ ∃ call fault, s.pc a.process = .downInterruptible call ∧
      s.locked a.process call fault = .ok t := by
  by_cases ha : ∃ p fault, a = .proceed p fault
  · obtain ⟨p, fault, rfl⟩ := ha
    by_cases hp : ∃ call, s.pc p = .downInterruptible call
    · right
      obtain ⟨call, hp⟩ := hp
      refine ⟨call, fault, hp, ?_⟩
      show s.locked p call fault = .ok t
      simpa only [step, proceed, hp] using h
    · exact .inl (proceed_dev (not_exists.mp hp) h)
  · exact .inl (step_dev (fun p fault he => ha ⟨p, fault, he⟩) h)

/-- A wake-up is to come for the queue, or who waits on it has nothing to do. -/
def Awaited (s : Sys P) (q : WaitQueue) : Prop := s.Pending q ∨ Unready s.dev q

theorem Awaited.step (hq : s.Awaited q) (hw : s.wakesUp a = false) (h : s.step a = .ok t) :
    t.Awaited q := by
  refine hq.elim (fun hp => .inl (hp.step hw h)) fun hu => ?_
  rcases step_section h with hdev | ⟨call, fault, hp, hlocked⟩
  · right
    rwa [hdev]
  · cases locked_effect hlocked with
    | waits _ hdev =>
      right
      rwa [hdev]
    | efault hring => exact .inr ((unready_congr hring).mpr hu)
    | done hready _ hpc =>
      left
      refine ⟨_, call, hpc, ?_⟩
      by_cases hside : waitsOn call = q
      · rw [← hside, unready_iff, hready] at hu
        cases hu
      · cases call <;> cases q <;> first | rfl | exact absurd rfl hside

/-- What there is for the calls of one side stays until one of them has had its section. -/
theorem step_ready (hs : s.Sound n) (hmax : n ≤ 1073741824) (h : s.step a = .ok t)
    (hq : ¬Unready s.dev q) :
    ¬Unready t.dev q ∨ ∃ call, s.pc a.process = .downInterruptible call ∧ waitsOn call = q ∧
      (t.pc a.process = .outside ∨ t.pc a.process = .wakeUp call) := by
  rcases step_section h with hdev | ⟨call, fault, hp, hlocked⟩
  · left
    rwa [hdev]
  · by_cases hside : waitsOn call = q
    · right
      refine ⟨call, hp, hside, ?_⟩
      cases locked_effect hlocked with
      | waits hwait =>
        rw [← unready_iff, hside] at hwait
        exact absurd hwait hq
      | efault _ hpc => exact .inl hpc
      | done _ _ hpc => exact .inr hpc
    · left
      obtain ⟨mem, hmem, rfl⟩ := hs
      obtain ⟨out, hrun⟩ := locked_dev hlocked
      exact ready_of_section hmem hmax hrun hside hq

/-- Nothing has happened to a process. -/
structure Frame (s t : Sys P) (r : P) : Prop where
  pc : t.pc r = s.pc r
  queued : t.queued r = s.queued r
  interruptible : t.interruptible r = s.interruptible r
  signalPending : t.signalPending r = s.signalPending r

omit [DecidableEq P] in
theorem Frame.refl (s : Sys P) (r : P) : Frame s s r := ⟨rfl, rfl, rfl, rfl⟩

omit [DecidableEq P] in
theorem frame_withDev (s : Sys P) (r : P) (dev : ScullPipe) : Frame s { s with dev } r :=
  ⟨rfl, rfl, rfl, rfl⟩

theorem Frame.goto {u : Sys P} (hu : Frame s u r) (hr : r ≠ p) (c : Pc) : Frame s (u.goto p c) r :=
  ⟨(goto_pc_of_ne u c hr).trans hu.pc, hu.queued, hu.interruptible, hu.signalPending⟩

theorem locked_frame (h : s.locked p call fault = .ok t) (hr : r ≠ p) : Frame s t r := by
  have hgoto (dev : ScullPipe) (c : Pc) : Frame s ({ s with dev }.goto p c) r :=
    (frame_withDev s r dev).goto hr c
  unfold locked at h
  split at h
  · cases h
  · cases h
    exact hgoto _ _
  · cases h
    exact hgoto _ _
  · split_ifs at h
    · cases h
      exact hgoto _ _
    · cases call <;> cases h <;> exact hgoto _ _

theorem proceed_frame (h : s.proceed p fault = .ok t) (hr : r ≠ p)
    (hw : (s.pc p).isWakeUp = false) : Frame s t r := by
  have hgoto (c : Pc) : Frame s (s.goto p c) r := (Frame.refl s r).goto hr c
  have hself {α : Type} (f : P → α) (x : α) : Function.update f p x r = f r :=
    Function.update_of_ne hr ..
  unfold proceed at h
  split at h
  case h_1 => cases h
  case h_2 => exact locked_frame h hr
  case h_3 =>
    split at h <;> cases h
    · exact hgoto _
    · exact hgoto _
  case h_4 => cases h
  case h_5 call _ =>
    cases h
    have hprepare : Frame s (s.prepareToWait p (waitsOn call)) r := ⟨rfl, hself .., hself .., rfl⟩
    exact hprepare.goto hr _
  case h_6 call _ _ _ =>
    split at h
    · cases h
    next b _ =>
      cases h
      cases b with
      | true => exact hgoto _
      | false =>
        cases call with
        | read f count =>
          rw [checked]
          split_ifs
          · exact hgoto _
          · exact hgoto _
        | write f buf => exact hgoto _
  case h_7 => cases h
  case h_8 call _ =>
    split_ifs at h
    cases h
    have hrunning : Frame s (s.running p) r := ⟨rfl, rfl, hself .., rfl⟩
    cases call with
    | read f count => exact hrunning.goto hr _
    | write f buf => exact hrunning.goto hr _
  case h_9 =>
    cases h
    have hfinish : Frame s (s.finishWait p) r := ⟨rfl, hself .., hself .., rfl⟩
    exact hfinish.goto hr _
  case h_10 call hp =>
    rw [hp] at hw
    cases hw

theorem step_frame (h : s.step a = .ok t) (hr : r ≠ a.process) (hw : s.wakesUp a = false) :
    Frame s t r := by
  have hgoto {p : P} (hr : r ≠ p) (c : Pc) : Frame s (s.goto p c) r := (Frame.refl s r).goto hr c
  cases a with
  | enter p call =>
    rw [step] at h
    split_ifs at h
    cases h
    have hclear : Frame s { s with signalPending := Function.update s.signalPending p false } r :=
      ⟨rfl, rfl, rfl, Function.update_of_ne hr ..⟩
    exact hclear.goto hr _
  | proceed p fault => exact proceed_frame h hr hw
  | loadRp p =>
    rw [step] at h
    split at h <;> cases h
    · exact hgoto hr _
    · exact hgoto hr _
  | loadWp p =>
    rw [step] at h
    split at h <;> cases h
    · exact hgoto hr _
    · exact hgoto hr _
  | interrupted p =>
    rw [step] at h
    split at h
    · split_ifs at h
      cases h
      exact hgoto hr _
    · cases h
  | signal p =>
    cases h
    exact ⟨rfl, rfl, Function.update_of_ne hr .., Function.update_of_ne hr ..⟩

/-- Whom a wake-up leaves interruptible was not on the queue. -/
theorem step_frame_wakesUp (h : s.step a = .ok t) (hr : r ≠ a.process) (hw : s.wakesUp a = true)
    (hint : t.interruptible r = true) :
    Frame s t r ∧ t.dev = s.dev ∧
      ∃ call, s.pc a.process = .wakeUp call ∧ s.queued r ≠ some (wakes call) := by
  cases a with
  | proceed p fault =>
    cases hp : s.pc p with
    | wakeUp call =>
      simp only [step, proceed, hp] at h
      cases h
      have hwoken : ¬s.Woken (wakes call) r := by
        intro hwoken
        simp [goto, wakeUpInterruptible, hwoken] at hint
      have hints : s.interruptible r = true := by
        simpa [goto, wakeUpInterruptible, hwoken] using hint
      have hwake : Frame s (s.wakeUpInterruptible (wakes call)) r :=
        ⟨rfl, if_neg hwoken, if_neg hwoken, rfl⟩
      exact ⟨hwake.goto hr _, rfl, call, hp, fun hq => hwoken ⟨hq, hints⟩⟩
    | _ =>
      rw [wakesUp, hp] at hw
      cases hw
  | _ => cases hw

end Sys
end KernelExperiment.Pipe.Sleepers
