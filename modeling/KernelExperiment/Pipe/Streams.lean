import KernelExperiment.Lib.Queue
import KernelExperiment.Pipe.Sleepers

/-! What blocking readers and writers hand over, however their loads, sleeps and wake-ups interleave:
the device serves them as a queue with room for one byte less than its buffer has. -/

namespace KernelExperiment.Pipe

open Kernel Queue

variable {F : Type*} {dev dev' : ScullPipe} {mem : List Byte} {out : Transfer} {fault : Option ℕ}

def Call.ops : Call F → Transfer → List (Op Byte)
  | .read .., .done bytes => [.take bytes]
  | .write .., .done bytes => [.put bytes]
  | _, _ => []

/-- A section takes from the front of an intact pipe or puts to its back, where there is room. -/
theorem runSection_serves {call : Call F} (h : dev.Intact mem)
    (hrun : call.runSection dev fault = some (out, dev')) :
    (∃ mem', dev'.Intact mem' ∧ mem'.length = mem.length) ∧
      Serves (mem.length - 1) dev.queue (call.ops out) dev'.queue := by
  cases call with
  | read f count =>
    obtain ⟨out', dev'', hread, hdev, hqueue⟩ := h.read count fault
    rw [Call.runSection, hread, Option.some.injEq, Prod.mk.injEq] at hrun
    obtain ⟨rfl, rfl⟩ := hrun
    refine ⟨⟨mem, hdev, rfl⟩, ?_⟩
    rw [hqueue]
    cases out' with
    | done bytes => exact .take bytes (.nil _)
    | wait => exact .nil _
    | efault => exact .nil _
  | write f buf =>
    obtain ⟨out', dev'', mem', hwrite, hdev, hlen, hqueue⟩ := h.write buf fault
    rw [Call.runSection, hwrite, Option.some.injEq, Prod.mk.injEq] at hrun
    obtain ⟨rfl, rfl⟩ := hrun
    refine ⟨⟨mem', hdev, hlen⟩, ?_⟩
    have hroom := hdev.length_queue_le
    rw [hlen, hqueue] at hroom
    rw [hqueue]
    cases out' with
    | done bytes => exact .put bytes hroom (.nil _)
    | wait =>
      show Serves _ dev.queue [] (dev.queue ++ [])
      rw [List.append_nil]
      exact .nil _
    | efault =>
      show Serves _ dev.queue [] (dev.queue ++ [])
      rw [List.append_nil]
      exact .nil _

theorem runSection_isSome (h : dev.Intact mem) (call : Call F) (fault : Option ℕ) :
    ∃ out dev', call.runSection dev fault = some (out, dev') := by
  cases call with
  | read f count =>
    obtain ⟨out, dev', hread, -⟩ := h.read count fault
    exact ⟨out, dev', hread⟩
  | write f buf =>
    obtain ⟨out, dev', -, hwrite, -⟩ := h.write buf fault
    exact ⟨out, dev', hwrite⟩

end KernelExperiment.Pipe

namespace KernelExperiment.Pipe.Sleepers

open Kernel Runs Queue

variable {dev : ScullPipe} {call : Call File} {fault : Option ℕ} {n : ℕ}

/-- A condition can be evaluated on whatever has been loaded of the pointers. -/
theorem ready_isSome {mem : List Byte} (h : dev.Intact mem) (rp wp : ℕ) (call : Call File) :
    ∃ b, ready { dev with rp, wp } call = some b := by
  have hzero : dev.buffersize ≠ 0 := by
    intro hz
    have hsize := h.size
    have hpos := h.length_pos
    rw [hz, Int32.toInt_zero] at hsize
    omega
  cases call with
  | read f count => exact ⟨_, rfl⟩
  | write f buf =>
    obtain ⟨space, hs⟩ : ∃ space, ({ dev with rp, wp } : ScullPipe).spacefree = some space := by
      unfold ScullPipe.spacefree
      rw [if_neg hzero]
      split_ifs <;> exact ⟨_, rfl⟩
    exact ⟨_, by rw [ready, hs, Option.map_some]⟩

namespace Sys

variable {P : Type*} [DecidableEq P] {s t : Sys P} {p : P} {a : Act P}

/-- The buffer keeps its size `n`. -/
def Sound (n : ℕ) (s : Sys P) : Prop := ∃ mem, s.dev.Intact mem ∧ mem.length = n

/-- What a step hands over. -/
def ops (s : Sys P) : Act P → List (Op Byte)
  | .proceed p fault =>
    match s.pc p with
    | .downInterruptible call =>
      match call.runSection s.dev fault with
      | some (out, _) => call.ops out
      | none => []
    | _ => []
  | _ => []

omit [DecidableEq P] in
theorem ops_section (hp : s.pc p = .downInterruptible call) {out : Transfer} {dev : ScullPipe}
    (hrun : call.runSection s.dev fault = some (out, dev)) :
    s.ops (.proceed p fault) = call.ops out := by
  simp only [ops, hp, hrun]

omit [DecidableEq P] in
theorem ops_eq_nil (hp : ∀ call, s.pc p ≠ .downInterruptible call) :
    s.ops (.proceed p fault) = [] := by
  cases hpc : s.pc p with
  | downInterruptible call => exact absurd hpc (hp call)
  | _ => simp only [ops, hpc]

theorem locked_dev (h : s.locked p call fault = .ok t) :
    ∃ out, call.runSection s.dev fault = some (out, t.dev) := by
  unfold locked at h
  cases hrun : call.runSection s.dev fault with
  | none =>
    rw [hrun] at h
    cases h
  | some r =>
    obtain ⟨out, dev⟩ := r
    rw [hrun] at h
    refine ⟨out, ?_⟩
    cases out with
    | wait =>
      dsimp only at h
      split_ifs at h
      · cases h
        rfl
      · cases call <;> cases h <;> rfl
    | efault =>
      cases h
      rfl
    | done bytes =>
      cases h
      rfl

/-- Outside the sections the device stays. -/
theorem proceed_dev (hp : ∀ call, s.pc p ≠ .downInterruptible call)
    (h : s.proceed p fault = .ok t) : t.dev = s.dev := by
  unfold proceed at h
  split at h
  case h_1 => cases h
  case h_2 call hpc => exact absurd hpc (hp call)
  case h_3 =>
    split at h <;> cases h <;> rfl
  case h_4 => cases h
  case h_5 =>
    cases h
    rfl
  case h_6 call r w hpc =>
    split at h
    · cases h
    next b _ =>
      cases h
      cases b with
      | true => rfl
      | false =>
        cases call with
        | read f count =>
          rw [checked]
          split_ifs <;> rfl
        | write f buf => rfl
  case h_7 => cases h
  case h_8 call hpc =>
    split_ifs at h
    cases h
    cases call <;> rfl
  case h_9 =>
    cases h
    rfl
  case h_10 =>
    cases h
    rfl

theorem step_dev (ha : ∀ p fault, a ≠ .proceed p fault) (h : s.step a = .ok t) :
    t.dev = s.dev := by
  cases a with
  | proceed p fault => exact absurd rfl (ha p fault)
  | enter p call =>
    rw [step] at h
    split_ifs at h
    cases h
    rfl
  | loadRp p =>
    rw [step] at h
    split at h <;> cases h <;> rfl
  | loadWp p =>
    rw [step] at h
    split at h <;> cases h <;> rfl
  | interrupted p =>
    rw [step] at h
    split at h
    · split_ifs at h
      cases h
      rfl
    · cases h
  | signal p =>
    cases h
    rfl

theorem Sound.proceed (hs : s.Sound n) (h : s.proceed p fault = .ok t) :
    t.Sound n ∧ Serves (n - 1) s.dev.queue (s.ops (.proceed p fault)) t.dev.queue := by
  by_cases hp : ∃ call, s.pc p = .downInterruptible call
  · obtain ⟨call, hp⟩ := hp
    have hlocked : s.locked p call fault = .ok t := by simpa only [Sys.proceed, hp] using h
    obtain ⟨out, hrun⟩ := locked_dev hlocked
    obtain ⟨mem, hdev, hn⟩ := hs
    obtain ⟨⟨mem', hdev', hlen⟩, hserves⟩ := runSection_serves hdev hrun
    rw [ops_section hp hrun, ← hn]
    exact ⟨⟨mem', hdev', hlen⟩, hserves⟩
  · have hp' : ∀ call, s.pc p ≠ .downInterruptible call := not_exists.mp hp
    have hdev := proceed_dev hp' h
    rw [ops_eq_nil hp', hdev]
    exact ⟨by rwa [Sound, hdev], .nil _⟩

theorem Sound.step (hs : s.Sound n) (h : s.step a = .ok t) :
    t.Sound n ∧ Serves (n - 1) s.dev.queue (s.ops a) t.dev.queue := by
  by_cases ha : ∃ p fault, a = .proceed p fault
  · obtain ⟨p, fault, rfl⟩ := ha
    exact hs.proceed h
  · have hdev : t.dev = s.dev := step_dev (fun p fault he => ha ⟨p, fault, he⟩) h
    have hops : s.ops a = [] := by
      cases a with
      | proceed p fault => exact absurd ⟨p, fault, rfl⟩ ha
      | _ => rfl
    rw [hops, hdev]
    exact ⟨by rwa [Sound, hdev], .nil _⟩

theorem Sound.proceed_ne_fault (hs : s.Sound n) (p : P) (fault : Option ℕ) :
    s.proceed p fault ≠ .fault := by
  obtain ⟨mem, hdev, -⟩ := hs
  intro h
  unfold Sys.proceed at h
  split at h
  case h_2 call hp =>
    obtain ⟨out, dev, hrun⟩ := runSection_isSome hdev call fault
    rw [locked, hrun] at h
    cases out with
    | wait =>
      dsimp only at h
      split_ifs at h
      cases call <;> cases h
    | efault => cases h
    | done bytes => cases h
  case h_3 call r w hp =>
    obtain ⟨b, hb⟩ := ready_isSome hdev r w call
    rw [hb] at h
    cases b <;> cases h
  case h_6 call r w hp =>
    obtain ⟨b, hb⟩ := ready_isSome hdev r w call
    rw [hb] at h
    cases h
  case h_8 => split_ifs at h
  all_goals cases h

theorem Sound.step_ne_fault (hs : s.Sound n) (a : Act P) : s.step a ≠ .fault := by
  intro h
  cases a with
  | proceed p fault => exact hs.proceed_ne_fault p fault h
  | enter p call =>
    rw [Sys.step] at h
    split_ifs at h
  | loadRp p =>
    rw [Sys.step] at h
    split at h <;> cases h
  | loadWp p =>
    rw [Sys.step] at h
    split at h <;> cases h
  | interrupted p =>
    rw [Sys.step] at h
    split at h
    · split_ifs at h
    · cases h
  | signal p => cases h

end Sys
end KernelExperiment.Pipe.Sleepers
