import KernelExperiment.Pipe.Streams

/-! Blocking reads and writes are transfers at one blow. The loads, the moves on and off a queue, the
sleeps and the wake-ups of a run leave a run of the plain device, with the same sections in the same
order. -/

namespace KernelExperiment.Pipe.Sleepers

open Kernel Runs Queue

/-- The call that still has its transfer to do. -/
def Pc.toDo : Pc → Option (Call File)
  | .outside => none
  | .downInterruptible call => some call
  | .waitEvent call _ _ => some call
  | .prepareToWait call => some call
  | .check call _ _ => some call
  | .schedule call => some call
  | .finishWait call _ => some call
  | .wakeUp _ => none

namespace Sys

variable {P : Type*}

/-- The process gives up as it leaves the queue. -/
def gaveUp (s : Sys P) (p : P) : Call File → Bool → Bool
  | .read .., interrupted => interrupted
  | .write .., _ => s.signalPending p

/-- What the plain device sees of a step. -/
def plainActs (s : Sys P) : Act P → List (Pipe.Act P File)
  | .enter p call => [.enter p call]
  | .proceed p fault =>
    match s.pc p with
    | .downInterruptible _ => [.transfer p fault]
    | .finishWait call interrupted => if s.gaveUp p call interrupted then [.interrupted p] else []
    | _ => []
  | .interrupted p => [.interrupted p]
  | _ => []

/-- The plain device with a file for each way to open one. -/
def plain (dev : ScullPipe) : Pipe.Sys P File :=
  { scullPBuffer := dev.buffersize, dev, files := some, calls := fun _ => none, accepted := [],
    returned := [] }

/-- The plain device is in the same state, and has passed on the bytes of the operations. -/
structure Plainly (os : List (Op Byte)) (s : Sys P) (x : Pipe.Sys P File) : Prop where
  dev : x.dev = s.dev
  files : x.files = some
  calls : ∀ p, x.calls p = (s.pc p).toDo
  accepted : x.accepted = puts os
  returned : x.returned = takes os

variable [DecidableEq P] [Fintype P] {s t : Sys P} {p : P} {a : Act P} {os : List (Op Byte)}
  {x : Pipe.Sys P File} {call : Call File} {fault : Option ℕ} {dev : ScullPipe}

omit [Fintype P] in
/-- A step that the plain device does not see. -/
theorem Plainly.goto (h : Plainly os s x) (u : Sys P) (hdev : u.dev = s.dev) (hu : u.pc = s.pc)
    {c : Pc} (hc : c.toDo = (s.pc p).toDo) : Plainly os (u.goto p c) x := by
  refine ⟨h.dev.trans hdev.symm, h.files, fun r => ?_, h.accepted, h.returned⟩
  by_cases hr : r = p
  · rw [hr, goto_pc_self, hc, h.calls]
  · rw [goto_pc_of_ne _ _ hr, hu, h.calls]

theorem Plainly.gaveUp (h : Plainly os s x) (u : Sys P) (hdev : u.dev = s.dev) (hu : u.pc = s.pc)
    (hp : (s.pc p).toDo ≠ none) :
    ∃ y, exec Pipe.step x [.interrupted p] = .ok y ∧ Plainly os (u.goto p .outside) y := by
  refine ⟨{ x with calls := Function.update x.calls p none }, ?_, ?_⟩
  · rw [← h.calls] at hp
    simp only [exec, Pipe.step, if_neg hp]
  · refine ⟨h.dev.trans hdev.symm, h.files, fun r => ?_, h.accepted, h.returned⟩
    by_cases hr : r = p
    · rw [hr, goto_pc_self]
      exact Function.update_self ..
    · rw [goto_pc_of_ne _ _ hr, hu]
      exact (Function.update_of_ne hr ..).trans (h.calls r)

omit [DecidableEq P] [Fintype P] in
theorem puts_ops (call : Call File) (out : Transfer) : puts (call.ops out) = call.accepts out := by
  cases call <;> cases out <;> simp [Call.ops, Call.accepts, puts, Transfer.bytes]

omit [DecidableEq P] [Fintype P] in
theorem takes_ops (call : Call File) (out : Transfer) : takes (call.ops out) = call.returns out := by
  cases call <;> cases out <;> simp [Call.ops, Call.returns, takes, Transfer.bytes]

omit [Fintype P] in
/-- The end of a section, with what is still to do for the call. -/
theorem Plainly.finish (h : Plainly os s x) {out : Transfer} {c : Pc}
    (hc : c.toDo = if x.waits call out then some call else none)
    (hp : (s.pc p).toDo = some call) :
    Plainly (os ++ call.ops out) ({ s with dev }.goto p c) (x.finish p call out dev) := by
  refine ⟨rfl, h.files, fun r => ?_, ?_, ?_⟩
  · rw [Pipe.Sys.finish]
    by_cases hr : r = p
    · rw [hr, goto_pc_self, hc]
      split_ifs
      · rw [h.calls, hp]
      · exact Function.update_self ..
    · rw [goto_pc_of_ne _ _ hr]
      split_ifs
      · exact h.calls r
      · exact (Function.update_of_ne hr ..).trans (h.calls r)
  · rw [puts_append, puts_ops, ← h.accepted]
    rfl
  · rw [takes_append, takes_ops, ← h.returned]
    rfl

theorem Plainly.locked (h : Plainly os s x) (hp : s.pc p = .downInterruptible call)
    (hs : s.locked p call fault = .ok t) :
    ∃ y, exec Pipe.step x [.transfer p fault] = .ok y ∧
      Plainly (os ++ s.ops (.proceed p fault)) t y := by
  have htodo : (s.pc p).toDo = some call := by rw [hp]; rfl
  have hfiles : x.files call.file = some call.file := by rw [h.files]
  unfold Sys.locked at hs
  cases hrun : call.runSection s.dev fault with
  | none =>
    rw [hrun] at hs
    cases hs
  | some o =>
    obtain ⟨out, dev⟩ := o
    rw [hrun] at hs
    rw [ops_section hp hrun]
    refine ⟨x.finish p call out dev, ?_, ?_⟩
    · have hcall : x.calls p = some call := (h.calls p).trans htodo
      simp only [exec, Pipe.step, hcall, h.dev, hrun]
    · cases out with
      | done bytes =>
        cases hs
        exact h.finish (if_neg (by simp [Pipe.Sys.waits])).symm htodo
      | efault =>
        cases hs
        exact h.finish (if_neg (by simp [Pipe.Sys.waits])).symm htodo
      | wait =>
        dsimp only at hs
        split_ifs at hs with hblock
        · cases hs
          exact h.finish (if_neg (by simp [Pipe.Sys.waits, hfiles, hblock])).symm htodo
        · have hwaits : x.waits call .wait := ⟨rfl, by simpa [hfiles] using hblock⟩
          cases call with
          | read f count =>
            cases hs
            exact h.finish (if_pos hwaits).symm htodo
          | write f buf =>
            cases hs
            exact h.finish (if_pos hwaits).symm htodo

/-- Nothing for the plain device to do. -/
theorem plainly_nil {t : Sys P} (h : Plainly os t x) (hops : s.ops a = []) (hacts : s.plainActs a = []) :
    ∃ y, exec Pipe.step x (s.plainActs a) = .ok y ∧ Plainly (os ++ s.ops a) t y := by
  refine ⟨x, by rw [hacts]; rfl, ?_⟩
  rwa [hops, List.append_nil]

theorem Plainly.proceed (h : Plainly os s x) (hs : s.proceed p fault = .ok t) :
    ∃ y, exec Pipe.step x (s.plainActs (.proceed p fault)) = .ok y ∧
      Plainly (os ++ s.ops (.proceed p fault)) t y := by
  unfold Sys.proceed at hs
  split at hs
  case h_1 => cases hs
  case h_2 call hp =>
    simp only [plainActs, hp]
    exact h.locked hp hs
  case h_3 call r w hp =>
    have hto {c : Pc} (hc : c.toDo = some call) : Plainly os (s.goto p c) x :=
      h.goto s rfl rfl (by rw [hc, hp]; rfl)
    split at hs <;> cases hs
    · exact plainly_nil (hto rfl) (by simp only [ops, hp]) (by simp only [plainActs, hp])
    · exact plainly_nil (hto rfl) (by simp only [ops, hp]) (by simp only [plainActs, hp])
  case h_4 => cases hs
  case h_5 call hp =>
    cases hs
    have hstill : Plainly os ((s.prepareToWait p (waitsOn call)).goto p (.check call none none)) x :=
      h.goto (s.prepareToWait p (waitsOn call)) rfl rfl (by rw [hp]; rfl)
    exact plainly_nil hstill (by simp only [ops, hp]) (by simp only [plainActs, hp])
  case h_6 call r w hp =>
    split at hs
    · cases hs
    next b _ =>
      cases hs
      have hto {c : Pc} (hc : c.toDo = some call) : Plainly os (s.goto p c) x :=
        h.goto s rfl rfl (by rw [hc, hp]; rfl)
      refine plainly_nil ?_ (by simp only [ops, hp]) (by simp only [plainActs, hp])
      cases b with
      | true => exact hto rfl
      | false =>
        cases call with
        | read f count =>
          rw [checked]
          split_ifs
          · exact hto rfl
          · exact hto rfl
        | write f buf => exact hto rfl
  case h_7 => cases hs
  case h_8 call hp =>
    split_ifs at hs
    cases hs
    refine plainly_nil ?_ (by simp only [ops, hp]) (by simp only [plainActs, hp])
    cases call with
    | read f count => exact h.goto (s.running p) rfl rfl (by rw [hp]; rfl)
    | write f buf => exact h.goto (s.running p) rfl rfl (by rw [hp]; rfl)
  case h_9 call interrupted hp =>
    cases hs
    have hleave : s.leave p call interrupted = (s.finishWait p).goto p
        (if s.gaveUp p call interrupted then .outside else .downInterruptible call) := by
      cases call <;> rfl
    have hops : s.ops (.proceed p fault) = [] := by simp only [ops, hp]
    rw [hleave, hops, List.append_nil]
    simp only [plainActs, hp]
    split_ifs
    · exact h.gaveUp (s.finishWait p) rfl rfl (by rw [hp]; exact Option.some_ne_none call)
    · exact ⟨x, rfl, h.goto (s.finishWait p) rfl rfl (by rw [hp]; rfl)⟩
  case h_10 call hp =>
    cases hs
    have hstill : Plainly os ((s.wakeUpInterruptible (wakes call)).goto p .outside) x :=
      h.goto (s.wakeUpInterruptible (wakes call)) rfl rfl (by rw [hp]; rfl)
    exact plainly_nil hstill (by simp only [ops, hp]) (by simp only [plainActs, hp])

theorem Plainly.enter (h : Plainly os s x) (hp : s.pc p = .outside)
    (hcall : call.permitted call.file = true) :
    ∃ y, exec Pipe.step x [.enter p call] = .ok y ∧
      Plainly os ({ s with signalPending := Function.update s.signalPending p false }.goto p
        (.downInterruptible call)) y := by
  have hnone : x.calls p = none := by rw [h.calls, hp]; rfl
  have hfile : (x.files call.file).any call.permitted = true := by rwa [h.files]
  refine ⟨{ x with calls := Function.update x.calls p (some call) }, ?_, ?_⟩
  · simp only [exec, Pipe.step, if_pos (And.intro hnone hfile)]
  · refine ⟨h.dev, h.files, fun r => ?_, h.accepted, h.returned⟩
    by_cases hr : r = p
    · rw [hr, goto_pc_self]
      exact Function.update_self ..
    · rw [goto_pc_of_ne _ _ hr]
      exact (Function.update_of_ne hr ..).trans (h.calls r)

theorem Plainly.step (h : Plainly os s x) (hs : s.step a = .ok t) :
    ∃ y, exec Pipe.step x (s.plainActs a) = .ok y ∧ Plainly (os ++ s.ops a) t y := by
  cases a with
  | enter p call =>
    rw [Sys.step] at hs
    split_ifs at hs with hok
    cases hs
    rw [show s.ops (.enter p call) = [] from rfl, List.append_nil]
    exact h.enter hok.1 hok.2
  | proceed p fault => exact h.proceed hs
  | loadRp p =>
    rw [Sys.step] at hs
    split at hs
    case h_1 hp =>
      cases hs
      exact plainly_nil (h.goto s rfl rfl (by rw [hp]; rfl)) rfl rfl
    case h_2 hp =>
      cases hs
      exact plainly_nil (h.goto s rfl rfl (by rw [hp]; rfl)) rfl rfl
    case h_3 => cases hs
  | loadWp p =>
    rw [Sys.step] at hs
    split at hs
    case h_1 hp =>
      cases hs
      exact plainly_nil (h.goto s rfl rfl (by rw [hp]; rfl)) rfl rfl
    case h_2 hp =>
      cases hs
      exact plainly_nil (h.goto s rfl rfl (by rw [hp]; rfl)) rfl rfl
    case h_3 => cases hs
  | interrupted p =>
    rw [Sys.step] at hs
    split at hs
    case h_1 call hp =>
      split_ifs at hs
      cases hs
      rw [show s.ops (.interrupted p) = [] from rfl, List.append_nil]
      exact h.gaveUp s rfl rfl (by rw [hp]; exact Option.some_ne_none call)
    case h_2 => cases hs
  | signal p =>
    cases hs
    exact plainly_nil ⟨h.dev, h.files, h.calls, h.accepted, h.returned⟩ rfl rfl

/-- A run of blocking readers and writers, with its unlocked checks, sleeps and wake-ups, is a run of
the plain device, where a call waits by trying again: the same sections in the same order, the
same bytes handed over and the same calls left. -/
theorem plain_run {acts : List (Act P)} (he : exec step (idle dev) acts = .ok s) :
    ∃ x, exec Pipe.step (plain dev) (trace step plainActs (idle dev) acts) = .ok x ∧
      Plainly (trace step ops (idle dev) acts) s x := by
  have h0 : Plainly [] (idle dev : Sys P) (plain dev) := ⟨rfl, rfl, fun _ => rfl, rfl, rfl⟩
  exact exec_simulates (J := Plainly) (fun _ _ _ _ _ h hs => h.step hs) h0 he

theorem plain_run_oneByte : ∃ (s : Sys Bool) (x : Pipe.Sys Bool File),
    exec step (idle oneByte) oneByteRun = .ok s ∧
      exec Pipe.step (plain oneByte) (trace step plainActs (idle oneByte) oneByteRun) = .ok x ∧
      x.dev = s.dev ∧ x.calls false = some writeTwo := by
  have he : exec step (idle oneByte) oneByteRun = .ok _ := rfl
  obtain ⟨x, hx, h⟩ := plain_run he
  exact ⟨_, x, he, hx, h.dev, h.calls false⟩

end Sys
end KernelExperiment.Pipe.Sleepers
