import KernelExperiment.Pipe.System

/-! The pipe as a first-in first-out queue of bytes: while nobody opens or releases a file, what the
writes accepted is what the reads returned followed by what is still queued. -/

namespace KernelExperiment.Pipe
open Kernel Runs

variable {P F : Type*}

def Act.isTransfer : Act P F → Bool
  | .enter .. | .transfer .. | .interrupted .. => true
  | _ => false

/-- A device with an empty buffer of `n` bytes, both pointers at its start, with nothing transferred
yet. -/
structure Ready (n : ℕ) (s : Sys P F) : Prop where
  block : ∃ mem, mem.length = n ∧ s.dev.Intact mem
  rp_eq : s.dev.rp = 0
  wp_eq : s.dev.wp = 0
  accepted_eq : s.accepted = []
  returned_eq : s.returned = []

structure Fifo (n : ℕ) (s : Sys P F) : Prop where
  block : ∃ mem, mem.length = n ∧ s.dev.Intact mem
  conserved : s.accepted = s.returned ++ s.dev.queue

theorem Ready.fifo {n : ℕ} {s : Sys P F} (h : Ready n s) : Fifo n s := by
  refine ⟨h.block, ?_⟩
  obtain ⟨mem, -, hmem⟩ := h.block
  have hqueue : s.dev.queue = [] := by
    rw [hmem.queue_eq, h.rp_eq, h.wp_eq, Ring.content_self]
  rw [h.accepted_eq, h.returned_eq, hqueue, List.append_nil]

theorem Fifo.length_queue_le {n : ℕ} {s : Sys P F} (h : Fifo n s) :
    s.dev.queue.length ≤ n - 1 := by
  obtain ⟨mem, rfl, hmem⟩ := h.block
  exact hmem.length_queue_le

variable [DecidableEq P]

theorem Fifo.transfer {n : ℕ} {s : Sys P F} (h : Fifo n s) (p : P) (call : Call F)
    (fault : Option ℕ) :
    ∃ out dev, call.runSection s.dev fault = some (out, dev) ∧
      Fifo n (s.finish p call out dev) := by
  obtain ⟨mem, hlen, hmem⟩ := h.block
  cases call with
  | read f count =>
    obtain ⟨out, dev, hrun, hdev, hqueue⟩ := hmem.read count fault
    refine ⟨out, dev, hrun, ⟨mem, hlen, hdev⟩, ?_⟩
    show s.accepted ++ [] = s.returned ++ out.bytes ++ dev.queue
    rw [List.append_nil, h.conserved, hqueue, List.append_assoc]
  | write f buf =>
    obtain ⟨out, dev, mem', hrun, hdev, hlen', hqueue⟩ := hmem.write buf fault
    refine ⟨out, dev, hrun, ⟨mem', hlen'.trans hlen, hdev⟩, ?_⟩
    show s.accepted ++ out.bytes = s.returned ++ [] ++ dev.queue
    rw [List.append_nil, h.conserved, hqueue, List.append_assoc]

variable [DecidableEq F]

theorem Fifo.step [Fintype P] {n : ℕ} {s t : Sys P F} {a : Act P F} (h : Fifo n s)
    (ha : a.isTransfer) (hs : step s a = .ok t) : Fifo n t := by
  cases step_move hs with
  | tell => cases ha
  | openInterrupted => cases ha
  | openFails => cases ha
  | opened => cases ha
  | released => cases ha
  | entered => exact ⟨h.block, h.conserved⟩
  | @transferred p fault call out dev hp hrun =>
    obtain ⟨out', dev', hrun', hfifo⟩ := h.transfer p call fault
    rw [hrun, Option.some.injEq, Prod.mk.injEq] at hrun'
    rw [hrun'.1, hrun'.2]
    exact hfifo
  | gaveUp => exact ⟨h.block, h.conserved⟩

theorem Fifo.step_ne_fault [Fintype P] {n : ℕ} {s : Sys P F} {a : Act P F} (h : Fifo n s) :
    Pipe.step s a ≠ .fault := by
  intro hfault
  obtain ⟨p, fault, call, -, -, hrun⟩ := step_fault hfault
  obtain ⟨out, dev, hrun', -⟩ := h.transfer p call fault
  cases hrun.symm.trans hrun'

/-- Nothing is lost, duplicated or reordered between the writers and the readers, no copy leaves the
buffer, and at most `n - 1` bytes are queued. -/
theorem fifo_of_ready [Fintype P] {n : ℕ} {s : Sys P F} (h : Ready n s) (as : List (Act P F))
    (has : ∀ a ∈ as, a.isTransfer) :
    exec step s as ≠ .fault ∧
      Always step (fun s => s.accepted = s.returned ++ s.dev.queue ∧ s.dev.queue.length ≤ n - 1)
        s as := by
  have hm : Meets step (fun _ a => a.isTransfer) s as := Meets.of_forall fun _ => has
  have hstep : ∀ (s : Sys P F) a t, Fifo n s → a.isTransfer → step s a = .ok t → Fifo n t :=
    fun _ _ _ => Fifo.step
  exact ⟨meets_no_fault hstep (fun _ _ hf _ => hf.step_ne_fault) h.fifo hm,
    meets_always hstep (fun _ hf => ⟨hf.conserved, hf.length_queue_le⟩) h.fifo hm⟩

def threeBytes : Sys Bool Bool :=
  { scullPBuffer := 3
    dev := { buffer := some [0, 0, 0], bufferEnd := 3, buffersize := 3, rp := 0, wp := 0,
             nreaders := 1, nwriters := 1 }
    files := fun f => if f then some ⟨false, true, true⟩ else some ⟨true, false, false⟩
    calls := fun _ => none
    accepted := []
    returned := [] }

theorem fifo_threeBytes :
    let as := [.enter true (.write true [7, 8, 9]), .transfer true none,
      .enter false (.read false 1), .transfer false none, .enter true (.write true [9, 10]),
      .transfer true none, .enter false (.read false 5), .transfer false none]
    exec step threeBytes as ≠ .fault ∧
      Always step (fun s => s.accepted = s.returned ++ s.dev.queue ∧ s.dev.queue.length ≤ 3 - 1)
        threeBytes as :=
  fifo_of_ready ⟨⟨[0, 0, 0], rfl, rfl, by decide, rfl, by decide, by decide⟩, rfl, rfl, rfl, rfl⟩ _
    (by decide)

end KernelExperiment.Pipe
