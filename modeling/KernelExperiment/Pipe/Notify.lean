import KernelExperiment.Lib.Trace
import KernelExperiment.Pipe.System

/-! The asynchronous readers of a pipe. `dev->async_queue` lists the files that have asked for
`SIGIO`, a write tells their owners behind its `up`, and a release takes its file off the list. -/

namespace KernelExperiment.Pipe.Notify
open Kernel Runs

/-- The device with the list, the owners of the files, the processes that have `SIGIO` pending, and
the files of the writes that have moved their bytes and are still to tell. -/
structure Sys (P F : Type*) where
  pipe : Pipe.Sys P F
  asyncQueue : List F
  owner : F → Option P
  sigio : P → Bool
  telling : P → Option F

inductive Act (P F : Type*) where
  | pipe (a : Pipe.Act P F)
  | setfl (f : F) (fasync : Bool)
  | setown (f : F) (p : P)
  | killFasync (p : P)
  | handle (p : P)

namespace Sys

variable {P F : Type*}

def loaded (scullPBuffer : Int32) : Sys P F :=
  { pipe := Pipe.loaded scullPBuffer, asyncQueue := [], owner := fun _ => none,
    sigio := fun _ => false, telling := fun _ => none }

/-- The file of a write that is about to move its bytes. -/
def written (s : Pipe.Sys P F) (p : P) (fault : Option ℕ) : Option F :=
  match s.calls p with
  | some (.write f buf) =>
    match s.dev.writeSection buf fault with
    | some (.done _, _) => some f
    | _ => none
  | _ => none

variable [DecidableEq P] [DecidableEq F]

/-- `fasync_helper` puts a file on the list once and takes it off. -/
def scullPFasync (s : Sys P F) (f : F) (mode : Bool) : Sys P F :=
  { s with asyncQueue := if mode then s.asyncQueue.insert f else s.asyncQueue.filter (· ≠ f) }

/-- A process returns from a write only behind `kill_fasync`, and keeps the file until then. -/
def free [Fintype P] (s : Sys P F) : Pipe.Act P F → Bool
  | .enter p _ => s.telling p = none
  | .release f => ∀ p, s.telling p ≠ some f
  | _ => true

def after (s : Sys P F) (a : Pipe.Act P F) (pipe : Pipe.Sys P F) : Sys P F :=
  match a with
  -- a new open file has no owner
  | .opens f .. =>
    { s with
      pipe
      owner := if pipe.files f = s.pipe.files f then s.owner else Function.update s.owner f none }
  | .release f => { s with pipe }.scullPFasync f false
  | .transfer p fault =>
    { s with
      pipe
      telling := match written s.pipe p fault with
        | none => s.telling
        | some f => Function.update s.telling p (some f) }
  | _ => { s with pipe }

def step [Fintype P] (s : Sys P F) : Act P F → Outcome (Sys P F)
  | .pipe a => if s.free a then (Pipe.step s.pipe a).map (s.after a) else .blocked
  | .setfl f fasync => if s.pipe.files f = none then .blocked else .ok (s.scullPFasync f fasync)
  | .setown f p =>
    if s.pipe.files f = none then .blocked
    else .ok { s with owner := Function.update s.owner f (some p) }
  | .killFasync p =>
    if s.telling p = none then .blocked
    else
      .ok { s with
        sigio := fun r => s.sigio r || s.asyncQueue.any fun f => s.owner f = some r
        telling := Function.update s.telling p none }
  | .handle p => .ok { s with sigio := Function.update s.sigio p false }

variable {s t : Sys P F} {a : Pipe.Act P F} {f : F} {h : P} {n : Int32}

/-! The list. -/

structure Listed (s : Sys P F) : Prop where
  nodup : s.asyncQueue.Nodup
  opened : ∀ f ∈ s.asyncQueue, s.pipe.files f ≠ none

omit [DecidableEq P] in
theorem Listed.fasync (hs : s.Listed) (hf : s.pipe.files f ≠ none) (mode : Bool) :
    (s.scullPFasync f mode).Listed := by
  cases mode with
  | true =>
    refine ⟨hs.nodup.insert, fun g hg => ?_⟩
    rcases List.mem_insert_iff.mp hg with rfl | hg
    · exact hf
    · exact hs.opened g hg
  | false => exact ⟨hs.nodup.filter _, fun g hg => hs.opened g (List.mem_filter.mp hg).1⟩

variable [Fintype P]

theorem Listed.pipe (hs : s.Listed) {pipe : Pipe.Sys P F} (hstep : Pipe.step s.pipe a = .ok pipe) :
    (s.after a pipe).Listed := by
  cases step_move hstep with
  | tell => exact ⟨hs.nodup, hs.opened⟩
  | openInterrupted => exact ⟨hs.nodup, hs.opened⟩
  | openFails => exact ⟨hs.nodup, hs.opened⟩
  | @opened f file _ _ _ hf =>
    refine ⟨hs.nodup, fun g hg => ?_⟩
    have hne : g ≠ f := by
      rintro rfl
      exact hs.opened g hg hf
    show Function.update s.pipe.files f (some file) g ≠ none
    rw [Function.update_of_ne hne]
    exact hs.opened g hg
  | @released f file hf =>
    refine ⟨hs.nodup.filter _, fun g hg => ?_⟩
    obtain ⟨hg, hne⟩ := List.mem_filter.mp hg
    show Function.update s.pipe.files f none g ≠ none
    rw [Function.update_of_ne (of_decide_eq_true hne)]
    exact hs.opened g hg
  | entered => exact ⟨hs.nodup, hs.opened⟩
  | transferred => exact ⟨hs.nodup, hs.opened⟩
  | gaveUp => exact ⟨hs.nodup, hs.opened⟩

theorem Listed.step {a : Act P F} (hs : s.Listed) (hstep : s.step a = .ok t) : t.Listed := by
  cases a with
  | pipe a =>
    rw [Sys.step] at hstep
    split_ifs at hstep
    obtain ⟨pipe, hpipe, rfl⟩ := Outcome.map_eq_ok.mp hstep
    exact hs.pipe hpipe
  | setfl f fasync =>
    rw [Sys.step] at hstep
    split_ifs at hstep with hf
    cases hstep
    exact hs.fasync hf fasync
  | setown f p =>
    rw [Sys.step] at hstep
    split_ifs at hstep
    cases hstep
    exact ⟨hs.nodup, hs.opened⟩
  | killFasync p =>
    rw [Sys.step] at hstep
    split_ifs at hstep
    cases hstep
    exact ⟨hs.nodup, hs.opened⟩
  | handle p =>
    cases hstep
    exact ⟨hs.nodup, hs.opened⟩

/-- `kill_fasync` goes through open files only, each of them once. -/
theorem listed_of_exec {acts : List (Act P F)} (he : exec step (loaded n) acts = .ok s) :
    s.Listed :=
  exec_invariant (I := Listed) (fun _ _ _ hs h => hs.step h) ⟨List.nodup_nil, fun _ => (by nofun)⟩ he

/-! No byte without news. -/

/-- Its owner has been told of the bytes in the pipe, or a write is about to tell, or there are none. -/
def News (s : Sys P F) (h : P) : Prop :=
  s.sigio h = true ∨ (∃ p, s.telling p ≠ none) ∨ s.pipe.dev.rp = s.pipe.dev.wp

omit [Fintype P] in
theorem News.transferred (hs : s.News h) {p : P} {call : Call F} {fault : Option ℕ}
    {out : Transfer} {dev : ScullPipe} (hp : s.pipe.calls p = some call)
    (hrun : call.runSection s.pipe.dev fault = some (out, dev)) :
    (s.after (.transfer p fault) (s.pipe.finish p call out dev)).News h := by
  have hquiet (hw : written s.pipe p fault = none)
      (hd : s.pipe.dev.rp = s.pipe.dev.wp → dev.rp = dev.wp) :
      (s.after (.transfer p fault) (s.pipe.finish p call out dev)).News h := by
    refine hs.imp id (.imp (fun ht => ?_) hd)
    simpa only [after, hw] using ht
  cases Call.runSection_ends hrun with
  | empty => exact hquiet (by simp only [written, hp]) id
  | readFaults => exact hquiet (by simp only [written, hp]) id
  | readDone hne => exact hquiet (by simp only [written, hp]) fun he => absurd he hne
  | full =>
    refine hquiet ?_ id
    rw [Call.runSection] at hrun
    simp only [written, hp, hrun]
  | writeFaults =>
    refine hquiet ?_ id
    rw [Call.runSection] at hrun
    simp only [written, hp, hrun]
  | @writeDone f =>
    rw [Call.runSection] at hrun
    refine .inr (.inl ⟨p, ?_⟩)
    simp only [after, written, hp, hrun, Function.update_self]
    exact Option.some_ne_none f

theorem News.pipe (hs : s.News h) {pipe : Pipe.Sys P F} (hstep : Pipe.step s.pipe a = .ok pipe) :
    (s.after a pipe).News h := by
  cases step_move hstep with
  | tell => exact hs
  | openInterrupted => exact hs
  | openFails => exact hs
  | opened => exact .inr (.inr rfl)
  | released => exact hs
  | entered => exact hs
  | transferred hp hrun => exact hs.transferred hp hrun
  | gaveUp => exact hs

/-- The file stays open, on the list and with the same owner, and its owner does not handle a
signal. -/
def Waits (f : F) (h : P) : Act P F → Prop
  | .pipe (.release g) => g ≠ f
  | .setfl g fasync => g = f → fasync = true
  | .setown g p => g = f → p = h
  | .handle p => p ≠ h
  | _ => True

structure Subscribed (f : F) (h : P) (s : Sys P F) : Prop where
  listed : s.Listed
  mem : f ∈ s.asyncQueue
  owner : s.owner f = some h
  news : s.News h

theorem Subscribed.pipe (hs : s.Subscribed f h) (ha : Waits f h (.pipe a)) {pipe : Pipe.Sys P F}
    (hstep : Pipe.step s.pipe a = .ok pipe) : (s.after a pipe).Subscribed f h := by
  have hlisted := hs.listed.pipe hstep
  have hnews := hs.news.pipe hstep
  cases step_move hstep with
  | tell => exact ⟨hlisted, hs.mem, hs.owner, hnews⟩
  | openInterrupted =>
    refine ⟨hlisted, hs.mem, ?_, hnews⟩
    simp only [after, if_true]
    exact hs.owner
  | openFails =>
    refine ⟨hlisted, hs.mem, ?_, hnews⟩
    simp only [after, if_true]
    exact hs.owner
  | @opened g file _ _ _ hg =>
    refine ⟨hlisted, hs.mem, ?_, hnews⟩
    have hne : f ≠ g := by
      rintro rfl
      exact hs.listed.opened f hs.mem hg
    simp only [after]
    split_ifs
    · exact hs.owner
    · rw [Function.update_of_ne hne]
      exact hs.owner
  | @released g file hg =>
    have hne : f ≠ g := Ne.symm ha
    exact ⟨hlisted, List.mem_filter.mpr ⟨hs.mem, decide_eq_true hne⟩, hs.owner, hnews⟩
  | entered => exact ⟨hlisted, hs.mem, hs.owner, hnews⟩
  | transferred => exact ⟨hlisted, hs.mem, hs.owner, hnews⟩
  | gaveUp => exact ⟨hlisted, hs.mem, hs.owner, hnews⟩

theorem Subscribed.step {a : Act P F} (hs : s.Subscribed f h) (ha : Waits f h a)
    (hstep : s.step a = .ok t) : t.Subscribed f h := by
  have hlisted := hs.listed.step hstep
  cases a with
  | pipe a =>
    rw [Sys.step] at hstep
    split_ifs at hstep
    obtain ⟨pipe, hpipe, rfl⟩ := Outcome.map_eq_ok.mp hstep
    exact hs.pipe ha hpipe
  | setfl g fasync =>
    rw [Sys.step] at hstep
    split_ifs at hstep
    cases hstep
    refine ⟨hlisted, ?_, hs.owner, hs.news⟩
    cases fasync with
    | true => exact List.mem_insert_of_mem hs.mem
    | false =>
      refine List.mem_filter.mpr ⟨hs.mem, decide_eq_true ?_⟩
      rintro rfl
      cases ha rfl
  | setown g p =>
    rw [Sys.step] at hstep
    split_ifs at hstep
    cases hstep
    refine ⟨hlisted, hs.mem, ?_, hs.news⟩
    by_cases hg : g = f
    · rw [← hg, ← ha hg]
      exact Function.update_self ..
    · exact (Function.update_of_ne (Ne.symm hg) ..).trans hs.owner
  | killFasync p =>
    rw [Sys.step] at hstep
    split_ifs at hstep
    cases hstep
    refine ⟨hlisted, hs.mem, hs.owner, .inl ?_⟩
    rw [Bool.or_eq_true, List.any_eq_true]
    exact .inr ⟨f, hs.mem, decide_eq_true hs.owner⟩
  | handle p =>
    cases hstep
    exact ⟨hlisted, hs.mem, hs.owner, hs.news.imp (Function.update_of_ne (Ne.symm ha) ..).trans id⟩

/-- No lost `SIGIO`: after an asynchronous reader has found the pipe empty, whatever is read, written,
opened, released and told meanwhile, there are bytes again only with the signal pending, or with a
write under way that is still to send it. -/
theorem news_of_empty {before acts : List (Act P F)} (hb : exec step (loaded n) before = .ok s)
    (hf : f ∈ s.asyncQueue) (ho : s.owner f = some h) (hempty : s.pipe.dev.rp = s.pipe.dev.wp)
    (hacts : ∀ a ∈ acts, Waits f h a) (he : exec step s acts = .ok t) : t.News h := by
  have h0 : s.Subscribed f h := ⟨listed_of_exec hb, hf, ho, .inr (.inr hempty)⟩
  have hm : Meets step (fun _ a => Waits f h a) s acts := .of_forall fun _ => hacts
  have ht : t.Subscribed f h := meets_invariant (fun _ _ _ hs ha hstep => hs.step ha hstep) h0 hm he
  exact ht.news

/-- A reader subscribes to the pipe that it finds empty, and a writer comes. -/
def subscribed : List (Act Bool Bool) :=
  [.pipe (.opens true ⟨true, false, true⟩ false (some fun _ => 0) []),
    .pipe (.opens false ⟨false, true, false⟩ false none []), .setown true true, .setfl true true]

def oneWrite : List (Act Bool Bool) :=
  [.pipe (.enter false (.write false [65])), .pipe (.transfer false none)]

theorem news_of_empty_oneWrite : ∃ s t : Sys Bool Bool, exec step (loaded 4) subscribed = .ok s ∧
    exec step s oneWrite = .ok t ∧ t.pipe.dev.rp ≠ t.pipe.dev.wp ∧ t.News true := by
  have hb : exec step (loaded 4) subscribed = .ok _ := rfl
  have he : exec step (loaded 4) (subscribed ++ oneWrite) = .ok _ := rfl
  rw [exec_append, hb, Outcome.bind_ok] at he
  refine ⟨_, _, hb, he, by decide, news_of_empty (f := true) hb (by decide) rfl rfl ?_ he⟩
  simp [oneWrite, Waits]

end Sys
end KernelExperiment.Pipe.Notify
