import KernelExperiment.Scull.Procmem
import KernelExperiment.Lib.Trace
import Mathlib.Data.List.TakeWhile

/-! The iteration behind `/proc/scullseq`. The `seq_file` of the kernel calls the methods of the driver
as it finds room for what they print: it leaves the iteration between any two devices, gives up a
device whose text does not fit or whose semaphore it does not get, and takes the iteration up again
at the first device that it has not delivered. The devices change meanwhile. -/

namespace KernelExperiment.Scull.SeqFile
open Kernel Proc Records Runs

variable {β : Type*}

def scullSeqStart (scullNrDevs pos : ℕ) : Option ℕ := if pos ≥ scullNrDevs then none else some pos

/-- The new position with the device there. -/
def scullSeqNext (scullNrDevs pos : ℕ) : ℕ × Option ℕ :=
  (pos + 1, if pos + 1 ≥ scullNrDevs then none else some (pos + 1))

/-- Where an iteration is: it has a device that is not shown yet, or one that is. -/
inductive Phase where
  | idle
  | before (v : ℕ)
  | behind (v : ℕ)
  deriving DecidableEq

structure Sys (β : Type*) where
  devs : List (Device β)
  index : ℕ
  phase : Phase
  out : List Byte
  ended : Bool

inductive Act (β : Type*) where
  | changes (devs : List (Device β))
  | start
  | show (interrupted fits : Bool)
  | next
  | leave

def Act.quiet : Act β → Bool
  | .changes _ => false
  | _ => true

namespace Sys

def opened (devs : List (Device β)) : Sys β :=
  { devs, index := 0, phase := .idle, out := [], ended := false }

/-- `stop` has nothing to do; with no device at hand there is nothing left to read. -/
def take (s : Sys β) (index : ℕ) : Option ℕ → Sys β
  | some v => { s with index, phase := .before v }
  | none => { s with index, phase := .idle, ended := true }

def step (pr : Printer) (s : Sys β) : Act β → Outcome (Sys β)
  | .changes devs => if devs.length = s.devs.length then .ok { s with devs } else .blocked
  | .start =>
    match s.phase with
    | .idle => .ok (s.take s.index (scullSeqStart s.devs.length s.index))
    | _ => .blocked
  | .show interrupted fits =>
    match s.phase with
    | .before v =>
      if interrupted || !fits then .ok { s with phase := .idle }
      else
        match s.devs[v]? with
        | some d => .ok { s with phase := .behind v, out := s.out ++ pr.scullSeqShow d v }
        | none => .fault
    | _ => .blocked
  | .next =>
    match s.phase with
    | .behind _ =>
      let (index, v) := scullSeqNext s.devs.length s.index
      .ok (s.take index v)
    | _ => .blocked
  -- what has been shown fills the buffer of the reader
  | .leave =>
    match s.phase with
    | .before _ => .ok { s with phase := .idle }
    | .behind _ => .ok { s with index := s.index + 1, phase := .idle }
    | .idle => .blocked

/-- The device that a step prints, as it is at the time. -/
def shown (s : Sys β) : Act β → List (Device β × ℕ)
  | .show interrupted fits =>
    match s.phase with
    | .before v =>
      if interrupted || !fits then [] else (s.devs[v]?.map fun d => (d, v)).toList
    | _ => []
  | .changes _ | .start | .next | .leave => []

/-- How many devices are in what has been delivered. -/
def delivered (s : Sys β) : ℕ :=
  match s.phase with
  | .behind _ => s.index + 1
  | _ => s.index

theorem index_le_delivered (s : Sys β) : s.index ≤ s.delivered := by
  unfold delivered
  split
  · exact Nat.le_succ _
  · exact Nat.le_refl _

/-- What has been delivered is made up of the devices with the numbers below, each as it was when it
was its turn. -/
structure Told (pr : Printer) (n : ℕ) (told : List (Device β × ℕ)) (s : Sys β) : Prop where
  count : s.devs.length = n
  out : s.out = told.flatMap fun (d, i) => pr.scullSeqShow d i
  numbers : told.map Prod.snd = List.range s.delivered
  at_index : ∀ v, s.phase = .before v ∨ s.phase = .behind v → v = s.index ∧ v < n
  ended : s.ended = true → n ≤ s.index
  le : s.delivered ≤ n

namespace Told

variable {pr : Printer} {n : ℕ} {told : List (Device β × ℕ)} {s t : Sys β} {a : Act β}

theorem opened (pr : Printer) (devs : List (Device β)) :
    Told pr devs.length [] (Sys.opened devs) := by
  refine ⟨rfl, rfl, rfl, ?_, nofun, Nat.zero_le _⟩
  rintro v (h | h) <;> cases h

/-- The iteration goes to the device that comes next, or has come to its end. -/
theorem take (h : Told pr n told s) {index : ℕ} {v : Option ℕ} (hindex : s.delivered = index)
    (hv : v = if index ≥ n then none else some index) : Told pr n told (s.take index v) := by
  rw [hv]
  have hnumbers := h.numbers
  rw [hindex] at hnumbers
  have hle := h.le
  rw [hindex] at hle
  split_ifs with hge
  · exact ⟨h.count, h.out, hnumbers, fun v hv => hv.elim nofun nofun, fun _ => hge, hle⟩
  · refine ⟨h.count, h.out, hnumbers, fun v hv => ?_, fun hend => ?_, hle⟩
    · rcases hv with hv | hv
      · cases hv
        exact ⟨rfl, Nat.lt_of_not_ge hge⟩
      · cases hv
    · have hend := h.ended hend
      have hindex' := s.index_le_delivered
      omega

theorem step (h : Told pr n told s) (hstep : s.step pr a = .ok t) :
    Told pr n (told ++ s.shown a) t := by
  cases a with
  | changes devs =>
    rw [shown, List.append_nil]
    rw [Sys.step] at hstep
    split_ifs at hstep with hlen
    cases hstep
    exact ⟨hlen.trans h.count, h.out, h.numbers, h.at_index, h.ended, h.le⟩
  | start =>
    rw [shown, List.append_nil]
    rw [Sys.step] at hstep
    split at hstep
    next hphase =>
      cases hstep
      have hdelivered : s.delivered = s.index := by rw [delivered, hphase]
      rw [h.count]
      exact h.take hdelivered rfl
    next => cases hstep
  | «show» interrupted fits =>
    rw [Sys.step] at hstep
    split at hstep
    next v hphase =>
      have hdelivered : s.delivered = s.index := by rw [delivered, hphase]
      have hnumbers := h.numbers
      have hle := h.le
      rw [hdelivered] at hnumbers hle
      simp only [shown, hphase]
      split_ifs at hstep ⊢
      · cases hstep
        rw [List.append_nil]
        exact ⟨h.count, h.out, hnumbers, fun v hv => hv.elim nofun nofun, h.ended, hle⟩
      · obtain ⟨hindex, hlt⟩ := h.at_index v (.inl hphase)
        split at hstep
        next d hd =>
          cases hstep
          rw [hd, Option.map_some, Option.toList_some]
          refine ⟨h.count, ?_, ?_, fun v' hv' => ?_, fun hend => ?_, ?_⟩
          · rw [List.flatMap_append, List.flatMap_singleton, ← h.out]
          · rw [List.map_append, hnumbers, hindex]
            exact List.range_succ.symm
          · rcases hv' with hv' | hv'
            · cases hv'
            · cases hv'
              exact ⟨hindex, hlt⟩
          · exact h.ended hend
          · show s.index + 1 ≤ n
            omega
        next => cases hstep
    next => cases hstep
  | next =>
    rw [shown, List.append_nil]
    rw [Sys.step] at hstep
    split at hstep
    next v hphase =>
      cases hstep
      have hdelivered : s.delivered = s.index + 1 := by rw [delivered, hphase]
      rw [h.count]
      exact h.take hdelivered rfl
    next => cases hstep
  | leave =>
    rw [shown, List.append_nil]
    rw [Sys.step] at hstep
    split at hstep
    next v hphase =>
      cases hstep
      have hdelivered : s.delivered = s.index := by rw [delivered, hphase]
      have hnumbers := h.numbers
      have hle := h.le
      rw [hdelivered] at hnumbers hle
      exact ⟨h.count, h.out, hnumbers, fun v hv => hv.elim nofun nofun, h.ended, hle⟩
    next v hphase =>
      cases hstep
      have hdelivered : s.delivered = s.index + 1 := by rw [delivered, hphase]
      have hnumbers := h.numbers
      have hle := h.le
      rw [hdelivered] at hnumbers hle
      exact ⟨h.count, h.out, hnumbers, fun v hv => hv.elim nofun nofun,
        fun hend => Nat.le_succ_of_le (h.ended hend), hle⟩
    next => cases hstep

theorem step_ne_fault (h : Told pr n told s) : s.step pr a ≠ .fault := by
  intro hfault
  cases a with
  | «show» interrupted fits =>
    rw [Sys.step] at hfault
    split at hfault
    next v hphase =>
      split_ifs at hfault
      split at hfault
      next => cases hfault
      next hnone =>
        have hlt := (h.at_index v (.inl hphase)).2
        rw [List.getElem?_eq_none_iff, h.count] at hnone
        omega
    next => cases hfault
  | changes devs =>
    rw [Sys.step] at hfault
    split_ifs at hfault
  | start =>
    rw [Sys.step] at hfault
    split at hfault <;> cases hfault
  | next =>
    rw [Sys.step] at hfault
    split at hfault <;> cases hfault
  | leave =>
    rw [Sys.step] at hfault
    split at hfault <;> cases hfault

end Told

variable {pr : Printer} {devs : List (Device β)} {acts : List (Act β)} {s t : Sys β} {a : Act β}

theorem step_devs (hq : a.quiet = true) (hstep : s.step pr a = .ok t) : t.devs = s.devs := by
  have htake (index : ℕ) (v : Option ℕ) : (s.take index v).devs = s.devs := by cases v <;> rfl
  cases a with
  | changes devs => cases hq
  | start =>
    rw [step] at hstep
    split at hstep
    · cases hstep
      exact htake _ _
    · cases hstep
  | «show» interrupted fits =>
    rw [step] at hstep
    split at hstep
    · split_ifs at hstep
      · cases hstep
        rfl
      · split at hstep <;> cases hstep
        rfl
    · cases hstep
  | next =>
    rw [step] at hstep
    split at hstep
    · cases hstep
      exact htake _ _
    · cases hstep
  | leave =>
    rw [step] at hstep
    split at hstep <;> cases hstep <;> rfl

theorem mem_shown {p : Device β × ℕ} (hp : p ∈ s.shown a) : s.devs[p.2]? = some p.1 := by
  unfold shown at hp
  split at hp
  · split at hp
    next v hphase =>
      split_ifs at hp
      · cases hp
      · obtain ⟨d, hd, rfl⟩ := Option.map_eq_some_iff.mp (Option.mem_toList.mp hp)
        exact hd
    · cases hp
  all_goals cases hp

theorem told_exec (he : exec (step pr) (opened devs) acts = .ok s) :
    Told pr devs.length (trace (step pr) shown (opened devs) acts) s :=
  trace_invariant (J := Told pr devs.length) (fun _ _ _ _ => Told.step) (.opened pr devs) he

theorem Told.delivered_of_ended {n : ℕ} {told : List (Device β × ℕ)} (h : Told pr n told s)
    (hend : s.ended = true) : s.delivered = n :=
  Nat.le_antisymm h.le (Nat.le_trans (h.ended hend) s.index_le_delivered)

/-- Nothing happens to the devices. -/
theorem told_quiet (hquiet : ∀ a ∈ acts, a.quiet = true)
    (he : exec (step pr) (opened devs) acts = .ok s) :
    ∀ p ∈ trace (step pr) shown (opened devs) acts, devs[p.2]? = some p.1 := by
  have hm : Meets (step pr) (fun _ a => a.quiet = true) (opened devs) acts :=
    .of_forall fun _ => hquiet
  have hran : s.devs = devs ∧
      ∀ p ∈ [] ++ trace (step pr) shown (opened devs) acts, devs[p.2]? = some p.1 := by
    refine trace_invariant_of_meets
      (J := fun (told : List (Device β × ℕ)) s => s.devs = devs ∧ ∀ p ∈ told, devs[p.2]? = some p.1) ?_
      ⟨rfl, fun p hp => absurd hp List.not_mem_nil⟩ hm he
    rintro told s a t ⟨hdevs, htold⟩ hq hstep
    refine ⟨(step_devs hq hstep).trans hdevs, fun p hp => ?_⟩
    rcases List.mem_append.mp hp with hp | hp
    · exact htold p hp
    · rw [← hdevs]
      exact mem_shown hp
  exact hran.2

theorem eq_zipIdx {told : List (Device β × ℕ)} (hnumbers : told.map Prod.snd = List.range devs.length)
    (htold : ∀ p ∈ told, devs[p.2]? = some p.1) : told = devs.zipIdx := by
  have hlen : told.length = devs.length := by
    rw [← List.length_map Prod.snd, hnumbers, List.length_range]
  refine List.ext_getElem (hlen.trans List.length_zipIdx.symm) fun i hi hi' => ?_
  have hsnd : told[i].2 = i := by
    have hget : (told.map Prod.snd)[i]? = some i := by
      rw [hnumbers, List.getElem?_range (hlen ▸ hi)]
    rw [List.getElem?_map, List.getElem?_eq_getElem hi] at hget
    exact Option.some.inj hget
  have hfst := htold told[i] (List.getElem_mem hi)
  rw [hsnd, List.getElem?_eq_getElem (hlen ▸ hi), Option.some.injEq] at hfst
  rw [List.getElem_zipIdx, Nat.zero_add, hfst]
  exact Prod.ext rfl hsnd

theorem out_quiet (hquiet : ∀ a ∈ acts, a.quiet = true)
    (he : exec (step pr) (opened devs) acts = .ok s) (hend : s.ended = true) :
    s.out = (devs.zipIdx.flatMap pr.deviceRecords).flatten := by
  have h := told_exec he
  have hnumbers := h.numbers
  rw [h.delivered_of_ended hend] at hnumbers
  rw [Printer.flatten_deviceRecords, h.out, eq_zipIdx hnumbers (told_quiet hquiet he)]

theorem deviceRecords_ne_nil {d : Device β} {i : ℕ} {r : List Byte}
    (hr : r ∈ pr.deviceRecords (d, i)) : r ≠ [] := by
  have hitem (qss : List (ScullQset β)) : ∀ r ∈ pr.listRecords d qss, r ≠ [] := by
    induction qss with
    | nil => exact fun r hr => absurd hr List.not_mem_nil
    | cons qs next ih =>
      intro r hr
      rcases List.mem_cons.mp hr with rfl | hr
      · exact List.append_ne_nil_of_left_ne_nil (List.append_ne_nil_of_right_ne_nil _ (by decide)) _
      · exact ih r hr
  rcases List.mem_cons.mp hr with rfl | hr
  · exact List.append_ne_nil_of_right_ne_nil _ (by decide)
  · exact hitem d.data r hr

/-- Where nothing happens to the devices, what `/proc/scullmem` shows is the beginning of what
`/proc/scullseq` shows, and all of it if there is room for another line in front of the last item. -/
theorem procmem_begins (hquiet : ∀ a ∈ acts, a.quiet = true)
    (he : exec (step pr) (opened devs) acts = .ok s) (hend : s.ended = true) {count : Int}
    (hcount : 80 ≤ count) :
    (∀ interrupted, (pr.scullReadProcmem interrupted devs count).2.2 <+: s.out) ∧
      ((pr.scullReadProcmem (fun _ => false) devs count).2.2 = s.out ↔
        ((devs.zipIdx.flatMap pr.deviceRecords).dropLast.flatten.length : Int) ≤ count - 80) := by
  rw [out_quiet hquiet he hend]
  refine ⟨fun interrupted => ?_, ?_⟩
  · rw [Printer.scullReadProcmem_buf]
    obtain ⟨rest, hrest⟩ := List.takeWhile_prefix (l := devs.zipIdx) fun p => !interrupted p.2
    have hprefix : (obtained interrupted 0 devs).flatMap pr.deviceRecords <+:
        devs.zipIdx.flatMap pr.deviceRecords := by
      rw [← hrest, List.flatMap_append]
      exact List.prefix_append _ _
    obtain ⟨more, hmore⟩ := hprefix
    rw [← hmore, List.flatten_append]
    exact (fill_begins _ [] _).trans (List.prefix_append _ _)
  · have hall : obtained (fun _ => false) 0 devs = devs.zipIdx := by
      unfold obtained
      exact List.takeWhile_eq_self_iff.mpr fun _ _ => rfl
    rw [Printer.scullReadProcmem_buf, hall]
    refine fill_eq_iff (fun r hr => ?_) ?_
    · obtain ⟨⟨d, i⟩, -, hr⟩ := List.mem_flatMap.mp hr
      exact deviceRecords_ne_nil hr
    · rw [List.length_nil]
      omega

/-- Both files of two devices, read in one go. -/
def whole : List (Act Byte) := [.start, .show false true, .next, .show false true, .next]

theorem procmem_begins_whole :
    ∃ s, exec (step paged) (opened [sparse, sparse]) whole = .ok s ∧
      (paged.scullReadProcmem (fun _ => false) [sparse, sparse] 3072).2.2 = s.out := by
  have he : exec (step paged) (opened [sparse, sparse]) whole = .ok _ := rfl
  refine ⟨_, he, (procmem_begins (by decide) he rfl (by decide)).2.mpr ?_⟩
  decide +kernel

end Sys
end KernelExperiment.Scull.SeqFile
