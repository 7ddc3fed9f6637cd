import KernelExperiment.Fixed.Driver

/-! The fixed-size driver under calls whose user memory may fault, `pread` and `pwrite` at any offset
among them. Whatever the calls, no copy leaves the array. -/

namespace KernelExperiment.Fixed
open Kernel Region Runs

/-- `pread` and `pwrite` come with an offset of their own; the other calls go by `f_pos`. -/
inductive Call (F : Type*) where
  | opens (f : F) (read write interrupted : Bool)
  | llseek (f : F) (off : Int64) (whence : ℕ)
  | read (f : F) (offset : Option Int64) (count : ℕ) (interrupted : Bool) (fault : Option ℕ)
  | write (f : F) (offset : Option Int64) (buf : List Byte) (interrupted : Bool)
      (fault : Option ℕ)

/-- A call with user memory that can be copied, at the position of its file. -/
def faultless {F : Type*} : Act F → Call F
  | .opens f read write interrupted => .opens f read write interrupted
  | .llseek f off whence => .llseek f off whence
  | .read f count interrupted => .read f none count interrupted none
  | .write f buf interrupted => .write f none buf interrupted none

def position (file : File) : Option Int64 → Int
  | none => file.fPos
  | some off => off.toInt

namespace Sys

variable {F : Type*} [DecidableEq F]

/-- The position that a `pread` or a `pwrite` has moved is dropped. -/
def advance (s : Sys F) (f : F) (file : File) (offset : Option Int64) (n : ℕ) : Sys F :=
  match offset with
  | none => s.setFile f { file with fPos := toLoff (file.fPos + n) }
  | some _ => s

def run (s : Sys F) : Call F → Outcome (Sys F)
  | .opens f read write interrupted => s.step (.opens f read write interrupted)
  | .llseek f off whence => s.step (.llseek f off whence)
  | .read f offset count interrupted fault =>
    match s.files f with
    | none => .blocked
    | some file =>
      if file.read = false ∨ ∃ off ∈ offset, off.toInt < 0 then .blocked
      else if interrupted then .ok (s.reply (.error .erestartsys))
      else
        match s.dev.scullRead (position file offset) count fault with
        | none => .fault
        | some (.error e) => .ok (s.reply (.error e))
        | some (.ok bs) => .ok ((s.advance f file offset bs.length).reply (.bytes bs))
  | .write f offset buf interrupted fault =>
    match s.files f with
    | none => .blocked
    | some file =>
      if file.write = false ∨ ∃ off ∈ offset, off.toInt < 0 then .blocked
      else if interrupted then .ok (s.reply (.error .erestartsys))
      else
        match s.dev.scullWrite (position file offset) buf fault with
        | none => .fault
        | some (.error e, dev) => .ok ({ s with dev }.reply (.error e))
        | some (.ok n, dev) => .ok (({ s with dev }.advance f file offset n).reply (.stored n))

theorem run_faultless (s : Sys F) (a : Act F) : s.run (faultless a) = s.step a := by
  cases a with
  | opens f read write interrupted => rfl
  | llseek f off whence => rfl
  | read f count interrupted =>
    rw [faultless, run, step]
    cases s.files f with
    | none => rfl
    | some file =>
      simp only [Option.mem_def, reduceCtorEq, false_and, exists_false, or_false, position]
      split_ifs
      · rfl
      · rfl
      · rcases s.dev.scullRead file.fPos count none with _ | _ | _ <;> rfl
  | write f buf interrupted =>
    rw [faultless, run, step]
    cases s.files f with
    | none => rfl
    | some file =>
      simp only [Option.mem_def, reduceCtorEq, false_and, exists_false, or_false, position]
      split_ifs
      · rfl
      · rfl
      · rcases s.dev.scullWrite file.fPos buf none with _ | ⟨_ | _, _⟩ <;> rfl

end Sys

/-! One call on the array. -/

namespace ScullDev

variable {dev dev' : ScullDev} {p count : ℕ} {buf : List Byte} {fault : Option ℕ}

structure Within (dev : ScullDev) : Prop where
  length_eq : dev.data.length = scullDataSize
  size_le : dev.size ≤ scullDataSize

theorem within_cleared : cleared.Within := ⟨List.length_replicate, Nat.zero_le _⟩

theorem within_trim (dev : ScullDev) : dev.scullTrim.Within :=
  ⟨List.length_replicate, Nat.zero_le _⟩

/-- A read stops at `dev->size`, which the array covers. -/
theorem Within.scullRead_isSome (h : dev.Within) (p count : ℕ) (fault : Option ℕ) :
    (dev.scullRead p count fault).isSome := by
  have hsize := h.size_le
  have hcap : scullDataSize < 4294967296 := by decide
  rw [scullRead]
  rcases Nat.lt_or_ge p dev.size with hlt | hge
  · have hfit : p + min count (dev.size - p) ≤ dev.data.length := by
      rw [h.length_eq]
      omega
    rw [if_neg (by omega), cutCount_eq count hlt (by omega)]
    dsimp only
    rw [readFrom_natCast, readRange_of_le hfit]
    rfl
  · rw [if_pos (by omega)]
    rfl

/-- A write stops at the end of the array, and so does the size that it sets. -/
theorem Within.scullWrite (h : dev.Within) (p : ℕ) (buf : List Byte) (fault : Option ℕ) :
    ∃ r dev', dev.scullWrite p buf fault = some (r, dev') ∧ dev'.Within := by
  have hcap : scullDataSize < 4294967296 := by decide
  rw [ScullDev.scullWrite]
  rcases Nat.lt_or_ge p scullDataSize with hlt | hge
  · obtain ⟨n, hn⟩ : ∃ n, n = min buf.length (scullDataSize - p) := ⟨_, rfl⟩
    obtain ⟨bs, hbs⟩ : ∃ bs, bs = copiedIn (buf.take n) fault := ⟨_, rfl⟩
    have hlen : bs.length = n := by
      rw [hbs, length_copiedIn, List.length_take]
      omega
    have hfit : p + bs.length ≤ dev.data.length := by
      rw [h.length_eq]
      omega
    have hdata : (splice dev.data p bs).length = scullDataSize := by
      rw [length_splice hfit, h.length_eq]
    rw [if_neg (by omega), cutCount_eq buf.length hlt hcap, ← hn]
    dsimp only
    rw [← hbs, writeTo_natCast, writeRange_of_le hfit, Option.map_some]
    have hend : (scullDataSize : Int) ≤ 16 := by decide
    split_ifs with hok
    · refine ⟨_, _, rfl, hdata, ?_⟩
      dsimp only
      rw [toLoff_natCast_add (by omega), sizeT_of_lt (by omega) (by omega), Int.toNat_natCast]
      omega
    · exact ⟨_, _, rfl, hdata, h.size_le⟩
  · rw [if_pos (by omega)]
    exact ⟨_, _, rfl, h⟩

/-- A read at or beyond the end of the array returns nothing, and no read goes beyond it. -/
theorem Within.length_le (h : dev.Within) {bs : List Byte}
    (hread : dev.scullRead p count fault = some (.ok bs)) : bs.length ≤ scullDataSize - p := by
  rw [scullRead] at hread
  by_cases heof : (p : Int) ≥ dev.size
  · rw [if_pos heof] at hread
    cases hread
    exact Nat.zero_le _
  · rw [if_neg heof] at hread
    obtain ⟨mem, hmem, hcopy⟩ := Option.map_eq_some_iff.mp hread
    rw [readFrom_natCast] at hmem
    have hlen := length_of_readRange hmem
    have hbytes : bs = mem := by
      split_ifs at hcopy <;> cases hcopy <;> rfl
    rw [hbytes, ← h.length_eq]
    exact hlen

theorem count_le {n : ℕ} (hwrite : dev.scullWrite p buf fault = some (.ok n, dev')) :
    n ≤ scullDataSize - p := by
  have hcap : scullDataSize < 4294967296 := by decide
  rw [ScullDev.scullWrite] at hwrite
  by_cases hfull : (p : Int) ≥ scullDataSize
  · rw [if_pos hfull] at hwrite
    cases hwrite
  · have hlt : p < scullDataSize := by omega
    rw [if_neg hfull, cutCount_eq buf.length hlt hcap] at hwrite
    obtain ⟨mem, -, hcopy⟩ := Option.map_eq_some_iff.mp hwrite
    dsimp only at hcopy
    split_ifs at hcopy with hok
    · cases hcopy
      exact Nat.min_le_right _ _
    · cases hcopy

end ScullDev

/-! The driver. -/

/-- The array, the size and the positions of a state that calls have reached. -/
structure Bounded {F : Type*} (s : Sys F) : Prop where
  within : s.dev.Within
  positions : ∀ f, ∀ file ∈ s.files f, 0 ≤ file.fPos ∧ file.fPos < 9223372036854775808

theorem bounded_loaded {F : Type*} : Bounded (Sys.loaded : Sys F) :=
  ⟨ScullDev.within_cleared, fun f file hf => by cases hf⟩

namespace Bounded

variable {F : Type*} {s t : Sys F} {f : F} {file : File}

theorem reply (h : Bounded s) (r : Result) : Bounded (s.reply r) := ⟨h.within, h.positions⟩

/-- The position of a call that is not turned away. -/
theorem exists_position (h : Bounded s) (hf : file ∈ s.files f) {offset : Option Int64}
    (hoff : ¬∃ off ∈ offset, off.toInt < 0) : ∃ p : ℕ, position file offset = p := by
  apply Int.eq_ofNat_of_zero_le
  cases offset with
  | none => exact (h.positions f file hf).1
  | some off => exact Int.not_lt.mp fun hneg => hoff ⟨off, rfl, hneg⟩

variable [DecidableEq F]

theorem setFile (h : Bounded s) (hpos : 0 ≤ file.fPos ∧ file.fPos < 9223372036854775808) :
    Bounded (s.setFile f file) := by
  refine ⟨h.within, ?_⟩
  apply (Function.forall_update_iff s.files fun _ o => ∀ file' ∈ o,
    0 ≤ file'.fPos ∧ file'.fPos < 9223372036854775808).mpr
  refine ⟨fun file' hfile => ?_, fun g _ => h.positions g⟩
  rw [Option.mem_some_iff] at hfile
  rwa [← hfile]

theorem advance (h : Bounded s) (hf : file ∈ s.files f) {offset : Option Int64} {p n : ℕ}
    (hp : position file offset = p) (hn : n ≤ scullDataSize - p) :
    Bounded (s.advance f file offset n) := by
  have hcap : scullDataSize < 4294967296 := by decide
  obtain ⟨h0, hlt⟩ := h.positions f file hf
  cases offset with
  | some off => exact h
  | none =>
    rw [position] at hp
    apply h.setFile
    show 0 ≤ toLoff (file.fPos + n) ∧ toLoff (file.fPos + n) < 9223372036854775808
    rw [toLoff_of_lt (by omega) (by omega)]
    omega

/-- A call that is made leads to such a state again. -/
theorem run (h : Bounded s) (call : Call F) :
    s.run call = .blocked ∨ ∃ t, s.run call = .ok t ∧ Bounded t := by
  cases call with
  | opens f read write interrupted =>
    have hstart : (0 : Int) ≤ 0 ∧ (0 : Int) < 9223372036854775808 := by decide
    rw [Sys.run, Sys.step]
    split_ifs
    · exact .inl rfl
    · exact .inr ⟨_, rfl, h.reply _⟩
    · have htrim : Bounded { s with dev := s.dev.scullTrim } :=
        ⟨s.dev.within_trim, h.positions⟩
      exact .inr ⟨_, rfl, (htrim.setFile hstart).reply _⟩
    · exact .inr ⟨_, rfl, (h.setFile hstart).reply _⟩
  | llseek f off whence =>
    rw [Sys.run, Sys.step]
    cases hf : s.files f with
    | none => exact .inl rfl
    | some file =>
      dsimp only
      cases hseek : s.dev.scullLlseek file off.toInt whence with
      | error e => exact .inr ⟨_, rfl, h.reply _⟩
      | ok newpos =>
        have hpos := And.intro (llseek_nonneg hseek) (llseek_lt off.toInt_lt hseek)
        exact .inr ⟨_, rfl, (h.setFile hpos).reply _⟩
  | read f offset count interrupted fault =>
    rw [Sys.run]
    cases hf : s.files f with
    | none => exact .inl rfl
    | some file =>
      dsimp only
      split_ifs with hout hi
      · exact .inl rfl
      · exact .inr ⟨_, rfl, h.reply _⟩
      · obtain ⟨p, hp⟩ := h.exists_position hf fun hoff => hout (.inr hoff)
        obtain ⟨r, hr⟩ := Option.isSome_iff_exists.mp (h.within.scullRead_isSome p count fault)
        rw [hp, hr]
        cases r with
        | error e => exact .inr ⟨_, rfl, h.reply _⟩
        | ok bs => exact .inr ⟨_, rfl, (h.advance hf hp (h.within.length_le hr)).reply _⟩
  | write f offset buf interrupted fault =>
    rw [Sys.run]
    cases hf : s.files f with
    | none => exact .inl rfl
    | some file =>
      dsimp only
      split_ifs with hout hi
      · exact .inl rfl
      · exact .inr ⟨_, rfl, h.reply _⟩
      · obtain ⟨p, hp⟩ := h.exists_position hf fun hoff => hout (.inr hoff)
        obtain ⟨r, dev, hr, hdev⟩ := h.within.scullWrite p buf fault
        have hstored : Bounded { s with dev } := ⟨hdev, h.positions⟩
        rw [hp, hr]
        cases r with
        | error e => exact .inr ⟨_, rfl, hstored.reply _⟩
        | ok n =>
          exact .inr ⟨_, rfl, (hstored.advance hf hp (ScullDev.count_le hr)).reply _⟩

theorem step {call : Call F} (h : Bounded s) (hs : s.run call = .ok t) : Bounded t := by
  rcases h.run call with hb | ⟨t', ht, hbound⟩
  · cases hs.symm.trans hb
  · cases hs.symm.trans ht
    exact hbound

theorem no_fault {call : Call F} (h : Bounded s) : s.run call ≠ .fault := by
  rcases h.run call with hb | ⟨t, ht, -⟩ <;> simp [*]

end Bounded

/-- In every sequence of calls no copy leaves the array, and in every state the size is at most that
of the array and all positions are non-negative. -/
theorem bounded_run {F : Type*} [DecidableEq F] (calls : List (Call F)) :
    exec Sys.run (Sys.loaded : Sys F) calls ≠ .fault ∧
      Always Sys.run (fun s => s.dev.data.length = scullDataSize ∧ s.dev.size ≤ scullDataSize ∧
        ∀ f, ∀ file ∈ s.files f, 0 ≤ file.fPos) Sys.loaded calls := by
  have hall : Meets Sys.run (fun _ _ => True) (Sys.loaded : Sys F) calls :=
    Meets.of_forall fun _ _ _ => trivial
  have hstep : ∀ (s : Sys F) call t, Bounded s → True → s.run call = .ok t → Bounded t :=
    fun _ _ _ h _ => h.step
  refine ⟨meets_no_fault hstep (fun _ _ h _ => h.no_fault) bounded_loaded hall, ?_⟩
  apply meets_always hstep _ bounded_loaded hall
  exact fun s h => ⟨h.within.length_eq, h.within.size_le, fun f file hf => (h.positions f file hf).1⟩

end KernelExperiment.Fixed
