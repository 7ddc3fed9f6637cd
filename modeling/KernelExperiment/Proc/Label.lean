import KernelExperiment.Lib.Runs
import KernelExperiment.Proc.Value

/-! The label in front of the jiffies in `/proc/mydir/myfile`. A `proc_write` starts at the front of
the array whatever has been written before, and a program that writes more than the array holds is
told to go on behind what was taken. -/

namespace KernelExperiment.Proc
open Kernel Region Runs

namespace MyProcData

variable {n : ℕ}

/-- `%s` of `proc_read`; there is no result when it runs on behind the array. -/
def procRead (d : MyProcData n) (jiffies : ℕ) : Option (List Byte) :=
  (Terminated.text d.value).map fun text => text ++ decimal (toLong jiffies) ++ [newline]

/-- A program that writes what is left of its buffer until nothing is, with at most that many
calls. -/
def writeAll : ℕ → MyProcData n → List Byte → Option (MyProcData n)
  | _, d, [] => some d
  | 0, _, _ :: _ => none
  | k + 1, d, b :: bs =>
    match d.procWrite (b :: bs) none with
    | some (.ok len, d) => writeAll k d ((b :: bs).drop len)
    | _ => none

end MyProcData

/-- `MYDATA_LEN` of the module with the label. -/
def mydataLen : ℕ := 16

inductive Act where
  | write (buffer : List Byte) (fault : Option ℕ)
  | read (jiffies : ℕ)

namespace MyProcData

/-- `init_module`. -/
def initial : MyProcData mydataLen :=
  { value := ascii "Ticks=" ++ List.replicate 10 0
    length_eq := by decide }

def step (d : MyProcData mydataLen) : Act → Outcome (MyProcData mydataLen)
  | .write buffer fault =>
    match d.procWrite buffer fault with
    | none => .fault
    | some (_, d) => .ok d
  | .read jiffies =>
    match d.procRead jiffies with
    | none => .fault
    | some _ => .ok d

/-- The string ends inside the array. -/
def Ends (d : MyProcData mydataLen) : Prop := 0 ∈ d.value

instance (d : MyProcData mydataLen) : Decidable d.Ends := inferInstanceAs (Decidable (_ ∈ _))

end MyProcData

/-- A write of at least one byte. -/
def Act.Writes : Act → Prop
  | write buffer _ => buffer ≠ []
  | read _ => True

namespace MyProcData

variable {n : ℕ} {d e : MyProcData n} {t buffer : List Byte} {len k : ℕ}

/-! The array under any calls. -/

theorem step_of_writes {d : MyProcData mydataLen} {a : Act} (hd : d.Ends) (ha : a.Writes) :
    ∃ e, d.step a = .ok e ∧ e.Ends := by
  cases a with
  | write buffer fault =>
    obtain ⟨r, e, he, hmem⟩ := d.procWrite_terminates (by decide) ha fault
    exact ⟨e, by rw [step, he], hmem⟩
  | read jiffies =>
    refine ⟨d, ?_, hd⟩
    rw [step, procRead, Terminated.text_eq_some_of_mem hd, Option.map_some]

theorem writes_of_step {d e : MyProcData mydataLen} {a : Act} (h : d.step a = .ok e) :
    a.Writes := by
  cases a with
  | write buffer fault =>
    rintro rfl
    rw [step, procWrite_nil] at h
    cases h
  | read jiffies => trivial

theorem initial_ends : initial.Ends := by decide

/-- The calls stay inside the array, with a NUL in it after each, exactly when none of them writes
nothing. -/
theorem inside_iff_writes (calls : List Act) :
    (exec step initial calls ≠ .fault ∧ Always step Ends initial calls) ↔
      ∀ a ∈ calls, a.Writes := by
  have hnext : ∀ d a, d.Ends → a.Writes → ∃ e, step d a = .ok e ∧ e.Ends :=
    fun d a => step_of_writes
  rw [← meets_iff_forall hnext initial_ends]
  apply safe_always_iff_meets (I := Ends)
  · intro d a e hd ha he
    obtain ⟨e', he', hmem⟩ := step_of_writes hd ha
    cases he'.symm.trans he
    exact hmem
  · intro d a hd ha hfault
    obtain ⟨e, he, -⟩ := step_of_writes hd ha
    cases he.symm.trans hfault
  · intro d a hblocked
    cases a with
    | write buffer fault =>
      rw [step] at hblocked
      split at hblocked <;> cases hblocked
    | read jiffies => trivial
  · exact fun d a e _ he _ => writes_of_step he
  · exact fun d hd => hd
  · exact initial_ends

/-- A program that writes nothing clears the byte in front of the array. -/
theorem empty_write_outside :
    ¬(exec step initial [.write [] none] ≠ .fault ∧
      Always step Ends initial [.write [] none]) := by
  rintro ⟨hsafe, -⟩
  exact hsafe (by rw [exec, step, procWrite_nil])

/-! One label, written to its end. -/

theorem writeAll_nil (k : ℕ) (d : MyProcData n) : writeAll k d [] = some d := by
  cases k <;> rfl

theorem writeAll_accepted (h : d.procWrite buffer none = some (.ok len, e)) (hne : buffer ≠ []) :
    writeAll (k + 1) d buffer = writeAll k e (buffer.drop len) := by
  cases buffer with
  | nil => exact absurd rfl hne
  | cons b bs => rw [writeAll, h]

/-- Each call overwrites the one before, so the value is what the last one has brought. -/
theorem writeAll_text (hn : 0 < n) (c : Byte) (hk : t.length < k) (hnul : ∀ b ∈ t, b ≠ 0) :
    ∃ e, writeAll k d (t ++ [c]) = some e ∧
      Terminated.text e.value = some (t.drop (n * (t.length / n))) := by
  induction k generalizing t d with
  | zero => exact absurd hk (Nat.not_lt_zero _)
  | succ k ih =>
    have hne : t ++ [c] ≠ [] := by simp
    have hlength : (t ++ [c]).length = t.length + 1 := by simp
    have htake : (t ++ [c]).take (accepted n (t ++ [c]) - 1) =
        t.take (accepted n (t ++ [c]) - 1) := by
      apply List.take_append_of_le_length
      rw [accepted_eq_min, hlength]
      omega
    have hfront : ∀ b ∈ (t ++ [c]).take (accepted n (t ++ [c]) - 1), b ≠ 0 := by
      rw [htake]
      exact fun b hb => hnul b (List.mem_of_mem_take hb)
    obtain ⟨e, hwrite, htext⟩ := d.procWrite_ok hn hne hfront
    rw [writeAll_accepted hwrite hne]
    rw [htake] at htext
    rcases Nat.lt_or_ge t.length n with hlt | hge
    · have hlen : accepted n (t ++ [c]) = t.length + 1 := by
        rw [accepted_eq_min, hlength]
        omega
      rw [hlen, ← hlength, List.drop_length, writeAll_nil]
      rw [hlen, Nat.add_sub_cancel, List.take_length] at htext
      rw [Nat.div_eq_of_lt hlt, Nat.mul_zero, List.drop_zero]
      exact ⟨e, rfl, htext⟩
    · have hlen : accepted n (t ++ [c]) = n := by
        rw [accepted_eq_min, hlength]
        omega
      have hrest : (t.drop n).length = t.length - n := List.length_drop
      have hdiv : n + n * ((t.length - n) / n) = n * (t.length / n) := by
        rw [Nat.div_eq_sub_div hn hge, Nat.mul_add, Nat.mul_one, Nat.add_comm]
      rw [hlen, List.drop_append_of_le_length hge]
      obtain ⟨e', hall, hlast⟩ := ih (d := e) (t := t.drop n) (by rw [hrest]; omega)
        fun b hb => hnul b (List.mem_of_mem_drop hb)
      refine ⟨e', hall, ?_⟩
      rw [hlast, hrest, List.drop_drop, hdiv]

end MyProcData

structure Label where
  text : List Byte
  ne_nul : ∀ b ∈ text, b ≠ 0

namespace Label

/-- A label is written with a newline behind it, in no more calls than it has bytes. -/
def write (t : Label) (d : MyProcData mydataLen) : Option (MyProcData mydataLen) :=
  d.writeAll (t.text.length + 1) (t.text ++ [newline])

/-- What is read next is the label, cut to what the array holds, in front of the jiffies. -/
def ReadsBack (t : Label) (d : MyProcData mydataLen) (jiffies : ℕ) : Prop :=
  ∃ e, t.write d = some e ∧
    e.procRead jiffies = some (t.text.take (min t.text.length (mydataLen - 1)) ++
      decimal (toLong jiffies) ++ [newline])

/-- The label fits, or the piece of it that is written last is the piece it begins with. -/
def Kept (t : Label) : Prop :=
  t.text.length < mydataLen ∨
    t.text.length % mydataLen = mydataLen - 1 ∧
      t.text.drop (t.text.length - (mydataLen - 1)) = t.text.take (mydataLen - 1)

instance (t : Label) : Decidable t.Kept := inferInstanceAs (Decidable (_ ∨ _ ∧ _))

theorem lastPiece_eq_iff (t : Label) :
    t.text.drop (mydataLen * (t.text.length / mydataLen)) =
      t.text.take (min t.text.length (mydataLen - 1)) ↔ t.Kept := by
  unfold Kept mydataLen
  have hdiv := Nat.div_add_mod t.text.length 16
  have hmod := Nat.mod_lt t.text.length (y := 16) (by decide)
  rcases Nat.lt_or_ge t.text.length 16 with hlt | hge
  · rw [Nat.div_eq_of_lt hlt, Nat.mul_zero, List.drop_zero, Nat.min_eq_left (by omega),
      List.take_length]
    exact iff_of_true rfl (Or.inl hlt)
  · rw [Nat.min_eq_right (by omega), or_iff_right (Nat.not_lt.mpr hge)]
    constructor
    · intro heq
      have hlength := congrArg List.length heq
      rw [List.length_drop, List.length_take] at hlength
      have hrest : t.text.length % 16 = 16 - 1 := by omega
      refine ⟨hrest, ?_⟩
      rw [← heq]
      congr 1
      omega
    · rintro ⟨hrest, heq⟩
      rw [← heq]
      congr 1
      omega

theorem readsBack_iff (t : Label) (d : MyProcData mydataLen) (jiffies : ℕ) :
    t.ReadsBack d jiffies ↔ t.text.drop (mydataLen * (t.text.length / mydataLen)) =
      t.text.take (min t.text.length (mydataLen - 1)) := by
  obtain ⟨e, hwrite, htext⟩ := MyProcData.writeAll_text (d := d) (by decide) newline
    (Nat.lt_succ_self t.text.length) t.ne_nul
  constructor
  · rintro ⟨e', hwrite', hread⟩
    cases hwrite.symm.trans hwrite'
    rw [MyProcData.procRead, htext, Option.map_some, Option.some.injEq] at hread
    exact List.append_cancel_right (List.append_cancel_right hread)
  · intro heq
    refine ⟨e, hwrite, ?_⟩
    rw [MyProcData.procRead, htext, heq, Option.map_some]

/-- A label reads back exactly when it fits or happens to end as it begins. -/
theorem readsBack_iff_kept (t : Label) (d : MyProcData mydataLen) (jiffies : ℕ) :
    t.ReadsBack d jiffies ↔ t.Kept := (t.readsBack_iff d jiffies).trans t.lastPiece_eq_iff

/-- Of sixteen characters the newline that is written last leaves nothing. -/
theorem sixteen_lost :
    ¬ReadsBack { text := ascii "0123456789abcdef", ne_nul := ne_nul_of_all (by decide) }
      .initial 0 := by
  rw [readsBack_iff]
  decide

end Label
end KernelExperiment.Proc
