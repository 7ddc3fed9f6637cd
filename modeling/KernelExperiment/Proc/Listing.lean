import KernelExperiment.Proc.Ancestors
import Mathlib.Algebra.Group.Action.Defs
import Mathlib.Algebra.Order.BigOperators.Group.List
import Mathlib.Algebra.Order.Ring.Nat

/-! `proc_read` of the modules with the task list. Every line goes into `mydata.value` behind the lines
before it, and the whole text then goes into a page, both without a look at the room. -/

namespace KernelExperiment.Proc
open Kernel Runs

/-- `MYDATA_LEN` of the modules with the task list. -/
def valueLen : ℕ := 8200

def pageSize : ℕ := 4096

/-- A string goes with its NUL to where at most `limit` bytes may be written. -/
def sprintf (limit : ℕ) (text : List Byte) : Outcome (List Byte) :=
  if text.length + 1 ≤ limit then .ok text else .fault

namespace Tasks

variable {T : Type*}

/-- The colon is a fullwidth one, of three bytes. -/
def headLine : List Byte := ascii "The parents process" ++ [239, 188, 154] ++ ascii "\n"

def currentLine (tb : Tasks T) (current : T) : List Byte :=
  ascii " " ++ decimal (tb.pid current) ++ ascii " " ++ (tb.comm current).text ++ ascii "\n"

def taskLine (tb : Tasks T) (task : T) : List Byte :=
  ascii " " ++ decimal (tb.pid task) ++ ascii " " ++ (tb.comm task).text ++ ascii " \n"

def listLine : List Byte := ascii " Current task_struct: \n"

/-- `vsnprintf` copies `mydata.value` onto itself before it goes on with the rest of the line. -/
def print (tb : Tasks T) (task : T) (value : List Byte) : Outcome (List Byte) :=
  sprintf valueLen (value ++ tb.taskLine task)

/-- The text of a call with `param` zero, on a system with these tasks in its list. -/
def listing (tb : Tasks T) (n : ℕ) (current : T) (tasks : List T) (count : ℕ) :
    Outcome (List Byte) :=
  (sprintf valueLen headLine).bind fun value =>
    (sprintf valueLen (value ++ tb.currentLine current)).bind fun value =>
      (tb.climb tb.print n current value).bind fun (_, value) =>
        (sprintf valueLen (value ++ listLine)).bind fun value =>
          (visitAll tb.print tasks value).bind fun value =>
            sprintf (min count pageSize) (value ++ [newline])

end Tasks

/-- What the clocks say during a call. -/
structure Clock where
  jiffies : ℕ
  tvNsec : Int
  tvUsec : Int

/-- The modules with the task list; two of them have something else to say where `param` is not
zero. -/
inductive Module where
  | exp4b
  | exp4c (param : Int)
  | test (param : Int)

/-- The array `str`. -/
def strLen : ℕ := 20

def Module.procRead {T : Type*} (m : Module) (tb : Tasks T) (clock : Clock) (n : ℕ) (current : T)
    (tasks : List T) (count : ℕ) : Outcome (List Byte) :=
  match m with
  | exp4b => tb.listing n current tasks count
  | exp4c param =>
    if param = 0 then tb.listing n current tasks count
    else
      (sprintf strLen (ascii "jiffies=:")).bind fun str =>
        sprintf (min count pageSize) (str ++ decimal (toLong clock.jiffies) ++ ascii "\n")
  | test param =>
    if param = 0 then tb.listing n current tasks count
    else
      (sprintf strLen (ascii "nsec=:")).bind fun str =>
        sprintf (min count pageSize)
          (str ++ decimal clock.tvNsec ++ ascii "\n" ++ decimal clock.tvUsec ++ ascii "\n")

/-- However far the call gets, it stays inside `mydata.value` and inside what it may write of the
page. -/
def Module.Fits {T : Type*} (m : Module) (tb : Tasks T) (clock : Clock) (current : T)
    (tasks : List T) (count : ℕ) : Prop :=
  ∀ n, m.procRead tb clock n current tasks count ≠ .fault

namespace Tasks

variable {T : Type*}

/-- The pid and the name of a task. -/
def width (tb : Tasks T) (task : T) : ℕ :=
  (decimal (tb.pid task)).length + (tb.comm task).text.length

/-- Four more bytes for every task that is printed, and three for the current one. -/
def textLength (tb : Tasks T) (current : T) (ancestors tasks : List T) : ℕ :=
  46 + (tb.width current + 3) + (ancestors.map fun t => tb.width t + 4).sum +
    (tasks.map fun t => tb.width t + 4).sum

/-- The reader comes from pid 1, and all of the tasks take no more than the page. -/
def Short (tb : Tasks T) (current : T) (tasks : List T) (count : ℕ) : Prop :=
  ∃ ancestors, tb.Ancestors current ancestors ∧
    tb.textLength current ancestors tasks + 2 ≤ min count pageSize

end Tasks

def Module.Short {T : Type*} (m : Module) (tb : Tasks T) (clock : Clock) (current : T)
    (tasks : List T) (count : ℕ) : Prop :=
  match m with
  | exp4b => tb.Short current tasks count
  | exp4c param =>
    if param = 0 then tb.Short current tasks count
    else (decimal (toLong clock.jiffies)).length + 11 ≤ min count pageSize
  | test param =>
    if param = 0 then tb.Short current tasks count
    else (decimal clock.tvNsec).length + (decimal clock.tvUsec).length + 9 ≤ min count pageSize

section
variable {limit : ℕ} {text more : List Byte}

theorem sprintf_of_le (h : text.length + 1 ≤ limit) : sprintf limit text = .ok text := if_pos h

theorem sprintf_of_lt (h : limit < text.length + 1) : sprintf limit text = .fault :=
  if_neg (Nat.not_le.mpr h)

theorem sprintf_ne_fault : sprintf limit text ≠ .fault ↔ text.length + 1 ≤ limit := by
  unfold sprintf
  split_ifs with h <;> simp [h]

/-- What follows a `sprintf`, where a text that does not fit is a failure anyway. -/
theorem sprintf_bind {T : Type*} {f : List Byte → Outcome T} {r : Outcome T}
    (hlong : limit < text.length + 1 → r = .fault) (hfits : text.length + 1 ≤ limit → f text = r) :
    (sprintf limit text).bind f = r := by
  rcases Nat.lt_or_ge limit (text.length + 1) with hlt | hle
  · rw [sprintf_of_lt hlt, Outcome.bind_fault, hlong hlt]
  · rw [sprintf_of_le hle, Outcome.bind_ok, hfits hle]

end

namespace Tasks

variable {T : Type*} {tb : Tasks T} {current task : T} {ancestors tasks : List T} {count n : ℕ}
  {value : List Byte}

@[simp] theorem length_taskLine (tb : Tasks T) (task : T) :
    (tb.taskLine task).length = tb.width task + 4 := by
  have h1 : (ascii " ").length = 1 := by decide
  have h2 : (ascii " \n").length = 2 := by decide
  simp only [taskLine, List.length_append, h1, h2, width]
  omega

@[simp] theorem length_currentLine (tb : Tasks T) (current : T) :
    (tb.currentLine current).length = tb.width current + 3 := by
  have h1 : (ascii " ").length = 1 := by decide
  have h2 : (ascii "\n").length = 1 := by decide
  simp only [currentLine, List.length_append, h1, h2, width]
  omega

theorem length_headLine : headLine.length = 23 := by decide

theorem length_listLine : listLine.length = 23 := by decide

theorem length_taskLines (tb : Tasks T) (tasks : List T) :
    (tasks.flatMap tb.taskLine).length = (tasks.map fun t => tb.width t + 4).sum := by
  rw [List.length_flatMap]
  simp only [length_taskLine]

/-- Printing the tasks one by one comes to printing all of their lines. -/
theorem visitAll_print (h : value.length + 1 ≤ valueLen) (tasks : List T) :
    visitAll tb.print tasks value = sprintf valueLen (value ++ tasks.flatMap tb.taskLine) := by
  induction tasks generalizing value with
  | nil =>
    rw [List.flatMap_nil, List.append_nil, sprintf_of_le h]
    rfl
  | cons task tasks ih =>
    rw [List.flatMap_cons, ← List.append_assoc, visitAll, print]
    rcases Nat.lt_or_ge valueLen ((value ++ tb.taskLine task).length + 1) with hlt | hle
    · rw [sprintf_of_lt hlt, sprintf_of_lt]
      rw [List.length_append]
      omega
    · rw [sprintf_of_le hle]
      exact ih hle

/-- All that goes into `mydata.value`. -/
def fullText (tb : Tasks T) (current : T) (ancestors tasks : List T) : List Byte :=
  headLine ++ tb.currentLine current ++ ancestors.flatMap tb.taskLine ++ listLine ++
    tasks.flatMap tb.taskLine

theorem length_fullText (tb : Tasks T) (current : T) (ancestors tasks : List T) :
    (tb.fullText current ancestors tasks).length = tb.textLength current ancestors tasks := by
  simp only [fullText, List.length_append, length_headLine, length_currentLine, length_taskLines,
    length_listLine, textLength]
  omega

theorem limit_le_valueLen (count : ℕ) : min count pageSize ≤ valueLen :=
  (Nat.min_le_right _ _).trans (by decide)

/-- A call that gets past its ancestors prints the full text, or as much of it as has room. -/
theorem listing_of_ancestors (h : tb.Ancestors current ancestors) (hn : ancestors.length ≤ n) :
    tb.listing n current tasks count =
      sprintf (min count pageSize) (tb.fullText current ancestors tasks ++ [newline]) := by
  have hlimit := limit_le_valueLen count
  have hlength : (tb.fullText current ancestors tasks).length = 46 + (tb.width current + 3) +
      (ancestors.flatMap tb.taskLine).length + (tasks.flatMap tb.taskLine).length := by
    rw [length_fullText, textLength, length_taskLines, length_taskLines]
  -- a part of the text that does not fit into the array is too long for the page
  have hlong {part : List Byte} (hle : part.length ≤ (tb.fullText current ancestors tasks).length)
      (hlt : valueLen < part.length + 1) :
      sprintf (min count pageSize) (tb.fullText current ancestors tasks ++ [newline]) =
        .fault := by
    apply sprintf_of_lt
    rw [List.length_append]
    omega
  obtain ⟨t, -, hclimb⟩ : ∃ t, tb.pid t = 1 ∧
      tb.climb tb.print n current (headLine ++ tb.currentLine current) = _ := chase_of_path h hn
  rw [listing]
  refine sprintf_bind (hlong ?_) fun _ => sprintf_bind (hlong ?_) fun hcurrent => ?_
  · rw [hlength, length_headLine]
    omega
  · rw [hlength, List.length_append, length_headLine, length_currentLine]
    omega
  rw [hclimb, visitAll_print hcurrent, Outcome.bind_map]
  refine sprintf_bind (hlong ?_) fun _ => sprintf_bind (hlong ?_) fun hlist => ?_
  · simp only [hlength, List.length_append, length_headLine, length_currentLine]
    omega
  · simp only [hlength, List.length_append, length_headLine, length_currentLine, length_listLine]
    omega
  rw [visitAll_print hlist]
  exact sprintf_bind (hlong le_rfl) fun _ => rfl

/-- A call that has not got past them yet has gone wrong nowhere if all of the text has room. -/
theorem listing_blocked (h : tb.Ancestors current ancestors) (hn : n < ancestors.length)
    (hroom : tb.textLength current ancestors tasks + 1 ≤ valueLen) :
    tb.listing n current tasks count = .blocked := by
  have hcurrent : (headLine ++ tb.currentLine current).length + 1 ≤ valueLen := by
    rw [List.length_append, length_headLine, length_currentLine]
    unfold textLength at hroom
    omega
  have hall : visitAll tb.print ancestors (headLine ++ tb.currentLine current) =
      .ok (headLine ++ tb.currentLine current ++ ancestors.flatMap tb.taskLine) := by
    rw [visitAll_print hcurrent]
    apply sprintf_of_le
    rw [List.length_append, length_taskLines, List.length_append, length_headLine,
      length_currentLine]
    unfold textLength at hroom
    omega
  have hclimb : tb.climb tb.print n current (headLine ++ tb.currentLine current) = .blocked :=
    chase_blocked_of_path h hn hall
  rw [listing, sprintf_of_le (by decide), Outcome.bind_ok, sprintf_of_le hcurrent,
    Outcome.bind_ok, hclimb, Outcome.bind_blocked]

/-- A call that never gets past its ancestors writes line after line. -/
theorem listing_runs_over (h : ∀ ancestors, ¬tb.Ancestors current ancestors) :
    ∃ n, tb.listing n current tasks count = .fault := by
  rcases Nat.lt_or_ge valueLen ((headLine ++ tb.currentLine current).length + 1) with hlt | hle
  · refine ⟨0, ?_⟩
    rw [listing, sprintf_of_le (by decide), Outcome.bind_ok, sprintf_of_lt hlt,
      Outcome.bind_fault]
  · have hgrow : ∀ t value, tb.print t value = .fault ∨
        ∃ v, tb.print t value = .ok v ∧ value.length < v.length ∧ v.length ≤ valueLen := by
      intro t value
      rw [print]
      rcases Nat.lt_or_ge valueLen ((value ++ tb.taskLine t).length + 1) with hlt | hle
      · exact Or.inl (sprintf_of_lt hlt)
      · refine Or.inr ⟨_, sprintf_of_le hle, ?_, by omega⟩
        rw [List.length_append, length_taskLine]
        omega
    obtain ⟨n, hn⟩ := chase_fault_of_no_path (a := headLine ++ tb.currentLine current) h hgrow
    refine ⟨n, ?_⟩
    rw [listing, sprintf_of_le (by decide), Outcome.bind_ok, sprintf_of_le hle, Outcome.bind_ok,
      climb, hn, Outcome.bind_fault]

theorem listing_fits_iff (tb : Tasks T) (current : T) (tasks : List T) (count : ℕ) :
    (∀ n, tb.listing n current tasks count ≠ .fault) ↔ tb.Short current tasks count := by
  have hpage {ancestors : List T} :
      sprintf (min count pageSize) (tb.fullText current ancestors tasks ++ [newline]) ≠ .fault ↔
        tb.textLength current ancestors tasks + 2 ≤ min count pageSize := by
    rw [sprintf_ne_fault, List.length_append, length_fullText]
    rfl
  constructor
  · intro hfits
    by_contra hshort
    by_cases hpath : ∃ ancestors, tb.Ancestors current ancestors
    · obtain ⟨ancestors, hancestors⟩ := hpath
      have hall := hfits ancestors.length
      rw [listing_of_ancestors hancestors le_rfl, hpage] at hall
      exact hshort ⟨ancestors, hancestors, hall⟩
    · obtain ⟨n, hn⟩ : ∃ n, tb.listing n current tasks count = .fault :=
        listing_runs_over (not_exists.mp hpath)
      exact hfits n hn
  · rintro ⟨ancestors, hancestors, hroom⟩ n
    rcases Nat.lt_or_ge n ancestors.length with hlt | hge
    · have hlimit := limit_le_valueLen count
      rw [listing_blocked hancestors hlt (by omega)]
      nofun
    · rw [listing_of_ancestors hancestors hge]
      exact hpage.mpr hroom

theorem decimal_ne_nil (x : Int) : decimal x ≠ [] := by
  intro h
  have hdigits : (Nat.toDigits 10 x.natAbs).map _ = [] := (List.append_eq_nil_iff.mp h).2
  exact Nat.toDigits_ne_nil (List.map_eq_nil_iff.mp hdigits)

theorem width_pos (tb : Tasks T) (task : T) : 1 ≤ tb.width task :=
  (List.length_pos_iff.mpr (decimal_ne_nil _)).trans_le (Nat.le_add_right ..)

/-- Eight hundred and nine tasks are too many, however short their names are. -/
theorem not_short_of_many (hmany : 809 ≤ tasks.length) : ¬tb.Short current tasks count := by
  rintro ⟨ancestors, -, hroom⟩
  have hsum : tasks.length * 5 ≤ (tasks.map fun t => tb.width t + 4).sum := by
    have hall : ∀ w ∈ tasks.map fun t => tb.width t + 4, 5 ≤ w := by
      intro w hw
      obtain ⟨t, -, rfl⟩ := List.mem_map.mp hw
      exact Nat.succ_le_succ_iff.mpr (Nat.add_le_add_right (tb.width_pos t) 3)
    have hsum := List.card_nsmul_le_sum _ 5 hall
    rwa [List.length_map, smul_eq_mul] at hsum
  have hcurrent := tb.width_pos current
  have hle : min count pageSize ≤ 4096 := Nat.min_le_right _ _
  unfold textLength at hroom
  omega

end Tasks

theorem strLen_jiffies : sprintf strLen (ascii "jiffies=:") = .ok (ascii "jiffies=:") :=
  sprintf_of_le (by decide)

theorem strLen_nsec : sprintf strLen (ascii "nsec=:") = .ok (ascii "nsec=:") :=
  sprintf_of_le (by decide)

/-- A call stays inside its buffers exactly when its text is short. -/
theorem Module.fits_iff_short {T : Type*} (m : Module) (tb : Tasks T) (clock : Clock) (current : T)
    (tasks : List T) (count : ℕ) :
    m.Fits tb clock current tasks count ↔ m.Short tb clock current tasks count := by
  have h9 : (ascii "jiffies=:").length = 9 := by decide
  have h6 : (ascii "nsec=:").length = 6 := by decide
  have h1 : (ascii "\n").length = 1 := by decide
  unfold Fits
  cases m with
  | exp4b => exact tb.listing_fits_iff current tasks count
  | exp4c param =>
    simp only [procRead, Short]
    split_ifs with hparam
    · exact tb.listing_fits_iff current tasks count
    · rw [forall_const, strLen_jiffies, Outcome.bind_ok, sprintf_ne_fault]
      simp only [List.length_append, h9, h1]
      omega
  | test param =>
    simp only [procRead, Short]
    split_ifs with hparam
    · exact tb.listing_fits_iff current tasks count
    · rw [forall_const, strLen_nsec, Outcome.bind_ok, sprintf_ne_fault]
      simp only [List.length_append, h6, h1]
      omega

/-- Pid 1 and the shells that it has started. -/
def shells : Tasks ℕ where
  pid t := t
  comm _ := { text := ascii "sh", length_le := by decide, ne_nul := ne_nul_of_all (by decide) }
  parent t := if t ≤ 1 then 0 else 1

/-- A thousand of them overrun the page. -/
theorem shells_overrun : ¬Module.exp4b.Fits shells { jiffies := 0, tvNsec := 0, tvUsec := 0 } 2
    (List.range' 1 1000) 3072 := by
  intro h
  have hmany : 809 ≤ (List.range' 1 1000).length := by
    rw [List.length_range']
    decide
  exact Tasks.not_short_of_many hmany ((shells.listing_fits_iff 2 _ 3072).mp h)

end KernelExperiment.Proc
