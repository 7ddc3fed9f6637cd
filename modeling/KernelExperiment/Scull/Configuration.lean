import KernelExperiment.Scull.Ioctl
import KernelExperiment.Lib.Purge

/-! What calls of the `ioctl` method leave in the three globals: calls that fail, and calls of
processes without `CAP_SYS_ADMIN`. -/

namespace KernelExperiment.Scull.Config
open Kernel Runs Purge

variable {g : Config} {cmd arg : UInt32} {c : Caller} {k : Command} {p : Param} {v : Int}

theorem set_eq_self : g.set p v = g ↔ g.get p = v := by
  obtain ⟨quantum, qset, buffer⟩ := g
  cases p <;> simp [set, get, eq_comm]

/-- The switch gets to the case of the command. -/
def Accepted (cmd : UInt32) (c : Caller) (k : Command) : Prop :=
  cmd = k.word ∧ (iocDir cmd ≠ 0 → c.accessOk = true)

/-! Calls that fail. -/

def failures : List Errno := [.efault, .eperm, .enotty]

/-- If the call returns one of the three errors, the globals are as they were. -/
def FailsCleanly (g : Config) (cmd arg : UInt32) (c : Caller) : Prop :=
  ∀ e ∈ failures, (g.scullIoctl cmd arg c).1.retval = -e.code → (g.scullIoctl cmd arg c).2 = g

instance (g : Config) (cmd arg : UInt32) (c : Caller) : Decidable (g.FailsCleanly cmd arg c) :=
  inferInstanceAs (Decidable (∀ e ∈ failures, _))

/-- What the command assigns before its return value is an error was there before. -/
def AssignsSame (g : Config) (arg : UInt32) (c : Caller) : Command → Prop
  | .set p => c.capSysAdmin = true → c.user = none → g.get p = 0
  | .exchange p =>
    c.capSysAdmin = true →
      match c.user with
      | none => g.get p = 0
      | some v => c.storeOk = false → g.get p = v.toInt
  -- the old value is returned, and may be that of an error
  | .shift p =>
    c.capSysAdmin = true → (∃ e ∈ failures, g.get p = -e.code) → g.get p = arg.toInt32.toInt
  | _ => True

/-- Where the return value is no error unless something else is, nothing is asked of the rest. -/
theorem clean_of_same {r : Reply × Config} (h : r.2 = g) :
    ∀ e ∈ failures, r.1.retval = -e.code → r.2 = g := fun _ _ _ => h

theorem clean_of_success {r : Reply × Config} (h : r.1.retval = 0) :
    ∀ e ∈ failures, r.1.retval = -e.code → r.2 = g := by
  intro e he hcode
  rw [h] at hcode
  simp only [failures, List.mem_cons, List.not_mem_nil, or_false] at he
  rcases he with rfl | rfl | rfl <;> cases hcode

theorem clean_iff_of_error {r : Reply × Config} {e : Errno} (he : e ∈ failures)
    (h : r.1.retval = -e.code) :
    (∀ e ∈ failures, r.1.retval = -e.code → r.2 = g) ↔ r.2 = g :=
  ⟨fun hall => hall e he h, fun hsame _ _ _ => hsame⟩

/-- Without the capability nothing is assigned. -/
theorem admin_clean_iff {r : Reply × Config} {Q : Prop}
    (h : c.capSysAdmin = true → ((∀ e ∈ failures, r.1.retval = -e.code → r.2 = g) ↔ Q)) :
    (∀ e ∈ failures, (g.admin c r).1.retval = -e.code → (g.admin c r).2 = g) ↔
      (c.capSysAdmin = true → Q) := by
  unfold admin
  cases hcap : c.capSysAdmin with
  | false => exact iff_of_true (clean_of_same rfl) (fun h => by cases h)
  | true =>
    rw [if_pos rfl, imp_iff_right rfl]
    exact h hcap

theorem run_clean_iff (g : Config) (arg : UInt32) (c : Caller) (k : Command) :
    (∀ e ∈ failures, (g.run arg c k).1.retval = -e.code → (g.run arg c k).2 = g) ↔
      g.AssignsSame arg c k := by
  have hfault : Errno.efault ∈ failures := List.mem_cons_self ..
  cases k with
  | reset => exact iff_of_true (clean_of_success rfl) trivial
  | get p => exact iff_of_true (clean_of_same rfl) trivial
  | query p => exact iff_of_true (clean_of_same rfl) trivial
  | tellPSize => exact iff_of_true (clean_of_success rfl) trivial
  | queryPSize => exact iff_of_true (clean_of_same rfl) trivial
  | tell p =>
    apply iff_of_true _ trivial
    rw [run, admin]
    split_ifs
    · exact clean_of_success rfl
    · exact clean_of_same rfl
  | set p =>
    refine admin_clean_iff fun _ => ?_
    rw [getUser]
    cases c.user with
    | none => rw [imp_iff_right rfl, clean_iff_of_error hfault rfl, set_eq_self]
    | some v => exact iff_of_true (clean_of_success rfl) (fun h => by cases h)
  | exchange p =>
    refine admin_clean_iff fun _ => ?_
    rw [getUser]
    cases c.user with
    | none => rw [clean_iff_of_error hfault rfl, set_eq_self]
    | some v =>
      rw [putUser]
      cases hstore : c.storeOk with
      | true => exact iff_of_true (clean_of_success rfl) (fun h => by cases h)
      | false =>
        rw [clean_iff_of_error hfault rfl, set_eq_self]
        exact (imp_iff_right rfl).symm
  | shift p =>
    refine admin_clean_iff fun _ => ?_
    dsimp only [Reply.ret]
    simp only [set_eq_self]
    constructor
    · rintro h ⟨e, he, hcode⟩
      exact h e he hcode
    · exact fun h e he hcode => h ⟨e, he, hcode⟩

/-- A call fails cleanly exactly when whatever its command assigns before the failure is the value
that was there. -/
theorem failsCleanly_iff_assignsSame (g : Config) (cmd arg : UInt32) (c : Caller) :
    g.FailsCleanly cmd arg c ↔ ∀ k, Accepted cmd c k → g.AssignsSame arg c k := by
  have hhandled := g.scullIoctl_handled cmd arg c
  rw [FailsCleanly]
  generalize g.scullIoctl cmd arg c = r at hhandled
  cases hhandled with
  | rejected he hk =>
    apply iff_of_true (clean_of_same rfl)
    rintro k ⟨hword, hok⟩
    obtain ⟨hdir, hno⟩ := hk k hword
    cases (hok hdir).symm.trans hno
  | @ran k hk hok =>
    rw [run_clean_iff]
    constructor
    · rintro h l ⟨hl, -⟩
      rwa [← Command.word_inj (hk.symm.trans hl)]
    · exact fun h => h k ⟨hk, hok⟩

/-- The user word holds 7 and cannot be written: the exchange fails with the 7 in the quantum. -/
theorem exchange_keeps_new :
    ¬({ scullQuantum := 4000, scullQset := 1000, scullPBuffer := 4000 } : Config).FailsCleanly
      (Command.exchange .quantum).word 0
      { capSysAdmin := true, accessOk := true, user := some 7, storeOk := false } := by
  decide

/-! Calls of unprivileged processes. -/

/-- One call of the method, on a device of either kind. -/
structure IoctlCall where
  cmd : UInt32
  arg : UInt32
  caller : Caller

def call (g : Config) (i : IoctlCall) : Config := (g.scullIoctl i.cmd i.arg i.caller).2

def privileged (i : IoctlCall) : Bool := i.caller.capSysAdmin

/-- The two commands that assign a global without asking for the capability find there what they
assign. -/
def Powerless (g : Config) (i : IoctlCall) : Prop :=
  privileged i = false →
    (i.cmd = Command.reset.word → g.scullQuantum = 4000 ∧ g.scullQset = 1000) ∧
    (i.cmd = Command.tellPSize.word → g.scullPBuffer = i.arg.toInt32.toInt)

instance (g : Config) (i : IoctlCall) : Decidable (g.Powerless i) :=
  inferInstanceAs (Decidable (_ → _))

/-- Without the capability only those two commands assign anything. -/
theorem run_unprivileged (hcap : c.capSysAdmin = false) (hreset : k ≠ .reset)
    (htell : k ≠ .tellPSize) : (g.run arg c k).2 = g := by
  cases k with
  | reset => exact absurd rfl hreset
  | tellPSize => exact absurd rfl htell
  | get p => rfl
  | query p => rfl
  | queryPSize => rfl
  | _ => simp only [run, admin, hcap, Bool.false_eq_true, if_false]

theorem idle_iff_powerless (g : Config) (i : IoctlCall) :
    Idle call privileged g i ↔ g.Powerless i := by
  apply imp_congr_right
  intro hcap
  have hhandled := g.scullIoctl_handled i.cmd i.arg i.caller
  rw [call]
  generalize g.scullIoctl i.cmd i.arg i.caller = r at hhandled
  cases hhandled with
  | rejected he hk =>
    apply iff_of_true rfl
    constructor
    · intro hw
      obtain ⟨hdir, -⟩ := hk .reset hw
      rw [hw] at hdir
      exact absurd (by decide) hdir
    · intro hw
      obtain ⟨hdir, -⟩ := hk .tellPSize hw
      rw [hw] at hdir
      exact absurd (by decide) hdir
  | @ran k hk hok =>
    have hinj : ∀ l : Command, i.cmd = l.word ↔ k = l := fun l =>
      ⟨fun hl => Command.word_inj (hk.symm.trans hl), fun hl => hl ▸ hk⟩
    rw [hinj, hinj]
    obtain ⟨quantum, qset, buffer⟩ := g
    rcases eq_or_ne k .reset with rfl | hreset
    · simp [run, eq_comm]
    · rcases eq_or_ne k .tellPSize with rfl | htell
      · simp [run, eq_comm]
      · exact iff_of_true (run_unprivileged hcap hreset htell)
          ⟨fun h => absurd h hreset, fun h => absurd h htell⟩

/-- After every call the globals are those that the privileged calls alone give them, exactly when no
unprivileged call resets or tells anything but what it finds. -/
theorem purged_iff_powerless (g : Config) (calls : List IoctlCall) :
    (∀ done, done <+: calls → done.foldl call g = (done.filter privileged).foldl call g) ↔
      Meets (fun g i => .ok (g.call i)) Powerless g calls := by
  have hpurged : Purged call privileged g calls ↔
      Meets (fun g i => .ok (g.call i)) (Idle call privileged) g calls := purged_iff_idle
  rw [← meets_congr (I := fun _ => True) (fun _ _ _ _ _ => trivial)
    (fun g i _ => idle_iff_powerless g i) trivial]
  exact hpurged

/-- Anybody may tell the size of the pipe buffers. -/
def tellSize : IoctlCall :=
  { cmd := Command.tellPSize.word
    arg := 8
    caller := { capSysAdmin := false, accessOk := true, user := none, storeOk := true } }

theorem unprivileged_tell_changes :
    ¬∀ (g : Config) (calls done : List IoctlCall), done <+: calls →
      done.foldl call g = (done.filter privileged).foldl call g := by
  intro h
  have hrun := h { scullQuantum := 4000, scullQset := 1000, scullPBuffer := 4000 } [tellSize]
    [tellSize] (List.prefix_refl _)
  revert hrun
  decide

end KernelExperiment.Scull.Config
