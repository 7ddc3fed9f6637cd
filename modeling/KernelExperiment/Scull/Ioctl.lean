import KernelExperiment.Scull.Calls

/-! The one `ioctl` method of the bare and the pipe devices: its command words, its checks and its
switch over the driver's three configurable globals. -/

namespace KernelExperiment.Scull
open Kernel

/-- The globals that the commands read and write. -/
structure Config where
  scullQuantum : Int
  scullQset : Int
  scullPBuffer : Int
  deriving DecidableEq

/-- The two globals that have all six kinds of commands. -/
inductive Param where
  | quantum
  | qset
  deriving DecidableEq, Repr

namespace Config

def get (g : Config) : Param → Int
  | .quantum => g.scullQuantum
  | .qset => g.scullQset

def set (g : Config) : Param → Int → Config
  | .quantum, v => { g with scullQuantum := v }
  | .qset, v => { g with scullQset := v }

end Config

/-- `Query` and `shift` return the value, which may look like an error code. -/
inductive Command where
  | reset
  | set (p : Param)
  | tell (p : Param)
  | get (p : Param)
  | query (p : Param)
  | exchange (p : Param)
  | shift (p : Param)
  | tellPSize
  | queryPSize
  deriving DecidableEq, Repr

/-- `_IOC`: direction, size, type and number. -/
def ioc (dir size nr : UInt32) : UInt32 :=
  dir <<< 30 ||| size <<< 16 ||| (0x6b : UInt32) <<< 8 ||| nr

def iocNr (cmd : UInt32) : UInt32 := cmd &&& 0xff

def iocType (cmd : UInt32) : UInt32 := cmd >>> 8 &&& 0xff

def iocDir (cmd : UInt32) : UInt32 := cmd >>> 30

namespace Command

def io (nr : UInt32) : UInt32 := ioc 0 0 nr

def iow (nr : UInt32) : UInt32 := ioc 1 4 nr

def ior (nr : UInt32) : UInt32 := ioc 2 4 nr

def iowr (nr : UInt32) : UInt32 := ioc 3 4 nr

/-- The definitions of `scull.h`. -/
def word : Command → UInt32
  | reset => io 0
  | set .quantum => iow 1
  | set .qset => iow 2
  | tell .quantum => io 3
  | tell .qset => io 4
  | get .quantum => ior 5
  | get .qset => ior 6
  | query .quantum => io 7
  | query .qset => io 8
  | exchange .quantum => iowr 9
  | exchange .qset => iowr 10
  | shift .quantum => io 11
  | shift .qset => io 12
  | tellPSize => io 13
  | queryPSize => io 14

/-- The cases of the switch, in its order. -/
def cases : List Command :=
  [reset, set .quantum, tell .quantum, get .quantum, query .quantum, exchange .quantum,
    shift .quantum, set .qset, tell .qset, get .qset, query .qset, exchange .qset, shift .qset,
    tellPSize, queryPSize]

theorem mem_cases (k : Command) : k ∈ cases := by
  rcases k with _ | p | p | p | p | p | p | _ | _ <;> first | decide | (cases p <;> decide)

/-- Every command passes the checks before the switch, and the switch finds it. -/
theorem word_accepted (k : Command) : iocType k.word = 0x6b ∧ iocNr k.word ≤ 14 ∧
    cases.find? (fun l => l.word = k.word) = some k := by
  have h : ∀ k ∈ cases, iocType k.word = 0x6b ∧ iocNr k.word ≤ 14 ∧
    cases.find? (fun l => l.word = k.word) = some k := by decide
  exact h k k.mem_cases

theorem word_inj {k l : Command} (h : k.word = l.word) : k = l := by
  have hk := k.word_accepted.2.2
  rw [h, l.word_accepted.2.2] at hk
  exact (Option.some_inj.mp hk).symm

end Command

/-- The caller of an ioctl and the word of user memory at `arg`: what a load of it gives, if it does
not fault, and whether a store to it goes through. -/
structure Caller where
  capSysAdmin : Bool
  accessOk : Bool
  user : Option Int32
  storeOk : Bool

/-- The return value of the call and what it has stored to user memory. -/
structure Reply where
  retval : Int
  stored : Option Int
  deriving DecidableEq

namespace Reply

def ret (v : Int) : Reply := { retval := v, stored := none }

def error (e : Errno) : Reply := ret (-e.code)

end Reply

namespace Config

/-- `__get_user` of a global: it is 0 after a fault. -/
def getUser (g : Config) (p : Param) (c : Caller) : Bool × Config :=
  match c.user with
  | some v => (true, g.set p v.toInt)
  | none => (false, g.set p 0)

def putUser (v : Int) (c : Caller) : Reply :=
  if c.storeOk then { retval := 0, stored := some v } else .error .efault

def admin (g : Config) (c : Caller) (r : Reply × Config) : Reply × Config :=
  if c.capSysAdmin then r else (.error .eperm, g)

def run (g : Config) (arg : UInt32) (c : Caller) : Command → Reply × Config
  | .reset => (.ret 0, { g with scullQuantum := 4000, scullQset := 1000 })
  | .set p =>
    g.admin c <|
      match g.getUser p c with
      | (true, g) => (.ret 0, g)
      | (false, g) => (.error .efault, g)
  | .tell p => g.admin c (.ret 0, g.set p arg.toInt32.toInt)
  | .get p => (putUser (g.get p) c, g)
  | .query p => (.ret (g.get p), g)
  | .exchange p =>
    g.admin c <|
      match g.getUser p c with
      -- the global is assigned before the old value is known to have been stored; of the two commands
      -- one has put_user for it and the other __put_user, which is the same after access_ok
      | (true, g') => (putUser (g.get p) c, g')
      | (false, g') => (.error .efault, g')
  | .shift p => g.admin c (.ret (g.get p), g.set p arg.toInt32.toInt)
  -- the two commands of the pipe device ask for no capability
  | .tellPSize => (.ret 0, { g with scullPBuffer := arg.toInt32.toInt })
  | .queryPSize => (.ret g.scullPBuffer, g)

/-- `access_ok` is asked only about commands that transfer something. -/
def scullIoctl (g : Config) (cmd arg : UInt32) (c : Caller) : Reply × Config :=
  if iocType cmd ≠ 0x6b then (.error .enotty, g)
  else if iocNr cmd > 14 then (.error .enotty, g)
  else if iocDir cmd ≠ 0 ∧ !c.accessOk then (.error .efault, g)
  else
    match Command.cases.find? fun k => k.word = cmd with
    | none => (.error .enotty, g)
    | some k => g.run arg c k

theorem scullIoctl_word (g : Config) (k : Command) (arg : UInt32) {c : Caller}
    (hok : iocDir k.word ≠ 0 → c.accessOk = true) : g.scullIoctl k.word arg c = g.run arg c k := by
  obtain ⟨htype, hnr, hfind⟩ := k.word_accepted
  rw [scullIoctl, if_neg (not_not.mpr htype), if_neg (UInt32.not_lt.mpr hnr), if_neg, hfind]
  rintro ⟨hdir, haccess⟩
  simp [hok hdir] at haccess

/-- The call is turned away before the switch or runs the command that its word stands for. -/
inductive Handled (g : Config) (cmd arg : UInt32) (c : Caller) : Reply × Config → Prop
  | rejected {e} (he : e = .enotty ∨ e = .efault)
      (hk : ∀ k : Command, cmd = k.word → iocDir cmd ≠ 0 ∧ c.accessOk = false) :
      Handled g cmd arg c (.error e, g)
  | ran {k} (hk : cmd = k.word) (hok : iocDir cmd ≠ 0 → c.accessOk = true) :
      Handled g cmd arg c (g.run arg c k)

theorem scullIoctl_handled (g : Config) (cmd arg : UInt32) (c : Caller) :
    Handled g cmd arg c (g.scullIoctl cmd arg c) := by
  have hword : (iocType cmd ≠ 0x6b ∨ iocNr cmd > 14) → ∀ k : Command, cmd ≠ k.word := by
    rintro hbad k rfl
    obtain ⟨htype, hnr, -⟩ := k.word_accepted
    rcases hbad with h | h
    · exact h htype
    · exact UInt32.not_lt.mpr hnr h
  rw [scullIoctl]
  split_ifs with htype hnr hdir
  · exact .rejected (Or.inl rfl) fun k hk => absurd hk (hword (Or.inl htype) k)
  · exact .rejected (Or.inl rfl) fun k hk => absurd hk (hword (Or.inr hnr) k)
  · exact .rejected (Or.inr rfl) fun _ _ => ⟨hdir.1, by simpa using hdir.2⟩
  · have hok : iocDir cmd ≠ 0 → c.accessOk = true := by simpa using hdir
    cases hfind : Command.cases.find? fun k => k.word = cmd with
    | none =>
      refine .rejected (Or.inl rfl) fun k hk => ?_
      rw [hk, k.word_accepted.2.2] at hfind
      cases hfind
    | some k =>
      have hk : k.word = cmd := by simpa using List.find?_some hfind
      exact .ran hk.symm hok

end Config

/-! The effect of a command on the geometry of a driver. -/

namespace Driver

variable {β : Type*}

def config (d : Driver β) (scullPBuffer : Int) : Config :=
  { scullQuantum := d.scullQuantum, scullQset := d.scullQset, scullPBuffer }

def withConfig (d : Driver β) (g : Config) : Driver β :=
  { d with scullQuantum := g.scullQuantum, scullQset := g.scullQset }

theorem withConfig_set (d : Driver β) (b : Int) (p : Param) (arg : UInt32) :
    ∃ cmd, d.withConfig ((d.config b).set p arg.toInt32.toInt) = d.ioctl cmd := by
  cases p with
  | quantum => exact ⟨.tellQuantum arg, rfl⟩
  | qset => exact ⟨.tellQset arg, rfl⟩

theorem withConfig_getUser (d : Driver β) (b : Int) (p : Param) (c : Caller) :
    ∃ cmd, d.withConfig ((d.config b).getUser p c).2 = d.ioctl cmd := by
  rw [Config.getUser]
  cases c.user with
  | none => exact d.withConfig_set b p 0
  | some v =>
    obtain ⟨cmd, hcmd⟩ := d.withConfig_set b p v.toUInt32
    rw [Int32.toInt32_toUInt32] at hcmd
    exact ⟨cmd, hcmd⟩

theorem withConfig_admin (d : Driver β) {b : Int} {c : Caller} {r : Reply × Config}
    (h : ∃ cmd, d.withConfig r.2 = d.ioctl cmd) :
    d.withConfig ((d.config b).admin c r).2 = d ∨
      ∃ cmd, d.withConfig ((d.config b).admin c r).2 = d.ioctl cmd := by
  rw [Config.admin]
  split_ifs
  · exact .inr h
  · exact .inl rfl

/-- A command leaves the geometry globals alone or changes them as a reset or a Tell does. -/
theorem withConfig_scullIoctl (d : Driver β) (b : Int) (cmd arg : UInt32) (c : Caller) :
    d.withConfig ((d.config b).scullIoctl cmd arg c).2 = d ∨
      ∃ i, d.withConfig ((d.config b).scullIoctl cmd arg c).2 = d.ioctl i := by
  have hhandled := (d.config b).scullIoctl_handled cmd arg c
  generalize (d.config b).scullIoctl cmd arg c = r at hhandled ⊢
  cases hhandled with
  | rejected => exact .inl rfl
  | @ran k =>
    cases k with
    | reset => exact .inr ⟨.reset, rfl⟩
    | set p =>
      apply d.withConfig_admin
      obtain ⟨i, hi⟩ := d.withConfig_getUser b p c
      refine ⟨i, ?_⟩
      rw [← hi]
      split <;> rename_i h <;> rw [h]
    | tell p => exact d.withConfig_admin (d.withConfig_set b p arg)
    | get p => exact .inl rfl
    | query p => exact .inl rfl
    | exchange p =>
      apply d.withConfig_admin
      obtain ⟨i, hi⟩ := d.withConfig_getUser b p c
      refine ⟨i, ?_⟩
      rw [← hi]
      split <;> rename_i h <;> rw [h]
    | shift p => exact d.withConfig_admin (d.withConfig_set b p arg)
    | tellPSize => exact .inl rfl
    | queryPSize => exact .inl rfl

end Driver
end KernelExperiment.Scull
