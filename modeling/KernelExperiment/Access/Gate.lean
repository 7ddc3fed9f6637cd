import KernelExperiment.Kernel.Abi
import KernelExperiment.Lib.Tenancy

/-! The count and the owner of the devices that are open to one user at a time, and the sections under
their spin lock. -/

namespace KernelExperiment.Access
open Kernel Tenancy

/-- What the open functions look at of `current`. -/
structure Cred where
  uid : ℕ
  euid : ℕ
  dacOverride : Bool
  deriving DecidableEq, Repr

/-- `scull_u_count` and `scull_u_owner`, or `scull_w_count` and `scull_w_owner`. There is memory for
fewer open files than an `int` can count. -/
structure Gate where
  count : Int
  owner : ℕ
  deriving DecidableEq, Repr

namespace Gate

def initial : Gate := { count := 0, owner := 0 }

/-- The test in `scull_u_open`. -/
def Busy (g : Gate) (c : Cred) : Prop :=
  g.count ≠ 0 ∧ g.owner ≠ c.uid ∧ g.owner ≠ c.euid ∧ c.dacOverride = false

/-- `scull_w_available`. -/
def Available (g : Gate) (c : Cred) : Prop :=
  g.count = 0 ∨ g.owner = c.uid ∨ g.owner = c.euid ∨ c.dacOverride = true

instance (g : Gate) (c : Cred) : Decidable (g.Busy c) :=
  inferInstanceAs (Decidable (_ ∧ _ ∧ _ ∧ _))

instance (g : Gate) (c : Cred) : Decidable (g.Available c) :=
  inferInstanceAs (Decidable (_ ∨ _ ∨ _ ∨ _))

/-- The rest of the section of an open that goes through. -/
def enter (g : Gate) (c : Cred) : Gate :=
  { count := g.count + 1, owner := if g.count = 0 then c.uid else g.owner }

/-- The section of a release. -/
def leave (g : Gate) : Gate := { g with count := g.count - 1 }

variable {g : Gate} {c : Cred}

theorem not_busy_iff : ¬g.Busy c ↔ g.Available c := by
  unfold Busy Available
  cases c.dacOverride <;> simp only [not_and_or, not_not, Bool.true_eq_false, not_false_eq_true,
    not_true_eq_false, Bool.false_eq_true]

end Gate

/-- A process is let in by its user id, by its effective one, or with the capability to override. -/
def users : Policy Cred ℕ where
  name := Cred.uid
  admits owner c := owner = c.uid ∨ owner = c.euid ∨ c.dacOverride = true
  admits_name _ := Or.inl rfl

/-- The gate with the files that are open behind it. -/
def room (g : Gate) (files : List Cred) : Room Cred ℕ := { guests := files, owner := g.owner }

section
variable {g : Gate} {c : Cred} {files : List Cred}

theorem count_eq_zero_iff (h : g.count = files.length) : g.count = 0 ↔ files = [] := by
  rw [h, Int.natCast_eq_zero, List.length_eq_zero_iff]

theorem available_iff (h : g.count = files.length) :
    g.Available c ↔ (room g files).MayEnter users c := by
  unfold Gate.Available
  rw [count_eq_zero_iff h]
  rfl

theorem room_enter (h : g.count = files.length) :
    room (g.enter c) (c :: files) = (room g files).enter users c := by
  unfold room Room.enter Gate.enter
  dsimp only
  congr 1
  by_cases hzero : g.count = 0
  · rw [if_pos hzero, if_pos (List.isEmpty_iff.mpr ((count_eq_zero_iff h).mp hzero))]
    rfl
  · rw [if_neg hzero, if_neg]
    rwa [List.isEmpty_iff, ← count_eq_zero_iff h]

theorem room_leave (g : Gate) (files : List Cred) (i : ℕ) :
    room g.leave (files.eraseIdx i) = (room g files).leave i := rfl

end
end KernelExperiment.Access
