import Mathlib.Data.List.Basic

/-! A room that its first guest takes in his name. While it is taken, others are let in by that
name only; when all have left, the next guest gives it a new one. -/

namespace KernelExperiment.Tenancy

variable {C U : Type*}

/-- The name of a guest, and whom a name lets in: at least whoever bears it. -/
structure Policy (C U : Type*) where
  name : C → U
  admits : U → C → Prop
  admits_name : ∀ c, admits (name c) c

structure Room (C U : Type*) where
  guests : List C
  owner : U

namespace Room

variable {π : Policy C U} {r : Room C U} {c : C}

def MayEnter (π : Policy C U) (r : Room C U) (c : C) : Prop := r.guests = [] ∨ π.admits r.owner c

def enter (π : Policy C U) (r : Room C U) (c : C) : Room C U :=
  { guests := c :: r.guests, owner := if r.guests.isEmpty then π.name c else r.owner }

def leave (r : Room C U) (i : ℕ) : Room C U := { r with guests := r.guests.eraseIdx i }

/-- Everybody inside has been let in by the name that the room has now. -/
def Sound (π : Policy C U) (r : Room C U) : Prop := ∀ c ∈ r.guests, π.admits r.owner c

theorem owner_enter (h : r.guests ≠ []) : (r.enter π c).owner = r.owner := by
  rw [enter]
  dsimp only
  rw [if_neg]
  rwa [List.isEmpty_iff]

theorem Sound.enter (h : r.Sound π) (hc : r.MayEnter π c) : (r.enter π c).Sound π := by
  by_cases hempty : r.guests = []
  · intro d hd
    have hdc : d = c := by simpa [Room.enter, hempty] using hd
    have howner : (r.enter π c).owner = π.name c := by simp [Room.enter, hempty]
    rw [howner, hdc]
    exact π.admits_name c
  · intro d hd
    rw [owner_enter hempty]
    rcases List.mem_cons.mp hd with rfl | hd
    · exact hc.resolve_left hempty
    · exact h d hd

theorem Sound.leave (h : r.Sound π) (i : ℕ) : (r.leave i).Sound π :=
  fun c hc => h c (List.mem_of_mem_eraseIdx hc)

end Room
end KernelExperiment.Tenancy
