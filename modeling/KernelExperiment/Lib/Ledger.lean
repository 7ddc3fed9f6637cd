import Mathlib.Data.List.Nodup

/-! The books of an allocator's customer. Its requests are numbered, and a block goes by the number
of the request that got it. Every block got is either held or has been given back, and that once. -/

namespace KernelExperiment.Ledger

variable {got : ℕ → Bool} {k b : ℕ} {held held' returned gone : List ℕ}

/-- The blocks held and those given back are together the ones that the first `k` requests got. -/
def Balanced (got : ℕ → Bool) (k : ℕ) (held returned : List ℕ) : Prop :=
  (held ++ returned).Perm ((List.range k).filter got)

theorem balanced_zero (got : ℕ → Bool) : Balanced got 0 [] [] := List.Perm.refl []

theorem filter_range_succ (got : ℕ → Bool) (k : ℕ) :
    (List.range (k + 1)).filter got = (List.range k).filter got ++ if got k then [k] else [] := by
  rw [List.range_succ, List.filter_append, List.filter_singleton, Bool.cond_eq_ite]

namespace Balanced

theorem congr (h : Balanced got k held returned) (hp : held'.Perm held) :
    Balanced got k held' returned := (hp.append_right returned).trans h

/-- A request that fails. -/
theorem missed (h : Balanced got k held returned) (hk : got k = false) :
    Balanced got (k + 1) held returned := by
  unfold Balanced
  rw [filter_range_succ, hk, if_neg Bool.false_ne_true, List.append_nil]
  exact h

/-- A request that gets a block. -/
theorem gained (h : Balanced got k held returned) (hk : got k = true) :
    Balanced got (k + 1) (k :: held) returned := by
  unfold Balanced
  rw [filter_range_succ, hk, if_pos rfl, List.cons_append]
  exact (List.Perm.cons k h).trans (List.perm_append_singleton k _).symm

theorem release (h : Balanced got k (gone ++ held) returned) :
    Balanced got k held (returned ++ gone) := by
  unfold Balanced at h ⊢
  refine List.Perm.trans ?_ h
  rw [← List.append_assoc, List.append_assoc gone]
  exact List.perm_append_comm

theorem nodup (h : Balanced got k held returned) : (held ++ returned).Nodup :=
  h.nodup_iff.mpr (List.nodup_range.filter got)

/-- What is held has been got and not been given back. -/
theorem mem_held_iff (h : Balanced got k held returned) :
    b ∈ held ↔ b < k ∧ got b = true ∧ b ∉ returned := by
  have hmem := h.mem_iff (a := b)
  rw [List.mem_append, List.mem_filter, List.mem_range] at hmem
  constructor
  · intro hb
    obtain ⟨hk, hgot⟩ := hmem.mp (Or.inl hb)
    exact ⟨hk, hgot, (List.nodup_append'.mp h.nodup).2.2 hb⟩
  · rintro ⟨hk, hgot, hb⟩
    exact (hmem.mpr ⟨hk, hgot⟩).resolve_right hb

end Balanced
end KernelExperiment.Ledger
