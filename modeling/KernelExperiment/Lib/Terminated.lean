import KernelExperiment.Lib.Region

/-! Strings in a block of memory cells, up to the first cell that is zero. -/

namespace KernelExperiment.Terminated
open Region

variable {α : Type*} [DecidableEq α] [Zero α] {mem bs cs : List α} {off : ℕ}

/-- The string at the front of a block; there is none if it does not end inside. -/
def text (mem : List α) : Option (List α) :=
  if (0 : α) ∈ mem then some (mem.takeWhile fun b => decide (b ≠ 0)) else none

theorem text_eq_some_of_mem (h : (0 : α) ∈ mem) :
    text mem = some (mem.takeWhile fun b => decide (b ≠ 0)) := if_pos h

theorem text_append_zero (h : ∀ b ∈ bs, b ≠ 0) (cs : List α) :
    text (bs ++ 0 :: cs) = some bs := by
  have hbs : ∀ b ∈ bs, decide (b ≠ 0) = true := fun b hb => decide_eq_true (h b hb)
  rw [text_eq_some_of_mem (List.mem_append_right bs (List.mem_cons_self ..)),
    List.takeWhile_append_of_pos hbs, List.takeWhile_cons_of_neg (by simp), List.append_nil]

omit [DecidableEq α] in
theorem zero_mem_splice (h : (0 : α) ∈ bs) : (0 : α) ∈ splice mem off bs :=
  List.mem_append_left _ (List.mem_append_right _ h)

end KernelExperiment.Terminated
