import Mathlib.Data.List.Basic
import Mathlib.Logic.Function.Basic

/-! The numbers of the character devices. Drivers register ranges of them that do not overlap and
make devices known under the numbers in their ranges. -/

namespace KernelExperiment.Kernel

variable {D : Type*}

structure Chrdevs (D : Type*) where
  regions : List (ℕ × ℕ)
  cdevs : ℕ → Option D

namespace Chrdevs

/-- No number of the range is registered. -/
def Free (c : Chrdevs D) (first count : ℕ) : Prop :=
  ∀ r ∈ c.regions, r.1 + r.2 ≤ first ∨ first + count ≤ r.1

instance (c : Chrdevs D) (first count : ℕ) : Decidable (c.Free first count) :=
  inferInstanceAs (Decidable (∀ r ∈ c.regions, _))

/-- `register_chrdev_region`, which may fail for other reasons, too. -/
def register (c : Chrdevs D) (ok : Bool) (first count : ℕ) : Option (Chrdevs D) :=
  if ok = true ∧ c.Free first count then some { c with regions := (first, count) :: c.regions }
  else none

def unregister (c : Chrdevs D) (first count : ℕ) : Chrdevs D :=
  { c with regions := c.regions.erase (first, count) }

/-- `cdev_add`, which may fail. -/
def add (c : Chrdevs D) (ok : Bool) (devno : ℕ) (d : D) : Chrdevs D :=
  if ok then { c with cdevs := Function.update c.cdevs devno (some d) } else c

/-- `cdev_del`, of a device that is not known under its number if its `cdev_add` has failed. -/
def del [DecidableEq D] (c : Chrdevs D) (devno : ℕ) (d : D) : Chrdevs D :=
  if c.cdevs devno = some d then { c with cdevs := Function.update c.cdevs devno none } else c

/-- `cdev_del` of one device after the other. -/
def delAll [DecidableEq D] (c : Chrdevs D) (first : ℕ) (dev : ℕ → D) : ℕ → Chrdevs D
  | 0 => c
  | n + 1 => (c.delAll first dev n).del (first + n) (dev n)

/-- Nothing is known under a number that nobody has registered. -/
def Kept (c : Chrdevs D) : Prop :=
  ∀ m, (∀ r ∈ c.regions, m < r.1 ∨ r.1 + r.2 ≤ m) → c.cdevs m = none

/-- One driver more with its range and with some of its first `k` devices. -/
structure Extends (c₀ : Chrdevs D) (first count : ℕ) (dev : ℕ → D) (k : ℕ) (c : Chrdevs D) :
    Prop where
  free : c₀.Free first count
  regions : c.regions = (first, count) :: c₀.regions
  inside : ∀ i < count, c.cdevs (first + i) = none ∨ i < k ∧ c.cdevs (first + i) = some (dev i)
  outside : ∀ m, (∀ i < count, m ≠ first + i) → c.cdevs m = c₀.cdevs m

variable {c c₀ c₁ : Chrdevs D} {first count first' count' k k' n m : ℕ} {dev dev' : ℕ → D}
  {ok : Bool} {d : D}

theorem unregister_register (h : c₀.register ok first count = some c) :
    c.unregister first count = c₀ := by
  unfold register at h
  split_ifs at h
  cases h
  unfold unregister
  rw [List.erase_cons_head]

theorem Kept.none_of_free (hk : c.Kept) (hf : c.Free first count) {i : ℕ} (hi : i < count) :
    c.cdevs (first + i) = none := by
  refine hk _ fun r hr => ?_
  rcases hf r hr with h | h
  · exact .inr (by omega)
  · exact .inl (by omega)

namespace Extends

theorem register (hk : c₀.Kept) (h : c₀.register ok first count = some c) (dev : ℕ → D) :
    Extends c₀ first count dev 0 c := by
  unfold Chrdevs.register at h
  split_ifs at h with hok
  cases h
  exact ⟨hok.2, rfl, fun i hi => .inl (hk.none_of_free hok.2 hi), fun m _ => rfl⟩

theorem add (h : Extends c₀ first count dev k c) (ok : Bool) (hlt : k < count) :
    Extends c₀ first count dev (k + 1) (c.add ok (first + k) (dev k)) := by
  have hlater {i : ℕ} (hi : i < count) : c.cdevs (first + i) = none ∨
      i < k + 1 ∧ c.cdevs (first + i) = some (dev i) :=
    (h.inside i hi).imp_right fun hin => ⟨Nat.lt_succ_of_lt hin.1, hin.2⟩
  unfold Chrdevs.add
  split_ifs
  · refine ⟨h.free, h.regions, fun i hi => ?_, fun m hm => ?_⟩
    · rcases eq_or_ne i k with rfl | hne
      · exact .inr ⟨Nat.lt_succ_self i, Function.update_self ..⟩
      · show Function.update _ _ _ _ = _ ∨ _ ∧ Function.update _ _ _ _ = _
        rw [Function.update_of_ne (by omega)]
        exact hlater hi
    · show Function.update _ _ _ _ = _
      rw [Function.update_of_ne (hm k hlt)]
      exact h.outside m hm
  · exact ⟨h.free, h.regions, fun i => hlater, h.outside⟩

theorem kept (h : Extends c₀ first count dev k c) (hk : c₀.Kept) : c.Kept := by
  intro m hm
  rw [h.regions] at hm
  obtain ⟨hrange, hrest⟩ := List.forall_mem_cons.mp hm
  rw [h.outside m fun i hi => by omega]
  exact hk m hrest

end Extends

variable [DecidableEq D]

theorem del_cdevs_of_ne (h : m ≠ n) : (c.del n d).cdevs m = c.cdevs m := by
  unfold del
  split_ifs
  · exact Function.update_of_ne h _ _
  · rfl

theorem del_cdevs_self (h : c.cdevs n = none ∨ c.cdevs n = some d) : (c.del n d).cdevs n = none := by
  unfold del
  split_ifs with hd
  · exact Function.update_self ..
  · exact h.resolve_right hd

theorem delAll_regions (n : ℕ) : (c.delAll first dev n).regions = c.regions := by
  induction n with
  | zero => rfl
  | succ n ih =>
    rw [delAll, del]
    split_ifs
    · exact ih
    · exact ih

theorem delAll_cdevs_of_ne (h : ∀ i < n, m ≠ first + i) :
    (c.delAll first dev n).cdevs m = c.cdevs m := by
  induction n with
  | zero => rfl
  | succ n ih =>
    rw [delAll, del_cdevs_of_ne (h n (Nat.lt_succ_self n))]
    exact ih fun i hi => h i (Nat.lt_succ_of_lt hi)

theorem delAll_cdevs_inside {i : ℕ} (hi : i < n)
    (h : c.cdevs (first + i) = none ∨ c.cdevs (first + i) = some (dev i)) :
    (c.delAll first dev n).cdevs (first + i) = none := by
  induction n with
  | zero => exact absurd hi (Nat.not_lt_zero i)
  | succ n ih =>
    rw [delAll]
    rcases Nat.lt_succ_iff_lt_or_eq.mp hi with hlt | rfl
    · rw [del_cdevs_of_ne (by omega)]
      exact ih hlt
    · apply del_cdevs_self
      rwa [delAll_cdevs_of_ne fun j hj => by omega]

namespace Extends

/-- The driver takes back all that it has made known. -/
theorem restored (h : Extends c₀ first count dev k c) (hk : c₀.Kept) :
    (c.delAll first dev count).unregister first count = c₀ := by
  have hcdevs : (c.delAll first dev count).cdevs = c₀.cdevs := by
    funext m
    by_cases hm : ∃ i < count, m = first + i
    · obtain ⟨i, hi, rfl⟩ := hm
      rw [delAll_cdevs_inside hi ((h.inside i hi).imp_right And.right),
        hk.none_of_free h.free hi]
    · rw [not_exists] at hm
      have hne : ∀ i < count, m ≠ first + i := fun i hi he => hm i ⟨hi, he⟩
      rw [delAll_cdevs_of_ne hne, h.outside m hne]
  have hregions : (c.delAll first dev count).regions.erase (first, count) = c₀.regions := by
    rw [delAll_regions, h.regions, List.erase_cons_head]
  unfold unregister
  rw [hcdevs, hregions]

/-- It may do so while a driver that came later stays. -/
theorem restored_below (h : Extends c₀ first count dev k c₁)
    (h' : Extends c₁ first' count' dev' k' c) (hk : c₀.Kept) (hpos : 0 < count) :
    Extends c₀ first' count' dev' k' ((c.delAll first dev count).unregister first count) := by
  have hfree := h'.free
  unfold Free at hfree
  rw [h.regions] at hfree
  obtain ⟨hrange, hfree₀⟩ := List.forall_mem_cons.mp hfree
  have hapart {i j : ℕ} (hi : i < count') (hj : j < count) : first' + i ≠ first + j := by
    rcases hrange with hr | hr
    · simp only at hr
      omega
    · simp only at hr
      omega
  refine ⟨hfree₀, ?_, fun i hi => ?_, fun m hm => ?_⟩
  · show (c.delAll first dev count).regions.erase (first, count) = _
    have hne : (first', count') ≠ (first, count) := by
      rintro he
      cases he
      rcases hrange with hr | hr
      · simp only at hr
        omega
      · simp only at hr
        omega
    rw [delAll_regions, h'.regions, h.regions, List.erase_cons_tail (by simpa using hne),
      List.erase_cons_head]
  · show (c.delAll first dev count).cdevs _ = _ ∨ _ ∧ (c.delAll first dev count).cdevs _ = _
    rw [delAll_cdevs_of_ne fun j hj => hapart hi hj]
    exact h'.inside i hi
  · show (c.delAll first dev count).cdevs m = _
    have houter := h'.outside m hm
    by_cases hin : ∃ i < count, m = first + i
    · obtain ⟨i, hi, rfl⟩ := hin
      rw [hk.none_of_free h.free hi]
      refine delAll_cdevs_inside hi ?_
      rw [houter]
      exact (h.inside i hi).imp_right And.right
    · rw [not_exists] at hin
      have hne : ∀ i < count, m ≠ first + i := fun i hi he => hin i ⟨hi, he⟩
      rw [delAll_cdevs_of_ne hne, houter, h.outside m hne]

end Extends
end Chrdevs
end KernelExperiment.Kernel
