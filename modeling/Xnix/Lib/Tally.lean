import Mathlib.Algebra.BigOperators.Group.Finset.Piecewise
import Mathlib.Algebra.Order.BigOperators.Group.Finset
import Mathlib.Data.Fintype.BigOperators

/-!
# Tallies

Counts over a finite family of lists, and how they move when one list, or one place of one list,
is overwritten. Every lemma is an equation between sums of naturals, so `omega` can use it.
-/

namespace Lib

open Function

section Sum
variable {ι β : Type*} [Fintype ι]

theorem single_le_sum_weight (t : ι → β) (g : β → ℕ) (i : ι) : g (t i) ≤ ∑ j, g (t j) :=
  Finset.single_le_sum (f := fun j => g (t j)) (fun _ _ => Nat.zero_le _) (Finset.mem_univ i)

variable [DecidableEq ι]

theorem sum_update_add (f : ι → ℕ) (i : ι) (b : ℕ) :
    (∑ j, update f i b j) + f i = (∑ j, f j) + b := by
  rw [Finset.sum_update_of_mem (Finset.mem_univ i), ← Finset.add_sum_erase _ _ (Finset.mem_univ i),
    Finset.sdiff_singleton_eq_erase]
  omega

/-- Overwriting one member of a family moves the sum of a weight by that member's weight. -/
theorem sum_weight_update (t : ι → β) (g : β → ℕ) (i : ι) (v : β) :
    (∑ j, g (update t i v j)) + g (t i) = (∑ j, g (t j)) + g v := by
  have h : ∀ j, g (update t i v j) = update (fun j => g (t j)) i (g v) j := by
    intro j
    by_cases hj : j = i
    · subst hj; simp
    · simp [hj]
  simp only [h]
  exact sum_update_add (fun j => g (t j)) i (g v)

end Sum

section Count
variable {β : Type*} (p : β → Bool)

/-- Overwriting one place of a list moves its count by that place's share. -/
theorem countP_set_add (l : List β) (i : ℕ) (a b : β) (h : l[i]? = some b) :
    (l.set i a).countP p + (if p b then 1 else 0) = l.countP p + (if p a then 1 else 0) := by
  obtain ⟨hi, hb⟩ := List.getElem?_eq_some_iff.mp h
  have hpos : p b = true → 0 < l.countP p :=
    fun hp => List.countP_pos_iff.mpr ⟨b, List.mem_of_getElem? h, hp⟩
  rw [List.countP_set hi, hb]
  rcases hp : p b with _ | _
  · simp
  · have := hpos hp
    simp only [if_true]
    omega

theorem countP_set_le (l : List β) (i : ℕ) (a : β) (h : p a = false) :
    (l.set i a).countP p ≤ l.countP p := by
  rcases hi : l[i]? with _ | b
  · rw [List.set_eq_of_length_le (List.getElem?_eq_none_iff.mp hi)]
  · have hset := countP_set_add p l i a b hi
    rw [h, if_neg Bool.false_ne_true] at hset
    omega

theorem countP_append_replicate (l : List β) (n : ℕ) (a : β) (h : p a = false) :
    (l ++ List.replicate n a).countP p = l.countP p := by
  simp [List.countP_append, List.countP_replicate, h]

end Count

end Lib
