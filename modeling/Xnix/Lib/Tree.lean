import Mathlib.Data.Fintype.BigOperators

/-!
# Trees given by a child relation

`child p c` says that `c` is a child of `p`. Where every element has one parent at most and the root
has none, an element that is reached from the root is reached in one way and lies on no cycle. What
is reached stays reached when a leaf is added or taken away, and when an element moves to a parent
that is not below it.
-/

namespace Lib

open Relation

variable {ι : Type*} {child child' : ι → ι → Prop} {r n p q m : ι}

/-- The way from `r` down to an element, the elements after `r` with the last one first. -/
inductive Trail (child : ι → ι → Prop) (r : ι) : List ι → ι → Prop
  | root : Trail child r [] r
  | down {l : List ι} {p c : ι} : Trail child r l p → child p c → Trail child r (c :: l) c

theorem exists_trail (h : ReflTransGen child r n) : ∃ l, Trail child r l n := by
  induction h with
  | refl => exact ⟨[], .root⟩
  | tail _ hc ih =>
    obtain ⟨l, hl⟩ := ih
    exact ⟨_, hl.down hc⟩

theorem Trail.reached {l : List ι} (h : Trail child r l n) : ReflTransGen child r n := by
  induction h with
  | root => exact .refl
  | down _ hc ih => exact ih.tail hc

section OneParent
variable (hone : ∀ p q c, child p c → child q c → p = q) (hroot : ∀ p, ¬ child p r)
include hone hroot

theorem Trail.unique {l l' : List ι} (h : Trail child r l n) (h' : Trail child r l' n) :
    l = l' := by
  induction h generalizing l' with
  | root =>
    cases h' with
    | root => rfl
    | down _ hc => exact absurd hc (hroot _)
  | down _ hc ih =>
    cases h' with
    | root => exact absurd hc (hroot _)
    | down h' hc' =>
      obtain rfl := hone _ _ _ hc hc'
      rw [ih h']

theorem existsUnique_trail (h : ReflTransGen child r n) : ∃! l, Trail child r l n := by
  obtain ⟨l, hl⟩ := exists_trail h
  exact ⟨l, hl, fun _ hl' => hl'.unique hone hroot hl⟩

/-- A cycle through an element goes through its parent, and so up to the root. -/
theorem acyclic_of_reached (h : ReflTransGen child r n) : ¬ TransGen child n n := by
  induction h with
  | refl =>
    intro hcyc
    obtain ⟨p, -, hp⟩ := TransGen.tail'_iff.mp hcyc
    exact hroot p hp
  | tail _ hc ih =>
    intro hcyc
    obtain ⟨p, hcp, hp⟩ := TransGen.tail'_iff.mp hcyc
    obtain rfl := hone _ _ _ hc hp
    exact ih (TransGen.head' hc hcp)

end OneParent

variable (hkeep : ∀ a b, child a b → b ≠ n → child' a b)
include hkeep

/-- What is reached and not below `n` is reached without the step into `n`. -/
theorem reached_of_not_below (h : ReflTransGen child r m) :
    ¬ ReflTransGen child n m → ReflTransGen child' r m := by
  induction h with
  | refl => exact fun _ => .refl
  | @tail b c _ hc ih =>
    intro hnot
    have hne : c ≠ n := fun heq => hnot (heq ▸ .refl)
    exact (ih fun h => hnot (h.tail hc)).tail (hkeep _ _ hc hne)

theorem reached_of_leaf (hleaf : ∀ c, ¬ child n c) (hne : m ≠ n) (h : ReflTransGen child r m) :
    ReflTransGen child' r m := by
  refine reached_of_not_below hkeep h fun hbelow => ?_
  rcases ReflTransGen.cases_head hbelow with heq | ⟨c, hc, -⟩
  · exact hne heq.symm
  · exact hleaf c hc

theorem reached_of_move (hnew : child' q n) (hq : ReflTransGen child r q)
    (hnot : ¬ ReflTransGen child n q) (h : ReflTransGen child r m) : ReflTransGen child' r m := by
  by_cases hbelow : ReflTransGen child n m
  · have hn : ReflTransGen child' r n := (reached_of_not_below hkeep hq hnot).tail hnew
    clear h
    induction hbelow with
    | refl => exact hn
    | @tail b c _ hc ih =>
      by_cases hcn : c = n
      · rw [hcn]
        exact hn
      · exact ih.tail (hkeep _ _ hc hcn)
  · exact reached_of_not_below hkeep h hbelow

end Lib
