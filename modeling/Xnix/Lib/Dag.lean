import Mathlib.Data.Fintype.BigOperators

/-!
# Acyclic relations

`r i j` says that `i` needs `j`. A chain below `i` goes from each element to one that it needs; the
height of `i` is the length of the longest one. An order of the elements in which each one comes
after those that it needs is built by adding, at the end, elements whose needs are met.
-/

namespace Lib

open Relation List

variable {α : Type*} {r : α → α → Prop} {i j : α} {l : List α} {s : α → Prop}

def Acyclic (r : α → α → Prop) : Prop := ∀ i, ¬ TransGen r i i

/-- `n` is the length of the longest chain below `i`. -/
def IsHeight (r : α → α → Prop) (i : α) (n : ℕ) : Prop :=
  IsGreatest {n | ∃ l, List.IsChain r (i :: l) ∧ l.length = n} n

/-- What an element of the set needs is in the set. -/
def Closed (r : α → α → Prop) (s : α → Prop) : Prop := ∀ i j, s i → r i j → s j

theorem Closed.of_reflTransGen (h : Closed r s) (hij : ReflTransGen r i j) (hi : s i) : s j := by
  induction hij with
  | refl => exact hi
  | tail _ hstep ih => exact h _ _ ih hstep

/-- An element outside of a closed set that needs only elements of the set is on no cycle. -/
theorem Closed.not_transGen (h : Closed r s) (hi : ¬ s i) (hneeds : ∀ j, r i j → s j) :
    ¬ TransGen r i i := by
  intro hcyc
  obtain ⟨j, hij, hji⟩ := TransGen.head'_iff.mp hcyc
  exact hi (h.of_reflTransGen hji (hneeds j hij))

theorem reflTransGen_getLast (h : IsChain r (i :: l)) :
    ReflTransGen r i ((i :: l).getLast (cons_ne_nil i l)) := by
  induction l generalizing i with
  | nil => exact .refl
  | cons j l ih =>
    obtain ⟨hij, hl⟩ := isChain_cons_cons.mp h
    exact (ih hl).head hij

/-- A chain whose last element needs one of its elements closes a cycle. -/
theorem transGen_of_chain (h : IsChain r l) (hi : i ∈ l) (hlast : ∀ p ∈ l.getLast?, r p i) :
    TransGen r i i := by
  obtain ⟨l₁, l₂, rfl⟩ := append_of_mem hi
  have hchain : IsChain r (i :: l₂) := (isChain_append.mp h).2.1
  refine TransGen.tail'_iff.mpr ⟨_, reflTransGen_getLast hchain, hlast _ ?_⟩
  rw [getLast?_append_of_ne_nil _ (cons_ne_nil i l₂)]
  exact getLast?_eq_some_getLast _

theorem Acyclic.exists_sink (h : Acyclic r) (s : Finset α) (hs : s.Nonempty) :
    ∃ i ∈ s, ∀ j ∈ s, ¬ r i j := by
  by_contra hno
  push Not at hno
  have hwf : WellFounded fun a b : s => TransGen r b a := by
    have : Std.Irrefl fun a b : s => TransGen r b a := ⟨fun a ha => h a ha⟩
    exact Finite.wellFounded_of_trans_of_irrefl _
  obtain ⟨i, hi⟩ := hs
  obtain ⟨m, -, hm⟩ := hwf.has_min Set.univ ⟨⟨i, hi⟩, trivial⟩
  obtain ⟨j, hj, hmj⟩ := hno m m.2
  exact hm ⟨j, hj⟩ trivial (.single hmj)

section Levels

variable {level : α → ℕ} (hs : Closed r s) (hlt : ∀ i j, s i → r i j → level j < level i)
include hs hlt

theorem length_le_level : ∀ {i}, s i → IsChain r (i :: l) → l.length ≤ level i := by
  induction l with
  | nil => exact fun _ _ => Nat.zero_le _
  | cons j l ih =>
    intro i hi h
    obtain ⟨hij, hl⟩ := isChain_cons_cons.mp h
    have := ih (hs i j hi hij) hl
    have := hlt i j hi hij
    rw [length_cons]
    omega

/-- Levels that fall along the relation, by one along some step, are the heights. -/
theorem isHeight_level (hstep : ∀ i, s i → level i ≠ 0 → ∃ j, r i j ∧ level i = level j + 1)
    (hi : s i) : IsHeight r i (level i) := by
  refine ⟨?_, ?_⟩
  · induction hn : level i generalizing i with
    | zero => exact ⟨[], isChain_singleton i, rfl⟩
    | succ n ih =>
      obtain ⟨j, hij, hlevel⟩ := hstep i hi (by omega)
      obtain ⟨l, hl, hlen⟩ := ih (hs i j hi hij) (by omega)
      exact ⟨j :: l, isChain_cons_cons.mpr ⟨hij, hl⟩, by rw [length_cons, hlen]⟩
  · rintro n ⟨l, hl, rfl⟩
    exact length_le_level hs hlt hi hl

end Levels

section Orders

variable {needs : α → List α} {l l₁ l₂ : List α}

/-- Each element comes after those that it needs. -/
def InOrder (needs : α → List α) (l : List α) : Prop :=
  ∀ l₁ i l₂, l = l₁ ++ i :: l₂ → ∀ j ∈ needs i, j ∈ l₁

theorem InOrder.concat (h : InOrder needs l) (hi : ∀ j ∈ needs i, j ∈ l) :
    InOrder needs (l ++ [i]) := by
  intro l₁ k l₂ heq j hj
  rcases eq_nil_or_concat l₂ with rfl | ⟨l3, x, rfl⟩
  · obtain ⟨rfl, hki⟩ := append_inj' heq rfl
    rw [singleton_inj] at hki
    exact hi j (hki ▸ hj)
  · have hinit : l = l₁ ++ k :: l3 := by
      have : l ++ [i] = (l₁ ++ k :: l3) ++ [x] := by simpa using heq
      exact (append_inj' this rfl).1
    exact h l₁ k l3 hinit j hj

end Orders

end Lib
