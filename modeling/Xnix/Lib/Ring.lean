import Mathlib.Data.Int.ModEq
import Mathlib.Data.Fintype.BigOperators

/-!
# Ring buffers

A buffer of `N` cells with a head and a tail that run round it. `Carries` relates a ring to the list
of all the elements that were ever put in and the number of those taken out: as long as the elements
in between are fewer than `N`, they are in the cells from the head to the tail, in order.
-/

namespace Lib

open Function

variable {α : Type*} {N : ℕ}

structure Ring (α : Type*) where
  buf : ℕ → α
  head : ℕ
  tail : ℕ

def Ring.front (r : Ring α) : α := r.buf r.head

def Ring.advance (N : ℕ) (r : Ring α) : Ring α := { r with head := (r.head + 1) % N }

/-- Write at the tail, whether or not there is room. -/
def Ring.push (N : ℕ) (r : Ring α) (x : α) : Ring α :=
  { r with buf := update r.buf r.tail x, tail := (r.tail + 1) % N }

/-- The list `xs` went in and its first `k` elements came out. -/
structure Ring.Carries (N : ℕ) (r : Ring α) (xs : List α) (k : ℕ) : Prop where
  head : r.head = k % N
  tail : r.tail = xs.length % N
  lower : k ≤ xs.length
  upper : xs.length ≤ k + (N - 1)
  cells : ∀ i, k ≤ i → (hi : i < xs.length) → r.buf (i % N) = xs[i]

variable {xs : List α} {r : Ring α} {k : ℕ}

theorem mod_ne_of_lt {i j : ℕ} (hij : i < j) (hj : j < i + N) : i % N ≠ j % N := by
  intro h
  have hdvd : N ∣ j - i := (Nat.modEq_iff_dvd' hij.le).mp h
  exact absurd (Nat.le_of_dvd (by omega) hdvd) (by omega)

variable (h : r.Carries N xs k)
include h

theorem Ring.Carries.front (hk : k < xs.length) : r.front = xs[k] := by
  rw [Ring.front, h.head]
  exact h.cells k le_rfl hk

theorem Ring.Carries.advance (hk : k < xs.length) : (r.advance N).Carries N xs (k + 1) where
  head := by simp [Ring.advance, h.head]
  tail := h.tail
  lower := hk
  upper := by
    have := h.upper
    omega
  cells i hi := h.cells i (by omega)

theorem Ring.Carries.push (hroom : xs.length < k + (N - 1)) (x : α) :
    (r.push N x).Carries N (xs ++ [x]) k where
  head := h.head
  tail := by simp [Ring.push, h.tail]
  lower := by
    have := h.lower
    simp only [List.length_append, List.length_singleton]
    omega
  upper := by
    simp only [List.length_append, List.length_singleton]
    omega
  cells i hk hi := by
    simp only [Ring.push, h.tail]
    simp only [List.length_append, List.length_singleton] at hi
    rcases Nat.lt_succ_iff_lt_or_eq.mp hi with hlt | rfl
    · rw [update_of_ne (mod_ne_of_lt hlt (by omega)), List.getElem_append_left hlt]
      exact h.cells i hk hlt
    · simp

/-- The distance from the head to the tail is the number of elements inside. -/
theorem Ring.Carries.distance (hN : 0 < N) : (r.tail + N - r.head) % N = xs.length - k := by
  obtain ⟨d, hd⟩ := Nat.exists_eq_add_of_le h.lower
  have hdN : d < N := by
    have := h.upper
    omega
  have hlt : k % N < N := Nat.mod_lt k hN
  have htail : r.tail = (k % N + d) % N := by rw [h.tail, hd, Nat.mod_add_mod]
  rw [h.head, htail, hd, Nat.add_sub_cancel_left]
  by_cases hwrap : k % N + d < N
  · rw [Nat.mod_eq_of_lt hwrap,
      show k % N + d + N - k % N = d + N by omega, Nat.add_mod_right, Nat.mod_eq_of_lt hdN]
  · have hmod : (k % N + d) % N = k % N + d - N := by
      rw [Nat.mod_eq_sub_mod (by omega), Nat.mod_eq_of_lt (by omega)]
    rw [hmod, show k % N + d - N + N - k % N = d by omega, Nat.mod_eq_of_lt hdN]

end Lib
