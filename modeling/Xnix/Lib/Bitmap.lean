import Mathlib.Data.Nat.Count
import Xnix.Lib.Memory

/-!
# Bitmaps

A bitmap is an array of 32-bit words with one bit for each index, as C code keeps one. `clears`
counts the clear bits below a bound, `first` is the search for a clear bit, and `findRun` the
first-fit search for a run of clear bits. `copyBytes` and `zeroBytes` are `memcpy` and `memset` on
its bytes.
-/

namespace Lib

open Function

/-- The words of a bitmap. -/
abbrev Bitmap := ℕ → BitVec 32

namespace Bitmap

variable {b : Bitmap} {i j n : ℕ}

/-- The word in which only the bit of index `i` is set. -/
def mask (i : ℕ) : BitVec 32 := 1#32 <<< (i % 32)

def test (b : Bitmap) (i : ℕ) : Bool := b (i / 32) &&& mask i != 0#32

def set (b : Bitmap) (i : ℕ) : Bitmap := update b (i / 32) (b (i / 32) ||| mask i)

def clear (b : Bitmap) (i : ℕ) : Bitmap := update b (i / 32) (b (i / 32) &&& ~~~ mask i)

theorem getLsbD_mask (i k : ℕ) : (mask i).getLsbD k = decide (k = i % 32) := by
  have hi : i % 32 < 32 := Nat.mod_lt _ (by decide)
  rw [mask, BitVec.getLsbD_shiftLeft, BitVec.getLsbD_one]
  by_cases hk : k = i % 32
  · subst hk
    simp [hi]
  · have : k < i % 32 ∨ k - i % 32 ≠ 0 := by omega
    rcases this with h | h <;> simp [h, hk]

theorem test_eq_getLsbD (b : Bitmap) (i : ℕ) : b.test i = (b (i / 32)).getLsbD (i % 32) := by
  cases h : (b (i / 32)).getLsbD (i % 32) with
  | false =>
    have hz : b (i / 32) &&& mask i = 0#32 := by
      apply BitVec.eq_of_getLsbD_eq
      intro k hk
      rw [BitVec.getLsbD_and, getLsbD_mask, BitVec.getLsbD_zero]
      by_cases hki : k = i % 32
      · rw [hki, h, Bool.false_and]
      · simp [hki]
    simp [test, hz]
  | true =>
    have hz : b (i / 32) &&& mask i ≠ 0#32 := by
      intro hz
      have := congrArg (fun w => w.getLsbD (i % 32)) hz
      simp [getLsbD_mask, h] at this
    simpa [test] using hz

theorem test_set (b : Bitmap) (i j : ℕ) : (b.set i).test j = (decide (j = i) || b.test j) := by
  rw [test_eq_getLsbD, test_eq_getLsbD, set]
  by_cases hw : j / 32 = i / 32
  · rw [hw, update_self, BitVec.getLsbD_or, getLsbD_mask, Bool.or_comm]
    congr 1
    exact decide_eq_decide.mpr (by omega)
  · rw [update_of_ne hw]
    have : j ≠ i := fun h => hw (h ▸ rfl)
    simp [this]

theorem test_clear (b : Bitmap) (i j : ℕ) : (b.clear i).test j = (!decide (j = i) && b.test j) := by
  rw [test_eq_getLsbD, test_eq_getLsbD, clear]
  by_cases hw : j / 32 = i / 32
  · have hj : j % 32 < 32 := Nat.mod_lt _ (by decide)
    rw [hw, update_self, BitVec.getLsbD_and, BitVec.getLsbD_not, getLsbD_mask, Bool.and_comm]
    have : decide (j % 32 = i % 32) = decide (j = i) := decide_eq_decide.mpr (by omega)
    simp [hj, this]
  · rw [update_of_ne hw]
    have : j ≠ i := fun h => hw (h ▸ rfl)
    simp [this]

@[simp] theorem test_set_self (b : Bitmap) (i : ℕ) : (b.set i).test i = true := by simp [test_set]

@[simp] theorem test_clear_self (b : Bitmap) (i : ℕ) :
    (b.clear i).test i = false := by simp [test_clear]

theorem clear_set (hb : b.test i = false) : (b.set i).clear i = b := by
  rw [test_eq_getLsbD] at hb
  funext k
  rw [clear, set, update_self, update_idem]
  by_cases hk : k = i / 32
  · rw [hk, update_self]
    apply BitVec.eq_of_getLsbD_eq
    intro n hn
    rw [BitVec.getLsbD_and, BitVec.getLsbD_or, BitVec.getLsbD_not, getLsbD_mask]
    by_cases hni : n = i % 32
    · simp [hni, hb]
    · simp [hni, hn]
  · rw [update_of_ne hk]

theorem test_set_of_ne (h : j ≠ i) : (b.set i).test j = b.test j := by simp [test_set, h]

theorem test_clear_of_ne (h : j ≠ i) : (b.clear i).test j = b.test j := by simp [test_clear, h]

def clears (b : Bitmap) (n : ℕ) : ℕ := Nat.count (fun i => b.test i = false) n

theorem clears_succ (b : Bitmap) (n : ℕ) :
    b.clears (n + 1) = b.clears n + if b.test n = false then 1 else 0 := Nat.count_succ _ n

theorem clears_congr {b' : Bitmap} :
    ∀ {n : ℕ}, (∀ i < n, b.test i = b'.test i) → b.clears n = b'.clears n
  | 0, _ => rfl
  | n + 1, h => by
    rw [clears_succ, clears_succ, h n (Nat.lt_succ_self n),
      clears_congr fun i hi => h i (Nat.lt_succ_of_lt hi)]

theorem clears_set (hb : b.test i = false) : ∀ {n : ℕ}, i < n → (b.set i).clears n + 1 = b.clears n
  | n + 1, hi => by
    rw [clears_succ, clears_succ]
    by_cases hin : i = n
    · subst hin
      rw [clears_congr fun k hk => test_set_of_ne (Nat.ne_of_lt hk)]
      simp [hb]
    · have := clears_set hb (n := n) (by omega)
      rw [test_set_of_ne (Ne.symm hin)]
      omega

theorem clears_clear (hb : b.test i = true) (hi : i < n) :
    (b.clear i).clears n = b.clears n + 1 := by
  have hback : ((b.clear i).set i).clears n = b.clears n := clears_congr fun k _ => by
    by_cases hk : k = i <;> simp [test_set, test_clear, hk, hb]
  rw [← hback, clears_set (by simp) hi]

theorem clears_mono (b : Bitmap) {m : ℕ} (h : m ≤ n) : b.clears m ≤ b.clears n :=
    Nat.count_monotone _ h

theorem clears_lt (hb : b.test i = false) (hi : i < n) : b.clears i < b.clears n :=
  Nat.count_strict_mono hb hi

theorem clears_set_of_le (h : n ≤ i) : (b.set i).clears n = b.clears n :=
  clears_congr fun j hj => test_set_of_ne (by omega)

theorem clears_eq_of_set {m : ℕ} (hle : m ≤ n) (h : ∀ i, m ≤ i → i < n → b.test i = true) :
    b.clears n = b.clears m := by
  induction n, hle using Nat.le_induction with
  | base => rfl
  | succ n hn ih =>
    rw [clears_succ, ih fun i hi hlt => h i hi (by omega), h n hn (by omega)]
    rfl

theorem clears_eq_zero (h : ∀ i < n, b.test i = true) : b.clears n = 0 :=
  clears_eq_of_set (Nat.zero_le n) fun i _ hi => h i hi

theorem clears_le (b : Bitmap) (n : ℕ) : b.clears n ≤ n := Nat.count_le ..

theorem clears_eq_length {l : List ℕ} (hlt : ∀ i ∈ l, i < n)
    (h : ∀ i < n, b.test i = false ↔ i ∈ l) : b.clears n = l.dedup.length := by
  rw [clears, Nat.count_eq_card_filter_range, ← List.card_toFinset]
  congr 1
  ext i
  rw [Finset.mem_filter, Finset.mem_range, List.mem_toFinset]
  exact ⟨fun ⟨hi, hb⟩ => (h i hi).mp hb, fun hi => ⟨hlt i hi, (h i (hlt i hi)).mpr hi⟩⟩

def Clear (b : Bitmap) (start count : ℕ) : Prop := ∀ k < count, b.test (start + k) = false

theorem Clear.snoc {start count : ℕ} (h : b.Clear start count)
    (hb : b.test (start + count) = false) : b.Clear start (count + 1) := by
  intro k hk
  by_cases hkc : k = count
  · exact hkc ▸ hb
  · exact h k (by omega)

def setRange (b : Bitmap) (start : ℕ) : ℕ → Bitmap
  | 0 => b
  | count + 1 => (b.setRange start count).set (start + count)

theorem test_setRange (b : Bitmap) (start j : ℕ) : ∀ count,
    (b.setRange start count).test j = (decide (start ≤ j ∧ j < start + count) || b.test j)
  | 0 => by
    simp [setRange]
  | count + 1 => by
    rw [setRange, test_set, test_setRange b start j count, ← Bool.or_assoc, ← Bool.decide_or]
    congr 1
    exact decide_eq_decide.mpr (by omega)

theorem clears_setRange {start : ℕ} : ∀ {count : ℕ}, b.Clear start count → start + count ≤ n →
    (b.setRange start count).clears n + count = b.clears n
  | 0, _, _ => rfl
  | count + 1, hb, hn => by
    have hclear : (b.setRange start count).test (start + count) = false := by
      simp [test_setRange, hb count (Nat.lt_succ_self count)]
    have hset := clears_set hclear (n := n) (by omega)
    have ih := clears_setRange (fun k hk => hb k (Nat.lt_succ_of_lt hk))
      (by omega : start + count ≤ n)
    rw [setRange]
    omega

/-- The first clear bit of `left` bits from `i` on. -/
def first (b : Bitmap) : ℕ → ℕ → Option ℕ
  | 0, _ => none
  | left + 1, i => if b.test i then b.first left (i + 1) else some i

theorem first_eq_some :
    ∀ {left i : ℕ}, b.first left i = some j → i ≤ j ∧ j < i + left ∧ b.test j = false
  | left + 1, i, h => by
    rw [first] at h
    split at h
    · have := first_eq_some h
      exact ⟨by omega, by omega, this.2.2⟩
    · rename_i hi
      cases h
      exact ⟨Nat.le_refl _, by omega, by simpa using hi⟩

theorem first_eq_none :
    ∀ {left i : ℕ}, b.first left i = none → i ≤ j → j < i + left → b.test j = true
  | 0, i, _, _, _ => by omega
  | left + 1, i, h, hij, hj => by
    rw [first] at h
    split at h
    · rename_i hi
      by_cases hji : j = i
      · exact hji ▸ hi
      · exact first_eq_none h (by omega) (by omega)
    · cases h

/-- First fit: `consecutive` clear bits end before `i`, the first of them at `start`. -/
def findRun (b : Bitmap) (count : ℕ) : ℕ → ℕ → ℕ → ℕ → Option ℕ
  | 0, _, _, _ => none
  | left + 1, i, consecutive, start =>
    if b.test i then b.findRun count left (i + 1) 0 start
    else
      let start := if consecutive = 0 then i else start
      if consecutive + 1 = count then some start
        else b.findRun count left (i + 1) (consecutive + 1) start

/-- The run that is found is clear and lies within the bits that were searched. -/
theorem findRun_eq_some {count p : ℕ} : ∀ {left i consecutive start : ℕ},
    start + consecutive = i ∨ consecutive = 0 → b.Clear start consecutive →
    b.findRun count left i consecutive start = some p → b.Clear p count ∧ p + count ≤ i + left
  | left + 1, i, consecutive, start, hs, hc, h => by
    simp only [findRun] at h
    split at h
    · have := findRun_eq_some (.inr rfl) (by intro k hk; omega) h
      exact ⟨this.1, by omega⟩
    · rename_i hi
      have hi : b.test i = false := by simpa using hi
      obtain ⟨hstart, hrun⟩ : (if consecutive = 0 then i else start) + (consecutive + 1) = i + 1 ∧
          b.Clear (if consecutive = 0 then i else start) (consecutive + 1) := by
        split
        · rename_i h0
          subst h0
          refine ⟨rfl, fun k hk => ?_⟩
          obtain rfl : k = 0 := by omega
          exact hi
        · have hsi : start + consecutive = i := by omega
          exact ⟨by omega, hc.snoc (hsi ▸ hi)⟩
      split at h
      · rename_i hcount
        cases h
        exact ⟨hcount ▸ hrun, by omega⟩
      · have := findRun_eq_some (.inl hstart) hrun h
        exact ⟨this.1, by omega⟩

/-- A search that fails has met a set bit in every run that starts in or after the one it is in. -/
theorem findRun_eq_none {count p : ℕ} : ∀ {left i consecutive start : ℕ}, consecutive < count →
    b.findRun count left i consecutive start = none → i ≤ p + consecutive → p + count ≤ i + left →
    ¬ b.Clear p count
  | 0, i, consecutive, start, hc, _, hp, hp' => by omega
  | left + 1, i, consecutive, start, hc, h, hp, hp' => by
    simp only [findRun] at h
    split at h
    · rename_i hi
      by_cases hpi : p ≤ i
      · intro hclear
        have := hclear (i - p) (by omega)
        rw [Nat.add_sub_cancel' hpi, hi] at this
        cases this
      · exact findRun_eq_none (by omega) h (by omega) (by omega)
    · split at h
      · cases h
      · exact findRun_eq_none (by omega) h (by omega) (by omega)

/-- The bitmap with its first `n` bytes copied from `src`. -/
def copyBytes (src b : Bitmap) : ℕ → Bitmap
  | 0 => b
  | n + 1 => update (copyBytes src b n) (n / 4)
      (Memory.withByte (copyBytes src b n (n / 4)) (n % 4) (Memory.byteOf (src (n / 4)) (n % 4)))

def zeroBytes (b : Bitmap) (n : ℕ) : Bitmap := copyBytes (fun _ => 0#32) b n

theorem test_copyBytes (src b : Bitmap) (j : ℕ) : ∀ n,
    (copyBytes src b n).test j = if j < 8 * n then src.test j else b.test j
  | 0 => by simp [copyBytes]
  | n + 1 => by
    have ih := test_copyBytes src b j n
    rw [test_eq_getLsbD] at ih ⊢
    rw [copyBytes]
    by_cases hw : j / 32 = n / 4
    · rw [hw] at ih
      rw [hw, update_self, Memory.getLsbD_withByte (Nat.mod_lt _ (by decide))]
      by_cases hj : 8 * (n % 4) ≤ j % 32 ∧ j % 32 < 8 * (n % 4) + 8
      · rw [if_pos hj, if_pos (by omega), Memory.byteOf, BitVec.getLsbD_extractLsb',
          test_eq_getLsbD, hw, Nat.add_sub_cancel' hj.1]
        simp only [Bool.and_eq_right_iff_imp, decide_eq_true_eq]
        omega
      · rw [if_neg hj, ih]
        exact if_congr (by omega) rfl rfl
    · rw [update_of_ne hw, ih]
      exact if_congr (by omega) rfl rfl

theorem test_zeroBytes (b : Bitmap) (j n : ℕ) :
    (b.zeroBytes n).test j = (!decide (j < 8 * n) && b.test j) := by
  rw [zeroBytes, test_copyBytes]
  by_cases hj : j < 8 * n <;> simp [hj, test_eq_getLsbD]

end Bitmap

end Lib
