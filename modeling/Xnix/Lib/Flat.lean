import Mathlib.Data.Fintype.BigOperators

/-!
# Flat memory

The memory of a program as one array of bytes, with 32-bit words stored the lowest byte first. A
word is read back as it was stored, and a store changes the four bytes of its word only.
-/

namespace Lib

/-- The byte at each address. -/
abbrev Flat := ℕ → BitVec 8

namespace Flat

variable {m m' : Flat} {a b n v x : ℕ}

def load (m : Flat) (a : ℕ) : ℕ :=
  (m a).toNat + 2 ^ 8 * (m (a + 1)).toNat + 2 ^ 16 * (m (a + 2)).toNat + 2 ^ 24 * (m (a + 3)).toNat

/-- Store a number as the word at an address; what does not fit into 32 bits is lost. -/
def store (m : Flat) (a v : ℕ) : Flat := fun x =>
  if x = a then BitVec.ofNat 8 v
  else if x = a + 1 then BitVec.ofNat 8 (v / 2 ^ 8)
  else if x = a + 2 then BitVec.ofNat 8 (v / 2 ^ 16)
  else if x = a + 3 then BitVec.ofNat 8 (v / 2 ^ 24)
  else m x

/-- `memcpy`. -/
def copy (m : Flat) (dst src n : ℕ) : Flat := fun x =>
  if dst ≤ x ∧ x < dst + n then m (src + (x - dst)) else m x

/-- `memset`. -/
def fill (m : Flat) (dst n : ℕ) (b : BitVec 8) : Flat :=
    fun x => if dst ≤ x ∧ x < dst + n then b else m x

/-- `memcpy` from a buffer. -/
def put (m : Flat) (dst : ℕ) (bs : List (BitVec 8)) : Flat := fun x =>
  if dst ≤ x ∧ x < dst + bs.length then bs.getD (x - dst) 0 else m x

def slice (m : Flat) (a n : ℕ) : List (BitVec 8) := (List.range n).map fun i => m (a + i)

theorem load_lt (m : Flat) (a : ℕ) : m.load a < 2 ^ 32 := by
  unfold load
  omega

theorem load_congr (h : ∀ x, a ≤ x → x < a + 4 → m' x = m x) : m'.load a = m.load a := by
  unfold load
  rw [h a (by omega) (by omega), h (a + 1) (by omega) (by omega), h (a + 2) (by omega) (by omega),
    h (a + 3) (by omega) (by omega)]

theorem store_of_ne (h : x < a ∨ a + 4 ≤ x) : m.store a v x = m x := by
  unfold store
  rw [if_neg (by omega), if_neg (by omega), if_neg (by omega), if_neg (by omega)]

theorem load_store_self (hv : v < 2 ^ 32) : (m.store a v).load a = v := by
  have h1 : a + 1 ≠ a := by omega
  have h2 : a + 2 ≠ a ∧ a + 2 ≠ a + 1 := by omega
  have h3 : a + 3 ≠ a ∧ a + 3 ≠ a + 1 ∧ a + 3 ≠ a + 2 := by omega
  simp only [load, store, if_pos, if_neg h1, if_neg h2.1, if_neg h2.2, if_neg h3.1, if_neg h3.2.1,
    if_neg h3.2.2, BitVec.toNat_ofNat]
  omega

theorem load_store_of_ne (h : b + 4 ≤ a ∨ a + 4 ≤ b) : (m.store a v).load b = m.load b :=
  load_congr fun _ _ _ => store_of_ne (by omega)

theorem copy_of_ne {dst src : ℕ} (h : x < dst ∨ dst + n ≤ x) : m.copy dst src n x = m x :=
  if_neg (by omega)

theorem copy_apply {dst src i : ℕ} (h : i < n) : m.copy dst src n (dst + i) = m (src + i) := by
  rw [copy, if_pos (by omega), Nat.add_sub_cancel_left]

theorem fill_of_ne {dst : ℕ} {c : BitVec 8} (h : x < dst ∨ dst + n ≤ x) : m.fill dst n c x = m x :=
  if_neg (by omega)

end Flat

end Lib
