import Mathlib.Data.Fintype.BigOperators

/-!
# Physical memory

Memory is made of pages of 4096 bytes. A page is named by its address and holds words of 32 bits; a
byte is a part of a word, so the same memory can be read as page tables and as bytes.
-/

namespace Lib

open Function List

/-- The words of each page. -/
abbrev Memory := ℕ → ℕ → BitVec 32

namespace Memory

variable {m : Memory} {p q i j : ℕ} {v w : BitVec 32} {f : ℕ → BitVec 32}

def write (m : Memory) (p i : ℕ) (w : BitVec 32) : Memory :=
  update m p (update (m p) i w)

def setPage (m : Memory) (p : ℕ) (f : ℕ → BitVec 32) : Memory := update m p f

theorem write_apply (m : Memory) (p i : ℕ) (w : BitVec 32) (q j : ℕ) :
    m.write p i w q j = if q = p ∧ j = i then w else m q j := by
  unfold write
  by_cases hq : q = p
  · subst hq
    rw [update_self]
    by_cases hj : j = i
    · subst hj
      simp
    · rw [update_of_ne hj]
      simp [hj]
  · rw [update_of_ne hq]
    simp [hq]

@[simp] theorem write_self (m : Memory) (p i : ℕ) (w : BitVec 32) : m.write p i w p i = w := by
  simp [write_apply]

theorem write_page_of_ne (h : q ≠ p) : m.write p i w q = m q := update_of_ne h ..

theorem write_of_ne_index (h : j ≠ i) : m.write p i w q j = m q j := by
  simp [write_apply, h]

theorem write_write (m : Memory) (p i : ℕ) (v w : BitVec 32) :
    (m.write p i v).write p i w = m.write p i w := by
  unfold write
  rw [update_self, update_idem, update_idem]

theorem write_eq_self (h : m p i = w) : m.write p i w = m := by
  unfold write
  rw [← h, update_eq_self, update_eq_self]

theorem write_comm (h : p ≠ q ∨ i ≠ j) :
    (m.write p i v).write q j w = (m.write q j w).write p i v := by
  funext a b
  simp only [write_apply]
  by_cases h₁ : a = q ∧ b = j
  · rw [if_pos h₁, if_neg (by omega), if_pos h₁]
  · rw [if_neg h₁, if_neg h₁]

@[simp] theorem setPage_self (m : Memory) (p : ℕ) (f : ℕ → BitVec 32) : m.setPage p f p = f :=
    update_self ..

theorem setPage_of_ne (h : q ≠ p) : m.setPage p f q = m q := update_of_ne h ..

theorem setPage_write (h : p ≠ q) :
    (m.write q i w).setPage p f = (m.setPage p f).write q i w := by
  unfold write setPage
  rw [update_of_ne h.symm, update_comm h.symm]

theorem write_eq_setPage : m.write p i w = m.setPage p (update (m p) i w) := rfl

theorem setPage_setPage (m : Memory) (p : ℕ) (f g : ℕ → BitVec 32) :
    (m.setPage p f).setPage p g = m.setPage p g := update_idem ..

def byteOf (w : BitVec 32) (k : ℕ) : BitVec 8 := w.extractLsb' (8 * k) 8

theorem byteOf_zero (k : ℕ) : byteOf 0#32 k = 0#8 := by
  apply BitVec.eq_of_getLsbD_eq
  intro n hn
  simp [byteOf]

def withByte (w : BitVec 32) (k : ℕ) (b : BitVec 8) : BitVec 32 :=
  w &&& ~~~ (255#32 <<< (8 * k)) ||| b.zeroExtend 32 <<< (8 * k)

theorem getLsbD_255 (k : ℕ) : (255#32).getLsbD k = decide (k < 8) := by
  by_cases h : k < 32
  · revert k
    decide
  · have h8 : ¬ k < 8 := by omega
    rw [BitVec.getLsbD_of_ge _ _ (by omega)]
    simp [h8]

theorem getLsbD_withByte {k n : ℕ} (hn : n < 32) (w : BitVec 32) (b : BitVec 8) :
    (withByte w k b).getLsbD n =
      if 8 * k ≤ n ∧ n < 8 * k + 8 then b.getLsbD (n - 8 * k) else w.getLsbD n := by
  simp only [withByte, BitVec.getLsbD_or, BitVec.getLsbD_and, BitVec.getLsbD_not,
    BitVec.getLsbD_shiftLeft, getLsbD_255, BitVec.getLsbD_setWidth]
  have hsub : n - 8 * k < 32 := by omega
  split
  · have hlt : ¬ n < 8 * k := by omega
    have h8 : n - 8 * k < 8 := by omega
    simp [hn, hlt, h8, hsub]
  · by_cases hlt : n < 8 * k
    · simp [hn, hlt]
    · have h8 : ¬ n - 8 * k < 8 := by omega
      have hb : b.getLsbD (n - 8 * k) = false := BitVec.getLsbD_of_ge _ _ (by omega)
      simp [hn, hlt, h8, hb]

theorem byteOf_withByte {k k' : ℕ} (hk' : k' < 4) (w : BitVec 32) (b : BitVec 8) :
    byteOf (withByte w k b) k' = if k' = k then b else byteOf w k' := by
  apply BitVec.eq_of_getLsbD_eq
  intro n hn
  rw [byteOf, BitVec.getLsbD_extractLsb', getLsbD_withByte (by omega)]
  by_cases h : k' = k
  · rw [if_pos (by omega), if_pos h, show 8 * k' + n - 8 * k = n by omega]
    simp [hn]
  · rw [if_neg (by omega), if_neg h, byteOf, BitVec.getLsbD_extractLsb']

def pageAt (addr : ℕ) : ℕ := addr / 4096 * 4096

def readByte (m : Memory) (addr : ℕ) : BitVec 8 :=
  byteOf (m (pageAt addr) (addr % 4096 / 4)) (addr % 4)

def writeByte (m : Memory) (addr : ℕ) (b : BitVec 8) : Memory :=
  m.write (pageAt addr) (addr % 4096 / 4)
    (withByte (m (pageAt addr) (addr % 4096 / 4)) (addr % 4) b)

theorem readByte_writeByte (m : Memory) (addr : ℕ) (b : BitVec 8) (x : ℕ) :
    (m.writeByte addr b).readByte x = if x = addr then b else m.readByte x := by
  unfold writeByte readByte
  rw [write_apply]
  by_cases hw : pageAt x = pageAt addr ∧ x % 4096 / 4 = addr % 4096 / 4
  · rw [if_pos hw, byteOf_withByte (Nat.mod_lt _ (by decide)), hw.1, hw.2]
    have : x % 4 = addr % 4 ↔ x = addr := by
      have h1 := hw.1
      simp only [pageAt] at h1
      omega
    simp [this]
  · have : x ≠ addr := fun h => hw (h ▸ ⟨rfl, rfl⟩)
    rw [if_neg hw, if_neg this]

theorem writeByte_page_of_ne {addr : ℕ} {b : BitVec 8} (h : q ≠ pageAt addr) :
  m.writeByte addr b q = m q := write_page_of_ne h

def readBytes (m : Memory) (addr n : ℕ) : List (BitVec 8) :=
  (range n).map fun k => m.readByte (addr + k)

/-- Store bytes from an address on, the lowest first. -/
def writeBytes (m : Memory) (addr : ℕ) : List (BitVec 8) → Memory
  | [] => m
  | b :: bs => (m.writeByte addr b).writeBytes (addr + 1) bs

@[simp] theorem length_readBytes (m : Memory) (addr n : ℕ) : (m.readBytes addr n).length = n := by
  simp [readBytes]

theorem readBytes_add (m : Memory) (addr n k : ℕ) :
    m.readBytes addr (n + k) = m.readBytes addr n ++ m.readBytes (addr + n) k := by
  rw [readBytes, range_add, map_append, map_map, readBytes, readBytes]
  simp only [comp_def, Nat.add_assoc]

theorem readBytes_congr {m' : Memory} {addr n : ℕ}
    (h : ∀ k < n, m (pageAt (addr + k)) = m' (pageAt (addr + k))) :
    m.readBytes addr n = m'.readBytes addr n := by
  refine map_congr_left fun k hk => ?_
  rw [readByte, readByte, h k (mem_range.mp hk)]

theorem readByte_writeBytes :
    ∀ (bs : List (BitVec 8)) (m : Memory) (addr x : ℕ), (m.writeBytes addr bs).readByte x =
      if addr ≤ x ∧ x < addr + bs.length then bs.getD (x - addr) 0#8 else m.readByte x
  | [], m, addr, x => by
    have : ¬ (addr ≤ x ∧ x < addr + ([] : List (BitVec 8)).length) := by simp
    rw [if_neg this, writeBytes]
  | b :: bs, m, addr, x => by
    rw [writeBytes, readByte_writeBytes bs, readByte_writeByte, length_cons]
    by_cases hx : x = addr
    · subst hx
      rw [if_neg (by omega), if_pos rfl, if_pos (by omega), Nat.sub_self]
      rfl
    · by_cases hin : addr + 1 ≤ x ∧ x < addr + 1 + bs.length
      · rw [if_pos hin, if_pos (by omega), show x - addr = (x - (addr + 1)) + 1 by omega]
        rfl
      · rw [if_neg hin, if_neg hx, if_neg (by omega)]

theorem writeBytes_page_of_ne : ∀ {bs : List (BitVec 8)} {m : Memory} {addr : ℕ},
    (∀ k < bs.length, q ≠ pageAt (addr + k)) → m.writeBytes addr bs q = m q
  | [], _, _, _ => rfl
  | b :: bs, m, addr, h => by
    have h0 : q ≠ pageAt addr := h 0 (by simp)
    rw [writeBytes, writeBytes_page_of_ne, writeByte_page_of_ne h0]
    intro k hk
    have := h (k + 1) (by simpa using hk)
    rwa [show addr + 1 + k = addr + (k + 1) by omega]

/-- What a page holds after a store within it depends on that page only. -/
theorem writeBytes_congr : ∀ {bs : List (BitVec 8)} {m m' : Memory} {addr : ℕ}, m p = m' p →
    (∀ k < bs.length, pageAt (addr + k) = p) → m.writeBytes addr bs p = m'.writeBytes addr bs p
  | [], _, _, _, h, _ => h
  | b :: bs, m, m', addr, h, hin => by
    have h0 : pageAt addr = p := hin 0 (by simp)
    have hbyte : m.writeByte addr b p = m'.writeByte addr b p := by
      rw [writeByte, writeByte, h0, write, write, update_self, update_self, h]
    have hin' : ∀ k < bs.length, pageAt (addr + 1 + k) = p := fun k hk => by
      have := hin (k + 1) (by simpa using hk)
      rwa [show addr + (k + 1) = addr + 1 + k by omega] at this
    rw [writeBytes, writeBytes]
    exact writeBytes_congr hbyte hin'

theorem writeBytes_eq_setPage {bs : List (BitVec 8)} {addr : ℕ}
    (hin : ∀ k < bs.length, pageAt (addr + k) = p) :
    m.writeBytes addr bs = m.setPage p (m.writeBytes addr bs p) := by
  funext q
  by_cases hq : q = p
  · rw [hq, setPage_self]
  · rw [setPage_of_ne hq]
    exact writeBytes_page_of_ne fun k hk => (hin k hk).symm ▸ hq

theorem pageAt_add {k : ℕ} (hp : p % 4096 = 0) (hk : k < 4096) : pageAt (p + k) = p := by
  unfold pageAt
  omega

theorem writeBytes_append : ∀ (bs cs : List (BitVec 8)) (m : Memory) (addr : ℕ),
    m.writeBytes addr (bs ++ cs) = (m.writeBytes addr bs).writeBytes (addr + bs.length) cs
  | [], cs, m, addr => rfl
  | b :: bs, cs, m, addr => by
    rw [cons_append, writeBytes, writeBytes, writeBytes_append bs cs, length_cons,
      show addr + 1 + bs.length = addr + (bs.length + 1) by omega]

/-- Store `b 0`, `b 1` and so on, `n` bytes, to the addresses `f 0`, `f 1` and so on, in this
order. -/
def scatter (m : Memory) (f : ℕ → ℕ) (b : ℕ → BitVec 8) (n : ℕ) : Memory :=
  (range n).foldl (fun m k => m.writeByte (f k) (b k)) m

theorem scatter_succ (m : Memory) (f : ℕ → ℕ) (b : ℕ → BitVec 8) (n : ℕ) :
    m.scatter f b (n + 1) = (m.scatter f b n).writeByte (f n) (b n) := by
  rw [scatter, range_succ, foldl_append]
  rfl

theorem scatter_add {f : ℕ → ℕ} {b : ℕ → BitVec 8} {n addr : ℕ} :
    ∀ {len : ℕ}, (∀ k < len, f (n + k) = addr + k) →
      m.scatter f b (n + len) =
      (m.scatter f b n).writeBytes addr ((range len).map fun k => b (n + k))
  | 0, _ => rfl
  | len + 1, h => by
    rw [← Nat.add_assoc, scatter_succ, scatter_add fun k hk => h k (by omega), range_succ,
      map_append, writeBytes_append, length_map, length_range, h len (by omega)]
    rfl

theorem scatter_page_of_ne {f : ℕ → ℕ} {b : ℕ → BitVec 8} : ∀ {n : ℕ}, (∀ k < n, q ≠ pageAt (f k)) →
    m.scatter f b n q = m q
  | 0, _ => rfl
  | n + 1, h => by
    rw [scatter_succ, writeByte_page_of_ne (h n (by omega)),
      scatter_page_of_ne fun k hk => h k (by omega)]

end Memory

end Lib
