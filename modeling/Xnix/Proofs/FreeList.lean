import Xnix.Malloc
import Xnix.UserCopy

/-!
# The free list in memory

A list of extents is the free list (`Heap.FreeList`) when the links in memory spell it out, each of
its extents has the header of a free block, and the extents are sorted. On such a list the loops of
`add_to_free_list` and `coalesce` do what `Lib.Extent.insert` and `Lib.Extent.merge` do.
-/

namespace Xnix

open List Lib Flat Extent

open Lib (Extent)

namespace Heap

variable {h h' h'' : Heap} {e f b : Extent} {l l₁ l₂ l₃ S : List Extent} {a c v w x : ℕ}

/-! Headers start at multiples of 8, so a field of one header meets another header only as the same
field of the same block, or as the magic number that stands 8 bytes before a size. -/

theorem size_setSize_self (hv : v < 2 ^ 32) : (h.setSize a v).size a = v := load_store_self hv

section
variable (ha : a % 8 = 0) (hc : c % 8 = 0)
include ha hc

theorem size_setSize_of_ne (hne : a ≠ c) : (h.setSize c v).size a = h.size a :=
    load_store_of_ne (by omega)

theorem next_setSize : (h.setSize c v).next a = h.next a := load_store_of_ne (by omega)

theorem magic_setSize (hne : a + 8 ≠ c) : (h.setSize c v).magic a = h.magic a :=
    load_store_of_ne (by omega)

theorem size_setNext : (h.setNext c v).size a = h.size a := load_store_of_ne (by omega)

end

theorem next_setNext_self (hv : v < 2 ^ 32) : (h.setNext a v).next a = v := load_store_self hv

section
variable (ha : a % 8 = 0) (hc : c % 8 = 0)
include ha hc

theorem next_setNext_of_ne (hne : a ≠ c) : (h.setNext c v).next a = h.next a :=
    load_store_of_ne (by omega)

theorem magic_setNext : (h.setNext c v).magic a = h.magic a := load_store_of_ne (by omega)

theorem size_setMagic (hne : a ≠ c + 8) : (h.setMagic c v).size a = h.size a :=
    load_store_of_ne (by omega)

theorem next_setMagic : (h.setMagic c v).next a = h.next a := load_store_of_ne (by omega)

end

theorem magic_setMagic_self (hv : v < 2 ^ 32) : (h.setMagic a v).magic a = v := load_store_self hv

theorem magic_setMagic_of_ne (ha : a % 8 = 0) (hc : c % 8 = 0) (hne : a ≠ c) :
    (h.setMagic c v).magic a = h.magic a := load_store_of_ne (by omega)

theorem next_lt (h : Heap) (a : ℕ) : h.next a < 2 ^ 32 := load_lt ..

section Blocks

/-- What an extent must be to hold a block: memory of a program ends at the base of the kernel. -/
structure Shape (e : Extent) : Prop where
  pos : 0 < e.start
  start_mod : e.start % 8 = 0
  len_mod : e.len % 8 = 0
  len_ge : 32 ≤ e.len
  fin_le : e.start + e.len ≤ kernelVirtBase

structure Header (h : Heap) (e : Extent) (magic : ℕ) : Prop where
  size : h.size e.start = e.len - headerSize
  magic : h.magic e.start = magic

section
variable {magic : ℕ} (hh : h.Header e magic) (he : e.start % 8 = 0) (hc : c % 8 = 0)
include hh he hc

theorem Header.setNext : (h.setNext c v).Header e magic :=
  ⟨(size_setNext he hc).trans hh.size, (magic_setNext he hc).trans hh.magic⟩

theorem Header.setMagic (hne : e.start ≠ c) (hne' : e.start ≠ c + 8) :
    (h.setMagic c v).Header e magic :=
  ⟨(size_setMagic he hc hne').trans hh.size, (magic_setMagic_of_ne he hc hne).trans hh.magic⟩

end

variable (he : Shape e)
include he

theorem Shape.fin_lt : e.start + e.len < 2 ^ 32 := lt_of_le_of_lt he.fin_le (by decide)

theorem Shape.start_lt : e.start < 2 ^ 32 := by
  have := he.fin_lt
  omega

theorem Shape.len_pos : 0 < e.len := Nat.lt_of_lt_of_le (by decide) he.len_ge

theorem Shape.join (hf : Shape f) (hfin : e.fin = f.start) : Shape (e.join f) where
  pos := he.pos
  start_mod := he.start_mod
  len_mod := by
    have h1 := he.len_mod
    have h2 := hf.len_mod
    change (e.len + f.len) % 8 = 0
    omega
  len_ge := Nat.le_add_right_of_le he.len_ge
  fin_le := by
    have h1 := hf.fin_le
    change e.start + e.len = f.start at hfin
    change e.start + (e.len + f.len) ≤ kernelVirtBase
    omega

theorem Shape.start_ne (hf : Shape f) (h : e.Apart f) :
    e.start ≠ f.start ∧ e.start ≠ f.start + 8 ∧ e.start + 8 ≠ f.start := by
  have h1 := he.len_ge
  have h2 := hf.len_ge
  unfold Extent.Apart fin at h
  omega

end Blocks

/-- The memory of the heaps differs in the first `w` bytes of the extents of a list only. -/
def Frame (w : ℕ) (S : List Extent) (h h' : Heap) : Prop :=
  ∀ x, (∀ e ∈ S, ¬ (e.start ≤ x ∧ x < e.start + w)) → h'.mem x = h.mem x

theorem Frame.refl (w : ℕ) (S : List Extent) (h : Heap) : Frame w S h h := fun _ _ => rfl

theorem Frame.trans (h1 : Frame w S h h') (h2 : Frame w S h' h'') : Frame w S h h'' :=
  fun x hx => (h2 x hx).trans (h1 x hx)

section
variable (hfr : Frame w S h h')
include hfr

theorem Frame.mono {w' : ℕ} {S' : List Extent} (hw : w ≤ w') (hS : ∀ e ∈ S, e ∈ S') :
  Frame w' S' h h' := fun x hx => hfr x fun e he => by
    have := hx e (hS e he)
    omega

theorem Frame.setSize (he : e ∈ S) (hw : 4 ≤ w) : Frame w S h (h'.setSize e.start v) :=
  fun x hx => (store_of_ne (by have := hx e he; omega)).trans (hfr x hx)

theorem Frame.setNext (he : e ∈ S) (hw : 8 ≤ w) : Frame w S h (h'.setNext e.start v) :=
  fun x hx => (store_of_ne (by have := hx e he; omega)).trans (hfr x hx)

theorem Frame.setMagic (he : e ∈ S) (hw : 12 ≤ w) : Frame w S h (h'.setMagic e.start v) :=
  fun x hx => (store_of_ne (by have := hx e he; omega)).trans (hfr x hx)

theorem Frame.load (ha : ∀ e ∈ S, a + 4 ≤ e.start ∨ e.start + w ≤ a) :
  h'.mem.load a = h.mem.load a := load_congr fun x _ _ => hfr x fun e he => by
    have := ha e he
    omega

theorem Frame.apart (hw : w ≤ 32) (hS : ∀ e ∈ S, Shape e) (hf : Shape f) (ha : ∀ e ∈ S, e.Apart f) :
    h'.size f.start = h.size f.start ∧ h'.next f.start = h.next f.start ∧
    h'.magic f.start = h.magic f.start := by
  have hclear : ∀ k, k + 4 ≤ 32 → ∀ e ∈ S, f.start + k + 4 ≤ e.start ∨
    e.start + w ≤ f.start + k := by
    intro k hk e he
    have h1 := ha e he
    have h2 := (hS e he).len_ge
    have h3 := hf.len_ge
    unfold Extent.Apart fin at h1
    omega
  exact ⟨hfr.load (hclear 0 (by decide)), hfr.load (hclear 4 (by decide)),
    hfr.load (hclear 8 (by decide))⟩

end

theorem Header.frame {magic : ℕ} (hh : h.Header f magic) (hfr : Frame w S h h') (hw : w ≤ 32)
    (hS : ∀ e ∈ S, Shape e) (hf : Shape f) (ha : ∀ e ∈ S, e.Apart f) : h'.Header f magic :=
  have hsame := hfr.apart hw hS hf ha
  ⟨hsame.1.trans hh.size, hsame.2.2.trans hh.magic⟩

/-- The links spell out a list of blocks from the address `a` on. -/
def Spells (h : Heap) : ℕ → List Extent → Prop
  | a, [] => a = 0
  | a, e :: l => a = e.start ∧ h.Spells (h.next e.start) l

theorem Spells.congr : ∀ {l : List Extent} {a : ℕ}, h.Spells a l →
    (∀ e ∈ l, h'.next e.start = h.next e.start) → h'.Spells a l
  | [], _, hs, _ => hs
  | e :: l, _, hs, hn => by
    refine ⟨hs.1, ?_⟩
    rw [hn e (by simp)]
    exact hs.2.congr fun f hf => hn f (by simp [hf])

theorem Spells.tail :
    ∀ {l₁ : List Extent} {a : ℕ}, h.Spells a (l₁ ++ e :: l₂) → h.Spells (h.next e.start) l₂
  | [], _, hs => hs.2
  | _ :: _, _, hs => Spells.tail hs.2

theorem Spells.splice (hv : h'.Spells (h'.next f.start) l₃) (hf : f.start = e.start) :
    ∀ {l₁ : List Extent} {a : ℕ}, h.Spells a (l₁ ++ e :: l₂) →
      (∀ g ∈ l₁, h'.next g.start = h.next g.start) → h'.Spells a (l₁ ++ f :: l₃)
  | [], _, hs, _ => ⟨hs.1.trans hf.symm, hv⟩
  | g :: l₁, _, hs, hn => by
    refine ⟨hs.1, ?_⟩
    rw [hn g (by simp)]
    exact Spells.splice hv hf hs.2 fun g hg => hn g (by simp [hg])

structure FreeList (h : Heap) (a : ℕ) (l : List Extent) : Prop where
  spells : h.Spells a l
  shape : ∀ e ∈ l, Shape e
  header : ∀ e ∈ l, h.Header e magicFree
  sorted : Lib.Extent.Sorted l

theorem FreeList.tail (hl : h.FreeList a (e :: l)) : h.FreeList (h.next e.start) l where
  spells := hl.spells.2
  shape f hf := hl.shape f (by simp [hf])
  header f hf := hl.header f (by simp [hf])
  sorted := (pairwise_cons.mp hl.sorted).2

theorem FreeList.length_lt (hl : h.FreeList a l) : l.length < walkLimit := by
  have := Extent.Sorted.length_le (2 ^ 32) 1 hl.sorted fun e he =>
    ⟨(hl.shape e he).len_pos, (hl.shape e he).fin_lt.le, (hl.shape e he).pos⟩
  unfold walkLimit
  omega

theorem FreeList.next_eq (hl : h.FreeList a (e :: f :: l)) : h.next e.start = f.start :=
    hl.spells.2.1

theorem FreeList.frame (hl : h.FreeList a l) (hfr : Frame w S h h') (hw : w ≤ 32)
    (hS : ∀ e ∈ S, Shape e) (ha : ∀ e ∈ S, ∀ f ∈ l, e.Apart f) : h'.FreeList a l where
  spells := hl.spells.congr fun f hf =>
    (hfr.apart hw hS (hl.shape f hf) fun e he => ha e he f hf).2.1
  shape := hl.shape
  header f hf := (hl.header f hf).frame hfr hw hS (hl.shape f hf) fun e he => ha e he f hf
  sorted := hl.sorted

theorem FreeList.around (hl : h.FreeList a (l₁ ++ b :: l₂)) (hf : f ∈ l₁ ++ l₂) :
    f ∈ l₁ ++ b :: l₂ ∧ f.Apart b := by
  have hsorted := hl.sorted
  rw [Extent.Sorted, pairwise_append, pairwise_cons] at hsorted
  rcases mem_append.mp hf with hf | hf
  · exact ⟨by simp [hf], .inl (hsorted.2.2 f hf b (by simp))⟩
  · exact ⟨by simp [hf], .inr (hsorted.2.1.1 f hf)⟩

theorem FreeList.findPrev :
    ∀ {left : ℕ} {e : Extent} {l : List Extent}, h.FreeList e.start (e :: l) →
    e.start < b.start → (∀ f ∈ l, f.start ≠ b.start) → l.length < left →
      ∃ l₁ p l₂, e :: l = l₁ ++ p :: l₂ ∧ h.findPrev b.start left e.start = some p.start ∧
        Extent.insert b (e :: l) = l₁ ++ p :: b :: l₂
  | left + 1, e, [], hl, hlt, _, _ => by
    refine ⟨[], e, [], rfl, ?_, ?_⟩
    · have hnext : h.next e.start = 0 := hl.spells.2
      rw [Heap.findPrev, if_neg (fun hn => hn.1 hnext)]
    · rw [Extent.insert, if_neg (by omega)]
      rfl
  | left + 1, e, f :: l, hl, hlt, hne, hleft => by
    have hnext := hl.next_eq
    have hfpos := (hl.shape f (by simp)).pos
    have hfb := hne f (by simp)
    rw [Heap.findPrev, hnext]
    by_cases hfb' : f.start < b.start
    · rw [if_pos ⟨by omega, hfb'⟩]
      obtain ⟨l₁, p, l₂, hsplit, hfind, hins⟩ := FreeList.findPrev (hnext ▸ hl.tail) hfb'
        (fun g hg => hne g (by simp [hg])) (by simpa using hleft)
      refine ⟨e :: l₁, p, l₂, by rw [hsplit]; rfl, hfind, ?_⟩
      rw [Extent.insert, if_neg (by omega), hins]
      rfl
    · rw [if_neg fun hn => hfb' hn.2]
      refine ⟨[], e, f :: l, rfl, rfl, ?_⟩
      rw [Extent.insert, if_neg (by omega), Extent.insert, if_pos (by omega)]
      rfl

/-- The free list is there, and the block that is to be added lies apart from it. -/
structure Adds (h : Heap) (l : List Extent) (b : Extent) : Prop where
  list : h.FreeList h.freeList l
  shape : Shape b
  size : h.size b.start = b.len - headerSize
  apart : ∀ f ∈ l, b.Apart f

theorem Adds.freeList (hadd : h.Adds l b) (hspells : h'.Spells a (Extent.insert b l))
    (hhead : ∀ f ∈ b :: l, h'.Header f magicFree) : h'.FreeList a (Extent.insert b l) where
  spells := hspells
  shape f hf := by
    rcases mem_insert.mp hf with rfl | hf
    · exact hadd.shape
    · exact hadd.list.shape f hf
  header f hf := hhead f (mem_cons.mpr (mem_insert.mp hf))
  sorted := hadd.list.sorted.insert hadd.shape.len_pos
    (fun f hf => (hadd.list.shape f hf).len_pos) hadd.apart

theorem Adds.addToFreeList (hadd : h.Adds l b) :
    ∃ h', h.addToFreeList b.start = some h' ∧ h'.FreeList h'.freeList (Extent.insert b l) ∧
      Frame 8 (b :: l) (h.setMagic b.start magicFree) h' ∧ h'.obtained = h.obtained := by
  have hb := hadd.shape
  have hbm := hb.start_mod
  have hne : ∀ f ∈ l, b.start ≠ f.start ∧ b.start ≠ f.start + 8 ∧ b.start + 8 ≠ f.start :=
    fun f hf => hb.start_ne (hadd.list.shape f hf) (hadd.apart f hf)
  have hmod : ∀ f ∈ l, f.start % 8 = 0 := fun f hf => (hadd.list.shape f hf).start_mod
  have hnext1 : ∀ f ∈ l, (h.setMagic b.start magicFree).next f.start = h.next f.start :=
    fun f hf => next_setMagic (hmod f hf) hbm
  have hspells1 := hadd.list.spells.congr hnext1
  have hhead1 : ∀ f ∈ b :: l, f.start % 8 = 0 ∧
    (h.setMagic b.start magicFree).Header f magicFree := by
    intro f hf
    rcases mem_cons.mp hf with rfl | hf
    · exact ⟨hbm, (size_setMagic hbm hbm (by omega)).trans hadd.size,
        magic_setMagic_self (by decide)⟩
    · exact ⟨hmod f hf,
        (hadd.list.header f hf).setMagic (hmod f hf) hbm (hne f hf).1.symm (hne f hf).2.2.symm⟩
  unfold Heap.addToFreeList
  generalize hh1 : h.setMagic b.start magicFree = h1 at *
  have hfl : h1.freeList = h.freeList := hh1 ▸ rfl
  have hob : h1.obtained = h.obtained := hh1 ▸ rfl
  by_cases hfirst : h1.freeList = 0 ∨ b.start < h1.freeList
  · have hins : Extent.insert b l = b :: l := by
      cases l with
      | nil => rfl
      | cons e l =>
        have he : h1.freeList = e.start := hfl.trans hadd.list.spells.1
        have := (hadd.list.shape e (by simp)).pos
        rw [Extent.insert, if_pos (by omega)]
    have hlt : h1.freeList < 2 ^ 32 := by
      cases l with
      | nil =>
        have : h.freeList = 0 := hadd.list.spells
        omega
      | cons e l =>
        have : h.freeList = e.start := hadd.list.spells.1
        have := (hadd.list.shape e (by simp)).start_lt
        omega
    refine ⟨_, if_pos hfirst, hadd.freeList ?_ fun f hf => ?_, ?_, hob⟩
    · rw [hins]
      have hlink : (h1.setNext b.start h1.freeList).next b.start = h.freeList :=
        (next_setNext_self hlt).trans hfl
      have hrest : Spells { h1.setNext b.start h1.freeList with freeList := b.start }
        h.freeList l :=
        hspells1.congr fun f hf => next_setNext_of_ne (hmod f hf) hbm (hne f hf).1.symm
      rw [← hlink] at hrest
      exact ⟨rfl, hrest⟩
    · obtain ⟨hfm, hhead⟩ := hhead1 f hf
      have hhead' := hhead.setNext (v := h1.freeList) hfm hbm
      exact ⟨hhead'.size, hhead'.magic⟩
    · exact (Frame.refl 8 (b :: l) h1).setNext mem_cons_self le_rfl
  · rw [if_neg hfirst]
    obtain ⟨hnil, hle⟩ := not_or.mp hfirst
    cases l with
    | nil => exact absurd (hfl.trans hadd.list.spells) hnil
    | cons e l =>
      have he : h1.freeList = e.start := hfl.trans hadd.list.spells.1
      have hlist1 : h1.FreeList e.start (e :: l) :=
        { spells := hadd.list.spells.1 ▸ hspells1
          shape := hadd.list.shape
          header := fun f hf => (hhead1 f (mem_cons_of_mem b hf)).2
          sorted := hadd.list.sorted }
      have hlen : l.length < walkLimit := by
        have := hlist1.length_lt
        rw [length_cons] at this
        omega
      obtain ⟨l₁, p, l₂, hsplit, hfind, hins⟩ := hlist1.findPrev
        (by have := (hne e (by simp)).1; omega) (fun f hf => (hne f (by simp [hf])).1.symm) hlen
      have hp : p ∈ e :: l := by
        rw [hsplit]
        simp
      have hpm := hmod p hp
      have hpb : p.start ≠ b.start := (hne p hp).1.symm
      have hnext : ∀ f ∈ e :: l, f.start ≠ p.start →
          ((h1.setNext b.start (h1.next p.start)).setNext p.start b.start).next f.start =
          h1.next f.start :=
        fun f hf hfp => (next_setNext_of_ne (hmod f hf) hpm hfp).trans
          (next_setNext_of_ne (hmod f hf) hbm (hne f hf).1.symm)
      have hdistinct : ∀ f ∈ l₁ ++ l₂, f ∈ e :: l ∧ f.start ≠ p.start := by
        rw [hsplit] at hlist1 ⊢
        intro f hf
        obtain ⟨hf, hfp⟩ := hlist1.around hf
        exact ⟨hf, ((hlist1.shape f hf).start_ne (hlist1.shape p (by simp)) hfp).1⟩
      refine ⟨(h1.setNext b.start (h1.next p.start)).setNext p.start
        b.start, by rw [he, hfind]; rfl, hadd.freeList ?_ fun f hf => ?_, ?_, hob⟩
      · rw [hins]
        change Spells _ h1.freeList _
        rw [hsplit] at hspells1
        rw [hfl]
        refine Spells.splice ?_ rfl hspells1
          fun f hf => hnext f (hdistinct f (by simp [hf])).1 (hdistinct f (by simp [hf])).2
        rw [next_setNext_self hb.start_lt]
        refine ⟨rfl, ?_⟩
        rw [next_setNext_of_ne hbm hpm hpb.symm, next_setNext_self (next_lt ..)]
        exact hspells1.tail.congr fun f hf =>
          hnext f (hdistinct f (by simp [hf])).1 (hdistinct f (by simp [hf])).2
      · obtain ⟨hfm, hhead⟩ := hhead1 f hf
        exact (hhead.setNext hfm hbm).setNext hfm hpm
      · exact ((Frame.refl 8 _ h1).setNext mem_cons_self le_rfl).setNext
          (mem_cons_of_mem b hp) le_rfl

def joined (h : Heap) (a : ℕ) : Heap :=
  let h := h.setSize a (h.size a + (headerSize + h.size (h.next a)))
  h.setNext a (h.next (h.next a))

theorem FreeList.joined (hl : h.FreeList e.start (e :: f :: l)) (hfin : e.fin = f.start) :
    (h.joined e.start).FreeList e.start (e.join f :: l) := by
  have he := hl.shape e (by simp)
  have hf := hl.shape f (by simp)
  have hjoin := he.join hf hfin
  have hem := he.start_mod
  have hlen : (e.join f).len = e.len + f.len := rfl
  have hsize : h.size e.start + (headerSize + h.size (h.next e.start)) =
    (e.join f).len - headerSize := by
    rw [hl.next_eq, (hl.header e (by simp)).size, (hl.header f (by simp)).size, hlen]
    have h1 := he.len_ge
    have h2 := hf.len_ge
    unfold headerSize
    omega
  have hlt : (e.join f).len - headerSize < 2 ^ 32 := by
    have := hjoin.fin_lt
    omega
  unfold Heap.joined
  rw [hsize]
  have hsorted := hl.sorted.join hfin
  have hrest : ∀ g ∈ l, Shape g ∧ (e.join f).Apart g := fun g hg =>
    ⟨hl.shape g (by simp [hg]), .inl ((pairwise_cons.mp hsorted).1 g hg)⟩
  have hne : ∀ g ∈ l, g.start ≠ e.start ∧ g.start + 8 ≠ e.start := fun g hg =>
    have := (hrest g hg).1.start_ne hjoin (hrest g hg).2.symm
    ⟨this.1, this.2.2⟩
  refine ⟨⟨rfl, ?_⟩, fun g hg => ?_, fun g hg => ?_, hsorted⟩
  · have hnext : (h.setSize e.start ((e.join f).len - headerSize)).next
        ((h.setSize e.start ((e.join f).len - headerSize)).next e.start) = h.next f.start := by
      rw [next_setSize hem hem, hl.next_eq, next_setSize hf.start_mod hem]
    change Spells _ (next _ e.start) l
    rw [next_setNext_self (next_lt ..), hnext]
    refine hl.tail.tail.spells.congr fun g hg => ?_
    have hgm := (hrest g hg).1.start_mod
    rw [next_setNext_of_ne hgm hem (hne g hg).1, next_setSize hgm hem]
  · rcases mem_cons.mp hg with rfl | hg
    · exact hjoin
    · exact (hrest g hg).1
  · rcases mem_cons.mp hg with rfl | hg
    · refine ⟨?_, ?_⟩
      · change size _ e.start = _
        rw [size_setNext hem hem, size_setSize_self hlt]
      · change magic _ e.start = _
        rw [magic_setNext hem hem, magic_setSize hem hem (by omega)]
        exact (hl.header e (by simp)).magic
    · have hgm := (hrest g hg).1.start_mod
      have hh := hl.header g (by simp [hg])
      refine ⟨?_, ?_⟩
      · rw [size_setNext hgm hem, size_setSize_of_ne hgm hem (hne g hg).1, hh.size]
      · rw [magic_setNext hgm hem, magic_setSize hgm hem (hne g hg).2, hh.magic]

theorem FreeList.follows_iff (hl : h.FreeList e.start (e :: f :: l)) :
    (e.start + headerSize + h.size e.start) % 2 ^ 32 = h.next e.start ↔ e.fin = f.start := by
  have he := hl.shape e (by simp)
  have h1 := he.len_ge
  have h2 := he.fin_lt
  rw [hl.next_eq, (hl.header e (by simp)).size]
  unfold headerSize fin
  omega

theorem FreeList.coalesceFrom : ∀ {h : Heap} {left a : ℕ}, h.FreeList a l → l.length < left →
    ∃ h', coalesceFrom left h a = some h' ∧ h'.FreeList a (merge l) ∧ Frame 8 l h h' ∧
      h'.freeList = h.freeList ∧ h'.obtained = h.obtained := by
  induction l using Extent.merge.induct with
  | case1 =>
    rintro h (_ | left) a hl hleft
    · cases hleft
    · obtain rfl : a = 0 := hl.spells
      refine ⟨h, if_neg (fun hn => hn.1 rfl), ?_, Frame.refl 8 _ h, rfl, rfl⟩
      rwa [Extent.merge]
  | case2 e =>
    rintro h (_ | left) a hl hleft
    · cases hleft
    · have hnext : h.next e.start = 0 := hl.spells.2
      refine ⟨h, if_neg fun hn => hn.2 (by rw [hl.spells.1]; exact hnext), ?_,
        Frame.refl 8 _ h, rfl, rfl⟩
      rwa [Extent.merge]
  | case3 e f l hfin ih =>
    rintro h (_ | left) a hl hleft
    · cases hleft
    obtain rfl : a = e.start := hl.spells.1
    have hgo : e.start ≠ 0 ∧ h.next e.start ≠ 0 :=
      ⟨(hl.shape e (by simp)).pos.ne', hl.next_eq ▸ (hl.shape f (by simp)).pos.ne'⟩
    obtain ⟨h', hrun, hlist, hframe, hhead, hob⟩ :=
      ih (hl.joined hfin) (show _ < left by simpa using hleft)
    refine ⟨h', ?_, ?_, ?_, hhead, hob⟩
    · rw [Heap.coalesceFrom, if_pos hgo, if_pos (hl.follows_iff.mpr hfin)]
      exact hrun
    · rwa [Extent.merge, if_pos hfin]
    · have hjoined : Frame 8 (e :: f :: l) h (h.joined e.start) :=
        ((Frame.refl 8 _ h).setSize mem_cons_self (by decide)).setNext mem_cons_self le_rfl
      refine hjoined.trans fun x hx => hframe x fun g hg => ?_
      rcases mem_cons.mp hg with rfl | hg
      · exact hx e (by simp)
      · exact hx g (by simp [hg])
  | case4 e f l hfin ih =>
    rintro h (_ | left) a hl hleft
    · cases hleft
    obtain rfl : a = e.start := hl.spells.1
    have hgo : e.start ≠ 0 ∧ h.next e.start ≠ 0 :=
      ⟨(hl.shape e (by simp)).pos.ne', hl.next_eq ▸ (hl.shape f (by simp)).pos.ne'⟩
    obtain ⟨h', hrun, hlist, hframe, hhead, hob⟩ := ih hl.tail (show _ < left by simpa using hleft)
    have hsame := hframe.apart (by decide) (fun g hg => hl.shape g (by simp [hg]))
      (hl.shape e (by simp)) fun g hg => .inr ((pairwise_cons.mp hl.sorted).1 g hg)
    refine ⟨h', ?_, ?_, hframe.mono le_rfl fun g hg => by simp [hg], hhead, hob⟩
    · rw [Heap.coalesceFrom, if_pos hgo, if_neg (mt hl.follows_iff.mp hfin)]
      exact hrun
    · have hsorted := (hl.sorted.merge fun g hg => (hl.shape g hg).len_pos).sorted
      rw [Extent.merge, if_neg hfin] at hsorted ⊢
      refine ⟨⟨rfl, hsame.2.1.symm ▸ hlist.spells⟩, fun g hg => ?_, fun g hg => ?_, hsorted⟩
      · rcases mem_cons.mp hg with rfl | hg
        · exact hl.shape g (by simp)
        · exact hlist.shape g hg
      · rcases mem_cons.mp hg with rfl | hg
        · exact ⟨hsame.1.trans (hl.header g (by simp)).size,
            hsame.2.2.trans (hl.header g (by simp)).magic⟩
        · exact hlist.header g hg

theorem FreeList.coalesce (hl : h.FreeList h.freeList l) :
    ∃ h', h.coalesce = some h' ∧ h'.FreeList h'.freeList (merge l) ∧ Frame 8 l h h' ∧
    h'.obtained = h.obtained := by
  obtain ⟨h', hrun, hlist, hframe, hhead, hob⟩ := hl.coalesceFrom hl.length_lt
  exact ⟨h', hrun, hhead.symm ▸ hlist, hframe, hob⟩

end Heap

end Xnix
