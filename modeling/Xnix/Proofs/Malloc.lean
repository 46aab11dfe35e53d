import Xnix.Proofs.FreeList

/-!
# Allocation and release of blocks

`Heap.Ok` is the state of the heap between calls: the free list, the blocks that were given out with
their headers, all apart from each other and inside the memory that `sbrk` gave. `malloc` turns a
free block or new memory into a block and a rest (`Heap.Given`), `free` puts a block back and
merges.
-/

namespace Xnix

open List Lib

open Lib (Extent)

namespace Heap

variable {h h' : Heap} {e f b : Extent} {l l₁ l₂ avail avail' live : List Extent} {a n size : ℕ}

/-- The heap between calls, with the free blocks and those that were given out. -/
structure Ok (h : Heap) (avail live : List Extent) : Prop where
  list : h.FreeList h.freeList avail
  shape : ∀ e ∈ live, Shape e
  header : ∀ e ∈ live, h.Header e magicAlloc
  live_apart : live.Pairwise Lib.Extent.Apart
  apart : ∀ e ∈ avail, ∀ f ∈ live, e.Apart f
  obtained : ∀ e ∈ avail ++ live, ∀ x, e.Has x → ∃ r ∈ h.obtained, r.Has x

theorem Ok.data (hok : h.Ok avail live) {m : Flat}
    (hm : ∀ x, (∀ e ∈ live, ¬ (e.start + headerSize ≤ x ∧ x < e.fin)) → m x = h.mem x) :
    ({ h with mem := m } : Heap).Ok avail live := by
  have hword : ∀ f, Shape f → (∀ e ∈ live, e = f ∨ e.Apart f) → ∀ k, k + 4 ≤ headerSize →
      m.load (f.start + k) = h.mem.load (f.start + k) := by
    intro f hf ha k hk
    refine Flat.load_congr fun x hx hx' => hm x fun e he => ?_
    rcases ha e he with rfl | hap
    · omega
    · unfold Extent.Apart Extent.fin at hap
      unfold Extent.fin
      omega
  have hfree : ∀ f ∈ avail, ∀ k, k + 4 ≤ headerSize →
    m.load (f.start + k) = h.mem.load (f.start + k) :=
    fun f hf => hword f (hok.list.shape f hf) fun e he => .inr (hok.apart f hf e he).symm
  have hlive : ∀ f ∈ live, ∀ k, k + 4 ≤ headerSize →
    m.load (f.start + k) = h.mem.load (f.start + k) := by
    intro f hf
    refine hword f (hok.shape f hf) fun e he => ?_
    by_cases hef : e = f
    · exact .inl hef
    · exact .inr (hok.live_apart.forall he hf hef)
  refine ⟨⟨?_, hok.list.shape, fun f hf => ⟨?_, ?_⟩, hok.list.sorted⟩, hok.shape,
    fun f hf => ⟨?_, ?_⟩, hok.live_apart, hok.apart, hok.obtained⟩
  · exact hok.list.spells.congr fun f hf => hfree f hf 4 (by decide)
  · exact (hfree f hf 0 (by decide)).trans (hok.list.header f hf).size
  · exact (hfree f hf 8 (by decide)).trans (hok.list.header f hf).magic
  · exact (hlive f hf 0 (by decide)).trans (hok.header f hf).size
  · exact (hlive f hf 8 (by decide)).trans (hok.header f hf).magic

theorem FreeList.searchFrom (size : ℕ) : ∀ (left : ℕ) {l : List Extent} {a : ℕ} (prev : ℕ),
    h.FreeList a l → l.length < left → (∃ l₁ e l₂, l = l₁ ++ e :: l₂ ∧ size ≤ e.len - headerSize ∧
      h.searchFrom size left prev a = some ((l₁.getLast?.map Extent.start).getD prev, e.start)) ∨
    ∃ p, h.searchFrom size left prev a = some (p, 0)
  | _ + 1, [], _, prev, hl, _ => by
    right
    exact ⟨prev, if_pos hl.spells⟩
  | left + 1, e :: l, a, prev, hl, hleft => by
    obtain rfl : a = e.start := hl.spells.1
    rw [Heap.searchFrom, if_neg (hl.shape e (by simp)).pos.ne', (hl.header e (by simp)).size]
    by_cases hfit : size ≤ e.len - headerSize
    · left
      exact ⟨[], e, l, rfl, hfit, by rw [if_pos hfit]; rfl⟩
    · rw [if_neg hfit]
      rcases FreeList.searchFrom size left e.start hl.tail (by simpa using hleft) with
        ⟨l₁, f, l₂, rfl, hf, hs⟩ | hs
      · left
        refine ⟨e :: l₁, f, l₂, rfl, hf, hs.trans ?_⟩
        cases hlast : l₁.getLast? <;> simp [getLast?_cons, hlast]
      · exact .inr hs

section Split

structure Splitting (h : Heap) (e : Extent) (size : ℕ) : Prop where
  shape : Shape e
  header : h.size e.start = e.len - headerSize
  size_mod : size % 8 = 0
  size_ge : minAlloc ≤ size
  room : size + headerSize + minAlloc ≤ e.len - headerSize

def front (e : Extent) (size : ℕ) : Extent := ⟨e.start, headerSize + size⟩

def back (e : Extent) (size : ℕ) : Extent :=
    ⟨e.start + headerSize + size, e.len - headerSize - size⟩

variable (hs : h.Splitting e size)
include hs

theorem Splitting.shapes : Shape (front e size) ∧ Shape (back e size) := by
  obtain ⟨⟨h1, h2, h3, h4, h5⟩, -, h₆, h₇, h₈⟩ := hs
  unfold headerSize minAlloc at *
  refine ⟨⟨h1, h2, ?_, ?_, ?_⟩, ⟨?_, ?_, ?_, ?_, ?_⟩⟩ <;> dsimp only [front, back,
    headerSize] <;> omega

theorem Splitting.newBlock : newBlock e.start size = (back e size).start :=
    Nat.mod_eq_of_lt hs.shapes.2.start_lt

theorem Splitting.back_ge : e.start + 32 ≤ (back e size).start := by
  have := hs.size_ge
  unfold minAlloc at this
  dsimp only [back, headerSize]
  omega

theorem Splitting.split {next : ℕ} (hnext : next < 2 ^ 32) :
    (h.split e.start size next).size e.start = size ∧
      (h.split e.start size next).magic e.start = h.magic e.start ∧
      (h.split e.start size next).Header (back e size) magicFree ∧
      (h.split e.start size next).next (back e size).start = next ∧
      Frame 12 [front e size, back e size] h (h.split e.start size next) := by
  obtain ⟨hfront, hback⟩ := hs.shapes
  have hem := hs.shape.start_mod
  have hbm := hback.start_mod
  have hge := hs.back_ge
  have hsize : size < 2 ^ 32 := by
    have h1 := hfront.fin_lt
    have h2 : (front e size).len = headerSize + size := rfl
    omega
  have hrest : (h.size e.start + (2 ^ 32 - size) + (2 ^ 32 - headerSize)) % 2 ^ 32 =
      (back e size).len - headerSize := by
    have h1 := hs.room
    have h2 := hs.shape.fin_lt
    have h3 : (back e size).len = e.len - headerSize - size := rfl
    rw [hs.header]
    omega
  have hlt : (back e size).len - headerSize < 2 ^ 32 := by
    omega
  unfold Heap.split
  rw [hs.newBlock, hrest]
  refine ⟨size_setSize_self hsize, ?_, ⟨?_, ?_⟩, ?_, ?_⟩
  · rw [magic_setSize hem hem (by omega), magic_setMagic_of_ne hem hbm (by omega),
      magic_setNext hem hbm, magic_setSize hem hbm (by omega)]
  · rw [size_setSize_of_ne hbm hem (by omega), size_setMagic hbm hbm (by omega),
      size_setNext hbm hbm, size_setSize_self hlt]
  · rw [magic_setSize hbm hem (by omega), magic_setMagic_self (by decide)]
  · rw [next_setSize hbm hem, next_setMagic hbm hbm, next_setNext_self hnext]
  · have hmem : back e size ∈ [front e size, back e size] := by simp
    have hnew := (((Frame.refl 12 _ h).setSize (v := (back e size).len - headerSize) hmem
      (by decide)).setNext (v := next) hmem (by decide)).setMagic (v := magicFree) hmem le_rfl
    exact hnew.setSize (e := front e size) (by simp) (by decide)

end Split

def givenOf (e : Extent) (size : ℕ) : Extent :=
  if size + headerSize + minAlloc ≤ e.len - headerSize then front e size else e

def restOf (e : Extent) (size : ℕ) : List Extent :=
  if size + headerSize + minAlloc ≤ e.len - headerSize then [back e size] else []

def unlinked (h : Heap) (prev block : ℕ) : Heap :=
  let h := if prev ≠ 0 then h.setNext prev (h.next block) else { h with freeList := h.next block }
  (h.setNext block 0).setMagic block magicAlloc

theorem FreeList.unlinked (hl : h.FreeList h.freeList (l₁ ++ b :: l₂)) :
    ∃ h', h.unlinked ((l₁.getLast?.map Extent.start).getD 0) b.start = h' ∧
      h'.FreeList h'.freeList (l₁ ++ l₂) ∧ h'.Header b magicAlloc ∧
      Frame 12 (b :: (l₁ ++ l₂)) h h' ∧
      h'.obtained = h.obtained := by
  have hb := hl.shape b (by simp)
  have hbm := hb.start_mod
  have hrest : ∀ f ∈ l₁ ++ l₂, Shape f ∧ f.start % 8 = 0 ∧ h.Header f magicFree ∧
      f.start ≠ b.start ∧ f.start ≠ b.start + 8 := by
    intro f hf
    obtain ⟨hfl, hfb⟩ := hl.around hf
    have hshape := hl.shape f hfl
    have hne := hshape.start_ne hb hfb
    exact ⟨hshape, hshape.start_mod, hl.header f hfl, hne.1, hne.2.1⟩
  have hheader : ∀ f ∈ b :: (l₁ ++ l₂), f.start % 8 = 0 ∧ h.Header f magicFree := by
    intro f hf
    rcases mem_cons.mp hf with rfl | hf
    · exact ⟨hbm, hl.header f (by simp)⟩
    · exact ⟨(hrest f hf).2.1, (hrest f hf).2.2.1⟩
  have hsorted : Extent.Sorted (l₁ ++ l₂) :=
    hl.sorted.sublist (Sublist.append_left (sublist_cons_self ..) _)
  have hdone : ∀ h1 : Heap, h1.obtained = h.obtained → h1.Spells h1.freeList (l₁ ++ l₂) →
      (∀ f ∈ b :: (l₁ ++ l₂), h1.Header f magicFree) →
      Frame 12 (b :: (l₁ ++ l₂)) h h1 →
      ∃ h', (h1.setNext b.start 0).setMagic b.start magicAlloc = h' ∧
      h'.FreeList h'.freeList (l₁ ++ l₂) ∧
        h'.Header b magicAlloc ∧ Frame 12 (b :: (l₁ ++ l₂)) h h' ∧ h'.obtained = h.obtained := by
    intro h1 hob hspells hhead hframe
    refine ⟨_, rfl, ⟨?_, fun f hf => (hrest f hf).1, fun f hf => ?_, hsorted⟩, ⟨?_, ?_⟩, ?_, hob⟩
    · refine hspells.congr fun f hf => ?_
      obtain ⟨-, hfm, -, hfb, -⟩ := hrest f hf
      rw [next_setMagic hfm hbm, next_setNext_of_ne hfm hbm hfb]
    · obtain ⟨-, hfm, -, hfb, hfb'⟩ := hrest f hf
      exact ((hhead f (mem_cons_of_mem b hf)).setNext hfm hbm).setMagic hfm hbm hfb hfb'
    · rw [size_setMagic hbm hbm (by omega), ((hhead b mem_cons_self).setNext hbm hbm).size]
    · exact magic_setMagic_self (by decide)
    · exact (hframe.setNext mem_cons_self (by decide)).setMagic mem_cons_self le_rfl
  unfold Heap.unlinked
  rcases eq_nil_or_concat l₁ with rfl | ⟨l, p, rfl⟩
  · refine hdone { h with freeList := h.next b.start } rfl ?_ (fun f hf => ?_) (Frame.refl 12 _ h)
    · exact hl.spells.2.congr fun f _ => rfl
    · exact ⟨(hheader f hf).2.size, (hheader f hf).2.magic⟩
  · rw [concat_eq_append] at *
    have hp := hrest p (by simp)
    have hpm := hp.2.1
    have hlast : (((l ++ [p]).getLast?.map Extent.start).getD 0) = p.start := by simp
    rw [hlast, if_pos hp.1.pos.ne']
    refine hdone _ rfl ?_ (fun f hf => ?_) ?_
    · have hspells := hl.spells
      rw [append_assoc, singleton_append] at hspells ⊢
      refine Spells.splice ?_ rfl hspells fun f hf => ?_
      · rw [next_setNext_self (next_lt ..)]
        have htail := hspells.tail
        refine htail.2.congr fun f hf => next_setNext_of_ne (hrest f (by simp [hf])).2.1 hpm ?_
        have hsorted' := hsorted
        rw [append_assoc, singleton_append, Extent.Sorted, pairwise_append, pairwise_cons]
          at hsorted'
        exact ((hrest f (by simp [hf])).1.start_ne hp.1 (.inr (hsorted'.2.1.1 f hf))).1
      · refine next_setNext_of_ne (hrest f (by simp [hf])).2.1 hpm ?_
        have hsorted' := hsorted
        rw [append_assoc, singleton_append, Extent.Sorted, pairwise_append] at hsorted'
        exact ((hrest f (by simp [hf])).1.start_ne hp.1 (.inl (hsorted'.2.2 f hf p (by simp)))).1
    · exact (hheader f hf).2.setNext (hheader f hf).1 hpm
    · exact (Frame.refl 12 _ h).setNext (by simp) (by decide)

structure Fits (e : Extent) (size : ℕ) : Prop where
  shape : Shape e
  size_mod : size % 8 = 0
  size_ge : minAlloc ≤ size
  size_le : size ≤ e.len - headerSize

section
variable (hfit : Fits e size)
include hfit

theorem Fits.splitting (hsize : h.size e.start = e.len - headerSize)
    (hroom : size + headerSize + minAlloc ≤ e.len - headerSize) : h.Splitting e size :=
  ⟨hfit.shape, hsize, hfit.size_mod, hfit.size_ge, hroom⟩

theorem Fits.splits_iff (hsize : h.size e.start = e.len - headerSize) :
    h.Splits e.start size ↔ size + headerSize + minAlloc ≤ e.len - headerSize := by
  have h1 := hfit.shape.fin_le
  have h2 := hfit.size_le
  rw [Splits, hsize]
  unfold headerSize minAlloc kernelVirtBase at *
  omega

theorem Fits.given : Shape (givenOf e size) ∧ (givenOf e size).start = e.start ∧
    (givenOf e size).Within e ∧ size ≤ (givenOf e size).len - headerSize := by
  obtain ⟨hshape, hmod, hge, hle⟩ := hfit
  have h3 := hshape.fin_le
  unfold givenOf
  split
  · refine ⟨⟨hshape.pos, hshape.start_mod, ?_, ?_, ?_⟩, rfl, ⟨le_rfl, ?_⟩, ?_⟩ <;>
      dsimp only [front, Extent.fin] <;> unfold headerSize minAlloc at * <;> omega
  · exact ⟨hshape, rfl, .refl e, hle⟩

theorem Fits.rest {r : Extent} (hr : r ∈ restOf e size) :
    Shape r ∧ r.Within e ∧ r.Apart (givenOf e size) := by
  obtain ⟨hshape, hmod, hge, hle⟩ := hfit
  have h1 := hshape.len_mod
  have h2 := hshape.fin_le
  have h3 := hshape.start_mod
  unfold restOf at hr
  unfold givenOf
  split at hr
  · rename_i hroom
    rw [if_pos hroom]
    obtain rfl := mem_singleton.mp hr
    unfold Extent.Within Extent.Apart
    refine ⟨⟨?_, ?_, ?_, ?_, ?_⟩, ?_, .inr ?_⟩ <;>
      dsimp only [front, back, Extent.fin] <;> unfold headerSize minAlloc at * <;> omega
  · cases hr

theorem Fits.kept (ha : e.start ≤ a) (ha' : a + 32 ≤ e.fin)
    (hnot : ¬ (givenOf e size).Has a) : ∃ r ∈ restOf e size, r.start ≤ a ∧ a + 32 ≤ r.fin := by
  have hle := hfit.size_le
  unfold givenOf Extent.Has at hnot
  unfold restOf
  unfold Extent.fin at *
  split at hnot
  · rename_i hroom
    rw [if_pos hroom]
    refine ⟨back e size, by simp, ?_⟩
    dsimp only [front, back] at *
    omega
  · omega

end

theorem FreeList.split (hl : h.FreeList h.freeList (l₁ ++ e :: l₂)) (hs : h.Splitting e size) :
    ∃ h', (h.split e.start size (h.next e.start)).setNext e.start (newBlock e.start size) = h' ∧
      h'.FreeList h'.freeList (l₁ ++ front e size :: back e size :: l₂) ∧
      Frame 12 [front e size, back e size] h h' ∧ h'.obtained = h.obtained := by
  obtain ⟨hfront, hback⟩ := hs.shapes
  obtain ⟨hsize, hmagic, hhead, hnext, hframe⟩ := hs.split (next_lt h e.start)
  have hem := hs.shape.start_mod
  have hbm := hback.start_mod
  have hge := hs.back_ge
  rw [hs.newBlock]
  refine ⟨_, rfl, ?_⟩
  generalize hh1 : h.split e.start size (h.next e.start) = h1 at *
  have hfl : h1.freeList = h.freeList := hh1 ▸ rfl
  have hob : h1.obtained = h.obtained := hh1 ▸ rfl
  have hframe' : Frame 12 [front e size, back e size] h (h1.setNext e.start (back e size).start) :=
    hframe.setNext (e := front e size) (by simp) (by decide)
  have hshapes : ∀ b ∈ [front e size, back e size], Shape b ∧ b.Within e := by
    have hroom := hs.room
    intro b hb
    simp only [mem_cons, not_mem_nil, or_false] at hb
    unfold Extent.Within Extent.fin
    rcases hb with rfl | rfl
    · refine ⟨hfront, ?_⟩
      dsimp only [front]
      omega
    · refine ⟨hback, ?_⟩
      dsimp only [back]
      omega
  have hothers : ∀ f ∈ l₁ ++ l₂, f ∈ l₁ ++ e :: l₂ ∧ ∀ b ∈ [front e size, back e size],
    b.Apart f := by
    intro f hf
    obtain ⟨hfl, hfe⟩ := hl.around hf
    exact ⟨hfl, fun b hb => hfe.symm.mono (hshapes b hb).2 (.refl f)⟩
  have hsame : ∀ f ∈ l₁ ++ l₂, Shape f ∧
    (h1.setNext e.start (back e size).start).Header f magicFree ∧
      (h1.setNext e.start (back e size).start).next f.start = h.next f.start := by
    intro f hf
    obtain ⟨hfl, hap⟩ := hothers f hf
    have hshape := hl.shape f hfl
    exact ⟨hshape, (hl.header f hfl).frame hframe' (by decide) (fun b hb => (hshapes b hb).1)
      hshape hap, (hframe'.apart (by decide) (fun b hb => (hshapes b hb).1) hshape hap).2.1⟩
  refine ⟨⟨?_, ?_, ?_, ?_⟩, hframe', hob⟩
  · change Spells _ h1.freeList _
    rw [hfl]
    refine Spells.splice ?_ (show (front e size).start = e.start from rfl) hl.spells fun f hf =>
      (hsame f (by simp [hf])).2.2
    change Spells _ (next _ e.start) _
    rw [next_setNext_self hback.start_lt]
    refine ⟨rfl, ?_⟩
    rw [next_setNext_of_ne hbm hem (by omega), hnext]
    exact hl.spells.tail.congr fun f hf => (hsame f (by simp [hf])).2.2
  · intro f hf
    simp only [mem_append, mem_cons] at hf
    rcases hf with hf | rfl | rfl | hf
    · exact (hsame f (by simp [hf])).1
    · exact hfront
    · exact hback
    · exact (hsame f (by simp [hf])).1
  · intro f hf
    simp only [mem_append, mem_cons] at hf
    rcases hf with hf | rfl | rfl | hf
    · exact (hsame f (by simp [hf])).2.1
    · refine ⟨?_, ?_⟩
      · change Heap.size _ e.start = headerSize + size - headerSize
        rw [size_setNext hem hem, hsize, Nat.add_sub_cancel_left]
      · change magic _ e.start = _
        rw [magic_setNext hem hem, hmagic]
        exact (hl.header e (by simp)).magic
    · exact hhead.setNext hbm hem
    · exact (hsame f (by simp [hf])).2.1
  · have hsorted := hl.sorted
    have hw1 := (hshapes (front e size) (by simp)).2
    have hw2 := (hshapes (back e size) (by simp)).2
    rw [Extent.Sorted, pairwise_append, pairwise_cons] at hsorted
    obtain ⟨hs1, ⟨he2, hs2⟩, h₁₂⟩ := hsorted
    have hfin : (front e size).fin = (back e size).start := (Nat.add_assoc ..).symm
    refine pairwise_append.mpr ⟨hs1, pairwise_cons.mpr ⟨fun f hf => ?_,
      pairwise_cons.mpr ⟨fun f hf => hw2.2.trans (he2 f hf), hs2⟩⟩, fun g hg f hf => ?_⟩
    · rcases mem_cons.mp hf with rfl | hf
      · exact hfin.le
      · exact hw1.2.trans (he2 f hf)
    · have hge' := h₁₂ g hg e (by simp)
      simp only [mem_cons] at hf
      rcases hf with rfl | rfl | hf
      · exact hge'
      · omega
      · exact h₁₂ g hg f (by simp [hf])

theorem FreeList.takeBlock (hl : h.FreeList h.freeList (l₁ ++ e :: l₂)) (hfit : Fits e size) :
    ∃ h', h.takeBlock size ((l₁.getLast?.map Extent.start).getD 0) e.start = h' ∧
      h'.FreeList h'.freeList (l₁ ++ (restOf e size ++ l₂)) ∧
      h'.Header (givenOf e size) magicAlloc ∧
      Frame 12 (givenOf e size :: (l₁ ++ (restOf e size ++ l₂))) h h' ∧
      h'.obtained = h.obtained := by
  have hsize := (hl.header e (by simp)).size
  have hsplits := hfit.splits_iff hsize
  unfold Heap.takeBlock givenOf restOf
  by_cases hroom : size + headerSize + minAlloc ≤ e.len - headerSize
  · simp only [if_pos hroom, if_pos (hsplits.mpr hroom)]
    obtain ⟨h1, rfl, hl1, hframe1, hob1⟩ := hl.split (hfit.splitting hsize hroom)
    obtain ⟨h2, rfl, hl2, hhead, hframe2, hob2⟩ := hl1.unlinked
    refine ⟨_, rfl, hl2, hhead, Frame.trans (hframe1.mono le_rfl fun b hb => ?_) hframe2,
      hob2.trans hob1⟩
    simp only [mem_cons, not_mem_nil, or_false] at hb
    rcases hb with rfl | rfl <;> simp
  · simp only [if_neg hroom, if_neg (mt hsplits.mp hroom)]
    obtain ⟨h1, rfl, hl1, hhead, hframe, hob⟩ := hl.unlinked
    exact ⟨_, rfl, hl1, hhead, hframe, hob⟩

theorem FreeList.takeNew (hl : h.FreeList h.freeList l) (hfit : Fits e size)
    (hhead : h.Header e magicFree) (hap : ∀ f ∈ l, e.Apart f) :
    ∃ h' avail', h.takeNew size e.start = some h' ∧ h'.FreeList h'.freeList avail' ∧
      (∀ f, f ∈ avail' ↔ f ∈ restOf e size ∨ f ∈ l) ∧ h'.Header (givenOf e size) magicAlloc ∧
      Frame 12 (givenOf e size :: avail') h h' ∧ h'.obtained = h.obtained := by
  have hsplits := hfit.splits_iff hhead.size
  have hem := hfit.shape.start_mod
  unfold Heap.takeNew givenOf restOf
  by_cases hroom : size + headerSize + minAlloc ≤ e.len - headerSize
  · simp only [if_pos hroom, if_pos (hsplits.mpr hroom)]
    have hs := hfit.splitting hhead.size hroom
    obtain ⟨hfront, hback⟩ := hs.shapes
    obtain ⟨hsize, -, hbhead, -, hframe1⟩ := hs.split (show 0 < 2 ^ 32 by decide)
    have hparts : ∀ b ∈ [front e size, back e size], Shape b ∧ b.Within e := by
      have hg := hfit.given
      have hr := hfit.rest (r := back e size)
      unfold givenOf at hg
      unfold restOf at hr
      rw [if_pos hroom] at hg hr
      intro b hb
      simp only [mem_cons, not_mem_nil, or_false] at hb
      rcases hb with rfl | rfl
      · exact ⟨hfront, hg.2.2.1⟩
      · exact ⟨hback, (hr (by simp)).2.1⟩
    have hap' : ∀ b ∈ [front e size, back e size], ∀ f ∈ l, b.Apart f :=
      fun b hb f hf => (hap f hf).mono (hparts b hb).2 (.refl f)
    have hadd : (h.split e.start size 0).Adds l (back e size) :=
      { list := hl.frame hframe1 (by decide) (fun b hb => (hparts b hb).1) hap'
        shape := hback
        size := hbhead.size
        apart := hap' (back e size) (by simp) }
    obtain ⟨h2, hrun, hl2, hframe2, hob2⟩ := hadd.addToFreeList
    have hfb : (front e size).Apart (back e size) := .inl (Nat.add_assoc ..).symm.le
    have hframe3 : Frame 12 (back e size :: l) (h.split e.start size 0) h2 :=
      ((Frame.refl 12 _ _).setMagic mem_cons_self le_rfl).trans (hframe2.mono (by decide)
        fun _ => id)
    have hsize2 : h2.size e.start = size := by
      refine (hframe3.apart (by decide) (fun b hb => ?_) hfront fun b hb => ?_).1.trans hsize
      · rcases mem_cons.mp hb with rfl | hb
        · exact hback
        · exact hl.shape b hb
      · rcases mem_cons.mp hb with rfl | hb
        · exact hfb.symm
        · exact (hap' (front e size) (by simp) b hb).symm
    have hfree : ∀ f, f ∈ Extent.insert (back e size) l → (front e size).Apart f := by
      intro f hf
      rcases Extent.mem_insert.mp hf with rfl | hf
      · exact hfb
      · exact hap' (front e size) (by simp) f hf
    refine ⟨h2.setMagic e.start magicAlloc, Extent.insert (back e size) l, ?_, ?_, fun f => ?_,
      ⟨?_, magic_setMagic_self (by decide)⟩, ?_, hob2⟩
    · rw [hs.newBlock, hrun]
      rfl
    · refine hl2.frame (S := [front e size])
        ((Frame.refl 12 _ h2).setMagic (e := front e size) (by simp) le_rfl) (by decide)
        (fun b hb => ?_) fun b hb f hf => ?_
      · rw [mem_singleton.mp hb]
        exact hfront
      · rw [mem_singleton.mp hb]
        exact hfree f hf
    · rw [Extent.mem_insert, mem_singleton]
    · change Heap.size _ e.start = headerSize + size - headerSize
      rw [size_setMagic hem hem (by omega), hsize2, Nat.add_sub_cancel_left]
    · have hall : Frame 12 (front e size :: Extent.insert (back e size) l) h h2 := by
        refine (hframe1.mono le_rfl fun b hb => ?_).trans (hframe3.mono le_rfl fun b hb => ?_)
        · simp only [mem_cons, not_mem_nil, or_false] at hb
          rcases hb with rfl | rfl
          · simp
          · exact mem_cons_of_mem _ (Extent.mem_insert.mpr (.inl rfl))
        · exact mem_cons_of_mem _ (Extent.mem_insert.mpr (mem_cons.mp hb))
      exact hall.setMagic (e := front e size) mem_cons_self le_rfl
  · simp only [if_neg hroom, if_neg (mt hsplits.mp hroom), Option.map_some]
    refine ⟨h.setMagic e.start magicAlloc, l, rfl, ?_,
      fun f => by simp, ⟨?_, magic_setMagic_self (by decide)⟩,
      (Frame.refl 12 _ h).setMagic mem_cons_self le_rfl, rfl⟩
    · refine hl.frame (S := [e]) ((Frame.refl 12 _ h).setMagic (by simp) le_rfl) (by decide)
        (fun b hb => ?_) fun b hb => ?_
      · rw [mem_singleton.mp hb]
        exact hfit.shape
      · rw [mem_singleton.mp hb]
        exact hap
    · rw [size_setMagic hem hem (by omega), hhead.size]

structure Given (h h' : Heap) (avail avail' live : List Extent) (b : Extent) (size : ℕ) : Prop where
  ok : h'.Ok avail' (b :: live)
  fits : size ≤ b.len - headerSize
  frame : ∀ x, ¬ b.Has x → (∀ f ∈ avail', ¬ (f.start ≤ x ∧ x < f.start + 12)) → h'.mem x = h.mem x
  kept : ∀ g ∈ avail, ∀ a, g.start ≤ a → a + 32 ≤ g.fin → ¬ b.Has a → ∃ g' ∈ avail', g'.start ≤ a ∧
    a + 32 ≤ g'.fin

theorem Ok.given (hok : h.Ok avail live) (hfit : Fits e size)
    (hlist : h'.FreeList h'.freeList avail')
    (hmem : ∀ f ∈ avail', f ∈ restOf e size ∨ f ∈ avail ∧ f.Apart e)
    (hkept : ∀ g ∈ avail, g = e ∨ g ∈ avail') (hrest : ∀ r ∈ restOf e size, r ∈ avail')
    (hhead : h'.Header (givenOf e size) magicAlloc)
    (hframe : Frame 12 (givenOf e size :: avail') h h')
    (hob : ∀ r ∈ h.obtained, r ∈ h'.obtained) (hnew : ∀ x, e.Has x → ∃ r ∈ h'.obtained, r.Has x)
    (hlive : ∀ f ∈ live, e.Apart f) : Given h h' avail avail' live (givenOf e size) size := by
  obtain ⟨hshape, -, hwithin, hfits⟩ := hfit.given
  have hfree : ∀ f ∈ avail', f.Apart (givenOf e size) ∧ ∀ g ∈ live, f.Apart g := by
    intro f hf
    rcases hmem f hf with hf | ⟨hf, hfe⟩
    · obtain ⟨-, hw, hap⟩ := hfit.rest hf
      exact ⟨hap, fun g hg => (hlive g hg).mono hw (.refl g)⟩
    · exact ⟨hfe.mono (.refl f) hwithin, hok.apart f hf⟩
  have hgiven : ∀ f ∈ live, (givenOf e size).Apart f :=
    fun f hf => (hlive f hf).mono hwithin (.refl f)
  refine ⟨⟨hlist, fun f hf => ?_, fun f hf => ?_, pairwise_cons.mpr ⟨hgiven, hok.live_apart⟩,
    fun f hf g hg => ?_, fun f hf x hx => ?_⟩, hfits, fun x hx hx' => hframe x fun f hf => ?_,
    fun g hg a ha ha' hnot => ?_⟩
  · rcases mem_cons.mp hf with rfl | hf
    · exact hshape
    · exact hok.shape f hf
  · rcases mem_cons.mp hf with rfl | hf
    · exact hhead
    · refine (hok.header f hf).frame hframe (by decide) (fun b hb => ?_) (hok.shape f hf)
        fun b hb => ?_
      · rcases mem_cons.mp hb with rfl | hb
        · exact hshape
        · exact hlist.shape b hb
      · rcases mem_cons.mp hb with rfl | hb
        · exact hgiven f hf
        · exact (hfree b hb).2 f hf
  · rcases mem_cons.mp hg with rfl | hg
    · exact (hfree f hf).1
    · exact (hfree f hf).2 g hg
  · have hold : f ∈ avail ++ live → ∃ r ∈ h'.obtained, r.Has x := fun hf =>
      have ⟨r, hr, hrx⟩ := hok.obtained f hf x hx
      ⟨r, hob r hr, hrx⟩
    rw [mem_append, mem_cons] at hf
    rcases hf with hf | rfl | hf
    · rcases hmem f hf with hf | ⟨hf, -⟩
      · exact hnew x ((hfit.rest hf).2.1.has hx)
      · exact hold (mem_append_left _ hf)
    · exact hnew x (hwithin.has hx)
    · exact hold (mem_append_right _ hf)
  · rcases mem_cons.mp hf with rfl | hf
    · have := hshape.len_ge
      unfold Extent.Has Extent.fin at hx
      omega
    · exact hx' f hf
  · rcases hkept g hg with rfl | hg
    · obtain ⟨r, hr, hra⟩ := hfit.kept ha ha' hnot
      exact ⟨r, hrest r hr, hra⟩
    · exact ⟨g, hg, ha, ha'⟩

section
variable (hg : Given h h' avail avail' live b size)
include hg

theorem Given.mono {size' : ℕ} (hle : size' ≤ size) :
    Given h h' avail avail' live b size' := ⟨hg.ok, hle.trans hg.fits, hg.frame, hg.kept⟩

theorem Given.data {m : Flat}
    (hm : ∀ x, ¬ (b.start + headerSize ≤ x ∧ x < b.fin) → m x = h'.mem x) :
    Given h { h' with mem := m } avail avail' live b size where
  ok := hg.ok.data fun x hx => hm x (hx b mem_cons_self)
  fits := hg.fits
  frame x hx hx' := (hm x fun hb => hx ⟨by omega, hb.2⟩).trans (hg.frame x hx hx')
  kept := hg.kept

theorem Given.byte (hf : f ∈ live) {x : ℕ} (hx : f.Has x) : h'.mem x = h.mem x := by
  have hbf := (pairwise_cons.mp hg.ok.live_apart).1 f hf
  refine hg.frame x (hbf.symm.not_has hx) fun g hg' hgx => ?_
  have hlen := (hg.ok.list.shape g hg').len_ge
  exact (hg.ok.apart g hg' f (by simp [hf])).symm.not_has hx ⟨hgx.1, by unfold Extent.fin; omega⟩

end

/-- The memory that `sbrk` returns is above all it has returned before, aligned, and memory of a
program. -/
structure Fresh (h : Heap) (total a : ℕ) : Prop where
  pos : 0 < a
  mod : a % 8 = 0
  fin_le : a + total ≤ kernelVirtBase
  above : ∀ r ∈ h.obtained, r.fin ≤ a

/-- If `malloc(n)` has to ask `sbrk` and gets memory, the request is below `2 ^ 31` and the memory
is fresh. -/
def Asks (h : Heap) (n : ℕ) (sbrk : Option ℕ) : Prop :=
  ∀ prev a, h.search (roundSize n) = some (prev, 0) → sbrk = some a →
    sbrkTotal (roundSize n) < 2 ^ 31 ∧ h.Fresh (sbrkTotal (roundSize n)) a

theorem alignUp_of_lt (hn : n + 7 < 2 ^ 32) :
    n ≤ alignUp n ∧ alignUp n % 8 = 0 ∧ alignUp n ≤ n + 7 := by
  unfold alignUp
  omega

theorem roundSize_of_lt (hn : n + 7 < 2 ^ 32) :
    n ≤ roundSize n ∧ roundSize n % 8 = 0 ∧ minAlloc ≤ roundSize n ∧
    roundSize n ≤ max minAlloc (n + 7) := by
  have := alignUp_of_lt hn
  unfold roundSize minAlloc
  split <;> omega

theorem sbrkTotal_of_lt (hsize : headerSize + size < 2 ^ 32) (hmod : size % 8 = 0) :
    headerSize + size ≤ sbrkTotal size ∧ sbrkTotal size % 8 = 0 := by
  unfold sbrkTotal minSbrkSize headerSize at *
  simp only [Nat.mod_eq_of_lt hsize]
  split <;> omega

theorem requestMemory_some (h : Heap) (he : Shape ⟨a, sbrkTotal size⟩) :
    ∃ h', h.requestMemory size (some a) = (h', a) ∧ h'.Header ⟨a, sbrkTotal size⟩ magicFree ∧
      Frame 12 [⟨a, sbrkTotal size⟩] h h' ∧ h'.freeList = h.freeList ∧
      h'.obtained = ⟨a, sbrkTotal size⟩ :: h.obtained := by
  have ham : a % 8 = 0 := he.start_mod
  have hlt : sbrkTotal size - headerSize < 2 ^ 32 := by
    have := he.fin_lt
    dsimp only at this
    omega
  refine ⟨_, rfl, ⟨?_, magic_setMagic_self (by decide)⟩, ?_, rfl, rfl⟩
  · change Heap.size _ a = _
    rw [size_setMagic ham ham (by omega), size_setNext ham ham, size_setSize_self hlt]
  · have hmem : (⟨a, sbrkTotal size⟩ : Extent) ∈ [(⟨a, sbrkTotal size⟩ : Extent)] := by simp
    exact (((Frame.refl 12 _ h).setSize hmem (by decide)).setNext hmem (by decide)).setMagic
      hmem le_rfl

theorem Ok.fresh_apart (hok : h.Ok avail live) {total : ℕ} (hfresh : h.Fresh total a)
    (hf : f ∈ avail ++ live) : (⟨a, total⟩ : Extent).Apart f := by
  have hshape : Shape f := by
    rcases mem_append.mp hf with hf | hf
    · exact hok.list.shape f hf
    · exact hok.shape f hf
  have hlen := hshape.len_ge
  have hfin : f.fin = f.start + f.len := rfl
  obtain ⟨r, hr, hrx⟩ := hok.obtained f hf (f.fin - 1) ⟨by omega, by omega⟩
  have := hfresh.above r hr
  have := hrx.2
  right
  change f.fin ≤ a
  omega

theorem Ok.malloc_new (hok : h.Ok avail live) (hfit : Fits ⟨a, sbrkTotal size⟩ size)
    (hfresh : h.Fresh (sbrkTotal size) a) :
    ∃ h0 h' avail', h.requestMemory size (some a) = (h0, a) ∧ h0.takeNew size a = some h' ∧
      Given h h' avail avail' live (givenOf ⟨a, sbrkTotal size⟩ size) size := by
  obtain ⟨h0, hreq, hhead, hframe, hfl, hob⟩ := requestMemory_some h hfit.shape
  have hap : ∀ f ∈ avail ++ live, (⟨a, sbrkTotal size⟩ : Extent).Apart f :=
    fun f hf => hok.fresh_apart hfresh hf
  have hlist : h0.FreeList h0.freeList avail := by
    rw [hfl]
    refine hok.list.frame hframe (by decide) (fun b hb => ?_) fun b hb f hf => ?_
    · exact mem_singleton.mp hb ▸ hfit.shape
    · exact mem_singleton.mp hb ▸ hap f (by simp [hf])
  obtain ⟨h', avail', htake, hlist', hmem, hhead', hframe', hob'⟩ :=
    hlist.takeNew hfit hhead fun f hf => hap f (by simp [hf])
  refine ⟨h0, h', avail', hreq, htake,
    hok.given hfit hlist' (fun f hf => ?_) (fun g hg => .inr ?_) (fun r hr => ?_)
    hhead' ?_ (fun r hr => ?_) (fun x hx => ?_) fun f hf => hap f (by simp [hf])⟩
  · rcases (hmem f).mp hf with hf | hf
    · exact .inl hf
    · exact .inr ⟨hf, (hap f (by simp [hf])).symm⟩
  · exact (hmem g).mpr (.inr hg)
  · exact (hmem r).mpr (.inl hr)
  · refine Frame.trans (fun x hx => hframe x fun b hb => ?_) hframe'
    have := hx _ mem_cons_self
    rw [hfit.given.2.1] at this
    exact mem_singleton.mp hb ▸ this
  · rw [hob', hob]
    exact mem_cons_of_mem _ hr
  · rw [hob', hob]
    exact ⟨_, mem_cons_self, hx⟩

theorem Ok.malloc_found (hok : h.Ok (l₁ ++ e :: l₂) live) (hfit : Fits e size) :
    Given h (h.takeBlock size ((l₁.getLast?.map Extent.start).getD 0) e.start) (l₁ ++ e :: l₂)
      (l₁ ++ (restOf e size ++ l₂)) live (givenOf e size) size := by
  obtain ⟨h', rfl, hlist, hhead, hframe, hob⟩ := hok.list.takeBlock hfit
  refine hok.given hfit hlist (fun f hf => ?_) (fun g hg => ?_) (fun r hr => by simp [hr])
    hhead hframe (fun r hr => hob.symm ▸ hr) (fun x hx => ?_) fun f hf => hok.apart e (by simp) f hf
  · have haround := hok.list.around (f := f)
    simp only [mem_append] at hf haround
    rcases hf with hf | hf | hf
    · exact .inr ⟨mem_append.mpr (haround (.inl hf)).1, (haround (.inl hf)).2⟩
    · exact .inl hf
    · exact .inr ⟨mem_append.mpr (haround (.inr hf)).1, (haround (.inr hf)).2⟩
  · simp only [mem_append, mem_cons] at hg ⊢
    tauto
  · obtain ⟨r, hr, hrx⟩ := hok.obtained e (by simp) x hx
    exact ⟨r, hob.symm ▸ hr, hrx⟩

theorem Ok.malloc (hok : h.Ok avail live) (hn : n + 23 < 2 ^ 32) {sbrk : Option ℕ}
    (hask : h.Asks n sbrk) : ∃ h' p, h.malloc n sbrk = some (h', p) ∧ (p = 0 ∧ h' = h ∨
      0 < n ∧ ∃ b avail', p = b.start + headerSize ∧
      Given h h' avail avail' live b (roundSize n)) := by
  obtain ⟨-, hmod, hge, hle⟩ := roundSize_of_lt (n := n) (by omega)
  by_cases hn0 : n = 0
  · exact ⟨h, 0, if_pos hn0, .inl ⟨rfl, rfl⟩⟩
  have hptr : ∀ {e : Extent}, Fits e (roundSize n) →
      (e.start + headerSize) % 2 ^ 32 = (givenOf e (roundSize n)).start + headerSize := by
    intro e hfit
    have h1 := hfit.shape.fin_lt
    have h2 := hfit.shape.len_ge
    rw [hfit.given.2.1]
    exact Nat.mod_eq_of_lt (by unfold headerSize; omega)
  rw [Heap.malloc, if_neg hn0]
  rcases hok.list.searchFrom (roundSize n) walkLimit 0 hok.list.length_lt with ⟨l₁, e, l₂, rfl,
    hfits, hs⟩ | ⟨p, hs⟩
  · have hfit : Fits e (roundSize n) := ⟨hok.list.shape e (by simp), hmod, hge, hfits⟩
    refine ⟨_, _, ?_, .inr ⟨by omega, _, _, hptr hfit, hok.malloc_found hfit⟩⟩
    simp only [search, hs, Option.bind_eq_bind, Option.bind_some, if_pos hfit.shape.pos.ne']
  · simp only [search, hs, Option.bind_eq_bind, Option.bind_some, ne_eq, not_true, if_false]
    cases sbrk with
    | none => exact ⟨h, 0, rfl, .inl ⟨rfl, rfl⟩⟩
    | some a =>
      obtain ⟨-, hfresh⟩ := hask p a hs rfl
      obtain ⟨htotal, htmod⟩ := sbrkTotal_of_lt
        (show headerSize + roundSize n < 2 ^ 32 by unfold headerSize minAlloc at *; omega) hmod
      have hfit : Fits ⟨a, sbrkTotal (roundSize n)⟩ (roundSize n) := by
        refine ⟨⟨hfresh.pos, hfresh.mod, htmod, ?_, hfresh.fin_le⟩, hmod, hge,
          ?_⟩ <;> dsimp only <;>
          unfold headerSize minAlloc at * <;> omega
      obtain ⟨h0, h', avail', hreq, htake, hgiven⟩ := hok.malloc_new hfit hfresh
      refine ⟨h', (a + headerSize) % 2 ^ 32, ?_, .inr ⟨by omega, _, avail', hptr hfit, hgiven⟩⟩
      simp only [hreq, if_neg hfresh.pos.ne', htake, Option.bind_some]

theorem blockOf_eq (he : Shape e) : blockOf (e.start + headerSize) = e.start := by
  have := he.start_lt
  unfold blockOf headerSize
  omega

theorem Ok.free (hok : h.Ok avail live) (he : e ∈ live) {live' : List Extent}
    (hsub : live'.Sublist live) (hap : ∀ f ∈ live', e.Apart f) :
    ∃ h', h.free (e.start + headerSize) = some h' ∧
    h'.Ok (Extent.merge (Extent.insert e avail)) live' ∧
      Frame 8 (e :: avail) (h.setMagic e.start magicFree) h' ∧
      Extent.Separated (Extent.merge (Extent.insert e avail)) := by
  have hshape := hok.shape e he
  have hapart : ∀ f ∈ avail, e.Apart f := fun f hf => (hok.apart f hf e he).symm
  have hadd : h.Adds avail e := ⟨hok.list, hshape, (hok.header e he).size, hapart⟩
  obtain ⟨h1, hadd1, hlist1, hframe1, hob1⟩ := hadd.addToFreeList
  obtain ⟨h', hco, hlist', hframe', hob'⟩ := hlist1.coalesce
  have hframe : Frame 8 (e :: avail) (h.setMagic e.start magicFree) h' :=
    hframe1.trans (hframe'.mono le_rfl fun f hf => mem_cons.mpr (Extent.mem_insert.mp hf))
  have hall : Frame 12 (e :: avail) h h' :=
    ((Frame.refl 12 _ h).setMagic mem_cons_self le_rfl).trans (hframe.mono (by decide) fun _ => id)
  refine ⟨h', ?_,
    ⟨hlist', fun f hf => hok.shape f (hsub.subset hf), fun f hf => ?_, hok.live_apart.sublist hsub,
    fun f hf g hg => ?_, fun f hf x hx => ?_⟩, hframe,
    hlist1.sorted.merge fun f hf => (hlist1.shape f hf).len_pos⟩
  · have hmagic : h.magic e.start = magicAlloc := (hok.header e he).magic
    rw [Heap.free, if_neg (by unfold headerSize; omega), blockOf_eq hshape, hmagic,
      if_neg (by decide), if_neg (fun hne => hne rfl), hadd1]
    exact hco
  · refine (hok.header f (hsub.subset hf)).frame hall (by decide) (fun b hb => ?_)
      (hok.shape f (hsub.subset hf)) fun b hb => ?_
    · rcases mem_cons.mp hb with rfl | hb
      · exact hshape
      · exact hok.list.shape b hb
    · rcases mem_cons.mp hb with rfl | hb
      · exact hap f hf
      · exact hok.apart b hb f (hsub.subset hf)
  · refine Extent.forall_merge (P := fun b => b.Apart g) (fun b c hb hc hfin => hb.join ?_ hc hfin)
      (fun b hb => ?_) f hf
    · exact (hok.shape g (hsub.subset hg)).len_pos
    · rcases Extent.mem_insert.mp hb with rfl | hb
      · exact hap g hg
      · exact hok.apart b hb g (hsub.subset hg)
  · rw [hob', hob1]
    rcases mem_append.mp hf with hf | hf
    · refine Extent.forall_merge (P := fun b => ∀ x, b.Has x → ∃ r ∈ h.obtained, r.Has x)
        (fun b c hb hc hfin x hx => ?_) (fun b hb => ?_) f hf x hx
      · by_cases hbx : x < b.fin
        · exact hb x ⟨hx.1, hbx⟩
        · refine hc x ⟨by omega, ?_⟩
          have := hx.2
          rwa [Extent.fin_join hfin] at this
      · rcases Extent.mem_insert.mp hb with rfl | hb
        · exact hok.obtained b (by simp [he])
        · exact hok.obtained b (by simp [hb])
    · exact hok.obtained f (mem_append_right _ (hsub.subset hf)) x hx

end Heap

end Xnix
