import Xnix.Proofs.Malloc

/-!
# Freed pointers, `calloc` and `realloc`

A pointer that was freed keeps a header that says so as long as no block is given out over it
(`Heap.Stale`), so `free` finds out a second time. `calloc` is `malloc` and a clearing of the data,
`realloc` a `malloc`, a copy and a `free`.
-/

namespace Xnix

open List Lib Extent

open Lib (Extent)

namespace Heap

variable {h h' : Heap} {e f b : Extent} {avail avail' live : List Extent} {n ptr size : ℕ}

def extent (h : Heap) (ptr : ℕ) : Extent :=
    ⟨ptr - headerSize, headerSize + h.size (ptr - headerSize)⟩

theorem Ok.extent_eq (hok : h.Ok avail live) (he : e ∈ live) :
    h.extent (e.start + headerSize) = e := by
  have hlen := (hok.shape e he).len_ge
  have hsize := (hok.header e he).size
  have hadd : headerSize + (e.len - headerSize) = e.len := by
    unfold headerSize
    omega
  rw [extent, Nat.add_sub_cancel, hsize, hadd]

/-- A freed pointer whose header still is that of a free block, inside a block of the free list. -/
def Stale (h : Heap) (avail : List Extent) (ptr : ℕ) : Prop :=
  ptr % 8 = 0 ∧ h.magic (ptr - headerSize) = magicFree ∧
    ∃ g ∈ avail, g.start + headerSize ≤ ptr ∧ ptr - headerSize + 32 ≤ g.fin

theorem Given.stale (hg : Given h h' avail avail' live b size) (hs : h.Stale avail ptr)
    (hb : ¬ b.Has (ptr - headerSize)) : h'.Stale avail' ptr := by
  obtain ⟨hmod, hmagic, g, hgmem, hstart, hfin⟩ := hs
  obtain ⟨g', hg', hstart', hfin'⟩ := hg.kept g hgmem (ptr - headerSize) (by omega) hfin hb
  refine ⟨hmod, ?_, g', hg', by omega, hfin'⟩
  by_cases hhead : ∃ f ∈ avail', f.start = ptr - headerSize
  · obtain ⟨f, hf, hfs⟩ := hhead
    rw [← hfs]
    exact (hg.ok.list.header f hf).magic
  · refine (Flat.load_congr fun x hx hx' => hg.frame x (fun hbx => ?_)
      fun f hf hfx => ?_).trans hmagic
    · have hap := (hg.ok.apart g' hg' b mem_cons_self).symm.not_has hbx
      exact hap ⟨by omega, by omega⟩
    · have hfm := (hg.ok.list.shape f hf).start_mod
      have hne : f.start ≠ ptr - headerSize := fun h => hhead ⟨f, hf, h⟩
      by_cases hfg : f = g'
      · subst hfg
        unfold headerSize at *
        omega
      · have hap := hg.ok.list.sorted.apart hf hg' hfg
        have hlen := (hg.ok.list.shape f hf).len_ge
        unfold Extent.Apart at hap
        have hffin : f.fin = f.start + f.len := rfl
        omega

theorem Ok.apart_cons (hok : h.Ok avail live) (he : e ∈ live) {g : Extent} (hf : f ∈ e :: avail)
    (hg : g ∈ e :: avail) (hne : f ≠ g) : f.Apart g := by
  rcases mem_cons.mp hf with rfl | hf'
  · rcases mem_cons.mp hg with rfl | hg'
    · exact absurd rfl hne
    · exact (hok.apart g hg' f he).symm
  · rcases mem_cons.mp hg with rfl | hg'
    · exact hok.apart f hf' g he
    · exact hok.list.sorted.apart hf' hg' hne

/-- Freeing a block leaves the headers in free blocks, and that of the block itself says that it is
free. -/
theorem Ok.stale_free (hok : h.Ok avail live) (he : e ∈ live)
    (hframe : Frame 8 (e :: avail) (h.setMagic e.start magicFree) h')
    (hs : h.Stale avail ptr ∨ ptr = e.start + headerSize) :
    h'.Stale (Extent.merge (Extent.insert e avail)) ptr := by
  have heshape := hok.shape e he
  have hem := heshape.start_mod
  have helen := heshape.len_ge
  obtain ⟨hmod, hmagic, g, hg, hstart, hfin⟩ : ptr % 8 = 0 ∧
      (h.setMagic e.start magicFree).magic (ptr - headerSize) = magicFree ∧
      ∃ g ∈ e :: avail, g.start + headerSize ≤ ptr ∧ ptr - headerSize + 32 ≤ g.fin := by
    rcases hs with ⟨hmod, hmagic, g, hg, hstart, hfin⟩ | rfl
    · refine ⟨hmod, ?_, g, mem_cons_of_mem e hg, hstart, hfin⟩
      rw [magic_setMagic_of_ne (by unfold headerSize; omega) hem, hmagic]
      intro heq
      exact (hok.apart g hg e he).not_has ⟨by omega, by omega⟩
        ⟨le_rfl, by unfold fin; omega⟩
    · have hptr : e.start + headerSize - headerSize = e.start := Nat.add_sub_cancel ..
      exact ⟨by unfold headerSize; omega, magic_setMagic_self (by decide), e, mem_cons_self, le_rfl,
        by unfold fin; omega⟩
  obtain ⟨g', hg', hwithin⟩ := within_merge (mem_insert.mpr (mem_cons.mp hg))
  refine ⟨hmod, ?_, g', hg', ?_, hfin.trans hwithin.2⟩
  · refine (hframe.load fun f hf => ?_).trans hmagic
    by_cases hfg : f = g
    · subst hfg
      right
      omega
    · have hap := hok.apart_cons he hf hg hfg
      have hffin : f.fin = f.start + f.len := rfl
      unfold Extent.Apart at hap
      omega
  · have := hwithin.1
    omega

theorem Stale.free (hs : h.Stale avail ptr) (hok : h.Ok avail live) : h.free ptr = some h := by
  obtain ⟨hmod, hmagic, g, hg, hstart, hfin⟩ := hs
  have hpos := (hok.list.shape g hg).pos
  have hlt := (hok.list.shape g hg).fin_lt
  have hblock : blockOf ptr = ptr - headerSize := by
    unfold fin at hfin
    unfold blockOf headerSize at *
    omega
  rw [Heap.free, if_neg (by omega), hblock, if_pos hmagic]

theorem Ok.calloc (hok : h.Ok avail live) {nmemb : ℕ} {sbrk : Option ℕ}
    (hn : nmemb * size < 2 ^ 32 → nmemb * size + 23 < 2 ^ 32 ∧ h.Asks (nmemb * size) sbrk) :
    ∃ h' p, h.calloc nmemb size sbrk = some (h', p) ∧ (p = 0 ∧ h' = h ∨
      0 < nmemb * size ∧ ∃ b avail', p = b.start + headerSize ∧
      Given h h' avail avail' live b (nmemb * size)) := by
  unfold Heap.calloc
  by_cases hover : nmemb ≠ 0 ∧ (2 ^ 32 - 1) / nmemb < size
  · exact ⟨h, 0, if_pos hover, .inl ⟨rfl, rfl⟩⟩
  have htotal : nmemb * size < 2 ^ 32 := by
    by_cases h0 : nmemb = 0
    · rw [h0, Nat.zero_mul]
      decide
    · have hle : size ≤ (2 ^ 32 - 1) / nmemb := Nat.le_of_not_lt fun hlt => hover ⟨h0, hlt⟩
      have := (Nat.le_div_iff_mul_le (Nat.pos_of_ne_zero h0)).mp hle
      rw [Nat.mul_comm] at this
      omega
  obtain ⟨hsmall, hask⟩ := hn htotal
  obtain ⟨h', p, hrun, hres⟩ := hok.malloc hsmall hask
  simp only [if_neg hover, Nat.mod_eq_of_lt htotal, hrun, Option.bind_eq_bind, Option.bind_some]
  rcases hres with ⟨rfl, rfl⟩ | ⟨hpos, b, avail', rfl, hgiven⟩
  · exact ⟨h', 0, by simp, .inl ⟨rfl, rfl⟩⟩
  · have hb : b.start + headerSize ≠ 0 := by
      unfold headerSize
      omega
    have hle := (roundSize_of_lt (n := nmemb * size) (by omega)).1
    have hfits := hgiven.fits
    refine ⟨_, _, by rw [if_pos hb],
      .inr ⟨hpos, b, avail', rfl, (hgiven.mono hle).data fun x hx => ?_⟩⟩
    refine Flat.fill_of_ne ?_
    unfold fin at hx
    omega

/-- `realloc` of a block that was given out: it fails, or the block is large enough, or its data
moves to a new block and it is freed. -/
theorem Ok.realloc (hok : h.Ok avail live) (he : e ∈ live) (hn0 : n ≠ 0) (hn : n + 23 < 2 ^ 32)
    {sbrk : Option ℕ} (hask : e.len - headerSize < alignUp n → h.Asks (alignUp n) sbrk) :
    ∃ h' q, h.realloc (e.start + headerSize) n sbrk = some (h', q) ∧ (q = 0 ∧ h' = h ∨
      q = e.start + headerSize ∧ h' = h ∧ n ≤ e.len - headerSize ∨
      ∃ b avail' h1, q = b.start + headerSize ∧ n ≤ b.len - headerSize ∧
      Given h h1 avail avail' live b n ∧
        h1.free (e.start + headerSize) = some h' ∧ e.len ≤ b.len ∧
        ∀ i < e.len - headerSize, h1.mem (q + i) = h.mem (e.start + headerSize + i)) := by
  have hshape := hok.shape e he
  have hp : e.start + headerSize ≠ 0 := by
    unfold headerSize
    omega
  obtain ⟨hle, hmod, hle'⟩ := alignUp_of_lt (n := n) (by omega)
  unfold Heap.realloc
  rw [if_neg hp, if_neg hn0, blockOf_eq hshape, if_neg (fun hne => hne (hok.header e he).magic),
    (hok.header e he).size]
  by_cases hfits : alignUp n ≤ e.len - headerSize
  · exact ⟨h, _, if_pos hfits, .inr (.inl ⟨rfl, rfl, hle.trans hfits⟩)⟩
  obtain ⟨h1, q, hrun, hres⟩ := hok.malloc (by omega) (hask (by omega))
  simp only [if_neg hfits, hrun, Option.bind_eq_bind, Option.bind_some]
  rcases hres with ⟨rfl, rfl⟩ | ⟨-, b, avail', rfl, hgiven⟩
  · exact ⟨h1, 0, if_pos rfl, .inl ⟨rfl, rfl⟩⟩
  have hq : b.start + headerSize ≠ 0 := by
    unfold headerSize
    omega
  have hround := (roundSize_of_lt (n := alignUp n) (by omega)).1
  have hbfits := hgiven.fits
  have hsize : h1.size e.start = e.len - headerSize := (hgiven.ok.header e (by simp [he])).size
  rw [if_neg hq, hsize]
  have hcopied : Given h { h1 with
      mem := h1.mem.copy (b.start + headerSize) (e.start + headerSize) (e.len - headerSize) }
      avail avail' live b n :=
    (hgiven.mono (by omega)).data fun x hx => Flat.copy_of_ne (by unfold fin at hx; omega)
  obtain ⟨h', hfree, -⟩ := hcopied.ok.free (mem_cons_of_mem b he) (nil_sublist _) (by simp)
  refine ⟨h', _, by rw [hfree]; rfl,
    .inr (.inr ⟨b, avail', _, rfl, by omega, hcopied, hfree, by omega, fun i hi => ?_⟩)⟩
  change h1.mem.copy _ _ _ _ = _
  rw [Flat.copy_apply hi]
  exact hgiven.byte he ⟨by omega, by unfold fin; unfold headerSize at *; omega⟩

end Heap

end Xnix
