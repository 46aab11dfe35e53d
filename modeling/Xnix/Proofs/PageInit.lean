import Xnix.PageAlloc

/-!
# The allocator's first bitmap

Each usable region of the memory map clears one run of bits, which `bitmap_clear_range` extends down
to the start of the run's last word. Over the whole map, the clear bits are those of the regions and
of these extensions.
-/

namespace Xnix

open List Lib Bitmap

variable {m : MemoryRange} {r : ArchMemRegion} {b : Bitmap} {j pfn s e total : ℕ}

theorem clearWhile_spec {more : ℕ → Bool} : ∀ {left : ℕ} {b : Bitmap} {i k : ℕ} {b' : Bitmap},
    clearWhile more left b i = (b', k) → i ≤ k ∧ k ≤ i + left ∧ (k < i + left → more k = false) ∧
      ∀ j, b'.test j = (!decide (i ≤ j ∧ j < k) && b.test j)
  | 0, b, i, k, b', h => by
    cases h
    refine ⟨le_rfl, le_rfl, fun hlt => absurd hlt (lt_irrefl _), fun j => ?_⟩
    simp [show ¬ (i ≤ j ∧ j < i) by omega]
  | left + 1, b, i, k, b', h => by
    rw [clearWhile] at h
    split at h
    · obtain ⟨hle, hk, hstop, htest⟩ := clearWhile_spec h
      refine ⟨by omega, by omega, fun hlt => hstop (by omega), fun j => ?_⟩
      rw [htest, test_clear, ← Bool.and_assoc, ← Bool.not_or, ← Bool.decide_or]
      congr 2
      exact decide_eq_decide.mpr (by omega)
    · rename_i hmore
      cases h
      refine ⟨le_rfl, by omega, fun _ => by simpa using hmore, fun j => ?_⟩
      simp [show ¬ (i ≤ j ∧ j < i) by omega]

theorem test_zeroWords (b : Bitmap) (lo hi j : ℕ) :
    (zeroWords b lo hi).test j = (!decide (lo ≤ j / 32 ∧ j / 32 < hi) && b.test j) := by
  rw [test_eq_getLsbD, test_eq_getLsbD, zeroWords]
  split <;> simp [*]

/-- The bits from `s` up to `e` are cleared, and those before `s` in the word of `e`. -/
theorem test_bitmapClearRange (hlt : s < e) (he : e ≤ total) (b : Bitmap) (j : ℕ) :
    (bitmapClearRange total b s e).test j =
    (!decide (min s (e / 32 * 32) ≤ j ∧ j < e) && b.test j) := by
  rcases hhead : clearWhile (· % 32 != 0) (e - s) b s with ⟨b₁, i⟩
  rcases htail : clearWhile (fun _ => true) (e - e / 32 * 32) (zeroWords b₁ (i / 32) (e / 32))
    (e / 32 * 32) with ⟨b₂, k⟩
  obtain ⟨hsi, hie, hstop, htest₁⟩ := clearWhile_spec hhead
  obtain ⟨hk, hke, hkstop, htest₂⟩ := clearWhile_spec htail
  have hend : k = e := by
    by_contra hne
    exact Bool.noConfusion (hkstop (by omega))
  have hword : i = e ∨ i % 32 = 0 := by
    by_cases hi : i = e
    · exact .inl hi
    · exact .inr (by simpa using hstop (by omega))
  rw [bitmapClearRange, if_neg (by omega), hhead]
  simp only [htail, htest₂, test_zeroWords, htest₁, ← Bool.and_assoc, ← Bool.not_or,
    ← Bool.decide_or]
  congr 2
  exact decide_eq_decide.mpr (by omega)

/-- The page at `addr` lies entirely inside the region, which is usable. -/
def ArchMemRegion.Holds (r : ArchMemRegion) (addr : ℕ) : Prop :=
  r.type = archMemUsable ∧ r.start ≤ addr ∧ addr + pageSize ≤ r.endAddr

instance (r : ArchMemRegion) (addr : ℕ) : Decidable (r.Holds addr) :=
    inferInstanceAs (Decidable (_ ∧ _))

def MemoryRange.pageAt (m : MemoryRange) (pfn : ℕ) : ℕ := m.memoryStart + pfn * pageSize

/-- The pages that are counted for a region. -/
def MemoryRange.counted (m : MemoryRange) (r : ArchMemRegion) : List ℕ :=
  match m.regionPages r with
  | none => []
  | some (startPfn, endPfn) => range' startPfn (endPfn - startPfn)

/-- The pages before a region's first one in the word of its end. -/
def MemoryRange.Before (m : MemoryRange) (r : ArchMemRegion) (pfn : ℕ) : Prop :=
  ∃ c ∈ m.regionPages r, c.2 / 32 * 32 ≤ pfn ∧ pfn < c.1

/-- A region's pages are those of the managed range that lie entirely inside it. -/
theorem regionPages_spec (m : MemoryRange) (r : ArchMemRegion) : match m.regionPages r with
    | none => ∀ pfn < m.totalPages, ¬ r.Holds (m.pageAt pfn)
    | some (s, e) => s < e ∧ e ≤ m.totalPages ∧
        ∀ pfn, s ≤ pfn ∧ pfn < e ↔ pfn < m.totalPages ∧ r.Holds (m.pageAt pfn) := by
  have := m.end_eq
  have := m.end_lt
  have := m.start_aligned
  simp only [ArchMemRegion.Holds, MemoryRange.pageAt, pageSize] at *
  rw [MemoryRange.regionPages]
  by_cases ht : r.type = archMemUsable
  · rw [if_neg (not_not_intro ht)]
    by_cases hout : r.endAddr ≤ m.memoryStart ∨ m.memoryEnd ≤ r.start
    · rw [if_pos hout]
      rintro pfn hpfn ⟨-, hstart, hend⟩
      omega
    · rw [if_neg hout]
      generalize hlo : (if r.start < m.memoryStart then m.memoryStart else r.start) = lo
      generalize hhi : (if m.memoryEnd < r.endAddr then m.memoryEnd else r.endAddr) = hi
      have hlo : lo = max r.start m.memoryStart := by
        split_ifs at hlo <;> omega
      have hhi : hi = min r.endAddr m.memoryEnd := by
        split_ifs at hhi <;> omega
      have hwrap : (lo + 4096 - 1) % 2 ^ 32 = lo + 4096 - 1 := Nat.mod_eq_of_lt (by omega)
      simp only [pageAlignUp, pageAlignDown, pageSize, hwrap, ht, true_and]
      by_cases hempty : hi / 4096 * 4096 ≤ (lo + 4096 - 1) / 4096 * 4096
      · rw [if_pos hempty]
        intro pfn hpfn
        omega
      · rw [if_neg hempty]
        refine ⟨by omega, by omega, fun pfn => ?_⟩
        omega
  · rw [if_pos ht]
    exact fun _ _ h => ht h.1

theorem mem_counted : pfn ∈ m.counted r ↔ pfn < m.totalPages ∧ r.Holds (m.pageAt pfn) := by
  have h := regionPages_spec m r
  rw [MemoryRange.counted]
  rcases hr : m.regionPages r with _ | ⟨s, e⟩ <;> rw [hr] at h
  · simpa using h pfn
  · rw [← h.2.2, mem_range'_1]
    have := h.1
    omega

theorem nodup_counted (m : MemoryRange) (r : ArchMemRegion) : (m.counted r).Nodup := by
  rw [MemoryRange.counted]
  split
  · exact nodup_nil
  · exact nodup_range'

/-- The step of the loop over the map. -/
theorem freeRegion_spec {a : PageAlloc} (h : a.nowFreePages < 2 ^ 32) (r : ArchMemRegion) :
    (a.freeRegion r).range = a.range ∧
      (a.freeRegion r).nowFreePages = (a.nowFreePages + (a.range.counted r).length) % 2 ^ 32 ∧
      ∀ j, (a.freeRegion r).pageBitmap.test j = false ↔
        a.pageBitmap.test j = false ∨ j ∈ a.range.counted r ∨ a.range.Before r j := by
  have hr := regionPages_spec a.range r
  unfold PageAlloc.freeRegion MemoryRange.counted MemoryRange.Before
  rcases hp : a.range.regionPages r with _ | ⟨s, e⟩ <;> rw [hp] at hr
  · exact ⟨rfl, (Nat.mod_eq_of_lt h).symm, fun j => by simp⟩
  · refine ⟨rfl, by simp, fun j => ?_⟩
    simp only [test_bitmapClearRange hr.1 hr.2.1, mem_range'_1, Option.mem_some_iff,
      exists_eq_left', Bool.and_eq_false_iff, Bool.not_eq_false', decide_eq_true_eq]
    have := hr.1
    rw [or_comm]
    exact or_congr_right (by omega)

section Map

variable {regions : List ArchMemRegion} {a : PageAlloc}

theorem freeRegions_spec : ∀ (regions : List ArchMemRegion) {a : PageAlloc},
    a.nowFreePages < 2 ^ 32 → (regions.foldl PageAlloc.freeRegion a).range = a.range ∧
      (regions.foldl PageAlloc.freeRegion a).nowFreePages =
        (a.nowFreePages + (regions.flatMap a.range.counted).length) % 2 ^ 32 ∧
      ∀ j, (regions.foldl PageAlloc.freeRegion a).pageBitmap.test j = false ↔
        a.pageBitmap.test j = false ∨ ∃ r ∈ regions, j ∈ a.range.counted r ∨ a.range.Before r j
  | [], a, h => ⟨rfl, (Nat.mod_eq_of_lt h).symm, fun j => by simp⟩
  | r :: regions, a, h => by
    obtain ⟨hrange, hfree, htest⟩ := freeRegion_spec h r
    obtain ⟨hrange', hfree', htest'⟩ := freeRegions_spec regions (hfree ▸ Nat.mod_lt _ (by decide))
    rw [hrange] at hrange' hfree' htest'
    refine ⟨hrange', ?_, fun j => ?_⟩
    · rw [foldl_cons, hfree', hfree, Nat.mod_add_mod, flatMap_cons, length_append, Nat.add_assoc]
    · rw [foldl_cons, htest', htest, exists_mem_cons_iff, or_assoc]

/-- The maps that are taken in as they are: there is a region, no page lies in two of them, and the
pages before a region in the word of its end are usable as well. -/
structure MapFits (m : MemoryRange) (regions : List ArchMemRegion) : Prop where
  nonempty : regions = [] → m.totalPages = 0
  apart : regions.Pairwise fun r r' =>
    ∀ pfn < m.totalPages, r.Holds (m.pageAt pfn) → ¬ r'.Holds (m.pageAt pfn)
  before : ∀ r ∈ regions, ∀ c ∈ m.regionPages r, ∀ pfn < c.1, c.2 / 32 * 32 ≤ pfn →
    ∃ r' ∈ regions, r'.Holds (m.pageAt pfn)

theorem nodup_counted_iff : (regions.flatMap m.counted).Nodup ↔ regions.Pairwise fun r r' =>
    ∀ pfn < m.totalPages, r.Holds (m.pageAt pfn) → ¬ r'.Holds (m.pageAt pfn) := by
  rw [nodup_flatMap, and_iff_right fun r _ => nodup_counted m r]
  refine Pairwise.iff fun r r' => ⟨fun h pfn hlt hr hr' => ?_, fun h pfn hr hr' => ?_⟩
  · exact h (mem_counted.mpr ⟨hlt, hr⟩) (mem_counted.mpr ⟨hlt, hr'⟩)
  · have hp := mem_counted.mp hr
    exact h pfn hp.1 hp.2 (mem_counted.mp hr').2

theorem length_counted_le (m : MemoryRange) : ∀ regions : List ArchMemRegion,
    (regions.flatMap m.counted).length ≤ regions.length * m.totalPages
  | [] => Nat.zero_le _
  | r :: regions => by
    have hr : (m.counted r).length ≤ m.totalPages := by
      have hspec := regionPages_spec m r
      rw [MemoryRange.counted]
      rcases hp : m.regionPages r with _ | ⟨s, e⟩ <;> rw [hp] at hspec
      · exact Nat.zero_le _
      · have := hspec.2.1
        rw [length_range']
        omega
    have ih := length_counted_le m regions
    rw [flatMap_cons, length_append, length_cons, Nat.succ_mul]
    omega

theorem mem_flatMap_counted : pfn ∈ regions.flatMap m.counted ↔
    pfn < m.totalPages ∧ ∃ r ∈ regions, r.Holds (m.pageAt pfn) := by
  simp only [mem_flatMap, mem_counted]
  tauto

/-- The pages that are cleared are all usable exactly when those before the regions are. -/
theorem cleared_iff : (∀ pfn < m.totalPages, (∃ r ∈ regions, pfn ∈ m.counted r ∨ m.Before r pfn) ↔
      ∃ r ∈ regions, r.Holds (m.pageAt pfn)) ↔
    ∀ r ∈ regions, ∀ c ∈ m.regionPages r, ∀ pfn < c.1, c.2 / 32 * 32 ≤ pfn →
      ∃ r' ∈ regions, r'.Holds (m.pageAt pfn) := by
  constructor
  · intro h r hr c hc pfn hlt hle
    have hspec := regionPages_spec m r
    rw [Option.mem_def.mp hc] at hspec
    have := hspec.1
    have := hspec.2.1
    exact (h pfn (by omega)).mp ⟨r, hr, .inr ⟨c, hc, hle, hlt⟩⟩
  · intro h pfn hpfn
    constructor
    · rintro ⟨r, hr, hp | ⟨c, hc, hle, hlt⟩⟩
      · exact ⟨r, hr, (mem_counted.mp hp).2⟩
      · exact h r hr c hc pfn hlt hle
    · rintro ⟨r, hr, hp⟩
      exact ⟨r, hr, .inl (mem_counted.mpr ⟨hpfn, hp⟩)⟩

variable {rawStart rawPages : ℕ} {hs : rawStart % pageSize = 0}
  {he : rawStart + rawPages * pageSize < 2 ^ 32}

theorem lt_bitmapBytes (h : pfn < (pageAllocRange rawStart rawPages hs he).totalPages) :
    pfn < 8 * ((rawPages + 7) / 8) := by
  rw [pageAllocRange] at h
  simp only at h
  omega

/-- What the loop over a map that is not empty leaves. -/
theorem pageAllocInit_spec (b : Bitmap) (hne : regions ≠ [])
    (hm : pageAllocRange rawStart rawPages hs he = m) :
    (pageAllocInit rawStart rawPages hs he b regions).nowFreePages =
        (regions.flatMap m.counted).length % 2 ^ 32 ∧
      ∀ pfn < m.totalPages,
        (pageAllocInit rawStart rawPages hs he b regions).pageBitmap.test pfn = false ↔
        ∃ r ∈ regions, pfn ∈ m.counted r ∨ m.Before r pfn := by
  subst hm
  obtain ⟨-, hfree, hbits⟩ :=
    freeRegions_spec regions (a := ⟨pageAllocRange rawStart rawPages hs he,
    copyBytes (fun _ => BitVec.allOnes 32) b ((rawPages + 7) / 8), 0⟩) (Nat.two_pow_pos 32)
  have hinit : pageAllocInit rawStart rawPages hs he b regions = regions.foldl PageAlloc.freeRegion
      ⟨_, copyBytes (fun _ => BitVec.allOnes 32) b ((rawPages + 7) / 8), 0⟩ :=
      if_neg (by simpa using hne)
  rw [hinit, hfree, Nat.zero_add]
  refine ⟨rfl, fun pfn hpfn => ?_⟩
  rw [hbits, test_copyBytes, if_pos (lt_bitmapBytes hpfn), test_eq_getLsbD, BitVec.getLsbD_allOnes]
  simp [Nat.mod_lt]

/-- A map without regions is right only if there is no page: all are marked as free. -/
theorem pageAllocInit_nil (b : Bitmap) (hm : pageAllocRange rawStart rawPages hs he = m) :
    ((∀ pfn < m.totalPages, (pageAllocInit rawStart rawPages hs he b []).pageBitmap.test pfn =
        false ↔ ∃ r ∈ ([] : List ArchMemRegion), r.Holds (m.pageAt pfn)) ∧
      (pageAllocInit rawStart rawPages hs he b []).nowFreePages =
        (pageAllocInit rawStart rawPages hs he b []).pageBitmap.clears m.totalPages) ↔
        MapFits m [] := by
  subst hm
  constructor
  · rintro ⟨h, -⟩
    refine ⟨fun _ => of_not_not fun hpos => ?_, .nil, fun r hr => by cases hr⟩
    have hlt := Nat.pos_of_ne_zero hpos
    obtain ⟨r, hr, -⟩ := (h 0 hlt).mp (by
      rw [pageAllocInit, List.isEmpty_nil, if_pos rfl, test_zeroBytes,
        decide_eq_true (lt_bitmapBytes hlt)]
      rfl)
    cases hr
  · intro h
    have h0 := h.nonempty rfl
    refine ⟨fun pfn hlt => absurd hlt (by omega), ?_⟩
    have hfree : (pageAllocInit rawStart rawPages hs he b []).nowFreePages =
      (pageAllocRange rawStart rawPages hs he).totalPages := rfl
    have := (pageAllocInit rawStart rawPages hs he b []).pageBitmap.clears_le
      (pageAllocRange rawStart rawPages hs he).totalPages
    omega

theorem clearRange_exact_iff : (∀ (b : Bitmap) j, (bitmapClearRange total b s e).test j =
      (!decide (s ≤ j ∧ j < e) && b.test j)) ↔ (s < e → e ≤ total ∧ s ≤ e / 32 * 32) := by
  constructor
  · intro h hlt
    have hall : ∀ j, Bitmap.test (fun _ => BitVec.allOnes 32) j = true := fun j => by
      rw [test_eq_getLsbD, BitVec.getLsbD_allOnes]
      simp [Nat.mod_lt]
    have hle : e ≤ total := by
      by_contra hgt
      have hs := h (fun _ => BitVec.allOnes 32) s
      rw [bitmapClearRange, if_pos (.inr (by omega)), hall] at hs
      simp [hlt] at hs
    refine ⟨hle, not_lt.mp fun hgt => ?_⟩
    have hw := h (fun _ => BitVec.allOnes 32) (e / 32 * 32)
    rw [test_bitmapClearRange hlt hle, hall, min_eq_right hgt.le, decide_eq_true (by omega),
      decide_eq_false (by omega)] at hw
    cases hw
  · intro hse b j
    by_cases hlt : s < e
    · obtain ⟨he, hse⟩ := hse hlt
      rw [test_bitmapClearRange hlt he, min_eq_left hse]
    · rw [bitmapClearRange, if_pos (.inl (by omega))]
      simp [show ¬ (s ≤ j ∧ j < e) by omega]

/-- After `page_alloc_init` a page is free exactly when it lies entirely inside a usable region, and
the count is that of the free pages, exactly for the maps that fit; and `bitmap_clear_range` clears
its range exactly when that starts at or before the word of its end. -/
theorem usable_pages_free (b : Bitmap) (hlen : regions.length ≤ 64)
    (hm : pageAllocRange rawStart rawPages hs he = m) :
    let a := pageAllocInit rawStart rawPages hs he b regions
    ((∀ pfn < m.totalPages, a.pageBitmap.test pfn = false ↔ ∃ r ∈ regions, r.Holds (m.pageAt pfn)) ∧
      a.nowFreePages = a.pageBitmap.clears m.totalPages ↔ MapFits m regions) ∧
    ∀ s e, (∀ (b : Bitmap) j, (bitmapClearRange m.totalPages b s e).test j =
      (!decide (s ≤ j ∧ j < e) && b.test j)) ↔ (s < e → e ≤ m.totalPages ∧ s ≤ e / 32 * 32) := by
  refine ⟨?_, fun s e => clearRange_exact_iff⟩
  rcases eq_or_ne regions [] with rfl | hne
  · exact pageAllocInit_nil b hm
  obtain ⟨hfree, htest⟩ := pageAllocInit_spec b hne hm
  have hnowrap : (regions.flatMap m.counted).length < 2 ^ 32 := by
    have := (length_counted_le m regions).trans (Nat.mul_le_mul_right m.totalPages hlen)
    have := m.end_eq
    have := m.end_lt
    simp only [pageSize] at *
    omega
  rw [Nat.mod_eq_of_lt hnowrap] at hfree
  have hcount : (∀ pfn < m.totalPages,
    (pageAllocInit rawStart rawPages hs he b regions).pageBitmap.test pfn = false ↔
      ∃ r ∈ regions, r.Holds (m.pageAt pfn)) →
      ((pageAllocInit rawStart rawPages hs he b regions).nowFreePages =
        (pageAllocInit rawStart rawPages hs he b regions).pageBitmap.clears m.totalPages ↔
        (regions.flatMap m.counted).Nodup) := fun h => by
    rw [hfree, clears_eq_length (l := regions.flatMap m.counted)
      (fun pfn hp => (mem_flatMap_counted.mp hp).1)
      (fun pfn hlt => by rw [h pfn hlt, mem_flatMap_counted, and_iff_right hlt])]
    exact ⟨fun heq => dedup_eq_self.mp ((dedup_sublist _).eq_of_length heq.symm),
      fun hnd => by rw [hnd.dedup]⟩
  constructor
  · rintro ⟨hfreed, hnow⟩
    refine ⟨fun h => absurd h hne, nodup_counted_iff.mp ((hcount hfreed).mp hnow),
      cleared_iff.mp fun pfn hlt => ?_⟩
    rw [← htest pfn hlt, hfreed pfn hlt]
  · intro h
    have hfreed := fun pfn hlt => (htest pfn hlt).trans (cleared_iff.mpr h.before pfn hlt)
    exact ⟨hfreed, (hcount hfreed).mpr (nodup_counted_iff.mpr h.apart)⟩

/-- A map of 64 managed pages at 1 MB. -/
def initialised (regions : List ArchMemRegion) : PageAlloc :=
  pageAllocInit 0x100000 65 (by decide) (by decide) (fun _ => 0#32) regions

/-- The pages 0 to 9 and 32 to 39 are usable, and between them lies a reserved region. -/
theorem usable_pages_free_two :
    let a := initialised [⟨0x101000, 0x10b800, 1⟩, ⟨0x110000, 0x120000, 2⟩, ⟨0x120800, 0x129000, 1⟩]
    a.nowFreePages = a.pageBitmap.clears a.range.totalPages ∧ a.nowFreePages = 18 :=
  ⟨((usable_pages_free _ (by decide) rfl).1.mpr
    ⟨by decide, by decide +kernel, by decide +kernel⟩).2, by decide +kernel⟩

/-- With only the pages 33 to 39 usable, page 32 is marked free as well, and it is not counted. -/
theorem page_before_region_freed :
    let a := initialised [⟨0x122000, 0x129000, 1⟩]
    a.pageBitmap.test 32 = false ∧
      ¬ ArchMemRegion.Holds ⟨0x122000, 0x129000, 1⟩ (a.range.pageAt 32) ∧
      a.nowFreePages = 7 ∧ a.pageBitmap.clears a.range.totalPages = 8 := by
  decide +kernel

end Map

end Xnix
