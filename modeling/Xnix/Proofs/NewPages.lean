import Xnix.Elf
import Xnix.Proofs.PageMaps

/-!
# New pages of an address space

What it is to map a page in a directory, and to allocate, map and clear one: what changes in the
tables, the allocator and memory, and what does not.
-/

namespace Xnix

open Lib Bitmap

namespace PageAlloc

variable {a : PageAlloc} {r : PageAlloc × ℕ} {addr : ℕ}

theorem Outcome.counted {count : ℕ} (h : a.Outcome count r) (hc : a.Counted) : r.1.Counted := by
  cases h with
  | refused => exact hc
  | taken pfn _ hle hclear => exact hc.takeRun hle hclear

theorem Outcome.free_iff (h : a.Outcome 1 r) :
    r.1.Free addr ↔ a.Free addr ∧ (r.2 ≠ 0 → addr ≠ r.2) := by
  constructor
  · intro hf
    have hm := h.manages.mp hf.1
    have ht : ¬ a.Taken addr := fun ht => (h.taken_iff.mpr (.inl ht)).not_free hf
    exact ⟨(not_taken_iff hm).mp ht, fun h0 he => (h.taken_iff.mpr (.inr ⟨h0, he⟩)).not_free hf⟩
  · rintro ⟨hf, hne⟩
    refine (not_taken_iff (h.manages.mpr hf.1)).mp fun ht => ?_
    rcases h.taken_iff.mp ht with ht | ⟨h0, he⟩
    · exact ht.not_free hf
    · exact hne h0 he

theorem Outcome.freePage (h : a.Outcome 1 r) (hc : a.Counted) (h0 : r.2 ≠ 0) :
    r.1.freePage r.2 = a := by
  have hlt := hc.lt
  cases h with
  | refused => exact absurd rfl h0
  | taken pfn _ hle hclear =>
    have hpfn : pfn < a.range.totalPages := by omega
    have ht : (a.takeRun pfn 1).Taken (a.addrOf (pfn + 0)) := takeRun_taken hle one_pos
    rw [Nat.add_zero] at ht
    rw [freePage_of_taken ht,
      show (a.takeRun pfn 1).pfnOf (a.addrOf pfn) = pfn from pfnOf_addrOf hpfn]
    unfold takeRun
    obtain ⟨range, bitmap, n⟩ := a
    simp only [mk.injEq, true_and]
    refine ⟨?_, ?_⟩
    · exact clear_set (hclear 0 one_pos)
    · simp only at hlt
      omega

def lowFree (a : PageAlloc) : ℕ := a.pageBitmap.clears a.range.lowPages
def highFree (a : PageAlloc) : ℕ := a.pageBitmap.clears a.range.totalPages - a.lowFree

theorem allocPage_room : (a.allocPage.2 = 0 → a.lowFree = 0) ∧
    (a.allocPage.2 ≠ 0 → a.allocPage.1.highFree = a.highFree ∧
    a.allocPage.1.lowFree + 1 = a.lowFree) := by
  have hle := a.range.low_le
  unfold allocPage allocBetween
  cases hf : a.pageBitmap.first (a.range.lowPages - 0) 0 with
  | none =>
    refine ⟨fun _ => clears_eq_zero fun i hi => first_eq_none hf (by omega) (by omega),
      fun h => absurd rfl h⟩
  | some i =>
    obtain ⟨-, hi, hb⟩ := first_eq_some hf
    have hlow := clears_set hb (show i < a.range.lowPages by omega)
    have htotal := clears_set hb (show i < a.range.totalPages by omega)
    refine ⟨fun h => absurd h (addrOf_pos (by omega)).ne', fun _ => ?_⟩
    simp only [highFree, lowFree, takeRun, setRange, Nat.add_zero]
    omega

theorem allocPageHigh_room : (a.allocPageHigh.2 = 0 → a.highFree = 0) ∧
    (a.allocPageHigh.2 ≠ 0 → a.allocPageHigh.1.highFree + 1 = a.highFree ∧
      a.allocPageHigh.1.lowFree = a.lowFree) := by
  have hle := a.range.low_le
  unfold allocPageHigh allocBetween
  cases hf : a.pageBitmap.first (a.range.totalPages - a.range.lowPages) a.range.lowPages with
  | none =>
    refine ⟨fun _ => ?_, fun h => absurd rfl h⟩
    have := clears_eq_of_set hle fun i hi hi' => first_eq_none hf hi (by omega)
    unfold highFree lowFree
    omega
  | some i =>
    obtain ⟨hge, hi, hb⟩ := first_eq_some hf
    have hlow := clears_set_of_le (b := a.pageBitmap) hge
    have htotal := clears_set hb (show i < a.range.totalPages by omega)
    have hmono := clears_mono a.pageBitmap hge
    have hmono' : a.pageBitmap.clears i < a.pageBitmap.clears a.range.totalPages :=
      clears_lt hb (by omega)
    refine ⟨fun h => absurd h (addrOf_pos (by omega)).ne', fun _ => ?_⟩
    simp only [highFree, lowFree, takeRun, setRange, Nat.add_zero]
    omega

end PageAlloc

namespace Vmm

variable {s s' : Vmm} {cpu : Cpu} {d d' i p q v v' : ℕ} {dirs : List ℕ} {temps : Cpu → ℕ}
  {paddr flags : BitVec 32}

structure MapsPage (s s' : Vmm) (dirs : List ℕ) (temps : Cpu → ℕ) (d v : ℕ)
    (paddr flags : BitVec 32) : Prop where
  wf : s'.Wf dirs temps
  pte : ∀ d' ∈ dirs, ∀ v', IsUserEntry (pdIndex v') → s'.pte d' v' =
    if d' = d ∧ v' / pageSize = v / pageSize then pteOf paddr flags else s.pte d' v'
  hasTable : ∀ d' ∈ dirs, ∀ i, IsUserEntry i →
    (s'.HasTable d' i ↔ s.HasTable d' i ∨ d' = d ∧ i = pdIndex v)
  table : ∀ d' ∈ dirs, ∀ i, IsUserEntry i → s.HasTable d' i → s'.table d' i = s.table d' i
  entry : ∀ d' ∈ dirs, ∀ i, ¬ (d' = d ∧ i = pdIndex v) → s'.mem d' i = s.mem d' i
  pages : (s.HasTable d (pdIndex v) ∧ s'.pages = s.pages) ∨
    ¬ s.HasTable d (pdIndex v) ∧ s.pages.allocPage.2 ≠ 0 ∧ s'.pages = s.pages.allocPage.1 ∧
      s'.table d (pdIndex v) = s.pages.allocPage.2
  mem : ∀ q, q ≠ d → q ≠ s'.table d (pdIndex v) → s'.mem q = s.mem q

theorem present_pdeNeed_or {w : BitVec 32} (h : hasBit w ptePresent = true) (flags : BitVec 32) :
    hasBit (w ||| pdeNeed flags) ptePresent = true := by
  rw [hasBit_or, h, Bool.true_or]

theorem Wf.mapsPage (h : s.Wf dirs temps) (hd : d ∈ dirs) (hv : IsUserEntry (pdIndex v))
    (hr : (s.mapDirect d v paddr flags).2 = 0) :
    s.MapsPage (s.mapDirect d v paddr flags).1 dirs temps d v paddr flags := by
  have hent := fun d' (hd' : d' ∈ dirs) k => h.entry_map hd hv hr hd' k
  have hold : ∀ d' ∈ dirs, ∀ i, ¬ (d' = d ∧ i = pdIndex v) →
      (s.mapDirect d v paddr flags).1.mem d' i = s.mem d' i := fun d' hd' i hne => by
    rw [hent d' hd' i, if_neg hne]
  have hhas : (s.mapDirect d v paddr flags).1.HasTable d (pdIndex v) := by
    rw [HasTable, hent d hd, if_pos ⟨rfl, rfl⟩]
    split
    · exact present_pdeNeed_or ‹_› flags
    · rw [hasBit_or, pdeFlags_present, Bool.or_true]
  refine ⟨h.map hd hv, fun d' hd' v' hv' => h.pte_map hd hv hr hd' hv', fun d' hd' i hi => ?_,
    fun d' hd' i hi ht => ?_, hold, ?_, ?_⟩
  · by_cases hdi : d' = d ∧ i = pdIndex v
    · obtain ⟨rfl, rfl⟩ := hdi
      exact iff_of_true hhas (.inr ⟨rfl, rfl⟩)
    · rw [HasTable, hold d' hd' i hdi]
      exact ⟨.inl, fun h => h.resolve_right hdi⟩
  · by_cases hdi : d' = d ∧ i = pdIndex v
    · obtain ⟨rfl, rfl⟩ := hdi
      rw [table, hent d' hd, if_pos ⟨rfl, rfl⟩, if_pos ht, pageOf_or (pdeNeed_low flags), table]
    · rw [table, hold d' hd' i hdi, table]
  · rcases mapDirect_cases s d v paddr flags with ⟨ht, he⟩ | ⟨ht, h0, he⟩ | ⟨-, he⟩
    · exact .inl ⟨ht, by rw [he]; rfl⟩
    · have hf := s.pages.allocPage_outcome.free h0
      refine .inr ⟨ht, h0, by rw [he]; rfl, ?_⟩
      rw [table, hent d hd, if_pos ⟨rfl, rfl⟩, if_neg ht, pageOf_or (pdeFlags_low flags),
        pageOf_ofNat ⟨hf.1.aligned, hf.1.isPage_lt⟩]
    · rw [he] at hr
      exact absurd hr eNoMem_ne_zero
  · intro q hq hqt
    rcases mapDirect_cases s d v paddr flags with ⟨ht, he⟩ | ⟨ht, h0, he⟩ | ⟨-, he⟩
    · have htab : (s.mapDirect d v paddr flags).1.table d (pdIndex v) =
          (s.widen d (pdIndex v) flags).table d (pdIndex v) := by
        rw [table, hent d hd, if_pos ⟨rfl, rfl⟩, if_pos ht, pageOf_or (pdeNeed_low flags), table,
          pageOf_widen]
      rw [htab] at hqt
      rw [he, setEntry_mem_of_ne hqt, Vmm.widen, setEntry_mem_of_ne hq]
    · have hf := s.pages.allocPage_outcome.free h0
      have hpage : IsPage s.pages.allocPage.2 := ⟨hf.1.aligned, hf.1.isPage_lt⟩
      have htab : (s.mapDirect d v paddr flags).1.table d (pdIndex v) = s.pages.allocPage.2 := by
        rw [table, hent d hd, if_pos ⟨rfl, rfl⟩, if_neg ht, pageOf_or (pdeFlags_low flags),
          pageOf_ofNat hpage]
      have htab' : (s.addTable d (pdIndex v) flags).table d (pdIndex v) = s.pages.allocPage.2 :=
        pageOf_addTable hpage
      rw [htab] at hqt
      rw [he, htab', setEntry_mem_of_ne hqt, Vmm.addTable, setEntry_mem_of_ne hq]
      exact Memory.setPage_of_ne hqt
    · rw [he]

theorem Wf.alloc (h : s.Wf dirs temps) {r : PageAlloc × ℕ} (hout : s.pages.Outcome 1 r) :
    Wf { s with pages := r.1 } dirs temps :=
  h.of_entries rfl h.cr3_mem (fun _ hp => hout.taken_iff.mpr (.inl hp))
    (fun _ hf => hout.not_free hf) h.temp_idle (fun _ _ _ _ => ⟨Iff.rfl, rfl⟩) fun _ _ _ _ _ => rfl

theorem pte_withPage {g : ℕ → BitVec 32} (hd : d ≠ p)
    (ht : s.HasTable d (pdIndex v) → s.table d (pdIndex v) ≠ p) :
    (s.withPage p g).pte d v = s.pte d v := by
  have hmem : (s.withPage p g).mem d = s.mem d := Memory.setPage_of_ne hd
  have hiff : (s.withPage p g).HasTable d (pdIndex v) ↔ s.HasTable d (pdIndex v) := by
    rw [HasTable, HasTable, hmem]
  by_cases h : s.HasTable d (pdIndex v)
  · rw [pte, if_pos (hiff.mpr h), pte, if_pos h, table, hmem, ← table]
    exact congrFun (Memory.setPage_of_ne (ht h)) _
  · rw [pte_of_no_table (mt hiff.mp h), pte_of_no_table h]

/-- A page `p` that was free has been allocated, mapped as page `v` of a directory and cleared. -/
structure NewPage (s s' : Vmm) (dirs : List ℕ) (temps : Cpu → ℕ) (d v p : ℕ)
    (flags : BitVec 32) : Prop where
  free : s.pages.Free p
  wf : s'.Wf dirs temps
  counted : s'.pages.Counted
  range : s'.pages.range = s.pages.range
  taken : ∀ q, s'.pages.Taken q ↔
    s.pages.Taken q ∨ q = p ∨ ¬ s.HasTable d (pdIndex v) ∧ q = s'.table d (pdIndex v)
  pte : ∀ d' ∈ dirs, ∀ v', IsUserEntry (pdIndex v') → s'.pte d' v' =
    if d' = d ∧ v' / pageSize = v / pageSize then pteOf (BitVec.ofNat 32 p) flags else s.pte d' v'
  hasTable : ∀ d' ∈ dirs, ∀ i, IsUserEntry i →
    (s'.HasTable d' i ↔ s.HasTable d' i ∨ d' = d ∧ i = pdIndex v)
  table : ∀ d' ∈ dirs, ∀ i, IsUserEntry i → s.HasTable d' i → s'.table d' i = s.table d' i
  entry : ∀ d' ∈ dirs, ∀ i, ¬ (d' = d ∧ i = pdIndex v) → s'.mem d' i = s.mem d' i
  new_table : ¬ s.HasTable d (pdIndex v) → s.pages.Free (s'.table d (pdIndex v))
  table_ne : ∀ d' ∈ dirs, ∀ i, IsUserEntry i → s'.HasTable d' i → s'.table d' i ≠ p
  zero : ∀ i, s'.mem p i = 0#32
  mem : ∀ q, q ≠ p → q ≠ d → q ≠ s'.table d (pdIndex v) → s'.mem q = s.mem q

theorem isPage_of_free (h : s.pages.Free p) : IsPage p := ⟨h.1.aligned, h.1.isPage_lt⟩

theorem Wf.newPage_of_maps (h : s.Wf dirs temps) (hc : s.pages.Counted) (hd : d ∈ dirs)
    {r : PageAlloc × ℕ} (hout : s.pages.Outcome 1 r) (h0 : r.2 ≠ 0)
    {s2 : Vmm} (hm : MapsPage { s with pages := r.1 } s2 dirs temps d v
    (BitVec.ofNat 32 r.2) flags) :
    s.NewPage (s2.withPage r.2 fun _ => 0#32) dirs temps d v r.2 flags := by
  have hfree := hout.free h0
  obtain ⟨hndir, hntemp, hntable, -⟩ := h.free_ne hfree
  have hnotfree : ¬ r.1.Free r.2 := fun hf => (hout.free_iff.mp hf).2 h0 rfl
  have htab : ∀ d' ∈ dirs, ∀ i, IsUserEntry i → s2.HasTable d' i → s2.table d' i ≠ r.2 := by
    intro d' hd' i hi ht
    by_cases hold : s.HasTable d' i
    · rw [hm.table d' hd' i hi hold]
      exact hntable d' hd' i hi hold
    · obtain ⟨rfl, rfl⟩ := ((hm.hasTable d' hd' i hi).mp ht).resolve_left hold
      rcases hm.pages with ⟨ht', -⟩ | ⟨-, ha, -, he⟩
      · exact absurd ht' hold
      · rw [he]
        intro heq
        exact hnotfree (heq ▸ PageAlloc.allocPage_outcome.free ha)
  have hmem : ∀ d' ∈ dirs, (s2.withPage r.2 fun _ => 0#32).mem d' = s2.mem d' := fun d' hd' =>
    Memory.setPage_of_ne (ne_of_mem_of_not_mem hd' hndir)
  have hhas : ∀ d' ∈ dirs, ∀ i, ((s2.withPage r.2 fun _ => 0#32).HasTable d' i ↔ s2.HasTable d' i) ∧
      (s2.withPage r.2 fun _ => 0#32).table d' i = s2.table d' i := fun d' hd' i => by
    rw [HasTable, HasTable, table, table, hmem d' hd']
    exact ⟨Iff.rfl, rfl⟩
  have htaken : ∀ q, s2.pages.Taken q ↔
      s.pages.Taken q ∨ q = r.2 ∨ ¬ s.HasTable d (pdIndex v) ∧ q = s2.table d (pdIndex v) := by
    intro q
    rcases hm.pages with ⟨ht, he⟩ | ⟨ht, ha, he, hnew⟩
    · have ht : s.HasTable d (pdIndex v) := ht
      rw [he]
      refine hout.taken_iff.trans ?_
      simp [h0, ht]
    · have ht : ¬ s.HasTable d (pdIndex v) := ht
      rw [he, hnew, PageAlloc.allocPage_outcome.taken_iff]
      refine (or_congr_left hout.taken_iff).trans ?_
      simp [h0, ht, ha, or_assoc]
  refine ⟨hfree, hm.wf.setPage hndir hntemp, ?_, ?_, fun q => ?_, fun d' hd' v' hv' => ?_,
    fun d' hd' i hi => ?_, fun d' hd' i hi ht => ?_, fun d' hd' i hne => ?_, fun ht => ?_,
    fun d' hd' i hi ht => ?_, fun i => ?_, fun q hq hqd hqt => ?_⟩
  · rcases hm.pages with ⟨-, he⟩ | ⟨-, -, he, -⟩
    · exact he ▸ hout.counted hc
    · exact he ▸ PageAlloc.allocPage_outcome.counted (hout.counted hc)
  · rcases hm.pages with ⟨-, he⟩ | ⟨-, -, he, -⟩
    · exact (congrArg _ he).trans hout.range_eq
    · exact ((congrArg _ he).trans PageAlloc.allocPage_outcome.range_eq).trans hout.range_eq
  · rw [(hhas d hd _).2]
    exact htaken q
  · rw [pte_withPage (ne_of_mem_of_not_mem hd' hndir) (htab d' hd' _ hv')]
    exact hm.pte d' hd' v' hv'
  · rw [(hhas d' hd' i).1]
    exact hm.hasTable d' hd' i hi
  · rw [(hhas d' hd' i).2]
    exact hm.table d' hd' i hi ht
  · rw [hmem d' hd']
    exact hm.entry d' hd' i hne
  · rcases hm.pages with ⟨ht', -⟩ | ⟨-, ha, -, hnew⟩
    · exact absurd ht' ht
    · rw [(hhas d hd _).2, hnew]
      exact (hout.free_iff.mp (PageAlloc.allocPage_outcome.free ha)).1
  · rw [(hhas d' hd' i).2]
    exact htab d' hd' i hi ((hhas d' hd' i).1.mp ht)
  · exact congrFun (Memory.setPage_self ..) i
  · rw [(hhas d hd _).2] at hqt
    exact (Memory.setPage_of_ne hq).trans (hm.mem q hqd hqt)

/-- There is no page, or no page for the table that is needed. -/
def Short (s : Vmm) (d v : ℕ) : Prop :=
  s.pages.highFree = 0 ∨ ¬ s.HasTable d (pdIndex v) ∧ s.pages.lowFree = 0

/-- There are `n` free pages for the process, and as many for tables. -/
def Room (s : Vmm) (n : ℕ) : Prop := n ≤ s.pages.highFree ∧ n ≤ s.pages.lowFree

theorem Room.mono {n m : ℕ} (h : s.Room m) (hle : n ≤ m) : s.Room n :=
    ⟨hle.trans h.1, hle.trans h.2⟩

/-- Allocating, mapping and clearing a page ends: with a new page, or with nothing changed. -/
theorem Wf.newPage (h : s.Wf dirs temps) (hc : s.pages.Counted) (hd : d ∈ dirs)
    (hv : IsUserEntry (pdIndex v)) :
    Ends (newPage cpu d v flags s) (fun r => r = (s, -eNoMem) ∧ s.Short d v)
      (fun r => s.NewPage r.1 dirs temps d v r.2 flags ∧ r.1.pages.highFree + 1 = s.pages.highFree ∧
        s.pages.lowFree ≤ r.1.pages.lowFree + 1) := by
  unfold Vmm.newPage
  by_cases h0 : s.pages.allocPageHigh.2 = 0
  · rw [if_pos h0]
    exact .error ⟨rfl, .inl (PageAlloc.allocPageHigh_room.1 h0)⟩
  · obtain ⟨hhigh, hlow'⟩ := PageAlloc.allocPageHigh_room.2 h0
    have hout := s.pages.allocPageHigh_outcome
    have hwf := h.alloc hout
    have hlow : ¬ (v < pageSize ∧ hasBit flags vmmProtUser = true) := fun hlow => by
      have := hv.1
      unfold pdIndex pageSize at *
      omega
    have hres : resolve { s with pages := s.pages.allocPageHigh.1 } cpu d = d :=
      if_neg (h.dir_taken d hd).1.pos.ne'
    rw [if_neg h0, (hwf.reaches hd hv cpu).vmmMapPage hres hlow fun h1 => hwf.freshFor h1 cpu]
    simp only [Option.bind_eq_bind, Option.bind_some]
    by_cases hr : (mapDirect { s with pages := s.pages.allocPageHigh.1 } d v
        (BitVec.ofNat 32 s.pages.allocPageHigh.2) flags).2 = 0
    · have hm := hwf.mapsPage hd hv hr
      obtain ⟨hndir, hntemp, -⟩ := h.free_ne (hout.free h0)
      rw [if_neg (not_not.mpr hr),
        (hm.wf.ready cpu).kmapClear (isPage_of_free (hout.free h0)) (hntemp cpu)
        (fun he => hndir (he ▸ hm.wf.cr3_mem cpu)), Option.bind_some]
      refine .ok ⟨h.newPage_of_maps hc hd hout h0 hm, ?_⟩
      rcases hm.pages with ⟨-, he⟩ | ⟨-, h1, he, -⟩
      · refine ⟨(congrArg (·.highFree + 1) he).trans hhigh, ?_⟩
        exact (hlow'.symm.trans (congrArg PageAlloc.lowFree he).symm).le.trans (Nat.le_succ _)
      · obtain ⟨hhigh1, hlow1⟩ := PageAlloc.allocPage_room.2 h1
        refine ⟨(congrArg (·.highFree + 1) he).trans (by rw [hhigh1]; exact hhigh), ?_⟩
        rw [← hlow', ← hlow1]
        exact (congrArg (·.lowFree + 1) he).symm.le
    · rw [if_pos hr, mapDirect_failed hr]
      refine .error ⟨by rw [hout.freePage hc h0], .inr ?_⟩
      rcases mapDirect_cases { s with pages := s.pages.allocPageHigh.1 } d v
        (BitVec.ofNat 32 s.pages.allocPageHigh.2) flags with ⟨-, he⟩ | ⟨-, -, he⟩ | ⟨h1, -⟩
      · exact absurd (congrArg Prod.snd he) hr
      · exact absurd (congrArg Prod.snd he) hr
      · refine ⟨fun ht => hr (by rw [mapDirect, if_pos (show hasBit _ ptePresent = true from ht)]),
          ?_⟩
        rw [← hlow']
        exact PageAlloc.allocPage_room.1 h1

end Vmm

end Xnix
