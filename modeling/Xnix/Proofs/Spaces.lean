import Xnix.Proofs.NewPages
import Xnix.Proofs.PhysCopy

/-!
# The address space that a process is given

The pages that an address space has taken since its directory was made: its tables and the physical
pages of its user pages. They were free before, no two user pages share one, and nothing else has
been written to. A new page, a store to a page of the space and a page that is given back keep this.
-/

namespace Xnix

open List PageAlloc

theorem PageAlloc.manages_congr {a a' : PageAlloc} {q : ℕ} (h : a.range = a'.range) :
    a.Manages q ↔ a'.Manages q :=
  ⟨fun ⟨h1, h2, h3⟩ => ⟨h ▸ h1, h ▸ h2, h3⟩, fun ⟨h1, h2, h3⟩ => ⟨h ▸ h1, h ▸ h2, h3⟩⟩

theorem PageAlloc.range_freePage {a : PageAlloc} {page : ℕ} :
    (a.freePage page).range = a.range := by
  by_cases h : a.Taken page
  · rw [freePage_of_taken h]
  · rw [freePage_of_not_taken h]

theorem PageAlloc.range_freeAll :
    ∀ {pages : List ℕ} {a : PageAlloc}, (pages.foldl freePage a).range = a.range
  | [], _ => rfl
  | _ :: _, _ => by rw [foldl_cons, range_freeAll, range_freePage]

namespace Vmm

variable {b s s' : Vmm} {cpu : Cpu} {d i p q v v' pd : ℕ} {dirs frames : List ℕ} {temps : Cpu → ℕ}
  {flags : BitVec 32}

def OwnTable (s : Vmm) (d q : ℕ) : Prop := ∃ i, IsUserEntry i ∧ s.HasTable d i ∧ s.table d i = q

structure MapsTo (s : Vmm) (d v q : ℕ) : Prop where
  user : IsUserEntry (pdIndex v)
  present : hasBit (s.pte d v) ptePresent = true
  page : pageOf (s.pte d v) = q

theorem pte_congr (h : v / pageSize = v' / pageSize) : s.pte d v = s.pte d v' := by
  obtain ⟨h1, h2⟩ := entries_congr h
  rw [pte, pte, h1, h2]

theorem MapsTo.congr (h : s.MapsTo d v q) (he : v / pageSize = v' / pageSize) : s.MapsTo d v' q :=
  ⟨(entries_congr he).1 ▸ h.user, pte_congr he ▸ h.present, pte_congr he ▸ h.page⟩

theorem NewPage.mapsTo_iff (n : s.NewPage s' dirs temps d v p flags) (hd : d ∈ dirs) :
    s'.MapsTo d v' q ↔ if v' / pageSize = v / pageSize then IsUserEntry (pdIndex v') ∧ q = p
      else s.MapsTo d v' q := by
  have hpage : pageOf (pteOf (BitVec.ofNat 32 p) flags) = p := by
    rw [pageOf_pteOf, pageOf_ofNat (isPage_of_free n.free)]
  split
  · rename_i he
    constructor
    · rintro ⟨hu, -, hq⟩
      rw [n.pte d hd v' hu, if_pos ⟨rfl, he⟩, hpage] at hq
      exact ⟨hu, hq.symm⟩
    · rintro ⟨hu, rfl⟩
      refine ⟨hu, ?_, ?_⟩ <;> rw [n.pte d hd v' hu, if_pos ⟨rfl, he⟩]
      · exact (hasBit_pteOf _ _).1
      · exact hpage
  · rename_i he
    have hne : ¬ (d = d ∧ v' / pageSize = v / pageSize) := fun h => he h.2
    constructor
    · rintro ⟨hu, hp, hq⟩
      rw [n.pte d hd v' hu, if_neg hne] at hp hq
      exact ⟨hu, hp, hq⟩
    · rintro ⟨hu, hp, hq⟩
      refine ⟨hu, ?_, ?_⟩ <;> rwa [n.pte d hd v' hu, if_neg hne]

theorem NewPage.ownTable_iff (n : s.NewPage s' dirs temps d v p flags) (hd : d ∈ dirs)
    (hv : IsUserEntry (pdIndex v)) : s'.OwnTable d q ↔
      s.OwnTable d q ∨ ¬ s.HasTable d (pdIndex v) ∧ q = s'.table d (pdIndex v) := by
  constructor
  · rintro ⟨i, hi, ht, rfl⟩
    by_cases hold : s.HasTable d i
    · exact .inl ⟨i, hi, hold, (n.table d hd i hi hold).symm⟩
    · obtain ⟨-, rfl⟩ := ((n.hasTable d hd i hi).mp ht).resolve_left hold
      exact .inr ⟨hold, rfl⟩
  · rintro (⟨i, hi, ht, rfl⟩ | ⟨-, rfl⟩)
    · exact ⟨i, hi, (n.hasTable d hd i hi).mpr (.inl ht), n.table d hd i hi ht⟩
    · exact ⟨_, hv, (n.hasTable d hd _ hv).mpr (.inr ⟨rfl, rfl⟩), rfl⟩

theorem Wf.mapsTo_unmap (h : s.Wf dirs temps) (hd : d ∈ dirs) (hv : IsUserEntry (pdIndex v)) :
    (s.unmapDirect d v).MapsTo d v' q ↔ v' / pageSize ≠ v / pageSize ∧ s.MapsTo d v' q := by
  have hpte := fun hu => (h.pte_unmap hd hv hd hu : (s.unmapDirect d v).pte d v' = _)
  constructor
  · rintro ⟨hu, hp, hq⟩
    rw [hpte hu] at hp hq
    split at hp
    · exact absurd hp (by decide)
    · rename_i hne
      rw [if_neg hne] at hq
      exact ⟨fun he => hne ⟨rfl, he⟩, hu, hp, hq⟩
  · rintro ⟨hne, hu, hp, hq⟩
    have hne : ¬ (d = d ∧ v' / pageSize = v / pageSize) := fun h => hne h.2
    refine ⟨hu, ?_, ?_⟩ <;> rwa [hpte hu, if_neg hne]

theorem Wf.setPages {pages : PageAlloc} (h : s.Wf dirs temps) (hdir : ∀ d ∈ dirs, pages.Taken d)
    (htable : ∀ d ∈ dirs, ∀ i, IsUserEntry i → s.HasTable d i → pages.Taken (s.table d i))
    (htemp : ∀ cpu, ¬ pages.Free (temps cpu))
    (hshared : ∀ d ∈ dirs, ∀ i, ¬ IsUserEntry i → i < 1023 → s.HasTable d i →
    ¬ pages.Free (s.table d i)) :
    Wf { s with pages := pages } dirs temps :=
  ⟨h.kernel_mem, h.cr3_mem, hdir, h.self, h.window, h.temp_not_dir, htemp, h.temp_idle, htable,
    h.table_not_dir,
    h.table_not_temp, h.table_inj, h.shared_not_user, hshared, h.shared_not_dir, h.shared_ne_table⟩

/-- The directory `pd`, which had no table in the state `b`, now has tables and the physical pages
`frames`. -/
structure Space (b s : Vmm) (dirs : List ℕ) (temps : Cpu → ℕ) (pd : ℕ)
    (frames : List ℕ) : Prop where
  base : b.Wf dirs temps
  pd_mem : pd ∈ dirs
  wf : s.Wf dirs temps
  counted : s.pages.Counted
  range : s.pages.range = b.pages.range
  taken : ∀ q, s.pages.Taken q ↔ b.pages.Taken q ∨ s.OwnTable pd q ∨ q ∈ frames
  fresh : ∀ q, s.OwnTable pd q ∨ q ∈ frames → b.pages.Free q
  table_ne : ∀ q ∈ frames, ¬ s.OwnTable pd q
  nodup : frames.Nodup
  mapped : ∀ v q, s.MapsTo pd v q → q ∈ frames
  inj : ∀ v v' q, s.MapsTo pd v q → s.MapsTo pd v' q → v / pageSize = v' / pageSize
  others : ∀ q, ¬ b.pages.Free q → q ≠ pd → s.mem q = b.mem q
  shared : ∀ i, ¬ IsUserEntry i → s.mem pd i = b.mem pd i

theorem ownTable_congr (h : s'.mem pd = s.mem pd) : s'.OwnTable pd q ↔ s.OwnTable pd q := by
  simp only [OwnTable, HasTable, table, h]

theorem Wf.space (h : s.Wf dirs temps) (hc : s.pages.Counted) (hd : pd ∈ dirs)
    (hbare : ∀ i, IsUserEntry i → ¬ s.HasTable pd i) : s.Space s dirs temps pd [] := by
  have hown : ∀ q, ¬ s.OwnTable pd q := fun q ⟨i, hi, ht, _⟩ => hbare i hi ht
  have hmap : ∀ v q, ¬ s.MapsTo pd v q := fun v q ⟨hu, hp, _⟩ => by
    rw [pte_of_no_table (hbare _ hu)] at hp
    exact absurd hp (by decide)
  exact ⟨h, hd, h, hc, rfl, fun q => by simp [hown q], fun q hq => by simp [hown q] at hq, by simp,
    .nil, fun v q hq => absurd hq (hmap v q), fun v v' q hq => absurd hq (hmap v q),
    fun _ _ _ => rfl, fun _ _ => rfl⟩

section
variable (h : b.Space s dirs temps pd frames)
include h

theorem Space.free_base (hq : s.pages.Free q) : b.pages.Free q := by
  refine (not_taken_iff ((manages_congr h.range).mp hq.1)).mp fun ht => ?_
  exact ((h.taken q).mpr (.inl ht)).not_free hq

theorem Space.frame_taken (hq : q ∈ frames) : s.pages.Taken q := (h.taken q).mpr (.inr (.inr hq))

theorem Space.frame_ne (hq : q ∈ frames) : q ∉ dirs ∧ ∀ cpu, q ≠ temps cpu :=
  have hf := h.fresh q (.inr hq)
  ⟨fun hd => (h.base.dir_taken q hd).not_free hf, fun cpu he => h.base.temp_not_free cpu (he ▸ hf)⟩

theorem Space.new (n : s.NewPage s' dirs temps pd v p flags) (hv : IsUserEntry (pdIndex v)) :
    b.Space s' dirs temps pd (p :: frames) := by
  have hp : p ∉ frames := fun hp => (h.frame_taken hp).not_free n.free
  have hown := fun q => n.ownTable_iff (q := q) h.pd_mem hv
  have hfresh : ∀ q, s'.OwnTable pd q ∨ q ∈ p :: frames → b.pages.Free q := by
    rintro q (ht | hq)
    · rcases (hown q).mp ht with ht | ⟨hn, rfl⟩
      · exact h.fresh q (.inl ht)
      · exact h.free_base (n.new_table hn)
    · rcases mem_cons.mp hq with rfl | hq
      · exact h.free_base n.free
      · exact h.fresh q (.inr hq)
  refine ⟨h.base, h.pd_mem, n.wf, n.counted, n.range.trans h.range, fun q => ?_, hfresh,
    fun q hq => ?_, nodup_cons.mpr ⟨hp, h.nodup⟩,
    fun v' q hm => ?_, fun v1 v2 q h1 h2 => ?_, fun q hq hpd => ?_, fun i hi => ?_⟩
  · rw [n.taken, h.taken, hown, mem_cons]
    tauto
  · rintro ht
    rcases mem_cons.mp hq with rfl | hq
    · obtain ⟨i, hi, ht, he⟩ := ht
      exact n.table_ne pd h.pd_mem i hi ht he
    · rcases (hown q).mp ht with ht | ⟨hn, rfl⟩
      · exact h.table_ne q hq ht
      · exact (h.frame_taken hq).not_free (n.new_table hn)
  · rw [n.mapsTo_iff h.pd_mem] at hm
    split at hm
    · exact hm.2 ▸ mem_cons_self
    · exact mem_cons_of_mem p (h.mapped v' q hm)
  · rw [n.mapsTo_iff h.pd_mem] at h1 h2
    split at h1 <;> split at h2
    · omega
    · exact absurd (h.mapped v2 q h2) (h1.2 ▸ hp)
    · exact absurd (h.mapped v1 q h1) (h2.2 ▸ hp)
    · exact h.inj v1 v2 q h1 h2
  · have hqp : q ≠ p := fun he => hq (he ▸ hfresh p (.inr mem_cons_self))
    have htab : s'.OwnTable pd (s'.table pd (pdIndex v)) :=
      ⟨_, hv, (n.hasTable pd h.pd_mem _ hv).mpr (.inr ⟨rfl, rfl⟩), rfl⟩
    rw [n.mem q hqp hpd fun he => hq (he ▸ hfresh _ (.inl htab))]
    exact h.others q hq hpd
  · rw [n.entry pd h.pd_mem i fun he => hi (he.2 ▸ hv), h.shared i hi]

theorem Space.write (hq : q ∈ frames) (g : ℕ → BitVec 32) :
    b.Space (s.withPage q g) dirs temps pd frames := by
  obtain ⟨hdir, htemp⟩ := h.frame_ne hq
  have hne : pd ≠ q := ne_of_mem_of_not_mem h.pd_mem hdir
  have hmem : (s.withPage q g).mem pd = s.mem pd := Lib.Memory.setPage_of_ne hne
  have hown := fun p => ownTable_congr (q := p) hmem
  have hmap : ∀ v p, (s.withPage q g).MapsTo pd v p ↔ s.MapsTo pd v p := fun v p => by
    have hpte : IsUserEntry (pdIndex v) → (s.withPage q g).pte pd v = s.pte pd v := fun hu =>
      pte_withPage hne fun ht he => h.table_ne q hq ⟨_, hu, ht, he⟩
    constructor
    · rintro ⟨hu, hp, hq⟩
      exact ⟨hu, hpte hu ▸ hp, hpte hu ▸ hq⟩
    · rintro ⟨hu, hp, hq⟩
      exact ⟨hu, (hpte hu).symm ▸ hp, (hpte hu).symm ▸ hq⟩
  refine ⟨h.base, h.pd_mem, h.wf.setPage hdir htemp, h.counted, h.range, fun p => ?_,
    fun p hp => ?_, fun p hp => ?_, h.nodup, fun v p hm => h.mapped v p ((hmap v p).mp hm),
    fun v v' p h1 h2 => h.inj v v' p ((hmap v p).mp h1) ((hmap v' p).mp h2), fun p hp hpd =>
    ?_, fun i hi => ?_⟩
  · rw [hown]
    exact h.taken p
  · rw [hown] at hp
    exact h.fresh p hp
  · rw [hown]
    exact h.table_ne p hp
  · have hpq : p ≠ q := fun he => hp (he ▸ h.fresh q (.inr hq))
    exact (Lib.Memory.setPage_of_ne hpq).trans (h.others p hp hpd)
  · rw [hmem, h.shared i hi]

theorem Space.unmap (hv : IsUserEntry (pdIndex v)) :
    b.Space (s.unmapDirect pd v) dirs temps pd frames := by
  have hmem : (s.unmapDirect pd v).mem pd = s.mem pd := h.wf.entry_unmap h.pd_mem hv h.pd_mem
  have hown := fun p => ownTable_congr (q := p) hmem
  have hsame : (s.unmapDirect pd v).pages = s.pages := by
    unfold unmapDirect
    split <;> rfl
  have hmap : ∀ v' p, (s.unmapDirect pd v).MapsTo pd v' p → s.MapsTo pd v' p := fun v' p hm =>
    (h.wf.mapsTo_unmap h.pd_mem hv).mp hm |>.2
  refine ⟨h.base, h.pd_mem, h.wf.unmap h.pd_mem hv, hsame ▸ h.counted, hsame ▸ h.range, fun p => ?_,
    fun p hp => ?_, fun p hp => ?_, h.nodup,
    fun v p hm => h.mapped v p (hmap v p hm), fun v v' p h1 h2 =>
    h.inj v v' p (hmap v p h1) (hmap v' p h2),
    fun p hp hpd => ?_, fun i hi => ?_⟩
  · rw [hown, hsame]
    exact h.taken p
  · rw [hown] at hp
    exact h.fresh p hp
  · rw [hown]
    exact h.table_ne p hp
  · rw [← h.others p hp hpd, unmapDirect]
    split
    · rename_i ht
      exact setEntry_mem_of_ne fun he => hp (he ▸ h.fresh _ (.inl ⟨_, hv, ht, rfl⟩))
    · rfl
  · rw [hmem, h.shared i hi]

theorem Space.perm {frames' : List ℕ} (hp : frames.Perm frames') :
    b.Space s dirs temps pd frames' := by
  have hmem : ∀ q, q ∈ frames ↔ q ∈ frames' := fun q => hp.mem_iff
  exact ⟨h.base, h.pd_mem, h.wf, h.counted, h.range, fun q => by rw [← hmem]; exact h.taken q,
    fun q => by rw [← hmem]; exact h.fresh q, fun q => by rw [← hmem]; exact h.table_ne q,
    hp.nodup_iff.mp h.nodup, fun v q hm => (hmem q).mp (h.mapped v q hm), h.inj, h.others, h.shared⟩

theorem Space.table_not_frame (hd : d ∈ dirs) (hi : i < 1023) (ht : s.HasTable d i) :
    s.table d i ∉ frames := by
  intro hq
  have hf := h.fresh _ (.inr hq)
  by_cases hown : d = pd ∧ IsUserEntry i
  · obtain ⟨rfl, hu⟩ := hown
    exact h.table_ne _ hq ⟨i, hu, ht, rfl⟩
  · have hent : s.mem d i = b.mem d i := by
      by_cases he : d = pd
      · exact he ▸ h.shared i fun hu => hown ⟨he, hu⟩
      · rw [h.others d (h.base.dir_taken d hd).not_free he]
    rw [table, hent] at hf
    rw [HasTable, hent] at ht
    by_cases hu : IsUserEntry i
    · exact (h.base.table_taken d hd i hu ht).not_free hf
    · exact h.base.shared_not_free d hd i hu hi ht hf

end

theorem Space.free {pages : List ℕ} (h : b.Space s dirs temps pd (pages ++ frames))
    (hm : ∀ q ∈ pages, ∀ v, ¬ s.MapsTo pd v q) :
    b.Space { s with pages := pages.foldl freePage s.pages } dirs temps pd frames := by
  have hin : ∀ {q}, q ∈ pages → q ∈ pages ++ frames := fun hq => mem_append_left _ hq
  have hnot : ∀ {d}, d ∈ dirs → d ∉ pages := fun hd hq => (h.frame_ne (hin hq)).1 hd
  have hdisj : ∀ q ∈ frames, q ∉ pages :=
    fun q hq hq' => (nodup_append.mp h.nodup).2.2 q hq' q hq rfl
  have hlt : ∀ {i}, IsUserEntry i → i < 1023 := fun hi => by have := hi.2; omega
  have htab : ∀ {q}, s.OwnTable pd q → q ∉ pages := fun ht hq => h.table_ne _ (hin hq) ht
  have hmap : ∀ v q, MapsTo { s with pages := pages.foldl freePage s.pages } pd v q →
    s.MapsTo pd v q := fun v q ⟨hu, hp, hq⟩ => ⟨hu, hp, hq⟩
  have hwf : Wf { s with pages := pages.foldl freePage s.pages } dirs temps := h.wf.setPages
      (fun d hd => taken_freeAll_iff.mpr ⟨h.wf.dir_taken d hd, hnot hd⟩)
      (fun d hd i hi ht => taken_freeAll_iff.mpr ⟨h.wf.table_taken d hd i hi ht,
        fun hq => h.table_not_frame hd (hlt hi) ht (hin hq)⟩)
      (fun cpu => not_free_freeAll (h.wf.temp_not_free cpu)
        fun hq => (h.frame_ne (hin hq)).2 cpu rfl)
      (fun d hd i hi hlt ht => not_free_freeAll (h.wf.shared_not_free d hd i hi hlt ht)
        fun hq => h.table_not_frame hd hlt ht (hin hq))
  refine ⟨h.base, h.pd_mem, hwf, h.counted.freeAll, range_freeAll.trans h.range, fun q => ?_,
    fun q hq => h.fresh q (hq.imp_right (mem_append_right _)),
    fun q hq => h.table_ne q (mem_append_right _ hq), (nodup_append.mp h.nodup).2.1,
    fun v q hv => ?_,
    fun v v' q h1 h2 => h.inj v v' q (hmap v q h1) (hmap v' q h2), h.others, h.shared⟩
  · refine taken_freeAll_iff.trans ?_
    constructor
    · rintro ⟨ht, hn⟩
      rcases (h.taken q).mp ht with ht | ht | hq
      · exact .inl ht
      · exact .inr (.inl ht)
      · exact .inr (.inr ((mem_append.mp hq).resolve_left hn))
    · rintro (ht | ht | hq)
      · exact ⟨(h.taken q).mpr (.inl ht), fun hq => ht.not_free (h.fresh q (.inr (hin hq)))⟩
      · exact ⟨(h.taken q).mpr (.inr (.inl ht)), htab ht⟩
      · exact ⟨h.frame_taken (mem_append_right _ hq), hdisj q hq⟩
  · exact (mem_append.mp (h.mapped v q (hmap v q hv))).resolve_left fun hq =>
      hm q hq v (hmap v q hv)

end Vmm

end Xnix
