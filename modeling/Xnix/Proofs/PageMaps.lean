import Xnix.PagingMachine
import Xnix.Proofs.Tables

/-!
# Page tables are maps

What `vmm_get_paddr` and `vmm_query_flags` report is read off one word, the entry of the page. A
mapping changes the word of its page in its directory and no other word that is read for a page.
-/

namespace Xnix

namespace Vmm

variable {s : Vmm} {cpu : Cpu} {d d' i j p v v' : ℕ} {dirs : List ℕ} {temps : Cpu → ℕ}
  {paddr flags x : BitVec 32}

def pte (s : Vmm) (d v : ℕ) : BitVec 32 :=
  if s.HasTable d (pdIndex v) then s.mem (s.table d (pdIndex v)) (ptIndex v) else 0#32

/-- Every table can be written through, and can be used by the user if one of its pages is the
user's. -/
def Grants (s : Vmm) (dirs : List ℕ) : Prop :=
  ∀ d ∈ dirs, ∀ v, IsUserEntry (pdIndex v) → s.HasTable d (pdIndex v) →
    hasBit (s.mem d (pdIndex v)) pteRw = true ∧
      (hasBit (s.pte d v) pteUser = true → hasBit (s.mem d (pdIndex v)) pteUser = true)

/-- What `vmm_query_flags` returns for a page with this entry. -/
def report (pte : BitVec 32) (v : ℕ) : ℤ × ℕ × BitVec 32 :=
  if hasBit pte ptePresent then
    (0, paddrOf pte v, mmQueryPresent ||| (if hasBit pte pteUser then mmQueryUser else 0#32) |||
      if hasBit pte pteRw then mmQueryWrite else 0#32)
  else (-1, 0, 0#32)

theorem entries_of_table (h : s.HasTable d (pdIndex v)) :
    s.entries d v = (s.mem d (pdIndex v), some (s.pte d v)) := by
  rw [entries, pte, if_pos h, if_pos (show hasBit _ ptePresent = true from h), table]

theorem entries_of_no_table (h : ¬ s.HasTable d (pdIndex v)) :
    s.entries d v = (s.mem d (pdIndex v), none) := by
  rw [entries, if_neg (show ¬ hasBit _ ptePresent = true from h)]

theorem pte_of_no_table (h : ¬ s.HasTable d (pdIndex v)) : s.pte d v = 0#32 := if_neg h

theorem entriesPaddr_entries : entriesPaddr (s.entries d v).2 v =
    if hasBit (s.pte d v) ptePresent then paddrOf (s.pte d v) v else 0 := by
  by_cases h : s.HasTable d (pdIndex v)
  · rw [entries_of_table h]
    rfl
  · rw [entries_of_no_table h, pte_of_no_table h]
    rfl

theorem entriesFlags_some {pde pte : BitVec 32} (hrw : hasBit pde pteRw = true)
    (hu : hasBit pte pteUser = true → hasBit pde pteUser = true) :
    entriesFlags pde (some pte) v = report pte v := by
  unfold entriesFlags report
  simp only [hrw, Bool.true_and]
  cases h : hasBit pte pteUser with
  | true => simp only [hu h, Bool.and_self]
  | false => simp only [Bool.and_false]

theorem entriesFlags_entries (h : s.Grants dirs) (hd : d ∈ dirs) (hv : IsUserEntry (pdIndex v)) :
    entriesFlags (s.entries d v).1 (s.entries d v).2 v = report (s.pte d v) v := by
  by_cases ht : s.HasTable d (pdIndex v)
  · obtain ⟨hrw, hu⟩ := h d hd v hv ht
    rw [entries_of_table ht]
    exact entriesFlags_some hrw hu
  · rw [entries_of_no_table ht, pte_of_no_table ht]
    rfl

theorem Wf.getPaddr (h : s.Wf dirs temps) (hd : s.resolve cpu p ∈ dirs)
    (hv : IsUserEntry (pdIndex v)) :
    s.vmmGetPaddr cpu p v = some (s, if hasBit (s.pte (s.resolve cpu p) v) ptePresent then
      paddrOf (s.pte (s.resolve cpu p) v) v else 0) := by
  rw [(h.reaches hd hv cpu).vmmGetPaddr rfl, entriesPaddr_entries]

theorem Wf.queryFlags (h : s.Wf dirs temps) (hg : s.Grants dirs) (hd : s.resolve cpu p ∈ dirs)
    (hv : IsUserEntry (pdIndex v)) :
    s.vmmQueryFlags cpu p v = some (s, report (s.pte (s.resolve cpu p) v) v) := by
  rw [(h.reaches hd hv cpu).vmmQueryFlags rfl, entriesFlags_entries hg hd hv]

theorem vpn_eq_iff (hv : IsUserEntry (pdIndex v)) (hv' : IsUserEntry (pdIndex v')) :
    pdIndex v' = pdIndex v ∧ ptIndex v' = ptIndex v ↔ v' / pageSize = v / pageSize := by
  have h1 := hv.2
  have h2 := hv'.2
  simp only [pdIndex, ptIndex, pageSize] at *
  omega

section
variable (h : s.Wf dirs temps) (hd : d ∈ dirs)
include h hd

theorem Wf.pte_setEntry (hi : IsUserEntry i) (ht : s.HasTable d i) (hd' : d' ∈ dirs)
    (hv : IsUserEntry (pdIndex v)) : (s.setEntry (s.table d i) j x).pte d' v =
      if d' = d ∧ pdIndex v = i ∧ ptIndex v = j then x else s.pte d' v := by
  have hne : d' ≠ s.table d i := fun he => h.table_not_dir d hd i hi ht (he ▸ hd')
  have hmem : (s.setEntry (s.table d i) j x).mem d' = s.mem d' := setEntry_mem_of_ne hne
  have hiff : (s.setEntry (s.table d i) j x).HasTable d' (pdIndex v) ↔
    s.HasTable d' (pdIndex v) := by
    rw [HasTable, HasTable, hmem]
  have htab : (s.setEntry (s.table d i) j x).table d' (pdIndex v) = s.table d' (pdIndex v) := by
    unfold table at hmem ⊢
    rw [hmem]
  by_cases ht' : s.HasTable d' (pdIndex v)
  · rw [pte, if_pos (hiff.mpr ht'), htab, setEntry_mem_apply, pte, if_pos ht']
    by_cases he : s.table d' (pdIndex v) = s.table d i
    · obtain ⟨rfl, hvi⟩ := h.table_inj d' hd' d hd _ i hv hi ht' ht he
      simp [hvi]
    · have : ¬ (d' = d ∧ pdIndex v = i ∧ ptIndex v = j) := fun h => he (h.1 ▸ h.2.1 ▸ rfl)
      rw [if_neg (fun h => he h.1), if_neg this]
  · have : ¬ (d' = d ∧ pdIndex v = i ∧ ptIndex v = j) := fun h => ht' (h.1 ▸ h.2.1 ▸ ht)
    rw [if_neg this, pte_of_no_table (mt hiff.mp ht'), pte_of_no_table ht']

theorem Wf.pte_widen (ht : s.HasTable d i) (hd' : d' ∈ dirs) (hv : IsUserEntry (pdIndex v)) :
    (s.widen d i flags).pte d' v = s.pte d' v := by
  have hent : ((s.widen d i flags).HasTable d' (pdIndex v) ↔ s.HasTable d' (pdIndex v)) ∧
      (s.widen d i flags).table d' (pdIndex v) = s.table d' (pdIndex v) := by
    by_cases hdk : d' = d ∧ pdIndex v = i
    · obtain ⟨rfl, rfl⟩ := hdk
      exact ⟨iff_of_true (present_widen ht) ht, pageOf_widen⟩
    · have : (s.widen d i flags).mem d' (pdIndex v) = s.mem d' (pdIndex v) := by
        rw [Vmm.widen, setEntry_mem_apply, if_neg hdk]
      rw [HasTable, HasTable, table, table, this]
      exact ⟨Iff.rfl, rfl⟩
  by_cases ht' : s.HasTable d' (pdIndex v)
  · have hne : s.table d' (pdIndex v) ≠ d := fun he => h.table_not_dir d' hd' _ hv ht' (he ▸ hd)
    rw [pte, if_pos (hent.1.mpr ht'), hent.2, pte, if_pos ht', Vmm.widen, setEntry_mem_of_ne hne]
  · rw [pte_of_no_table (mt hent.1.mp ht'), pte_of_no_table ht']

theorem Wf.pte_addTable (hn : ¬ s.HasTable d i) (h0 : s.pages.allocPage.2 ≠ 0) (hd' : d' ∈ dirs)
    (hv : IsUserEntry (pdIndex v)) : (s.addTable d i flags).pte d' v = s.pte d' v := by
  have hfree := s.pages.allocPage_outcome.free h0
  have hpage : IsPage s.pages.allocPage.2 := ⟨hfree.1.aligned, hfree.1.isPage_lt⟩
  obtain ⟨hndir, hntemp, hntable, hnshared⟩ := h.free_ne hfree
  have hmem : ∀ q ≠ d, (s.addTable d i flags).mem q =
    s.mem.setPage s.pages.allocPage.2 (fun _ => 0#32) q := fun q hq => setEntry_mem_of_ne hq
  by_cases hdk : d' = d ∧ pdIndex v = i
  · obtain ⟨rfl, rfl⟩ := hdk
    have hne : s.pages.allocPage.2 ≠ d' := fun he => hndir (he ▸ hd)
    rw [pte_of_no_table hn, pte, if_pos (show Vmm.HasTable _ _ _ from present_addTable),
      show (s.addTable d' (pdIndex v) flags).table d' (pdIndex v) = s.pages.allocPage.2 from
        pageOf_addTable hpage, hmem _ hne, Lib.Memory.setPage_self]
  · have hent : (s.addTable d i flags).mem d' (pdIndex v) = s.mem d' (pdIndex v) := by
      rw [addTable_mem_apply hndir hd', if_neg hdk]
    have hiff : (s.addTable d i flags).HasTable d' (pdIndex v) ↔ s.HasTable d' (pdIndex v) := by
      rw [HasTable, HasTable, hent]
    by_cases ht' : s.HasTable d' (pdIndex v)
    · have hne : s.table d' (pdIndex v) ≠ d := fun he => h.table_not_dir d' hd' _ hv ht' (he ▸ hd)
      rw [pte, if_pos (hiff.mpr ht'), pte, if_pos ht', table, hent, ← table, hmem _ hne,
        Lib.Memory.setPage_of_ne (hntable d' hd' _ hv ht')]
    · rw [pte_of_no_table (mt hiff.mp ht'), pte_of_no_table ht']

end

/-- What `vmm_map_page` can do: the entry is written to the table that was there, to a new one, or
nothing happens. -/
theorem mapDirect_cases (s : Vmm) (d v : ℕ) (paddr flags : BitVec 32) :
    (s.HasTable d (pdIndex v) ∧ s.mapDirect d v paddr flags =
      ((s.widen d (pdIndex v) flags).setEntry ((s.widen d (pdIndex v) flags).table d (pdIndex v))
        (ptIndex v) (pteOf paddr flags), 0)) ∨
    (¬ s.HasTable d (pdIndex v) ∧ s.pages.allocPage.2 ≠ 0 ∧ s.mapDirect d v paddr flags =
      ((s.addTable d (pdIndex v) flags).setEntry
      ((s.addTable d (pdIndex v) flags).table d (pdIndex v))
        (ptIndex v) (pteOf paddr flags), 0)) ∨
    s.pages.allocPage.2 = 0 ∧ s.mapDirect d v paddr flags = (s, -eNoMem) := by
  unfold mapDirect
  by_cases ht : hasBit (s.mem d (pdIndex v)) ptePresent = true
  · rw [if_pos ht]
    refine .inl ⟨ht, ?_⟩
    rw [table, pageOf_widen]
  · rw [if_neg ht]
    by_cases h0 : s.pages.allocPage.2 = 0
    · rw [if_pos h0]
      exact .inr (.inr ⟨h0, rfl⟩)
    · have hf := s.pages.allocPage_outcome.free h0
      rw [if_neg h0]
      refine .inr (.inl ⟨ht, h0, ?_⟩)
      rw [table, pageOf_addTable ⟨hf.1.aligned, hf.1.isPage_lt⟩]

theorem eNoMem_ne_zero : (-eNoMem : ℤ) ≠ 0 := by decide

theorem mapDirect_failed (hr : (s.mapDirect d v paddr flags).2 ≠ 0) :
    (s.mapDirect d v paddr flags).1 = s := by
  rcases mapDirect_cases s d v paddr flags with ⟨-, he⟩ | ⟨-, -, he⟩ | ⟨-, he⟩
  · exact absurd (congrArg Prod.snd he) hr
  · exact absurd (congrArg Prod.snd he) hr
  · rw [he]

section
variable (h : s.Wf dirs temps) (hd : d ∈ dirs) (hv : IsUserEntry (pdIndex v))
include h hd hv

theorem Wf.pte_map (hr : (s.mapDirect d v paddr flags).2 = 0) (hd' : d' ∈ dirs)
    (hv' : IsUserEntry (pdIndex v')) : (s.mapDirect d v paddr flags).1.pte d' v' =
      if d' = d ∧ v' / pageSize = v / pageSize then pteOf paddr flags else s.pte d' v' := by
  simp only [← vpn_eq_iff hv hv']
  rcases mapDirect_cases s d v paddr flags with ⟨ht, he⟩ | ⟨ht, h0, he⟩ | ⟨-, he⟩
  · rw [he, (h.widen flags hd hv ht).pte_setEntry hd hv (present_widen ht) hd' hv',
      h.pte_widen hd ht hd' hv']
  · rw [he, (h.addTable flags hd hv ht h0).pte_setEntry hd hv present_addTable hd' hv',
      h.pte_addTable hd ht h0 hd' hv']
  · rw [he] at hr
    exact absurd hr eNoMem_ne_zero

theorem Wf.map : (s.mapDirect d v paddr flags).1.Wf dirs temps := by
  rcases mapDirect_cases s d v paddr flags with ⟨ht, he⟩ | ⟨ht, h0, he⟩ | ⟨-, he⟩
  · have hw := h.widen flags hd hv ht
    rw [he]
    exact hw.setEntry_table (hw.table_not_dir d hd _ hv (present_widen ht))
      (hw.table_not_temp d hd _ hv (present_widen ht))
  · have hw := h.addTable flags hd hv ht h0
    rw [he]
    exact hw.setEntry_table (hw.table_not_dir d hd _ hv present_addTable)
      (hw.table_not_temp d hd _ hv present_addTable)
  · rw [he]
    exact h

theorem Wf.entry_map (hr : (s.mapDirect d v paddr flags).2 = 0) (hd' : d' ∈ dirs) (k : ℕ) :
    (s.mapDirect d v paddr flags).1.mem d' k = if d' = d ∧ k = pdIndex v then
      if s.HasTable d (pdIndex v) then s.mem d (pdIndex v) ||| pdeNeed flags
      else BitVec.ofNat 32 s.pages.allocPage.2 ||| pdeFlags flags
    else s.mem d' k := by
  rcases mapDirect_cases s d v paddr flags with ⟨ht, he⟩ | ⟨ht, h0, he⟩ | ⟨-, he⟩
  · have hw := h.widen flags hd hv ht
    have hne := ne_of_mem_of_not_mem hd' (hw.table_not_dir d hd _ hv (present_widen ht))
    rw [he, setEntry_mem_of_ne hne, if_pos ht, Vmm.widen, setEntry_mem_apply]
  · have hw := h.addTable flags hd hv ht h0
    have hne := ne_of_mem_of_not_mem hd' (hw.table_not_dir d hd _ hv present_addTable)
    rw [he, setEntry_mem_of_ne hne, if_neg ht,
      addTable_mem_apply (h.free_ne (s.pages.allocPage_outcome.free h0)).1 hd']
  · rw [he] at hr
    exact absurd hr eNoMem_ne_zero

theorem Wf.unmap : (s.unmapDirect d v).Wf dirs temps := by
  unfold unmapDirect
  split
  · rename_i ht
    exact h.setEntry_table (h.table_not_dir d hd _ hv ht) (h.table_not_temp d hd _ hv ht)
  · exact h

theorem Wf.entry_unmap (hd' : d' ∈ dirs) : (s.unmapDirect d v).mem d' = s.mem d' := by
  unfold unmapDirect
  split
  · rename_i ht
    exact setEntry_mem_of_ne (ne_of_mem_of_not_mem hd' (h.table_not_dir d hd _ hv ht))
  · rfl

theorem Wf.pte_unmap (hd' : d' ∈ dirs) (hv' : IsUserEntry (pdIndex v')) :
    (s.unmapDirect d v).pte d' v' = if d' = d ∧ v' / pageSize = v / pageSize then 0#32
    else s.pte d' v' := by
  simp only [← vpn_eq_iff hv hv']
  rw [unmapDirect]
  by_cases ht : s.HasTable d (pdIndex v)
  · rw [if_pos (show hasBit _ ptePresent = true from ht)]
    exact h.pte_setEntry hd hv ht hd' hv'
  · rw [if_neg (show ¬ hasBit _ ptePresent = true from ht)]
    split
    · rename_i he
      exact pte_of_no_table (he.1 ▸ he.2.1 ▸ ht)
    · rfl

end

theorem Wf.pte_create (h : s.Wf dirs temps) (h0 : s.pages.allocPage.2 ≠ 0)
    (hd' : d' ∈ s.pages.allocPage.2 :: dirs) (hv : IsUserEntry (pdIndex v)) :
    s.create.pte d' v = if d' = s.pages.allocPage.2 then 0#32 else s.pte d' v := by
  have hf := s.pages.allocPage_outcome.free h0
  obtain ⟨hndir, -, hntable, -⟩ := h.free_ne hf
  by_cases he : d' = s.pages.allocPage.2
  · rw [if_pos he, he]
    refine pte_of_no_table ?_
    rw [HasTable, create_mem_self, newDirectory_user hv]
    decide
  · have hd : d' ∈ dirs := (List.mem_cons.mp hd').resolve_left he
    have hmem := create_mem_of_ne he
    have hiff : s.create.HasTable d' (pdIndex v) ↔ s.HasTable d' (pdIndex v) := by
      rw [HasTable, HasTable, hmem]
    rw [if_neg he]
    by_cases ht : s.HasTable d' (pdIndex v)
    · rw [pte, if_pos (hiff.mpr ht), pte, if_pos ht, table, hmem, ← table,
        create_mem_of_ne (hntable d' hd _ hv ht)]
    · rw [pte_of_no_table (mt hiff.mp ht), pte_of_no_table ht]

section Rights

theorem pdeNeed_user (flags : BitVec 32) :
    hasBit (pdeNeed flags) pteUser = hasBit flags vmmProtUser := by
  unfold pdeNeed
  cases hasBit flags vmmProtUser <;> cases hasBit flags vmmProtWrite <;> decide

theorem pdeFlags_user (flags : BitVec 32) :
    hasBit (pdeFlags flags) pteUser = hasBit flags vmmProtUser := by
  unfold pdeFlags
  cases hasBit flags vmmProtUser <;> decide

theorem pdeFlags_rw (flags : BitVec 32) : hasBit (pdeFlags flags) pteRw = true := by
  unfold pdeFlags
  cases hasBit flags vmmProtUser <;> decide

theorem vmmFlagsToX86_low (flags : BitVec 32) : vmmFlagsToX86 flags &&& pageMask = 0#32 := by
  unfold vmmFlagsToX86
  cases hasBit flags vmmProtUser <;> cases hasBit flags vmmProtWrite <;> cases hasBit flags
    vmmProtNocache <;> decide

theorem hasBit_pteOf (paddr flags : BitVec 32) : hasBit (pteOf paddr flags) ptePresent = true ∧
    hasBit (pteOf paddr flags) pteUser = hasBit flags vmmProtUser ∧
    hasBit (pteOf paddr flags) pteRw = hasBit flags vmmProtWrite := by
  unfold pteOf
  rw [hasBit_or, hasBit_or, hasBit_or, hasBit_and_pageMask (by decide),
    hasBit_and_pageMask (by decide), hasBit_and_pageMask (by decide)]
  unfold vmmFlagsToX86
  cases hasBit flags vmmProtUser <;> cases hasBit flags vmmProtWrite <;> cases hasBit flags
    vmmProtNocache <;> decide

theorem pageOf_pteOf (paddr flags : BitVec 32) : pageOf (pteOf paddr flags) = pageOf paddr := by
  rw [pteOf, pageOf_or (vmmFlagsToX86_low flags), pageOf_and_pageMask]

theorem Wf.user_map (h : s.Wf dirs temps) (hd : d ∈ dirs) (hv : IsUserEntry (pdIndex v))
    (hr : (s.mapDirect d v paddr flags).2 = 0) :
    hasBit ((s.mapDirect d v paddr flags).1.mem d (pdIndex v)) pteUser =
      ((decide (s.HasTable d (pdIndex v)) && hasBit (s.mem d (pdIndex v)) pteUser) || hasBit flags
      vmmProtUser) := by
  rw [h.entry_map hd hv hr hd, if_pos ⟨rfl, rfl⟩]
  by_cases ht : s.HasTable d (pdIndex v)
  · rw [if_pos ht, hasBit_or, pdeNeed_user, decide_eq_true ht, Bool.true_and]
  · have hne : s.pages.allocPage.2 ≠ 0 := by
      rcases mapDirect_cases s d v paddr flags with ⟨ht', -⟩ | ⟨-, h0, -⟩ | ⟨-, he⟩
      · exact absurd ht' ht
      · exact h0
      · rw [he] at hr
        exact absurd hr eNoMem_ne_zero
    have hf := s.pages.allocPage_outcome.free hne
    rw [if_neg ht, hasBit_or, pdeFlags_user,
      hasBit_ofNat ⟨hf.1.aligned, hf.1.isPage_lt⟩ (by decide),
      decide_eq_false ht, Bool.false_and]

variable (hg : s.Grants dirs) (h : s.Wf dirs temps)
include hg h

theorem Grants.map (hd : d ∈ dirs) (hv : IsUserEntry (pdIndex v))
    (hr : (s.mapDirect d v paddr flags).2 = 0) : (s.mapDirect d v paddr flags).1.Grants dirs := by
  intro d' hd' v' hv' ht'
  rw [h.pte_map hd hv hr hd' hv']
  by_cases hdk : d' = d ∧ pdIndex v' = pdIndex v
  · obtain ⟨rfl, hk⟩ := hdk
    have hu := h.user_map hd hv hr
    have hent := h.entry_map hd hv hr hd (pdIndex v)
    rw [if_pos ⟨rfl, rfl⟩] at hent
    rw [hk, hu]
    constructor
    · rw [hent]
      split
      · rename_i ht
        rw [hasBit_or, (hg d' hd v hv ht).1, Bool.true_or]
      · rw [hasBit_or, pdeFlags_rw, Bool.or_true]
    · intro hp
      split at hp
      · rw [← (hasBit_pteOf paddr flags).2.1, hp, Bool.or_true]
      · by_cases ht : s.HasTable d' (pdIndex v')
        · have := (hg d' hd v' hv' ht).2 hp
          rw [hk] at this ht
          rw [decide_eq_true ht, this, Bool.and_self, Bool.true_or]
        · rw [pte_of_no_table ht] at hp
          exact absurd hp (by decide)
  · have hent := h.entry_map hd hv hr hd' (pdIndex v')
    rw [if_neg hdk] at hent
    have hne : ¬ (d' = d ∧ v' / pageSize = v / pageSize) :=
      fun he => hdk ⟨he.1, ((vpn_eq_iff hv hv').mpr he.2).1⟩
    rw [HasTable, hent] at ht'
    rw [hent, if_neg hne]
    exact hg d' hd' v' hv' ht'

theorem Grants.unmap (hd : d ∈ dirs) (hv : IsUserEntry (pdIndex v)) :
    (s.unmapDirect d v).Grants dirs := by
  intro d' hd' v' hv' ht'
  have hent := h.entry_unmap hd hv hd'
  rw [HasTable, hent] at ht'
  rw [hent, h.pte_unmap hd hv hd' hv']
  obtain ⟨hrw, hu⟩ := hg d' hd' v' hv' ht'
  refine ⟨hrw, fun hp => ?_⟩
  split at hp
  · exact absurd hp (by decide)
  · exact hu hp

theorem Grants.create (h0 : s.pages.allocPage.2 ≠ 0) :
    s.create.Grants (s.pages.allocPage.2 :: dirs) := by
  intro d' hd' v' hv' ht'
  by_cases he : d' = s.pages.allocPage.2
  · rw [HasTable, he, create_mem_self, newDirectory_user hv'] at ht'
    exact absurd ht' (by decide)
  · have hd : d' ∈ dirs := (List.mem_cons.mp hd').resolve_left he
    rw [HasTable, create_mem_of_ne he] at ht'
    rw [create_mem_of_ne he, h.pte_create h0 hd' hv', if_neg he]
    exact hg d' hd v' hv' ht'

end Rights

end Vmm

end Xnix
