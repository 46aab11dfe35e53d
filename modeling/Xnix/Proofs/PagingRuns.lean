import Xnix.Proofs.UserCopy

/-!
# Runs of the page table operations

In every state that calls of the operations lead to, what `vmm_get_paddr` and `vmm_query_flags`
report is what the calls amount to. A directory that is destroyed gives back all its tables if every
table has had a mapping for the user; a table that never had one stays allocated.
-/

namespace Xnix

open Function List

open Vmm

namespace PagingSys

variable {s s' : PagingSys} {cpu : Cpu} {d i v pd : ℕ} {temps : Cpu → ℕ} {paddr flags : BitVec 32}

def entryOf : Option PageMapping → BitVec 32
  | none => 0#32
  | some m => pteOf m.paddr m.flags

def expectedPaddr (m : Option PageMapping) (v : ℕ) : ℕ :=
  match m with
  | none => 0
  | some m => pageOf m.paddr + v % pageSize

def expectedFlags (m : Option PageMapping) (v : ℕ) : ℤ × ℕ × BitVec 32 :=
  match m with
  | none => (-1, 0, 0#32)
  | some m => (0, pageOf m.paddr + v % pageSize, mmQueryPresent |||
      (if hasBit m.flags vmmProtUser then mmQueryUser else 0#32) |||
      if hasBit m.flags vmmProtWrite then mmQueryWrite else 0#32)

theorem paddr_entryOf (m : Option PageMapping) (v : ℕ) :
    (if hasBit (entryOf m) ptePresent then paddrOf (entryOf m) v else 0) = expectedPaddr m v := by
  cases m with
  | none => rfl
  | some m =>
    rw [entryOf, if_pos (hasBit_pteOf _ _).1, paddrOf, pageOf_pteOf]
    rfl

theorem report_entryOf (m : Option PageMapping) (v : ℕ) :
    report (entryOf m) v = expectedFlags m v := by
  cases m with
  | none => rfl
  | some m =>
    obtain ⟨hp, hu, hw⟩ := hasBit_pteOf m.paddr m.flags
    rw [entryOf, report, if_pos hp, hu, hw, paddrOf, pageOf_pteOf]
    rfl

def ownTables (s : PagingSys) (d : ℕ) : List ℕ :=
  ((range 1022).filter fun i => decide (IsUserEntry i ∧ s.vmm.HasTable d i)).map (s.vmm.table d)

theorem mem_ownTables {p : ℕ} :
    p ∈ s.ownTables d ↔ ∃ i, IsUserEntry i ∧ s.vmm.HasTable d i ∧ s.vmm.table d i = p := by
  unfold ownTables
  simp only [mem_map, mem_filter, mem_range, decide_eq_true_eq]
  constructor
  · rintro ⟨i, ⟨-, hi, ht⟩, rfl⟩
    exact ⟨i, hi, ht, rfl⟩
  · rintro ⟨i, hi, ht, rfl⟩
    exact ⟨i, ⟨by have := hi.2; omega, hi, ht⟩, rfl⟩

/-- Destroying a directory frees its tables and its own page, each once, and no page that another
directory leads to.
-/
structure DestroyedExactly (s : PagingSys) (cpu : Cpu) (d : ℕ) : Prop where
  frees : s.vmm.vmmDestroyPd cpu d =
    some { s.vmm with pages := (s.ownTables d ++ [d]).foldl PageAlloc.freePage s.vmm.pages }
  once : (s.ownTables d ++ [d]).Nodup
  taken : ∀ p ∈ s.ownTables d ++ [d], s.vmm.pages.Taken p
  apart : ∀ d' ∈ s.dirs, d' ≠ d → d' ∉ s.ownTables d ++ [d] ∧
    ∀ i ≤ 1023, s.vmm.HasTable d' i → s.vmm.table d' i ∉ s.ownTables d ++ [d]

def about (s : PagingSys) : PagingAction → Option ℕ
  | .createPd _ => none
  | .mapPage cpu pdPhys _ _ _ => some (s.target cpu pdPhys)
  | .unmapPage cpu pdPhys _ => some (s.target cpu pdPhys)
  | .switchPd _ _ => none
  | .destroyPd _ pdPhys => some pdPhys

/-- The state after `vmm_init`: the kernel's directory, without a table in the user half. -/
structure Boot (s : PagingSys) : Prop where
  wf : ∃ temps, s.vmm.Wf s.dirs temps
  dirs_eq : s.dirs = [s.vmm.kernelPd]
  no_table : ∀ i, IsUserEntry i → ¬ s.vmm.HasTable s.vmm.kernelPd i
  view_none : ∀ d v, s.view d v = none
  not_userMapped : ∀ d i, s.userMapped d i = false

structure Inv (s : PagingSys) (temps : Cpu → ℕ) : Prop where
  wf : s.vmm.Wf s.dirs temps
  grants : s.vmm.Grants s.dirs
  entry : ∀ d ∈ s.dirs, ∀ v, IsUserEntry (pdIndex v) → s.vmm.pte d v = entryOf (s.view d (vpn v))
  user : ∀ d ∈ s.dirs, ∀ i, IsUserEntry i →
    (s.userMapped d i = true ↔ s.vmm.HasTable d i ∧ hasBit (s.vmm.mem d i) pteUser = true)

theorem isUserPage_iff : isUserPage v = true ↔ IsUserEntry (pdIndex v) := decide_eq_true_iff

def next (s : PagingSys) : PagingAction → PagingSys
  | .createPd _ =>
    if s.vmm.pages.allocPage.2 = 0 then s
    else { vmm := s.vmm.create, dirs := s.vmm.pages.allocPage.2 :: s.dirs,
           view := update s.view s.vmm.pages.allocPage.2 fun _ => none,
           userMapped := update s.userMapped s.vmm.pages.allocPage.2 fun _ => false }
  | .mapPage cpu pdPhys v paddr flags =>
    if s.target cpu pdPhys ∈ s.dirs ∧ isUserPage v then
      if (s.vmm.mapDirect (s.target cpu pdPhys) v paddr flags).2 = 0 then
        { s with vmm := (s.vmm.mapDirect (s.target cpu pdPhys) v paddr flags).1
                 view := s.setView (s.target cpu pdPhys) v (some ⟨paddr, flags⟩)
                 userMapped := s.setUserMapped (s.target cpu pdPhys) v flags }
      else s
    else s
  | .unmapPage cpu pdPhys v =>
    if s.target cpu pdPhys ∈ s.dirs ∧ isUserPage v then
      { s with vmm := s.vmm.unmapDirect (s.target cpu pdPhys) v
               view := s.setView (s.target cpu pdPhys) v none }
    else s
  | .switchPd cpu pdPhys =>
    if pdPhys ∈ s.dirs then { s with vmm := s.vmm.vmmSwitchPd cpu pdPhys } else s
  | .destroyPd _ pdPhys =>
    if pdPhys ∈ s.dirs ∧ pdPhys ≠ s.vmm.kernelPd ∧ ∀ c, s.vmm.cr3 c ≠ pdPhys then
      { s with vmm := s.vmm.destroy pdPhys, dirs := s.dirs.filter (· ≠ pdPhys) }
    else s

theorem Inv.destroyPd (h : s.Inv temps) (hd : d ∈ s.dirs) (hk : d ≠ s.vmm.kernelPd) :
    s.vmm.vmmDestroyPd cpu d = some (s.vmm.destroy d) :=
  (h.wf.ready cpu).vmmDestroyPd (isPage_of_taken (h.wf.dir_taken d hd)) (h.wf.dir_ne_temp hd cpu) hk

/-- Every call comes to its end, and does to the pages what it is meant to do. -/
theorem Inv.step_eq (h : s.Inv temps) (a : PagingAction) : s.step a = some (s.next a) := by
  cases a with
  | createPd cpu =>
    rw [step, next]
    by_cases h0 : s.vmm.pages.allocPage.2 = 0
    · rw [vmmCreatePd, if_pos h0, if_pos h0]
      rfl
    · rw [(h.wf.makes h0 cpu).vmmCreatePd h0, if_neg h0]
      exact congrArg some (if_neg h0)
  | mapPage cpu pdPhys v paddr flags =>
    rw [step, next]
    split
    · rename_i hc
      obtain ⟨hd, hv⟩ := hc
      have hv := isUserPage_iff.mp hv
      have hlow : ¬ (v < pageSize ∧ hasBit flags vmmProtUser = true) := fun hlow => by
        have := hv.1
        unfold pdIndex pageSize at *
        omega
      rw [(h.wf.reaches hd hv cpu).vmmMapPage rfl hlow fun h0 => h.wf.freshFor h0 cpu,
        Option.map_some]
      have hfail : (s.vmm.mapDirect (s.target cpu pdPhys) v paddr flags).2 ≠ 0 → _ :=
        mapDirect_failed
      rcases hm : s.vmm.mapDirect (s.target cpu pdPhys) v paddr flags with ⟨w, ret⟩
      by_cases hr : ret = 0
      · rw [if_pos hr]
        exact congrArg some (if_pos hr)
      · rw [hm] at hfail
        obtain rfl : w = s.vmm := hfail hr
        rw [if_neg hr]
        exact congrArg some (if_neg hr)
    · rfl
  | unmapPage cpu pdPhys v =>
    rw [step, next]
    split
    · rename_i hc
      rw [(h.wf.reaches hc.1 (isUserPage_iff.mp hc.2) cpu).vmmUnmapPage rfl]
      rfl
    · rfl
  | switchPd cpu pdPhys =>
    rw [step, next]
    split <;> rfl
  | destroyPd cpu pdPhys =>
    rw [step, next]
    split
    · rename_i hc
      rw [h.destroyPd hc.1 hc.2.1]
      rfl
    · rfl

theorem setView_apply (m : Option PageMapping) (d' v' : ℕ) : s.setView d v m d' (vpn v') =
    if d' = d ∧ v' / pageSize = v / pageSize then m else s.view d' (vpn v') := by
  unfold setView
  by_cases hd : d' = d
  · subst hd
    rw [update_self]
    by_cases hv : v' / pageSize = v / pageSize
    · rw [if_pos ⟨rfl, hv⟩, show vpn v' = vpn v from hv, update_self]
    · rw [if_neg fun h => hv h.2, update_of_ne (show vpn v' ≠ vpn v from hv)]
  · rw [if_neg fun h => hd h.1, update_of_ne hd]

theorem setUserMapped_apply (d' i' : ℕ) : s.setUserMapped d v flags d' i' =
    if d' = d ∧ i' = pdIndex v then (s.userMapped d (pdIndex v) || hasBit flags vmmProtUser)
    else s.userMapped d' i' := by
  unfold setUserMapped
  by_cases hd : d' = d
  · subst hd
    rw [update_self]
    by_cases hi : i' = pdIndex v
    · rw [if_pos ⟨rfl, hi⟩, hi, update_self]
    · rw [if_neg fun h => hi h.2, update_of_ne hi]
  · rw [if_neg fun h => hd h.1, update_of_ne hd]

theorem Inv.create (h : s.Inv temps) (h0 : s.vmm.pages.allocPage.2 ≠ 0) :
    Inv { vmm := s.vmm.create, dirs := s.vmm.pages.allocPage.2 :: s.dirs,
          view := update s.view s.vmm.pages.allocPage.2 fun _ => none,
          userMapped := update s.userMapped s.vmm.pages.allocPage.2 fun _ => false } temps := by
  refine ⟨h.wf.create h0, h.grants.create h.wf h0, fun d hd v hv => ?_, fun d hd i hi => ?_⟩
  · rw [h.wf.pte_create h0 hd hv]
    dsimp only
    by_cases he : d = s.vmm.pages.allocPage.2
    · rw [if_pos he, he, update_self]
      rfl
    · rw [if_neg he, update_of_ne he]
      exact h.entry d ((mem_cons.mp hd).resolve_left he) v hv
  · dsimp only
    by_cases he : d = s.vmm.pages.allocPage.2
    · rw [he, update_self, HasTable, create_mem_self, newDirectory_user hi]
      decide
    · rw [update_of_ne he, HasTable, create_mem_of_ne he]
      exact h.user d ((mem_cons.mp hd).resolve_left he) i hi

section
variable (h : s.Inv temps) (hd : d ∈ s.dirs)
include h hd

theorem Inv.map (hv : IsUserEntry (pdIndex v)) (hr : (s.vmm.mapDirect d v paddr flags).2 = 0) :
    Inv { s with
      vmm := (s.vmm.mapDirect d v paddr flags).1, view := s.setView d v (some ⟨paddr, flags⟩),
      userMapped := s.setUserMapped d v flags } temps := by
  refine ⟨h.wf.map hd hv, h.grants.map h.wf hd hv hr, fun d' hd' v' hv' => ?_,
    fun d' hd' i' hi' => ?_⟩
  · dsimp only
    rw [h.wf.pte_map hd hv hr hd' hv', setView_apply]
    split
    · rfl
    · exact h.entry d' hd' v' hv'
  · dsimp only
    rw [setUserMapped_apply]
    by_cases hdi : d' = d ∧ i' = pdIndex v
    · obtain ⟨rfl, rfl⟩ := hdi
      have hold := h.user d' hd _ hv
      have hp : (s.vmm.mapDirect d' v paddr flags).1.HasTable d' (pdIndex v) := by
        rw [HasTable, h.wf.entry_map hd hv hr hd, if_pos ⟨rfl, rfl⟩]
        split
        · rename_i ht
          rw [hasBit_or, ht, Bool.true_or]
        · rw [hasBit_or, pdeFlags_present, Bool.or_true]
      rw [if_pos ⟨rfl, rfl⟩, h.wf.user_map hd hv hr, Bool.or_eq_true, Bool.or_eq_true,
        Bool.and_eq_true,
        decide_eq_true_eq, hold]
      exact ⟨fun h => ⟨hp, h⟩, fun h => h.2⟩
    · rw [if_neg hdi, HasTable, h.wf.entry_map hd hv hr hd', if_neg hdi]
      exact h.user d' hd' i' hi'

theorem Inv.unmap (hv : IsUserEntry (pdIndex v)) :
    Inv { s with vmm := s.vmm.unmapDirect d v, view := s.setView d v none } temps := by
  refine ⟨h.wf.unmap hd hv, h.grants.unmap h.wf hd hv, fun d' hd' v' hv' => ?_,
    fun d' hd' i' hi' => ?_⟩
  · dsimp only
    rw [h.wf.pte_unmap hd hv hd' hv', setView_apply]
    split
    · rfl
    · exact h.entry d' hd' v' hv'
  · rw [HasTable, h.wf.entry_unmap hd hv hd']
    exact h.user d' hd' i' hi'

theorem Inv.switch : Inv { s with vmm := s.vmm.vmmSwitchPd cpu d } temps := by
  unfold vmmSwitchPd
  split
  · exact h
  · refine ⟨h.wf.of_entries rfl (fun c => ?_) (fun _ h => h) (fun _ h => h) h.wf.temp_idle
      (fun _ _ _ _ => ⟨Iff.rfl, rfl⟩) fun _ _ _ _ _ => rfl, h.grants, h.entry, h.user⟩
    dsimp only
    by_cases hc : c = cpu
    · rw [hc, update_self]
      exact hd
    · rw [update_of_ne hc]
      exact h.wf.cr3_mem c

theorem Inv.destroy (hk : d ≠ s.vmm.kernelPd) (hc : ∀ c, s.vmm.cr3 c ≠ d) :
    Inv { s with vmm := s.vmm.destroy d, dirs := s.dirs.filter (· ≠ d) } temps :=
  ⟨h.wf.destroy hd hk hc, fun d' hd' => h.grants d' (mem_filter.mp hd').1,
    fun d' hd' => h.entry d' (mem_filter.mp hd').1, fun d' hd' => h.user d' (mem_filter.mp hd').1⟩

end

theorem Inv.next (h : s.Inv temps) (a : PagingAction) : (s.next a).Inv temps := by
  cases a with
  | createPd cpu =>
    rw [PagingSys.next]
    split
    · exact h
    · exact h.create ‹_›
  | mapPage cpu pdPhys v paddr flags =>
    rw [PagingSys.next]
    split
    · rename_i hc
      split
      · exact h.map hc.1 (isUserPage_iff.mp hc.2) ‹_›
      · exact h
    · exact h
  | unmapPage cpu pdPhys v =>
    rw [PagingSys.next]
    split
    · rename_i hc
      exact h.unmap hc.1 (isUserPage_iff.mp hc.2)
    · exact h
  | switchPd cpu pdPhys =>
    rw [PagingSys.next]
    split
    · exact h.switch ‹_›
    · exact h
  | destroyPd cpu pdPhys =>
    rw [PagingSys.next]
    split
    · rename_i hc
      exact h.destroy hc.1 hc.2.1 hc.2.2
    · exact h

theorem Boot.inv (h : s.Boot) : ∃ temps, s.Inv temps := by
  obtain ⟨temps, hwf⟩ := h.wf
  have hno : ∀ d ∈ s.dirs, ∀ i, IsUserEntry i → ¬ s.vmm.HasTable d i := fun d hd i hi => by
    rw [h.dirs_eq, mem_singleton] at hd
    exact hd ▸ h.no_table i hi
  refine ⟨temps, hwf, fun d hd v hv ht => absurd ht (hno d hd _ hv), fun d hd v hv => ?_,
    fun d hd i hi => ?_⟩
  · rw [pte_of_no_table (hno d hd _ hv), h.view_none]
    rfl
  · rw [h.not_userMapped]
    exact ⟨fun h => absurd h Bool.false_ne_true, fun h => absurd h.1 (hno d hd i hi)⟩

theorem inv_of_reach (h : Lib.Reach step Boot (fun _ _ => True) s) : ∃ temps, s.Inv temps := by
  refine h.invariant (fun s h => h.inv) ?_
  rintro s a s' ⟨temps, h⟩ - hs
  rw [h.step_eq a] at hs
  exact ⟨temps, Option.some.inj hs ▸ h.next a⟩

theorem Inv.run_eq : ∀ (as : List PagingAction) {s : PagingSys}, s.Inv temps →
    Lib.run step s as = some (as.foldl PagingSys.next s)
  | [], _, _ => rfl
  | a :: as, s, h => by
    rw [Lib.run, h.step_eq a]
    exact Inv.run_eq as (h.next a)

theorem Inv.reports (h : s.Inv temps) (hd : s.target cpu pd ∈ s.dirs) (hv : isUserPage v = true) :
    s.vmm.vmmGetPaddr cpu pd v = some (s.vmm, expectedPaddr (s.view (s.target cpu pd) (vpn v)) v) ∧
      s.vmm.vmmQueryFlags cpu pd v =
      some (s.vmm, expectedFlags (s.view (s.target cpu pd) (vpn v)) v) := by
  have hv := isUserPage_iff.mp hv
  rw [h.wf.getPaddr hd hv, h.wf.queryFlags h.grants hd hv]
  have he : s.vmm.pte (s.vmm.resolve cpu pd) v = entryOf (s.view (s.target cpu pd) (vpn v)) :=
    h.entry _ hd v hv
  rw [he, paddr_entryOf, report_entryOf]
  exact ⟨rfl, rfl⟩

theorem Inv.target_self (h : s.Inv temps) (cpu : Cpu) (hd : d ∈ s.dirs) : s.target cpu d = d :=
  if_neg (h.wf.dir_taken d hd).1.pos.ne'

section
variable (h : s.Inv temps) (hd : d ∈ s.dirs)
include h hd

theorem Inv.next_view {a : PagingAction} (ha : s.about a ≠ some d) :
    d ∈ (s.next a).dirs ∧ (s.next a).view d = s.view d := by
  have hset : ∀ {d' v : ℕ} {m : Option PageMapping}, some d' ≠ some d → s.setView d' v m d =
    s.view d := fun hne => update_of_ne (fun he => hne (congrArg some he.symm)) ..
  cases a with
  | createPd cpu =>
    rw [PagingSys.next]
    split
    · exact ⟨hd, rfl⟩
    · rename_i h0
      have hne : d ≠ s.vmm.pages.allocPage.2 := ne_of_mem_of_not_mem hd
        (h.wf.free_ne (s.vmm.pages.allocPage_outcome.free h0)).1
      exact ⟨mem_cons_of_mem _ hd, update_of_ne hne ..⟩
  | mapPage cpu pdPhys v paddr flags =>
    rw [PagingSys.next]
    split
    · split
      · exact ⟨hd, hset ha⟩
      · exact ⟨hd, rfl⟩
    · exact ⟨hd, rfl⟩
  | unmapPage cpu pdPhys v =>
    rw [PagingSys.next]
    split
    · exact ⟨hd, hset ha⟩
    · exact ⟨hd, rfl⟩
  | switchPd cpu pdPhys =>
    rw [PagingSys.next]
    split <;> exact ⟨hd, rfl⟩
  | destroyPd cpu pdPhys =>
    rw [PagingSys.next]
    split
    · have hne : d ≠ pdPhys := fun he => ha (congrArg some he.symm)
      exact ⟨mem_filter.mpr ⟨hd, by simpa using hne⟩, rfl⟩
    · exact ⟨hd, rfl⟩

theorem Inv.table_kept (hi : IsUserEntry i) (ht : s.vmm.HasTable d i)
    (hu : s.userMapped d i = false) : (s.vmm.destroy d).pages.Taken (s.vmm.table d i) := by
  refine taken_destroy.mpr ⟨h.wf.table_taken d hd i hi ht, fun hmem => ?_, ?_⟩
  · obtain ⟨i', hi', ht', hu', he⟩ := h.wf.of_mem_userTables hd hmem
    obtain ⟨-, rfl⟩ := h.wf.table_inj d hd d hd i' i hi' hi ht' ht he
    rw [(h.user d hd i' hi).mpr ⟨ht, hu'⟩] at hu
    cases hu
  · exact (ne_of_mem_of_not_mem hd (h.wf.table_not_dir d hd i hi ht)).symm

theorem Inv.userTables_eq (hu : ∀ i, IsUserEntry i → s.vmm.HasTable d i → s.userMapped d i = true) :
    s.vmm.userTables d = s.ownTables d := by
  unfold userTables ownTables
  have hlt : ∀ i ∈ range 1022, i < 1023 := fun i hi => (mem_range.mp hi).trans (by decide)
  generalize range 1022 = l at hlt
  refine congrArg (List.map _) (List.filter_congr fun i hi => ?_)
  rw [Bool.eq_iff_iff, isUserTable, Bool.and_eq_true, decide_eq_true_eq]
  constructor
  · rintro ⟨hp, hu'⟩
    refine ⟨?_, hp⟩
    by_contra hn
    rw [h.wf.shared_not_user d hd i hn (hlt i hi)] at hu'
    cases hu'
  · rintro ⟨hi, hp⟩
    exact ⟨hp, ((h.user d hd i hi).mp (hu i hi hp)).2⟩

theorem Inv.not_mem_freed {d' : ℕ} (hd' : d' ∈ s.dirs) (hne : d' ≠ d) (hi : i ≤ 1023)
    (ht : s.vmm.HasTable d' i) : s.vmm.table d' i ∉ s.ownTables d ++ [d] := by
  rw [mem_append, mem_singleton, not_or]
  by_cases hu : IsUserEntry i
  · refine ⟨fun hm => ?_, (ne_of_mem_of_not_mem hd (h.wf.table_not_dir d' hd' i hu ht)).symm⟩
    obtain ⟨k, hk, htk, he⟩ := mem_ownTables.mp hm
    exact hne (h.wf.table_inj d' hd' d hd i k hu hk ht htk he.symm).1
  · rcases hi.lt_or_eq with hlt | rfl
    · refine ⟨fun hm => ?_, (ne_of_mem_of_not_mem hd (h.wf.shared_not_dir d' hd' i hu hlt ht)).symm⟩
      obtain ⟨k, hk, htk, he⟩ := mem_ownTables.mp hm
      exact h.wf.shared_ne_table d' hd' i hu hlt ht d hd k hk htk he.symm
    · rw [(h.wf.self d' hd').2]
      refine ⟨fun hm => ?_, hne⟩
      obtain ⟨k, hk, htk, he⟩ := mem_ownTables.mp hm
      exact ne_of_mem_of_not_mem hd' (h.wf.table_not_dir d hd k hk htk) he.symm

/-- Exactly the directories whose tables have all had a mapping for the user are given back
whole. -/
theorem Inv.destroyedExactly_iff (hk : d ≠ s.vmm.kernelPd) :
    s.DestroyedExactly cpu d ↔
    ∀ i, IsUserEntry i → s.vmm.HasTable d i → s.userMapped d i = true := by
  constructor
  · intro hx i hi ht
    by_contra hu
    have hkept := h.table_kept hd hi ht (Bool.eq_false_of_not_eq_true hu)
    have hpages := congrArg pages (Option.some.inj (hx.frees.symm.trans (h.destroyPd hd hk)))
    dsimp only at hpages
    rw [← hpages, PageAlloc.taken_freeAll_iff] at hkept
    exact hkept.2 (mem_append_left _ (mem_ownTables.mpr ⟨i, hi, ht, rfl⟩))
  · intro hu
    have hown := h.userTables_eq hd hu
    have hdir : d ∉ s.ownTables d := fun hm => by
      obtain ⟨i, hi, ht, he⟩ := mem_ownTables.mp hm
      exact h.wf.table_not_dir d hd i hi ht (by rw [he]; exact hd)
    refine ⟨?_, ?_, fun p hp => ?_, fun d' hd' hne => ⟨fun hm => ?_, fun i hi ht hm => ?_⟩⟩
    · rw [h.destroyPd hd hk, Vmm.destroy, hown, foldl_append]
      rfl
    · rw [nodup_append]
      refine ⟨hown ▸ h.wf.userTables_nodup hd, nodup_singleton d, fun p hp q hq => ?_⟩
      rw [mem_singleton.mp hq]
      exact ne_of_mem_of_not_mem hp hdir
    · rcases mem_append.mp hp with hp | hp
      · obtain ⟨i, hi, ht, rfl⟩ := mem_ownTables.mp hp
        exact h.wf.table_taken d hd i hi ht
      · exact mem_singleton.mp hp ▸ h.wf.dir_taken d hd
    · rcases mem_append.mp hm with hm | hm
      · obtain ⟨i, hi, ht, he⟩ := mem_ownTables.mp hm
        exact h.wf.table_not_dir d hd i hi ht (by rw [he]; exact hd')
      · exact hne (mem_singleton.mp hm)
    · exact h.not_mem_freed hd hd' hne hi ht hm

end

/-- In every state that calls lead to: every call comes to its end; lookups report, from every CPU,
the last mapping that was made and not undone; a call leaves the other directories alone; and
`vmm_destroy_pd` gives back the page tables, each once, exactly when every one of them has had a
mapping with `VMM_PROT_USER`. -/
theorem page_tables_are_maps (h : Lib.Reach step Boot (fun _ _ => True) s) :
    (∀ a, ∃ s', s.step a = some s') ∧ (∀ cpu pd v, s.target cpu pd ∈ s.dirs → isUserPage v = true →
      s.vmm.vmmGetPaddr cpu pd v =
      some (s.vmm, expectedPaddr (s.view (s.target cpu pd) (vpn v)) v) ∧
      s.vmm.vmmQueryFlags cpu pd v =
      some (s.vmm, expectedFlags (s.view (s.target cpu pd) (vpn v)) v)) ∧
    (∀ a s' d, s.step a = some s' → d ∈ s.dirs → s.about a ≠ some d → d ∈ s'.dirs ∧
      ∀ cpu v, isUserPage v = true →
        (s'.vmm.vmmGetPaddr cpu d v).map Prod.snd = (s.vmm.vmmGetPaddr cpu d v).map Prod.snd ∧
        (s'.vmm.vmmQueryFlags cpu d v).map Prod.snd = (s.vmm.vmmQueryFlags cpu d v).map Prod.snd) ∧
    ∀ cpu, ∀ d ∈ s.dirs, d ≠ s.vmm.kernelPd → (s.DestroyedExactly cpu d ↔
      ∀ i, IsUserEntry i → s.vmm.HasTable d i → s.userMapped d i = true) := by
  obtain ⟨temps, h⟩ := inv_of_reach h
  refine ⟨fun a => ⟨_, h.step_eq a⟩, fun cpu pd v hd hv => h.reports hd hv,
    fun a s' d hs hd ha => ?_, fun cpu d hd hk => h.destroyedExactly_iff hd hk⟩
  obtain rfl : s.next a = s' := Option.some.inj ((h.step_eq a).symm.trans hs)
  obtain ⟨hd', hview⟩ := h.next_view hd ha
  refine ⟨hd', fun cpu v hv => ?_⟩
  have hself := h.target_self cpu hd
  have hself' := (h.next a).target_self cpu hd'
  obtain ⟨hp, hf⟩ := h.reports (hself.symm ▸ hd) hv
  obtain ⟨hp', hf'⟩ := (h.next a).reports (hself'.symm ▸ hd') hv
  rw [hself] at hp hf
  rw [hself', hview] at hp' hf'
  rw [hp, hf, hp', hf']
  exact ⟨rfl, rfl⟩

def bootPaging : PagingSys := ⟨bootVmm, [0x101000], fun _ _ => none, fun _ _ => false⟩

theorem bootPaging_boot : bootPaging.Boot where
  wf := ⟨bootTemps, bootVmm_wf⟩
  dirs_eq := rfl
  no_table i hi ht := by
    rw [HasTable, show bootPaging.vmm.mem bootPaging.vmm.kernelPd i = bootDirectory i by
      simp [bootPaging, bootVmm], bootDirectory_user hi] at ht
    exact absurd ht (by decide)
  view_none _ _ := rfl
  not_userMapped _ _ := rfl

def twoMappings : List PagingAction :=
  [.createPd bootCpu, .mapPage bootCpu 0x10B000 0x400000 0x200000#32 vmmProtUser,
    .mapPage bootCpu 0x10B000 0x800000 0x300000#32 vmmProtWrite]

theorem page_tables_are_maps_twoMappings : ∃ s, Lib.run step bootPaging twoMappings = some s ∧
    s.vmm.vmmQueryFlags bootCpu 0x10B000 0x400123 =
    some (s.vmm, 0, 0x200123, mmQueryPresent ||| mmQueryUser) ∧
    s.vmm.vmmQueryFlags bootCpu 0x10B000 0x800456 =
    some (s.vmm, 0, 0x300456, mmQueryPresent ||| mmQueryWrite) := by
  obtain ⟨temps, hinv⟩ := bootPaging_boot.inv
  have hrun := hinv.run_eq twoMappings
  have h := page_tables_are_maps
    (Lib.Reach.of_run _ (.init bootPaging_boot) (fun _ _ _ => trivial) hrun)
  have hd : (twoMappings.foldl next bootPaging).target bootCpu 0x10B000 ∈
      (twoMappings.foldl next bootPaging).dirs := by decide +kernel
  have huser := (h.2.1 bootCpu 0x10B000 0x400123 hd (by decide)).2
  have hkernel := (h.2.1 bootCpu 0x10B000 0x800456 hd (by decide)).2
  generalize hs : twoMappings.foldl next bootPaging = s at *
  rw [show s.view (s.target bootCpu 0x10B000) (vpn 0x400123) = some ⟨0x200000#32, vmmProtUser⟩ by
    rw [← hs]; decide +kernel] at huser
  rw [show s.view (s.target bootCpu 0x10B000) (vpn 0x800456) = some ⟨0x300000#32, vmmProtWrite⟩ by
    rw [← hs]; decide +kernel] at hkernel
  exact ⟨s, hrun, huser, hkernel⟩

/-- The directory is destroyed and its table for the kernel's page stays allocated. -/
theorem table_left_behind : ∃ s s', Lib.run step bootPaging twoMappings = some s ∧
    s.step (.destroyPd bootCpu 0x10B000) = some s' ∧ 0x10B000 ∈ s.dirs ∧ s.vmm.HasTable 0x10B000 2 ∧
    s.vmm.table 0x10B000 2 = 0x10D000 ∧ s'.dirs = [0x101000] ∧ s'.vmm.pages.Taken 0x10D000 := by
  obtain ⟨temps, hinv⟩ := bootPaging_boot.inv
  have hrun := hinv.run_eq twoMappings
  obtain ⟨temps, h⟩ :=
    inv_of_reach (Lib.Reach.of_run _ (.init bootPaging_boot) (fun _ _ _ => trivial) hrun)
  generalize hs : twoMappings.foldl next bootPaging = s at *
  have hd : 0x10B000 ∈ s.dirs := by rw [← hs]; decide +kernel
  have ht : s.vmm.HasTable 0x10B000 2 := by rw [← hs]; decide +kernel
  have hpage : s.vmm.table 0x10B000 2 = 0x10D000 := by rw [← hs]; decide +kernel
  have hu : s.userMapped 0x10B000 2 = false := by rw [← hs]; decide +kernel
  have hc : 0x10B000 ∈ s.dirs ∧ 0x10B000 ≠ s.vmm.kernelPd ∧ ∀ c, s.vmm.cr3 c ≠ 0x10B000 := by
    rw [← hs]
    decide +kernel
  refine ⟨s, _, hrun, h.step_eq _, hd, ht, hpage, ?_, ?_⟩
  · rw [← hs]
    decide +kernel
  · rw [next, if_pos hc, ← hpage]
    exact h.table_kept hd (by decide) ht hu

theorem Inv.userPte_eq (h : s.Inv temps) (hd : d ∈ s.dirs) (hv : IsUserEntry (pdIndex v))
    (ht : s.vmm.HasTable d (pdIndex v)) : s.vmm.userPte d v = entryOf (s.view d (vpn v)) := by
  rw [← h.entry d hd v hv, pte, if_pos ht]
  rfl

end PagingSys

end Xnix
