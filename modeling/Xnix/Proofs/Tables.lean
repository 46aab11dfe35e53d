import Xnix.Proofs.Directories

/-!
# Directories that keep apart

The page tables of several directories in one memory: the tables of the user half of a directory are
pages of its own. This is kept by mapping and unmapping, by making a directory and by destroying
one.
-/

namespace Xnix

open Function List Lib.Memory

namespace Vmm

variable {s : Vmm} {cpu : Cpu} {d d' i i' p : ℕ} {dirs : List ℕ} {temps : Cpu → ℕ}
  {flags x : BitVec 32} {k : ℕ → BitVec 32}

/-- The user entries of a directory; the first is shared with the kernel. -/
def IsUserEntry (i : ℕ) : Prop := 1 ≤ i ∧ i < 768

instance (i : ℕ) : Decidable (IsUserEntry i) := inferInstanceAs (Decidable (_ ∧ _))

def HasTable (s : Vmm) (d i : ℕ) : Prop := hasBit (s.mem d i) ptePresent = true

instance (s : Vmm) (d i : ℕ) : Decidable (s.HasTable d i) := inferInstanceAs (Decidable (_ = _))

def table (s : Vmm) (d i : ℕ) : ℕ := pageOf (s.mem d i)

/-- The directories `dirs` and their tables in memory, with the window tables `temps`. -/
structure Wf (s : Vmm) (dirs : List ℕ) (temps : Cpu → ℕ) : Prop where
  kernel_mem : s.kernelPd ∈ dirs
  cr3_mem : ∀ cpu, s.cr3 cpu ∈ dirs
  dir_taken : ∀ d ∈ dirs, s.pages.Taken d
  self : ∀ d ∈ dirs, s.HasTable d 1023 ∧ s.table d 1023 = d
  window : ∀ d ∈ dirs, ∀ cpu, s.HasTable d (windowPdIdx cpu) ∧
    s.table d (windowPdIdx cpu) = temps cpu
  temp_not_dir : ∀ cpu, temps cpu ∉ dirs
  temp_not_free : ∀ cpu, ¬ s.pages.Free (temps cpu)
  temp_idle : ∀ cpu (w : Window), s.mem (temps cpu) w.slot = 0#32
  table_taken : ∀ d ∈ dirs, ∀ i, IsUserEntry i → s.HasTable d i → s.pages.Taken (s.table d i)
  table_not_dir : ∀ d ∈ dirs, ∀ i, IsUserEntry i → s.HasTable d i → s.table d i ∉ dirs
  table_not_temp : ∀ d ∈ dirs, ∀ i, IsUserEntry i → s.HasTable d i → ∀ cpu, s.table d i ≠ temps cpu
  table_inj : ∀ d ∈ dirs, ∀ d' ∈ dirs, ∀ i i', IsUserEntry i → IsUserEntry i' → s.HasTable d i →
    s.HasTable d' i' → s.table d i = s.table d' i' → d = d' ∧ i = i'
  shared_not_user : ∀ d ∈ dirs, ∀ i, ¬ IsUserEntry i → i < 1023 → hasBit (s.mem d i) pteUser = false
  shared_not_free :
    ∀ d ∈ dirs, ∀ i, ¬ IsUserEntry i → i < 1023 → s.HasTable d i → ¬ s.pages.Free (s.table d i)
  shared_not_dir : ∀ d ∈ dirs, ∀ i, ¬ IsUserEntry i → i < 1023 → s.HasTable d i → s.table d i ∉ dirs
  shared_ne_table : ∀ d ∈ dirs, ∀ i, ¬ IsUserEntry i → i < 1023 → s.HasTable d i →
    ∀ d' ∈ dirs, ∀ i', IsUserEntry i' → s.HasTable d' i' → s.table d i ≠ s.table d' i'

theorem isPage_of_taken (h : s.pages.Taken p) : IsPage p := ⟨h.1.aligned, h.1.isPage_lt⟩

section Ways

variable (h : s.Wf dirs temps)
include h

theorem Wf.ready (cpu : Cpu) : s.Ready cpu (temps cpu) where
  self_present := (h.self _ (h.cr3_mem cpu)).1
  self_page := (h.self _ (h.cr3_mem cpu)).2
  window_present := (h.window _ (h.cr3_mem cpu) cpu).1
  window_page := (h.window _ (h.cr3_mem cpu) cpu).2
  ne_cr3 he := h.temp_not_dir cpu (he ▸ h.cr3_mem cpu)
  free := h.temp_idle cpu

theorem Wf.dir_ne_temp (hd : d ∈ dirs) (cpu : Cpu) : d ≠ temps cpu :=
  fun he => h.temp_not_dir cpu (he ▸ hd)

theorem Wf.reaches (hd : d ∈ dirs) (hi : IsUserEntry i) (cpu : Cpu) :
    s.Reaches cpu (temps cpu) d i where
  ready := h.ready cpu
  page := isPage_of_taken (h.dir_taken d hd)
  ne_window := h.dir_ne_temp hd cpu
  user := hi.2
  table_ne_window hp := h.table_not_temp d hd i hi hp cpu
  table_ne_cr3 hp he :=
    h.table_not_dir d hd i hi hp ((show s.table d i = _ from he) ▸ h.cr3_mem cpu)

theorem Wf.free_ne (hp : s.pages.Free p) : p ∉ dirs ∧ (∀ cpu, p ≠ temps cpu) ∧
      (∀ d ∈ dirs, ∀ i, IsUserEntry i → s.HasTable d i → s.table d i ≠ p) ∧
      ∀ d ∈ dirs, ∀ i, ¬ IsUserEntry i → i < 1023 → s.HasTable d i → s.table d i ≠ p :=
  ⟨fun hd => (h.dir_taken p hd).not_free hp, fun cpu he => h.temp_not_free cpu (he ▸ hp),
    fun d hd i hi ht he => (h.table_taken d hd i hi ht).not_free (he ▸ hp),
    fun d hd i hi hlt ht he => h.shared_not_free d hd i hi hlt ht (he ▸ hp)⟩

theorem Wf.freshFor (h0 : s.pages.allocPage.2 ≠ 0) (cpu : Cpu) : s.FreshFor cpu (temps cpu) := by
  have hf := PageAlloc.allocPage_outcome.free h0
  obtain ⟨hd, ht, -⟩ := h.free_ne hf
  exact ⟨⟨hf.1.aligned, hf.1.isPage_lt⟩, ht cpu, fun he => hd (he ▸ h.cr3_mem cpu)⟩

theorem Wf.makes (h0 : s.pages.allocPage.2 ≠ 0) (cpu : Cpu) :
    s.Makes cpu (temps cpu) s.pages.allocPage.2 := by
  have hf := PageAlloc.allocPage_outcome.free h0
  obtain ⟨hd, ht, -⟩ := h.free_ne hf
  exact ⟨h.ready cpu, ⟨hf.1.aligned, hf.1.isPage_lt⟩, ht cpu, fun he => hd (he ▸ h.cr3_mem cpu),
    fun he => hd (he ▸ h.kernel_mem), isPage_of_taken (h.dir_taken _ h.kernel_mem),
    h.dir_ne_temp h.kernel_mem cpu⟩

end Ways

section
variable (h : s.Wf dirs temps)
include h

/-- The directories stay well formed when their entries keep their targets, used pages stay used and
the windows free.
-/
theorem Wf.of_entries {s' : Vmm} (hk : s'.kernelPd = s.kernelPd) (hcr3 : ∀ cpu, s'.cr3 cpu ∈ dirs)
    (htaken : ∀ p, s.pages.Taken p → s'.pages.Taken p)
    (hfree : ∀ p, ¬ s.pages.Free p → ¬ s'.pages.Free p)
    (hidle : ∀ cpu (w : Window), s'.mem (temps cpu) w.slot = 0#32)
    (hent : ∀ d ∈ dirs, ∀ i, i ≤ 1023 → (s'.HasTable d i ↔ s.HasTable d i) ∧
    s'.table d i = s.table d i)
    (huser : ∀ d ∈ dirs, ∀ i, ¬ IsUserEntry i → i < 1023 → s'.mem d i = s.mem d i) :
    s'.Wf dirs temps := by
  have hwin : ∀ cpu, windowPdIdx cpu ≤ 1023 := fun cpu => (windowPdIdx_lt cpu).le
  have hle : ∀ i, IsUserEntry i → i ≤ 1023 := fun i hi => by have := hi.2; omega
  refine ⟨hk ▸ h.kernel_mem, hcr3, fun d hd => htaken d (h.dir_taken d hd), fun d hd => ?_,
    fun d hd cpu => ?_,
    h.temp_not_dir, fun cpu => hfree _ (h.temp_not_free cpu), hidle, fun d hd i hi ht => ?_,
    fun d hd i hi ht => ?_, fun d hd i hi ht => ?_, fun d hd d' hd' i i' hi hi' ht ht' he => ?_,
    fun d hd i hi hlt => ?_, fun d hd i hi hlt ht => ?_, fun d hd i hi hlt ht => ?_,
    fun d hd i hi hlt ht d' hd' i' hi' ht' => ?_⟩
  · obtain ⟨hp, he⟩ := hent d hd 1023 le_rfl
    exact ⟨hp.mpr (h.self d hd).1, he.trans (h.self d hd).2⟩
  · obtain ⟨hp, he⟩ := hent d hd _ (hwin cpu)
    exact ⟨hp.mpr (h.window d hd cpu).1, he.trans (h.window d hd cpu).2⟩
  · obtain ⟨hp, he⟩ := hent d hd i (hle i hi)
    exact he ▸ htaken _ (h.table_taken d hd i hi (hp.mp ht))
  · obtain ⟨hp, he⟩ := hent d hd i (hle i hi)
    exact he ▸ h.table_not_dir d hd i hi (hp.mp ht)
  · obtain ⟨hp, he⟩ := hent d hd i (hle i hi)
    exact he ▸ h.table_not_temp d hd i hi (hp.mp ht)
  · obtain ⟨hp, h₁⟩ := hent d hd i (hle i hi)
    obtain ⟨hp', h2⟩ := hent d' hd' i' (hle i' hi')
    exact h.table_inj d hd d' hd' i i' hi hi' (hp.mp ht) (hp'.mp ht') (h₁ ▸ h2 ▸ he)
  · rw [huser d hd i hi hlt]
    exact h.shared_not_user d hd i hi hlt
  · obtain ⟨hp, he⟩ := hent d hd i hlt.le
    exact he ▸ hfree _ (h.shared_not_free d hd i hi hlt (hp.mp ht))
  · obtain ⟨hp, he⟩ := hent d hd i hlt.le
    exact he ▸ h.shared_not_dir d hd i hi hlt (hp.mp ht)
  · obtain ⟨hp, h₁⟩ := hent d hd i hlt.le
    obtain ⟨hp', h2⟩ := hent d' hd' i' (hle i' hi')
    exact h₁ ▸ h2 ▸ h.shared_ne_table d hd i hi hlt (hp.mp ht) d' hd' i' hi' (hp'.mp ht')

theorem Wf.setPage {g : ℕ → BitVec 32} (hp : p ∉ dirs) (ht : ∀ cpu, p ≠ temps cpu) :
    (s.withPage p g).Wf dirs temps := by
  have hd : ∀ d ∈ dirs, (s.withPage p g).mem d = s.mem d :=
    fun d hd => setPage_of_ne fun he => hp (he ▸ hd)
  refine h.of_entries rfl h.cr3_mem (fun _ h => h) (fun _ h => h) (fun cpu w => ?_)
    (fun d hd' i _ => ?_) fun d hd' i _ _ => by rw [hd d hd']
  · rw [show (s.withPage p g).mem (temps cpu) = s.mem (temps cpu) from
      setPage_of_ne (ht cpu).symm]
    exact h.temp_idle cpu w
  · rw [HasTable, HasTable, table, table, hd d hd']
    exact ⟨Iff.rfl, rfl⟩

theorem Wf.setEntry_table (hp : p ∉ dirs) (ht : ∀ cpu, p ≠ temps cpu) :
    (s.setEntry p i x).Wf dirs temps := by
  have := h.setPage (g := update (s.mem p) i x) hp ht
  exact this

theorem Wf.widen (flags : BitVec 32) (hd : d ∈ dirs) (hi : IsUserEntry i) (hp : s.HasTable d i) :
    (s.widen d i flags).Wf dirs temps := by
  refine h.of_entries rfl h.cr3_mem (fun _ h => h) (fun _ h => h) (fun cpu w => ?_)
    (fun d' hd' k _ => ?_) fun d' hd' k hk _ => ?_
  · rw [Vmm.widen, setEntry_mem_of_ne (h.dir_ne_temp hd cpu).symm]
    exact h.temp_idle cpu w
  · by_cases hdk : d' = d ∧ k = i
    · obtain ⟨rfl, rfl⟩ := hdk
      exact ⟨iff_of_true (present_widen hp) hp, pageOf_widen⟩
    · have : (s.widen d i flags).mem d' k = s.mem d' k := by
        rw [Vmm.widen, setEntry_mem_apply, if_neg hdk]
      rw [HasTable, HasTable, table, table, this]
      exact ⟨Iff.rfl, rfl⟩
  · have hki : ¬ (d' = d ∧ k = i) := fun he => hk (he.2 ▸ hi)
    rw [Vmm.widen, setEntry_mem_apply, if_neg hki]

end

theorem addTable_mem_apply (hd : s.pages.allocPage.2 ∉ dirs) (hd' : d' ∈ dirs) (k : ℕ) :
    (s.addTable d i flags).mem d' k = if d' = d ∧ k = i then
      BitVec.ofNat 32 s.pages.allocPage.2 ||| pdeFlags flags else s.mem d' k := by
  have hne : d' ≠ s.pages.allocPage.2 := fun he => hd (he ▸ hd')
  rw [addTable, setEntry_mem_apply]
  simp only
  rw [setPage_of_ne hne]

theorem Wf.addTable (h : s.Wf dirs temps) (flags : BitVec 32) (hd : d ∈ dirs) (hi : IsUserEntry i)
    (hn : ¬ s.HasTable d i) (h0 : s.pages.allocPage.2 ≠ 0) :
    (s.addTable d i flags).Wf dirs temps := by
  have hout := s.pages.allocPage_outcome
  have hfree := hout.free h0
  have hpage : IsPage s.pages.allocPage.2 := ⟨hfree.1.aligned, hfree.1.isPage_lt⟩
  obtain ⟨hndir, hntemp, hntable, hnshared⟩ := h.free_ne hfree
  have htaken : ∀ p, s.pages.Taken p → (s.addTable d i flags).pages.Taken p := fun p hp =>
    hout.taken_iff.mpr (.inl hp)
  have hnew : (s.addTable d i flags).pages.Taken s.pages.allocPage.2 :=
    hout.taken_iff.mpr (.inr ⟨h0, rfl⟩)
  have hown : (s.addTable d i flags).table d i = s.pages.allocPage.2 := pageOf_addTable hpage
  have hent : ∀ d' ∈ dirs, ∀ k, ¬ (d' = d ∧ k = i) →
      (s.addTable d i flags).mem d' k = s.mem d' k := fun d' hd' k hk => by
    rw [addTable_mem_apply hndir hd', if_neg hk]
  have hcase : ∀ d' ∈ dirs, ∀ k, (s.addTable d i flags).HasTable d' k → d' = d ∧ k = i ∨
      ¬ (d' = d ∧ k = i) ∧ s.HasTable d' k ∧ (s.addTable d i flags).table d' k = s.table d' k := by
    intro d' hd' k hk
    by_cases hdk : d' = d ∧ k = i
    · exact .inl hdk
    · rw [HasTable, hent d' hd' k hdk] at hk
      exact .inr ⟨hdk, hk, by rw [table, table, hent d' hd' k hdk]⟩
  have hshared : ∀ k, ¬ IsUserEntry k → ∀ d', ¬ (d' = d ∧ k = i) := fun k hk d' he => hk (he.2 ▸ hi)
  refine ⟨h.kernel_mem, h.cr3_mem, fun d hd => htaken d (h.dir_taken d hd), fun d' hd' => ?_,
    fun d' hd' cpu => ?_, h.temp_not_dir, fun cpu =>
    hout.not_free (h.temp_not_free cpu), fun cpu w => ?_,
    fun d' hd' k hk ht => ?_, fun d' hd' k hk ht => ?_, fun d' hd' k hk ht cpu => ?_,
    fun d1 hd1 d2 hd2 k1 k2 hk1 hk2 ht1 ht2 he => ?_, fun d' hd' k hk hlt => ?_,
    fun d' hd' k hk hlt ht => ?_, fun d' hd' k hk hlt ht => ?_,
    fun d1 hd1 k1 hk1 hlt ht1 d2 hd2 k2 hk2 ht2 => ?_⟩
  · rw [HasTable, table, hent d' hd' 1023 (hshared _ (fun h => by have := h.2; omega) d')]
    exact h.self d' hd'
  · have hw : ¬ IsUserEntry (windowPdIdx cpu) := fun h => by
      have := h.2
      have := windowPdIdx_ge cpu
      omega
    rw [HasTable, table, hent d' hd' _ (hshared _ hw d')]
    exact h.window d' hd' cpu
  · rw [Vmm.addTable, setEntry_mem_of_ne (h.dir_ne_temp hd cpu).symm]
    simp only
    rw [setPage_of_ne (hntemp cpu).symm]
    exact h.temp_idle cpu w
  · rcases hcase d' hd' k ht with ⟨rfl, rfl⟩ | ⟨-, ht, he⟩
    · exact hown ▸ hnew
    · exact he ▸ htaken _ (h.table_taken d' hd' k hk ht)
  · rcases hcase d' hd' k ht with ⟨rfl, rfl⟩ | ⟨-, ht, he⟩
    · exact hown ▸ hndir
    · exact he ▸ h.table_not_dir d' hd' k hk ht
  · rcases hcase d' hd' k ht with ⟨rfl, rfl⟩ | ⟨-, ht, he⟩
    · exact hown ▸ hntemp cpu
    · exact he ▸ h.table_not_temp d' hd' k hk ht cpu
  · rcases hcase d1 hd1 k1 ht1 with ⟨rfl, rfl⟩ | ⟨-, hs1, he1⟩ <;>
      rcases hcase d2 hd2 k2 ht2 with ⟨rfl, rfl⟩ | ⟨-, hs2, he2⟩
    · exact ⟨rfl, rfl⟩
    · exact absurd (he2 ▸ hown ▸ he).symm (hntable d2 hd2 k2 hk2 hs2)
    · exact absurd (he1 ▸ hown ▸ he) (hntable d1 hd1 k1 hk1 hs1)
    · exact h.table_inj d1 hd1 d2 hd2 k1 k2 hk1 hk2 hs1 hs2 (he1 ▸ he2 ▸ he)
  · rw [hent d' hd' k (hshared k hk d')]
    exact h.shared_not_user d' hd' k hk hlt
  · rcases hcase d' hd' k ht with he | ⟨-, ht, he⟩
    · exact absurd he (hshared k hk d')
    · exact he ▸ hout.not_free (h.shared_not_free d' hd' k hk hlt ht)
  · rcases hcase d' hd' k ht with he | ⟨-, ht, he⟩
    · exact absurd he (hshared k hk d')
    · exact he ▸ h.shared_not_dir d' hd' k hk hlt ht
  · rcases hcase d1 hd1 k1 ht1 with he | ⟨-, hs1, he1⟩
    · exact absurd he (hshared k1 hk1 d1)
    · rcases hcase d2 hd2 k2 ht2 with ⟨rfl, rfl⟩ | ⟨-, hs2, he2⟩
      · rw [he1, hown]
        exact hnshared d1 hd1 k1 hk1 hlt hs1
      · rw [he1, he2]
        exact h.shared_ne_table d1 hd1 k1 hk1 hlt hs1 d2 hd2 k2 hk2 hs2

theorem mem_kernelEntries : i ∈ kernelEntries ↔ ¬ IsUserEntry i ∧ i < 1023 := by
  unfold kernelEntries IsUserEntry
  simp only [cons_append, mem_cons, mem_append, mem_map, mem_range, mem_finRange, true_and]
  constructor
  · rintro (rfl | ⟨k, hk, rfl⟩ | ⟨cpu, rfl⟩)
    · omega
    · omega
    · have := windowPdIdx_ge cpu
      have := windowPdIdx_lt cpu
      omega
  · intro h
    by_cases h0 : i = 0
    · exact .inl h0
    · exact .inr (.inl ⟨i - 768, by omega, by omega⟩)

theorem newDirectory_user (hi : IsUserEntry i) : newDirectory k p i = 0#32 := by
  have h1 : i ≠ 1023 := by have := hi.2; omega
  rw [newDirectory, update_of_ne h1, copied_apply, if_neg]
  rintro ⟨hm, -⟩
  exact (mem_kernelEntries.mp hm).1 hi

theorem newDirectory_shared (hi : ¬ IsUserEntry i) (hlt : i < 1023) :
    newDirectory k p i = if hasBit (k i) ptePresent then k i else 0#32 := by
  rw [newDirectory, update_of_ne (by omega), copied_apply]
  simp [mem_kernelEntries.mpr ⟨hi, hlt⟩]

def create (s : Vmm) : Vmm :=
  withPage { s with pages := s.pages.allocPage.1 } s.pages.allocPage.2
    (newDirectory (s.mem s.kernelPd) s.pages.allocPage.2)

theorem create_mem_self (s : Vmm) : s.create.mem s.pages.allocPage.2 =
    newDirectory (s.mem s.kernelPd) s.pages.allocPage.2 := setPage_self ..

theorem create_mem_of_ne (h : p ≠ s.pages.allocPage.2) : s.create.mem p = s.mem p := setPage_of_ne h

theorem Wf.create (h : s.Wf dirs temps) (h0 : s.pages.allocPage.2 ≠ 0) :
    s.create.Wf (s.pages.allocPage.2 :: dirs) temps := by
  have hout := s.pages.allocPage_outcome
  have hfree := hout.free h0
  have hpage : IsPage s.pages.allocPage.2 := ⟨hfree.1.aligned, hfree.1.isPage_lt⟩
  obtain ⟨hndir, hntemp, hntable, hnshared⟩ := h.free_ne hfree
  have htaken : ∀ p, s.pages.Taken p → s.create.pages.Taken p :=
    fun p hp => hout.taken_iff.mpr (.inl hp)
  have hnew : s.create.pages.Taken s.pages.allocPage.2 := hout.taken_iff.mpr (.inr ⟨h0, rfl⟩)
  have hold : ∀ d ∈ dirs, s.create.mem d = s.mem d :=
    fun d hd => create_mem_of_ne fun he => hndir (he ▸ hd)
  have htemp : ∀ cpu, s.create.mem (temps cpu) = s.mem (temps cpu) :=
    fun cpu => create_mem_of_ne (hntemp cpu).symm
  have hself := s.create_mem_self
  generalize s.pages.allocPage.2 = pd at *
  have huser : ∀ d ∈ pd :: dirs, ∀ i, IsUserEntry i → s.create.HasTable d i →
      d ∈ dirs ∧ s.HasTable d i ∧ s.create.table d i = s.table d i := by
    rintro d (_ | ⟨_, hd⟩) i hi ht
    · rw [HasTable, hself, newDirectory_user hi] at ht
      exact absurd ht (by decide)
    · rw [HasTable, hold d hd] at ht
      exact ⟨hd, ht, by rw [table, table, hold d hd]⟩
  have hshared : ∀ d ∈ pd :: dirs, ∀ i, ¬ IsUserEntry i → i < 1023 →
      s.create.mem d i = 0#32 ∨ ∃ d0 ∈ dirs, s.create.mem d i = s.mem d0 i := by
    rintro d (_ | ⟨_, hd⟩) i hi hlt
    · rw [hself, newDirectory_shared hi hlt]
      split
      · exact .inr ⟨_, h.kernel_mem, rfl⟩
      · exact .inl rfl
    · exact .inr ⟨d, hd, by rw [hold d hd]⟩
  have horigin : ∀ d ∈ pd :: dirs, ∀ i, ¬ IsUserEntry i → i < 1023 → s.create.HasTable d i →
      ∃ d0 ∈ dirs, s.HasTable d0 i ∧ s.create.table d i = s.table d0 i := by
    intro d hd i hi hlt ht
    rcases hshared d hd i hi hlt with he | ⟨d0, hd0, he⟩
    · rw [HasTable, he] at ht
      exact absurd ht (by decide)
    · rw [HasTable, he] at ht
      exact ⟨d0, hd0, ht, by rw [table, table, he]⟩
  refine ⟨mem_cons_of_mem _ h.kernel_mem, fun cpu => mem_cons_of_mem _ (h.cr3_mem cpu), ?_, ?_, ?_,
    fun cpu => ?_, fun cpu => hout.not_free (h.temp_not_free cpu), fun cpu w =>
    ?_, fun d hd i hi ht => ?_,
    fun d hd i hi ht => ?_, fun d hd i hi ht cpu => ?_, fun d hd d' hd' i i' hi hi' ht ht' he => ?_,
    fun d hd i hi hlt => ?_, fun d hd i hi hlt ht => ?_, fun d hd i hi hlt ht => ?_,
    fun d hd i hi hlt ht d' hd' i' hi' ht' => ?_⟩
  · rintro d (_ | ⟨_, hd⟩)
    · exact hnew
    · exact htaken d (h.dir_taken d hd)
  · rintro d (_ | ⟨_, hd⟩)
    · have he : s.create.mem pd 1023 = BitVec.ofNat 32 pd ||| ptePresent ||| pteRw := by
        rw [hself]
        exact update_self ..
      rw [HasTable, table, he]
      refine ⟨?_, by rw [pageOf_or (by decide), pageOf_or (by decide), pageOf_ofNat hpage]⟩
      rw [hasBit_or, hasBit_or, show hasBit ptePresent ptePresent = true by decide]
      simp
    · rw [HasTable, table, hold d hd]
      exact h.self d hd
  · rintro d (_ | ⟨_, hd⟩) cpu
    · have hp : hasBit (s.mem s.kernelPd (windowPdIdx cpu)) ptePresent = true :=
        (h.window _ h.kernel_mem cpu).1
      have hw : ¬ IsUserEntry (windowPdIdx cpu) := fun h => by
        have := h.2
        have := windowPdIdx_ge cpu
        omega
      rw [HasTable, table, hself, newDirectory_shared hw (windowPdIdx_lt cpu), if_pos hp]
      exact h.window _ h.kernel_mem cpu
    · rw [HasTable, table, hold d hd]
      exact h.window d hd cpu
  · rw [mem_cons, not_or]
    exact ⟨(hntemp cpu).symm, h.temp_not_dir cpu⟩
  · rw [htemp cpu]
    exact h.temp_idle cpu w
  · obtain ⟨hd, ht, he⟩ := huser d hd i hi ht
    exact he ▸ htaken _ (h.table_taken d hd i hi ht)
  · obtain ⟨hd, ht, he⟩ := huser d hd i hi ht
    rw [he, mem_cons, not_or]
    exact ⟨hntable d hd i hi ht, h.table_not_dir d hd i hi ht⟩
  · obtain ⟨hd, ht, he⟩ := huser d hd i hi ht
    exact he ▸ h.table_not_temp d hd i hi ht cpu
  · obtain ⟨hd, ht, h₁⟩ := huser d hd i hi ht
    obtain ⟨hd', ht', h2⟩ := huser d' hd' i' hi' ht'
    exact h.table_inj d hd d' hd' i i' hi hi' ht ht' (h₁ ▸ h2 ▸ he)
  · rcases hshared d hd i hi hlt with he | ⟨d0, hd0, he⟩
    · rw [he]
      decide
    · rw [he]
      exact h.shared_not_user d0 hd0 i hi hlt
  · obtain ⟨d0, hd0, ht, he⟩ := horigin d hd i hi hlt ht
    exact he ▸ hout.not_free (h.shared_not_free d0 hd0 i hi hlt ht)
  · obtain ⟨d0, hd0, ht, he⟩ := horigin d hd i hi hlt ht
    rw [he, mem_cons, not_or]
    exact ⟨hnshared d0 hd0 i hi hlt ht, h.shared_not_dir d0 hd0 i hi hlt ht⟩
  · obtain ⟨d0, hd0, ht, h₁⟩ := horigin d hd i hi hlt ht
    obtain ⟨hd', ht', h2⟩ := huser d' hd' i' hi' ht'
    exact h₁ ▸ h2 ▸ h.shared_ne_table d0 hd0 i hi hlt ht d' hd' i' hi' ht'

theorem Wf.of_mem_userTables (h : s.Wf dirs temps) (hd : d ∈ dirs) (hp : p ∈ s.userTables d) :
    ∃ i, IsUserEntry i ∧ s.HasTable d i ∧ hasBit (s.mem d i) pteUser = true ∧ s.table d i = p := by
  unfold userTables userTablesIn isUserTable at hp
  simp only [mem_map, mem_filter, mem_range, Bool.and_eq_true] at hp
  obtain ⟨i, ⟨hlt, hp, hu⟩, rfl⟩ := hp
  refine ⟨i, ?_, hp, hu, rfl⟩
  by_contra hi
  rw [h.shared_not_user d hd i hi (by omega)] at hu
  cases hu

/-- The tables that `vmm_destroy_pd` frees are tables of the directory, each of them once. -/
theorem Wf.userTables_nodup (h : s.Wf dirs temps) (hd : d ∈ dirs) : (s.userTables d).Nodup := by
  refine Nodup.map_on ?_ (nodup_range.filter _)
  intro i hi i' hi' he
  have huser : ∀ k ∈ (range 1022).filter fun i => isUserTable (s.mem d i), IsUserEntry k ∧
    s.HasTable d k := by
    intro k hk
    obtain ⟨hlt, hu⟩ := mem_filter.mp hk
    rw [isUserTable, Bool.and_eq_true] at hu
    refine ⟨?_, hu.1⟩
    by_contra hn
    rw [h.shared_not_user d hd k hn (by have := mem_range.mp hlt; omega)] at hu
    cases hu.2
  exact (h.table_inj d hd d hd i i' (huser i hi).1 (huser i' hi').1 (huser i hi).2
    (huser i' hi').2 he).2

def destroy (s : Vmm) (d : ℕ) : Vmm :=
  { s with pages := ((s.userTables d).foldl PageAlloc.freePage s.pages).freePage d }

theorem taken_destroy :
    (s.destroy d).pages.Taken p ↔ s.pages.Taken p ∧ p ∉ s.userTables d ∧ p ≠ d := by
  rw [destroy]
  rw [PageAlloc.taken_freePage_iff, PageAlloc.taken_freeAll_iff, and_assoc]

theorem destroy_not_free (hf : ¬ s.pages.Free p) (hu : p ∉ s.userTables d) (hp : p ≠ d) :
    ¬ (s.destroy d).pages.Free p := by
  have := PageAlloc.not_free_freeAll hf (show p ∉ s.userTables d ++ [d] by simpa using ⟨hu, hp⟩)
  rwa [foldl_append] at this

theorem Wf.destroy (h : s.Wf dirs temps) (hd : d ∈ dirs) (hk : d ≠ s.kernelPd)
    (hc : ∀ cpu, s.cr3 cpu ≠ d) : (s.destroy d).Wf (dirs.filter (· ≠ d)) temps := by
  have hmem : ∀ {d'}, d' ∈ dirs.filter (· ≠ d) → d' ∈ dirs ∧ d' ≠ d := fun h => by
    simpa using mem_filter.mp h
  have hin : ∀ {d'}, d' ∈ dirs → d' ≠ d → d' ∈ dirs.filter (· ≠ d) := fun h hn =>
    mem_filter.mpr ⟨h, by simpa using hn⟩
  have hnot : ∀ {p}, p ∉ dirs → p ∉ dirs.filter (· ≠ d) := fun hn hp => hn (hmem hp).1
  have hdir : ∀ d' ∈ dirs, d' ∉ s.userTables d := fun d' hd' hu => by
    obtain ⟨i, hi, hp, -, rfl⟩ := h.of_mem_userTables hd hu
    exact h.table_not_dir d hd i hi hp hd'
  have htable : ∀ d' ∈ dirs, d' ≠ d → ∀ i, IsUserEntry i → s.HasTable d' i →
    s.table d' i ∉ s.userTables d := fun d' hd' hne i hi hp hu => by
      obtain ⟨i', hi', hp', -, he⟩ := h.of_mem_userTables hd hu
      exact hne (h.table_inj d' hd' d hd i i' hi hi' hp hp' he.symm).1
  have hshared : ∀ d' ∈ dirs, ∀ i, ¬ IsUserEntry i → i < 1023 → s.HasTable d' i →
      s.table d' i ∉ s.userTables d := fun d' hd' i hi hlt hp hu => by
    obtain ⟨i', hi', hp', -, he⟩ := h.of_mem_userTables hd hu
    exact h.shared_ne_table d' hd' i hi hlt hp d hd i' hi' hp' he.symm
  have htemp : ∀ cpu, temps cpu ∉ s.userTables d := fun cpu hu => by
    obtain ⟨i, hi, hp, -, he⟩ := h.of_mem_userTables hd hu
    exact h.table_not_temp d hd i hi hp cpu he
  refine ⟨hin h.kernel_mem hk.symm, fun cpu => hin (h.cr3_mem cpu) (hc cpu), fun d' hd' => ?_,
    fun d' hd' => h.self d' (hmem hd').1, fun d' hd' => h.window d' (hmem hd').1,
    fun cpu => hnot (h.temp_not_dir cpu), fun cpu => ?_, h.temp_idle, fun d' hd' i hi hp => ?_,
    fun d' hd' i hi hp => hnot (h.table_not_dir d' (hmem hd').1 i hi hp),
    fun d' hd' => h.table_not_temp d' (hmem hd').1,
    fun d1 hd1 d2 hd2 => h.table_inj d1 (hmem hd1).1 d2 (hmem hd2).1,
    fun d' hd' => h.shared_not_user d' (hmem hd').1, fun d' hd' i hi hlt hp => ?_,
    fun d' hd' i hi hlt hp => hnot (h.shared_not_dir d' (hmem hd').1 i hi hlt hp),
    fun d1 hd1 i hi hlt hp d2 hd2 => h.shared_ne_table d1 (hmem hd1).1 i hi hlt hp d2 (hmem hd2).1⟩
  · obtain ⟨hd', hne⟩ := hmem hd'
    exact taken_destroy.mpr ⟨h.dir_taken d' hd', hdir d' hd', hne⟩
  · exact destroy_not_free (h.temp_not_free cpu) (htemp cpu) fun he => h.temp_not_dir cpu (he ▸ hd)
  · obtain ⟨hd', hne⟩ := hmem hd'
    exact taken_destroy.mpr ⟨h.table_taken d' hd' i hi hp, htable d' hd' hne i hi hp,
      fun he => h.table_not_dir d' hd' i hi hp (show s.table d' i ∈ dirs from he ▸ hd)⟩
  · obtain ⟨hd', hne⟩ := hmem hd'
    exact destroy_not_free (h.shared_not_free d' hd' i hi hlt hp) (hshared d' hd' i hi hlt hp)
      fun he => h.shared_not_dir d' hd' i hi hlt hp (show s.table d' i ∈ dirs from he ▸ hd)

theorem bootBase_aligned : 0x101000 % pageSize = 0 := by decide

def bootPages : PageAlloc :=
  ⟨⟨0x101000, 0x141000, 64, 32, bootBase_aligned, by decide, by decide, by decide, by decide⟩,
    fun i => if i = 0 then 0x3FF#32 else 0#32, 54⟩

def bootCpu : Cpu := ⟨0, by decide⟩

def bootTemps (cpu : Cpu) : ℕ := 0x103000 + cpu * 0x1000

/-- The kernel's directory as `vmm_init` writes it: the low 4 MB, the direct map, the window tables
and the directory itself. -/
def bootDirectory (i : ℕ) : BitVec 32 :=
  if i = 0 then 0xFF003#32
  else if i = 768 then 0x102003#32
  else if 1011 ≤ i ∧ i ≤ 1018 then BitVec.ofNat 32 (0x103003 + (1018 - i) * 0x1000)
  else if i = 1023 then 0x101003#32
  else 0#32

/-- Memory after `vmm_init`: the direct map has all of memory, the low 4 MB are mapped once more. -/
def bootVmm : Vmm where
  pages := bootPages
  mem p i :=
    if p = 0x101000 then bootDirectory i
    else if p = 0x102000 then if i < 0x141 then BitVec.ofNat 32 (i * 4096 + 3) else 0#32
    else if p = 0xFF000 then if i < 1024 then BitVec.ofNat 32 (i * 4096 + 3) else 0#32
    else 0#32
  cr3 _ := 0x101000
  kernelPd := 0x101000

theorem bootDirectory_user (hi : IsUserEntry i) : bootDirectory i = 0#32 := by
  have := hi.1
  have := hi.2
  unfold bootDirectory
  rw [if_neg (by omega), if_neg (by omega), if_neg (by omega), if_neg (by omega)]

theorem bootDirectory_window (cpu : Cpu) :
    hasBit (bootDirectory (windowPdIdx cpu)) ptePresent = true ∧
    pageOf (bootDirectory (windowPdIdx cpu)) = bootTemps cpu := by
  revert cpu
  decide

theorem bootDirectory_cases (hlt : i < 1023) :
    i = 0 ∨ i = 768 ∨ (∃ cpu, i = windowPdIdx cpu) ∨ bootDirectory i = 0#32 := by
  unfold bootDirectory
  split
  · exact .inl ‹_›
  · split
    · exact .inr (.inl ‹_›)
    · split
      · refine .inr (.inr (.inl ⟨⟨1018 - i, by unfold cfgMaxCpus; omega⟩, ?_⟩))
        unfold windowPdIdx
        simp only
        omega
      · rw [if_neg (by omega)]
        exact .inr (.inr (.inr rfl))

theorem bootDirectory_shared (hlt : i < 1023) : hasBit (bootDirectory i) pteUser = false ∧
    (hasBit (bootDirectory i) ptePresent = true →
      ¬ bootPages.Free (pageOf (bootDirectory i)) ∧ pageOf (bootDirectory i) ≠ 0x101000) := by
  rcases bootDirectory_cases hlt with rfl | rfl | ⟨cpu, rfl⟩ | h
  · decide
  · decide
  · revert cpu
    decide
  · rw [h]
    decide

theorem bootVmm_wf : bootVmm.Wf [0x101000] bootTemps := by
  have hmem : bootVmm.mem 0x101000 = bootDirectory := by
    funext i
    simp [bootVmm]
  have huser : ∀ d ∈ [0x101000], ∀ i, IsUserEntry i → ¬ bootVmm.HasTable d i := by
    rintro d hd i hi
    rw [mem_singleton.mp hd, HasTable, hmem, bootDirectory_user hi]
    decide
  constructor
  case kernel_mem => exact mem_singleton_self _
  case cr3_mem => exact fun _ => mem_singleton_self _
  case dir_taken => decide
  case self =>
    intro d hd
    rw [mem_singleton.mp hd, HasTable, table, hmem]
    decide
  case window =>
    intro d hd
    rw [mem_singleton.mp hd]
    exact bootDirectory_window
  case temp_not_dir => decide
  case temp_not_free => decide
  case temp_idle => exact fun cpu w => by revert cpu; cases w <;> decide
  case table_taken => exact fun d hd i hi ht => absurd ht (huser d hd i hi)
  case table_not_dir => exact fun d hd i hi ht => absurd ht (huser d hd i hi)
  case table_not_temp => exact fun d hd i hi ht => absurd ht (huser d hd i hi)
  case table_inj => exact fun d hd _ _ i _ hi _ ht => absurd ht (huser d hd i hi)
  case shared_not_user =>
    intro d hd i _ hlt
    rw [mem_singleton.mp hd, hmem]
    exact (bootDirectory_shared hlt).1
  case shared_not_free =>
    intro d hd i _ hlt
    rw [mem_singleton.mp hd, HasTable, table, hmem]
    exact fun hp => ((bootDirectory_shared hlt).2 hp).1
  case shared_not_dir =>
    intro d hd i _ hlt
    rw [mem_singleton.mp hd, HasTable, table, hmem, mem_singleton]
    exact fun hp => ((bootDirectory_shared hlt).2 hp).2
  case shared_ne_table =>
    exact fun _ _ _ _ _ _ d' hd' i' hi' ht' => absurd ht' (huser d' hd' i' hi')

end Vmm

end Xnix
