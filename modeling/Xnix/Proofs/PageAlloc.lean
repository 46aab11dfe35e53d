import Xnix.PageAlloc

/-!
# The allocator's accounts

An allocation is either a refusal or takes a run of clear bits of the managed range; a free is
either refused or clears the bit of a page that is taken. From these two facts every run keeps the
count of free pages and the blocks that callers hold apart.
-/

namespace Xnix

open List Lib Bitmap

namespace PageAlloc

variable {a : PageAlloc} {addr page pfn count : ℕ} {r : PageAlloc × ℕ}

structure Manages (a : PageAlloc) (addr : ℕ) : Prop where
  start_le : a.range.memoryStart ≤ addr
  lt_end : addr < a.range.memoryEnd
  aligned : addr % pageSize = 0

instance (a : PageAlloc) (addr : ℕ) : Decidable (a.Manages addr) :=
  decidable_of_iff (a.range.memoryStart ≤ addr ∧ addr < a.range.memoryEnd ∧ addr % pageSize = 0)
    ⟨fun h => ⟨h.1, h.2.1, h.2.2⟩, fun h => ⟨h.1, h.2, h.3⟩⟩

def Taken (a : PageAlloc) (addr : ℕ) : Prop :=
  a.Manages addr ∧ a.pageBitmap.test (a.pfnOf addr) = true

instance (a : PageAlloc) (addr : ℕ) : Decidable (a.Taken addr) :=
    inferInstanceAs (Decidable (_ ∧ _))

/-- `now_free_pages` is the number of clear bits below `total_pages`. -/
def Counted (a : PageAlloc) : Prop := a.nowFreePages = a.pageBitmap.clears a.range.totalPages

instance (a : PageAlloc) : Decidable a.Counted := inferInstanceAs (Decidable (_ = _))

/-- A block of `count` free pages, at least one, that starts at `pfn` and lies in the low region. -/
def LowRun (a : PageAlloc) (pfn count : ℕ) : Prop :=
  0 < count ∧ pfn + count ≤ a.range.lowPages ∧ a.pageBitmap.Clear pfn count

section
variable (h : pfn < a.range.totalPages)
include h

theorem addrOf_eq : a.addrOf pfn = a.range.memoryStart + pfn * pageSize := by
  have he := a.range.end_eq
  have hlt := a.range.end_lt
  refine Nat.mod_eq_of_lt ?_
  simp only [pageSize] at *
  omega

theorem addrOf_pos : 0 < a.addrOf pfn := by
  have := a.range.start_pos (by omega)
  rw [addrOf_eq h]
  omega

theorem addrOf_manages : a.Manages (a.addrOf pfn) := by
  have he := a.range.end_eq
  refine ⟨?_, ?_, ?_⟩ <;> rw [addrOf_eq h]
  · omega
  · simp only [pageSize] at *
    omega
  · rw [Nat.add_mul_mod_self_right, a.range.start_aligned]

theorem pfnOf_addrOf : a.pfnOf (a.addrOf pfn) = pfn := by
  rw [pfnOf, addrOf_eq h, Nat.add_sub_cancel_left, Nat.mul_div_cancel _ (by decide)]

end

theorem Manages.pfnOf_lt (h : a.Manages addr) : a.pfnOf addr < a.range.totalPages := by
  have he := a.range.end_eq
  have := h.lt_end
  have := h.start_le
  simp only [pfnOf, pageSize] at *
  omega

theorem Manages.addrOf_pfnOf (h : a.Manages addr) : a.addrOf (a.pfnOf addr) = addr := by
  rw [addrOf_eq h.pfnOf_lt]
  have := h.start_le
  have := h.aligned
  have := a.range.start_aligned
  simp only [pfnOf, pageSize] at *
  omega

theorem Manages.pos (h : a.Manages addr) : 0 < addr := by
  rw [← h.addrOf_pfnOf]
  exact addrOf_pos h.pfnOf_lt

theorem Manages.pfnOf_inj {addr' : ℕ} (h : a.Manages addr) (h' : a.Manages addr')
    (he : a.pfnOf addr = a.pfnOf addr') : addr = addr' := by
  rw [← h.addrOf_pfnOf, ← h'.addrOf_pfnOf, he]

theorem pagesFrom_addrOf : pagesFrom (a.addrOf pfn) count = (List.range count).map fun i =>
    a.addrOf (pfn + i) := by
  refine map_congr_left fun i _ => ?_
  rw [addrOf, addrOf, Nat.mod_add_mod, Nat.add_mul, Nat.add_assoc]

inductive Outcome (a : PageAlloc) (count : ℕ) : PageAlloc × ℕ → Prop
  | refused : Outcome a count (a, 0)
  | taken (pfn : ℕ) : 0 < count → pfn + count ≤ a.range.totalPages → a.pageBitmap.Clear pfn count →
      Outcome a count (a.takeRun pfn count, a.addrOf pfn)

theorem allocBetween_outcome {lo hi : ℕ} (h : hi ≤ a.range.totalPages) :
    a.Outcome 1 (a.allocBetween lo hi) := by
  unfold allocBetween
  cases hf : a.pageBitmap.first (hi - lo) lo with
  | none => exact .refused
  | some i =>
    obtain ⟨_, hi', hclear⟩ := first_eq_some hf
    refine .taken i one_pos (by omega) fun k hk => ?_
    obtain rfl : k = 0 := by omega
    exact hclear

theorem allocPage_outcome : a.Outcome 1 a.allocPage := allocBetween_outcome a.range.low_le

theorem allocPageHigh_outcome : a.Outcome 1 a.allocPageHigh := allocBetween_outcome le_rfl

theorem allocPages_outcome : a.Outcome count (a.allocPages count) := by
  unfold allocPages
  split
  · exact .refused
  · rename_i h0
    split
    · rename_i h1
      exact h1 ▸ allocPage_outcome
    · cases hf : a.pageBitmap.findRun count a.range.lowPages 0 0 0 with
      | none => exact .refused
      | some pfn =>
        have := findRun_eq_some (.inr rfl) (by intro k hk; omega) hf
        exact .taken pfn (Nat.pos_of_ne_zero h0) (by have := a.range.low_le; omega) this.1

theorem allocPage_eq_zero_iff : a.allocPage.2 = 0 ↔ ¬ ∃ pfn, a.LowRun pfn 1 := by
  unfold allocPage allocBetween
  cases hf : a.pageBitmap.first (a.range.lowPages - 0) 0 with
  | none =>
    refine iff_of_true rfl ?_
    rintro ⟨pfn, -, hlow, hclear⟩
    have := hclear 0 one_pos
    rw [Nat.add_zero, first_eq_none hf (Nat.zero_le pfn) (by omega)] at this
    cases this
  | some i =>
    obtain ⟨_, hi, hclear⟩ := first_eq_some hf
    have hlow := a.range.low_le
    refine iff_of_false (addrOf_pos (by omega)).ne'
      (not_not.mpr ⟨i, one_pos, by omega, fun k hk => ?_⟩)
    obtain rfl : k = 0 := by omega
    exact hclear

/-- `alloc_pages` fails exactly when there is no block of that many free pages in the low region. -/
theorem allocPages_eq_zero_iff : (a.allocPages count).2 = 0 ↔ ¬ ∃ pfn, a.LowRun pfn count := by
  unfold allocPages
  split
  · rename_i h0
    refine iff_of_true rfl ?_
    rintro ⟨pfn, hpos, -⟩
    omega
  · rename_i h0
    split
    · rename_i h1
      exact h1 ▸ allocPage_eq_zero_iff
    · cases hf : a.pageBitmap.findRun count a.range.lowPages 0 0 0 with
      | none =>
        refine iff_of_true rfl ?_
        rintro ⟨pfn, -, hlow, hclear⟩
        exact findRun_eq_none (Nat.pos_of_ne_zero h0) hf (Nat.zero_le _) (by omega) hclear
      | some pfn =>
        obtain ⟨hclear, hlow⟩ := findRun_eq_some (.inr rfl) (by intro k hk; omega) hf
        have := a.range.low_le
        exact iff_of_false (addrOf_pos (by omega)).ne'
          (not_not.mpr ⟨pfn, Nat.pos_of_ne_zero h0, by omega, hclear⟩)

theorem Counted.lt (h : a.Counted) : a.nowFreePages < 2 ^ 32 := by
  have hle := a.pageBitmap.clears_le a.range.totalPages
  have he := a.range.end_eq
  have hlt := a.range.end_lt
  rw [Counted] at h
  simp only [pageSize] at *
  omega

theorem Counted.takeRun (h : a.Counted) (hle : pfn + count ≤ a.range.totalPages)
    (hclear : a.pageBitmap.Clear pfn count) : (a.takeRun pfn count).Counted := by
  have hsum := clears_setRange hclear hle
  have hlt := h.lt
  rw [Counted] at h
  show (a.nowFreePages + 2 ^ 32 - count) % 2 ^ 32 =
    (a.pageBitmap.setRange pfn count).clears a.range.totalPages
  omega

theorem takeRun_manages : (a.takeRun pfn count).Manages addr ↔ a.Manages addr :=
  ⟨fun h => ⟨h.1, h.2, h.3⟩, fun h => ⟨h.1, h.2, h.3⟩⟩

theorem Taken.takeRun (h : a.Taken addr) : (a.takeRun pfn count).Taken addr := by
  refine ⟨takeRun_manages.mpr h.1, ?_⟩
  show (a.pageBitmap.setRange pfn count).test (a.pfnOf addr) = true
  rw [test_setRange, h.2, Bool.or_true]

theorem takeRun_taken {i : ℕ} (hle : pfn + count ≤ a.range.totalPages) (hi : i < count) :
    (a.takeRun pfn count).Taken (a.addrOf (pfn + i)) := by
  have hlt : pfn + i < a.range.totalPages := by omega
  refine ⟨takeRun_manages.mpr (addrOf_manages hlt), ?_⟩
  show (a.pageBitmap.setRange pfn count).test (a.pfnOf _) = true
  rw [pfnOf_addrOf hlt, test_setRange]
  simp [hi]

theorem freePage_of_manages (h : a.Manages page) : a.freePage page =
    if !a.pageBitmap.test (a.pfnOf page) then a
    else { a with
      pageBitmap := a.pageBitmap.clear (a.pfnOf page)
      nowFreePages := (a.nowFreePages + 1) % 2 ^ 32 } := by
  have h1 := h.start_le
  have h2 := h.lt_end
  rw [freePage, if_neg h.pos.ne', if_neg (by omega), if_neg (by simpa using h.aligned)]

theorem freePage_of_taken (h : a.Taken page) : a.freePage page =
    { a with
      pageBitmap := a.pageBitmap.clear (a.pfnOf page)
      nowFreePages := (a.nowFreePages + 1) % 2 ^ 32 } := by
  rw [freePage_of_manages h.1, h.2]
  rfl

theorem freePage_of_not_taken (h : ¬ a.Taken page) : a.freePage page = a := by
  by_cases hm : a.Manages page
  · rw [freePage_of_manages hm, if_pos]
    simpa using fun ht => h ⟨hm, ht⟩
  · unfold freePage
    split
    · rfl
    · split
      · rfl
      · rename_i hr
        split
        · rfl
        · rename_i ha
          exact absurd ⟨by omega, by omega, by simpa using ha⟩ hm

theorem freePage_manages : (a.freePage page).Manages addr ↔ a.Manages addr := by
  by_cases h : a.Taken page
  · rw [freePage_of_taken h]
    exact ⟨fun h => ⟨h.1, h.2, h.3⟩, fun h => ⟨h.1, h.2, h.3⟩⟩
  · rw [freePage_of_not_taken h]

theorem Counted.freePage (h : a.Counted) : (a.freePage page).Counted := by
  by_cases ht : a.Taken page
  · rw [freePage_of_taken ht]
    have hsum := clears_clear ht.2 ht.1.pfnOf_lt
    have hle := (a.pageBitmap.clear (a.pfnOf page)).clears_le a.range.totalPages
    have he := a.range.end_eq
    have hlt := a.range.end_lt
    rw [Counted] at h
    show (a.nowFreePages + 1) % 2 ^ 32 =
      (a.pageBitmap.clear (a.pfnOf page)).clears a.range.totalPages
    simp only [pageSize] at *
    omega
  · rwa [freePage_of_not_taken ht]

theorem Taken.freePage (h : a.Taken addr) (hne : addr ≠ page) : (a.freePage page).Taken addr := by
  by_cases ht : a.Taken page
  · refine ⟨freePage_manages.mpr h.1, ?_⟩
    rw [freePage_of_taken ht]
    show (a.pageBitmap.clear (a.pfnOf page)).test (a.pfnOf addr) = true
    rw [test_clear_of_ne fun he => hne (h.1.pfnOf_inj ht.1 he), h.2]
  · rwa [freePage_of_not_taken ht]

theorem Counted.freeAll :
    ∀ {pages : List ℕ} {a : PageAlloc}, a.Counted → (pages.foldl PageAlloc.freePage a).Counted
  | [], _, h => h
  | _ :: _, _, h => by
    rw [foldl_cons]
    exact freeAll h.freePage

theorem Taken.freeAll : ∀ {pages : List ℕ} {a : PageAlloc}, a.Taken addr → addr ∉ pages →
    (pages.foldl PageAlloc.freePage a).Taken addr
  | [], _, h, _ => h
  | page :: pages, _, h, hn => by
    rw [mem_cons, not_or] at hn
    rw [foldl_cons]
    exact freeAll (h.freePage hn.1) hn.2

def Free (a : PageAlloc) (addr : ℕ) : Prop :=
  a.Manages addr ∧ a.pageBitmap.test (a.pfnOf addr) = false

instance (a : PageAlloc) (addr : ℕ) : Decidable (a.Free addr) := inferInstanceAs (Decidable (_ ∧ _))

theorem Taken.not_free (h : a.Taken addr) : ¬ a.Free addr := fun hf => by
  have := h.2
  rw [hf.2] at this
  cases this

theorem Outcome.free (h : a.Outcome 1 r) (hr : r.2 ≠ 0) : a.Free r.2 := by
  cases h with
  | refused => exact absurd rfl hr
  | taken pfn _ hle hclear =>
    have hlt : pfn < a.range.totalPages := by omega
    refine ⟨addrOf_manages hlt, ?_⟩
    rw [pfnOf_addrOf hlt]
    exact hclear 0 one_pos

theorem Outcome.range_eq (h : a.Outcome count r) : r.1.range = a.range := by cases h <;> rfl

theorem Outcome.manages (h : a.Outcome count r) : r.1.Manages addr ↔ a.Manages addr := by
  cases h with
  | refused => rfl
  | taken => exact takeRun_manages

theorem Outcome.taken_iff (h : a.Outcome 1 r) :
    r.1.Taken addr ↔ a.Taken addr ∨ r.2 ≠ 0 ∧ addr = r.2 := by
  cases h with
  | refused => simp
  | taken pfn _ hle hclear =>
    have hlt : pfn < a.range.totalPages := by omega
    have h0 := (addrOf_pos hlt).ne'
    constructor
    · rintro ⟨hm, ht⟩
      have hm := takeRun_manages.mp hm
      have ht : (a.pageBitmap.setRange pfn 1).test (a.pfnOf addr) = true := ht
      rw [test_setRange, Bool.or_eq_true, decide_eq_true_eq] at ht
      rcases ht with hp | ht
      · obtain rfl : pfn = a.pfnOf addr := by omega
        exact .inr ⟨h0, hm.addrOf_pfnOf.symm⟩
      · exact .inl ⟨hm, ht⟩
    · rintro (h | ⟨-, he⟩)
      · exact h.takeRun
      · have : (a.takeRun pfn 1).Taken (a.addrOf (pfn + 0)) := takeRun_taken hle one_pos
        exact he ▸ this

theorem not_taken_iff (hm : a.Manages addr) : ¬ a.Taken addr ↔ a.Free addr := by
  constructor
  · intro h
    exact ⟨hm, by simpa using fun ht => h ⟨hm, ht⟩⟩
  · exact fun h ht => ht.not_free h

theorem Outcome.not_free (h : a.Outcome 1 r) (hf : ¬ a.Free addr) : ¬ r.1.Free addr := by
  intro hf'
  have hm : a.Manages addr := h.manages.mp hf'.1
  have ht : a.Taken addr := not_not.mp fun hn => hf ((not_taken_iff hm).mp hn)
  exact (h.taken_iff.mpr (.inl ht)).not_free hf'

theorem taken_freePage_iff : (a.freePage page).Taken addr ↔ a.Taken addr ∧ addr ≠ page := by
  constructor
  · intro h
    by_cases hp : a.Taken page
    · obtain ⟨hm, ht⟩ := h
      have hm := freePage_manages.mp hm
      rw [freePage_of_taken hp] at ht
      have ht : (a.pageBitmap.clear (a.pfnOf page)).test (a.pfnOf addr) = true := ht
      rw [test_clear, Bool.and_eq_true] at ht
      refine ⟨⟨hm, ht.2⟩, fun he => ?_⟩
      simp [he] at ht
    · rw [freePage_of_not_taken hp] at h
      exact ⟨h, fun he => hp (he ▸ h)⟩
  · exact fun h => h.1.freePage h.2

theorem taken_freeAll_iff : ∀ {pages : List ℕ} {a : PageAlloc},
    (pages.foldl freePage a).Taken addr ↔ a.Taken addr ∧ addr ∉ pages
  | [], _ => by simp
  | page :: pages, a => by
    rw [foldl_cons, taken_freeAll_iff, taken_freePage_iff, mem_cons, not_or, and_assoc]

theorem freeAll_manages : ∀ {pages : List ℕ} {a : PageAlloc},
    (pages.foldl freePage a).Manages addr ↔ a.Manages addr
  | [], _ => Iff.rfl
  | _ :: _, _ => by rw [foldl_cons, freeAll_manages, freePage_manages]

theorem not_free_freeAll {pages : List ℕ} (h : ¬ a.Free addr) (hn : addr ∉ pages) :
    ¬ (pages.foldl freePage a).Free addr := by
  intro hf
  have hm := freeAll_manages.mp hf.1
  have ht : a.Taken addr := not_not.mp fun h' => h ((not_taken_iff hm).mp h')
  exact (taken_freeAll_iff.mpr ⟨ht, hn⟩).not_free hf

theorem Manages.isPage_lt (h : a.Manages addr) : addr < 2 ^ 32 := by
  have := h.lt_end
  have := a.range.end_lt
  omega

end PageAlloc

namespace PageSys

variable {s s' : PageSys} {count : ℕ}

/-- The count of free pages is right, and the blocks that callers hold are taken pages, none in two
of them. -/
structure Accounted (s : PageSys) : Prop where
  counted : s.alloc.Counted
  taken : ∀ block ∈ s.held, ∀ page ∈ block, s.alloc.Taken page
  disjoint : s.held.Pairwise List.Disjoint

theorem Accounted.give (h : s.Accounted) (hr : s.alloc.Outcome count r) :
    (s.give count r).Accounted := by
  cases hr with
  | refused => exact h
  | taken pfn hpos hle hclear =>
    have haddr : s.alloc.addrOf pfn ≠ 0 := (PageAlloc.addrOf_pos (by omega)).ne'
    simp only [PageSys.give, haddr, if_false, PageAlloc.pagesFrom_addrOf]
    refine ⟨h.counted.takeRun hle hclear, fun block hblock page hpage => ?_, ?_⟩
    · rcases mem_cons.mp hblock with rfl | hblock
      · obtain ⟨i, hi, rfl⟩ := mem_map.mp hpage
        exact PageAlloc.takeRun_taken hle (mem_range.mp hi)
      · exact (h.taken block hblock page hpage).takeRun
    · refine pairwise_cons.mpr ⟨fun block hblock page hnew hold => ?_, h.disjoint⟩
      obtain ⟨i, hi, rfl⟩ := mem_map.mp hnew
      have hi := mem_range.mp hi
      have hset := (h.taken block hblock _ hold).2
      rw [PageAlloc.pfnOf_addrOf (by omega), hclear i hi] at hset
      cases hset

theorem Accounted.drop (h : s.Accounted) {pages : List ℕ} {a : PageAlloc} (hc : a.Counted)
    (ht : ∀ page, s.alloc.Taken page → page ∉ pages → a.Taken page) :
    (s.drop pages a).Accounted := by
  refine ⟨hc, fun block hblock page hpage => ?_, ?_⟩
  · obtain ⟨old, hold, rfl⟩ := mem_map.mp hblock
    obtain ⟨hmem, hnot⟩ := mem_filter.mp hpage
    exact ht page (h.taken old hold page hmem) (by simpa using hnot)
  · refine pairwise_map.mpr (h.disjoint.imp fun hd page h₁ h₂ => ?_)
    exact hd (mem_filter.mp h₁).1 (mem_filter.mp h₂).1

theorem Accounted.step (h : s.Accounted) (act : PageAction) (hs : s.step act = some s') :
    s'.Accounted := by
  cases act <;> simp only [PageSys.step, Option.some.injEq] at hs <;> subst hs
  case allocPage => exact h.give PageAlloc.allocPage_outcome
  case allocPageHigh => exact h.give PageAlloc.allocPageHigh_outcome
  case allocPages => exact h.give PageAlloc.allocPages_outcome
  case freePage page =>
    exact h.drop h.counted.freePage fun p hp hn => hp.freePage (by simpa using hn)
  case freePages page count =>
    by_cases h0 : page = 0 ∨ count = 0
    · rw [PageAlloc.freePages, if_pos h0]
      exact h.drop h.counted fun _ hp _ => hp
    · rw [PageAlloc.freePages, if_neg h0, if_neg (by omega)]
      exact h.drop h.counted.freeAll fun p hp hn => hp.freeAll hn

/-- In every state that calls lead to: the count is right, the blocks handed out are disjoint pages
of the managed range, `alloc_pages` fails exactly when the low region has no such block, and a wrong
`free_page` changes nothing. -/
theorem pages_accounted
    (h : Lib.Reach PageSys.step (fun s => s.alloc.Counted ∧ s.held = []) (fun _ _ => True) s) :
    s.alloc.Counted ∧ s.held.Pairwise List.Disjoint ∧
    (∀ block ∈ s.held, ∀ page ∈ block, s.alloc.Manages page) ∧
      (∀ n, (s.alloc.allocPages n).2 = 0 ↔ ¬ ∃ pfn, s.alloc.LowRun pfn n) ∧
      ∀ page, (page % pageSize ≠ 0 ∨ page < s.alloc.range.memoryStart ∨
      s.alloc.range.memoryEnd ≤ page ∨
        s.alloc.pageBitmap.test (s.alloc.pfnOf page) = false) →
        s.alloc.freePage page = s.alloc := by
  have ha : s.Accounted := by
    refine h.invariant ?_ fun s act s' h _ hs => h.step act hs
    rintro s ⟨hc, hheld⟩
    exact ⟨hc, by simp [hheld], by simp [hheld]⟩
  refine ⟨ha.counted, ha.disjoint, fun block hb page hp => (ha.taken block hb page hp).1,
    fun n => PageAlloc.allocPages_eq_zero_iff, fun page hpage => ?_⟩
  refine PageAlloc.freePage_of_not_taken fun ⟨hm, ht⟩ => ?_
  have := hm.start_le
  have := hm.lt_end
  rcases hpage with h | h | h | h
  · exact h hm.aligned
  · omega
  · omega
  · rw [ht] at h
    cases h

/-- Eight free pages after a bitmap page at 1 MB, four of them low. -/
def eightPages : PageAlloc :=
  ⟨⟨0x101000, 0x109000, 8, 4, by decide, by decide, by decide, by decide, by decide⟩,
    fun _ => 0#32, 8⟩

/-- A block of two pages is handed out, one of its pages is freed twice and a low page is handed out
again. -/
theorem pages_accounted_freedTwice : ∃ s, Lib.run PageSys.step ⟨eightPages, []⟩
        [.allocPages 2, .allocPageHigh, .freePage 0x101000, .freePages 0x101000 1, .allocPage] =
        some s ∧
      s.held = [[0x101000], [0x105000], [0x102000]] ∧ s.alloc.Counted ∧
      s.held.Pairwise List.Disjoint := by
  have hrun : (run PageSys.step ⟨eightPages, []⟩
      [.allocPages 2, .allocPageHigh, .freePage 0x101000, .freePages 0x101000 1, .allocPage]).map
      PageSys.held = some [[0x101000], [0x105000], [0x102000]] := by decide
  obtain ⟨s, hs, hheld⟩ := Option.map_eq_some_iff.mp hrun
  have hreach : Reach PageSys.step (fun s => s.alloc.Counted ∧ s.held = []) (fun _ _ => True) s :=
    Reach.of_run _ (.init ⟨by decide, rfl⟩) (fun _ _ _ => trivial) hs
  have := pages_accounted hreach
  exact ⟨s, hs, hheld, this.1, this.2.1⟩

end PageSys

end Xnix
