import Xnix.Proofs.HeapCalls

/-!
# Programs and their heap

`HeapSys.Ok` ties what a program holds to the blocks of the heap. Every call keeps it as long as no
size wraps around: `malloc` rounds the size up and adds the header without a check.
-/

namespace Xnix

open Function List Option Lib Extent

open Lib (Extent)

namespace HeapSys
open Heap

variable {s t : HeapSys} {h' : Heap} {e b : Extent} {avail avail' : List Extent} {n ptr size : ℕ}
  {q : ℕ × ℕ}

def blocks (s : HeapSys) : List Extent := s.live.map fun q => s.heap.extent q.1

/-- The heap is in order, the program holds its blocks and knows which pointers it freed. -/
structure Ok (s : HeapSys) (avail : List Extent) : Prop where
  heap : s.heap.Ok avail s.blocks
  fits : ∀ q ∈ s.live, q.2 ≤ (s.heap.extent q.1).len - headerSize
  freed : ∀ p ∈ s.freed, s.heap.Stale avail p

theorem Ok.init (mem : Flat) : (HeapSys.init mem).Ok [] where
  heap := by
    refine ⟨⟨rfl, ?_, ?_, Pairwise.nil⟩, ?_, ?_, Pairwise.nil, ?_, ?_⟩ <;> simp [blocks,
      HeapSys.init]
  fits := by simp [HeapSys.init]
  freed := by simp [HeapSys.init]

theorem mem_blocks (hq : q ∈ s.live) : s.heap.extent q.1 ∈ s.blocks := mem_map.mpr ⟨q, hq, rfl⟩

theorem Ok.ptr_eq (hok : s.Ok avail) (hq : q ∈ s.live) :
    q.1 = (s.heap.extent q.1).start + headerSize := by
  have hpos := (hok.heap.shape _ (mem_blocks hq)).pos
  dsimp only [extent] at hpos ⊢
  omega

theorem Ok.extent_congr (hok : s.Ok avail) {live : List Extent} (hok' : h'.Ok avail' live)
    (hq : q ∈ s.live) (hmem : s.heap.extent q.1 ∈ live) : h'.extent q.1 = s.heap.extent q.1 := by
  have := hok'.extent_eq hmem
  rwa [← hok.ptr_eq hq] at this

theorem Ok.apart_of_ne (hok : s.Ok avail) {r : ℕ × ℕ} (hq : q ∈ s.live) (hr : r ∈ s.live)
    (hne : q.1 ≠ r.1) : (s.heap.extent q.1).Apart (s.heap.extent r.1) := by
  refine hok.heap.live_apart.forall (mem_blocks hq) (mem_blocks hr) fun heq => hne ?_
  rw [hok.ptr_eq hq, hok.ptr_eq hr, heq]

theorem Ok.give (hok : s.Ok avail) (hg : Given s.heap h' avail avail' s.blocks b size)
    (hn : n ≤ b.len - headerSize) : (s.give h' (b.start + headerSize) n).Ok avail' := by
  have hb : h'.extent (b.start + headerSize) = b := hg.ok.extent_eq mem_cons_self
  have hsame : ∀ q ∈ s.live, h'.extent q.1 = s.heap.extent q.1 := fun q hq =>
    hok.extent_congr hg.ok hq (mem_cons_of_mem b (mem_blocks hq))
  have hblocks : (s.give h' (b.start + headerSize) n).blocks = b :: s.blocks := by
    change h'.extent (b.start + headerSize) :: s.live.map (fun q => h'.extent q.1) = _
    rw [hb, map_congr_left hsame]
    rfl
  refine ⟨hblocks ▸ hg.ok, fun q hq => ?_, fun p hp => ?_⟩
  · change q.2 ≤ (h'.extent q.1).len - headerSize
    rcases mem_cons.mp hq with rfl | hq
    · rwa [hb]
    · rw [hsame q hq]
      exact hok.fits q hq
  · obtain ⟨hp, hnot⟩ := mem_filter.mp hp
    have hs := hok.freed p hp
    refine hg.stale hs fun hbp => ?_
    have hshape := hg.ok.shape b mem_cons_self
    rw [blockOf_eq hshape, (hg.ok.header b mem_cons_self).size] at hnot
    obtain ⟨-, -, g, hgm, hstart, -⟩ := hs
    unfold Extent.Has fin at hbp
    simp only [decide_not, Bool.not_eq_true', decide_eq_false_iff_not] at hnot
    omega

theorem blocks_filter (s : HeapSys) (ptr : ℕ) :
    ((s.live.filter (·.1 ≠ ptr)).map fun q => s.heap.extent q.1).Sublist s.blocks :=
  filter_sublist.map _

theorem Ok.release (hok : s.Ok avail) (hptr : ptr ∈ s.live.map Prod.fst) :
    ∃ h', s.heap.free ptr = some h' ∧
      ({ s.drop ptr with heap := h' } : HeapSys).Ok
      (Extent.merge (Extent.insert (s.heap.extent ptr) avail)) ∧
      Extent.Separated (Extent.merge (Extent.insert (s.heap.extent ptr) avail)) ∧
      ∀ q ∈ s.live, q.1 ≠ ptr → h'.extent q.1 = s.heap.extent q.1 ∧
        ∀ x, (s.heap.extent q.1).Has x → h'.mem x = s.heap.mem x := by
  obtain ⟨r, hr, rfl⟩ := mem_map.mp hptr
  have he := mem_blocks hr
  have hlive : ∀ q ∈ s.live.filter (·.1 ≠ r.1), q ∈ s.live ∧ q.1 ≠ r.1 := fun q hq => by
    simpa using mem_filter.mp hq
  obtain ⟨h', hfree, hok', hframe, hsep⟩ := hok.heap.free he (blocks_filter s r.1) fun f hf => by
    obtain ⟨q, hq, rfl⟩ := mem_map.mp hf
    exact hok.apart_of_ne hr (hlive q hq).1 (hlive q hq).2.symm
  rw [← hok.ptr_eq hr] at hfree
  have hsame : ∀ q ∈ s.live.filter (·.1 ≠ r.1), h'.extent q.1 = s.heap.extent q.1 := fun q hq =>
    hok.extent_congr hok' (hlive q hq).1 (mem_map.mpr ⟨q, hq, rfl⟩)
  have hdrop : s.drop r.1 = { s with live := s.live.filter (·.1 ≠ r.1), freed := r.1 :: s.freed } :=
    if_pos hptr
  rw [hdrop]
  have hkeep : ∀ q ∈ s.live, q.1 ≠ r.1 → q ∈ s.live.filter (·.1 ≠ r.1) := fun q hq hne =>
    mem_filter.mpr ⟨hq, by simpa using hne⟩
  generalize s.live.filter (·.1 ≠ r.1) = live at *
  refine ⟨h', hfree, ⟨?_, fun q hq => ?_, fun p hp => ?_⟩, hsep, fun q hq hne =>
    ⟨hsame q (hkeep q hq hne), fun x hx => ?_⟩⟩
  · dsimp only [blocks]
    rw [map_congr_left hsame]
    exact hok'
  · change q.2 ≤ (h'.extent q.1).len - headerSize
    rw [hsame q hq]
    exact hok.fits q (hlive q hq).1
  · refine hok.heap.stale_free he hframe ?_
    rcases mem_cons.mp hp with rfl | hp
    · exact .inr (hok.ptr_eq hr)
    · exact .inl (hok.freed p hp)
  · have hqr := hok.apart_of_ne hq hr hne
    have hclear : ∀ f ∈ s.heap.extent r.1 :: avail, ∀ w ≤ 32,
      ¬ (f.start ≤ x ∧ x < f.start + w) := by
      intro f hf w hw hfx
      rcases mem_cons.mp hf with rfl | hf
      · have := (hok.heap.shape _ he).len_ge
        exact hqr.not_has hx ⟨hfx.1, by unfold fin; omega⟩
      · have := (hok.heap.list.shape f hf).len_ge
        exact (hok.heap.apart f hf _ (mem_blocks hq)).symm.not_has hx ⟨hfx.1, by unfold fin; omega⟩
    refine (hframe x fun f hf => hclear f hf 8 (by decide)).trans (Flat.store_of_ne ?_)
    have := hclear _ mem_cons_self 12 (by decide)
    omega

theorem Ok.freed_not_live (hok : s.Ok avail) (hp : ptr ∈ s.freed) : ptr ∉ s.live.map Prod.fst := by
  intro hptr
  obtain ⟨r, hr, rfl⟩ := mem_map.mp hptr
  obtain ⟨-, -, g, hg, hstart, hfin⟩ := hok.freed _ hp
  have hap := hok.heap.apart g hg _ (mem_blocks hr)
  have hlen := (hok.heap.shape _ (mem_blocks hr)).len_ge
  refine hap.not_has (x := r.1 - headerSize) ⟨by omega, by omega⟩ ⟨le_rfl, ?_⟩
  change r.1 - headerSize < r.1 - headerSize + _
  omega

theorem drop_heap (s : HeapSys) (h' : Heap) (ptr : ℕ) :
    ({ s with heap := h' } : HeapSys).drop ptr = { s.drop ptr with heap := h' } := by
  unfold drop
  split <;> rfl

theorem drop_of_notMem (hp : ptr ∉ s.live.map Prod.fst) : s.drop ptr = s := if_neg hp

theorem Ok.free_freed (hok : s.Ok avail) (hp : ptr ∈ s.freed) : s.free ptr = some s := by
  rw [free, (hok.freed ptr hp).free hok.heap, drop_of_notMem (hok.freed_not_live hp)]
  rfl

theorem Ok.hold (hok : s.Ok avail) {live : List (ℕ × ℕ)}
    (hmem : ∀ q ∈ live, q.1 ∈ s.live.map Prod.fst)
    (hnodup : live.Pairwise fun q r => q.1 ≠ r.1)
    (hfits : ∀ q ∈ live, q.2 ≤ (s.heap.extent q.1).len - headerSize) :
    ({ s with live := live } : HeapSys).Ok avail := by
  have hin : ∀ e ∈ live.map fun q => s.heap.extent q.1, e ∈ s.blocks := by
    intro e he
    obtain ⟨q, hq, rfl⟩ := mem_map.mp he
    obtain ⟨r, hr, hrq⟩ := mem_map.mp (hmem q hq)
    exact hrq ▸ mem_blocks hr
  refine ⟨⟨hok.heap.list, fun e he => hok.heap.shape e (hin e he),
    fun e he => hok.heap.header e (hin e he), ?_,
    fun e he f hf => hok.heap.apart e he f (hin f hf), fun e he => ?_⟩, hfits, hok.freed⟩
  · refine pairwise_map.mpr (hnodup.imp_of_mem fun {q r} hq hr hne => ?_)
    obtain ⟨q', hq', hqq⟩ := mem_map.mp (hmem q hq)
    obtain ⟨r', hr', hrr⟩ := mem_map.mp (hmem r hr)
    rw [← hqq, ← hrr] at hne ⊢
    exact hok.apart_of_ne hq' hr' hne
  · rcases mem_append.mp he with he | he
    · exact hok.heap.obtained e (mem_append_left _ he)
    · exact hok.heap.obtained e (mem_append_right _ (hin e he))

theorem Ok.distinct (hok : s.Ok avail) : s.live.Pairwise fun q r => q.1 ≠ r.1 := by
  have hap := pairwise_map.mp hok.heap.live_apart
  refine hap.imp_of_mem fun {q r} hq hr hqr heq => ?_
  have hlen := (hok.heap.shape _ (mem_blocks hq)).len_ge
  rw [heq] at hqr hlen
  unfold Extent.Apart fin at hqr
  omega

section Steps

/-- No size wraps when it is rounded up with its header, `sbrk` gives fresh memory below `2 ^ 31`
bytes, and the program uses pointers that it holds. It may free a pointer twice. -/
def Allowed (s : HeapSys) : Action → Prop
  | .malloc n sbrk => n + 23 < 2 ^ 32 ∧ s.heap.Asks n sbrk
  | .calloc nmemb size sbrk =>
    nmemb * size < 2 ^ 32 → nmemb * size + 23 < 2 ^ 32 ∧ s.heap.Asks (nmemb * size) sbrk
  | .realloc ptr n sbrk =>
    ptr = 0 ∧ n + 23 < 2 ^ 32 ∧ s.heap.Asks n sbrk ∨
      ptr ∈ s.live.map Prod.fst ∧ n + 23 < 2 ^ 32 ∧
        ((s.heap.extent ptr).len - headerSize < alignUp n → s.heap.Asks (alignUp n) sbrk) ∨
      ptr ∈ s.freed
  | .free ptr => ptr = 0 ∨ ptr ∈ s.live.map Prod.fst ∨ ptr ∈ s.freed
  | .store addr _ => ∃ q ∈ s.live, q.1 ≤ addr ∧ addr < (s.heap.extent q.1).fin

def Returns (t : HeapSys) (p n : ℕ) : Prop := p = 0 ∨ (p, n) ∈ t.live

theorem Ok.returns (hok : s.Ok avail) {p : ℕ} (hn : n ≤ size) (hres : p = 0 ∧ h' = s.heap ∨
    ∃ b avail', p = b.start + headerSize ∧ Given s.heap h' avail avail' s.blocks b size) :
    ∃ t avail', (if p = 0 then { s with heap := h' } else s.give h' p n) = t ∧ t.Ok avail' ∧
    t.Returns p n := by
  rcases hres with ⟨rfl, rfl⟩ | ⟨b, avail', rfl, hg⟩
  · exact ⟨s, avail, if_pos rfl, hok, .inl rfl⟩
  · have hp : b.start + headerSize ≠ 0 := by
      unfold headerSize
      omega
    exact ⟨_, avail', if_neg hp, hok.give hg (hn.trans hg.fits), .inr mem_cons_self⟩

variable {sbrk : Option ℕ}

theorem Ok.malloc (hok : s.Ok avail) (hal : s.Allowed (.malloc n sbrk)) :
    ∃ t p avail', s.malloc n sbrk = some (t, p) ∧ t.Ok avail' ∧ t.Returns p n := by
  obtain ⟨h', p, hrun, hres⟩ := hok.heap.malloc hal.1 hal.2
  have hle := (roundSize_of_lt (n := n) (by have := hal.1; omega)).1
  obtain ⟨t, avail', ht, hok', hret⟩ := hok.returns hle (hres.imp_right And.right)
  refine ⟨t, p, avail', ?_, hok', hret⟩
  rw [HeapSys.malloc, hrun, ← ht]
  rfl

theorem Ok.calloc (hok : s.Ok avail) {nmemb : ℕ} (hal : s.Allowed (.calloc nmemb size sbrk)) :
    ∃ t p avail', s.calloc nmemb size sbrk = some (t, p) ∧ t.Ok avail' ∧
    t.Returns p (nmemb * size) := by
  obtain ⟨h', p, hrun, hres⟩ := hok.heap.calloc hal
  obtain ⟨t, avail', ht, hok', hret⟩ := hok.returns le_rfl (hres.imp_right And.right)
  refine ⟨t, p, avail', ?_, hok', hret⟩
  rw [HeapSys.calloc, hrun, ← ht]
  rfl

theorem Ok.free (hok : s.Ok avail) (hptr : ptr ∈ s.live.map Prod.fst) :
    ∃ t avail', s.free ptr = some t ∧ t.Ok avail' ∧ Extent.Separated avail' := by
  obtain ⟨h', hfree, hok', hsep, -⟩ := hok.release hptr
  refine ⟨_, _, ?_, hok', hsep⟩
  rw [HeapSys.free, hfree]
  rfl

theorem Ok.zero_not_live (hok : s.Ok avail) : 0 ∉ s.live.map Prod.fst := by
  intro hptr
  obtain ⟨q, hq, h0⟩ := mem_map.mp hptr
  have := hok.ptr_eq hq
  unfold headerSize at this
  omega

/-- What `realloc` may do: fail and change nothing, free the block for size 0, or return a pointer
for the new size with the old data. A freed block is merged. -/
structure Moved (s t : HeapSys) (avail avail' : List Extent) (ptr n q : ℕ) : Prop where
  ok : t.Ok avail'
  returns : t.Returns q n
  failed : q = 0 → n ≠ 0 → t = s
  kept : q ≠ 0 → ∀ i < min ((s.heap.extent ptr).len - headerSize) n,
    t.heap.mem (q + i) = s.heap.mem (ptr + i)
  merged : q ≠ ptr → (n = 0 ∨ q ≠ 0) → Lib.Extent.Separated avail'

variable (hok : s.Ok avail)
include hok

theorem Ok.realloc (hptr : ptr ∈ s.live.map Prod.fst) (hn : n + 23 < 2 ^ 32)
    (hask : (s.heap.extent ptr).len - headerSize < alignUp n → s.heap.Asks (alignUp n) sbrk) :
    ∃ t q avail', s.realloc ptr n sbrk = some (t, q) ∧ s.Moved t avail avail' ptr n q := by
  have hp0 : ptr ≠ 0 := fun h0 => hok.zero_not_live (h0 ▸ hptr)
  by_cases hn0 : n = 0
  · subst hn0
    obtain ⟨h', hfree, hok', hsep, -⟩ := hok.release hptr
    refine ⟨_, 0, _, ?_, hok', .inl rfl, fun _ h => absurd rfl h, fun h => absurd rfl h,
      fun _ _ => hsep⟩
    rw [HeapSys.realloc, Heap.realloc, if_neg hp0, if_pos rfl, hfree]
    rfl
  obtain ⟨r, hr, rfl⟩ := mem_map.mp hptr
  have he := mem_blocks hr
  have hpe := hok.ptr_eq hr
  obtain ⟨h', q, hrun, hres⟩ := hok.heap.realloc he hn0 hn hask
  rw [← hpe] at hrun hres
  unfold realloc
  rw [hrun]
  rcases hres with ⟨rfl, rfl⟩ | ⟨rfl, rfl, hfits⟩ | ⟨b, avail', h1, rfl, hfits, hg, hfree,
    hlen, hdata⟩
  · refine ⟨s, 0, avail, ?_, hok, .inl rfl, fun _ _ => rfl, fun h => absurd rfl h, fun _ h => ?_⟩
    · simp [if_neg hn0]
    · rcases h with h | h
      · exact absurd h hn0
      · exact absurd rfl h
  · have hlive : ∀ q ∈ s.live.filter (·.1 ≠ r.1), q ∈ s.live ∧ q.1 ≠ r.1 := fun q hq => by
      simpa using mem_filter.mp hq
    refine ⟨{ s with live := (r.1, n) :: s.live.filter (·.1 ≠ r.1) }, r.1, avail, ?_, ?_,
      .inr mem_cons_self, fun h => absurd h hp0, fun _ _ _ => rfl, fun h => absurd rfl h⟩
    · simp [if_neg hp0]
    · refine hok.hold (fun q hq => ?_) (pairwise_cons.mpr ⟨fun q hq => ?_, ?_⟩) fun q hq => ?_
      · rcases mem_cons.mp hq with rfl | hq
        · exact hptr
        · exact mem_map.mpr ⟨q, (hlive q hq).1, rfl⟩
      · exact (hlive q hq).2.symm
      · exact hok.distinct.filter _
      · rcases mem_cons.mp hq with rfl | hq
        · exact hfits
        · exact hok.fits q (hlive q hq).1
  · have hgive := hok.give hg hfits
    have hne : b.start + headerSize ≠ r.1 := fun heq => by
      have hap := (pairwise_cons.mp hg.ok.live_apart).1 _ he
      have := (hok.heap.shape _ he).len_ge
      unfold Extent.Apart fin at hap
      omega
    have hq0 : b.start + headerSize ≠ 0 := by
      unfold headerSize
      omega
    have hptr' : r.1 ∈ (s.give h1 (b.start + headerSize) n).live.map Prod.fst :=
      mem_cons_of_mem _ hptr
    obtain ⟨h'', hfree', hok', hsep, hothers⟩ := hgive.release hptr'
    obtain rfl : h'' = h' := some.inj (hfree'.symm.trans hfree)
    obtain ⟨hext, hbytes⟩ := hothers (b.start + headerSize, n) mem_cons_self hne
    have hsize : h''.size (blockOf (b.start + headerSize)) =
      h1.size (blockOf (b.start + headerSize)) := by
      have hlens : headerSize + h''.size (b.start + headerSize - headerSize) =
          headerSize + h1.size (b.start + headerSize - headerSize) := congrArg len hext
      rw [Nat.add_sub_cancel] at hlens
      rw [blockOf_eq (hg.ok.shape b mem_cons_self)]
      omega
    have hgive' : s.give h'' (b.start + headerSize) n =
      { s.give h1 (b.start + headerSize) n with heap := h'' } := by
      unfold HeapSys.give
      rw [hsize]
    refine ⟨_, b.start + headerSize, _, ?_, hok', ?_, fun h => absurd h hq0, fun _ i hi => ?_,
      fun _ _ => hsep⟩
    · dsimp only [bind_eq_bind, bind_some]
      rw [if_neg hq0, if_neg hne, hgive', drop_heap]
    · right
      rw [drop, if_pos hptr']
      exact mem_filter.mpr ⟨mem_cons_self, by simpa using hne⟩
    · have hb : h1.extent (b.start + headerSize) = b := hg.ok.extent_eq mem_cons_self
      have hi' : i < (s.heap.extent r.1).len - headerSize := lt_of_lt_of_le hi (min_le_left ..)
      refine (hbytes _ ?_).trans (hdata i hi')
      change (h1.extent (b.start + headerSize)).Has _
      rw [hb]
      refine ⟨by omega, ?_⟩
      unfold fin
      omega

theorem Ok.realloc_null (hal : s.Allowed (.malloc n sbrk)) :
    s.realloc 0 n sbrk = s.malloc n sbrk := by
  obtain ⟨h', p, hrun, -⟩ := hok.heap.malloc hal.1 hal.2
  rw [HeapSys.realloc, Heap.realloc, if_pos rfl, HeapSys.malloc, hrun]
  have hdrop : ∀ h', ({ s.drop 0 with heap := h' } : HeapSys) = { s with heap := h' } :=
    fun h' => by
    rw [drop_of_notMem hok.zero_not_live]
  by_cases hp : p = 0
  · simp [hp, hdrop]
  · have hgive : 0 ∉ (s.give h' p n).live.map Prod.fst := by
      simp only [HeapSys.give, map_cons, mem_cons, not_or]
      exact ⟨Ne.symm hp, hok.zero_not_live⟩
    simp [hp, drop_of_notMem hgive]

theorem Ok.realloc_freed (hp : ptr ∈ s.freed) : s.realloc ptr n sbrk = some (s, 0) := by
  have hs := hok.freed ptr hp
  have hfree := hs.free hok.heap
  have hdrop := drop_of_notMem (hok.freed_not_live hp)
  obtain ⟨-, hmagic, g, hg, hstart, hfin⟩ := hs
  have hlt := (hok.heap.list.shape g hg).fin_lt
  have hp0 : ptr ≠ 0 := by
    unfold headerSize at hstart
    omega
  have hblock : blockOf ptr = ptr - headerSize := by
    unfold fin at hfin
    unfold blockOf headerSize at *
    omega
  rw [HeapSys.realloc, Heap.realloc, if_neg hp0]
  by_cases hn : n = 0
  · rw [if_pos hn, hfree]
    simp [hn, hdrop]
  · rw [if_neg hn, hblock, hmagic, if_pos (by decide)]
    simp [hn]

theorem Ok.store {addr : ℕ} {byte : BitVec 8} (hal : s.Allowed (.store addr byte)) :
    ({ s with heap := { s.heap with mem := update s.heap.mem addr byte } } : HeapSys).Ok avail := by
  obtain ⟨q, hq, hge, hlt⟩ := hal
  have hpe := hok.ptr_eq hq
  have hm : ∀ x, (∀ e ∈ s.blocks, ¬ (e.start + headerSize ≤ x ∧ x < e.fin)) →
      update s.heap.mem addr byte x = s.heap.mem x := by
    intro x hx
    refine update_of_ne (fun hxa => ?_) ..
    subst hxa
    exact hx _ (mem_blocks hq) ⟨by omega, hlt⟩
  have hheap := hok.heap.data hm
  have hsame : ∀ r ∈ s.live,
    ({ s.heap with mem := update s.heap.mem addr byte } : Heap).extent r.1 =
      s.heap.extent r.1 := fun r hr => hok.extent_congr hheap hr (mem_blocks hr)
  refine ⟨?_, fun r hr => ?_, fun p hp => ?_⟩
  · dsimp only [blocks]
    rw [map_congr_left hsame]
    exact hheap
  · dsimp only at hr ⊢
    rw [hsame r hr]
    exact hok.fits r hr
  · obtain ⟨hmod, hmagic, g, hg, hstart, hfin⟩ := hok.freed p hp
    refine ⟨hmod, (Flat.load_congr fun x hx hx' => ?_).trans hmagic, g, hg, hstart, hfin⟩
    refine update_of_ne (fun hxa => ?_) ..
    subst hxa
    refine (hok.heap.apart g hg _ (mem_blocks hq)).not_has ⟨by omega, ?_⟩ ⟨by omega, hlt⟩
    omega

end Steps

def Start (s : HeapSys) : Prop := ∃ mem, s = init mem

theorem Ok.step (hok : s.Ok avail) {act : Action} (hal : s.Allowed act) :
    ∃ t avail', s.step act = some t ∧ t.Ok avail' := by
  cases act with
  | malloc n sbrk =>
    obtain ⟨t, p, avail', hrun, hok', -⟩ := hok.malloc hal
    exact ⟨t, avail', by rw [HeapSys.step, hrun]; rfl, hok'⟩
  | calloc nmemb size sbrk =>
    obtain ⟨t, p, avail', hrun, hok', -⟩ := hok.calloc hal
    exact ⟨t, avail', by rw [HeapSys.step, hrun]; rfl, hok'⟩
  | realloc ptr n sbrk =>
    rcases hal with ⟨rfl, hal⟩ | ⟨hptr, hn, hask⟩ | hptr
    · obtain ⟨t, p, avail', hrun, hok', -⟩ := hok.malloc hal
      exact ⟨t, avail', by rw [HeapSys.step, hok.realloc_null hal, hrun]; rfl, hok'⟩
    · obtain ⟨t, q, avail', hrun, hmoved⟩ := hok.realloc hptr hn hask
      exact ⟨t, avail', by rw [HeapSys.step, hrun]; rfl, hmoved.ok⟩
    · exact ⟨s, avail, by rw [HeapSys.step, hok.realloc_freed hptr]; rfl, hok⟩
  | free ptr =>
    rcases hal with rfl | hptr | hptr
    · refine ⟨s, avail, ?_, hok⟩
      rw [HeapSys.step, HeapSys.free, Heap.free, if_pos rfl, drop_of_notMem hok.zero_not_live]
      rfl
    · obtain ⟨t, avail', hrun, hok', -⟩ := hok.free hptr
      exact ⟨t, avail', hrun, hok'⟩
    · exact ⟨s, avail, hok.free_freed hptr, hok⟩
  | store addr byte => exact ⟨_, avail, rfl, hok.store hal⟩

theorem Ok.reach (h : Reach HeapSys.step Start Allowed s) : ∃ avail, s.Ok avail := by
  refine h.invariant (P := fun s => ∃ avail, s.Ok avail) ?_ fun s a t hs hal hstep => ?_
  · rintro _ ⟨mem, rfl⟩
    exact ⟨[], .init mem⟩
  · obtain ⟨avail, hok⟩ := hs
    obtain ⟨t', avail', hrun, hok'⟩ := hok.step hal
    obtain rfl : t' = t := some.inj (hrun.symm.trans hstep)
    exact ⟨avail', hok'⟩

/-- The free list is in memory and sorted, the blocks are apart and in memory that `sbrk` gave, and
those that the program holds are aligned and as large as it asked for. -/
structure InOrder (s : HeapSys) (avail : List Extent) : Prop where
  list : s.heap.FreeList s.heap.freeList avail
  apart : (avail ++ s.blocks).Pairwise Lib.Extent.Apart
  obtained : ∀ e ∈ avail ++ s.blocks, ∀ x, e.Has x → ∃ r ∈ s.heap.obtained, r.Has x
  live : ∀ q ∈ s.live, q.2 ≤ s.heap.size (q.1 - headerSize) ∧ q.1 % 8 = 0

theorem Ok.size_ge (hok : s.Ok avail) (hq : q ∈ s.live) : q.2 ≤ s.heap.size (q.1 - headerSize) := by
  have := hok.fits q hq
  dsimp only [extent] at this
  omega

theorem Ok.inOrder (hok : s.Ok avail) : s.InOrder avail where
  list := hok.heap.list
  apart := pairwise_append.mpr
    ⟨hok.heap.list.sorted.imp fun h => .inl h, hok.heap.live_apart, hok.heap.apart⟩
  obtained := hok.heap.obtained
  live q hq := by
    have hmod := (hok.heap.shape _ (mem_blocks hq)).start_mod
    have hpe := hok.ptr_eq hq
    refine ⟨hok.size_ge hq, ?_⟩
    unfold headerSize at hpe
    omega

/-- The free list has no two blocks that could be merged. -/
def Coalesced (s : HeapSys) : Prop :=
  ∃ avail, s.heap.FreeList s.heap.freeList avail ∧ Lib.Extent.Separated avail

/-- A program with one block of 24 bytes, in the page at `0x1000` that `sbrk` gave. -/
def oneBlock : Option HeapSys := (init fun _ => 0#8).step (.malloc 24 (some 0x1000))

theorem init_asks (mem : Flat) (hn : sbrkTotal (roundSize n) = 4096) :
    (init mem).heap.Asks n (some 0x1000) := by
  intro prev a _ ha
  obtain rfl : 0x1000 = a := some.inj ha
  rw [hn]
  exact ⟨by decide, by decide, by decide, by decide, fun r hr => by cases hr⟩

theorem oneBlock_spec : ∃ s, oneBlock = some s ∧ Reach HeapSys.step Start Allowed s ∧
    s.live = [(0x1010, 24)] ∧ s.heap.obtained = [⟨0x1000, 4096⟩] := by
  have heval : oneBlock.map (fun s => (s.live, s.heap.obtained)) =
    some ([(0x1010, 24)], [⟨0x1000, 4096⟩]) := by
    decide
  obtain ⟨s, hs, heq⟩ := map_eq_some_iff.mp heval
  have hreach : Reach HeapSys.step Start Allowed s :=
    .next (a := .malloc 24 (some 0x1000)) (.init ⟨fun _ => 0#8, rfl⟩)
      ⟨by decide, init_asks _ (by decide)⟩ hs
  exact ⟨s, hs, hreach, congrArg Prod.fst heq, congrArg Prod.snd heq⟩

/-- The heap stays in order, a free merges neighbours, and a second free changes nothing. -/
theorem heap_in_order (h : Lib.Reach HeapSys.step Start Allowed s) :
    (∃ avail, s.InOrder avail) ∧ (∀ a, s.Allowed a → ∃ t, s.step a = some t) ∧
      (∀ p ∈ s.live.map Prod.fst, ∃ t, s.free p = some t ∧ t.Coalesced) ∧
      (∀ p ∈ s.live.map Prod.fst, ∀ n sbrk, s.Allowed (.realloc p n sbrk) →
        ∃ t q, s.realloc p n sbrk = some (t, q) ∧ (q ≠ p → n = 0 ∨ q ≠ 0 → t.Coalesced)) ∧
      ∀ p ∈ s.freed, s.free p = some s := by
  obtain ⟨avail, hok⟩ := Ok.reach h
  refine ⟨⟨avail, hok.inOrder⟩, fun a hal => ?_, fun p hp => ?_, fun p hp n sbrk hal => ?_,
    fun p hp => hok.free_freed hp⟩
  · obtain ⟨t, -, hrun, -⟩ := hok.step hal
    exact ⟨t, hrun⟩
  · obtain ⟨t, avail', hrun, hok', hsep⟩ := hok.free hp
    exact ⟨t, hrun, avail', hok'.heap.list, hsep⟩
  · rcases hal with ⟨rfl, -⟩ | ⟨-, hn, hask⟩ | hfreed
    · exact absurd hp hok.zero_not_live
    · obtain ⟨t, q, avail', hrun, hmoved⟩ := hok.realloc hp hn hask
      exact ⟨t, q, hrun, fun hne hq => ⟨avail', hmoved.ok.heap.list, hmoved.merged hne hq⟩⟩
    · exact absurd hp (hok.freed_not_live hfreed)

theorem heap_in_order_freedTwice :
    ∃ s, Lib.Reach HeapSys.step Start Allowed s ∧ s.live = [] ∧ s.freed = [0x1010] ∧
    s.free 0x1010 = some s := by
  obtain ⟨s, hs, hreach, hlive, -⟩ := oneBlock_spec
  have heval : (oneBlock.bind (·.free 0x1010)).map (fun t => (t.live, t.freed)) =
    some ([], [0x1010]) := by
    decide
  obtain ⟨t, ht, heq⟩ := map_eq_some_iff.mp heval
  rw [hs, bind_some] at ht
  have hreach' : Reach HeapSys.step Start Allowed t :=
    hreach.next (a := .free 0x1010) (.inr (.inl (by simp [hlive]))) ht
  have hfreed : t.freed = [0x1010] := congrArg Prod.snd heq
  exact ⟨t, hreach', congrArg Prod.fst heq, hfreed,
    (heap_in_order hreach').2.2.2.2 0x1010 (by simp [hfreed])⟩

/-- `malloc(0xFFFFFFFF)` rounds the size to 0 and returns a block of 16 bytes; the request to `sbrk`
is 4096. -/
theorem block_smaller_than_request :
    ∃ s t p, Start s ∧ s.heap.Asks 0xFFFFFFFF (some 0x1000) ∧ s.malloc 0xFFFFFFFF (some 0x1000) =
      some (t, p) ∧ (p, 0xFFFFFFFF) ∈ t.live ∧ t.heap.size (p - headerSize) = 16 := by
  have heval : ((HeapSys.init fun _ => 0#8).malloc 0xFFFFFFFF (some 0x1000)).map
      (fun r => (r.2, r.1.live, r.1.heap.size 0x1000)) =
      some (0x1010, [(0x1010, 0xFFFFFFFF)], 16) := by
    decide
  obtain ⟨⟨t, p⟩, hrun, heq⟩ := map_eq_some_iff.mp heval
  obtain rfl : p = 0x1010 := congrArg Prod.fst heq
  have hlive : t.live = [(0x1010, 0xFFFFFFFF)] := congrArg (·.2.1) heq
  exact ⟨_, t, _, ⟨_, rfl⟩, init_asks _ (by decide), hrun, by simp [hlive], congrArg (·.2.2) heq⟩

/-- The pointer is that of a block the program holds, whose bytes are memory that `sbrk` gave and in
no other block.
-/
structure Usable (s : HeapSys) (p n : ℕ) : Prop where
  held : (p, n) ∈ s.live
  size : n ≤ s.heap.size (p - headerSize)
  obtained : ∀ i < n, ∃ r ∈ s.heap.obtained, r.Has (p + i)
  others : ∀ q ∈ s.live, q.1 ≠ p → ∀ i < n, ¬ (s.heap.extent q.1).Has (p + i)
  free : ∃ avail, s.heap.FreeList s.heap.freeList avail ∧ ∀ e ∈ avail, ∀ i < n, ¬ e.Has (p + i)

theorem Ok.usable (hok : s.Ok avail) {p : ℕ} (hp : (p, n) ∈ s.live) : s.Usable p n := by
  have hpe : p = (s.heap.extent p).start + headerSize := hok.ptr_eq hp
  have hsize : n ≤ s.heap.size (p - headerSize) := hok.size_ge hp
  have hhas : ∀ i < n, (s.heap.extent p).Has (p + i) := fun i hi => by
    refine ⟨by omega, ?_⟩
    change p + i < p - headerSize + (headerSize + s.heap.size (p - headerSize))
    omega
  exact ⟨hp, hsize,
    fun i hi => hok.heap.obtained _ (mem_append_right _ (mem_blocks hp)) _ (hhas i hi),
    fun q hq hne i hi => (hok.apart_of_ne hp hq hne.symm).not_has (hhas i hi), avail, hok.heap.list,
    fun e he i hi => (hok.heap.apart e he _ (mem_blocks hp)).symm.not_has (hhas i hi)⟩

/-- What a request returns is usable, and `realloc` keeps the contents. -/
theorem requests_served (h : Lib.Reach HeapSys.step Start Allowed s) :
    (∀ n sbrk, s.Allowed (.malloc n sbrk) →
      ∃ t p, s.malloc n sbrk = some (t, p) ∧ (p ≠ 0 → t.Usable p n)) ∧
    (∀ nmemb size sbrk, s.Allowed (.calloc nmemb size sbrk) →
      ∃ t p, s.calloc nmemb size sbrk = some (t, p) ∧ (p ≠ 0 → t.Usable p (nmemb * size))) ∧
    ∀ ptr n sbrk, s.Allowed (.realloc ptr n sbrk) →
      ∃ t q, s.realloc ptr n sbrk = some (t, q) ∧ (q ≠ 0 → t.Usable q n ∧ (ptr ≠ 0 →
        ∀ i < min (s.heap.size (ptr - headerSize)) n,
        t.heap.mem (q + i) = s.heap.mem (ptr + i))) := by
  obtain ⟨avail, hok⟩ := Ok.reach h
  refine ⟨fun n sbrk hal => ?_, fun nmemb size sbrk hal => ?_, fun ptr n sbrk hal => ?_⟩
  · obtain ⟨t, p, avail', hrun, hok', hret⟩ := hok.malloc hal
    exact ⟨t, p, hrun, fun hp => hok'.usable (hret.resolve_left hp)⟩
  · obtain ⟨t, p, avail', hrun, hok', hret⟩ := hok.calloc hal
    exact ⟨t, p, hrun, fun hp => hok'.usable (hret.resolve_left hp)⟩
  · rcases hal with ⟨rfl, hal⟩ | ⟨hptr, hn, hask⟩ | hptr
    · obtain ⟨t, p, avail', hrun, hok', hret⟩ := hok.malloc hal
      exact ⟨t, p, (hok.realloc_null hal).trans hrun,
        fun hp => ⟨hok'.usable (hret.resolve_left hp), fun h0 => absurd rfl h0⟩⟩
    · obtain ⟨t, q, avail', hrun, hmoved⟩ := hok.realloc hptr hn hask
      refine ⟨t, q, hrun,
        fun hq => ⟨hmoved.ok.usable (hmoved.returns.resolve_left hq), fun _ i hi => ?_⟩⟩
      refine hmoved.kept hq i ?_
      dsimp only [extent]
      rwa [Nat.add_sub_cancel_left]
    · exact ⟨s, 0, hok.realloc_freed hptr, fun h0 => absurd rfl h0⟩

theorem requests_served_moved :
    ∃ s t q, Lib.Reach HeapSys.step Start Allowed s ∧ s.live = [(0x1010, 24)] ∧
      s.realloc 0x1010 8000 (some 0x2000) = some (t, q) ∧ q = 0x2010 ∧ t.Usable q 8000 ∧
      ∀ i < 24, t.heap.mem (q + i) = s.heap.mem (0x1010 + i) := by
  obtain ⟨s, hs, hreach, hlive, hob⟩ := oneBlock_spec
  have heval : (oneBlock.bind fun s => (s.realloc 0x1010 8000 (some 0x2000)).map
      fun r => (r.2, s.heap.size 0x1000)) = some (0x2010, 24) := by decide
  rw [hs, bind_some] at heval
  have hal : s.Allowed (.realloc 0x1010 8000 (some 0x2000)) := by
    refine .inr (.inl ⟨by simp [hlive], by decide, fun _ prev a _ ha => ?_⟩)
    obtain rfl : 0x2000 = a := some.inj ha
    refine ⟨by decide, by decide, by decide, by decide, fun r hr => ?_⟩
    rw [hob, mem_singleton] at hr
    exact hr ▸ by decide
  obtain ⟨t, q, hrun, huse⟩ := (requests_served hreach).2.2 _ _ _ hal
  rw [hrun, map_some, some.injEq, Prod.mk.injEq] at heval
  obtain ⟨hq, hsize⟩ := heval
  obtain ⟨husable, hdata⟩ := huse (by rw [show q = 0x2010 from hq]; decide)
  refine ⟨s, t, q, hreach, hlive, hrun, hq, husable, fun i hi => hdata (by decide) i ?_⟩
  have hold : s.heap.size (0x1010 - headerSize) = 24 := hsize
  omega

/-- `realloc(p, 0xFFFFFFFF)` rounds the size to 0 and finds the block of 24 bytes large enough. -/
theorem realloc_not_grown :
    ∃ s t, Lib.Reach HeapSys.step Start Allowed s ∧ s.live = [(0x1010, 24)] ∧
      s.realloc 0x1010 0xFFFFFFFF none = some (t, 0x1010) ∧
      t.heap.size (0x1010 - headerSize) = 24 := by
  obtain ⟨s, hs, hreach, hlive, -⟩ := oneBlock_spec
  have heval : (oneBlock.bind fun s => (s.realloc 0x1010 0xFFFFFFFF none).map
      fun r => (r.2, r.1.heap.size 0x1000)) = some (0x1010, 24) := by decide
  rw [hs, bind_some] at heval
  obtain ⟨⟨t, q⟩, hrun, heq⟩ := map_eq_some_iff.mp heval
  obtain rfl : q = 0x1010 := congrArg Prod.fst heq
  exact ⟨s, t, hreach, hlive, hrun, congrArg Prod.snd heq⟩

end HeapSys

end Xnix
