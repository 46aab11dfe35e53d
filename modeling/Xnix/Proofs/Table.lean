import Mathlib.Tactic.NormNum
import Xnix.Handle
import Xnix.Lib.Tally

/-!
# What the handle allocators do to a table

Each allocator leaves the table as it was, or extends it by free slots and writes the entry into a
free one, or (when the capacity computed from a hint wraps) writes outside it.
-/

namespace Xnix

open List Option

variable {Oid : Type} {m : Mem} {t t' : HandleTable Oid} {e : HandleEntry Oid} {hint : ℕ}
  {s : Slot} {n : ℕ} {u : HandleTable Oid}

def Extends (t t' : HandleTable Oid) : Prop := ∃ n, t' = t ++ replicate n none

/-- What an allocator may do: nothing, a write into a free slot of the extended table, or a write
outside it. -/
inductive Allocated (t : HandleTable Oid) (e : HandleEntry Oid) : HandleTable Oid → Slot → Prop
  | refused : Allocated t e t .invalid
  | placed {u : HandleTable Oid} {h : ℕ} : Extends t u → u[h]? = some none →
      Allocated t e (u.set h (some e)) (.at h)
  | stray {u : HandleTable Oid} {h : ℕ} : Extends t u → u.length ≤ h → Allocated t e u (.stray h)

theorem Extends.refl (t : HandleTable Oid) : Extends t t := ⟨0, by simp⟩

theorem Extends.trans (h : Extends t t') (h' : Extends t' u) : Extends t u := by
  obtain ⟨n, rfl⟩ := h
  obtain ⟨n', rfl⟩ := h'
  exact ⟨n + n', by rw [append_assoc, replicate_append_replicate]⟩

theorem Extends.length_le (h : Extends t t') : t.length ≤ t'.length := by
  obtain ⟨n, rfl⟩ := h
  simp

theorem Extends.getElem? (h : Extends t t') {i : ℕ} {v : HandleEntry Oid} :
    t'[i]? = some (some v) ↔ t[i]? = some (some v) := by
  obtain ⟨n, rfl⟩ := h
  by_cases hi : i < t.length
  · rw [getElem?_append_left hi]
  · rw [getElem?_append_right (by omega), getElem?_eq_none (l := t) (by omega), getElem?_replicate]
    split <;> simp

theorem Extends.countP {p : Option (HandleEntry Oid) → Bool} (h : Extends t t')
    (hp : p none = false) : t'.countP p = t.countP p := by
  obtain ⟨n, rfl⟩ := h
  exact Lib.countP_append_replicate p t n none hp

theorem Allocated.mono (h : Extends t u) (ha : Allocated u e t' s)
    (hs : s ≠ .invalid) : Allocated t e t' s := by
  cases ha with
  | refused => exact absurd rfl hs
  | placed hu hn => exact .placed (h.trans hu) hn
  | stray hu hn => exact .stray (h.trans hu) hn

theorem getElem?_of_set_none {h i : ℕ} (he : (t.set h none)[i]? = some (some e)) :
    t[i]? = some (some e) := by
  rw [getElem?_set] at he
  split_ifs at he
  · cases he
  · exact he

theorem extends_growTo (t : HandleTable Oid) (n : ℕ) : Extends t (growTo t n) := ⟨_, rfl⟩

theorem length_growTo (h : t.length < n) : (growTo t n).length = n := by
  simp only [growTo, length_append, length_replicate]
  omega

section Krealloc
variable {n size : ℕ}

theorem kmallocRoom_le (size : ℕ) : kmallocRoom size ≤ size + pageSize - 1 := by
  unfold kmallocRoom kmallocPages sizeofKmallocHeader pageSize
  omega

theorem le_kmallocRoom (hs : size + sizeofKmallocHeader < 2 ^ 32) (hp : 0 < kmallocPages size) :
    size ≤ kmallocRoom size := by
  unfold kmallocRoom kmallocPages sizeofKmallocHeader pageSize at *
  omega

theorem kmallocFits_iff : kmallocFits size = true ↔
      0 < kmallocPages size ∧ kmallocPages size * pageSize ≤ kernelDirectMap := by
  simp [kmallocFits]

theorem kreallocTable_cases {r : Option (HandleTable Oid)} (h : kreallocTable m t n = some r) :
    r = none ∨ (r = some (growTo t n) ∧ t.length < n ∧
      (TableFits t → t.length * 2 ≤ n → n * sizeofHandleEntry ≤ kernelDirectMap)) := by
  simp only [kreallocTable] at h
  split_ifs at h with hzero hold hroom hgrant hroom
  · refine .inr ⟨(some.inj h).symm, hroom.2, fun ht hn => ?_⟩
    have hbig := hroom.1.trans (kmallocRoom_le _)
    unfold sizeofHandleEntry pageSize kernelDirectMap at *
    omega
  · refine .inr ⟨(some.inj h).symm, hroom.2, fun _ _ => ?_⟩
    have hfit := (kmallocFits_iff.mp hgrant.2).2
    have hle := hroom.1
    unfold kmallocRoom at hle
    omega
  · exact .inl (some.inj h).symm

theorem kreallocTable_total (hb : n * sizeofHandleEntry + sizeofKmallocHeader < 2 ^ 32)
    (hn : t.length < n) : ∃ r, kreallocTable m t n = some r := by
  have hmod : n * sizeofHandleEntry % 2 ^ 32 = n * sizeofHandleEntry := Nat.mod_eq_of_lt (by omega)
  have hne : n * sizeofHandleEntry ≠ 0 := by
    unfold sizeofHandleEntry
    omega
  simp only [kreallocTable, hmod, hne, if_false]
  split_ifs with hold hroom hgrant hroom
  · exact ⟨_, rfl⟩
  · exact absurd ⟨hold, hn⟩ hroom
  · exact ⟨_, rfl⟩
  · exact absurd ⟨le_kmallocRoom hb (kmallocFits_iff.mp hgrant.2).1, hn⟩ hroom
  · exact ⟨_, rfl⟩

end Krealloc

theorem double_lt (ht : TableFits t) : t.length * 2 % 2 ^ 32 = t.length * 2 ∧
      t.length * 2 * sizeofHandleEntry + sizeofKmallocHeader < 2 ^ 32 := by
  have h := ht.le
  unfold sizeofHandleEntry kernelDirectMap sizeofKmallocHeader at *
  omega

theorem handleAllocIn_cases (h : handleAllocIn m t e = some (t', s)) :
    Allocated t e t' s ∧ (∀ i, s ≠ .stray i) ∧ (TableFits t → TableFits t') := by
  unfold handleAllocIn at h
  rcases hfree : t.findIdx? isNone with _ | i
  · simp only [hfree, map_eq_some_iff] at h
    obtain ⟨r, hr, heq⟩ := h
    rcases kreallocTable_cases hr with rfl | ⟨rfl, hlt, hle⟩
    · simp only [Prod.mk.injEq] at heq
      obtain ⟨rfl, rfl⟩ := heq
      exact ⟨.refused, by simp, id⟩
    · simp only [Prod.mk.injEq] at heq
      obtain ⟨rfl, rfl⟩ := heq
      have hlen := length_growTo hlt
      refine ⟨.placed (extends_growTo t _) ?_, by simp, fun ht => ⟨?_, ?_⟩⟩
      · unfold growTo
        rw [getElem?_append_right (le_refl _), getElem?_replicate]
        simp only [Nat.sub_self, ite_eq_left_iff]
        omega
      · rw [length_set, hlen]; omega
      · rw [length_set, hlen]
        exact hle ht (double_lt ht).1.ge
  · simp only [hfree, some.injEq, Prod.mk.injEq] at h
    obtain ⟨rfl, rfl⟩ := h
    obtain ⟨hi, hnone, -⟩ := findIdx?_eq_some_iff_getElem.mp hfree
    refine ⟨.placed (.refl t) ?_, by simp, fun ht => ⟨by rw [length_set]; exact ht.pos,
      by rw [length_set]; exact ht.le⟩⟩
    rw [getElem?_eq_getElem hi, isNone_iff_eq_none.mp hnone]

theorem handleAllocIn_total (ht : TableFits t) (m : Mem) (e : HandleEntry Oid) :
    ∃ r, handleAllocIn m t e = some r := by
  unfold handleAllocIn
  rcases hfree : t.findIdx? isNone with _ | i
  · obtain ⟨hmod, hb⟩ := double_lt ht
    have hpos := ht.pos
    obtain ⟨r, hr⟩ := kreallocTable_total (t := t) hb (by omega)
    rw [hmod, hr]
    exact ⟨_, rfl⟩
  · exact ⟨_, rfl⟩

theorem handleWriteAt_cases (h : handleWriteAt m t e hint = some (t', s)) :
    Allocated t e t' s ∧ (hint < t.length → ∀ i, s ≠ .stray i) ∧ (TableFits t → TableFits t') := by
  unfold handleWriteAt at h
  split_ifs at h with hin hz
  · split at h
    · rename_i hslot
      obtain ⟨rfl, rfl⟩ := h
      exact ⟨.placed (.refl t) hslot, by simp, fun ht => ⟨by rw [length_set]; exact ht.pos,
        by rw [length_set]; exact ht.le⟩⟩
    · obtain ⟨ha, hs, hf⟩ := handleAllocIn_cases h
      exact ⟨ha, fun _ => hs, hf⟩
  · simp only [some.injEq, Prod.mk.injEq] at h
    obtain ⟨rfl, rfl⟩ := h
    exact ⟨.stray (.refl t) (by omega), fun hlt => absurd hlt hin, id⟩
  · obtain ⟨ha, hs, hf⟩ := handleAllocIn_cases h
    exact ⟨ha, fun _ => hs, hf⟩

theorem handleWriteAt_total (ht : TableFits t) (m : Mem) (e : HandleEntry Oid) (hint : ℕ) :
    ∃ r, handleWriteAt m t e hint = some r := by
  unfold handleWriteAt
  split_ifs
  · split
    · exact ⟨_, rfl⟩
    · exact handleAllocIn_total ht m e
  · exact ⟨_, rfl⟩
  · exact handleAllocIn_total ht m e

theorem hintCap_of_hintOk (ht : TableFits t) (hok : HintOk t hint) (hne : hint ≠ handleInvalid)
    (hge : ¬ hint < t.length) :
    hint < hintCap t hint ∧ hintCap t hint * sizeofHandleEntry + sizeofKmallocHeader < 2 ^ 32 := by
  obtain ⟨hmod, hb⟩ := double_lt ht
  rcases hok with h | h | h
  · exact absurd h hne
  · exact absurd h hge
  · unfold hintCap
    unfold sizeofHandleEntry sizeofKmallocHeader at *
    omega

theorem double_le_hintCap (ht : TableFits t) (hint : ℕ) : t.length * 2 ≤ hintCap t hint := by
  have hmod := (double_lt ht).1
  unfold hintCap
  omega

/-- After a granted growth there is a free slot, so the entry is placed somewhere. -/
theorem handleWriteAt_grown (hlt : t.length < n)
    (h : handleWriteAt m (growTo t n) e hint = some (t', s)) : s ≠ .invalid := by
  have hfree : ∃ i, (growTo t n).findIdx? isNone = some i := by
    rw [← Option.isSome_iff_exists, List.findIdx?_isSome, List.any_eq_true]
    refine ⟨none, ?_, rfl⟩
    exact mem_append_right _ (mem_replicate.mpr ⟨by omega, rfl⟩)
  obtain ⟨i, hi⟩ := hfree
  have halloc : handleAllocIn m (growTo t n) e
      = some ((growTo t n).set i (some e), .at i) := by
    unfold handleAllocIn
    rw [hi]
  unfold handleWriteAt at h
  rw [halloc] at h
  rintro rfl
  split_ifs at h
  · split at h <;> simp at h
  · simp at h
  · simp at h

theorem handleAllocAtIn_cases (h : handleAllocAtIn m t e hint = some (t', s)) :
    Allocated t e t' s ∧ (TableFits t → TableFits t') ∧
      ((hint ≠ handleInvalid → TableFits t) → HintOk t hint → ∀ i, s ≠ .stray i) := by
  unfold handleAllocAtIn at h
  split_ifs at h with hinv hlt
  · obtain ⟨ha, hs, hf⟩ := handleAllocIn_cases h
    exact ⟨ha, hf, fun _ _ => hs⟩
  · obtain ⟨ha, hs, hf⟩ := handleWriteAt_cases h
    exact ⟨ha, hf, fun _ _ => hs hlt⟩
  · rw [bind_eq_some_iff] at h
    obtain ⟨r, hr, h⟩ := h
    rcases kreallocTable_cases hr with rfl | ⟨rfl, hgt, hle⟩
    · simp only [some.injEq, Prod.mk.injEq] at h
      obtain ⟨rfl, rfl⟩ := h
      exact ⟨.refused, id, by simp⟩
    · simp only at h
      obtain ⟨ha, hs, hf⟩ := handleWriteAt_cases h
      have hlen := length_growTo hgt
      refine ⟨ha.mono (extends_growTo t _) (handleWriteAt_grown hgt h), fun ht => hf ⟨?_, ?_⟩,
        fun ht hok => hs ?_⟩
      · omega
      · rw [hlen]; exact hle ht (double_le_hintCap ht hint)
      · rw [hlen]; exact (hintCap_of_hintOk (ht hinv) hok hinv hlt).1

theorem handleAllocAtIn_total (ht : TableFits t) (hok : HintOk t hint) (m : Mem)
    (e : HandleEntry Oid) : ∃ r, handleAllocAtIn m t e hint = some r := by
  unfold handleAllocAtIn
  split_ifs with hinv hlt
  · exact handleAllocIn_total ht m e
  · exact handleWriteAt_total ht m e hint
  · obtain ⟨hgt, hb⟩ := hintCap_of_hintOk ht hok hinv hlt
    obtain ⟨r, hr⟩ := kreallocTable_total (t := t) hb (by omega)
    rw [hr]
    rcases kreallocTable_cases hr with rfl | ⟨rfl, hgt', hle⟩
    · exact ⟨_, rfl⟩
    · have hlen := length_growTo hgt'
      exact handleWriteAt_total
        ⟨by omega, by rw [hlen]; exact hle ht (double_le_hintCap ht hint)⟩ m e hint

theorem tableFits_handleTableCreate : TableFits (handleTableCreate : HandleTable Oid) := by
  unfold handleTableCreate cfgHandleTableSize
  constructor
  · rw [length_replicate]
    norm_num
  · rw [length_replicate]
    unfold sizeofHandleEntry kernelDirectMap
    norm_num

/-- `krealloc` refuses this capacity whatever is free: the block is larger, and `alloc_pages` is
asked for no page or more than the direct map has. -/
def KreallocRefuses (t : HandleTable Oid) (newCap : ℕ) : Prop :=
  newCap * sizeofHandleEntry % 2 ^ 32 ≠ 0 ∧
    kmallocRoom (t.length * sizeofHandleEntry) < newCap * sizeofHandleEntry % 2 ^ 32 ∧
    ¬ kmallocFits (newCap * sizeofHandleEntry % 2 ^ 32)

/-- The hints for which neither the capacity nor its size in bytes is taken modulo `2 ^ 32`, and
those whose growth is refused. -/
def HintFits (t : HandleTable Oid) (hint : ℕ) : Prop :=
  hint = handleInvalid ∨ hint < t.length ∨ KreallocRefuses t (hintCap t hint) ∨
    (hint + 16 < 2 ^ 32 ∧ hintCap t hint * sizeofHandleEntry + sizeofKmallocHeader < 2 ^ 32)

/-- What `handle_alloc_at` owes its caller: a failure that changes nothing, or a free index below
the capacity that now holds the entry with the others as they were, and a capacity that did not
shrink and has room. -/
structure SlotGiven (t : HandleTable Oid) (e : HandleEntry Oid) (t' : HandleTable Oid) (s : Slot) :
    Prop where
  slot : s = .invalid ∧ t' = t ∨ ∃ h, s = .at h ∧ h < t'.length ∧ (∀ v, t[h]? ≠ some (some v)) ∧
    t'[h]? = some (some e) ∧ ∀ i < t.length, i ≠ h → t'[i]? = t[i]?
  capacity : t.length ≤ t'.length
  room : t'.length * sizeofHandleEntry ≤ kmallocRoom (t'.length * sizeofHandleEntry)

theorem TableFits.room (ht : TableFits t) :
    t.length * sizeofHandleEntry ≤ kmallocRoom (t.length * sizeofHandleEntry) := by
  have hle : t.length * sizeofHandleEntry ≤ 512 * 2 ^ 20 := ht.le
  refine le_kmallocRoom (by unfold sizeofKmallocHeader; omega) ?_
  unfold kmallocPages sizeofKmallocHeader pageSize
  omega

theorem Allocated.slotGiven (ha : Allocated t e t' s) (hs : ∀ i, s ≠ .stray i)
    (hfit : TableFits t') : SlotGiven t e t' s := by
  cases ha with
  | refused => exact ⟨.inl ⟨rfl, rfl⟩, le_rfl, hfit.room⟩
  | @placed u h hext hfree =>
    have hlt : h < u.length := (List.getElem?_eq_some_iff.mp hfree).1
    refine ⟨.inr ⟨h, rfl, by rw [length_set]; exact hlt, ?_, ?_, ?_⟩, ?_, hfit.room⟩
    · intro v hv
      rw [← hext.getElem?, hfree] at hv
      cases hv
    · rw [getElem?_set_self hlt]
    · intro i hi hne
      obtain ⟨n, rfl⟩ := hext
      rw [getElem?_set_ne hne.symm, getElem?_append_left hi]
    · rw [length_set]; exact hext.length_le
  | stray => exact absurd rfl (hs _)

theorem kreallocTable_refused_iff :
    kreallocTable ⟨true, m.strayZero⟩ t n = some none ↔ KreallocRefuses t n := by
  simp only [kreallocTable, KreallocRefuses, true_and]
  split_ifs with hzero hold hroom hfit hroom
  · exact ⟨nofun, fun h => absurd hzero h.1⟩
  · exact ⟨nofun, fun h => absurd h.2.1 (Nat.not_lt.mpr hold)⟩
  · exact ⟨nofun, fun h => absurd h.2.1 (Nat.not_lt.mpr hold)⟩
  · exact ⟨nofun, fun h => absurd hfit h.2.2⟩
  · exact ⟨nofun, fun h => absurd hfit h.2.2⟩
  · exact ⟨fun _ => ⟨hzero, Nat.not_le.mp hold, hfit⟩, fun _ => rfl⟩

theorem kreallocTable_of_refuses (h : KreallocRefuses t n) (m : Mem) :
    kreallocTable m t n = some none := by
  obtain ⟨hzero, hold, hfit⟩ := h
  simp only [kreallocTable]
  rw [if_neg hzero, if_neg (Nat.not_le.mpr hold), if_neg (fun hg => hfit hg.2)]

theorem hintFits_of_grown (hge : ¬ hint < t.length)
    (hn : hintCap t hint * sizeofHandleEntry ≤ kernelDirectMap) (hlt : hint < hintCap t hint) :
    HintFits t hint := by
  refine .inr (.inr (.inr ?_))
  unfold sizeofHandleEntry kernelDirectMap sizeofKmallocHeader at *
  omega

/-- Whatever memory answers, `handle_alloc_at` gives a slot: exactly for these hints. -/
theorem slot_given_iff_hintFits (ht : TableFits t) (hint : ℕ) (e : HandleEntry Oid) :
    (∀ m, ∃ t' s, handleAllocAtIn m t e hint = some (t', s) ∧ SlotGiven t e t' s) ↔
    HintFits t hint := by
  constructor
  · intro h
    by_cases hinv : hint = handleInvalid
    · exact .inl hinv
    by_cases hlt : hint < t.length
    · exact .inr (.inl hlt)
    obtain ⟨t', s, hrun, hgiven⟩ := h ⟨true, true⟩
    rw [handleAllocAtIn, if_neg hinv, if_neg hlt, bind_eq_some_iff] at hrun
    obtain ⟨r, hr, hrun⟩ := hrun
    rcases kreallocTable_cases hr with rfl | ⟨rfl, hgt, hle⟩
    · exact .inr (.inr (.inl (kreallocTable_refused_iff (m := ⟨true, true⟩).mp hr)))
    · have hcap := hle ht (double_le_hintCap ht hint)
      by_cases hin : hint < hintCap t hint
      · exact hintFits_of_grown hlt hcap hin
      · simp only [handleWriteAt, length_growTo hgt, if_neg hin, if_true, some.injEq,
          Prod.mk.injEq] at hrun
        obtain ⟨-, rfl⟩ := hrun
        rcases hgiven.slot with ⟨hs, -⟩ | ⟨i, hs, -⟩ <;> cases hs
  · intro hfits m
    have hok : HintOk t hint ∨ KreallocRefuses t (hintCap t hint) ∧ hint ≠ handleInvalid ∧
      ¬ hint < t.length := by
      by_cases hinv : hint = handleInvalid
      · exact .inl (.inl hinv)
      by_cases hlt : hint < t.length
      · exact .inl (.inr (.inl hlt))
      rcases hfits with h | h | h | ⟨h16, hcap⟩
      · exact absurd h hinv
      · exact absurd h hlt
      · exact .inr ⟨h, hinv, hlt⟩
      · refine .inl (.inr (.inr ?_))
        unfold hintCap sizeofHandleEntry at hcap
        unfold sizeofHandleEntry
        omega
    rcases hok with hok | ⟨href, hinv, hlt⟩
    · obtain ⟨⟨t', s⟩, hrun⟩ := handleAllocAtIn_total ht hok m e
      obtain ⟨ha, hfit, hs⟩ := handleAllocAtIn_cases hrun
      exact ⟨t', s, hrun, ha.slotGiven (hs (fun _ => ht) hok) (hfit ht)⟩
    · refine ⟨t, .invalid, ?_, Allocated.slotGiven .refused (by simp) ht⟩
      rw [handleAllocAtIn, if_neg hinv, if_neg hlt, kreallocTable_of_refuses href]
      rfl

theorem length_handleTableCreate :
    (handleTableCreate : HandleTable Oid).length = cfgHandleTableSize := length_replicate

theorem slot_given_iff_hintFits_created : TableFits (handleTableCreate : HandleTable Unit) ∧
    ∀ m, ∃ t' s, handleAllocAtIn m handleTableCreate (freshEntry .event () []) 2000 = some (t', s) ∧
      SlotGiven handleTableCreate (freshEntry .event () []) t' s := by
  refine ⟨tableFits_handleTableCreate, ?_⟩
  refine (slot_given_iff_hintFits tableFits_handleTableCreate 2000 _).mpr ?_
  refine .inr (.inr (.inr ?_))
  rw [hintCap, length_handleTableCreate]
  decide

/-- `hint + 16` wraps to zero: the table doubles, and the entry goes outside it. -/
theorem slot_outside_table :
    ∃ m t', handleAllocAtIn m handleTableCreate (freshEntry .event () []) 0xFFFFFFF0
        = some (t', .stray 0xFFFFFFF0) ∧ TableFits (handleTableCreate : HandleTable Unit) ∧
      ∀ t' s, handleAllocAtIn m handleTableCreate (freshEntry .event () []) 0xFFFFFFF0 =
        some (t', s) → ¬ SlotGiven handleTableCreate (freshEntry .event () []) t' s := by
  have hrun : handleAllocAtIn ⟨true, true⟩ handleTableCreate (freshEntry .event () []) 0xFFFFFFF0
      = some (growTo handleTableCreate 2048, .stray 0xFFFFFFF0) := by
    have hcap : hintCap (handleTableCreate : HandleTable Unit) 0xFFFFFFF0 = 2048 := by
      rw [hintCap, length_handleTableCreate]; rfl
    have hgrow : kreallocTable ⟨true, true⟩ (handleTableCreate : HandleTable Unit) 2048
        = some (some (growTo handleTableCreate 2048)) := by
      simp only [kreallocTable, length_handleTableCreate]
      rfl
    rw [handleAllocAtIn, if_neg (by decide), length_handleTableCreate, if_neg (by decide),
      hcap, hgrow]
    simp only [bind_some, handleWriteAt]
    rw [length_growTo (by rw [length_handleTableCreate]; decide)]
    rfl
  refine ⟨⟨true, true⟩, _, hrun, tableFits_handleTableCreate, fun t' s h hgiven => ?_⟩
  rw [hrun, some.injEq, Prod.mk.injEq] at h
  obtain ⟨-, rfl⟩ := h
  rcases hgiven.slot with ⟨hs, -⟩ | ⟨i, hs, -⟩ <;> cases hs

end Xnix
