import Mathlib.Tactic.IntervalCases
import Xnix.IdAlloc

/-!
# Identifiers are given out once

The bitmap says exactly which identifiers are in use (`IdTable.Exact`) as long as the bits that a
growth reads past the end of the old bitmap are clear: `(capacity + 31) / 8` bytes are copied, three
more than the first bitmap was asked for, and their bits become bits of new identifiers.
-/

namespace Xnix

namespace IdTable

variable {s t : IdTable} {i id : ℕ}

section Scan

theorem scanBits_eq_some {word : BitVec 32} {capacity : ℕ} : ∀ {left j : ℕ},
    scanBits word capacity i left j = some id → ∃ k, j ≤ k ∧ k < j + left ∧ id = i * 32 + k ∧
      id < capacity ∧ word.getLsbD k = false ∧ ∀ l, j ≤ l → l < k → word.getLsbD l = true
  | left + 1, j, h => by
    simp only [scanBits] at h
    split at h
    · cases h
    split at h
    · rename_i hj
      cases h
      exact ⟨j, le_rfl, by omega, rfl, by omega, hj, by omega⟩
    · rename_i hj
      obtain ⟨k, hjk, hk, hid, hc, hb, hl⟩ := scanBits_eq_some h
      refine ⟨k, by omega, by omega, hid, hc, hb, fun l hl1 hl2 => ?_⟩
      by_cases hlj : l = j
      · simpa [hlj] using hj
      · exact hl l (by omega) hl2

theorem scanBits_eq_none {word : BitVec 32} {capacity : ℕ} : ∀ {left j : ℕ},
    scanBits word capacity i left j = none → ∀ k, j ≤ k → k < j + left → i * 32 + k < capacity →
    word.getLsbD k = true
  | 0, j, _, k, _, _, _ => by omega
  | left + 1, j, h, k, hjk, hk, hc => by
    simp only [scanBits] at h
    split at h
    · omega
    split at h
    · cases h
    · rename_i hj
      by_cases hkj : k = j
      · simpa [hkj] using hj
      · exact scanBits_eq_none h k (by omega) (by omega) hc

variable {b : Lib.Bitmap}

theorem test_of_word {k : ℕ} (hk : k < 32) : b.test (i * 32 + k) = (b i).getLsbD k := by
  rw [Lib.Bitmap.test_eq_getLsbD,
    show (i * 32 + k) / 32 = i by omega, show (i * 32 + k) % 32 = k by omega]

theorem test_of_full {k : ℕ} (h : b i = 0xFFFFFFFF#32) (hk : k / 32 = i) : b.test k = true := by
  rw [Lib.Bitmap.test_eq_getLsbD, hk, h]
  have : k % 32 < 32 := Nat.mod_lt _ (by decide)
  interval_cases k % 32 <;> rfl

theorem scanWords_spec (b : Lib.Bitmap) (capacity : ℕ) :
    ∀ left i, match scanWords b capacity left i with
    | some id => i * 32 ≤ id ∧ id < (i + left) * 32 ∧ id < capacity ∧ b.test id = false ∧
        ∀ k, i * 32 ≤ k → k < id → b.test k = true
    | none => ∀ k, i * 32 ≤ k → k < (i + left) * 32 → k < capacity → b.test k = true
  | 0, i => by
    intro k hk hk'
    omega
  | left + 1, i => by
    have ih := scanWords_spec b capacity left (i + 1)
    -- what is known once word `i` has no clear bit below the capacity
    have hnext : (∀ k, k / 32 = i → k < capacity → b.test k = true) →
      match scanWords b capacity left (i + 1) with
        | some id => i * 32 ≤ id ∧ id < (i + (left + 1)) * 32 ∧ id < capacity ∧ b.test id = false ∧
            ∀ k, i * 32 ≤ k → k < id → b.test k = true
        | none => ∀ k, i * 32 ≤ k → k < (i + (left + 1)) * 32 → k < capacity → b.test k = true := by
      intro hi
      split at ih
      · obtain ⟨h1, h2, hc, hb, hl⟩ := ih
        refine ⟨by omega, by omega, hc, hb, fun k hk hk' => ?_⟩
        by_cases hki : k / 32 = i
        · exact hi k hki (by omega)
        · exact hl k (by omega) hk'
      · intro k hk hk' hc
        by_cases hki : k / 32 = i
        · exact hi k hki hc
        · exact ih k (by omega) (by omega) hc
    simp only [scanWords]
    by_cases hw : b i = 0xFFFFFFFF#32
    · rw [if_pos hw]
      exact hnext fun k hk _ => test_of_full hw hk
    · rw [if_neg hw]
      cases hs : scanBits (b i) capacity i 32 0 with
      | some id =>
        obtain ⟨k, -, hk, rfl, hc, hb, hl⟩ := scanBits_eq_some hs
        refine ⟨by omega, by omega, hc, (test_of_word (by omega)).trans hb, fun l hl1 hl2 => ?_⟩
        have := hl (l - i * 32) (by omega) (by omega)
        rwa [← test_of_word (by omega), show i * 32 + (l - i * 32) = l by omega] at this
      | none =>
        refine hnext fun k hk hc => ?_
        have := scanBits_eq_none hs (k % 32) (by omega) (by omega) (by omega)
        rwa [← test_of_word (by omega), show i * 32 + k % 32 = k by omega] at this

theorem scan_eq_some (h : s.scan = some id) :
    id < s.capacity ∧ s.bitmap.test id = false ∧ ∀ k < id, s.bitmap.test k = true := by
  have := scanWords_spec s.bitmap s.capacity ((s.capacity + 31) / 32) 0
  rw [show scanWords .. = some id from h] at this
  exact ⟨this.2.2.1, this.2.2.2.1, fun k hk => this.2.2.2.2 k (by omega) hk⟩

theorem scan_eq_none (h : s.scan = none) : ∀ k < s.capacity, s.bitmap.test k = true := by
  have := scanWords_spec s.bitmap s.capacity ((s.capacity + 31) / 32) 0
  rw [show scanWords .. = none from h] at this
  exact fun k hk => this k (by omega) (by omega) hk

theorem scan_eq_some_of (hid : id < s.capacity) (hb : s.bitmap.test id = false)
    (hl : ∀ k < id, s.bitmap.test k = true) : s.scan = some id := by
  cases hs : s.scan with
  | none => simp [scan_eq_none hs id hid] at hb
  | some k =>
    obtain ⟨-, hk, hkl⟩ := scan_eq_some hs
    rcases lt_trichotomy k id with h | h | h
    · simp [hl k h] at hk
    · rw [h]
    · simp [hkl id h] at hb

theorem scan_eq_none_of (h : ∀ k < s.capacity, s.bitmap.test k = true) : s.scan = none := by
  cases hs : s.scan with
  | none => rfl
  | some k =>
    obtain ⟨hk, hb, -⟩ := scan_eq_some hs
    simp [h k hk] at hb

end Scan

/-- The bitmap is exact: a bit is set if the identifier is 0 or in use, and no identifier is used
twice. -/
structure Exact (s : IdTable) : Prop where
  capacity_eq : ∃ m, 5 ≤ m ∧ m ≤ 31 ∧ s.capacity = 2 ^ m
  bits : ∀ i < s.capacity, s.bitmap.test i = true ↔ i = 0 ∨ i ∈ s.live
  live_lt : ∀ i ∈ s.live, i < s.capacity
  live_pos : 0 ∉ s.live
  nodup : s.live.Nodup

def Unused (s : IdTable) (i : ℕ) : Prop := i ≠ 0 ∧ i ∉ s.live

/-- What an allocation may answer: the lowest unused identifier, or nothing when there was no
memory. -/
def Answers (s : IdTable) (memory : Option Lib.Bitmap) : Option ℕ → Prop
  | some id => s.Unused id ∧ ∀ k < id, ¬ s.Unused k
  | none => memory = none ∧ ∀ k < s.capacity, ¬ s.Unused k

/-- The bits that a growth takes over from past the bitmap's end are clear, and a signed word can
count the new capacity. -/
def GrowsClean (s : IdTable) : Prop :=
  s.capacity < 2 ^ 31 ∧ ∀ k, s.capacity < k → k < s.capacity + 24 → s.bitmap.test k = false

/-- A growth that gets memory is clean, and no identifier in use is freed once the capacity is
`2 ^ 31`. -/
def Allowed (s : IdTable) : Action → Prop
  | .alloc memory => s.scan = none → memory ≠ none → s.GrowsClean
  | .free id => s.capacity < 2 ^ 31 ∨ id.toNat ∉ s.live

theorem Exact.capacity_ge (h : s.Exact) : 32 ≤ s.capacity := by
  obtain ⟨m, hm, -, hc⟩ := h.capacity_eq
  have : 2 ^ 5 ≤ 2 ^ m := Nat.pow_le_pow_right (by decide) hm
  omega

theorem Exact.capacity_mod (h : s.Exact) : s.capacity % 32 = 0 := by
  obtain ⟨m, hm, -, hc⟩ := h.capacity_eq
  obtain ⟨k, rfl⟩ := Nat.exists_eq_add_of_le hm
  rw [hc, pow_add]
  omega

theorem Exact.unused_iff (h : s.Exact) (hi : i < s.capacity) :
    s.Unused i ↔ s.bitmap.test i = false := by
  rw [← Bool.not_eq_true, h.bits i hi, not_or]
  rfl

theorem Exact.create {max : ℕ} (hmax : ∃ m, 5 ≤ m ∧ m ≤ 31 ∧ (max + 31) / 32 * 32 = 2 ^ m)
    (garbage : Lib.Bitmap) : (create max garbage).Exact where
  capacity_eq := hmax
  bits i hi := by
    have : i < 8 * ((max + 31) / 32 * 32 / 8) := by
      change i < (max + 31) / 32 * 32 at hi
      omega
    simp [IdTable.create, Lib.Bitmap.test_set, Lib.Bitmap.test_zeroBytes, this]
  live_lt i hi := by cases hi
  live_pos := by simp [IdTable.create]
  nodup := List.nodup_nil

theorem Exact.take (h : s.Exact) (hid : id < s.capacity) (hb : s.bitmap.test id = false) :
    (s.take id).Exact where
  capacity_eq := h.capacity_eq
  bits i hi := by
    have := h.bits i hi
    simp only [IdTable.take, Lib.Bitmap.test_set, Bool.or_eq_true, decide_eq_true_eq,
      List.mem_cons, this]
    tauto
  live_lt i hi := by
    rcases List.mem_cons.mp hi with rfl | hi
    · exact hid
    · exact h.live_lt i hi
  live_pos := by
    have hu := (h.unused_iff hid).mpr hb
    simp only [IdTable.take, List.mem_cons, not_or]
    exact ⟨hu.1.symm, h.live_pos⟩
  nodup := List.nodup_cons.mpr ⟨((h.unused_iff hid).mpr hb).2, h.nodup⟩

theorem test_grown (s : IdTable) (garbage : Lib.Bitmap) (k : ℕ) : (s.grown garbage).bitmap.test k =
      if k < 8 * ((s.capacity + 31) / 8) then s.bitmap.test k
      else !decide (k < 8 * ((s.capacity * 2 % 2 ^ 32 + 31) / 8)) && garbage.test k := by
  rw [grown, Lib.Bitmap.test_copyBytes, Lib.Bitmap.test_zeroBytes]

theorem capacity_grown (hc : s.capacity < 2 ^ 31) (garbage : Lib.Bitmap) :
    (s.grown garbage).capacity = s.capacity * 2 := by
  change s.capacity * 2 % 2 ^ 32 = _
  omega

theorem Exact.grown (h : s.Exact) (hclean : s.GrowsClean) (garbage : Lib.Bitmap) :
    ((s.grown garbage).take s.capacity).Exact := by
  have hcap := capacity_grown hclean.1 garbage
  have hge := h.capacity_ge
  have hmod := h.capacity_mod
  constructor
  case capacity_eq =>
    obtain ⟨m, hm, hm', hc⟩ := h.capacity_eq
    have hlt : m ≠ 31 := by
      rintro rfl
      exact absurd hclean.1 (by rw [hc]; decide)
    refine ⟨m + 1, by omega, by omega, ?_⟩
    change (s.grown garbage).capacity = _
    rw [hcap, hc, pow_succ]
  case bits =>
    intro i hi
    change i < (s.grown garbage).capacity at hi
    have hlive : (s.grown garbage).live = s.live := rfl
    simp only [IdTable.take, Lib.Bitmap.test_set, Bool.or_eq_true, decide_eq_true_eq,
      List.mem_cons, hlive]
    by_cases hic : i < s.capacity
    · rw [test_grown, if_pos (by omega), h.bits i hic]
      tauto
    · have hnot : i ∉ s.live := fun hi => hic (h.live_lt i hi)
      have hb : i ≠ s.capacity → (s.grown garbage).bitmap.test i = false := by
        intro hne
        rw [test_grown]
        split
        · exact hclean.2 i (by omega) (by omega)
        · have : i < 8 * ((s.capacity * 2 % 2 ^ 32 + 31) / 8) := by
            have := hclean.1
            omega
          rw [decide_eq_true this]
          rfl
      constructor
      · rintro (hi | hi)
        · exact .inr (.inl hi)
        · by_cases hne : i = s.capacity
          · exact .inr (.inl hne)
          · rw [hb hne] at hi
            cases hi
      · rintro (hi | hi | hi)
        · omega
        · exact .inl hi
        · exact absurd hi hnot
  case live_lt =>
    intro i hi
    change i < (s.grown garbage).capacity
    rcases List.mem_cons.mp hi with rfl | hi
    · omega
    · have := h.live_lt i hi
      omega
  case live_pos =>
    simp only [IdTable.take, List.mem_cons, not_or]
    exact ⟨by omega, h.live_pos⟩
  case nodup =>
    exact List.nodup_cons.mpr ⟨fun hi => absurd (h.live_lt _ hi) (by omega), h.nodup⟩

theorem Exact.free (h : s.Exact) {id : ℤ} (hok : s.Allowed (.free id)) (hf : s.free id = some t) :
    t.Exact := by
  simp only [IdTable.free] at hf
  split at hf
  · rename_i hid
    have hnot : id.toNat ∉ s.live := by
      rcases hok with hc | hnot
      · intro hmem
        have hlt := h.live_lt _ hmem
        have hpos : id.toNat ≠ 0 := fun h0 => h.live_pos (h0 ▸ hmem)
        rcases hid with rfl | hid
        · simp at hpos
        · rw [signedCapacity, if_pos hc] at hid
          omega
      · exact hnot
    rw [List.erase_of_not_mem hnot] at hf
    cases hf
    exact h
  · rename_i hid
    split at hf
    · cases hf
    cases hf
    refine ⟨h.capacity_eq, fun i hi => ?_, fun i hi => h.live_lt i (List.mem_of_mem_erase hi),
      fun hi => h.live_pos (List.mem_of_mem_erase hi), h.nodup.erase _⟩
    have hbit := h.bits i hi
    simp only [Lib.Bitmap.test_clear, Bool.and_eq_true, Bool.not_eq_true',
      decide_eq_false_iff_not, hbit, h.nodup.mem_erase_iff]
    constructor
    · rintro ⟨hne, hi | hi⟩
      · exact .inl hi
      · exact .inr ⟨hne, hi⟩
    · rintro (hi | hi)
      · exact ⟨by omega, .inl hi⟩
      · exact ⟨hi.1, .inr hi.2⟩

theorem Exact.alloc (h : s.Exact) {memory : Option Lib.Bitmap} (hok : s.Allowed (.alloc memory)) :
    ∃ t answer, s.alloc memory = some (t, answer) ∧ s.Answers memory answer ∧ t.Exact ∧
      ∀ id, answer = some id → t.live = id :: s.live := by
  unfold IdTable.alloc
  cases hs : s.scan with
  | some id =>
    obtain ⟨hid, hb, hl⟩ := scan_eq_some hs
    refine ⟨s.take id, some id, rfl, ⟨(h.unused_iff hid).mpr hb, fun k hk => ?_⟩, h.take hid hb, ?_⟩
    · rw [h.unused_iff (by omega), hl k hk]
      exact Bool.noConfusion
    · rintro _ ⟨⟩
      rfl
  | none =>
    have hfull := scan_eq_none hs
    have hused : ∀ k < s.capacity, ¬ s.Unused k := fun k hk => by
      rw [h.unused_iff hk, hfull k hk]
      exact Bool.noConfusion
    cases memory with
    | none => exact ⟨s, none, rfl, ⟨rfl, hused⟩, h, by rintro _ ⟨⟩⟩
    | some garbage =>
      have hclean := hok hs (by simp)
      have hcap := capacity_grown hclean.1 garbage
      have hge := h.capacity_ge
      have hfits : (s.capacity + 31) / 8 ≤ kmallocBlock ((s.capacity * 2 % 2 ^ 32 + 31) / 8) := by
        have := hclean.1
        unfold kmallocBlock
        omega
      have hhalf : (s.grown garbage).capacity / 2 = s.capacity := by omega
      refine ⟨(s.grown garbage).take s.capacity, some s.capacity, ?_, ⟨⟨by omega, ?_⟩, hused⟩,
        h.grown hclean garbage, ?_⟩
      · simp only [grow, if_pos hfits, hhalf]
      · exact fun hi => absurd (h.live_lt _ hi) (by omega)
      · rintro _ ⟨⟩
        rfl

end IdTable

section Runs
open IdTable Lib.Bitmap

/-- The bitmap is exact in every state of a run, and an allocation gives the lowest unused
identifier or fails without memory. -/
def IdsSound (step : IdTable → IdTable.Action → Option IdTable)
    (alloc : IdTable → Option Lib.Bitmap → Option (IdTable × Option ℕ))
    (start : IdTable → Prop) : Prop :=
  ∀ s, Lib.Reach step start Allowed s → s.Exact ∧
    ∀ memory, s.Allowed (.alloc memory) →
      ∃ t answer, alloc s memory = some (t, answer) ∧ s.Answers memory answer ∧
        ∀ id, answer = some id → t.live = id :: s.live

theorem idsSound_of {step : IdTable → IdTable.Action → Option IdTable} {max : ℕ}
    (hmax : ∃ m, 5 ≤ m ∧ m ≤ 31 ∧ (max + 31) / 32 * 32 = 2 ^ m)
    (halloc : ∀ s memory, step s (.alloc memory) = (s.alloc memory).map Prod.fst)
    (hfree : ∀ s id, step s (.free id) = s.free id) (garbage : Lib.Bitmap) :
    IdsSound step alloc (· = .create max garbage) := by
  intro s hs
  have hexact : s.Exact := by
    refine hs.invariant ?_ fun s a t hs hok hstep => ?_
    · rintro _ rfl
      exact .create hmax garbage
    cases a with
    | alloc memory =>
      obtain ⟨t', answer, ha, -, ht, -⟩ := hs.alloc hok
      rw [halloc, ha, Option.map_some, Option.some.injEq] at hstep
      exact hstep ▸ ht
    | free id => exact hs.free hok (hfree s id ▸ hstep)
  refine ⟨hexact, fun memory hok => ?_⟩
  obtain ⟨t, answer, ha, hanswer, -, hlive⟩ := hexact.alloc hok
  exact ⟨t, answer, ha, hanswer, hlive⟩

/-- Allocations after `process_subsystem_init` give out the identifiers from 1 on; nothing past the
capacity changes. -/
theorem pids_in_order (garbage : Lib.Bitmap) : ∀ n < 1024,
    ∃ s, Lib.run pidStep (pidInit garbage) (List.replicate n (.alloc none)) = some s ∧ s.Exact ∧
      s.capacity = 1024 ∧ (∀ i, i ∈ s.live ↔ 0 < i ∧ i ≤ n) ∧
      ∀ k, 1024 ≤ k → s.bitmap.test k = garbage.test k
  | 0, _ => by
    refine ⟨_, rfl, .create ⟨10, by decide⟩ garbage, rfl, fun i => ?_, fun k hk => ?_⟩
    · simp only [pidInit, create, List.not_mem_nil, false_iff]
      omega
    · have h1 : k ≠ 0 := by omega
      have h2 : ¬ k < 1024 := by omega
      simp [pidInit, create, cfgMaxProcesses, test_set, test_zeroBytes, h1, h2]
  | n + 1, hn => by
    obtain ⟨s, hrun, hs, hcap, hlive, hpast⟩ := pids_in_order garbage n (by omega)
    have hbits : ∀ k < 1024, s.bitmap.test k = true ↔ k ≤ n := fun k hk => by
      rw [hs.bits k (by omega), hlive]
      omega
    have hb : s.bitmap.test (n + 1) = false := by
      rw [← Bool.not_eq_true, hbits _ hn]
      omega
    have hscan : s.scan = some (n + 1) :=
      scan_eq_some_of (by omega) hb fun k hk => (hbits k (by omega)).mpr (by omega)
    refine ⟨s.take (n + 1), ?_, hs.take (by omega) hb, hcap, fun i => ?_, fun k hk => ?_⟩
    · rw [List.replicate_succ', Lib.run_append, hrun]
      simp [Lib.run, pidStep, processAllocPid, alloc, hscan]
    · simp only [take, List.mem_cons, hlive]
      omega
    · rw [take, test_set_of_ne (by omega), hpast k hk]

theorem scan_eq_none_of_live {s : IdTable} (hs : s.Exact) (hcap : s.capacity = 1024)
    (hlive : ∀ i, i ∈ s.live ↔ 0 < i ∧ i ≤ 1023) : s.scan = none :=
  scan_eq_none_of fun k hk => by
    rw [hs.bits k hk, hlive]
    omega

/-- Of the two tables of the kernel, for pids and for tids. -/
theorem ids_sound (garbage : Lib.Bitmap) : IdsSound pidStep processAllocPid (· = pidInit garbage) ∧
      IdsSound tidStep tidAlloc (· = tidInit garbage) :=
  ⟨idsSound_of ⟨10, by decide⟩ (fun _ _ => rfl) (fun _ _ => rfl) garbage,
    idsSound_of ⟨12, by decide⟩ (fun _ _ => rfl) (fun _ _ => rfl) garbage⟩

theorem ids_sound_firstGrowth :
    ∃ s t answer, Lib.Reach pidStep (· = pidInit fun _ => 0#32) Allowed s ∧ s.scan = none ∧
      s.GrowsClean ∧ processAllocPid s (some fun _ => 2#32) = some (t, answer) ∧
      s.Answers (some fun _ => 2#32) answer := by
  obtain ⟨s, hrun, hs, hcap, hlive, hpast⟩ := pids_in_order (fun _ => 0#32) 1023 (by decide)
  have hreach : Lib.Reach pidStep (· = pidInit fun _ => 0#32) Allowed s := by
    refine Lib.Reach.of_run _ (.init rfl) (fun t a ha => ?_) hrun
    rw [List.eq_of_mem_replicate ha]
    exact fun _ h => absurd rfl h
  have hclean : s.GrowsClean := by
    refine ⟨by omega, fun k hk _ => ?_⟩
    rw [hpast k (by omega), test_eq_getLsbD]
    simp
  obtain ⟨t, answer, ha, hanswer, -⟩ :=
    ((ids_sound fun _ => 0#32).1 s hreach).2 (some fun _ => 2#32) fun _ _ => hclean
  exact ⟨s, t, answer, hreach, scan_eq_none_of_live hs hcap hlive, hclean, ha, hanswer⟩

/-- The word that `kzalloc` left behind the first PID bitmap makes the growth mark PID 1025, which
no process has: the next allocation gives out 1026. -/
theorem pid_lost_to_garbage :
    ∃ s t u, Lib.Reach pidStep (fun s => ∃ garbage, s = pidInit garbage) (fun _ _ => True) s ∧
      processAllocPid s (some fun _ => 0#32) = some (t, some 1024) ∧
      t.Unused 1025 ∧ 1025 < t.capacity ∧ t.bitmap.test 1025 = true ∧
      processAllocPid t none = some (u, some 1026) := by
  obtain ⟨s, hrun, hs, hcap, hlive, hpast⟩ := pids_in_order (fun _ => 2#32) 1023 (by decide)
  have hbits : ∀ k < 1024, s.bitmap.test k = true := fun k hk => by
    rw [hs.bits k (by omega), hlive]
    omega
  have hfull : s.scan = none := scan_eq_none_of_live hs hcap hlive
  have hcap' : (s.grown fun _ => 0#32).capacity = 2048 := by
    rw [capacity_grown (by omega), hcap]
  have hnew : ∀ k, ((s.grown fun _ => 0#32).take 1024).bitmap.test k =
      (decide (k = 1024) || if k < 1048 then s.bitmap.test k else false) := fun k => by
    rw [take, test_set, test_grown, hcap]
    simp [test_eq_getLsbD]
  have h1025 : s.bitmap.test 1025 = true := (hpast 1025 (by decide)).trans (by decide)
  have h1026 : s.bitmap.test 1026 = false := (hpast 1026 (by decide)).trans (by decide)
  have hscan : ((s.grown fun _ => 0#32).take 1024).scan = some 1026 := by
    refine scan_eq_some_of (by rw [take, hcap']; decide) ?_ fun k hk => ?_
    · rw [hnew]
      simp [h1026]
    · rw [hnew]
      by_cases hk' : k < 1024
      · simp [hbits k hk', show k < 1048 by omega]
      · obtain rfl | rfl : k = 1024 ∨ k = 1025 := by omega
        · rfl
        · simp [h1025]
  refine ⟨s, (s.grown fun _ => 0#32).take 1024, ((s.grown fun _ => 0#32).take 1024).take 1026,
    Lib.Reach.of_run _ (.init ⟨_, rfl⟩) (fun _ _ _ => trivial) hrun, ?_, ?_, ?_, ?_, ?_⟩
  · simp [processAllocPid, alloc, hfull, grow, hcap, hcap', kmallocBlock]
  · refine ⟨by decide, fun hmem => ?_⟩
    rcases List.mem_cons.mp hmem with h | h
    · cases h
    · exact absurd ((hlive 1025).mp h).2 (by decide)
  · rw [take, hcap']
    decide
  · rw [hnew]
    simp [h1025]
  · simp [processAllocPid, alloc, hscan]

end Runs

end Xnix
