import Xnix.Proofs.PageMaps
import Xnix.UserCopy

/-!
# Copies from and to user space are exact

Which ranges `copy_from_user` and `copy_to_user` accept, and what they copy, in terms of the entries
that the processor checks for an access from user space.
-/

namespace Xnix

open List Option Lib

namespace Vmm

variable {s s' : Vmm} {cpu : Cpu} {t d pd a n v v' c : ℕ} {write : Bool} {bytes : List (BitVec 8)}

def userPte (s : Vmm) (d v : ℕ) : BitVec 32 := s.mem (pageOf (s.mem d (pdIndex v))) (ptIndex v)

/-- Code of the user can read the page, or write to it: both entries are present, the user's, and
for a store writable. -/
structure Accessible (s : Vmm) (d v : ℕ) (write : Bool) : Prop where
  pde_present : hasBit (s.mem d (pdIndex v)) ptePresent = true
  pde_user : hasBit (s.mem d (pdIndex v)) pteUser = true
  pte_present : hasBit (s.userPte d v) ptePresent = true
  pte_user : hasBit (s.userPte d v) pteUser = true
  writable : write = true → hasBit (s.mem d (pdIndex v)) pteRw = true ∧
    hasBit (s.userPte d v) pteRw = true

def frame (s : Vmm) (d v : ℕ) : ℕ := pageOf (s.userPte d v)
def physAddr (s : Vmm) (d v : ℕ) : ℕ := s.frame d v + v % pageSize

theorem entries_congr (h : v / pageSize = v' / pageSize) :
    pdIndex v = pdIndex v' ∧ ptIndex v = ptIndex v' := by
  simp only [pdIndex, ptIndex, pageSize] at *
  omega

theorem userPte_congr (h : v / pageSize = v' / pageSize) : s.userPte d v = s.userPte d v' := by
  rw [userPte, userPte, (entries_congr h).1, (entries_congr h).2]

theorem Accessible.congr (ha : s.Accessible d v write) (h : v / pageSize = v' / pageSize) :
    s.Accessible d v' write := by
  have hpte := userPte_congr (s := s) (d := d) h
  have hpd := (entries_congr h).1
  exact ⟨hpd ▸ ha.pde_present, hpd ▸ ha.pde_user, hpte ▸ ha.pte_present, hpte ▸ ha.pte_user,
    fun hw => ⟨hpd ▸ (ha.writable hw).1, hpte ▸ (ha.writable hw).2⟩⟩

theorem frame_isPage : IsPage (s.frame d v) := pageOf_isPage _

theorem accessible_iff : s.Accessible d v write ↔ hasBit (s.mem d (pdIndex v)) ptePresent = true ∧
    hasBit (s.userPte d v) ptePresent = true ∧
    (hasBit (s.mem d (pdIndex v)) pteUser && hasBit (s.userPte d v) pteUser) = true ∧
    (write = true →
    (hasBit (s.mem d (pdIndex v)) pteRw && hasBit (s.userPte d v) pteRw) = true) := by
  simp only [Bool.and_eq_true]
  exact ⟨fun h => ⟨h.1, h.3, ⟨h.2, h.4⟩, h.5⟩, fun ⟨h1, h3, h2, h5⟩ => ⟨h1, h2.1, h3, h2.2, h5⟩⟩

theorem refused_flags (write u w : Bool) (paddr : ℕ) :
    refused write 0 paddr (mmQueryPresent ||| (if u then mmQueryUser else 0#32) |||
      if w then mmQueryWrite else 0#32) = (!u || (write && !w) || paddr == 0) := by
  unfold refused
  cases u <;> cases w <;> cases write <;> cases paddr == 0 <;> decide

theorem refused_absent (write : Bool) : refused write (-eFault) 0 0#32 = true := by
  cases write <;> decide

theorem entriesFlags_present (hp : hasBit (s.mem d (pdIndex v)) ptePresent = true)
    (hp' : hasBit (s.userPte d v) ptePresent = true) :
    entriesFlags (s.entries d v).1 (s.entries d v).2 v = (0, s.physAddr d v, mmQueryPresent |||
      (if hasBit (s.mem d (pdIndex v)) pteUser && hasBit (s.userPte d v) pteUser then mmQueryUser
      else 0#32) |||
      if hasBit (s.mem d (pdIndex v)) pteRw && hasBit (s.userPte d v) pteRw then mmQueryWrite
        else 0#32) := by
  unfold entries
  rw [if_pos hp]
  exact if_pos hp'

theorem entriesFlags_absent (h : ¬ (hasBit (s.mem d (pdIndex v)) ptePresent = true ∧
    hasBit (s.userPte d v) ptePresent = true)) :
    entriesFlags (s.entries d v).1 (s.entries d v).2 v = (-1, 0, 0#32) := by
  unfold entries
  by_cases hp : hasBit (s.mem d (pdIndex v)) ptePresent = true
  · rw [if_pos hp]
    exact if_neg fun hp' => h ⟨hp, hp'⟩
  · rw [if_neg hp]
    rfl

/-- A lookup ends and changes nothing. It refuses exactly the pages that the user cannot access and
those at address 0. -/
theorem Reaches.queryFlags (h : s.Reaches cpu t d (pdIndex v)) (hd : s.resolve cpu pd = d)
    (write : Bool) : ∃ ret paddr flags, s.queryFlags cpu pd v = some (s, ret, paddr, flags) ∧
      (refused write ret paddr flags = true ↔ ¬ (s.Accessible d v write ∧ s.physAddr d v ≠ 0)) ∧
      (refused write ret paddr flags = false → paddr = s.physAddr d v) := by
  rw [Vmm.queryFlags, h.vmmQueryFlags hd, accessible_iff]
  by_cases hp : hasBit (s.mem d (pdIndex v)) ptePresent = true ∧
    hasBit (s.userPte d v) ptePresent = true
  · obtain ⟨hp, hp'⟩ := hp
    rw [entriesFlags_present hp hp']
    refine ⟨0, s.physAddr d v, _, rfl, ?_, fun _ => rfl⟩
    rw [refused_flags]
    simp only [hp, hp', true_and]
    generalize s.physAddr d v = x
    generalize (hasBit (s.mem d (pdIndex v)) pteUser && hasBit (s.userPte d v) pteUser) = u
    generalize (hasBit (s.mem d (pdIndex v)) pteRw && hasBit (s.userPte d v) pteRw) = w
    cases u <;> cases w <;> cases write <;> simp
  · rw [entriesFlags_absent hp]
    refine ⟨-eFault, 0, 0#32, rfl, ?_, fun hr => ?_⟩
    · rw [refused_absent]
      exact iff_of_true rfl fun h => hp ⟨h.1.1, h.1.2.1⟩
    · rw [refused_absent] at hr
      cases hr

abbrev copyPiece (a n c : ℕ) : ℕ := Lib.piece (fun c => pageRoom (a + c)) n c

theorem pageRoom_pos (addr : ℕ) : 0 < pageRoom addr := by
  unfold pageRoom pageSize
  omega

theorem copyPiece_le (a n c : ℕ) : (a + c) % pageSize + copyPiece a n c ≤ pageSize := by
  simp only [copyPiece, piece, pageRoom, pageSize]
  omega

theorem copyPiece_page {k : ℕ} (hk : k < copyPiece a n c) : (a + (c + k)) / pageSize =
    (a + c) / pageSize ∧ (a + (c + k)) % pageSize = (a + c) % pageSize + k := by
  have := copyPiece_le a n c
  unfold pageSize at *
  omega

theorem copyPiece_end (hc : c < n) :
    c + copyPiece a n c = n ∨ (a + (c + copyPiece a n c)) % pageSize = 0 := by
  simp only [copyPiece, piece, pageRoom, pageSize]
  omega

/-- The first `c` bytes can be copied: their pages can be accessed, and no page is looked up at the
physical address 0. -/
structure Passed (s : Vmm) (d a c : ℕ) (write : Bool) : Prop where
  accessible : ∀ k < c, s.Accessible d (a + k) write
  nonzero : ∀ k < c, k = 0 ∨ (a + k) % pageSize = 0 → s.physAddr d (a + k) ≠ 0

def AtPage (a n c : ℕ) : Prop := c = 0 ∨ c = n ∨ (a + c) % pageSize = 0

theorem Passed.step (h : s.Passed d a c write) (hacc : s.Accessible d (a + c) write)
    (h0 : s.physAddr d (a + c) ≠ 0) : s.Passed d a (c + copyPiece a n c) write := by
  constructor
  · intro k hk
    by_cases hkc : k < c
    · exact h.accessible k hkc
    · obtain ⟨j, rfl⟩ := Nat.exists_eq_add_of_le (not_lt.mp hkc)
      exact hacc.congr (copyPiece_page (n := n) (by omega)).1.symm
  · intro k hk hstart
    by_cases hkc : k < c
    · exact h.nonzero k hkc hstart
    · obtain ⟨j, rfl⟩ := Nat.exists_eq_add_of_le (not_lt.mp hkc)
      have hj := (copyPiece_page (a := a) (n := n) (c := c) (k := j) (by omega)).2
      obtain rfl : j = 0 := by omega
      exact h0

theorem atPage_step (hc : c < n) : AtPage a n (c + copyPiece a n c) := .inr (copyPiece_end hc)

theorem not_passed (hc : c < n) (hat : AtPage a n c)
    (h : ¬ (s.Accessible d (a + c) write ∧ s.physAddr d (a + c) ≠ 0)) : ¬ s.Passed d a n write := by
  intro hp
  refine h ⟨hp.accessible c hc, hp.nonzero c hc ?_⟩
  rcases hat with h0 | hn | hpage
  · exact .inl h0
  · omega
  · exact .inr hpage

theorem pdIndex_lt (hrange : a + n ≤ kernelVirtBase) (hc : c < n) : pdIndex (a + c) < 768 := by
  unfold pdIndex kernelVirtBase at *
  omega

theorem pageAlignDown_physAddr : pageAlignDown (s.physAddr d v) = s.frame d v := by
  have := (frame_isPage (s := s) (d := d) (v := v)).1
  unfold pageAlignDown physAddr pageSize at *
  omega

theorem physAddr_piece {k : ℕ} (hk : k < copyPiece a n c) :
    s.physAddr d (a + (c + k)) = s.frame d (a + c) + (a + c) % pageSize + k := by
  obtain ⟨hdiv, hmod⟩ := copyPiece_page hk
  rw [physAddr, frame, userPte_congr hdiv, hmod, ← Nat.add_assoc]
  rfl

def userBytes (s : Vmm) (d a c : ℕ) : List (BitVec 8) :=
  (range c).map fun k => s.mem.readByte (s.physAddr d (a + k))

theorem userBytes_add (s : Vmm) (d a n c : ℕ) :
    s.userBytes d a (c + copyPiece a n c) = s.userBytes d a c ++
    s.mem.readBytes (s.frame d (a + c) + (a + c) % pageSize) (copyPiece a n c) := by
  rw [userBytes, List.range_add, List.map_append, List.map_map]
  refine congrArg (s.userBytes d a c ++ ·) (map_congr_left fun k hk => ?_)
  rw [Function.comp_apply, physAddr_piece (mem_range.mp hk)]

def CopiedFrom (s : Vmm) (d a n c : ℕ) (r : Vmm × List (BitVec 8)) : Prop :=
  r.1 = s ∧ s.Passed d a c false ∧ r.2 = s.userBytes d a c ∧ AtPage a n c

def StoppedFrom (s : Vmm) (d a n : ℕ) (r : Vmm × List (BitVec 8)) : Prop :=
  r.1 = s ∧ ¬ s.Passed d a n false ∧ ∃ c < n, s.Passed d a c false ∧ r.2 = s.userBytes d a c

theorem copyFrom_piece (hr : ∀ i < 768, s.Reaches cpu t d i) (hd : s.resolve cpu pd = d)
    (hrange : a + n ≤ kernelVirtBase)
    (hf : ∀ k < n, s.Accessible d (a + k) false → s.frame d (a + k) ≠ t)
    (hc : c < n) {r : Vmm × List (BitVec 8)} (h : s.CopiedFrom d a n c r) :
    Ends (copyFromPage cpu pd a c (copyPiece a n c) r) (s.StoppedFrom d a n)
      (s.CopiedFrom d a n (c + copyPiece a n c)) := by
  obtain ⟨s', out⟩ := r
  obtain ⟨hs, hp, hout, hat⟩ := h
  obtain rfl : s' = s := hs
  obtain rfl : out = s'.userBytes d a c := hout
  have hreach := hr _ (pdIndex_lt hrange hc)
  obtain ⟨ret, paddr, flags, hq, hiff, hpaddr⟩ := hreach.queryFlags hd false
  rw [copyFromPage, hq]
  simp only [bind_eq_bind, bind_some]
  by_cases href : refused false ret paddr flags = true
  · rw [if_pos href]
    exact .error ⟨rfl, not_passed hc hat (hiff.mp href), c, hc, hp, rfl⟩
  · obtain ⟨hacc, h0⟩ := not_not.mp (mt hiff.mpr href)
    rw [if_neg href, hpaddr (Bool.eq_false_of_not_eq_true href), pageAlignDown_physAddr,
      hreach.ready.kmapRead frame_isPage (hf c hc hacc) (copyPiece_le a n c), bind_some]
    exact .ok ⟨rfl, hp.step hacc h0, (userBytes_add s' d a n c).symm, atPage_step hc⟩

theorem passed_zero (s : Vmm) (d a : ℕ) (write : Bool) : s.Passed d a 0 write :=
  ⟨fun k hk => absurd hk (Nat.not_lt_zero k), fun k hk => absurd hk (Nat.not_lt_zero k)⟩

/-- The loop of `copy_from_user` ends, and stops before the first page that it refuses. -/
theorem copyFrom_loop (hr : ∀ i < 768, s.Reaches cpu t d i) (hd : s.resolve cpu pd = d)
    (hrange : a + n ≤ kernelVirtBase)
    (hf : ∀ k < n, s.Accessible d (a + k) false → s.frame d (a + k) ≠ t) :
    Ends (chunks (fun c => pageRoom (a + c)) (copyFromPage cpu pd a) n (s, []))
      (s.StoppedFrom d a n) (s.CopiedFrom d a n n) :=
  chunks_spec (s.CopiedFrom d a n) (s.StoppedFrom d a n) (fun c _ => pageRoom_pos (a + c))
    (fun _ _ hc h => copyFrom_piece hr hd hrange hf hc h) ⟨rfl, passed_zero s d a false,
    rfl, .inl rfl⟩

section To

/-- The pages that an access goes through: the window table, the two directories and the tables of
the process. -/
def OnWay (s : Vmm) (cpu : Cpu) (t d q : ℕ) : Prop :=
  q = t ∨ q = s.cr3 cpu ∨ q = d ∨ ∃ i < 768, hasBit (s.mem d i) ptePresent = true ∧
    q = pageOf (s.mem d i)

def stored (s : Vmm) (d a : ℕ) (bytes : List (BitVec 8)) (c : ℕ) : Vmm :=
  { s with mem := s.mem.scatter (fun k => s.physAddr d (a + k)) (fun k => bytes.getD k 0#8) c }

/-- No page of the range is one that the accesses go through. -/
def OffWay (s : Vmm) (cpu : Cpu) (t d a n : ℕ) : Prop :=
  ∀ k < n, s.Accessible d (a + k) true → ¬ s.OnWay cpu t d (s.frame d (a + k))

theorem pageAt_physAddr : Memory.pageAt (s.physAddr d v) = s.frame d v := pageAlignDown_physAddr

theorem OffWay.mem_eq (h : s.OffWay cpu t d a n) (hc : c ≤ n) (hp : s.Passed d a c true) {q : ℕ}
    (hq : s.OnWay cpu t d q) : (s.stored d a bytes c).mem q = s.mem q := by
  refine Memory.scatter_page_of_ne fun k hk he => ?_
  rw [pageAt_physAddr] at he
  exact h k (by omega) (hp.accessible k hk) (he ▸ hq)

section Stored

variable (h : s.OffWay cpu t d a n) (hc : c ≤ n) (hp : s.Passed d a c true)

include h hc hp

theorem stored_directory : (s.stored d a bytes c).mem d = s.mem d :=
    h.mem_eq hc hp (.inr (.inr (.inl rfl)))

theorem stored_reaches {i : ℕ} (hr : s.Reaches cpu t d i) :
    (s.stored d a bytes c).Reaches cpu t d i :=
  hr.of_mem rfl (h.mem_eq hc hp (.inr (.inl rfl))) (h.mem_eq hc hp (.inl rfl))
    (stored_directory h hc hp)

theorem stored_userPte (hv : pdIndex v < 768)
    (hpde : hasBit (s.mem d (pdIndex v)) ptePresent = true) :
    (s.stored d a bytes c).userPte d v = s.userPte d v := by
  rw [userPte, stored_directory h hc hp, userPte,
    h.mem_eq hc hp (.inr (.inr (.inr ⟨_, hv, hpde, rfl⟩)))]

theorem stored_accessible (hv : pdIndex v < 768) :
    (s.stored d a bytes c).Accessible d v true ↔ s.Accessible d v true := by
  by_cases hpde : hasBit (s.mem d (pdIndex v)) ptePresent = true
  · rw [accessible_iff, accessible_iff, stored_userPte h hc hp hv hpde, stored_directory h hc hp]
  · refine iff_of_false (fun ha => hpde ?_) fun ha => hpde ha.pde_present
    have := ha.pde_present
    rwa [stored_directory h hc hp] at this

theorem stored_passes (hv : pdIndex v < 768) :
    ((s.stored d a bytes c).Accessible d v true ∧ (s.stored d a bytes c).physAddr d v ≠ 0) ↔
      s.Accessible d v true ∧ s.physAddr d v ≠ 0 := by
  rw [stored_accessible h hc hp hv]
  refine and_congr_right fun ha => ?_
  rw [physAddr, physAddr, frame, frame, stored_userPte h hc hp hv ha.pde_present]

end Stored

theorem take_drop_eq_map {len : ℕ} (h : c + len ≤ bytes.length) :
    (bytes.drop c).take len = (range len).map fun k => bytes.getD (c + k) 0#8 := by
  refine ext_getElem (by simp; omega) fun k hk hk' => ?_
  have : c + k < bytes.length := by simp at hk'; omega
  simp [this]

theorem stored_add (s : Vmm) (d a n c : ℕ) (bytes : List (BitVec 8)) :
    s.stored d a bytes (c + copyPiece a n c) = { s.stored d a bytes c with
      mem := (s.stored d a bytes c).mem.writeBytes (s.frame d (a + c) + (a + c) % pageSize)
        ((range (copyPiece a n c)).map fun k => bytes.getD (c + k) 0#8) } := by
  have := Memory.scatter_add (m := s.mem) (f := fun k => s.physAddr d (a + k))
    (b := fun k => bytes.getD k 0#8) (n := c) fun k hk => physAddr_piece (n := n) hk
  rw [stored, this]
  rfl

def CopiedTo (s : Vmm) (d a n : ℕ) (bytes : List (BitVec 8)) (c : ℕ) (s' : Vmm) : Prop :=
  s' = s.stored d a bytes c ∧ s.Passed d a c true ∧ AtPage a n c

def StoppedTo (s : Vmm) (d a n : ℕ) (bytes : List (BitVec 8)) (s' : Vmm) : Prop :=
  ¬ s.Passed d a n true ∧ ∃ c < n, s.Passed d a c true ∧ s' = s.stored d a bytes c

variable (hr : ∀ i < 768, s.Reaches cpu t d i) (hd : s.resolve cpu pd = d)
  (hrange : a + bytes.length ≤ kernelVirtBase) (hoff : s.OffWay cpu t d a bytes.length)
include hr hd hrange hoff

theorem copyTo_piece (hc : c < bytes.length) (h : s.CopiedTo d a bytes.length bytes c s') :
    Ends (copyToPage cpu pd a bytes c (copyPiece a bytes.length c) s')
    (s.StoppedTo d a bytes.length bytes)
      (s.CopiedTo d a bytes.length bytes (c + copyPiece a bytes.length c)) := by
  obtain ⟨rfl, hp, hat⟩ := h
  have hv := pdIndex_lt hrange hc
  have hreach : (s.stored d a bytes c).Reaches cpu t d _ := stored_reaches hoff hc.le hp (hr _ hv)
  obtain ⟨ret, paddr, flags, hq, hiff, hpaddr⟩ := hreach.queryFlags hd true
  rw [stored_passes hoff hc.le hp hv] at hiff
  rw [copyToPage, hq]
  simp only [bind_eq_bind, bind_some]
  by_cases href : refused true ret paddr flags = true
  · rw [if_pos href]
    exact .error ⟨not_passed hc hat (hiff.mp href), c, hc, hp, rfl⟩
  · obtain ⟨hacc, h0⟩ := not_not.mp (mt hiff.mpr href)
    have hframe : (s.stored d a bytes c).frame d (a + c) = s.frame d (a + c) := by
      rw [frame, stored_userPte hoff hc.le hp hv hacc.pde_present, frame]
    have hway := hoff c hc hacc
    have hlen : c + copyPiece a bytes.length c ≤ bytes.length := add_piece_le hc.le
    have htake := take_drop_eq_map hlen
    rw [if_neg href, hpaddr (Bool.eq_false_of_not_eq_true href), pageAlignDown_physAddr,
      hframe, htake,
      hreach.ready.kmapWrite frame_isPage (fun he => hway (.inl he))
      (fun he => hway (.inr (.inl he)))
        (by rw [length_map, length_range]; exact copyPiece_le a bytes.length c), bind_some]
    exact .ok ⟨(stored_add s d a _ c bytes).symm, hp.step hacc h0, atPage_step hc⟩

theorem copyTo_loop :
    Ends (chunks (fun c => pageRoom (a + c)) (copyToPage cpu pd a bytes) bytes.length s)
      (s.StoppedTo d a bytes.length bytes) (s.CopiedTo d a bytes.length bytes bytes.length) :=
  chunks_spec (s.CopiedTo d a bytes.length bytes) (s.StoppedTo d a bytes.length bytes)
    (fun c _ => pageRoom_pos (a + c)) (fun _ _ hc h => copyTo_piece hr hd hrange hoff hc h)
    ⟨rfl, passed_zero s d a true, .inl rfl⟩

end To

section Results

variable {dst src : ℕ}

structure Copyable (s : Vmm) (d a n : ℕ) (write : Bool) : Prop where
  inside : n = 0 ∨ a + n ≤ kernelVirtBase
  accessible : ∀ k < n, s.Accessible d (a + k) write

/-- Neither the user address nor the physical address of a page of the range is 0 where it is looked
up. -/
structure Nonzero (s : Vmm) (d a n : ℕ) : Prop where
  start : n = 0 ∨ a ≠ 0
  phys : ∀ k < n, k = 0 ∨ (a + k) % pageSize = 0 → s.physAddr d (a + k) ≠ 0

theorem copyable_iff_passed (hin : a + n ≤ kernelVirtBase) (h0 : a ≠ 0) :
    s.Copyable d a n write ∧ s.Nonzero d a n ↔ s.Passed d a n write :=
  ⟨fun h => ⟨h.1.accessible, h.2.phys⟩, fun h => ⟨⟨.inr hin, h.accessible⟩, ⟨.inr h0, h.nonzero⟩⟩⟩

theorem copyable_zero : s.Copyable d a 0 write ∧ s.Nonzero d a 0 :=
  ⟨⟨.inl rfl, fun k hk => absurd hk (Nat.not_lt_zero k)⟩,
    ⟨.inl rfl, fun k hk => absurd hk (Nat.not_lt_zero k)⟩⟩

theorem badRange_iff (ha : a < 2 ^ 32) (hn : n < 2 ^ 32) (h0 : n ≠ 0) :
    badRange a n = true ↔ ¬ a + n ≤ kernelVirtBase := by
  unfold badRange kernelVirtBase
  rw [decide_eq_true_iff]
  omega

/-- No page of a range that is read is the window table, and none of a range that is written to is
one that the kernel's accesses go through. -/
def Apart (s : Vmm) (cpu : Cpu) (t d a n : ℕ) (write : Bool) : Prop :=
  ∀ k < n, a + k < kernelVirtBase → s.Accessible d (a + k) write → s.frame d (a + k) ≠ t ∧
    (write = true → ¬ s.OnWay cpu t d (s.frame d (a + k)))

theorem Passed.inside (h : s.Passed d a c write) (hin : a + n ≤ kernelVirtBase) (hc : c ≤ n) :
    ∀ k < c, a + k < kernelVirtBase ∧ s.Accessible d (a + k) write :=
  fun k hk => ⟨by omega, h.accessible k hk⟩

/-- A value is returned at once for the empty range, and for a range that is not in the user half or
starts at 0. -/
theorem copyChecks_spec {kernelPtr : ℕ} (ha : a < 2 ^ 32) (hn : n < 2 ^ 32) (hk : kernelPtr ≠ 0) :
    (copyChecks kernelPtr a n = none ∧ a + n ≤ kernelVirtBase ∧ a ≠ 0) ∨
    ∃ ret, copyChecks kernelPtr a n = some ret ∧ (ret = 0 → 0 = n) ∧
      (ret = 0 ↔ s.Copyable d a n write ∧ s.Nonzero d a n) := by
  unfold copyChecks
  by_cases hn0 : n = 0
  · subst hn0
    rw [if_neg (by simp [hk]), if_pos rfl]
    exact .inr ⟨0, rfl, fun _ => rfl, iff_of_true rfl copyable_zero⟩
  · by_cases ha0 : a = 0
    · rw [if_pos (.inr ⟨ha0, hn0⟩)]
      refine .inr ⟨-eInval, rfl, fun h => absurd h (by decide), iff_of_false (by decide) ?_⟩
      exact fun h => h.2.start.elim hn0 fun h => h ha0
    · rw [if_neg (by simp [hk, ha0]), if_neg hn0]
      by_cases hin : a + n ≤ kernelVirtBase
      · rw [if_neg (mt (badRange_iff ha hn hn0).mp (not_not.mpr hin))]
        exact .inl ⟨rfl, hin, ha0⟩
      · rw [if_pos ((badRange_iff ha hn hn0).mpr hin)]
        refine .inr ⟨-eFault, rfl, fun h => absurd h (by decide), iff_of_false (by decide) ?_⟩
        exact fun h => h.1.inside.elim hn0 hin

def withUserPage (paddr : BitVec 32) : Vmm :=
  (bootVmm.mapDirect 0x101000 0x400000 paddr (vmmProtUser ||| vmmProtWrite)).1

/-- Two pages that follow each other, in frames that do not. -/
def withUserPages : Vmm :=
  ((withUserPage 0x120000#32).mapDirect 0x101000 0x401000 0x130000#32
    (vmmProtUser ||| vmmProtWrite)).1

theorem withUserPages_reaches (i : ℕ) (hi : i < 768) :
    withUserPages.Reaches bootCpu (bootTemps bootCpu) 0x101000 i := by
  have hwf : withUserPages.Wf [0x101000] bootTemps :=
    (bootVmm_wf.map (by decide) (by decide)).map (by decide) (by decide)
  by_cases h0 : i = 0
  · have hent : withUserPages.mem 0x101000 0 = bootDirectory 0 := rfl
    subst h0
    refine ⟨hwf.ready bootCpu, isPage_of_taken (hwf.dir_taken _ (by decide)), by decide, by decide,
      fun _ => ?_, fun _ => ?_⟩
    · rw [hent]
      decide
    · rw [hent, mem_singleton.mp (hwf.cr3_mem bootCpu)]
      decide
  · exact hwf.reaches (by decide) ⟨by omega, hi⟩ bootCpu

instance (s : Vmm) (cpu : Cpu) (t d q : ℕ) : Decidable (s.OnWay cpu t d q) :=
  inferInstanceAs (Decidable (_ ∨ _ ∨ _ ∨ _))

end Results

end Vmm

end Xnix
