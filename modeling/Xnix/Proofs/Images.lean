import Xnix.Elf

/-!
# What an image asks for

The user half of an address space as a function from addresses to bytes, and what a program header
and the stack add to it. A page of a segment that is not there yet is added full of zeros; the bytes
of the file then go over what is there. For segments that do not overlap, this is the file's bytes,
then zeros.
-/

namespace Xnix

open List

abbrev View := ℕ → Option (BitVec 8)

variable {A : View} {a v n addr elfSize : ℕ} {file : ℕ → BitVec 8} {ph : ProgramHeader}
  {segments : List ProgramHeader}

def View.addPage (A : View) (v : ℕ) : View := fun a =>
  if a / pageSize = v / pageSize then some ((A a).getD 0#8) else A a

def View.addBytes (A : View) (addr n : ℕ) (bytes : ℕ → BitVec 8) : View := fun a =>
  if addr ≤ a ∧ a < addr + n then some (bytes (a - addr)) else A a

namespace ProgramHeader

variable (ph : ProgramHeader)

def pages : List ℕ :=
  Vmm.pagesBetween (pageAlignDown ph.pVaddr) (pageAlignUp ((ph.pVaddr + ph.pMemsz) % 2 ^ 32))

/-- The checks that a segment passes: its bytes are in the file and in the segment, and its end is
an address. -/
structure Accepted (ph : ProgramHeader) (elfSize : ℕ) : Prop where
  filesz_le : ph.pFilesz ≤ ph.pMemsz
  offset_le : ph.pOffset + ph.pFilesz ≤ elfSize
  end_lt : ph.pVaddr + ph.pMemsz < 2 ^ 32

instance (elfSize : ℕ) : DecidablePred (Accepted · elfSize) := fun ph =>
  decidable_of_iff (ph.pFilesz ≤ ph.pMemsz ∧ ph.pOffset + ph.pFilesz ≤ elfSize ∧
    ph.pVaddr + ph.pMemsz < 2 ^ 32) ⟨fun h => ⟨h.1, h.2.1, h.2.2⟩, fun h => ⟨h.1, h.2, h.3⟩⟩

/-- Every page that the segment touches is one of the user half. -/
def InUserHalf : Prop :=
  ∀ v, pageAlignDown ph.pVaddr ≤ v → v < ph.pVaddr + ph.pMemsz → 1 ≤ pdIndex v ∧ pdIndex v < 768

def Covers (a : ℕ) : Prop := ph.pVaddr ≤ a ∧ a < ph.pVaddr + ph.pMemsz

def Touches (a : ℕ) : Prop :=
  pageAlignDown ph.pVaddr ≤ a ∧ a < pageAlignUp (ph.pVaddr + ph.pMemsz)

end ProgramHeader

/-- Segments as a linker makes them: between 4 MB and the stack, and none over another. -/
structure Laid (segments : List ProgramHeader) : Prop where
  low : ∀ ph ∈ segments, 0x400000 ≤ ph.pVaddr
  high : ∀ ph ∈ segments, ph.pVaddr + ph.pMemsz ≤ userStackTop - userStackSize
  disjoint : segments.Pairwise fun ph ph' => ∀ a, ¬ (ph.Covers a ∧ ph'.Covers a)

def View.addSegment (file : ℕ → BitVec 8) (A : View) (ph : ProgramHeader) : View :=
  (ph.pages.foldl addPage A).addBytes ph.pVaddr ph.pFilesz fun k => file (ph.pOffset + k)

def View.addStack (A : View) : View := fun a =>
  if userStackTop - userStackSize ≤ a ∧ a < userStackTop then some 0#8 else A a

def maxEnd (segments : List ProgramHeader) : ℕ :=
  segments.foldl (fun e ph => max e (ph.pVaddr + ph.pMemsz)) 0

namespace ProgramHeader

theorem InUserHalf.pages (h : ph.InUserHalf) (hend : ph.pVaddr + ph.pMemsz < 2 ^ 32)
    (hv : v ∈ ph.pages) : 1 ≤ pdIndex v ∧ pdIndex v < 768 := by
  unfold ProgramHeader.pages Vmm.pagesBetween at hv
  obtain ⟨i, hi, rfl⟩ := mem_map.mp hv
  rw [mem_range] at hi
  refine h _ (by omega) ?_
  unfold pageAlignDown pageAlignUp pageSize at *
  omega

theorem InUserHalf.end_le (h : ph.InUserHalf) (hpos : 0 < ph.pMemsz) :
    ph.pVaddr + ph.pMemsz ≤ 2 ^ 32 - pageSize := by
  have hlast := h (ph.pVaddr + ph.pMemsz - 1) (by unfold pageAlignDown pageSize; omega) (by omega)
  unfold pdIndex pageSize at *
  omega

end ProgramHeader

namespace View

theorem addPages_apply : ∀ (pages : List ℕ) (A : View), pages.foldl addPage A a =
    if ∃ v ∈ pages, a / pageSize = v / pageSize then some ((A a).getD 0#8) else A a
  | [], A => by simp
  | v :: pages, A => by
    rw [foldl_cons, addPages_apply pages, addPage]
    by_cases hv : a / pageSize = v / pageSize
    · simp [hv]
    · simp [hv]

theorem mem_pagesBetween {first last : ℕ} :
    v ∈ Vmm.pagesBetween first last ↔
    ∃ i, i < (last - first) / pageSize ∧ first + i * pageSize = v := by
  simp [Vmm.pagesBetween]

theorem onPage_iff (hend : ph.pVaddr + ph.pMemsz ≤ 2 ^ 32 - pageSize) :
    (∃ v ∈ ph.pages, a / pageSize = v / pageSize) ↔ ph.Touches a := by
  have hmod : (ph.pVaddr + ph.pMemsz) % 2 ^ 32 = ph.pVaddr + ph.pMemsz :=
    Nat.mod_eq_of_lt (by unfold pageSize at hend; omega)
  unfold ProgramHeader.pages ProgramHeader.Touches
  simp only [mem_pagesBetween, hmod, pageAlignDown, pageAlignUp, pageSize] at *
  constructor
  · rintro ⟨v, ⟨i, hi, rfl⟩, he⟩
    omega
  · rintro ⟨hlo, hhi⟩
    exact ⟨a / 4096 * 4096, ⟨a / 4096 - ph.pVaddr / 4096, by omega, by omega⟩, by omega⟩

theorem addBytes_add (A : View) (addr : ℕ) (bytes : ℕ → BitVec 8) (c k : ℕ) :
    (A.addBytes addr c bytes).addBytes (addr + c) k (fun i => bytes (c + i)) =
    A.addBytes addr (c + k) bytes := by
  funext a
  unfold addBytes
  by_cases h : addr + c ≤ a ∧ a < addr + c + k
  · have hsub : c + (a - (addr + c)) = a - addr := by omega
    rw [if_pos h, if_pos (by omega)]
    exact congrArg (some ∘ bytes) hsub
  · rw [if_neg h]
    by_cases h' : addr ≤ a ∧ a < addr + c
    · rw [if_pos h', if_pos (by omega)]
    · rw [if_neg h', if_neg (by omega)]

def InFile (ph : ProgramHeader) (a : ℕ) : Prop := ph.pVaddr ≤ a ∧ a < ph.pVaddr + ph.pFilesz

instance (ph : ProgramHeader) (a : ℕ) : Decidable (InFile ph a) :=
    inferInstanceAs (Decidable (_ ∧ _))

def OnPage (ph : ProgramHeader) (a : ℕ) : Prop := ∃ v ∈ ph.pages, a / pageSize = v / pageSize

instance (ph : ProgramHeader) (a : ℕ) : Decidable (OnPage ph a) :=
    inferInstanceAs (Decidable (∃ v ∈ ph.pages, _))

theorem addSegment_of_inFile (h : InFile ph a) :
    A.addSegment file ph a = some (file (ph.pOffset + (a - ph.pVaddr))) := if_pos h

theorem addSegment_of_not_inFile (h : ¬ InFile ph a) :
    A.addSegment file ph a = if OnPage ph a then some ((A a).getD 0#8) else A a :=
  (if_neg h).trans (addPages_apply ph.pages A)

theorem addSegments_of_some {x : BitVec 8} : ∀ {segments : List ProgramHeader} {A : View},
    A a = some x → (∀ ph ∈ segments, ¬ InFile ph a) → segments.foldl (addSegment file) A a = some x
  | [], _, h, _ => h
  | ph :: segments, A, h, hn => by
    rw [foldl_cons]
    refine addSegments_of_some ?_ fun ph' hph => hn ph' (mem_cons_of_mem _ hph)
    rw [addSegment_of_not_inFile (hn ph mem_cons_self), h]
    split <;> rfl

theorem addSegments_of_inFile : ∀ {segments : List ProgramHeader} {A : View}, ph ∈ segments →
    InFile ph a → (∀ ph' ∈ segments, InFile ph' a → ph' = ph) →
      segments.foldl (addSegment file) A a = some (file (ph.pOffset + (a - ph.pVaddr)))
  | ph0 :: segments, A, hph, h, hone => by
    have hrest : ∀ ph' ∈ segments, InFile ph' a → ph' = ph :=
      fun ph' hph => hone ph' (mem_cons_of_mem _ hph)
    rw [foldl_cons]
    by_cases hlater : ph ∈ segments
    · exact addSegments_of_inFile hlater h hrest
    · obtain rfl := (mem_cons.mp hph).resolve_right hlater
      exact addSegments_of_some (addSegment_of_inFile h) fun ph' hph' hin =>
        hlater (hrest ph' hph' hin ▸ hph')

theorem addSegments_of_onPage : ∀ {segments : List ProgramHeader} {A : View}, (A a).getD 0#8 = 0#8 →
    (∀ ph ∈ segments, ¬ InFile ph a) → (∃ ph ∈ segments, OnPage ph a) →
      segments.foldl (addSegment file) A a = some 0#8
  | [], _, _, _, h => by simp at h
  | ph :: segments, A, hz, hn, hon => by
    have hrest : ∀ ph' ∈ segments, ¬ InFile ph' a := fun ph' hph => hn ph' (mem_cons_of_mem _ hph)
    have hhead : A.addSegment file ph a = _ := addSegment_of_not_inFile (hn ph mem_cons_self)
    rw [foldl_cons]
    by_cases h : OnPage ph a
    · rw [if_pos h, hz] at hhead
      exact addSegments_of_some hhead hrest
    · rw [if_neg h] at hhead
      obtain ⟨ph', hph', hon'⟩ := hon
      refine addSegments_of_onPage (by rw [hhead, hz]) hrest ⟨ph', ?_, hon'⟩
      exact (mem_cons.mp hph').resolve_left fun he => h (he ▸ hon')

end View

section Laid

section
variable (h : Laid segments) (hph : ph ∈ segments)
include h hph

theorem Laid.end_le : ph.pVaddr + ph.pMemsz ≤ 2 ^ 32 - pageSize := by
  have := h.high ph hph
  unfold userStackTop kernelVirtBase userStackSize pageSize at *
  omega

theorem Laid.inUserHalf : ph.InUserHalf := by
  intro v hlo hhi
  have h1 := h.low ph hph
  have h2 := h.high ph hph
  unfold pageAlignDown userStackTop kernelVirtBase userStackSize pageSize pdIndex at *
  omega

theorem Laid.eq_of_covers {ph' : ProgramHeader} (hph' : ph' ∈ segments) (hc : ph.Covers a)
    (hc' : ph'.Covers a) : ph = ph' := by
  by_contra hne
  have : Std.Symm fun ph ph' : ProgramHeader => ∀ a, ¬ (ph.Covers a ∧ ph'.Covers a) :=
    ⟨fun _ _ hd a hc => hd a hc.symm⟩
  exact h.disjoint.forall hph hph' hne a ⟨hc, hc'⟩

end

theorem View.InFile.covers (h : InFile ph a) (hacc : ph.Accepted elfSize) : ph.Covers a :=
  ⟨h.1, h.2.trans_le (Nat.add_le_add_left hacc.filesz_le _)⟩

variable (h : Laid segments) (hacc : ∀ ph ∈ segments, ph.Accepted elfSize) (hph : ph ∈ segments)
include h hacc hph

theorem Laid.segment_byte {k : ℕ} (hk : k < ph.pMemsz) :
    segments.foldl (View.addSegment file) (fun _ => none) (ph.pVaddr + k) =
      some (if k < ph.pFilesz then file (ph.pOffset + k) else 0#8) := by
  have hcov : ph.Covers (ph.pVaddr + k) := ⟨by omega, by omega⟩
  by_cases hf : k < ph.pFilesz
  · have hin : View.InFile ph (ph.pVaddr + k) := ⟨by omega, by omega⟩
    rw [View.addSegments_of_inFile hph hin fun ph' hph' hin' =>
      h.eq_of_covers hph' hph (hin'.covers (hacc ph' hph')) hcov, if_pos hf,
        Nat.add_sub_cancel_left]
  · have hnot : ∀ ph' ∈ segments, ¬ View.InFile ph' (ph.pVaddr + k) := fun ph' hph' hin => by
      obtain rfl := h.eq_of_covers hph hph' hcov (hin.covers (hacc ph' hph'))
      exact hf (by have := hin.2; omega)
    rw [View.addSegments_of_onPage rfl hnot ⟨ph, hph, ?_⟩, if_neg hf]
    refine (View.onPage_iff (h.end_le hph)).mpr ?_
    have := h.end_le hph
    unfold ProgramHeader.Touches pageAlignDown pageAlignUp pageSize at *
    omega

theorem Laid.other_byte (ht : ph.Touches a) (hn : ∀ ph ∈ segments, ¬ ph.Covers a) :
    segments.foldl (View.addSegment file) (fun _ => none) a = some 0#8 :=
  View.addSegments_of_onPage rfl (fun ph' hph' hin => hn ph' hph' (hin.covers (hacc ph' hph')))
    ⟨ph, hph, (View.onPage_iff (h.end_le hph)).mpr ht⟩

end Laid

end Xnix
