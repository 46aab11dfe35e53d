import Xnix.Proofs.ElfLoad

/-!
# What a load can touch, and what it loads

Without segments outside the user half, a load writes to the new directory and to pages that it
takes for the process, and to nothing else; and the process sees the bytes of the file, then zeros.
A segment in the kernel half is found in the directory, and its bytes go to the kernel's own pages.
-/

namespace Xnix

open List Lib Memory

namespace Vmm

variable {s s₁ : Vmm} {cpu cpu' : Cpu} {pd a q elfData elfSize : ℕ} {dirs : List ℕ}
  {temps : Cpu → ℕ} {ph : ProgramHeader} {segments : List ProgramHeader}

/-- The image is in pages that are not free, and not in a window table. -/
structure Stored (s : Vmm) (temps : Cpu → ℕ) (elfData elfSize : ℕ) : Prop where
  le : elfData + elfSize ≤ 2 ^ 32
  not_free : ∀ k < elfSize, ¬ s.pages.Free (Lib.Memory.pageAt (elfData + k))
  ne_temp : ∀ k < elfSize, ∀ cpu, Lib.Memory.pageAt (elfData + k) ≠ temps cpu

theorem Wf.created (h : s.Wf dirs temps) (hc : s.pages.Counted)
    (hcreate : s.vmmCreatePd cpu = some (s₁, pd))
    (h0 : pd ≠ 0) :
    s₁.Wf (pd :: dirs) temps ∧ s₁.pages.Counted ∧ (∀ i, IsUserEntry i → ¬ s₁.HasTable pd i) ∧
      s.pages.Free pd ∧ s₁ = s.create ∧ pd = s.pages.allocPage.2 := by
  by_cases h1 : s.pages.allocPage.2 = 0
  · rw [vmmCreatePd, if_pos h1] at hcreate
    exact absurd (Prod.mk.inj (Option.some.inj hcreate)).2.symm h0
  · rw [(h.makes h1 cpu).vmmCreatePd h1] at hcreate
    obtain ⟨rfl, rfl⟩ := Prod.mk.inj (Option.some.inj hcreate)
    refine ⟨h.create h1, PageAlloc.allocPage_outcome.counted hc, fun i hi ht => ?_,
      PageAlloc.allocPage_outcome.free h1, rfl, rfl⟩
    have ht : hasBit (s.create.mem s.pages.allocPage.2 i) ptePresent = true := ht
    rw [create_mem_self, newDirectory_user hi] at ht
    exact absurd ht (by decide)

theorem Stored.imageAt (img : s.Stored temps elfData elfSize)
    (hfree : s.pages.Free s.pages.allocPage.2) :
    s.create.ImageAt temps s.pages.allocPage.2 elfData elfSize :=
  ⟨img.le, fun k hk => PageAlloc.allocPage_outcome.not_free (img.not_free k hk),
    fun k hk he => img.not_free k hk (he ▸ hfree), img.ne_temp⟩

/-- What an image with segments as a linker makes them is loaded to. It is refused only when its
headers fail the checks or when there are fewer free pages than its segments and the stack may
take. -/
theorem image_loaded_exactly (h : s.Wf dirs temps) (hc : s.pages.Counted)
    (hcreate : s.vmmCreatePd cpu = some (s₁, pd)) (h0 : pd ≠ 0)
    (img : s.Stored temps elfData elfSize)
    (hlaid : Laid (s₁.segments elfData)) :
    Lib.Ends (processLoadElf cpu' pd elfData elfSize s₁)
    (fun r => s₁.Refused elfData elfSize r.2) (fun r =>
      (∀ ph ∈ s₁.segments elfData, ∀ k < ph.pMemsz, r.1.userByte pd (ph.pVaddr + k) =
        some (if k < ph.pFilesz then s₁.fileByte elfData (ph.pOffset + k) else 0#8)) ∧
      (∀ ph ∈ s₁.segments elfData, ∀ a, ph.Touches a →
        (∀ ph' ∈ s₁.segments elfData, ¬ ph'.Covers a) → r.1.userByte pd a = some 0#8) ∧
      r.2.heapStart = pageAlignUp (maxEnd (s₁.segments elfData)) ∧
      ∀ a, userStackTop - userStackSize ≤ a → a < userStackTop → r.1.userByte pd a = some 0#8) := by
  obtain ⟨hwf, hcounted, hbare, hfree, rfl, rfl⟩ := h.created hc hcreate h0
  refine (hwf.processLoadElf hcounted mem_cons_self hbare (img.imageAt hfree)
    fun _ ph hph => hlaid.inUserHalf ((takeWhile_sublist _).subset hph)).imp (fun _ hr => hr.2) ?_
  rintro r ⟨⟨frames, hl⟩, hacc, hinfo⟩
  have hseg : ∀ ph ∈ s.create.segments elfData, ∀ a, ph.Touches a →
    r.1.userByte s.pages.allocPage.2 a =
      (s.create.segments elfData).foldl (View.addSegment (s.create.fileByte elfData))
      (fun _ => none) a := by
    intro ph hph a ht
    have hlow := hlaid.low ph hph
    have hhigh := hlaid.high ph hph
    have hbounds : 0x400000 ≤ a ∧ a < userStackTop - userStackSize := by
      unfold ProgramHeader.Touches pageAlignDown pageAlignUp userStackTop kernelVirtBase
        userStackSize pageSize at *
      omega
    have ha : IsUserEntry (pdIndex a) := by
      unfold IsUserEntry pdIndex userStackTop kernelVirtBase userStackSize pageSize at *
      omega
    rw [hl.shows a ha]
    exact if_neg fun h => absurd h.1 (not_le.mpr hbounds.2)
  refine ⟨fun ph hph k hk => ?_, fun ph hph a ht hn => ?_, by rw [hinfo]; rfl, fun a hlo hhi => ?_⟩
  · rw [hseg ph hph _ ?_, hlaid.segment_byte hacc hph hk]
    have := hlaid.end_le hph
    unfold ProgramHeader.Touches pageAlignDown pageAlignUp pageSize at *
    omega
  · rw [hseg ph hph a ht, hlaid.other_byte hacc hph ht hn]
  · have ha : IsUserEntry (pdIndex a) := by
      unfold IsUserEntry pdIndex userStackTop kernelVirtBase userStackSize pageSize at *
      omega
    rw [hl.shows a ha]
    exact if_pos ⟨hlo, hhi⟩

section Boot

/-- An image with one segment of 8 bytes at `vaddr`, 4 of them in the file. -/
def imageWords (vaddr : BitVec 32) : List (BitVec 32) :=
  [0x464C457F#32, 0x00010101#32, 0#32, 0#32, 0x00030002#32, 1#32, 0x400000#32, 52#32, 0#32, 0#32,
    0x00200034#32, 1#32, 0#32, 1#32, 84#32, vaddr, 0#32, 4#32, 8#32, 7#32, 0x1000#32, 0xDEADBEEF#32]

def imagePage (vaddr : BitVec 32) (i : ℕ) : BitVec 32 := (imageWords vaddr).getD i 0#32

def imageAddr : ℕ := 0x10B000

/-- The state after `vmm_init` with the image in a page that has been allocated for it. -/
def bootImage (vaddr : BitVec 32) : Vmm :=
  withPage { bootVmm with pages := bootPages.allocPage.1 } imageAddr (imagePage vaddr)

variable {vaddr : BitVec 32}

theorem bootImage_wf : (bootImage vaddr).Wf [0x101000] bootTemps :=
  (bootVmm_wf.alloc bootPages.allocPage_outcome).setPage (by decide) (by decide)

theorem bootImage_counted : (bootImage vaddr).pages.Counted :=
  show bootPages.allocPage.1.Counted by decide

theorem bootImage_next : (bootImage vaddr).pages.allocPage.2 = 0x10C000 :=
  show bootPages.allocPage.1.allocPage.2 = 0x10C000 by decide

theorem create_pages (s : Vmm) : s.create.pages = s.pages.allocPage.1 := rfl

theorem bootImage_create_pages :
    (bootImage vaddr).create.pages = bootPages.allocPage.1.allocPage.1 := by
  rw [create_pages, bootImage, withPage]

theorem bootImage_create :
    (bootImage vaddr).vmmCreatePd bootCpu = some ((bootImage vaddr).create, 0x10C000) := by
  have h0 : (bootImage vaddr).pages.allocPage.2 ≠ 0 := by
    rw [bootImage_next]
    decide
  rw [(bootImage_wf.makes h0 bootCpu).vmmCreatePd h0, create, bootImage_next]

theorem bootImage_mem_of_ne (h : q ≠ imageAddr) : (bootImage vaddr).mem q = bootVmm.mem q :=
    setPage_of_ne h

theorem imageAddr_page {k : ℕ} (hk : k < 4096) : pageAt (imageAddr + k) = imageAddr :=
    pageAt_add (by decide) hk

theorem bootImage_stored : (bootImage vaddr).Stored bootTemps imageAddr 88 := by
  refine ⟨by decide, fun k hk => ?_, fun k hk cpu => ?_⟩ <;> rw [imageAddr_page (by omega)]
  · exact show ¬ bootPages.allocPage.1.Free imageAddr by decide
  · revert cpu
    decide

/-- The state in which the image is loaded: the new directory is at `0x10C000`. -/
theorem bootImage_created (vaddr : BitVec 32) :
    (bootImage vaddr).create.Wf [0x10C000, 0x101000] bootTemps ∧
    (bootImage vaddr).create.pages.Counted ∧
    ∀ i, IsUserEntry i → ¬ (bootImage vaddr).create.HasTable 0x10C000 i := by
  obtain ⟨hwf, hc, hbare, -⟩ := bootImage_wf.created bootImage_counted bootImage_create (by decide)
  exact ⟨hwf, hc, hbare⟩

theorem laid_userSegments : Laid ((bootImage 0x400000#32).create.segments imageAddr) := by
  exact ⟨by decide, by decide, pairwise_singleton ..⟩

theorem not_refused_userSegments (e : ℤ) :
    ¬ (bootImage 0x400000#32).create.Refused imageAddr 88 e := by
  rintro (⟨-, hbad⟩ | ⟨-, hshort⟩)
  · exact hbad ⟨⟨by decide, by decide, by decide, by decide⟩, by decide⟩
  · refine hshort ?_
    rw [Room, bootImage_create_pages]
    decide

/-- The image is accepted, and the process sees the first byte of the file, the zero after the
file's bytes, and its heap behind them. -/
theorem image_loaded_exactly_userSegments :
    ∃ r, processLoadElf bootCpu 0x10C000 imageAddr 88 (bootImage 0x400000#32).create =
    some (.ok r) ∧
      r.1.userByte 0x10C000 0x400000 = some 0xEF#8 ∧ r.1.userByte 0x10C000 0x400004 = some 0#8 ∧
      r.2.heapStart = 0x401000 ∧ r.1.userByte 0x10C000 0xBFFFEFFF = some 0#8 := by
  obtain ⟨r | r, hrun, hr⟩ : Lib.Ends
      (processLoadElf bootCpu 0x10C000 imageAddr 88 (bootImage 0x400000#32).create) _ _ :=
    image_loaded_exactly bootImage_wf bootImage_counted bootImage_create (by decide)
      bootImage_stored laid_userSegments
  · exact absurd hr (not_refused_userSegments _)
  obtain ⟨hseg, -, hheap, hstack⟩ := hr
  have hfile : (bootImage 0x400000#32).create.fileByte imageAddr 84 = 0xEF#8 := by
    have h : (bootImage 0x400000#32).create.mem.readBytes (imageAddr + 84) 1 = [0xEF#8] := by
      decide
    simpa [readBytes, fileByte] using h
  refine ⟨r, hrun, ?_, ?_, hheap.trans (by decide), hstack _ (by decide) (by decide)⟩
  · rw [← hfile]
    exact hseg _ mem_cons_self 0 (by decide)
  · exact hseg _ mem_cons_self 4 (by decide)

end Boot

theorem kernelPaddr (vaddr : BitVec 32) :
    (bootImage vaddr).create.vmmGetPaddr bootCpu 0x10C000 0xC0100000 =
    some ((bootImage vaddr).create, 0x100000) := by
  have hwf := (bootImage_created vaddr).1
  have hd : (bootImage vaddr).create.mem 0x10C000 768 = 0x102003#32 := by
    have := create_mem_self (bootImage vaddr)
    rw [bootImage_next] at this
    rw [this, newDirectory_shared (by decide) (by decide),
      show (bootImage vaddr).mem (bootImage vaddr).kernelPd = bootVmm.mem 0x101000 from
        bootImage_mem_of_ne (q := 0x101000) (by decide)]
    decide
  have hentries :
    (bootImage vaddr).create.entries 0x10C000 0xC0100000 = (0x102003#32, some 0x100003#32) := by
    have hidx : pdIndex 0xC0100000 = 768 := by decide
    have hpage : (bootImage vaddr).create.mem 0x102000 = bootVmm.mem 0x102000 := by
      rw [create_mem_of_ne (by rw [bootImage_next]; decide), bootImage_mem_of_ne (by decide)]
    rw [entries, hidx, hd, if_pos (by decide), show pageOf 0x102003#32 = 0x102000 by decide, hpage]
    decide
  rw [vmmGetPaddr, (hwf.ready bootCpu).readEntries (d := 0x10C000) ⟨by decide, by decide⟩
    (by decide) (by decide) ?_ rfl,
    hentries]
  · rfl
  · rw [show pdIndex 0xC0100000 = 768 by decide, hd]
    decide

/-- The image whose segment lies in the kernel's direct map of physical page `0x100000`. -/
def kernelImage : Vmm := (bootImage 0xC0100000#32).create

def overwritten : Vmm := kernelImage.moved 0x100000 (imageAddr + 84) 4

theorem kernelImage_movable :
    kernelImage.Movable bootCpu (bootTemps bootCpu) 0x100000 0x100000 (imageAddr + 84) 4 := by
  have hpage : ∀ k < 4, pageAt (imageAddr + 84 + k) = imageAddr := fun k hk => by
    rw [Nat.add_assoc, imageAddr_page (by omega)]
  refine ⟨(bootImage_created _).1.ready bootCpu,
    ⟨by decide, by decide⟩, by decide, by decide, by decide, by decide, by decide,
    fun k hk => ?_, fun k hk => ?_⟩ <;> rw [hpage k hk] <;> decide

theorem kernelSegment_copied :
    loadSegment bootCpu 0x10C000 imageAddr 88 ⟨ptLoad, 84, 0xC0100000, 4, 8, 7⟩
    (kernelImage, 0) = some (.ok (overwritten, 0xC0100008)) := by
  have hpages : forEach (loadPage bootCpu 0x10C000 7) (pagesBetween (pageAlignDown 0xC0100000)
      (pageAlignUp ((0xC0100000 + 8) % 2 ^ 32))) kernelImage = some (.ok kernelImage) := by
    rw [show pagesBetween (pageAlignDown 0xC0100000) (pageAlignUp ((0xC0100000 + 8) % 2 ^ 32)) =
      [0xC0100000] by decide, forEach, loadPage, kernelImage, kernelPaddr]
    rfl
  have hcopy : chunks (fun c => pageRoom (0xC0100000 + c))
    (copyFilePiece bootCpu 0x10C000 (imageAddr + 84) 0xC0100000)
      4 kernelImage = some (.ok overwritten) := by
    have hpiece : copyFilePiece bootCpu 0x10C000 (imageAddr + 84) 0xC0100000 0 4 kernelImage =
      some (.ok overwritten) := by
      have hdst : pageAlignDown 0x100000 + (0xC0100000 + 0) % 2 ^ 32 % pageSize =
        0x100000 := by decide
      rw [copyFilePiece, show pageAlignDown ((0xC0100000 + 0) % 2 ^ 32) =
        0xC0100000 by decide, kernelImage, kernelPaddr]
      simp only [Option.bind_eq_bind, Option.bind_some]
      exact kernelImage_movable.elfMemcpyPhysToPhys
    rw [chunks, chunksFrom, if_pos (by decide),
      show piece (fun c => pageRoom (0xC0100000 + c)) 4 0 = 4 by decide, hpiece]
    rfl
  rw [loadSegment, if_neg (by decide), if_neg (by decide), if_neg (by decide)]
  rw [hpages, andThen_ok, hcopy, andThen_ok]
  rfl

theorem overwritten_loadStack : ∃ s', loadStack bootCpu 0x10C000 overwritten = some (.ok s') ∧
    s'.mem 0x100000 = overwritten.mem 0x100000 := by
  obtain ⟨hwf, hc, hbare⟩ := bootImage_created 0xC0100000#32
  have hpage : overwritten = kernelImage.withPage 0x100000 (overwritten.mem 0x100000) := by
    exact congrArg (fun m => ({ kernelImage with mem := m } : Vmm)) (writeBytes_eq_setPage
      fun k hk =>
      kernelImage_movable.pageAt_dst (by rwa [length_readBytes] at hk))
  have hwf' : overwritten.Wf [0x10C000, 0x101000] bootTemps := by
    rw [hpage]
    exact hwf.setPage (by decide) (by decide)
  have hbare' : ∀ i, IsUserEntry i → ¬ overwritten.HasTable 0x10C000 i := fun i hi ht => by
    exact hbare i hi ht
  have hpages : overwritten.pages = bootPages.allocPage.1.allocPage.1 := bootImage_create_pages
  have hroom : ¬ overwritten.NoStack := by
    rw [NoStack, hpages]
    decide
  have hstack : Ends (loadStack bootCpu 0x10C000 overwritten) _ _ :=
    (hwf'.loading hc mem_cons_self hbare').loadStack
  obtain ⟨r, hrun, hres⟩ := hstack
  cases r with
  | error r => exact absurd hres.2.1 hroom
  | ok s' =>
    obtain ⟨frames, hl⟩ := hres
    refine ⟨s', hrun, hl.others _ ?_ (by decide)⟩
    decide

theorem kernelImage_read {off n : ℕ} (h : off + n ≤ 88) :
    kernelImage.elfMemcpyFromPhys bootCpu (imageAddr + off) n =
      some (.ok (kernelImage, kernelImage.mem.readBytes (imageAddr + off) n)) := by
  obtain ⟨hwf, hc, hbare⟩ := bootImage_created 0xC0100000#32
  have himg : kernelImage.ImageAt bootTemps 0x10C000 imageAddr 88 := by
    have := bootImage_stored.imageAt (s := bootImage 0xC0100000#32) (by
      exact show bootPages.allocPage.1.Free 0x10C000 by decide)
    rwa [bootImage_next] at this
  exact (hwf.space hc mem_cons_self hbare).readImage himg h

theorem kernelImage_elfHeader : elfVerifyHeader (kernelImage.elfHeader imageAddr) = 0 ∧
    (kernelImage.elfHeader imageAddr).ePhentsize = phdrSize ∧
    (kernelImage.elfHeader imageAddr).ePhoff = ehdrSize ∧
    (kernelImage.elfHeader imageAddr).ePhnum = 1 := by
  decide

theorem kernelHeader_loaded : loadHeader bootCpu 0x10C000 imageAddr 88 ehdrSize 0 (kernelImage, 0) =
    some (.ok (overwritten, 0xC0100008)) := by
  have hph : ProgramHeader.ofBytes (kernelImage.mem.readBytes (imageAddr + ehdrSize) phdrSize) =
      ⟨ptLoad, 84, 0xC0100000, 4, 8, 7⟩ := by
    decide
  have hread : kernelImage.elfMemcpyFromPhys bootCpu
    (imageAddr + (ehdrSize + 0 * phdrSize) % 2 ^ 32) phdrSize =
      some (.ok (kernelImage, kernelImage.mem.readBytes (imageAddr + ehdrSize) phdrSize)) := by
    exact kernelImage_read (by decide)
  rw [loadHeader_of_read hread hph, if_neg (by decide), kernelSegment_copied]

theorem kernelImage_zero : kernelImage.mem 0x100000 = fun _ => 0#32 := by
  rfl

theorem overwritten_word : overwritten.mem 0x100000 0 = 0xDEADBEEF#32 := by
  decide

theorem kernelImage_loaded {s' : Vmm}
    (hstack : loadStack bootCpu 0x10C000 overwritten = some (.ok s')) :
    ∃ info, processLoadElf bootCpu 0x10C000 imageAddr 88 kernelImage = some (.ok (s', info)) := by
  obtain ⟨hok, hsize, hoff, hnum⟩ := kernelImage_elfHeader
  have hread : kernelImage.elfMemcpyFromPhys bootCpu (imageAddr + 0) ehdrSize = _ :=
    kernelImage_read (by decide)
  rw [Nat.add_zero] at hread
  have hheaders :
    forEach (loadHeader bootCpu 0x10C000 imageAddr 88 ehdrSize) (range 1) (kernelImage, 0) =
      some (.ok (overwritten, 0xC0100008)) := by
    rw [range_one, forEach, kernelHeader_loaded]
    rfl
  rw [processLoadElf_of_read (by decide) hread (show _ = kernelImage.elfHeader imageAddr
    from rfl) hok hsize
    (by rw [hoff, hnum]; decide), hoff, hnum, hheaders, andThen_ok, hstack, andThen_ok]
  exact ⟨_, rfl⟩

theorem kernelImage_not_free : ¬ kernelImage.pages.Free 0x100000 := by
  decide

end Vmm

end Xnix
