import Xnix.Proofs.Images
import Xnix.Proofs.Spaces

/-!
# The loader does what the image asks for

`process_load_elf` on an image whose segments lie in the user half: it comes to its end, it only
takes pages that were free, and what the process then sees is what the image asks for.
-/

namespace Xnix

open Lib Memory View

namespace Vmm

variable {b s s' : Vmm} {cpu : Cpu} {d p q v v' pd a src len elfData elfSize : ℕ}
  {dirs frames : List ℕ} {temps : Cpu → ℕ} {flags : BitVec 32} {A : View} {ph : ProgramHeader}

def userByte (s : Vmm) (d a : ℕ) : Option (BitVec 8) :=
  if hasBit (s.pte d a) ptePresent then some (s.mem.readByte (pageOf (s.pte d a) + a % pageSize))
    else none

theorem MapsTo.userByte (h : s.MapsTo d a q) :
    s.userByte d a = some (s.mem.readByte (q + a % pageSize)) := by
  rw [Vmm.userByte, if_pos h.present, h.page]

theorem userByte_isSome : (s.userByte d a).isSome = hasBit (s.pte d a) ptePresent := by
  unfold userByte
  split <;> simp_all

theorem exists_mapsTo (hu : IsUserEntry (pdIndex a)) (h : (s.userByte d a).isSome = true) :
  ∃ q, s.MapsTo d a q := ⟨_, hu, userByte_isSome ▸ h, rfl⟩

theorem userByte_congr (hpte : s'.pte d a = s.pte d a)
    (hmem : hasBit (s.pte d a) ptePresent = true →
    s'.mem (pageOf (s.pte d a)) = s.mem (pageOf (s.pte d a))) :
    s'.userByte d a = s.userByte d a := by
  unfold userByte
  rw [hpte]
  split
  · rename_i hp
    have hpage : pageAt (pageOf (s.pte d a) + a % pageSize) = pageOf (s.pte d a) :=
      pageAt_add (pageOf_isPage _).1 (Nat.mod_lt _ (by decide))
    rw [readByte, readByte, hpage, hmem hp]
  · rfl

theorem Space.userByte_new (h : b.Space s dirs temps pd frames)
    (n : s.NewPage s' dirs temps pd v p flags)
    (hv : IsUserEntry (pdIndex v)) (ha : IsUserEntry (pdIndex a)) :
    s'.userByte pd a = if a / pageSize = v / pageSize then some 0#8 else s.userByte pd a := by
  split
  · rename_i he
    have hm : s'.MapsTo pd a p := (n.mapsTo_iff h.pd_mem).mpr (by rw [if_pos he]; exact ⟨ha, rfl⟩)
    have hpage : pageAt (p + a % pageSize) = p :=
      pageAt_add (isPage_of_free n.free).1 (Nat.mod_lt _ (by decide))
    rw [hm.userByte, readByte, hpage, n.zero, byteOf_zero]
  · rename_i he
    have hpte : s'.pte pd a = s.pte pd a := by
      rw [n.pte pd h.pd_mem a ha, if_neg fun h => he h.2]
    refine userByte_congr hpte fun hp => ?_
    have hq := h.mapped a _ ⟨ha, hp, rfl⟩
    have htab : s'.OwnTable pd (s'.table pd (pdIndex v)) :=
      ⟨_, hv, (n.hasTable pd h.pd_mem _ hv).mpr (.inr ⟨rfl, rfl⟩), rfl⟩
    refine n.mem _ (fun he => ?_) (ne_of_mem_of_not_mem h.pd_mem (h.frame_ne hq).1).symm
      fun he => ?_
    · exact (h.frame_taken hq).not_free (he ▸ n.free)
    · exact (h.new n hv).table_ne _ (List.mem_cons_of_mem p hq) (he ▸ htab)

theorem Space.userByte_moved (h : b.Space s dirs temps pd frames) (hm : s.MapsTo pd v q)
    (hlen : v % pageSize + len ≤ pageSize) (ha : IsUserEntry (pdIndex a)) :
    (s.moved (q + v % pageSize) src len).userByte pd a =
      if v ≤ a ∧ a < v + len then some (s.mem.readByte (src + (a - v))) else s.userByte pd a := by
  have hq := h.mapped v q hm
  have hpage : IsPage q := isPage_of_taken (h.frame_taken hq)
  have hin : ∀ k < (s.mem.readBytes src len).length, pageAt (q + v % pageSize + k) = q :=
    fun k hk => by
    rw [length_readBytes] at hk
    rw [Nat.add_assoc]
    exact pageAt_add hpage.1 (by unfold pageSize at *; omega)
  have hpte : (s.moved (q + v % pageSize) src len).pte pd a = s.pte pd a := by
    rw [moved, writeBytes_eq_setPage hin]
    exact pte_withPage (ne_of_mem_of_not_mem h.pd_mem (h.frame_ne hq).1) fun ht he =>
      h.table_ne q hq ⟨_, ha, ht, he⟩
  by_cases he : v / pageSize = a / pageSize
  · have hma := hm.congr he
    have hma' : (s.moved (q + v % pageSize) src len).MapsTo pd a q :=
      ⟨ha, hpte ▸ hma.present, hpte ▸ hma.page⟩
    have hiff : q + v % pageSize ≤ q + a % pageSize ∧
        q + a % pageSize < q + v % pageSize + (s.mem.readBytes src len).length ↔
        v ≤ a ∧ a < v + len := by
      rw [length_readBytes]
      unfold pageSize at *
      omega
    rw [hma'.userByte, hma.userByte, moved, readByte_writeBytes]
    simp only [hiff]
    split
    · rename_i hva
      have hsub : q + a % pageSize - (q + v % pageSize) = a - v := by
        unfold pageSize at *
        omega
      have hlt : a - v < len := by omega
      rw [hsub, readBytes, List.getD_eq_getElem?_getD, List.getElem?_map, List.getElem?_range hlt]
      rfl
    · rfl
  · rw [if_neg (by unfold pageSize at *; omega)]
    refine userByte_congr hpte fun hp => ?_
    have hne : pageOf (s.pte pd a) ≠ q := fun hpq => he (h.inj v a q hm ⟨ha, hp, hpq⟩)
    exact writeBytes_page_of_ne fun k hk => by rw [hin k hk]; exact hne

/-- A space that shows `A`, when nothing but its own pages has been written to. -/
structure Loading (b s : Vmm) (dirs : List ℕ) (temps : Cpu → ℕ) (pd : ℕ) (frames : List ℕ)
    (A : View) : Prop extends Space b s dirs temps pd frames where
  kept : ∀ q, q ≠ pd → ¬ s.OwnTable pd q → q ∉ frames → s.mem q = b.mem q
  shows : ∀ a, IsUserEntry (pdIndex a) → s.userByte pd a = A a

theorem Wf.loading (h : s.Wf dirs temps) (hc : s.pages.Counted) (hd : pd ∈ dirs)
    (hbare : ∀ i, IsUserEntry i → ¬ s.HasTable pd i) :
    s.Loading s dirs temps pd [] fun _ => none := by
  refine ⟨h.space hc hd hbare, fun _ _ _ _ => rfl, fun a ha => ?_⟩
  rw [userByte, pte_of_no_table (hbare _ ha)]
  rfl

theorem Loading.new (h : b.Loading s dirs temps pd frames A)
    (n : s.NewPage s' dirs temps pd v p flags) (hv : IsUserEntry (pdIndex v)) :
    b.Loading s' dirs temps pd (p :: frames) fun a =>
    if a / pageSize = v / pageSize then some 0#8 else A a := by
  refine ⟨h.toSpace.new n hv, fun q hpd ht hq => ?_, fun a ha => ?_⟩
  · rw [List.mem_cons, not_or] at hq
    have hown := n.ownTable_iff (q := q) h.pd_mem hv
    rw [n.mem q hq.1 hpd
      fun he => ht ⟨_, hv, (n.hasTable pd h.pd_mem _ hv).mpr (.inr ⟨rfl, rfl⟩), he.symm⟩]
    exact h.kept q hpd (fun hold => ht (hown.mpr (.inl hold))) hq.2
  · rw [h.userByte_new n hv ha, h.shows a ha]

theorem Space.resolve (h : b.Space s dirs temps pd frames) (cpu : Cpu) : s.resolve cpu pd = pd :=
  if_neg (h.wf.dir_taken pd h.pd_mem).1.pos.ne'

theorem Loading.loadPage (h : b.Loading s dirs temps pd frames A) (hv : IsUserEntry (pdIndex v))
    (pFlags : ℕ) : Ends (loadPage cpu pd pFlags v s)
      (fun r => (∃ frames, b.Space r.1 dirs temps pd frames) ∧ r.2 = -eNoMem ∧ ¬ s.Room 1)
      (fun s' => (∃ frames, b.Loading s' dirs temps pd frames (A.addPage v)) ∧ ∀ n, s.Room (n + 1) →
      s'.Room n) := by
  have hres := h.resolve cpu
  rw [Vmm.loadPage, h.wf.getPaddr (hres.symm ▸ h.pd_mem) hv, hres]
  simp only [Option.bind_eq_bind, Option.bind_some]
  by_cases hp : hasBit (s.pte pd v) ptePresent = true
  · have hpos := (h.frame_taken (h.mapped v _ ⟨hv, hp, rfl⟩)).1.pos
    have hne : ¬ paddrOf (s.pte pd v) v = 0 := by
      unfold paddrOf
      omega
    rw [if_pos hp, if_neg hne]
    refine .ok ⟨⟨frames, h.toSpace, h.kept, fun a ha => ?_⟩, fun n hn => hn.mono (Nat.le_succ n)⟩
    rw [h.shows a ha, addPage]
    split
    · rename_i he
      have hsome : (A a).isSome = true := by
        rw [← h.shows a ha, userByte_isSome, pte_congr he]
        exact hp
      obtain ⟨x, hx⟩ := Option.isSome_iff_exists.mp hsome
      rw [hx]
      rfl
    · rfl
  · rw [if_neg hp, if_pos rfl]
    refine ((h.wf.newPage h.counted h.pd_mem hv).imp ?_ fun _ hn => hn).andThen fun r hnew => ?_
    · rintro r ⟨rfl, hshort⟩
      refine ⟨⟨frames, h.toSpace⟩, rfl, fun hroom => ?_⟩
      have := hroom.1
      have := hroom.2
      unfold Short at hshort
      omega
    · obtain ⟨n, hhigh, hlow⟩ := hnew
      refine .ok ⟨⟨r.2 :: frames, ?_⟩, fun n hn => ⟨by have := hn.1; omega, by have := hn.2; omega⟩⟩
      have := h.new n hv
      refine ⟨this.toSpace, this.kept, fun a ha => ?_⟩
      rw [this.shows a ha, addPage]
      split
      · rename_i he
        have hnone : A a = none := by
          rw [← h.shows a ha, userByte, pte_congr he, if_neg hp]
        rw [hnone]
        rfl
      · rfl

structure ImageAt (b : Vmm) (temps : Cpu → ℕ) (pd elfData elfSize : ℕ) : Prop where
  le : elfData + elfSize ≤ 2 ^ 32
  not_free : ∀ k < elfSize, ¬ b.pages.Free (Lib.Memory.pageAt (elfData + k))
  ne_pd : ∀ k < elfSize, Lib.Memory.pageAt (elfData + k) ≠ pd
  ne_temp : ∀ k < elfSize, ∀ cpu, Lib.Memory.pageAt (elfData + k) ≠ temps cpu

def fileByte (b : Vmm) (elfData k : ℕ) : BitVec 8 := b.mem.readByte (elfData + k)

theorem Loading.copyFilePiece (h : b.Loading s dirs temps pd frames A)
    (img : b.ImageAt temps pd elfData elfSize)
    {offset vaddr c : ℕ} (hv : IsUserEntry (pdIndex (vaddr + c)))
    (hsome : (A (vaddr + c)).isSome = true)
    (hlen : (vaddr + c) % pageSize + len ≤ pageSize) (hoff : offset + c + len ≤ elfSize) :
    Ends (copyFilePiece cpu pd (elfData + offset) vaddr c len s) (fun _ => False)
      (fun s' => b.Loading s' dirs temps pd frames
        (A.addBytes (vaddr + c) len fun k => b.fileByte elfData (offset + c + k)) ∧
        s'.pages = s.pages) := by
  have hlt : vaddr + c < 2 ^ 32 := by
    have := hv.2
    unfold pdIndex at this
    omega
  have hmod : (vaddr + c) % 2 ^ 32 = vaddr + c := Nat.mod_eq_of_lt hlt
  obtain ⟨q, hm⟩ :=
    exists_mapsTo hv (h.shows _ hv ▸ hsome : (s.userByte pd (vaddr + c)).isSome = true)
  have hq := h.mapped _ q hm
  have hqpage : IsPage q := isPage_of_taken (h.frame_taken hq)
  have hqpos := (h.frame_taken hq).1.pos
  have hdown : (vaddr + c) / pageSize = pageAlignDown (vaddr + c) / pageSize := by
    unfold pageAlignDown pageSize
    omega
  have hmd := hm.congr hdown
  have hpaddr : paddrOf (s.pte pd (pageAlignDown (vaddr + c))) (pageAlignDown (vaddr + c)) = q := by
    have : pageAlignDown (vaddr + c) % pageSize = 0 := by
      unfold pageAlignDown pageSize
      omega
    rw [paddrOf, hmd.page, this, Nat.add_zero]
  have hsrc : ∀ k < len, elfData + offset + c + k = elfData + (offset + c + k) :=
    fun k _ => by omega
  have hread : ∀ k < len, s.mem.readByte (elfData + offset + c + k) =
    b.fileByte elfData (offset + c + k) := fun k hk => by
      have hk' : offset + c + k < elfSize := by omega
      rw [fileByte, hsrc k hk, readByte, readByte,
        h.others _ (img.not_free _ hk') (img.ne_pd _ hk')]
  have hmov : s.Movable cpu (temps cpu) q (q + (vaddr + c) % pageSize)
    (elfData + offset + c) len := by
    refine ⟨h.wf.ready cpu, hqpage, (h.frame_ne hq).2 cpu,
      fun he => (h.frame_ne hq).1 (he ▸
      h.wf.cr3_mem cpu), by omega, by omega, ?_, fun k hk => ?_, fun k hk he => ?_⟩
    · have := img.le
      omega
    · rw [hsrc k hk]
      exact img.ne_temp _ (by omega) cpu
    · rw [hsrc k hk] at he
      exact img.not_free _ (by omega) (he ▸ h.fresh q (.inr hq))
  have hres := h.resolve cpu
  have hdownq : pageAlignDown q = q := by
    have := hqpage.1
    unfold pageAlignDown pageSize
    omega
  rw [Vmm.copyFilePiece, hmod, h.wf.getPaddr (hres.symm ▸ h.pd_mem) hmd.user, hres,
    if_pos hmd.present, hpaddr]
  simp only [Option.bind_eq_bind, Option.bind_some]
  rw [if_neg hqpos.ne', hdownq, hmov.elfMemcpyPhysToPhys]
  have hin : ∀ k < (s.mem.readBytes (elfData + offset + c) len).length,
      pageAt (q + (vaddr + c) % pageSize + k) = q := fun k hk =>
    hmov.pageAt_dst (by rwa [length_readBytes] at hk)
  have hspace : b.Space (s.moved (q + (vaddr + c) % pageSize) (elfData + offset + c) len) dirs temps
    pd frames := by
    rw [moved, writeBytes_eq_setPage hin]
    exact h.toSpace.write hq _
  refine .ok ⟨⟨hspace, fun p hpd ht hp => ?_, fun a ha => ?_⟩, rfl⟩
  · have hpq : p ≠ q := fun he => hp (he ▸ hq)
    have hmem := fun {p} (hp : p ≠ q) => hmov.mem_of_ne le_rfl hp
    rw [hmem hpq]
    refine h.kept p hpd ?_ hp
    rintro ⟨i, hi, hti, he⟩
    refine ht ⟨i, hi, ?_, ?_⟩
    · rwa [HasTable, hmem (ne_of_mem_of_not_mem h.pd_mem (h.frame_ne hq).1)]
    · rwa [table, hmem (ne_of_mem_of_not_mem h.pd_mem (h.frame_ne hq).1)]
  · rw [h.userByte_moved hm hlen ha, addBytes, h.shows a ha]
    split
    · rename_i hva
      rw [hread _ (by omega)]
    · rfl

section Segments

variable (h : b.Loading s dirs temps pd frames A)
include h

theorem Loading.loadPages (pFlags : ℕ) {pages : List ℕ}
    (hp : ∀ v ∈ pages, IsUserEntry (pdIndex v)) :
    Ends (forEach (Vmm.loadPage cpu pd pFlags) pages s)
      (fun r => (∃ frames, b.Space r.1 dirs temps pd frames) ∧ r.2 = -eNoMem ∧
      ¬ s.Room pages.length)
      (fun s' => (∃ frames, b.Loading s' dirs temps pd frames (pages.foldl addPage A)) ∧
        ∀ n, s.Room (n + pages.length) → s'.Room n) := by
  have hrule : Ends (forEach (Vmm.loadPage cpu pd pFlags) pages s) _ _ := forEach_spec
    (fun l s' => (∀ v ∈ l, IsUserEntry (pdIndex v)) ∧
    (∃ frames A', b.Loading s' dirs temps pd frames A' ∧
      l.foldl addPage A' = pages.foldl addPage A) ∧ ∀ n, s.Room (n + pages.length) →
      s'.Room (n + l.length))
    (fun r => (∃ frames, b.Space r.1 dirs temps pd frames) ∧ r.2 = -eNoMem ∧
      ¬ s.Room pages.length) ?_ pages
    ⟨hp, ⟨frames, A, h, rfl⟩, fun _ hn => hn⟩
  · refine hrule.imp (fun _ hr => hr) ?_
    rintro s' ⟨-, ⟨frames', A', h', rfl⟩, hroom⟩
    exact ⟨⟨frames', h'⟩, hroom⟩
  · rintro v l s' ⟨hl, ⟨frames', A', h', he⟩, hroom⟩
    refine (h'.loadPage (hl v List.mem_cons_self) pFlags).imp ?_ ?_
    · rintro r ⟨hr, hmem, hshort⟩
      refine ⟨hr, hmem, fun hs => hshort ?_⟩
      have hleft := hroom 0 (by rwa [Nat.zero_add])
      rw [Nat.zero_add, List.length_cons] at hleft
      exact hleft.mono (Nat.le_add_left ..)
    · rintro s'' ⟨⟨frames'', h''⟩, hroom'⟩
      exact ⟨fun v' hv' => hl v' (List.mem_cons_of_mem _ hv'), ⟨frames'', _, h'', he⟩,
        fun n hn => hroom' _ (hroom n hn)⟩

theorem Loading.copyFile (img : b.ImageAt temps pd elfData elfSize) {offset vaddr n : ℕ}
    (hv : ∀ c < n, IsUserEntry (pdIndex (vaddr + c)))
    (hsome : ∀ c < n, (A (vaddr + c)).isSome = true) (hoff : offset + n ≤ elfSize) :
    Ends (chunks (fun c => pageRoom (vaddr + c))
      (Vmm.copyFilePiece cpu pd (elfData + offset) vaddr) n s) (fun _ => False)
      (fun s' => b.Loading s' dirs temps pd frames
        (A.addBytes vaddr n fun k => b.fileByte elfData (offset + k)) ∧ s'.pages = s.pages) := by
  refine chunks_spec (fun c s' => b.Loading s' dirs temps pd frames
    (A.addBytes vaddr c fun k => b.fileByte elfData (offset + k)) ∧ s'.pages = s.pages) _
    (fun c _ => pageRoom_pos (vaddr + c)) ?_ ?_
  · rintro c s' hc ⟨h', hpages⟩
    have hle : c + piece (fun c => pageRoom (vaddr + c)) n c ≤ n := add_piece_le hc.le
    have hthere : (A.addBytes vaddr c (fun k => b.fileByte elfData (offset + k))
      (vaddr + c)).isSome = true := by
      rw [addBytes, if_neg (by omega)]
      exact hsome c hc
    refine (h'.copyFilePiece img (hv c hc) hthere (copyPiece_le vaddr n c)
      (by unfold copyPiece; omega)).imp
      (fun _ hr => hr) fun s'' ⟨h'', hpages''⟩ => ⟨?_, hpages''.trans hpages⟩
    simp only [Nat.add_assoc] at h''
    rwa [addBytes_add A vaddr fun k => b.fileByte elfData (offset + k)] at h''
  · refine ⟨⟨h.toSpace, h.kept, fun a ha => ?_⟩, rfl⟩
    rw [h.shows a ha, addBytes, if_neg (by omega)]

theorem Loading.loadSegment (img : b.ImageAt temps pd elfData elfSize) (hv : ph.pVaddr < 2 ^ 32)
    (hm : ph.pMemsz < 2 ^ 32) (huser : ph.Accepted elfSize → ph.InUserHalf) (e : ℕ) :
    Ends (loadSegment cpu pd elfData elfSize ph (s, e))
      (fun r => (∃ frames, b.Space r.1 dirs temps pd frames) ∧
        (r.2 = -eInval ∧ ¬ ph.Accepted elfSize ∨ r.2 = -eNoMem ∧ ¬ s.Room ph.pages.length))
      (fun r => (∃ frames,
        b.Loading r.1 dirs temps pd frames (A.addSegment (b.fileByte elfData) ph)) ∧
        ph.Accepted elfSize ∧ r.2 = max e (ph.pVaddr + ph.pMemsz) ∧ ∀ n,
        s.Room (n + ph.pages.length) → r.1.Room n) := by
  refine .ite (fun h1 => .error ⟨⟨frames, h.toSpace⟩, .inl ⟨rfl, fun ha => h1.not_ge ha.filesz_le⟩⟩)
    fun h1 => ?_
  refine .ite (fun h2 => .error ⟨⟨frames, h.toSpace⟩, .inl ⟨rfl, fun ha => h2.not_ge ha.offset_le⟩⟩)
    fun h2 => ?_
  refine .ite (fun h3 => .error ⟨⟨frames, h.toSpace⟩, .inl ⟨rfl, fun ha => ?_⟩⟩) fun h3 => ?_
  · have := ha.end_lt
    omega
  have hacc : ph.Accepted elfSize := ⟨by omega, by omega, by omega⟩
  have hhalf := huser hacc
  have hend := hacc.end_lt
  have hdown : pageAlignDown ph.pVaddr ≤ ph.pVaddr := by
    unfold pageAlignDown pageSize
    omega
  refine ((h.loadPages ph.pFlags fun v hv => hhalf.pages hend hv).imp
    (fun _ hr => ⟨hr.1, .inr hr.2⟩) fun _ hr => hr).andThen fun s1 ⟨⟨frames₁, l1⟩, hroom⟩ => ?_
  refine ((l1.copyFile img (fun c hc => hhalf _ (by omega) (by omega)) (fun c hc => ?_)
    hacc.offset_le).imp (fun _ hr => hr.elim) fun _ hr => hr).andThen fun s2 ⟨l2, hpages⟩ => ?_
  · have hon : ∃ v ∈ ph.pages, (ph.pVaddr + c) / pageSize = v / pageSize := by
      refine (onPage_iff (hhalf.end_le (by omega))).mpr ⟨by omega, ?_⟩
      have := hhalf.end_le (by omega)
      unfold pageAlignUp pageSize at *
      omega
    exact (congrArg Option.isSome ((addPages_apply ph.pages A).trans (if_pos hon))).trans rfl
  · refine .ok ⟨⟨frames₁, l2⟩, hacc, ?_, fun n hn => ?_⟩
    · split <;> omega
    · rw [Room, hpages]
      exact hroom n hn

end Segments

end Vmm

end Xnix
