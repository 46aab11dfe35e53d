import Xnix.Proofs.Loading

/-!
# A whole load

The headers of the image, the stack, and `process_load_elf` as a whole. What it loads is compared
with what the image asks for, and what it writes to with the pages that were free before.
-/

namespace Xnix

open List Lib

theorem byteAt_lt (bytes : List (BitVec 8)) (i : ℕ) : byteAt bytes i < 2 ^ 8 :=
    (bytes.getD i 0#8).isLt

theorem wordAt_lt (bytes : List (BitVec 8)) (i : ℕ) : wordAt bytes i < 2 ^ 32 := by
  have h₀ := byteAt_lt bytes i
  have h1 := byteAt_lt bytes (i + 1)
  have h2 := byteAt_lt bytes (i + 2)
  have h3 := byteAt_lt bytes (i + 2 + 1)
  unfold wordAt halfAt
  omega

namespace Vmm

variable {b s s' : Vmm} {cpu : Cpu} {q v pd a n off elfData elfSize : ℕ} {dirs frames : List ℕ}
  {temps : Cpu → ℕ} {A : View} {ph : ProgramHeader} {i : ℕ} {bytes : List (BitVec 8)}

def elfHeader (b : Vmm) (elfData : ℕ) : ElfHeader := .ofBytes (b.mem.readBytes elfData ehdrSize)

def programHeader (b : Vmm) (elfData i : ℕ) : ProgramHeader :=
  .ofBytes (b.mem.readBytes (elfData + ((b.elfHeader elfData).ePhoff + i * phdrSize)) phdrSize)

def segmentsOf (b : Vmm) (elfData : ℕ) (l : List ℕ) : List ProgramHeader :=
  (l.map (b.programHeader elfData)).filter (·.pType = ptLoad)

def segments (b : Vmm) (elfData : ℕ) : List ProgramHeader :=
  b.segmentsOf elfData (range (b.elfHeader elfData).ePhnum)

theorem segmentsOf_cons (i : ℕ) (l : List ℕ) : b.segmentsOf elfData (i :: l) =
    if (b.programHeader elfData i).pType =
      ptLoad then b.programHeader elfData i :: b.segmentsOf elfData l
    else b.segmentsOf elfData l := by
  unfold segmentsOf
  rw [map_cons, filter_cons]
  simp only [decide_eq_true_eq]

theorem Space.readImage (h : b.Space s dirs temps pd frames)
    (img : b.ImageAt temps pd elfData elfSize) (hle : off + n ≤ elfSize) :
    s.elfMemcpyFromPhys cpu (elfData + off) n =
    some (.ok (s, b.mem.readBytes (elfData + off) n)) := by
  have hle' := img.le
  rw [(h.wf.ready cpu).elfMemcpyFromPhys (by omega) fun k hk => ?_]
  · have hread : s.mem.readBytes (elfData + off) n = b.mem.readBytes (elfData + off) n :=
      Memory.readBytes_congr fun k hk => by
        rw [Nat.add_assoc]
        exact h.others _ (img.not_free _ (by omega)) (img.ne_pd _ (by omega))
    rw [hread]
  · rw [Nat.add_assoc]
    exact img.ne_temp _ (by omega) cpu

theorem loadHeader_of_read {ePhoff e : ℕ}
    (hread : s.elfMemcpyFromPhys cpu (elfData + (ePhoff + i * phdrSize) % 2 ^ 32) phdrSize =
    some (.ok (s', bytes)))
    (hph : ProgramHeader.ofBytes bytes = ph) : loadHeader cpu pd elfData elfSize ePhoff i (s, e) =
      if ph.pType ≠ ptLoad then some (.ok (s', e))
        else loadSegment cpu pd elfData elfSize ph (s', e) := by
  rw [loadHeader, hread, ← hph]
  rfl

/-- The pages that segments touch, counted for each. -/
def pageCount (segments : List ProgramHeader) : ℕ := (segments.map (·.pages.length)).sum

theorem pageCount_cons (ph : ProgramHeader) (l : List ProgramHeader) :
    pageCount (ph :: l) = pageCount l + ph.pages.length := Nat.add_comm ..

/-- The ELF header passes the checks of the loader. -/
structure HeaderOk (b : Vmm) (elfData elfSize : ℕ) : Prop where
  size : ¬ (elfData = 0 ∨ elfSize = 0 ∨ elfSize < ehdrSize)
  header : elfVerifyHeader (b.elfHeader elfData) = 0
  phentsize : (b.elfHeader elfData).ePhentsize = phdrSize
  table : (b.elfHeader elfData).ePhoff + (b.elfHeader elfData).ePhnum *
    (b.elfHeader elfData).ePhentsize ≤ elfSize

/-- All headers pass the checks of the loader. -/
structure WellFormed (b : Vmm) (elfData elfSize : ℕ) : Prop extends HeaderOk b elfData elfSize where
  accepted : ∀ ph ∈ b.segments elfData, ph.Accepted elfSize

/-- A load is refused: an image that is not well formed, or one for which there are not enough
pages. -/
def Refused (b : Vmm) (elfData elfSize : ℕ) (e : ℤ) : Prop :=
  e = -eInval ∧ ¬ b.WellFormed elfData elfSize ∨
    e = -eNoMem ∧ ¬ b.Room (pageCount (b.segments elfData) + userStackSize / pageSize)

structure Headers (b : Vmm) (dirs : List ℕ) (temps : Cpu → ℕ) (pd elfData elfSize : ℕ) (l : List ℕ)
    (r : Vmm × ℕ) : Prop where
  inFile : ∀ i ∈ l, (b.elfHeader elfData).ePhoff + i * phdrSize + phdrSize ≤ elfSize
  sub : b.segmentsOf elfData l ⊆ b.segments elfData
  left : ∀ ph ∈ (b.segmentsOf elfData l).takeWhile (·.Accepted elfSize), ph.InUserHalf
  loading : ∃ frames A, b.Loading r.1 dirs temps pd frames A ∧
    (b.segmentsOf elfData l).foldl (View.addSegment (b.fileByte elfData)) A =
      (b.segments elfData).foldl (View.addSegment (b.fileByte elfData)) fun _ => none
  maxEnd : (b.segmentsOf elfData l).foldl (fun e ph => max e (ph.pVaddr + ph.pMemsz)) r.2 =
    Xnix.maxEnd (b.segments elfData)
  accepted : ∀ ph ∈ b.segments elfData, ph ∈ b.segmentsOf elfData l ∨ ph.Accepted elfSize
  room : ∀ n, b.Room (n + pageCount (b.segments elfData)) →
    r.1.Room (n + pageCount (b.segmentsOf elfData l))

theorem Headers.loadHeader {l : List ℕ} {r : Vmm × ℕ}
    (h : Headers b dirs temps pd elfData elfSize (i :: l) r)
    (img : b.ImageAt temps pd elfData elfSize) :
    Ends (loadHeader cpu pd elfData elfSize (b.elfHeader elfData).ePhoff i r)
      (fun r => (∃ frames, b.Space r.1 dirs temps pd frames) ∧ b.Refused elfData elfSize r.2)
      (Headers b dirs temps pd elfData elfSize l) := by
  obtain ⟨frames, A, hl, htarget⟩ := h.loading
  have hin := h.inFile i mem_cons_self
  have hrest : ∀ j ∈ l, (b.elfHeader elfData).ePhoff + j * phdrSize + phdrSize ≤ elfSize :=
    fun j hj =>
    h.inFile j (mem_cons_of_mem _ hj)
  have hmod : ((b.elfHeader elfData).ePhoff + i * phdrSize) % 2 ^ 32 =
    (b.elfHeader elfData).ePhoff + i * phdrSize :=
    Nat.mod_eq_of_lt (by have := img.le; unfold phdrSize at *; omega)
  have hleft := h.left
  have hmax := h.maxEnd
  have hacc := h.accepted
  have hroom := h.room
  have hsub := h.sub
  rw [segmentsOf_cons] at hleft htarget hmax hacc hroom hsub
  rw [loadHeader_of_read (by rw [hmod]; exact hl.readImage img hin) (show _ =
    b.programHeader elfData i from rfl)]
  by_cases ht : (b.programHeader elfData i).pType = ptLoad
  · rw [if_pos ht] at hleft htarget hmax hacc hroom hsub
    rw [pageCount_cons] at hroom
    rw [if_neg (not_not.mpr ht)]
    have hreach : (b.programHeader elfData i).Accepted elfSize → ∀ ph ∈ b.programHeader elfData i ::
        (b.segmentsOf elfData l).takeWhile (·.Accepted elfSize), ph.InUserHalf := fun hok => by
      simpa only [takeWhile_cons, hok, decide_true, if_true] using hleft
    refine (hl.loadSegment img (wordAt_lt _ _) (wordAt_lt _ _)
      (fun hok => hreach hok _ mem_cons_self) r.2).imp ?_ ?_
    · rintro r' ⟨hspace, ⟨he, hbad⟩ | ⟨he, hshort⟩⟩
      · exact ⟨hspace, .inl ⟨he, fun hwf => hbad (hwf.accepted _ (hsub mem_cons_self))⟩⟩
      · refine ⟨hspace, .inr ⟨he, fun hb => hshort ?_⟩⟩
        have hleft' := hroom (userStackSize / pageSize) (hb.mono (Nat.add_comm ..).le)
        exact hleft'.mono ((Nat.le_add_left ..).trans (Nat.le_add_left ..))
    rintro r' ⟨⟨frames', hl'⟩, hok, he, hroom'⟩
    refine ⟨hrest, fun ph hph => hsub (mem_cons_of_mem _ hph),
      fun ph hph => hreach hok ph (mem_cons_of_mem _ hph),
      ⟨frames', _, hl', htarget⟩, ?_, fun ph hph => ?_,
      fun n hn => hroom' _ ((hroom n hn).mono (Nat.add_assoc ..).le)⟩
    · rw [he]
      exact hmax
    · rcases hacc ph hph with hph | hph
      · rcases mem_cons.mp hph with rfl | hph
        · exact .inr hok
        · exact .inl hph
      · exact .inr hph
  · rw [if_neg ht] at hleft htarget hmax hacc hroom hsub
    rw [if_pos ht]
    exact .ok ⟨hrest, hsub, hleft, ⟨frames, A, hl, htarget⟩, hmax, hacc, hroom⟩

theorem stackAddr_user (hi : i < 16) : IsUserEntry (pdIndex (stackAddr (i + 1))) := by
  unfold IsUserEntry pdIndex stackAddr userStackTop kernelVirtBase pageSize
  omega

theorem stackAddr_page (hi : i < 16) : stackAddr (i + 1) / pageSize = 0xBFFFE - i := by
  unfold stackAddr userStackTop kernelVirtBase pageSize
  omega

theorem pdIndex_stackAddr (hi : i < 16) : pdIndex (stackAddr (i + 1)) = 767 := by
  unfold pdIndex stackAddr userStackTop kernelVirtBase pageSize
  omega

def NoStack (s : Vmm) : Prop := s.pages.highFree < 16 ∨ s.pages.lowFree = 0

/-- The pages of the stack so far, each mapped at its place, when the stack is made in the state
`s`. -/
structure OnStack (b s : Vmm) (dirs : List ℕ) (temps : Cpu → ℕ) (pd : ℕ) (frames : List ℕ)
    (r : Vmm × List ℕ) : Prop where
  space : b.Space r.1 dirs temps pd (r.2.reverse ++ frames)
  le : r.2.length ≤ 16
  maps : ∀ j < r.2.length, r.1.MapsTo pd (stackAddr (j + 1)) (r.2.getD j 0)
  high : r.1.pages.highFree + r.2.length = s.pages.highFree
  low : r.1.HasTable pd 767 ∨ r.1.pages.lowFree = s.pages.lowFree

/-- The first `i` pages of the stack from its top are full of zeros. -/
def stackView (A : View) (i : ℕ) : View := fun a =>
  if userStackTop - i * pageSize ≤ a ∧ a < userStackTop then some 0#8 else A a

theorem OnStack.loadStackPage {r : Vmm × List ℕ} (h : OnStack b s dirs temps pd frames r)
    (hi : r.2.length = i) (hlt : i < 16)
    (hl : b.Loading r.1 dirs temps pd (r.2.reverse ++ frames) (stackView A i)) :
    Ends (loadStackPage cpu pd (i + 1) r) (fun r => OnStack b s dirs temps pd frames r ∧
    s.NoStack) (fun r =>
      OnStack b s dirs temps pd frames r ∧ r.2.length = i + 1 ∧
        b.Loading r.1 dirs temps pd (r.2.reverse ++ frames) (stackView A (i + 1))) := by
  have hv := stackAddr_user hlt
  have hidx := pdIndex_stackAddr hlt
  have hhigh := h.high
  obtain ⟨res, hrun, hres⟩ :
    Ends (newPage cpu pd (stackAddr (i + 1)) (vmmProtUser ||| vmmProtRead ||| vmmProtWrite)
    r.1) _ _ := h.space.wf.newPage h.space.counted h.space.pd_mem hv
  rw [Vmm.loadStackPage, hrun, Option.map_some]
  cases res with
  | error e =>
    obtain ⟨rfl, hshort⟩ := hres
    refine .error ⟨h, ?_⟩
    rcases hshort with h0 | ⟨hn, h0⟩
    · exact .inl (by omega)
    · exact .inr ((h.low.resolve_left (hidx ▸ hn)).symm.trans h0)
  | ok r' =>
    obtain ⟨n, hhigh'⟩ := hres
    have hnew := hl.new n hv
    have htable := (n.hasTable pd h.space.pd_mem _ hv).mpr (.inr ⟨rfl, rfl⟩)
    refine .ok ⟨⟨?_, ?_, fun j hj => ?_, ?_, .inl (hidx ▸ htable)⟩, by simp [hi], ?_⟩
    · simpa using hnew.toSpace
    · simp only [length_append, length_singleton]
      omega
    · simp only [length_append, length_singleton] at hj
      refine (n.mapsTo_iff h.space.pd_mem).mpr ?_
      have hpage := stackAddr_page (i := j) (by omega)
      have hpage' := stackAddr_page hlt
      split
      · obtain rfl : j = i := by omega
        refine ⟨hv, ?_⟩
        simp [← hi]
      · have hjlt : j < r.2.length := by
          by_contra hn
          omega
        have := h.maps j hjlt
        rwa [getD_eq_getElem?_getD, getElem?_append_left hjlt, ← getD_eq_getElem?_getD]
    · simp only [length_append, length_singleton]
      omega
    · have hview : (fun a => if a / pageSize = stackAddr (i + 1) / pageSize then some 0#8
          else stackView A i a) = stackView A (i + 1) := by
        funext a
        rw [stackAddr_page hlt]
        unfold stackView userStackTop kernelVirtBase pageSize
        split_ifs <;> first | rfl | omega
      rw [hview] at hnew
      simpa using hnew

theorem Space.unmapAll (cpu : Cpu) : ∀ {l : List ℕ} {s : Vmm}, b.Space s dirs temps pd frames →
    (∀ v ∈ l, IsUserEntry (pdIndex v)) →
    ∃ s', l.foldlM (fun s v => vmmUnmapPage s cpu pd v) s = some s' ∧
    b.Space s' dirs temps pd frames ∧
      ∀ v q, s'.MapsTo pd v q → s.MapsTo pd v q ∧ ∀ v' ∈ l, v / pageSize ≠ v' / pageSize
  | [], s, h, _ => ⟨s, rfl, h, fun v q hm => ⟨hm, by simp⟩⟩
  | v :: l, s, h, hl => by
    have hv := hl v mem_cons_self
    obtain ⟨s', hrun, hs', hmap⟩ := Space.unmapAll cpu (h.unmap hv)
      fun v' hv' => hl v' (mem_cons_of_mem _ hv')
    refine ⟨s', ?_, hs', fun v' q hm => ?_⟩
    · rw [foldlM_cons, (h.wf.reaches h.pd_mem hv cpu).vmmUnmapPage (h.resolve cpu)]
      exact hrun
    · obtain ⟨hm, hne⟩ := hmap v' q hm
      obtain ⟨hv', hm⟩ := (h.wf.mapsTo_unmap h.pd_mem hv).mp hm
      refine ⟨hm, fun w hw => ?_⟩
      rcases mem_cons.mp hw with rfl | hw
      · exact hv'
      · exact hne w hw

theorem OnStack.stackFail {r : Vmm × List ℕ} (h : OnStack b s dirs temps pd frames r) (cpu : Cpu) :
    ∃ s', stackFail cpu pd r.1 r.2 = some s' ∧ b.Space s' dirs temps pd frames := by
  have hle := h.le
  obtain ⟨s', hrun, hs', hmap⟩ := h.space.unmapAll cpu
    (l := (range r.2.length).map fun i => stackAddr (i + 1)) (by
      intro v hv
      obtain ⟨i, hi, rfl⟩ := mem_map.mp hv
      exact stackAddr_user (by have := mem_range.mp hi; omega))
  rw [foldlM_map] at hrun
  refine ⟨_, by rw [Vmm.stackFail, hrun, Option.map_some], ?_⟩
  refine (hs'.perm ((reverse_perm r.2).append_right frames)).free fun q hq v hm => ?_
  obtain ⟨j, hj, rfl⟩ := mem_iff_getElem.mp hq
  obtain ⟨hm, hne⟩ := hmap v _ hm
  have hmj := h.maps j hj
  rw [getD_eq_getElem?_getD, getElem?_eq_getElem hj] at hmj
  exact hne (stackAddr (j + 1)) (mem_map.mpr ⟨j, mem_range.mpr hj, rfl⟩) (h.space.inj _ _ _ hm hmj)

theorem Loading.loadStack (h : b.Loading s dirs temps pd frames A) :
    Ends (loadStack cpu pd s) (fun r => (∃ frames, b.Space r.1 dirs temps pd frames) ∧ s.NoStack ∧
      r.2 = -eNoMem) (fun s' => ∃ frames, b.Loading s' dirs temps pd frames A.addStack) := by
  have hstart : b.Loading s dirs temps pd frames (stackView A 0) := by
    refine ⟨h.toSpace, h.kept, fun a ha => ?_⟩
    rw [h.shows a ha, stackView, if_neg (by omega)]
  have hrule : Ends
    (forEach (loadStackPage cpu pd) ((range (userStackSize / pageSize)).map (· + 1)) (s, []))
      (fun r => OnStack b s dirs temps pd frames r ∧ s.NoStack)
      (fun r => OnStack b s dirs temps pd frames r ∧ r.2.length = 16 ∧
        b.Loading r.1 dirs temps pd (r.2.reverse ++ frames) (stackView A 16)) := by
    rw [forEach_map]
    refine forEach_range (fun i r => OnStack b s dirs temps pd frames r ∧ r.2.length = i ∧
      b.Loading r.1 dirs temps pd (r.2.reverse ++ frames) (stackView A i)) _ ?_ ?_
    · rintro i r hi ⟨hr, hlen, hl⟩
      exact hr.loadStackPage hlen hi hl
    · exact ⟨⟨h.toSpace, by simp, by simp, rfl, .inr rfl⟩, rfl, hstart⟩
  obtain ⟨res, hrun, hres⟩ := hrule
  rw [Vmm.loadStack, hrun, Option.bind_some]
  cases res with
  | error r =>
    obtain ⟨s', hfail, hs'⟩ := OnStack.stackFail hres.1 cpu
    simp only [hfail, Option.map_some]
    exact .error ⟨⟨frames, hs'⟩, hres.2, rfl⟩
  | ok r => exact .ok ⟨_, hres.2.2⟩

def loadedOf (b : Vmm) (elfData : ℕ) : Loaded where
  entry := (b.elfHeader elfData).eEntry
  heapStart := pageAlignUp (maxEnd (b.segments elfData))
  heapCurrent := pageAlignUp (maxEnd (b.segments elfData))
  heapMax := userStackTop - userStackSize
  mmapNext := abiShmMapBase
  stackPages := userStackSize / pageSize

def imageView (b : Vmm) (elfData : ℕ) : View :=
  View.addStack ((b.segments elfData).foldl (View.addSegment (b.fileByte elfData)) fun _ => none)

theorem processLoadElf_of_read {hdr : ElfHeader}
    (hsize : ¬ (elfData = 0 ∨ elfSize = 0 ∨ elfSize < ehdrSize))
    (hread : s.elfMemcpyFromPhys cpu elfData ehdrSize = some (.ok (s', bytes)))
    (hhdr : ElfHeader.ofBytes bytes = hdr) (hok : elfVerifyHeader hdr = 0)
    (hent : hdr.ePhentsize = phdrSize) (hend : hdr.ePhoff + hdr.ePhnum * phdrSize ≤ elfSize) :
    processLoadElf cpu pd elfData elfSize s =
      andThen (forEach (loadHeader cpu pd elfData elfSize hdr.ePhoff) (range hdr.ePhnum) (s', 0))
      fun r =>
      andThen (loadStack cpu pd r.1) fun s =>
      some (.ok (s, {
        entry := hdr.eEntry, heapStart := pageAlignUp r.2, heapCurrent := pageAlignUp r.2
        heapMax := userStackTop - userStackSize, mmapNext := abiShmMapBase
        stackPages := userStackSize / pageSize })) := by
  subst hhdr
  have hend : ¬ elfSize < (ElfHeader.ofBytes bytes).ePhoff + (ElfHeader.ofBytes bytes).ePhnum *
      (ElfHeader.ofBytes bytes).ePhentsize := by
    rw [hent]
    exact not_lt.mpr hend
  rw [processLoadElf, if_neg hsize, hread]
  exact (if_neg (not_not.mpr hok)).trans ((if_neg (not_not.mpr hent)).trans (if_neg hend))

theorem Wf.processLoadElf (h : b.Wf dirs temps) (hc : b.pages.Counted) (hd : pd ∈ dirs)
    (hbare : ∀ i, IsUserEntry i → ¬ b.HasTable pd i) (img : b.ImageAt temps pd elfData elfSize)
    (huser : b.HeaderOk elfData elfSize →
      ∀ ph ∈ (b.segments elfData).takeWhile (·.Accepted elfSize), ph.InUserHalf) :
    Ends (processLoadElf cpu pd elfData elfSize b)
      (fun r => (∃ frames, b.Space r.1 dirs temps pd frames) ∧ b.Refused elfData elfSize r.2)
      (fun r => (∃ frames, b.Loading r.1 dirs temps pd frames (b.imageView elfData)) ∧
        (∀ ph ∈ b.segments elfData, ph.Accepted elfSize) ∧ r.2 = b.loadedOf elfData) := by
  have hl := h.loading hc hd hbare
  have hread : ehdrSize ≤ elfSize →
      b.elfMemcpyFromPhys cpu elfData ehdrSize = some (.ok (b, b.mem.readBytes elfData ehdrSize)) :=
      fun hle =>
    hl.readImage img (show 0 + ehdrSize ≤ elfSize by omega)
  have hbad : ¬ b.WellFormed elfData elfSize →
      (∃ frames, b.Space b dirs temps pd frames) ∧ b.Refused elfData elfSize (-eInval) := fun hn =>
    ⟨⟨[], hl.toSpace⟩, .inl ⟨rfl, hn⟩⟩
  refine .ite (fun h1 => .error (hbad fun hw => hw.size h1)) fun h1 => ?_
  rw [hread (by omega)]
  refine .ite (fun h2 => .error (hbad fun hw => h2 hw.header)) fun h2 => ?_
  refine .ite (fun h3 => .error (hbad fun hw => h3 hw.phentsize)) fun h3 => ?_
  refine .ite (fun h4 => .error (hbad fun hw => h4.not_ge hw.table)) fun h4 => ?_
  have hok : b.HeaderOk elfData elfSize := ⟨h1, not_not.mp h2, not_not.mp h3, not_lt.mp h4⟩
  replace h3 : (b.elfHeader elfData).ePhentsize = phdrSize := not_not.mp h3
  replace h4 : (b.elfHeader elfData).ePhoff + (b.elfHeader elfData).ePhnum * phdrSize ≤
    elfSize := by
    rw [← h3]
    exact not_lt.mp h4
  have hstart : Headers b dirs temps pd elfData elfSize (range (b.elfHeader elfData).ePhnum)
    (b, 0) := by
    refine ⟨fun i hi => ?_, Subset.refl _, huser hok, ⟨[], _, hl, rfl⟩, rfl, fun ph hph => .inl hph,
      fun _ hn => hn⟩
    have hi := mem_range.mp hi
    unfold phdrSize at *
    omega
  refine (forEach_spec (Headers b dirs temps pd elfData elfSize)
    (fun r : Vmm × ℤ => (∃ frames, b.Space r.1 dirs temps pd frames) ∧
    b.Refused elfData elfSize r.2)
    (fun i l r hr => hr.loadHeader img) _ hstart).andThen ?_
  rintro ⟨s', e⟩ hr
  obtain ⟨frames, A, hl', rfl⟩ := hr.loading
  have hmax : e = maxEnd (b.segments elfData) := hr.maxEnd
  have hshort : s'.NoStack → ¬ b.Room (pageCount (b.segments elfData) + userStackSize / pageSize) :=
    fun hn hb => by
    have hroom : s'.Room _ := hr.room (userStackSize / pageSize) (hb.mono (Nat.add_comm ..).le)
    obtain ⟨hhigh, hlow⟩ := hroom
    unfold NoStack userStackSize pageSize at *
    omega
  refine (hl'.loadStack.imp (fun r hs => ⟨hs.1, .inr ⟨hs.2.2, hshort hs.2.1⟩⟩)
    fun _ hs => hs).andThen fun s'' hs => .ok ⟨hs, fun ph hph => ?_, ?_⟩
  · exact (hr.accepted ph hph).resolve_left not_mem_nil
  · rw [loadedOf, hmax]
    rfl

end Vmm

end Xnix
