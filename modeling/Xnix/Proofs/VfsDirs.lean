import Xnix.VfsDirs

/-!
# Listings and handles of directories

The names of the mounts below a directory are collected once each, and every index of a listing
starts at the first entry of the backend again. For the handles the invariant is about one directory
at a time: who has it.
-/

namespace Xnix

open Function List Option

namespace Vfsd

variable {s : Vfsd} {base mp name : CString} {names entries : List CString}

/-- The mount path `mp` is that of the child `name` of `base`. -/
def ChildOf (base name mp : CString) : Prop :=
  mp.head? = some slash ∧ mp = (if base = [slash] then slash :: name else base ++ slash :: name) ∧
    name ≠ [] ∧ slash ∉ name

theorem childName_eq_some_iff : childName base mp = some name ↔ ChildOf base name mp := by
  unfold childName ChildOf
  constructor
  · intro h
    split_ifs at h with hhead hroot hprefix
    · simp only [not_or, not_not] at hhead
      obtain ⟨heq, hname⟩ := filter_eq_some_iff.mp h
      simp only [some.injEq, decide_eq_true_eq] at heq hname
      refine ⟨hhead.1, ?_, hname⟩
      rw [if_pos hroot, ← heq]
      cases mp with
      | nil => simp at hhead
      | cons c mp => simpa using hhead.1
    · simp at h
    · simp only [not_or, not_not] at hhead hprefix
      obtain ⟨heq, hname⟩ := filter_eq_some_iff.mp h
      simp only [some.injEq, decide_eq_true_eq] at heq hname
      refine ⟨hhead.1, ?_, hname⟩
      obtain ⟨rest, rfl⟩ := isPrefixOf_iff_prefix.mp hprefix.1
      rw [if_neg hroot, ← heq]
      cases rest with
      | nil => simp at hprefix
      | cons c rest => simpa using hprefix.2
  · rintro ⟨hhead, heq, hne, hslash⟩
    have hbase : mp ≠ base := by
      rintro rfl
      split_ifs at heq with hroot
      · rw [hroot] at heq
        simp_all
      · simp at heq
    rw [if_neg (by simp [hhead, hbase])]
    split_ifs at heq with hroot
    · simp [hroot, heq, hne, hslash]
    · simp [hroot, heq, hne, hslash]

/-- What the rounds over the slots of `l` have collected. -/
structure Collected (s : Vfsd) (base : CString) (l : List ℕ) (names : List CString) : Prop where
  length_le : names.length ≤ l.length
  nodup : names.Nodup
  mem_iff : ∀ name, name ∈ names ↔ ∃ i ∈ l, ∃ m, s.mounts i = some m ∧ ChildOf base name m.path

theorem Collected.add {l : List ℕ} {i : ℕ} (h : Collected s base l names)
    (hl : l.length < vfsMaxMounts)
    (hshort : ∀ m name, s.mounts i = some m → ChildOf base name m.path → name.length < vfsNameMax) :
    Collected s base (l ++ [i]) (addChild base names (s.mounts i)) := by
  have hmem : ∀ name, (∃ j ∈ l ++ [i], ∃ m, s.mounts j = some m ∧ ChildOf base name m.path) ↔
      name ∈ names ∨ (s.mounts i).bind (fun m => childName base m.path) = some name := by
    intro name
    simp only [h.mem_iff, mem_append, mem_singleton, bind_eq_some_iff, childName_eq_some_iff]
    constructor
    · rintro ⟨j, hj | rfl, hm⟩
      · exact .inl ⟨j, hj, hm⟩
      · exact .inr hm
    · rintro (⟨j, hj, hm⟩ | hm)
      · exact ⟨j, .inl hj, hm⟩
      · exact ⟨i, .inr rfl, hm⟩
  unfold addChild
  cases hrem : (s.mounts i).bind fun m => childName base m.path with
  | none =>
    refine ⟨h.length_le.trans (by simp), h.nodup, fun name => ?_⟩
    rw [hmem, hrem]
    simp
  | some rem =>
    obtain ⟨m, hm, hchild⟩ := bind_eq_some_iff.mp hrem
    have htake : rem.take (vfsNameMax - 1) = rem := by
      have := hshort m rem hm (childName_eq_some_iff.mp hchild)
      exact take_of_length_le (by omega)
    have hroom : ¬ vfsMaxMounts ≤ names.length := by
      have := h.length_le
      omega
    simp only [hroom, false_or, htake]
    split_ifs with hin
    · refine ⟨h.length_le.trans (by simp), h.nodup, fun name => ?_⟩
      rw [hmem, hrem, some.injEq, or_iff_left_of_imp]
      rintro rfl
      exact hin
    · refine ⟨by simpa using h.length_le, nodup_append.mpr ⟨h.nodup, by simp, ?_⟩, fun name => ?_⟩
      · rintro a ha b hb rfl
        exact hin (mem_singleton.mp hb ▸ ha)
      · rw [hmem, hrem, some.injEq, mem_append, mem_singleton, eq_comm]

theorem collectMountChildren_spec (hshort : ∀ i < vfsMaxMounts, ∀ m name, s.mounts i = some m →
    ChildOf base name m.path → name.length < vfsNameMax) :
    Collected s base (range vfsMaxMounts) (s.collectMountChildren base) := by
  suffices h : ∀ n ≤ vfsMaxMounts, Collected s base (range n)
      ((range n).foldl (fun names i => addChild base names (s.mounts i)) []) from h _ le_rfl
  intro n
  induction n with
  | zero => exact fun _ => ⟨by simp, by simp, by simp⟩
  | succ n ih =>
    intro hn
    rw [range_succ, foldl_append]
    exact (ih (by omega)).add (by simpa using Nat.lt_of_succ_le hn) (hshort n hn)

section Listing

variable {backend : ℕ → DirAnswer}

/-- The backend lists these entries and no more. -/
def Lists (backend : ℕ → DirAnswer) (entries : List CString) : Prop :=
  (∀ i name, entries[i]? = some name → ∃ r > 0, backend i = .answer r name) ∧
    ∀ i ≥ entries.length, ∃ r ≤ 0, ∃ name, backend i = .answer r name

/-- The entry at an index of a list, or an error behind its end. -/
def IsEntry (l : List CString) (index : ℕ) (reply : Option DirReply) : Prop :=
  match l[index]? with
  | some name => reply = some (.entry name)
  | none => ∃ e < 0, reply = some (.error e)

theorem readBackend_spec (hidden : CString → Bool) (h : Lists backend entries) (target : ℕ) :
    ∀ (left i v : ℕ), i ≤ entries.length → entries.length < i + left → v ≤ target →
    IsEntry ((entries.drop i).filter (! hidden ·)) (target - v)
    (readBackend hidden backend target left i v) := by
  intro left
  induction left with
  | zero =>
    intro i v hi hleft
    omega
  | succ left ih =>
    intro i v hi hleft hv
    rcases hi.lt_or_eq with hi | rfl
    · obtain ⟨r, hr, hb⟩ := h.1 i _ (getElem?_eq_getElem hi)
      rw [drop_eq_getElem_cons hi, readBackend, hb]
      simp only [hr.not_ge, if_false]
      split_ifs with hhid heq
      · rw [filter_cons_of_neg (by simp [hhid])]
        exact ih (i + 1) v hi (by omega) hv
      · rw [filter_cons_of_pos (by simp [hhid]), heq]
        simp [IsEntry]
      · have hsub : target - v = target - (v + 1) + 1 := by omega
        rw [filter_cons_of_pos (by simp [hhid]), hsub]
        exact ih (i + 1) (v + 1) hi (by omega) (by omega)
    · obtain ⟨r, hr, name, hb⟩ := h.2 entries.length le_rfl
      rw [readBackend, hb]
      simp only [IsEntry, drop_length, filter_nil, getElem?_nil, if_pos hr]
      refine ⟨_, ?_, rfl⟩
      split_ifs with hneg
      · exact hneg
      · decide

/-- The indices of a proxied directory list the mounts below it, each once, and then the entries of
the backend that are not hidden by one, each once and in their order; behind them there is an
error. -/
theorem listing_merged (s : Vfsd) (base : CString) (backend : ℕ → DirAnswer)
    (entries : List CString)
    (hshort : ∀ i < vfsMaxMounts, ∀ m name, s.mounts i = some m → ChildOf base name m.path →
    name.length < vfsNameMax)
    (hlists : Lists backend entries) (hnodup : entries.Nodup) :
    ∃ children : List CString, (∀ name, name ∈ children ↔
        ∃ i < vfsMaxMounts, ∃ m, s.mounts i = some m ∧ ChildOf base name m.path) ∧
      (children ++ entries.filter (· ∉ children)).Nodup ∧
      ∀ left > entries.length, ∀ index,
        IsEntry (children ++ entries.filter (· ∉ children)) index
        (s.readdir base backend left index) := by
  have hc := collectMountChildren_spec hshort
  refine ⟨s.collectMountChildren base,
    fun name => by simpa using hc.mem_iff name, ?_, fun left hleft index => ?_⟩
  · refine nodup_append.mpr ⟨hc.nodup, hnodup.filter _, ?_⟩
    rintro a ha b hb rfl
    simp [ha] at hb
  · unfold readdir
    rcases lt_or_ge index (s.collectMountChildren base).length with hi | hi
    · simp [IsEntry, getElem?_append_left hi, hi]
    · have hspec := readBackend_spec (· ∈ s.collectMountChildren base) hlists
        (index - (s.collectMountChildren base).length) left 0 0 (Nat.zero_le _) (by omega)
        (Nat.zero_le _)
      simp only [getElem?_eq_none hi]
      rw [IsEntry, getElem?_append_right hi]
      simpa [IsEntry] using hspec

/-- A file system at `/` and another one at `/m`. -/
def mountedBelow : Vfsd := ⟨fun _ => none, fun i => [⟨[47], 3⟩, ⟨[47, 109], 5⟩][i]?⟩

/-- A backend with the entries `m` and `a`. -/
def twoEntries (i : ℕ) : DirAnswer :=
  match [[109], [97]][i]? with
  | some name => .answer 1 name
  | none => .answer 0 []

theorem listing_merged_below : ∃ children : List CString, [109] ∈ children ∧ ∀ index,
    IsEntry (children ++ [[109], [97]].filter (· ∉ children)) index
    (mountedBelow.readdir [47] twoEntries 3 index) := by
  have hlists : Lists twoEntries [[109], [97]] := by
    refine ⟨fun i name hi => ⟨1, by decide, by simp [twoEntries, hi]⟩,
      fun i hi => ⟨0, le_rfl, [], ?_⟩⟩
    simp only [twoEntries, getElem?_eq_none hi]
  have hshort : ∀ i < vfsMaxMounts, ∀ m name, mountedBelow.mounts i = some m →
      ChildOf [47] name m.path → name.length < vfsNameMax := by
    intro i _ m name hm hchild
    have hlen : ∀ m ∈ [(⟨[47], 3⟩ : VfsMount), ⟨[47, 109], 5⟩], m.path.length ≤ 2 := by decide
    have hpath := congrArg length hchild.2.1
    rw [if_pos (by decide), length_cons] at hpath
    have := hlen m (mem_of_getElem? hm)
    exact Nat.lt_trans (by omega : name.length < 2) (by decide)
  obtain ⟨children, hmem, -, hread⟩ :=
    listing_merged mountedBelow [47] twoEntries [[109], [97]] hshort hlists (by decide)
  exact ⟨children, (hmem _).mpr ⟨1, by decide, _, rfl, rfl, rfl, by decide, by decide⟩,
    hread 3 (by decide)⟩

end Listing

end Vfsd

namespace DirSys

variable {s : DirSys}

/-- An open directory has its client, and so has an active slot. -/
structure Accounted (s : DirSys) : Prop where
  opened : ∀ dir ∈ s.opened, dir ∈ s.direct ∨
    ∃ h st, s.dirs h = some st ∧ s.told h = true ∧ dir = (st.backendEp, st.backendHandle)
  active : ∀ h, s.dirs h ≠ none → s.told h = true

/-- The reply to an OPENDIR that opened a directory is lost neither by the server nor by the client,
a slot is free where one is needed, a close of an active slot is answered, and a backend refuses to
close only what is not open. -/
def Careful (s : DirSys) : DirAction → Prop
  | .opendir path (.lost _) _ => (s.vfsd.lookup path vfsPathMax).1 < 0
  | .opendir path (.opened _) delivered => 0 ≤ (s.vfsd.lookup path vfsPathMax).1 →
      delivered = true ∧ (s.vfsd.needsDirProxy path → ∃ h < vfsMaxMounts, s.dirs h = none)
  | .close h .failed | .close h .lost => s.dirs h = none
  | .close h .refused => ∀ st, s.dirs h = some st → (st.backendEp, st.backendHandle) ∉ s.opened
  | _ => True

theorem dirAlloc_free {h : ℕ} (hh : s.dirAlloc = some h) : s.dirs h = none := by
  simpa using find?_some hh

theorem Accounted.opendir {path : CString} {outcome : OpenOutcome} {delivered : Bool}
    (h : Accounted s)
    (hc : Careful s (.opendir path outcome delivered)) :
    Accounted (s.opendir path outcome delivered) := by
  unfold DirSys.opendir
  by_cases hep : (s.vfsd.lookup path vfsPathMax).1 < 0
  · rw [if_pos hep]
    exact h
  rw [if_neg hep]
  cases outcome with
  | failed | refused => exact h
  | lost handle => exact absurd hc hep
  | opened handle =>
    obtain ⟨rfl, hfree⟩ := hc (not_lt.mp hep)
    dsimp only
    by_cases hproxy : s.vfsd.needsDirProxy path = true
    · rw [if_neg (not_not.mpr hproxy)]
      obtain ⟨j, hj, hnone⟩ := hfree hproxy
      cases hn : dirAlloc _ with
      | none =>
        have := find?_eq_none.mp hn j (mem_range.mpr hj)
        simp [hnone] at this
      | some n =>
        have hn := dirAlloc_free hn
        refine ⟨fun dir hdir => ?_, fun i hi => ?_⟩
        · rcases mem_cons.mp hdir with rfl | hdir
          · exact .inr ⟨n, _, update_self .., update_self .., rfl⟩
          · refine (h.opened dir hdir).imp_right fun ⟨i, st, hst, htold, hd⟩ => ⟨i, st, ?_⟩
            have hne : i ≠ n := by
              rintro rfl
              simp [hst] at hn
            simp [hne, hst, htold, hd]
        · by_cases hin : i = n
          · simp [hin]
          · simp only [update_of_ne hin] at hi ⊢
            exact h.active i hi
    · rw [if_pos hproxy]
      refine ⟨fun dir hdir => ?_, h.active⟩
      rcases mem_cons.mp hdir with rfl | hdir
      · exact .inl (by simp)
      · exact (h.opened dir hdir).imp_left (by simp +contextual)

/-- A slot is freed once the directory of it is closed. -/
theorem Accounted.free {n : ℕ} {st : VfsDirState} {opened : List (ℤ × ℤ)} (h : Accounted s)
    (hst : s.dirs n = some st) (hsub : opened ⊆ s.opened)
    (hclosed : (st.backendEp, st.backendHandle) ∉ opened) : Accounted { s with
      dirs := update s.dirs n none, told := update s.told n false, opened := opened } := by
  refine ⟨fun dir hdir => ?_, fun i hi => ?_⟩
  · refine (h.opened dir (hsub hdir)).imp_right fun ⟨i, st', hst', htold, hd⟩ => ⟨i, st', ?_⟩
    have hne : i ≠ n := by
      rintro rfl
      obtain rfl := some.inj (hst.symm.trans hst')
      exact hclosed (hd ▸ hdir)
    simp [hne, hst', htold, hd]
  · by_cases hin : i = n
    · simp [hin] at hi
    · simp only [update_of_ne hin] at hi ⊢
      exact h.active i hi

theorem Accounted.closeHandle {n : ℕ} {outcome : CloseOutcome} (h : Accounted s)
    (hc : Careful s (.close n outcome)) : Accounted (s.closeHandle n outcome) := by
  unfold DirSys.closeHandle
  cases hst : s.dirs n with
  | none => exact h
  | some st =>
    cases outcome with
    | failed | lost =>
      have hnone : s.dirs n = none := hc
      cases hst.symm.trans hnone
    | refused => exact h.free hst (Subset.refl _) (hc st hst)
    | closed => exact h.free hst (filter_subset_self ..) (by simp)

theorem Accounted.step {t : DirSys} {a : DirAction} (h : Accounted s) (hc : Careful s a)
    (hs : s.step a = some t) : Accounted t := by
  cases a with
  | opendir path outcome delivered => exact some.inj hs ▸ h.opendir hc
  | readdir => exact some.inj hs ▸ h
  | close n outcome => exact some.inj hs ▸ h.closeHandle hc
  | closeDirect dir =>
    obtain rfl := some.inj hs
    refine ⟨fun d hd => ?_, h.active⟩
    obtain ⟨hd, hne⟩ := mem_filter.mp hd
    exact (h.opened d hd).imp_left fun hin => mem_filter.mpr ⟨hin, hne⟩

/-- In every run of careful steps no directory is left open without its client, and no slot without
one. -/
theorem directories_accounted (h : Lib.Reach DirSys.step DirSys.Init Careful s) : Accounted s := by
  refine h.invariant (fun s hi => ⟨?_, ?_⟩) fun _ _ _ h hc hs => h.step hc hs
  · simp [hi.2]
  · simp [hi.1]

def noneOpened : DirSys := ⟨Vfsd.mountedBelow, fun _ => none, [], [], fun _ => false⟩

theorem directories_accounted_root : ∃ s : DirSys, (s.dirs 0).isSome ∧ s.opened = [(3, 4)] ∧
  Accounted s := ⟨_, rfl, rfl, directories_accounted (.next (a := .opendir [47] (.opened 4) true)
    (.init (s := noneOpened) ⟨fun _ => rfl, rfl⟩)
    (fun _ => ⟨rfl, fun _ => ⟨0, by decide, rfl⟩⟩) rfl)⟩

/-- The backend opens `/` and answers too late. -/
theorem directory_left_open :
    ∃ s : DirSys, Lib.Reach DirSys.step DirSys.Init (fun _ _ => True) s ∧ ¬ Accounted s := by
  refine ⟨_, .next (a := .opendir [47] (.lost 4) false)
    (.init (s := noneOpened) ⟨fun _ => rfl, rfl⟩) trivial rfl, ?_⟩
  intro h
  have hopened : (3, 4) ∈ (noneOpened.opendir [47] (.lost 4) false).opened := by decide
  rcases h.opened _ hopened with hd | ⟨_, _, hst, -⟩
  · exact absurd hd (not_mem_nil)
  · cases hst

end DirSys

end Xnix
