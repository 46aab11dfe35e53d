import Xnix.Lib.Paths
import Xnix.Vfs

/-!
# Mounts of the VFS server

`vfsd_lookup` compares the bytes of the path with those of the mount points as they were given to
`vfsd_mount`. For mount points in normal form that is the search for the longest prefix of
components; a mount point with a slash at its end, or with components that normalisation removes, is
never found.
-/

namespace Xnix

open Function List Option Lib

namespace Vfsd

variable {s : Vfsd} {path : CString} {m : VfsMount} {ws vs : List CString}

def Clean (ws : List CString) : Prop := Lib.Plain slash ws ∧ ∀ w ∈ ws, w ≠ dot ∧ w ≠ dotDot

instance (ws : List CString) : Decidable (Clean ws) :=
  inferInstanceAs (Decidable ((∀ w ∈ ws, w ≠ [] ∧ slash ∉ w) ∧ ∀ w ∈ ws, w ≠ dot ∧ w ≠ dotDot))

/-- `/`, or components without `.` and `..` with one slash before each. -/
def Normalised (path : CString) : Prop := ∃ ws, Clean ws ∧ path = Lib.pathOf slash ws

def mountPoint (path : CString) : List CString := Lib.normal dot dotDot (Lib.components slash path)

theorem mountPoint_pathOf (h : Clean ws) : mountPoint (pathOf slash ws) = ws := by
  rw [mountPoint, components_pathOf h.1, normal, normal_of_forall h.2, nil_append]

theorem head_pathOf (ws : List CString) : (pathOf slash ws).head? = some slash := by
  unfold pathOf
  split
  · rfl
  · obtain ⟨w, ws, rfl⟩ := exists_cons_of_ne_nil ‹_›
    rfl

theorem covers_iff (hws : Plain slash ws) (hvs : Plain slash vs) (hm : m.path = pathOf slash ws) :
    covers (pathOf slash vs) m = true ↔ ws <+: vs := by
  unfold covers
  rw [hm]
  simp only [Bool.and_eq_true, Bool.or_eq_true, decide_eq_true_eq, isPrefixOf_iff_prefix]
  by_cases hw : ws = []
  · subst hw
    refine ⟨fun _ => nil_prefix, fun _ => ⟨?_, .inl (.inl rfl)⟩⟩
    obtain ⟨rest, hrest⟩ := head?_eq_some_iff.mp (head_pathOf vs)
    rw [hrest]
    exact ⟨rest, rfl⟩
  · have hlong : 2 ≤ (absolute slash ws).length := by
      obtain ⟨w, ws, rfl⟩ := exists_cons_of_ne_nil hw
      have := length_pos_iff.mpr (hws w mem_cons_self).1
      rw [length_absolute_cons]
      omega
    have hnot : absolute slash ws ≠ [slash] := fun heq => by
      rw [heq] at hlong
      simp at hlong
    by_cases hv : vs = []
    · subst hv
      have hpre : ¬ absolute slash ws <+: [slash] := fun hpre => by
        have := hpre.length_le
        rw [length_singleton] at this
        omega
      simp [pathOf, hw, hpre]
    · simp only [pathOf, if_neg hw, if_neg hv, hnot, false_or]
      exact absolute_prefix_iff hws hvs

/-- `best` is a longest mount that covers the path among those seen, or none of them does. -/
def Best (path : CString) (seen : VfsMount → Prop) : Option VfsMount → Prop
  | none => ∀ m, seen m → covers path m = false
  | some b => seen b ∧ covers path b = true ∧ ∀ m, seen m → covers path m = true →
    m.path.length ≤ b.path.length

theorem Best.better {seen : VfsMount → Prop} {best : Option VfsMount} (h : Best path seen best)
    (hm : m.path ≠ []) : Best path (fun m' => seen m' ∨ m' = m) (better path best (some m)) := by
  rw [Vfsd.better]
  split
  · rename_i hlong
    refine ⟨.inr rfl, hlong.2, fun m' hm' hcov => ?_⟩
    rcases hm' with hm' | rfl
    · rcases best with _ | b
      · rw [h m' hm'] at hcov
        cases hcov
      · exact (h.2.2 m' hm' hcov).trans hlong.1.le
    · exact le_rfl
  · rename_i hshort
    rcases best with _ | b
    · rintro m' (hm' | rfl)
      · exact h m' hm'
      · exact Bool.eq_false_iff.mpr fun hcov => hshort ⟨length_pos_iff.mpr hm, hcov⟩
    · refine ⟨.inl h.1, h.2.1, fun m' hm' hcov => ?_⟩
      rcases hm' with hm' | rfl
      · exact h.2.2 m' hm' hcov
      · exact Nat.not_lt.mp fun hlt => hshort ⟨hlt, hcov⟩

theorem best_bestMatch (path : CString) (hpos : ∀ i m, s.mounts i = some m → m.path ≠ [])
    (slots : List ℕ) :
    Best path (fun m => ∃ i ∈ slots, s.mounts i = some m) (s.bestMatch path slots) := by
  induction slots using reverseRecOn with
  | nil =>
    rintro m ⟨i, hi, -⟩
    cases hi
  | append_singleton slots i ih =>
    have hseen : (fun m => ∃ j ∈ slots ++ [i], s.mounts j = some m) =
        fun m => (∃ j ∈ slots, s.mounts j = some m) ∨ s.mounts i = some m := by
      funext m
      simp [or_and_right, exists_or]
    rw [hseen, bestMatch, foldl_append, foldl_cons, foldl_nil, ← bestMatch]
    rcases hi : s.mounts i with _ | m
    · simpa [better] using ih
    · simpa [eq_comm] using ih.better (hpos i m hi)

theorem lookup_of_best (hvs : Plain slash vs) (hlen : (pathOf slash vs).length < vfsPathMax)
    (hbest : s.bestMatch (pathOf slash vs) (range vfsMaxMounts) = some m)
    (hm : m.path = pathOf slash ws) (hpre : ws <+: vs) :
    ∃ rel, s.lookup (pathOf slash vs) vfsPathMax = (toInt32 m.fsEp, rel) ∧ rel.head? = some slash ∧
      ws ++ components slash rel = vs := by
  obtain ⟨us, rfl⟩ := hpre
  have hus : Plain slash us := hvs.append_right
  unfold lookup
  rw [if_neg (by rw [head_pathOf]; simp), hbest]
  dsimp only
  rw [hm]
  rcases ws with _ | ⟨w, ws⟩
  · rcases us with _ | ⟨u, us⟩
    · exact ⟨[slash], rfl, rfl, rfl⟩
    · obtain ⟨c, u', rfl⟩ := exists_cons_of_ne_nil (hus u mem_cons_self).1
      have hc : c ≠ slash := fun heq => (hus _ mem_cons_self).2 (by simp [heq])
      have hpath : pathOf slash ([] ++ (c :: u') :: us) =
        slash :: c :: (u' ++ absolute slash us) := by
        simp [pathOf, absolute]
      rw [hpath] at hlen ⊢
      refine ⟨slash :: c :: (u' ++ absolute slash us), ?_, rfl, ?_⟩
      · have hroom : ¬ vfsPathMax ≤ (c :: (u' ++ absolute slash us)).length + 1 := by
          rw [length_cons] at hlen
          omega
        have hroot : (pathOf slash ([] : List CString)).length = 1 := rfl
        simp only [hroot, drop_succ_cons, drop_zero, if_neg hc, if_neg hroom]
      · rw [← hpath]
        exact components_pathOf hvs
  · have hpath : pathOf slash (w :: ws ++ us) = absolute slash (w :: ws) ++ absolute slash us := by
      rw [pathOf, if_neg (by simp), absolute_append]
    have hmount : pathOf slash (w :: ws) = absolute slash (w :: ws) := if_neg (cons_ne_nil w ws)
    rw [hpath] at hlen ⊢
    rw [hmount, drop_left]
    rcases us with _ | ⟨u, us⟩
    · exact ⟨[slash], rfl, rfl, by simp⟩
    · have hrest : absolute slash (u :: us) =
        slash :: (u ++ absolute slash us) := by simp [absolute]
      have hroom : ¬ vfsPathMax ≤ (absolute slash (u :: us)).length := by
        rw [length_append] at hlen
        omega
      refine ⟨absolute slash (u :: us), ?_, by rw [hrest]; rfl, by rw [components_absolute hus]⟩
      rw [hrest] at hroom ⊢
      simp only [if_true, if_neg hroom]

section Table

structure MountSys where
  server : Vfsd
  given : List (CString × ℕ)

def MountSys.init : MountSys := ⟨Vfsd.init, []⟩

def MountSys.step (s : MountSys) (a : CString × ℕ) : Option MountSys :=
  let (server, r) := s.server.mount a.1 a.2
  some ⟨server, if r = 0 then a :: s.given else s.given⟩

/-- The table holds the last endpoint that each path was mounted with. -/
structure TableOk (s : MountSys) : Prop where
  lt : ∀ i m, s.server.mounts i = some m → i < vfsMaxMounts
  latest : ∀ i m, s.server.mounts i = some m → s.given.find? (·.1 = m.path) = some (m.path, m.fsEp)
  inj : ∀ i j m m', s.server.mounts i = some m → s.server.mounts j = some m' →
    m.path = m'.path → i = j
  listed : ∀ g ∈ s.given, ∃ i m, s.server.mounts i = some m ∧ m.path = g.1

theorem TableOk.init : TableOk .init := ⟨nofun, nofun, nofun, nofun⟩

variable {s : MountSys} {given : List (CString × ℕ)}

theorem TableOk.put (hs : TableOk s) {i : ℕ} {ep : ℕ} (hi : i < vfsMaxMounts)
    (hslot : ∀ j m, s.server.mounts j = some m → (m.path = path ↔ j = i)) :
    TableOk ⟨{ s.server with mounts := update s.server.mounts i (some ⟨path, ep⟩) },
    (path, ep) :: s.given⟩ := by
  have hcases : ∀ j m, update s.server.mounts i (some ⟨path, ep⟩) j = some m →
      j = i ∧ m = ⟨path, ep⟩ ∨ j ≠ i ∧ s.server.mounts j = some m ∧ m.path ≠ path := by
    intro j m hm
    by_cases hj : j = i
    · subst hj
      rw [update_self, some.injEq] at hm
      exact .inl ⟨rfl, hm.symm⟩
    · rw [update_of_ne hj] at hm
      exact .inr ⟨hj, hm, fun h => hj ((hslot j m hm).mp h)⟩
  refine ⟨fun j m hm => ?_, fun j m hm => ?_, fun j k m m' hm hm' heq => ?_, fun g hg => ?_⟩
  · rcases hcases j m hm with ⟨rfl, -⟩ | ⟨-, hm, -⟩
    · exact hi
    · exact hs.lt j m hm
  · rcases hcases j m hm with ⟨-, rfl⟩ | ⟨-, hm, hne⟩
    · rw [find?_cons_of_pos (by simp)]
    · rw [find?_cons_of_neg (by simpa using hne.symm), hs.latest j m hm]
  · rcases hcases j m hm with ⟨rfl, rfl⟩ | ⟨-, hm, hne⟩
    · rcases hcases k m' hm' with ⟨rfl, -⟩ | ⟨-, -, hne'⟩
      · rfl
      · exact absurd heq.symm hne'
    · rcases hcases k m' hm' with ⟨rfl, rfl⟩ | ⟨-, hm', -⟩
      · exact absurd heq hne
      · exact hs.inj j k m m' hm hm' heq
  · have hnew : ∃ k m, update s.server.mounts i (some ⟨path, ep⟩) k = some m ∧ m.path = path :=
      ⟨i, ⟨path, ep⟩, update_self .., rfl⟩
    rcases mem_cons.mp hg with rfl | hg
    · exact hnew
    · obtain ⟨j, m, hm, hpath⟩ := hs.listed g hg
      by_cases hj : j = i
      · rw [← hpath, (hslot j m hm).mpr hj]
        exact hnew
      · exact ⟨j, m, (update_of_ne hj ..).trans hm, hpath⟩

theorem TableOk.step {s' : MountSys} (hs : TableOk s) {a : CString × ℕ} (h : s.step a = some s') :
    TableOk s' := by
  obtain ⟨path, ep⟩ := a
  unfold MountSys.step Vfsd.mount at h
  dsimp only at h
  split at h
  · cases h
    exact hs
  · split at h
    · cases h
      exact hs
    · rcases hsame : (range vfsMaxMounts).find? fun i => (s.server.mounts i).any fun m =>
        m.path = path with _ | i
      · rcases hfree : (range vfsMaxMounts).find? fun i => (s.server.mounts i).isNone with _ | i
        · simp only [hsame, hfree, or_none] at h
          cases h
          exact hs
        · simp only [hsame, hfree, none_or] at h
          cases h
          have hnone : s.server.mounts i = none := by simpa using find?_some hfree
          refine hs.put (mem_range.mp (mem_of_find?_eq_some hfree)) fun j m hm =>
            ⟨fun hpath => ?_, ?_⟩
          · have := find?_eq_none.mp hsame j (mem_range.mpr (hs.lt j m hm))
            simp [hm, hpath] at this
          · rintro rfl
            rw [hnone] at hm
            cases hm
      · simp only [hsame, some_or] at h
        cases h
        have hfound := find?_some hsame
        rcases hi : s.server.mounts i with _ | m0
        · simp [hi] at hfound
        · have hpath0 : m0.path = path := by simpa [hi] using hfound
          refine hs.put (mem_range.mp (mem_of_find?_eq_some hsame)) fun j m hm =>
            ⟨fun hpath => ?_, ?_⟩
          · exact hs.inj j i m m0 hm hi (hpath.trans hpath0.symm)
          · rintro rfl
            rw [hi, some.injEq] at hm
            rw [← hm, hpath0]

def lastGiven (given : List (CString × ℕ)) (ws : List CString) : Option ℕ :=
  (given.find? fun g => mountPoint g.1 = ws).map (·.2)

/-- The mount path is normalised, and the endpoint is a non-negative `int`. -/
def MountOk (a : CString × ℕ) : Prop := Normalised a.1 ∧ a.2 < 2 ^ 31

theorem tableOk (h : Reach MountSys.step (· = .init) (fun _ a => MountOk a) s) :
    TableOk s ∧ ∀ g ∈ s.given, MountOk g := by
  refine h.invariant (P := fun s => TableOk s ∧ ∀ g ∈ s.given, MountOk g) ?_
    fun s a s' hs ha hstep => ?_
  · rintro s rfl
    exact ⟨.init, nofun⟩
  · refine ⟨hs.1.step hstep, ?_⟩
    have hgiven : s'.given = if (s.server.mount a.1 a.2).2 = 0 then a :: s.given else s.given :=
      congrArg MountSys.given (some.inj hstep).symm
    rw [hgiven]
    split
    · exact forall_mem_cons.mpr ⟨ha, hs.2⟩
    · exact hs.2

theorem lastGiven_eq (hgiven : ∀ g ∈ given, MountOk g) (hws : Clean ws) :
    lastGiven given ws = (given.find? (·.1 = pathOf slash ws)).map (·.2) := by
  induction given with
  | nil => rfl
  | cons g given ih =>
    obtain ⟨⟨ws', hws', hpath⟩, -⟩ := hgiven g mem_cons_self
    have ih := ih fun g' hg' => hgiven g' (mem_cons_of_mem g hg')
    have hiff : mountPoint g.1 = ws ↔ g.1 = pathOf slash ws := by
      rw [hpath, mountPoint_pathOf hws']
      refine ⟨fun h => by rw [h], fun h => ?_⟩
      rw [← mountPoint_pathOf hws', h, mountPoint_pathOf hws]
    unfold lastGiven at ih ⊢
    by_cases hg : mountPoint g.1 = ws
    · rw [find?_cons_of_pos (by simpa using hg), find?_cons_of_pos (by simpa using hiff.mp hg)]
    · rw [find?_cons_of_neg (by simpa using hg),
        find?_cons_of_neg (by simpa using fun h => hg (hiff.mpr h)), ih]

theorem exists_of_lastGiven {ep : ℕ} (h : lastGiven given ws = some ep) :
    ∃ g ∈ given, mountPoint g.1 = ws := by
  obtain ⟨g, hg, -⟩ := map_eq_some_iff.mp h
  exact ⟨g, mem_of_find?_eq_some hg, by simpa using find?_some hg⟩

theorem TableOk.normalised (hs : TableOk s) (hgiven : ∀ g ∈ s.given, MountOk g) {i : ℕ}
    (hm : s.server.mounts i = some m) :
    ∃ ws, Clean ws ∧ m.path = pathOf slash ws ∧ m.fsEp < 2 ^ 31 ∧
    lastGiven s.given ws = some m.fsEp := by
  have hlatest := hs.latest i m hm
  obtain ⟨⟨ws, hws, hpath⟩, hep⟩ := hgiven _ (mem_of_find?_eq_some hlatest)
  refine ⟨ws, hws, hpath, hep, ?_⟩
  rw [lastGiven_eq hgiven hws, ← hpath, hlatest]
  rfl

theorem TableOk.covering (hs : TableOk s) (hgiven : ∀ g ∈ s.given, MountOk g) {g : CString × ℕ}
    (hg : g ∈ s.given) (hvs : Clean vs) (hpre : mountPoint g.1 <+: vs) :
    ∃ m, (∃ i ∈ range vfsMaxMounts, s.server.mounts i = some m) ∧
      m.path = pathOf slash (mountPoint g.1) ∧ covers (pathOf slash vs) m = true := by
  obtain ⟨ws, hws, hpath⟩ := (hgiven g hg).1
  obtain ⟨i, m, hm, hmpath⟩ := hs.listed g hg
  rw [hpath, mountPoint_pathOf hws] at hpre ⊢
  rw [hpath] at hmpath
  exact ⟨m, ⟨i, mem_range.mpr (hs.lt i m hm), hm⟩, hmpath, (covers_iff hws.1 hvs.1 hmpath).mpr hpre⟩

/-- After any mounts of normalised paths, `vfsd_lookup` returns the endpoint last mounted at the
longest mount point on the way, with the rest of the path; it fails exactly when there is none. -/
theorem lookup_longest (h : Lib.Reach MountSys.step (· = .init) (fun _ a => MountOk a) s)
    (hpath : Normalised path) (hlen : path.length < vfsPathMax) :
    (∀ ws ep, lastGiven s.given ws = some ep → ws <+: Lib.components slash path →
      (∀ g ∈ s.given, mountPoint g.1 <+: Lib.components slash path →
      (mountPoint g.1).length ≤ ws.length) →
      ∃ rel, s.server.lookup path vfsPathMax = ((ep : ℤ), rel) ∧ rel.head? = some slash ∧
        ws ++ Lib.components slash rel = Lib.components slash path) ∧
    ((s.server.lookup path vfsPathMax).1 < 0 ↔
      ∀ g ∈ s.given, ¬ mountPoint g.1 <+: Lib.components slash path) := by
  obtain ⟨hs, hgiven⟩ := tableOk h
  obtain ⟨vs, hvs, rfl⟩ := hpath
  rw [components_pathOf hvs.1]
  have hpos : ∀ i m, s.server.mounts i = some m → m.path ≠ [] := by
    intro i m hm heq
    obtain ⟨ws, -, hpath, -⟩ := hs.normalised hgiven hm
    have hhead := head_pathOf ws
    rw [← hpath, heq] at hhead
    cases hhead
  have hbest := best_bestMatch (pathOf slash vs) hpos (range vfsMaxMounts)
  rcases hfound : s.server.bestMatch (pathOf slash vs) (range vfsMaxMounts) with _ | m
  · rw [hfound] at hbest
    have hnone : ∀ g ∈ s.given, ¬ mountPoint g.1 <+: vs := by
      intro g hg hpre
      obtain ⟨m, hseen, -, hcov⟩ := hs.covering hgiven hg hvs hpre
      rw [hbest m hseen] at hcov
      cases hcov
    have hfail : (s.server.lookup (pathOf slash vs) vfsPathMax).1 = -eNoEnt := by
      rw [lookup, if_neg (by rw [head_pathOf]; simp), hfound]
    refine ⟨fun ws ep hws hpre _ => ?_, ⟨fun _ => hnone, fun _ => by rw [hfail]; decide⟩⟩
    obtain ⟨g, hg, rfl⟩ := exists_of_lastGiven hws
    exact absurd hpre (hnone g hg)
  · rw [hfound] at hbest
    obtain ⟨⟨i, -, hm⟩, hcov, hmax⟩ := hbest
    obtain ⟨wm, hwm, hmpath, hep, hlast⟩ := hs.normalised hgiven hm
    have hpre := (covers_iff hwm.1 hvs.1 hmpath).mp hcov
    obtain ⟨rel, hlookup, hrel, hparts⟩ := lookup_of_best hvs.1 hlen hfound hmpath hpre
    have hint : toInt32 m.fsEp = (m.fsEp : ℤ) := if_pos hep
    rw [hint] at hlookup
    obtain ⟨gm, hgm, hgmpoint⟩ := exists_of_lastGiven hlast
    refine ⟨fun ws ep hws hprews hlongest => ?_, ⟨fun hneg => ?_, fun hnone => ?_⟩⟩
    · obtain ⟨g, hg, rfl⟩ := exists_of_lastGiven hws
      obtain ⟨m', hseen', hm'path, hcov'⟩ := hs.covering hgiven hg hvs hprews
      have hle : (mountPoint g.1).length ≤ wm.length := by
        refine length_le_of_pathOf hvs.1 hpre hprews ?_
        rw [← hm'path, ← hmpath]
        exact hmax m' hseen' hcov'
      have hge : wm.length ≤ (mountPoint g.1).length := by
        rw [← hgmpoint]
        exact hlongest gm hgm (hgmpoint ▸ hpre)
      have heq : mountPoint g.1 = wm :=
        (prefix_of_prefix_length_le hprews hpre hle).eq_of_length (Nat.le_antisymm hle hge)
      rw [heq, hlast, some.injEq] at hws
      exact ⟨rel, by rw [hlookup, hws], hrel, by rw [heq, hparts]⟩
    · rw [hlookup] at hneg
      exact absurd hneg (by dsimp only; omega)
    · exact absurd (hgmpoint ▸ hpre) (hnone gm hgm)

theorem lookup_longest_mnt :
    ∃ s rel, Lib.run MountSys.step .init [([47], 3), ([47, 109], 5)] = some s ∧
    s.server.lookup [47, 109, 47, 120] vfsPathMax = (5, rel) ∧ rel.head? = some slash := by
  obtain ⟨s, hs⟩ : ∃ s, run MountSys.step .init [([47], 3), ([47, 109], 5)] = some s :=
    isSome_iff_exists.mp (by decide)
  have hgiven : (run MountSys.step .init [([47], 3), ([47, 109], 5)]).map (·.given) =
      some [([47, 109], 5), ([47], 3)] := by decide
  rw [hs, map_some, some.injEq] at hgiven
  have hroot : MountOk ([47], 3) := ⟨⟨[], by decide, rfl⟩, by decide⟩
  have hmnt : MountOk ([47, 109], 5) := ⟨⟨[[109]], by decide, rfl⟩, by decide⟩
  have hstart : Reach MountSys.step (· = .init) (fun _ a => MountOk a) .init := .init rfl
  have hreach := Reach.of_run _ hstart (fun _ a ha => by
    rcases mem_pair.mp ha with rfl | rfl
    · exact hroot
    · exact hmnt) hs
  have hpath : Normalised [47, 109, 47, 120] := ⟨[[109], [120]], by decide, rfl⟩
  have hlookup := (lookup_longest hreach hpath (by decide)).1 [[109]] 5
  rw [hgiven] at hlookup
  obtain ⟨rel, hrel, hhead, -⟩ := hlookup (by decide) (by decide) (by decide)
  exact ⟨s, rel, hs, hrel, hhead⟩

/-- `/mnt/` is mounted, and `/mnt/x` is not found. -/
theorem mount_not_found : (Lib.run MountSys.step .init [([47, 109, 47], 5)]).map (fun s =>
    (lastGiven s.given [[109]], (s.server.lookup [47, 109, 47, 120] vfsPathMax).1)) =
      some (some 5, -2) := by
  decide

end Table

end Vfsd

end Xnix
