import Xnix.Lib.Paths
import Xnix.Vfs

/-!
# Path resolution in the VFS server

The loop of `vfsd_resolve_path` takes the components of the joined path one after the other, as
`Lib.normal` does, but its stack has 32 places and a component that finds them taken is left out.
The joined path is cut off at 255 bytes. For paths that are not cut off, the result is the
normalised path exactly when nothing is left out.
-/

namespace Xnix

open List Lib

namespace Vfsd

variable {s : Vfsd} {cwd input : CString} {pid : BitVec 32} {ws : List CString}

def joined (cwd input : CString) : List CString :=
  if input.head? = some slash then Lib.components slash input
  else Lib.components slash cwd ++ Lib.components slash input

def canonical (cwd input : CString) : CString :=
    Lib.pathOf slash (Lib.normal dot dotDot (joined cwd input))

/-- Never more than 32 components are held after the path was last at the root. -/
def Shallow (ws : List CString) : Prop :=
  ∃ as bs, ws = as ++ bs ∧ Lib.normal dot dotDot as = [] ∧
    ∀ cs, cs <+: bs → (Lib.normal dot dotDot cs).length ≤ 32

theorem simplify_eq : ∀ {left : ℕ} {cursor : CString} (stack : List CString), cursor.length < left →
    simplify left stack cursor = (components slash cursor).foldl pushComponent stack
  | 0, _, _, h => by omega
  | left + 1, cursor, stack, h => by
    rw [simplify]
    by_cases hc : cursor = []
    · rw [if_pos hc, hc]
      rfl
    · rw [if_neg hc, components_eq_takeWhile, foldl_append]
      have hfirst : (if cursor.takeWhile (· ≠ slash) = [] then []
        else [cursor.takeWhile (· ≠ slash)]).foldl
          pushComponent stack = pushComponent stack (cursor.takeWhile (· ≠ slash)) := by
        split
        · rename_i hnil
          rw [hnil]
          rfl
        · rfl
      rw [hfirst]
      have hlen := (cursor.dropWhile_suffix (· ≠ slash)).length_le
      rcases hrest : cursor.dropWhile (· ≠ slash) with _ | ⟨c, rest⟩
      · rfl
      · rw [hrest, length_cons] at hlen
        have hle := (rest.dropWhile_suffix (· = slash)).length_le
        rw [tail_cons, ← components_dropWhile slash rest]
        exact simplify_eq _ (by omega)

theorem length_pushComponent_le {stack stack' : List CString} (h : stack.length ≤ stack'.length)
    (w : CString) : (pushComponent stack w).length ≤ (cancel dot dotDot stack' w).length := by
  unfold pushComponent cancel
  split
  · exact h
  · split
    · rw [length_dropLast, length_dropLast]
      omega
    · rw [length_append, length_singleton]
      split
      · split
        · rw [length_append, length_singleton]
          omega
        · omega
      · omega

theorem length_foldl_le :
    ∀ (ws : List CString) {stack stack' : List CString}, stack.length ≤ stack'.length →
    (ws.foldl pushComponent stack).length ≤ (ws.foldl (cancel dot dotDot) stack').length
  | [], _, _, h => h
  | w :: ws, _, _, h => length_foldl_le ws (length_pushComponent_le h w)

theorem pushComponent_eq_cancel {stack : List CString} {w : CString} (hw : w ≠ [])
    (h : (cancel dot dotDot stack w).length ≤ 32) :
    pushComponent stack w = cancel dot dotDot stack w := by
  unfold pushComponent cancel at *
  split
  · rfl
  · split
    · rfl
    · rename_i hdot hdotDot
      rw [if_neg hdot, if_neg hdotDot, length_append, length_singleton] at h
      rw [if_pos (by omega)]

theorem foldl_pushComponent (hws : ∀ w ∈ ws, w ≠ [])
    (hdepth : ∀ cs, cs <+: ws → (normal dot dotDot cs).length ≤ 32) :
    ws.foldl pushComponent [] = normal dot dotDot ws := by
  induction ws using reverseRecOn with
  | nil => rfl
  | append_singleton ws w ih =>
    have ih := ih (fun v hv => hws v (mem_append_left _ hv))
      fun cs hcs => hdepth cs (hcs.trans (prefix_append ws [w]))
    have hlast := hdepth _ prefix_rfl
    have hw : w ≠ [] := hws w (by simp)
    simp only [normal, foldl_append, foldl_cons, foldl_nil] at ih hlast ⊢
    rw [ih]
    exact pushComponent_eq_cancel hw hlast

theorem foldl_of_shallow (hws : ∀ w ∈ ws, w ≠ []) (h : Shallow ws) :
    ws.foldl pushComponent [] = normal dot dotDot ws := by
  obtain ⟨as, bs, rfl, hroot, hdepth⟩ := h
  have has : as.foldl pushComponent [] = [] := by
    have hle : (as.foldl pushComponent []).length ≤ (as.foldl (cancel dot dotDot) []).length :=
      length_foldl_le as le_rfl
    rw [show as.foldl (cancel dot dotDot) [] = [] from hroot] at hle
    exact length_eq_zero_iff.mp (Nat.le_zero.mp hle)
  rw [foldl_append, has, foldl_pushComponent (fun w hw => hws w (mem_append_right _ hw)) hdepth]
  rw [normal, normal, foldl_append, show as.foldl (cancel dot dotDot) [] = [] from hroot]

theorem shallow_of_length (h : ws.length ≤ 32) : Shallow ws := by
  refine ⟨[], ws, rfl, rfl, fun cs hcs => ?_⟩
  have hle := length_foldl_cancel_le dot dotDot cs []
  have := hcs.length_le
  rw [length_nil] at hle
  exact (hle.trans (by omega)).trans h

theorem length_stack_le (ws : List CString) : (ws.foldl pushComponent []).length ≤ 32 := by
  induction ws using reverseRecOn with
  | nil => exact Nat.zero_le _
  | append_singleton ws w ih =>
    rw [foldl_append, foldl_cons, foldl_nil]
    generalize ws.foldl pushComponent [] = stack at ih ⊢
    unfold pushComponent
    split_ifs
    · exact ih
    · exact (length_dropLast.trans_le (Nat.sub_le ..)).trans ih
    · rw [length_append, length_singleton]
      omega
    · exact ih
    · exact ih

theorem Shallow.snoc (h : Shallow ws) {w : CString}
    (hle : (normal dot dotDot (ws ++ [w])).length ≤ 32) : Shallow (ws ++ [w]) := by
  obtain ⟨as, bs, rfl, hroot, hdepth⟩ := h
  refine ⟨as, bs ++ [w], append_assoc .., hroot, fun cs hcs => ?_⟩
  rcases prefix_concat_iff.mp hcs with rfl | hcs
  · rwa [append_assoc, normal, foldl_append,
      show as.foldl (cancel dot dotDot) [] = [] from hroot] at hle
  · exact hdepth cs hcs

/-- Once a component was left out, the stack is behind until the path is at the root. -/
theorem shallow_of_length_eq (hws : ∀ w ∈ ws, w ≠ [])
    (h : (ws.foldl pushComponent []).length = (normal dot dotDot ws).length) : Shallow ws := by
  induction ws using reverseRecOn with
  | nil => exact shallow_of_length (Nat.zero_le _)
  | append_singleton ws w ih =>
    by_cases hroot : normal dot dotDot (ws ++ [w]) = []
    · refine ⟨ws ++ [w], [], (append_nil _).symm, hroot, fun cs hcs => ?_⟩
      rw [prefix_nil.mp hcs]
      exact Nat.zero_le _
    · have hle := length_foldl_le ws (le_refl ([] : List CString).length)
      have hmax := length_stack_le (ws ++ [w])
      refine (ih (fun v hv => hws v (mem_append_left _ hv)) ?_).snoc (h ▸ hmax)
      have hw : w ≠ [] := hws w (by simp)
      have hpos := length_pos_iff.mpr hroot
      rw [normal, foldl_append, foldl_cons, foldl_nil] at h hpos
      rw [foldl_append, foldl_cons, foldl_nil] at h
      rw [normal]
      generalize ws.foldl pushComponent [] = stack at *
      generalize ws.foldl (cancel dot dotDot) [] = stack' at *
      unfold pushComponent cancel at h
      unfold cancel at hpos
      split_ifs at h hpos with hdot hdotDot hroom
      · exact h
      · rw [length_dropLast, length_dropLast] at h
        rw [length_dropLast] at hpos
        omega
      · simpa using h
      · rw [length_append, length_singleton] at h
        omega

theorem foldl_eq_iff (hws : ∀ w ∈ ws, w ≠ []) : ws.foldl pushComponent [] = normal dot dotDot ws ↔
  Shallow ws := ⟨fun h => shallow_of_length_eq hws (by rw [h]), foldl_of_shallow hws⟩

theorem pushComponent_cases (stack : List CString) (w : CString) :
    pushComponent stack w = cancel dot dotDot stack w ∨ pushComponent stack w = stack := by
  unfold pushComponent cancel
  split_ifs <;> simp

theorem foldl_out : ∀ (ws : List CString) (out : CString),
    out.length + (absolute slash ws).length ≤ vfsPathMax - 1 →
    ws.foldl (fun out name => (out ++ slash :: name).take (vfsPathMax - 1)) out =
    out ++ absolute slash ws
  | [], out, _ => by simp [absolute]
  | w :: ws, out, h => by
    rw [length_absolute_cons] at h
    have htake : (out ++ slash :: w).take (vfsPathMax - 1) = out ++ slash :: w :=
      take_of_length_le (by rw [length_append, length_cons]; omega)
    rw [foldl_cons, htake, foldl_out ws _ (by rw [length_append, length_cons]; omega)]
    simp [absolute]

section Resolve

theorem joined_plain (cwd input : CString) : Plain slash (joined cwd input) := by
  intro w hw
  unfold joined at hw
  split at hw
  · exact of_mem_components hw
  · exact (mem_append.mp hw).elim of_mem_components of_mem_components

theorem stack_plain (h : Plain slash ws) : Plain slash (ws.foldl pushComponent []) := fun w hw => by
  refine h w ((mem_foldl (fun stack w v hv => ?_) hw).resolve_left not_mem_nil)
  rcases pushComponent_cases stack w with he | he <;> rw [he] at hv
  · exact mem_cancel hv
  · exact .inl hv

theorem normal_plain (h : Plain slash ws) : Plain slash (normal dot dotDot ws) := fun w hw =>
  h w ((mem_foldl (fun _ _ _ => mem_cancel) hw).resolve_left not_mem_nil)

theorem length_absolute_stack (ws : List CString) :
    (absolute slash (ws.foldl pushComponent [])).length ≤ (absolute slash ws).length := by
  refine (length_absolute_foldl (fun stack w => ?_) ws []).trans_eq (Nat.zero_add _)
  rcases pushComponent_cases stack w with he | he <;> rw [he]
  · exact length_absolute_cancel ..
  · omega

variable (hcwd : cwd.head? = some slash) (hlen : input.length < vfsPathMax)
  (hfits : input.head? = some slash ∨ cwd.length + 1 + input.length < vfsPathMax)
include hcwd hlen hfits

theorem joinPath_spec :
    components slash (joinPath cwd input) = joined cwd input ∧
      (joinPath cwd input).head? = some slash ∧ (joinPath cwd input).length < vfsPathMax := by
  unfold joinPath joined
  split
  · rename_i habs
    rw [take_of_length_le (by omega)]
    exact ⟨rfl, habs, hlen⟩
  · rename_i hrel
    have hfits := hfits.resolve_left hrel
    have hjoin : (cwd ++ slash :: input).length < vfsPathMax := by
      rw [length_append, length_cons]
      omega
    rw [take_of_length_le (by omega), components_append_cons, head?_append, hcwd]
    exact ⟨rfl, rfl, hjoin⟩

theorem resolvePath_eq :
    resolvePath cwd input = pathOf slash ((joined cwd input).foldl pushComponent []) := by
  obtain ⟨hparts, hhead, hshort⟩ := joinPath_spec hcwd hlen hfits
  have hstack : simplify (((joinPath cwd input).dropWhile (· = slash)).length + 1) []
      ((joinPath cwd input).dropWhile (· = slash)) = (joined cwd input).foldl pushComponent [] := by
    rw [simplify_eq _ (Nat.lt_succ_self _), components_dropWhile, hparts]
  unfold resolvePath pathOf
  dsimp only
  rw [hstack]
  split
  · rfl
  · obtain ⟨c, rest, hpath⟩ :=
      exists_cons_of_ne_nil fun h : joinPath cwd input = [] => by simp [h] at hhead
    have hle := length_absolute_components slash rest
    rw [hpath, head?_cons, Option.some.injEq] at hhead
    rw [hpath, hhead, components_cons_sep] at hparts
    rw [hparts] at hle
    rw [hpath, length_cons] at hshort
    have hstacked := length_absolute_stack (joined cwd input)
    rw [foldl_out _ _ (by rw [length_nil]; omega), nil_append]

theorem resolvePath_eq_iff :
    resolvePath cwd input = canonical cwd input ↔ Shallow (joined cwd input) := by
  have hplain := joined_plain cwd input
  rw [resolvePath_eq hcwd hlen hfits, canonical, ← foldl_eq_iff fun w hw => (hplain w hw).1]
  refine ⟨fun h => ?_, congrArg _⟩
  rw [← components_pathOf (stack_plain hplain), h, components_pathOf (normal_plain hplain)]

end Resolve

def CwdsOk (s : Vfsd) : Prop := ∀ i e, s.cwds i = some e → e.cwd.head? = some slash

theorem CwdsOk.setCwd (h : CwdsOk s) (pid : BitVec 32) (path : CString) :
    CwdsOk (s.setCwd pid path).1 := by
  unfold Vfsd.setCwd
  split
  · exact h
  · rename_i hpath
    rw [not_not] at hpath
    dsimp only
    split
    · rename_i i _
      intro j e he
      by_cases hj : j = i
      · subst hj
        simp only [Function.update_self, Option.some.injEq] at he
        subst he
        rcases path with _ | ⟨c, path⟩
        · cases hpath
        · exact hpath
      · simp only [Function.update_of_ne hj] at he
        exact h j e he
    · exact h

theorem CwdsOk.getCwd (h : CwdsOk s) (pid : BitVec 32) : (s.getCwd pid).head? = some slash := by
  unfold Vfsd.getCwd
  split
  · rename_i e he
    obtain ⟨i, -, hi⟩ := Option.bind_eq_some_iff.mp he
    exact h i e hi
  · rfl

def cwdStep (s : Vfsd) (a : BitVec 32 × CString) : Option Vfsd := some (s.setCwd a.1 a.2).1

theorem cwdsOk (h : Reach cwdStep (· = init) (fun _ _ => True) s) : CwdsOk s := by
  refine h.invariant ?_ fun s a s' hs _ hstep => ?_
  · rintro s rfl i e he
    cases he
  · cases hstep
    exact hs.setCwd a.1 a.2

/-- A path that the server accepts and that fits into 255 bytes with the working directory resolves
to the normalised path exactly when it is not too deep. -/
theorem resolution_exact (h : Lib.Reach cwdStep (· = init) (fun _ _ => True) s) (pid : BitVec 32)
    (hlen : input.length < vfsPathMax)
    (hfits : input.head? = some slash ∨ (s.getCwd pid).length + 1 + input.length < vfsPathMax) :
    resolvePath (s.getCwd pid) input = canonical (s.getCwd pid) input ↔
    Shallow (joined (s.getCwd pid) input) :=
  resolvePath_eq_iff ((cwdsOk h).getCwd pid) hlen hfits

theorem resolution_exact_relative : ∃ s : Vfsd, cwdStep init (1, [47, 97, 47, 98]) = some s ∧
    resolvePath (s.getCwd 1) [46, 46, 47, 99, 47, 47, 46, 47, 100] =
      canonical (s.getCwd 1) [46, 46, 47, 99, 47, 47, 46, 47, 100] ∧
    canonical (s.getCwd 1) [46, 46, 47, 99, 47, 47, 46, 47, 100] = [47, 97, 47, 99, 47, 100] := by
  have hcwd : (init.setCwd 1 [47, 97, 47, 98]).1.getCwd 1 = [47, 97, 47, 98] := by decide
  refine ⟨_, rfl,
    (resolution_exact (.next (.init rfl) trivial rfl) 1 (by decide) (.inr ?_)).mpr ?_, ?_⟩
  · rw [hcwd]
    decide
  · rw [hcwd]
    exact shallow_of_length (by decide)
  · rw [hcwd]
    decide

/-- `/a/a/…/a` with 33 components loses the last one. -/
theorem component_dropped : (List.replicate 33 [47, 97]).flatten.length < vfsPathMax ∧
    resolvePath (init.getCwd 1) (List.replicate 33 [47, 97]).flatten ≠
      canonical (init.getCwd 1) (List.replicate 33 [47, 97]).flatten := by
  decide +kernel

end Vfsd

end Xnix
