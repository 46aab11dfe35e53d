import Mathlib.Data.List.DropRight
import Mathlib.Data.List.TakeWhile
import Mathlib.Data.Fintype.BigOperators

/-!
# Paths as lists of components

A path is a list of symbols and its components are the pieces between separators, the empty ones
left out. Among paths that are written out from components, one is a prefix of another at a
separator exactly when its components are the first ones of the other.
-/

namespace Lib

open List

variable {α : Type*} {sep : α} {a b l : List α}

theorem mem_foldl (hf : ∀ stack w, ∀ v ∈ f stack w, v ∈ stack ∨ v = w) {v : List α} :
    ∀ {ws stack : List (List α)}, v ∈ ws.foldl f stack → v ∈ stack ∨ v ∈ ws
  | [], _, h => .inl h
  | w :: ws, stack, h => by
    obtain h | h : v ∈ f stack w ∨ v ∈ ws := mem_foldl hf h
    · rcases hf stack w v h with h | rfl
      · exact .inl h
      · exact .inr mem_cons_self
    · exact .inr (mem_cons_of_mem w h)

variable {ws vs us : List (List α)}

def absolute (sep : α) (ws : List (List α)) : List α := ws.flatMap (sep :: ·)

/-- The absolute path with the given components, the root as a single separator. -/
def pathOf (sep : α) (ws : List (List α)) : List α := if ws = [] then [sep] else absolute sep ws

/-- Components that can be written out: not empty and without a separator. -/
def Plain (sep : α) (ws : List (List α)) : Prop := ∀ w ∈ ws, w ≠ [] ∧ sep ∉ w

theorem length_absolute_cons (w : List α) (ws : List (List α)) :
    (absolute sep (w :: ws)).length = w.length + 1 + (absolute sep ws).length := by
  simp only [absolute, flatMap_cons, length_append, length_cons]

theorem absolute_append (ws vs : List (List α)) :
    absolute sep (ws ++ vs) = absolute sep ws ++ absolute sep vs := flatMap_append

theorem length_absolute_foldl
    (hf : ∀ stack w, (absolute sep (f stack w)).length ≤ (absolute sep stack).length +
    (w.length + 1)) : ∀ ws stack : List (List α),
    (absolute sep (ws.foldl f stack)).length ≤
    (absolute sep stack).length + (absolute sep ws).length
  | [], stack => by simp [absolute]
  | w :: ws, stack => by
    have ih := length_absolute_foldl hf ws (f stack w)
    have hstep := hf stack w
    rw [foldl_cons, length_absolute_cons]
    omega

theorem Plain.append_right (h : Plain sep (ws ++ vs)) : Plain sep vs :=
    fun w hw => h w (mem_append_right ws hw)

theorem Plain.of_prefix (h : Plain sep vs) (hpre : ws <+: vs) : Plain sep ws :=
    fun w hw => h w (hpre.subset hw)

theorem head_absolute (ws : List (List α)) :
    (absolute sep ws).head? = none ∨ (absolute sep ws).head? = some sep := by
  rcases ws with _ | ⟨w, ws⟩
  · exact .inl rfl
  · exact .inr rfl

theorem length_pathOf_lt (ws : List (List α)) (hus : Plain sep us) (hne : us ≠ []) :
    (pathOf sep ws).length < (pathOf sep (ws ++ us)).length := by
  obtain ⟨u, us, rfl⟩ := exists_cons_of_ne_nil hne
  have hu := length_pos_iff.mpr (hus u mem_cons_self).1
  have hpos : (absolute sep (u :: us)).length = u.length + 1 + (absolute sep us).length :=
    length_absolute_cons u us
  have hne' : ws ++ u :: us ≠ [] := by simp
  rw [pathOf, pathOf, if_neg hne', absolute_append, length_append]
  split
  · simp only [length_singleton]
    omega
  · omega

/-- Of two paths to places on the way to a third, the longer one is the deeper one. -/
theorem length_le_of_pathOf {vs' : List (List α)} (h : Plain sep vs) (hws : ws <+: vs)
    (hvs' : vs' <+: vs)
    (hle : (pathOf sep vs').length ≤ (pathOf sep ws).length) : vs'.length ≤ ws.length := by
  by_contra hlt
  obtain ⟨us, rfl⟩ := prefix_of_prefix_length_le hws hvs' (by omega)
  have hne : us ≠ [] := by
    rintro rfl
    simp at hlt
  have := length_pathOf_lt ws (h.of_prefix hvs').append_right hne
  omega

variable [DecidableEq α]

/-- The pieces between separators that are not empty. -/
def components (sep : α) (l : List α) : List (List α) := (l.splitOn sep).filter (!·.isEmpty)

/-- Take one more component onto a path: `here` stays, `up` goes up and stays at the root. -/
def cancel (here up : List α) (stack : List (List α)) (w : List α) : List (List α) :=
  if w = here then stack else if w = up then stack.dropLast else stack ++ [w]

/-- The components of a path without the components `here` and `up`. -/
def normal (here up : List α) (ws : List (List α)) : List (List α) := ws.foldl (cancel here up) []

theorem splitOn_append_cons (sep : α) :
    ∀ a b : List α, (a ++ sep :: b).splitOn sep = a.splitOn sep ++ b.splitOn sep
  | [], b => by simp [splitOn, splitOnP_cons_eq_if_modifyHead]
  | c :: a, b => by
    have ih := splitOn_append_cons sep a b
    simp only [splitOn, cons_append, splitOnP_cons_eq_if_modifyHead] at ih ⊢
    rw [ih]
    split
    · rfl
    · obtain ⟨w, ws, hw⟩ := exists_cons_of_ne_nil (splitOnP_ne_nil (· == sep) a)
      rw [hw]
      rfl

theorem components_append_cons (sep : α) (a b : List α) :
    components sep (a ++ sep :: b) = components sep a ++ components sep b := by
  rw [components, splitOn_append_cons, filter_append]
  rfl

@[simp] theorem components_nil : components sep [] = [] := rfl

@[simp] theorem components_cons_sep : components sep (sep :: l) = components sep l :=
    components_append_cons sep [] l

theorem components_of_notMem (hl : sep ∉ l) (hne : l ≠ []) : components sep l = [l] := by
  have hsplit : l.splitOn sep = [l] := by
    refine splitOnP_eq_singleton fun x hx => ?_
    simpa using ne_of_mem_of_not_mem hx hl
  rw [components, hsplit]
  simpa using hne

theorem components_eq_takeWhile (sep : α) (l : List α) : components sep l =
      (if l.takeWhile (· ≠ sep) = [] then [] else [l.takeWhile (· ≠ sep)]) ++
        components sep (l.dropWhile (· ≠ sep)).tail := by
  have hw : sep ∉ l.takeWhile (· ≠ sep) := fun h => by simpa using mem_takeWhile_imp h
  have hfirst : components sep (l.takeWhile (· ≠ sep)) =
      if l.takeWhile (· ≠ sep) = [] then [] else [l.takeWhile (· ≠ sep)] := by
    split
    · rename_i h
      rw [h, components_nil]
    · rename_i h
      exact components_of_notMem hw h
  rw [← hfirst]
  conv_lhs => rw [← takeWhile_append_dropWhile (p := (· ≠ sep)) (l := l)]
  rcases hr : l.dropWhile (· ≠ sep) with _ | ⟨c, r⟩
  · simp
  · have hc : c = sep := by
      have hhead := head_dropWhile_not (p := (· ≠ sep)) (by rw [hr]; exact cons_ne_nil c r)
      simp only [hr] at hhead
      exact not_not.mp (of_decide_eq_false hhead)
    rw [hc, components_append_cons, tail_cons]

theorem notMem_of_mem_splitOn {w : List α} : ∀ {l : List α}, w ∈ l.splitOn sep → sep ∉ w
  | [], hw => by
    obtain rfl : w = [] := by simpa using hw
    exact not_mem_nil
  | c :: l, hw => by
    have ih : ∀ v ∈ l.splitOn sep, sep ∉ v := fun v hv => notMem_of_mem_splitOn hv
    simp only [splitOn, splitOnP_cons_eq_if_modifyHead, beq_iff_eq] at hw ih
    obtain ⟨v, vs, hv⟩ := exists_cons_of_ne_nil (splitOnP_ne_nil (· == sep) l)
    rw [hv] at hw ih
    split at hw
    · rcases mem_cons.mp hw with rfl | hw
      · exact not_mem_nil
      · exact ih w hw
    · rename_i hc
      rcases mem_cons.mp hw with rfl | hw
      · rw [mem_cons, not_or]
        exact ⟨fun h => hc h.symm, ih v mem_cons_self⟩
      · exact ih w (mem_cons_of_mem v hw)

theorem of_mem_components {w : List α} (hw : w ∈ components sep l) : w ≠ [] ∧ sep ∉ w := by
  rw [components, mem_filter] at hw
  exact ⟨by simpa using hw.2, notMem_of_mem_splitOn hw.1⟩

theorem components_absolute : ∀ {ws : List (List α)}, Plain sep ws →
    components sep (absolute sep ws) = ws
  | [], _ => rfl
  | w :: ws, h => by
    obtain ⟨hne, hw⟩ := h w mem_cons_self
    have ih := components_absolute fun v hv => h v (mem_cons_of_mem w hv)
    rcases ws with _ | ⟨v, vs⟩
    · simpa [absolute] using components_of_notMem hw hne
    · have hsplit : absolute sep (w :: v :: vs) = sep :: (w ++ sep :: (v ++ absolute sep vs)) := by
        simp [absolute]
      have hrest : absolute sep (v :: vs) = sep :: (v ++ absolute sep vs) := by simp [absolute]
      rw [hrest, components_cons_sep] at ih
      rw [hsplit, components_cons_sep, components_append_cons, components_of_notMem hw hne, ih]
      rfl

theorem components_dropWhile (sep : α) :
    ∀ l : List α, components sep (l.dropWhile (· = sep)) = components sep l
  | [] => rfl
  | c :: l => by
    by_cases hc : c = sep
    · subst hc
      rw [dropWhile_cons_of_pos (by simp), components_dropWhile c l, components_cons_sep]
    · rw [dropWhile_cons_of_neg (by simpa using hc)]

theorem eq_append_rtakeWhile (hl : sep ∈ l) :
    l = (l.rdropWhile (· ≠ sep)).dropLast ++ sep :: l.rtakeWhile (· ≠ sep) := by
  have hne : l.rdropWhile (· ≠ sep) ≠ [] := fun h => by
    have := rdropWhile_eq_nil_iff.mp h sep hl
    simp at this
  have hlast : (l.rdropWhile (· ≠ sep)).getLast hne = sep := by
    simpa using rdropWhile_last_not (· ≠ sep) l hne
  have hrd := dropLast_append_getLast hne
  rw [hlast] at hrd
  calc l = l.rdropWhile (· ≠ sep) ++ l.rtakeWhile (· ≠ sep) :=
    (rdropWhile_append_rtakeWhile ..).symm
    _ = _ := by
      conv_lhs => rw [← hrd]
      simp

theorem notMem_rtakeWhile : sep ∉ l.rtakeWhile (· ≠ sep) := fun h => by
  simpa using mem_rtakeWhile_imp h

theorem length_absolute_splitOn (sep : α) :
    ∀ l : List α, (absolute sep (l.splitOn sep)).length = l.length + 1
  | [] => by simp [absolute]
  | c :: l => by
    have ih := length_absolute_splitOn sep l
    obtain ⟨w, ws, hw⟩ := exists_cons_of_ne_nil (splitOnP_ne_nil (· == sep) l)
    simp only [splitOn, splitOnP_cons_eq_if_modifyHead, hw] at ih ⊢
    split
    · rw [length_absolute_cons, ih, length_nil, length_cons]
      omega
    · rw [modifyHead_cons, length_absolute_cons, length_cons, length_cons, ← ih,
        length_absolute_cons]
      omega

/-- Every component of a path takes a separator and itself, and one separator may be missing. -/
theorem length_absolute_components (sep : α) (l : List α) :
    (absolute sep (components sep l)).length ≤ l.length + 1 := by
  have hfilter : ∀ ws : List (List α),
    (absolute sep (ws.filter (!·.isEmpty))).length ≤ (absolute sep ws).length := by
    intro ws
    induction ws with
    | nil => exact le_rfl
    | cons w ws ih =>
      rw [length_absolute_cons, filter_cons]
      split
      · rw [length_absolute_cons]
        omega
      · omega
  rw [← length_absolute_splitOn sep l]
  exact hfilter _

theorem length_absolute_cancel (sep : α) (here up : List α) (stack : List (List α)) (w : List α) :
    (absolute sep (cancel here up stack w)).length ≤
    (absolute sep stack).length + (w.length + 1) := by
  unfold cancel
  split
  · omega
  · split
    · rcases eq_nil_or_concat stack with rfl | ⟨st, v, rfl⟩
      · simp [absolute]
      · rw [concat_eq_append, dropLast_concat, absolute_append, length_append]
        omega
    · rw [absolute_append, length_append, length_absolute_cons]
      simp [absolute]

theorem mem_cancel {here up w v : List α} {stack : List (List α)} (h : v ∈ cancel here up stack w) :
    v ∈ stack ∨ v = w := by
  unfold cancel at h
  split_ifs at h
  · exact .inl h
  · exact .inl (mem_of_mem_dropLast h)
  · simpa using h

theorem length_foldl_cancel_le (here up : List α) : ∀ ws stack : List (List α),
    (ws.foldl (cancel here up) stack).length ≤ stack.length + ws.length
  | [], _ => le_rfl
  | w :: ws, stack => by
    have ih := length_foldl_cancel_le here up ws (cancel here up stack w)
    have hstep : (cancel here up stack w).length ≤ stack.length + 1 := by
      unfold cancel
      split
      · omega
      · split
        · rw [length_dropLast]
          omega
        · rw [length_append, length_singleton]
    rw [foldl_cons, length_cons]
    omega

theorem components_pathOf (h : Plain sep ws) : components sep (pathOf sep ws) = ws := by
  unfold pathOf
  split
  · rename_i hnil
    rw [hnil]
    simp
  · exact components_absolute h

theorem normal_of_forall {here up : List α} : ∀ {ws stack : List (List α)},
    (∀ w ∈ ws, w ≠ here ∧ w ≠ up) → ws.foldl (cancel here up) stack = stack ++ ws
  | [], stack, _ => (append_nil stack).symm
  | w :: ws, stack, h => by
    have hw := h w mem_cons_self
    have hstep : cancel here up stack w = stack ++ [w] := by rw [cancel, if_neg hw.1, if_neg hw.2]
    rw [foldl_cons, hstep, normal_of_forall fun v hv => h v (mem_cons_of_mem w hv), append_assoc,
      singleton_append]

/-- A written path is a prefix up to a separator or the end exactly when its components come
first. -/
theorem absolute_prefix_iff (hws : Plain sep ws) (hvs : Plain sep vs) :
    (absolute sep ws <+: absolute sep vs ∧
    ((absolute sep vs)[(absolute sep ws).length]? = some sep ∨
      (absolute sep vs)[(absolute sep ws).length]? = none)) ↔ ws <+: vs := by
  constructor
  · rintro ⟨⟨rest, hrest⟩, hnext⟩
    rw [← hrest, getElem?_append_right le_rfl, Nat.sub_self] at hnext
    have hparts := congrArg (components sep) hrest
    rw [components_absolute hvs] at hparts
    rcases rest with _ | ⟨c, rest⟩
    · rw [append_nil, components_absolute hws] at hparts
      exact hparts ▸ prefix_rfl
    · have hc : c = sep := by simpa using hnext
      rw [hc, components_append_cons, components_absolute hws] at hparts
      exact ⟨_, hparts⟩
  · rintro ⟨us, rfl⟩
    rw [absolute_append]
    refine ⟨prefix_append .., ?_⟩
    rw [getElem?_append_right le_rfl, Nat.sub_self, ← head?_eq_getElem?]
    exact (head_absolute us).symm

end Lib
