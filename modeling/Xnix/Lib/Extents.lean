import Mathlib.Data.Fintype.BigOperators

/-!
# Lists of extents

An extent is a range of addresses. A list of extents that is sorted by address is what an allocator
keeps of its free memory: `insert` puts an extent into its place, `merge` joins each extent with
those that follow it without a gap. Both keep the list sorted and cover the same addresses; after
`merge` there is a gap behind every extent.
-/

namespace Lib

open List

/-- The addresses from `start` on, `len` of them. -/
structure Extent where
  start : ℕ
  len : ℕ
  deriving DecidableEq

namespace Extent

variable {e f g : Extent} {x : ℕ} {l : List Extent}

def fin (e : Extent) : ℕ := e.start + e.len

def Has (e : Extent) (x : ℕ) : Prop := e.start ≤ x ∧ x < e.fin

def Apart (e f : Extent) : Prop := e.fin ≤ f.start ∨ f.fin ≤ e.start

def Within (e f : Extent) : Prop := f.start ≤ e.start ∧ e.fin ≤ f.fin

theorem Apart.symm (h : e.Apart f) : f.Apart e := Or.symm h

theorem Apart.not_has (h : e.Apart f) (hx : e.Has x) : ¬ f.Has x := by
  unfold Apart at h
  unfold Has at hx ⊢
  omega

theorem Apart.mono {e' f' : Extent} (h : e.Apart f) (he : e'.Within e) (hf : f'.Within f) :
    e'.Apart f' := by
  unfold Apart at h ⊢
  unfold Within at he hf
  omega

theorem Within.refl (e : Extent) : e.Within e := ⟨le_rfl, le_rfl⟩

theorem Within.has (h : e.Within f) (hx : e.Has x) : f.Has x :=
    ⟨h.1.trans hx.1, lt_of_lt_of_le hx.2 h.2⟩

theorem Within.trans (h : e.Within f) (h' : f.Within g) : e.Within g :=
    ⟨h'.1.trans h.1, h.2.trans h'.2⟩

def Sorted (l : List Extent) : Prop := l.Pairwise fun e f => e.fin ≤ f.start

def Separated (l : List Extent) : Prop := l.Pairwise fun e f => e.fin < f.start

/-- Put an extent into its place. -/
def insert (e : Extent) : List Extent → List Extent
  | [] => [e]
  | f :: l => if e.start < f.start then e :: f :: l else f :: insert e l

/-- Join two extents of which the second follows the first. -/
def join (e f : Extent) : Extent := ⟨e.start, e.len + f.len⟩

/-- Join each extent with those that follow it without a gap. -/
def merge : List Extent → List Extent
  | [] => []
  | [e] => [e]
  | e :: f :: l => if e.fin = f.start then merge (e.join f :: l) else e :: merge (f :: l)
  termination_by l => l.length

instance : Std.Symm Apart := ⟨fun _ _ => Apart.symm⟩

theorem Sorted.apart (h : Sorted l) (he : e ∈ l) (hf : f ∈ l) (hne : e ≠ f) : e.Apart f :=
  (h.imp fun h => .inl h).forall he hf hne

/-- Sorted extents below a bound are at most as many as there are addresses. -/
theorem Sorted.length_le (bound : ℕ) : ∀ {l : List Extent} (low : ℕ), Sorted l →
    (∀ e ∈ l, 0 < e.len ∧ e.fin ≤ bound ∧ low ≤ e.start) → l.length + low ≤ max low bound
  | [], low, _, _ => by
    rw [length_nil]
    omega
  | e :: l, low, hs, hl => by
    obtain ⟨he, hs⟩ := pairwise_cons.mp hs
    have hel := hl e (by simp)
    have ih := Sorted.length_le bound e.fin hs fun f hf =>
      ⟨(hl f (by simp [hf])).1, (hl f (by simp [hf])).2.1, he f hf⟩
    have hfin : e.fin = e.start + e.len := rfl
    rw [length_cons]
    omega

theorem mem_insert : ∀ {l : List Extent}, f ∈ insert e l ↔ f = e ∨ f ∈ l
  | [] => by simp [insert]
  | g :: l => by
    rw [insert]
    split
    · rw [mem_cons]
    · rw [mem_cons, mem_insert, mem_cons]
      tauto

theorem Sorted.insert (he : 0 < e.len) : ∀ {l : List Extent}, Sorted l → (∀ f ∈ l, 0 < f.len) →
    (∀ f ∈ l, e.Apart f) → Sorted (insert e l)
  | [], _, _, _ => pairwise_singleton ..
  | g :: l, hs, hpos, ha => by
    obtain ⟨hg, hl⟩ := pairwise_cons.mp hs
    have hag := ha g (by simp)
    unfold Apart at hag
    have hfin : g.fin = g.start + g.len := rfl
    have hefin : e.fin = e.start + e.len := rfl
    rw [Extent.insert]
    split
    · refine pairwise_cons.mpr ⟨fun f hf => ?_, hs⟩
      rcases mem_cons.mp hf with rfl | hf
      · omega
      · have := hg f hf
        omega
    · refine pairwise_cons.mpr ⟨fun f hf => ?_,
        Sorted.insert he hl (fun f hf => hpos f (by simp [hf])) fun f hf => ha f (by simp [hf])⟩
      rcases mem_insert.mp hf with rfl | hf
      · omega
      · exact hg f hf

theorem fin_join (h : e.fin = f.start) : (e.join f).fin = f.fin := by
  change e.start + (e.len + f.len) = f.start + f.len
  change e.start + e.len = f.start at h
  omega


theorem within_merge : ∀ {e : Extent}, e ∈ l → ∃ f ∈ merge l, e.Within f := by
  induction l using merge.induct with
  | case1 => simp
  | case2 e =>
    intro f hf
    rw [merge]
    exact ⟨e, by simp, (mem_singleton.mp hf) ▸ .refl _⟩
  | case3 e f l h ih =>
    intro g hg
    rw [merge, if_pos h]
    have hin : ∃ g' ∈ e.join f :: l, g.Within g' := by
      have hfin := fin_join h
      have hstart : (e.join f).start = e.start := rfl
      have he : e.start ≤ e.fin := Nat.le_add_right ..
      have hf : f.start ≤ f.fin := Nat.le_add_right ..
      simp only [mem_cons] at hg
      unfold Within
      rcases hg with rfl | rfl | hg
      · exact ⟨_, mem_cons_self, by omega⟩
      · exact ⟨_, mem_cons_self, by omega⟩
      · exact ⟨g, by simp [hg], Within.refl g⟩
    obtain ⟨g', hg', hw⟩ := hin
    obtain ⟨f', hf', hw'⟩ := ih hg'
    exact ⟨f', hf', hw.trans hw'⟩
  | case4 e f l h ih =>
    intro g hg
    rw [merge, if_neg h]
    rcases mem_cons.mp hg with rfl | hg
    · exact ⟨g, by simp, .refl g⟩
    · obtain ⟨f', hf', hw⟩ := ih hg
      exact ⟨f', mem_cons_of_mem _ hf', hw⟩

/-- What holds of the extents of a list and of two extents joined holds of those that `merge`
leaves. -/
theorem forall_merge {P : Extent → Prop} (hjoin : ∀ e f, P e → P f → e.fin = f.start → P (e.join f))
    (h : ∀ e ∈ l, P e) : ∀ e ∈ merge l, P e := by
  induction l using merge.induct with
  | case1 => simp [merge]
  | case2 e => simpa [merge] using h
  | case3 e f l hfin ih =>
    rw [merge, if_pos hfin]
    refine ih fun g hg => ?_
    rcases mem_cons.mp hg with rfl | hg
    · exact hjoin e f (h e (by simp)) (h f (by simp)) hfin
    · exact h g (by simp [hg])
  | case4 e f l hfin ih =>
    rw [merge, if_neg hfin]
    intro g hg
    rcases mem_cons.mp hg with rfl | hg
    · exact h g (by simp)
    · exact ih (fun g hg => h g (mem_cons_of_mem _ hg)) g hg

theorem Sorted.join (h : Sorted (e :: f :: l)) (hfin : e.fin = f.start) :
    Sorted (e.join f :: l) := by
  obtain ⟨-, h⟩ := pairwise_cons.mp h
  obtain ⟨hf, hl⟩ := pairwise_cons.mp h
  exact pairwise_cons.mpr ⟨fun g hg => fin_join hfin ▸ hf g hg, hl⟩

theorem Sorted.merge (h : Sorted l) (hpos : ∀ e ∈ l, 0 < e.len) : Separated (merge l) := by
  induction l using merge.induct with
  | case1 =>
    rw [Extent.merge]
    exact .nil
  | case2 e =>
    rw [Extent.merge]
    exact pairwise_singleton ..
  | case3 e f l hfin ih =>
    rw [Extent.merge, if_pos hfin]
    refine ih (h.join hfin) fun g hg => ?_
    rcases mem_cons.mp hg with rfl | hg
    · exact Nat.add_pos_left (hpos e (by simp)) _
    · exact hpos g (by simp [hg])
  | case4 e f l hfin ih =>
    rw [Extent.merge, if_neg hfin]
    obtain ⟨he, hl⟩ := pairwise_cons.mp h
    refine pairwise_cons.mpr ⟨?_, ih hl fun g hg => hpos g (mem_cons_of_mem _ hg)⟩
    have hef : e.fin < f.start := lt_of_le_of_ne (he f (by simp)) hfin
    refine forall_merge (fun g g' hg _ _ => hg) fun g hg => ?_
    rcases mem_cons.mp hg with rfl | hg
    · exact hef
    · have := (pairwise_cons.mp hl).1 g hg
      have : f.start ≤ f.fin := Nat.le_add_right ..
      omega

theorem Separated.sorted (h : Separated l) : Sorted l := h.imp fun h => h.le

/-- An extent apart from two that follow each other is apart from both joined. -/
theorem Apart.join (hg : 0 < g.len) (he : e.Apart g) (hf : f.Apart g) (hfin : e.fin = f.start) :
    (e.join f).Apart g := by
  have hj := fin_join hfin
  have hstart : (e.join f).start = e.start := rfl
  have hgfin : g.fin = g.start + g.len := rfl
  unfold Apart at *
  omega

end Extent

end Lib
