import Xnix.Lib.Chain

/-!
# Places in intrusive lists

Code that walks a list with a pointer to the link it came through, or that keeps a pointer to the
last element, writes to a place: the head of the list, or the link of an element. A place is named
by the element before it. Where the links spell out lists, the place after a first part holds the
rest, and writing there replaces the rest.
-/

namespace Lib

open Function List

variable {κ ι : Type*} {t : ι} {l₁ l₂ : List ι}

section Operations

/-- What the place after `prev` holds. -/
def Links.at (L : Links κ ι) (q : κ) : Option ι → Option ι
  | none => L.head q
  | some u => L.next u

variable [DecidableEq ι]

/-- The element before `t` on a walk, if the walk meets `t`; the outer `none` is a walk that does
not end. -/
def seek (t : ι) : ℕ → (ι → Option ι) → Option ι → Option ι → Option (Option (Option ι))
  | _, _, _, none => some none
  | 0, _, _, some _ => none
  | n + 1, next, prev, some u => if u = t then some (some prev) else seek t n next (some u) (next u)

variable [DecidableEq κ] (L : Links κ ι)

def Links.write (q : κ) : Option ι → Option ι → Links κ ι
  | none, v => { L with head := update L.head q v }
  | some u, v => { L with next := update L.next u v }

def Links.take (q : κ) (prev : Option ι) (t : ι) : Links κ ι :=
  (L.write q prev (L.next t)).clear t

def Links.append (q : κ) (last : Option ι) (t : ι) : Links κ ι :=
  (L.clear t).write q last (some t)

/-- Look for `t` and take it out; the element before it is returned, if `t` was there. -/
def Links.remove [Fintype ι] (L : Links κ ι) (q : κ) (t : ι) :
    Option (Option (Option ι) × Links κ ι) :=
  match seek t (Fintype.card ι) L.next none (L.head q) with
  | none => none
  | some none => some (none, L)
  | some (some prev) => some (some prev, L.take q prev t)

end Operations

section Chain
variable {next : ι → Option ι} {u : ι} {l : List ι} {h : Option ι}

theorem Chain.tail :
    ∀ {l₁ : List ι} {h : Option ι}, Chain next h (l₁ ++ u :: l₂) → Chain next (next u) l₂
  | [], _, .cons hl => hl
  | _ :: _, _, .cons hl => Chain.tail hl

variable [DecidableEq ι]

theorem Chain.splice {v : Option ι} (hv : Chain (Function.update next u v) v l) :
    ∀ {l₁ : List ι} {h : Option ι}, Chain next h (l₁ ++ u :: l₂) →
    Chain (Function.update next u v) h (l₁ ++ u :: l)
  | [], _, .cons _ => by
    refine .cons ?_
    rw [update_self]
    exact hv
  | w :: l₁, _, .cons hl => by
    have hwu : w ≠ u := by
      rintro rfl
      exact (nodup_cons.mp (Chain.cons hl).nodup).1 (by simp)
    refine .cons ?_
    rw [update_of_ne hwu]
    exact Chain.splice hv hl

theorem Chain.seek_of_mem : ∀ {n : ℕ} {l₁ : List ι} {prev h : Option ι},
    Chain next h (l₁ ++ t :: l₂) → t ∉ l₁ → (l₁ ++ t :: l₂).length ≤ n →
      Lib.seek t n next prev h = some (some (l₁.getLast?.or prev))
  | 0, _, _, _, _, _, hn => by simp at hn
  | n + 1, [], prev, _, .cons _, _, _ => by simp [Lib.seek]
  | n + 1, w :: l₁, prev, _, .cons hl, ht, hn => by
    rw [mem_cons, not_or] at ht
    rw [Lib.seek, if_neg (Ne.symm ht.1), Chain.seek_of_mem hl ht.2 (by simpa using hn),
      getLast?_cons]
    cases hl1 : l₁.getLast? <;> simp

theorem Chain.seek_of_notMem : ∀ {n : ℕ} {l : List ι} {prev h : Option ι},
    Chain next h l → t ∉ l → l.length ≤ n → Lib.seek t n next prev h = some none
  | 0, _, _, _, .nil, _, _ => rfl
  | _ + 1, _, _, _, .nil, _, _ => rfl
  | n + 1, _, prev, _, .cons hl, ht, hn => by
    rw [mem_cons, not_or] at ht
    rw [Lib.seek, if_neg (Ne.symm ht.1)]
    exact Chain.seek_of_notMem hl ht.2 (by simpa using hn)

end Chain

section Linked
variable {L : Links κ ι} {Q : κ → List ι} {q : κ}

theorem Linked.at (hL : Linked L Q) (hq : Q q = l₁ ++ l₂) :
    Chain L.next (L.at q l₁.getLast?) l₂ := by
  have hc := hL.chain q
  rw [hq] at hc
  rcases eq_nil_or_concat l₁ with rfl | ⟨l, u, rfl⟩
  · exact hc
  · rw [concat_eq_append, append_assoc] at hc
    rw [concat_eq_append, getLast?_concat]
    exact hc.tail

theorem Linked.at_eq (hL : Linked L Q) (hq : Q q = l₁ ++ l₂) : L.at q l₁.getLast? = l₂.head? := by
  have hc := hL.at hq
  generalize L.at q l₁.getLast? = h at hc
  cases hc <;> rfl

theorem Linked.head_eq (hL : Linked L Q) (q : κ) : L.head q = (Q q).head? :=
    hL.at_eq (nil_append (Q q)).symm

variable [DecidableEq κ]

theorem Linked.notMem_update (hL : Linked L Q) (hq : Q q = l₁ ++ t :: l₂) (q' : κ) :
    t ∉ Function.update Q q (l₁ ++ l₂) q' := by
  have hnodup := (hL.chain q).nodup
  rw [hq, nodup_middle, nodup_cons] at hnodup
  by_cases hq' : q' = q
  · rw [hq', update_self]
    exact hnodup.1
  · rw [update_of_ne hq']
    exact fun ht => hq' (hL.apart q' q t ht (by simp [hq]))

variable [DecidableEq ι] (hL : Linked L Q)
include hL

/-- Writing to the place after the first part of a list replaces the rest. -/
theorem Linked.write (hq : Q q = l₁ ++ l₂) {v : Option ι} {l3 : List ι} (hv : Chain L.next v l3)
    (hnew : ∀ u ∈ l3, u ∉ l₁) (hapart : ∀ u ∈ l3, u ∈ Q q ∨ ∀ q', u ∉ Q q') :
    Linked (L.write q l₁.getLast? v) (Function.update Q q (l₁ ++ l3)) := by
  have hsub : ∀ u ∈ l₁ ++ l3, u ∈ Q q ∨ ∀ q', u ∉ Q q' := fun u hu => by
    rcases mem_append.mp hu with hu | hu
    · exact .inl (by rw [hq]; exact mem_append_left _ hu)
    · exact hapart u hu
  rcases eq_nil_or_concat l₁ with rfl | ⟨l, u, rfl⟩
  · refine hL.update ?_ (fun p hp => ?_) hsub
    · simp only [getLast?_nil, Links.write, update_self]
      exact hv
    · simp only [getLast?_nil, Links.write, update_of_ne hp]
      exact hL.chain p
  · rw [concat_eq_append] at hq hnew hsub ⊢
    rw [getLast?_concat]
    have hu : u ∉ l3 := fun hu => hnew u hu (by simp)
    refine hL.update ?_ (fun p hp => ?_) hsub
    · simp only [Links.write, append_assoc, singleton_append]
      have hc := hL.chain q
      rw [hq, append_assoc] at hc
      exact (hv.update hu v).splice hc
    · refine (hL.chain p).update (fun hmem => hp (hL.apart p q u hmem ?_)) v
      rw [hq]
      simp

theorem Linked.take (hq : Q q = l₁ ++ t :: l₂) :
    Linked (L.take q l₁.getLast? t) (Function.update Q q (l₁ ++ l₂)) := by
  have hc := hL.chain q
  rw [hq] at hc
  have hsub : ∀ u ∈ l₂, u ∈ Q q := fun u hu => by rw [hq]; simp [hu]
  have hne : ∀ u ∈ l₂, u ∉ l₁ :=
    fun u hu hu1 => (nodup_append.mp hc.nodup).2.2 u hu1 u (mem_cons_of_mem t hu) rfl
  exact (hL.write hq hc.tail hne fun u hu => .inl (hsub u hu)).clear (hL.notMem_update hq)

theorem Linked.drop (hq : Q q = t :: l₂) : Linked (L.drop q t) (Function.update Q q l₂) :=
  hL.take (show Q q = [] ++ t :: l₂ from hq)

theorem Linked.append (ht : ∀ q', t ∉ Q q') :
    Linked (L.append q (Q q).getLast? t) (Function.update Q q (Q q ++ [t])) := by
  have hall : Q q = Q q ++ [] := (append_nil _).symm
  refine (hL.clear ht).write hall ?_ (fun u hu => ?_) fun u hu => ?_
  · have hend : (L.clear t).next t = none := update_self ..
    refine .cons ?_
    rw [hend]
    exact .nil
  · rw [mem_singleton.mp hu]
    exact ht q
  · rw [mem_singleton.mp hu]
    exact .inr ht

theorem Linked.remove_of_mem [Fintype ι] (hq : Q q = l₁ ++ t :: l₂) :
    L.remove q t = some (some l₁.getLast?, L.take q l₁.getLast? t) := by
  have hc := hL.chain q
  have hlen := hc.length_le_card
  rw [hq] at hc hlen
  have ht : t ∉ l₁ := fun ht => (nodup_append.mp hc.nodup).2.2 t ht t (mem_cons_self ..) rfl
  rw [Links.remove, hc.seek_of_mem ht hlen, Option.or_none]

theorem Linked.remove_of_notMem [Fintype ι] (ht : t ∉ Q q) : L.remove q t = some (none, L) := by
  rw [Links.remove, (hL.chain q).seek_of_notMem ht (hL.chain q).length_le_card]

end Linked

end Lib
