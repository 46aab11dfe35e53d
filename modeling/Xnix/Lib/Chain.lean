import Mathlib.Data.Fintype.BigOperators

/-!
# Intrusive lists

A family of singly linked lists whose link is a field of the elements. Nothing in the representation
keeps an element out of two lists or a list from running in a circle; `Linked` says that the links
do spell out a given family of lists, and each operation on the links is then the same operation on
the lists.
-/

namespace Lib

open Function List

variable {κ ι : Type*} {l : List ι} {t : ι}

/-- The heads of a family of lists and the link field of the elements. -/
structure Links (κ ι : Type*) where
  head : κ → Option ι
  next : ι → Option ι

section Operations
variable [DecidableEq κ] [DecidableEq ι] (L : Links κ ι)

def Links.push (q : κ) (t : ι) : Links κ ι :=
  ⟨update L.head q (some t), update L.next t (L.head q)⟩

def Links.clear (t : ι) : Links κ ι :=
  { L with next := update L.next t none }

/-- Take the first element `t` off the list it heads. -/
def Links.drop (q : κ) (t : ι) : Links κ ι :=
  ⟨update L.head q (L.next t), update L.next t none⟩

/-- Let `q'` head the list of `q`. -/
def Links.shift (q q' : κ) : Links κ ι :=
  { L with head := update (update L.head q' (L.head q)) q none }

def Links.pushAll (q : κ) (l : List ι) : Links κ ι :=
  l.foldl (fun L t => L.push q t) L

/-- Move the elements `l` of the list `q` to `q'`, one after the other. -/
def Links.adopt (q q' : κ) (l : List ι) : Links κ ι :=
  { L.pushAll q' l with head := update (L.pushAll q' l).head q none }

/-- Walk from `u` until the link to `t` and bypass it. The walk gives up after so many links; it
then runs in a circle. -/
def bypass (t : ι) : ℕ → (ι → Option ι) → ι → Option (ι → Option ι)
  | 0, _, _ => none
  | n + 1, next, u =>
    match next u with
    | none => some next
    | some v => if v = t then some (update next u (next t)) else bypass t n next v

/-- Take `t` off the list `q`, wherever it stands; `none` when the walk does not end. -/
def Links.unlink [Fintype ι] (L : Links κ ι) (q : κ) (t : ι) : Option (Links κ ι) :=
  match L.head q with
  | none => some L
  | some u =>
    if u = t then some { L with head := update L.head q (L.next t) }
    else (bypass t (Fintype.card ι) L.next u).map fun next => { L with next := next }

/-- The elements met on a walk; `none` when it does not end after so many links. -/
def walk : ℕ → (ι → Option ι) → Option ι → Option (List ι)
  | _, _, none => some []
  | 0, _, some _ => none
  | n + 1, next, some t => (walk n next (next t)).map (t :: ·)

/-- The elements of a list; `none` when it runs in a circle. -/
def Links.members [Fintype ι] (L : Links κ ι) (q : κ) : Option (List ι) :=
  walk (Fintype.card ι) L.next (L.head q)

/-- The elements met on a walk that clears each link it follows. -/
def collect : ℕ → (ι → Option ι) → Option ι → List ι × (ι → Option ι)
  | 0, next, _ => ([], next)
  | _ + 1, next, none => ([], next)
  | n + 1, next, some t =>
    let r := collect n (update next t none) (next t)
    (t :: r.1, r.2)

/-- Empty the list `q` and clear the links of its elements. A walk meets no element more than
twice. -/
def Links.takeAll [Fintype ι] (L : Links κ ι) (q : κ) : List ι × Links κ ι :=
  let r := collect (Fintype.card ι + 1) L.next (L.head q)
  (r.1, ⟨update L.head q none, r.2⟩)

end Operations

section Chain
variable {next next' : ι → Option ι} {h : Option ι}

/-- The list that a link spells out. -/
inductive Chain (next : ι → Option ι) : Option ι → List ι → Prop
  | nil : Chain next none []
  | cons {t : ι} {l : List ι} : Chain next (next t) l → Chain next (some t) (t :: l)

theorem Chain.unique : ∀ {l l' : List ι} {h : Option ι}, Chain next h l → Chain next h l' → l = l'
  | _, _, _, .nil, .nil => rfl
  | _, _, _, .cons hl, .cons hl' => by rw [hl.unique hl']

theorem Chain.congr (hc : Chain next h l) (heq : ∀ t ∈ l, next' t = next t) : Chain next' h l := by
  induction hc with
  | nil => exact .nil
  | @cons t l _ ih =>
    refine .cons ?_
    rw [heq t (by simp)]
    exact ih fun u hu => heq u (by simp [hu])

/-- The part of the list after an element is what the element's link spells out. -/
theorem Chain.after (hc : Chain next h l) (ht : t ∈ l) :
    ∃ l1 l2, l = l1 ++ t :: l2 ∧ Chain next (next t) l2 := by
  induction hc with
  | nil => cases ht
  | @cons u l hl ih =>
    rcases mem_cons.mp ht with rfl | ht
    · exact ⟨[], l, rfl, hl⟩
    · obtain ⟨l1, l2, rfl, h2⟩ := ih ht
      exact ⟨u :: l1, l2, rfl, h2⟩

/-- A list that a link spells out does not come back to an element: it would never end. -/
theorem Chain.nodup (hc : Chain next h l) : l.Nodup := by
  induction hc with
  | nil => exact nodup_nil
  | @cons t l hl ih =>
    refine nodup_cons.mpr ⟨fun ht => ?_, ih⟩
    obtain ⟨l1, l2, hsplit, h2⟩ := hl.after ht
    have hlen := congrArg length (h2.unique hl)
    rw [hsplit, length_append, length_cons] at hlen
    omega

/-- A walk along the links meets `t`. -/
inductive Meets (next : ι → Option ι) (t : ι) : Option ι → Prop
  | here : Meets next t (some t)
  | there {u : ι} : Meets next t (next u) → Meets next t (some u)

theorem Chain.meets_iff (hc : Chain next h l) : Meets next t h ↔ t ∈ l := by
  induction hc with
  | nil => exact ⟨nofun, nofun⟩
  | @cons u l _ ih =>
    rw [mem_cons]
    refine ⟨fun h => ?_, fun h => ?_⟩
    · cases h with
      | here => exact .inl rfl
      | there h => exact .inr (ih.mp h)
    · rcases h with rfl | h
      · exact .here
      · exact .there (ih.mpr h)

theorem Chain.eq_nil (hc : Chain next none l) : l = [] := by
  cases hc
  rfl

theorem Chain.length_le_card [Fintype ι] (hc : Chain next h l) : l.length ≤ Fintype.card ι :=
    hc.nodup.length_le_card

theorem Chain.walk : ∀ {n : ℕ} {l : List ι} {h : Option ι}, Chain next h l → l.length ≤ n →
    Lib.walk n next h = some l
  | 0, _, _, .nil, _ => rfl
  | _ + 1, _, _, .nil, _ => rfl
  | n + 1, _, _, .cons hl, hn => by
    rw [Lib.walk, Chain.walk hl (by simpa using hn), Option.map_some]

variable [DecidableEq ι]

theorem Chain.update (hc : Chain next h l) (ht : t ∉ l) (v : Option ι) :
  Chain (update next t v) h l := hc.congr fun _ hu => update_of_ne (ne_of_mem_of_not_mem hu ht) _ _

theorem Chain.bypass : ∀ {n : ℕ} {l : List ι} {u : ι}, Chain next (next u) l → u ≠ t →
    u ∉ l → l.length < n → ∃ next', Lib.bypass t n next u = some next' ∧
      Chain next' (next' u) (l.erase t) ∧ ∀ v, v ∉ u :: l → next' v = next v
  | 0, _, _, _, _, _, hn => by omega
  | n + 1, l, u, hc, hut, hul, hn => by
    unfold Lib.bypass
    rcases hv : next u with _ | v
    · rw [hv] at hc
      obtain rfl := hc.eq_nil
      exact ⟨next, rfl, by rw [hv]; exact .nil, fun v _ => rfl⟩
    · rw [hv] at hc
      cases hc with
      | @cons _ l hl =>
        have hvl : v ∉ l := (nodup_cons.mp (Chain.cons hl).nodup).1
        by_cases hvt : v = t
        · subst hvt
          refine ⟨_, if_pos rfl, ?_, fun w hw => ?_⟩
          · rw [update_self, erase_cons_head]
            exact hl.update (fun h => hul (mem_cons_of_mem v h)) _
          · exact update_of_ne (ne_of_mem_of_not_mem mem_cons_self hw).symm _ _
        · obtain ⟨next', hn', hc', hrest⟩ :=
            Chain.bypass hl hvt hvl (by simpa using Nat.lt_of_succ_lt_succ hn)
          refine ⟨next', ?_, ?_, fun w hw => hrest w fun h => hw (mem_cons_of_mem u h)⟩
          · simp only [hvt, if_false, hn']
          · rw [hrest u hul, hv, erase_cons_tail (by simpa using hvt)]
            exact .cons hc'

/-- A walk that clears the links it follows meets the elements of the list. -/
theorem Chain.collect :
    ∀ {n : ℕ} {l : List ι} {next : ι → Option ι} {h : Option ι}, Chain next h l → l.length ≤ n →
      Lib.collect n next h = (l, fun t => if t ∈ l then none else next t)
  | 0, _, _, _, .nil, _ => by simp [Lib.collect]
  | _ + 1, _, _, _, .nil, _ => by simp [Lib.collect]
  | n + 1, _, next, _, .cons (t := t) (l := l) hl, hn => by
    have htl : t ∉ l := (nodup_cons.mp (Chain.cons hl).nodup).1
    rw [Lib.collect, Chain.collect (hl.update htl none) (by simpa using hn)]
    simp only [Prod.mk.injEq, true_and]
    funext u
    by_cases hut : u = t
    · subst hut
      simp
    · simp [hut]

end Chain

section Linked
variable {L : Links κ ι} {Q : κ → List ι} {q : κ}

/-- The links spell out the lists `Q`, and no element is in two of them. -/
structure Linked (L : Links κ ι) (Q : κ → List ι) : Prop where
  chain : ∀ q, Chain L.next (L.head q) (Q q)
  apart : ∀ q q' t, t ∈ Q q → t ∈ Q q' → q = q'

section
variable (hL : Linked L Q)
include hL

theorem Linked.unique {Q' : κ → List ι} (hL' : Linked L Q') : Q = Q' :=
  funext fun q => (hL.chain q).unique (hL'.chain q)

theorem Linked.head_of_nil (hq : Q q = []) : L.head q = none := by
  have hc := hL.chain q
  rw [hq] at hc
  rcases hh : L.head q with _ | t
  · rfl
  · rw [hh] at hc
    cases hc

theorem Linked.of_head_none (hq : L.head q = none) : Q q = [] := by
  have hc := hL.chain q
  rw [hq] at hc
  exact hc.eq_nil

theorem Linked.of_head_some (hq : L.head q = some t) :
    ∃ l, Q q = t :: l ∧ Chain L.next (L.next t) l ∧ t ∉ l := by
  have hc := hL.chain q
  rw [hq] at hc
  generalize hl : Q q = l at hc
  cases hc with
  | @cons _ l hl' => exact ⟨l, rfl, hl', (nodup_cons.mp (Chain.cons hl').nodup).1⟩

theorem Linked.members [Fintype ι] (q : κ) : L.members q = some (Q q) :=
    (hL.chain q).walk (hL.chain q).length_le_card

end

variable [DecidableEq κ]

theorem mem_of_mem_update (hl : ∀ u ∈ l, u ∈ Q q) {p : κ} (ht : t ∈ update Q q l p) : t ∈ Q p := by
  by_cases hp : p = q
  · subst hp
    rw [update_self] at ht
    exact hl t ht
  · rwa [update_of_ne hp] at ht

/-- One list becomes `l`, of its own elements and of such that were in no list. -/
theorem Linked.update {L' : Links κ ι} (hL : Linked L Q) (hc : Chain L'.next (L'.head q) l)
    (hother : ∀ p, p ≠ q → Chain L'.next (L'.head p) (Q p))
    (hl : ∀ t ∈ l, t ∈ Q q ∨ ∀ q', t ∉ Q q') : Linked L' (update Q q l) := by
  refine ⟨fun p => ?_, fun q1 q2 t h1 h2 => ?_⟩
  · by_cases hp : p = q
    · subst hp
      rw [update_self]
      exact hc
    · rw [update_of_ne hp]
      exact hother p hp
  by_cases hq1 : q1 = q
  · by_cases hq2 : q2 = q
    · rw [hq1, hq2]
    · subst hq1
      rw [update_self] at h1
      rw [update_of_ne hq2] at h2
      rcases hl t h1 with h | h
      · exact hL.apart q1 q2 t h h2
      · exact absurd h2 (h q2)
  · rw [update_of_ne hq1] at h1
    by_cases hq2 : q2 = q
    · subst hq2
      rw [update_self] at h2
      rcases hl t h2 with h | h
      · exact hL.apart q1 q2 t h1 h
      · exact absurd h1 (h q1)
    · rw [update_of_ne hq2] at h2
      exact hL.apart q1 q2 t h1 h2

/-- The list `q` gives its elements to `q'`, which then has the list `l`. -/
theorem Linked.move {L' : Links κ ι} {q' : κ} (hL : Linked L Q) (hq : L'.head q = none)
    (hc : Chain L'.next (L'.head q') l) (hl : ∀ t ∈ l, t ∈ Q q' ∨ t ∈ Q q)
    (hother : ∀ p, p ≠ q → p ≠ q' → Chain L'.next (L'.head p) (Q p)) :
    Linked L' (Function.update (Function.update Q q' l) q []) := by
  refine ⟨fun p => ?_, fun p1 p2 t h1 h2 => ?_⟩
  · by_cases hp : p = q
    · subst hp
      rw [update_self, hq]
      exact .nil
    · rw [update_of_ne hp]
      by_cases hp' : p = q'
      · subst hp'
        rw [update_self]
        exact hc
      · rw [update_of_ne hp']
        exact hother p hp hp'
  · have hold : ∀ p, t ∈ Function.update (Function.update Q q' l) q [] p → p ≠ q ∧
      (t ∈ Q p ∨ p = q' ∧ t ∈ Q q) := by
      intro p hp
      by_cases hpq : p = q
      · subst hpq
        simp at hp
      · rw [update_of_ne hpq] at hp
        by_cases hpq' : p = q'
        · subst hpq'
          rw [update_self] at hp
          exact ⟨hpq, (hl t hp).imp_right fun h => ⟨rfl, h⟩⟩
        · rw [update_of_ne hpq'] at hp
          exact ⟨hpq, .inl hp⟩
    obtain ⟨hne1, ht1⟩ := hold p1 h1
    obtain ⟨hne2, ht2⟩ := hold p2 h2
    rcases ht1 with ht1 | ⟨rfl, ht1⟩
    · rcases ht2 with ht2 | ⟨-, ht2⟩
      · exact hL.apart p1 p2 t ht1 ht2
      · exact absurd (hL.apart p1 q t ht1 ht2) hne1
    · rcases ht2 with ht2 | ⟨rfl, -⟩
      · exact absurd (hL.apart p2 q t ht2 ht1) hne2
      · rfl

theorem Linked.shift (hL : Linked L Q) {q' : κ} (hne : q' ≠ q) :
    Linked (L.shift q q') (Function.update (Function.update Q q' (Q q)) q []) := by
  refine hL.move (update_self ..) ?_ (fun _ => .inr) fun p hp hp' => ?_
  · simp only [Links.shift, update_of_ne hne, update_self]
    exact hL.chain q
  · simp only [Links.shift, update_of_ne hp, update_of_ne hp']
    exact hL.chain p

variable [DecidableEq ι]

theorem Chain.pushAll : ∀ {l : List ι} {L : Links κ ι} {q : κ} {R : List ι},
    Chain L.next (L.head q) R → l.Nodup → (∀ t ∈ l, t ∉ R) →
      Chain (L.pushAll q l).next ((L.pushAll q l).head q) (l.reverse ++ R) ∧
        (∀ t, t ∉ l → (L.pushAll q l).next t = L.next t) ∧
        ∀ p, p ≠ q → (L.pushAll q l).head p = L.head p
  | [], _, _, _, hc, _, _ => ⟨hc, fun _ _ => rfl, fun _ _ => rfl⟩
  | t :: l, L, q, R, hc, hnd, hR => by
    obtain ⟨htl, hnd⟩ := nodup_cons.mp hnd
    have htR : t ∉ R := hR t mem_cons_self
    have hpush : Chain (L.push q t).next ((L.push q t).head q) (t :: R) := by
      simp only [Links.push, update_self]
      refine .cons ?_
      rw [update_self]
      exact hc.update htR _
    obtain ⟨hchain, hnext, hhead⟩ := Chain.pushAll hpush hnd fun u hu => by
      rw [mem_cons, not_or]
      exact ⟨fun heq => htl (heq ▸ hu), hR u (mem_cons_of_mem t hu)⟩
    refine ⟨?_, fun u hu => ?_, fun p hp => ?_⟩
    · rw [reverse_cons, append_assoc]
      exact hchain
    · rw [mem_cons, not_or] at hu
      exact (hnext u hu.2).trans (update_of_ne hu.1 ..)
    · exact (hhead p hp).trans (update_of_ne hp ..)

theorem Linked.push (hL : Linked L Q) (ht : ∀ q, t ∉ Q q) :
    Linked (L.push q t) (Function.update Q q (t :: Q q)) := by
  refine hL.update ?_ (fun p hp => ?_) fun u hu => ?_
  · simp only [Links.push, update_self]
    refine .cons ?_
    rw [update_self]
    exact (hL.chain q).update (ht q) _
  · simp only [Links.push, update_of_ne hp]
    exact (hL.chain p).update (ht p) _
  · rcases mem_cons.mp hu with rfl | hu
    · exact .inr ht
    · exact .inl hu

omit [DecidableEq κ] in
theorem Linked.clear (hL : Linked L Q) (ht : ∀ q, t ∉ Q q) : Linked (L.clear t) Q :=
  ⟨fun q => (hL.chain q).update (ht q) _, hL.apart⟩

variable (hL : Linked L Q)
include hL

theorem Linked.adopt {q' : κ} (hne : q' ≠ q) : Linked (L.adopt q q' (Q q))
      (Function.update (Function.update Q q' ((Q q).reverse ++ Q q')) q []) := by
  obtain ⟨hchain, hnext, hhead⟩ := (hL.chain q').pushAll (hL.chain q).nodup fun t ht ht' =>
    hne (hL.apart q' q t ht' ht)
  refine hL.move (update_self ..) ?_ (fun t ht => ?_) fun p hp hp' => ?_
  · simp only [Links.adopt, update_of_ne hne]
    exact hchain
  · rw [mem_append, mem_reverse] at ht
    exact ht.symm
  · simp only [Links.adopt, update_of_ne hp, hhead p hp']
    exact (hL.chain p).congr fun t ht => hnext t fun htq => hp (hL.apart p q t ht htq)

theorem Linked.mem_erase_iff (ht : t ∈ Q q) :
    (∀ p u, u ≠ t → (u ∈ Function.update Q q ((Q q).erase t) p ↔ u ∈ Q p)) ∧
      ∀ p, t ∉ Function.update Q q ((Q q).erase t) p := by
  refine ⟨fun p u hu => ?_, fun p hp => ?_⟩
  · by_cases h : p = q
    · subst h
      rw [update_self]
      exact mem_erase_of_ne hu
    · rw [update_of_ne h]
  · have h := hL.apart p q t (mem_of_mem_update (fun _ => mem_of_mem_erase) hp) ht
    subst h
    rw [update_self] at hp
    exact (hL.chain p).nodup.not_mem_erase hp

theorem Linked.unlink [Fintype ι] (q : κ) (t : ι) :
    ∃ L', L.unlink q t = some L' ∧ Linked L' (Function.update Q q ((Q q).erase t)) := by
  unfold Links.unlink
  rcases hh : L.head q with _ | u
  · have hnil := hL.of_head_none hh
    refine ⟨L, rfl, ?_⟩
    rw [hnil, erase_nil, ← hnil, update_eq_self]
    exact hL
  obtain ⟨l, hl, hc, hul⟩ := hL.of_head_some hh
  have hsub : ∀ v ∈ (Q q).erase t, v ∈ Q q ∨ ∀ q', v ∉ Q q' :=
    fun v hv => .inl (mem_of_mem_erase hv)
  by_cases hut : u = t
  · subst hut
    refine ⟨_, if_pos rfl, hL.update ?_ (fun p hp => ?_) hsub⟩
    · simp only [update_self, hl, erase_cons_head]
      exact hc
    · simp only [update_of_ne hp]
      exact hL.chain p
  · have hlen : l.length < Fintype.card ι := by
      have := (hL.chain q).length_le_card
      rw [hl, length_cons] at this
      omega
    obtain ⟨next', hn', hc', hrest⟩ := hc.bypass hut hul hlen
    refine ⟨{ L with next := next' }, by simp only [if_neg hut, hn', Option.map_some],
      hL.update ?_ (fun p hp => ?_) hsub⟩
    · rw [hh, hl, erase_cons_tail (by simpa using hut)]
      exact .cons hc'
    · refine (hL.chain p).congr fun v hv => hrest v fun hvq => hp ?_
      exact hL.apart p q v hv (hl ▸ hvq)

theorem Linked.takeAll [Fintype ι] (q : κ) :
    (L.takeAll q).1 = Q q ∧ Linked (L.takeAll q).2 (Function.update Q q []) := by
  have hcol := (hL.chain q).collect
    ((hL.chain q).length_le_card.trans (Nat.le_succ _))
  unfold Links.takeAll
  rw [hcol]
  refine ⟨rfl, hL.update ?_ (fun p hp => ?_) nofun⟩
  · simp only [update_self]
    exact .nil
  · simp only [update_of_ne hp]
    refine (hL.chain p).congr fun v hv => if_neg fun hvq => hp ?_
    exact hL.apart p q v hv hvq

end Linked

end Lib
