import Xnix.Proofs.Counted

/-!
# Rights only shrink

The trail of a run is a derivation: every entry was made for a new object with all rights, or comes
from an earlier entry for the same object, whose rights include its own and which had
`HANDLE_RIGHT_TRANSFER` if it belonged to another process. A hint that wraps breaks this.
-/

namespace Xnix

open Function List

variable {Pid Oid : Type} {t : HandleTable Oid}

def Origin.made : Origin Pid Oid → Pid × HandleEntry Oid
  | .fresh p _ e => (p, e)
  | .derived _ _ dst _ e => (dst, e)

/-- Trails, newest record first, in which rights only shrink. -/
inductive Derivation : List (Origin Pid Oid) → Prop
  | nil : Derivation []
  | fresh {l : List (Origin Pid Oid)} {p : Pid} {slot : Slot} {e : HandleEntry Oid} :
      Derivation l → e.rights = handleRightAll → Derivation (.fresh p slot e :: l)
  | derived {l : List (Origin Pid Oid)} {src dst : Pid} {slot : Slot} {e e' : HandleEntry Oid} :
      Derivation l → (∃ r ∈ l, r.made = (src, e)) → e'.hold = e.hold →
      e'.rights.Within e.rights → (src ≠ dst → e.rights.has handleRightTransfer) →
      Derivation (.derived src e dst slot e' :: l)

/-- Every entry of every table comes from the trail, and the trail is a derivation. -/
structure Traced (k : Kernel Pid Oid) : Prop where
  derivation : Derivation k.trail
  made : ∀ p (i : ℕ) (e : HandleEntry Oid), (k.table p)[i]? = some (some e) →
    ∃ r ∈ k.trail, r.made = (p, e)

section Edits
variable {k k' : Kernel Pid Oid}

theorem Traced.shrink (ht : Traced k) (htrail : k'.trail = k.trail)
    (htab : ∀ p (i : ℕ) (e : HandleEntry Oid), (k'.table p)[i]? = some (some e) →
      (k.table p)[i]? = some (some e)) : Traced k' := by
  refine ⟨htrail ▸ ht.derivation, fun p i e he => ?_⟩
  rw [htrail]
  exact ht.made p i e (htab p i e he)

variable [DecidableEq Pid]

theorem transferRights_within (src rights : Rights) : (transferRights src rights).Within src := by
  unfold transferRights Rights.Within
  split_ifs
  · exact BitVec.and_self
  · rw [BitVec.and_assoc, BitVec.and_comm rights, ← BitVec.and_assoc, BitVec.and_self]

theorem Traced.shrink_one (ht : Traced k) {p : Pid}
    (htab : k'.table = update k.table p t) (htrail : k'.trail = k.trail)
    (hsub : ∀ (i : ℕ) (e : HandleEntry Oid), t[i]? = some (some e) →
      (k.table p)[i]? = some (some e)) : Traced k' := by
  refine ht.shrink htrail fun q i e he => ?_
  rw [htab] at he
  by_cases hq : q = p
  · subst hq
    rw [update_self] at he
    exact hsub i e he
  · rwa [update_of_ne hq] at he

theorem Traced.grow (ht : Traced k) {p : Pid} {e : HandleEntry Oid} {h : ℕ}
    {r : Origin Pid Oid} (ha : Allocated (k.table p) e t (.at h))
    (htab : k'.table = update k.table p t) (htrail : k'.trail = r :: k.trail)
    (hr : r.made = (p, e)) (hd : Derivation k'.trail) : Traced k' := by
  refine ⟨hd, fun q i v hv => ?_⟩
  rw [htrail]
  have hold : ∀ q, (k.table q)[i]? = some (some v) → ∃ x ∈ r :: k.trail, x.made = (q, v) :=
    fun q hq => by
      obtain ⟨x, hx, hxv⟩ := ht.made q i v hq
      exact ⟨x, mem_cons_of_mem r hx, hxv⟩
  rw [htab] at hv
  by_cases hq : q = p
  · subst hq
    rw [update_self] at hv
    rcases ha.getElem?.mp hv with ⟨-, rfl⟩ | ⟨-, hv⟩
    · exact ⟨r, mem_cons_self, hr⟩
    · exact hold q hv
  · rw [update_of_ne hq] at hv
    exact hold q hv

theorem Traced.transfer (ht : Traced k) {src dst : Pid} {srcH hint : ℕ} {rights : Rights}
    (h : Transferred k src srcH dst hint rights k')
    (hok : (hint ≠ handleInvalid → TableFits (k.table dst)) ∧ HintOk (k.table dst) hint) :
    Traced k' := by
  cases h with
  | refused htab htrail =>
    exact ht.shrink htrail fun p i e he => htab ▸ he
  | @placed e e' t' h he htransfer hhold hrights ha htab htrail =>
    refine ht.grow ha htab htrail rfl (htrail ▸ .derived ht.derivation ?_ hhold ?_ htransfer)
    · exact ht.made src srcH e he
    · rw [hrights]
      exact transferRights_within e.rights rights
  | stray _ _ _ _ _ _ _ _ hn => exact absurd hok hn

theorem Traced.edit (ht : Traced k) {x : Edit Pid Oid} (h : EditStep k x k')
    (hok : ∀ src srcH dst hint rights, x = .transfer src srcH dst hint rights →
      (hint ≠ handleInvalid → TableFits (k.table dst)) ∧ HintOk (k.table dst) hint) :
    Traced k' := by
  cases h with
  | other htab htrail => exact ht.shrink htrail fun p i e he => htab ▸ he
  | @fresh _ p e t' h hrights ha htab htrail =>
    exact ht.grow ha htab htrail rfl (htrail ▸ .fresh ht.derivation hrights)
  | transfer h => exact ht.transfer h (hok _ _ _ _ _ rfl)
  | clear htab htrail => exact ht.shrink_one htab htrail fun i e he => getElem?_of_set_none he
  | drop htab htrail =>
    exact ht.shrink_one htab htrail fun i e he => by simp at he
  | make _ htab htrail =>
    refine ht.shrink_one htab htrail fun i e he => ?_
    cases eq_of_mem_replicate (mem_of_getElem? he)

end Edits

section Runs
variable {w w' : World Pid Oid}

theorem hint_of_allows {c : Call Pid Oid} (hc : ∀ p h x n, c ≠ .duplicate p h x n) {src dst : Pid}
    {srcH hint : ℕ} {rights : Rights} (h : c.Allows w (.transfer src srcH dst hint rights)) :
    hint = handleInvalid := by
  cases c with
  | duplicate p i x n => exact absurd rfl (hc p i x n)
  | grant p pid i n r => exact h.2.2.2
  | ipcPass s d hs => exact h.2.2.2.1
  | exec p child hs fl ld => exact h.2.2.1
  | _ => exact h.elim

theorem Traced.boot (h : Boot w) : Traced w.kernel := by
  refine ⟨h.trail ▸ .nil, fun p i e he => ?_⟩
  rcases hp : w.kernel.proc p with _ | pr
  · rw [table_of_proc_none w.kernel hp] at he
    simp at he
  · rw [table_of_proc w.kernel hp, h.handles p pr hp] at he
    cases eq_of_mem_replicate (mem_of_getElem? he)

variable [Fintype Pid] [Fintype Oid] [DecidableEq Pid] [DecidableEq Oid]

theorem Traced.step {strays : List (Hold Oid)} (hb : WorldBalanced w strays)
    (ht : Traced w.kernel) {c : Call Pid Oid} (hc : HintSafe w c) (h : step w c = some w') :
    Traced w'.kernel := by
  by_cases hdup : ∃ p i x n, c = .duplicate p i x n
  · obtain ⟨p, i, x, n, rfl⟩ := hdup
    obtain ⟨a, hk, -⟩ := after_eq_some h
    obtain ⟨k1, hu, hk1 | ⟨htr, e, he, hd⟩⟩ := sysHandleDuplicate_cases hk
    · exact ht.shrink (hk1 ▸ hu.2) fun p i e he => by rwa [hk1, table_congr hu.1] at he
    · have ht1 : Traced k1 := ht.shrink hu.2 fun p i e he => by rwa [table_congr hu.1] at he
      refine ht1.transfer htr ⟨fun _ => ?_, ?_⟩
      · rw [table_congr hu.1]
        rcases hp : w.kernel.proc p with _ | pr
        · rw [table_of_proc_none w.kernel hp] at he
          simp at he
        · rw [table_of_proc w.kernel hp]
          exact hb.balanced.tableFits p pr hp
      · rw [table_congr hu.1]
        exact hc e he hd
  · push Not at hdup
    refine (step_edits h).invariant (fun k x k' hx hk hs => hk.edit hs ?_) ht
    rintro src srcH dst hint rights rfl
    have hinv := hint_of_allows hdup hx
    exact ⟨fun hne => absurd hinv hne, .inl hinv⟩

/-- In every run whose hints do not wrap, every entry goes back to an allocation with all rights
through entries whose rights only shrink, and crosses processes only with
`HANDLE_RIGHT_TRANSFER`. -/
theorem rights_only_shrink (h : Lib.Reach step Boot HintSafe w) :
    Derivation w.kernel.trail ∧ ∀ p (i : ℕ) (e : HandleEntry Oid),
      (w.kernel.table p)[i]? = some (some e) → ∃ r ∈ w.kernel.trail, r.made = (p, e) := by
  have hboth : Traced w.kernel ∧ ∃ strays, WorldBalanced w strays := by
    refine Lib.Reach.invariant
      (P := fun w => Traced w.kernel ∧ ∃ strays, WorldBalanced w strays)
      (fun w hw => ⟨.boot hw, [], .boot hw⟩) (fun w c w' hw hc hs => ?_) h
    obtain ⟨ht, strays, hb⟩ := hw
    exact ⟨ht.step hb hc hs, hb.step_some hs⟩
  exact ⟨hboth.1.derivation, hboth.1.made⟩

end Runs

/-- An event handed to a second process for reading. -/
def grantRun : List (Call (Fin 2) (Fin 1)) :=
  [.eventCreate 0 0, .grant 0 1 0 .null handleRightRead]

theorem rights_only_shrink_grantRun : ∃ w : World (Fin 2) (Fin 1),
    Lib.run step (bootWorld (Fin 2) (Fin 1)) grantRun = some w ∧
      (w.kernel.table 1)[0]? = some (some ⟨.event, 0, handleRightRead, []⟩) ∧
      Derivation w.kernel.trail ∧ ∀ p (i : ℕ) (e : HandleEntry (Fin 1)),
        (w.kernel.table p)[i]? = some (some e) → ∃ r ∈ w.kernel.trail, r.made = (p, e) := by
  have hent : ((Lib.run step (bootWorld (Fin 2) (Fin 1)) grantRun).map fun w =>
      (w.kernel.table 1)[0]?) = some (some (some ⟨.event, 0, handleRightRead, []⟩)) := by
    decide +kernel
  obtain ⟨w, hw, hent⟩ := Option.map_eq_some_iff.mp hent
  refine ⟨w, hw, hent, rights_only_shrink (.of_run grantRun (.init (boot_bootWorld _ _)) ?_ hw)⟩
  intro t a ha
  simp only [grantRun, mem_cons, not_mem_nil, or_false] at ha
  rcases ha with rfl | rfl <;> trivial

/-- An event handle that can only be duplicated, duplicated to a hint that wraps. -/
def widenRun : List (Call (Fin 1) (Fin 1)) :=
  [.eventCreate 0 0, .grant 0 0 0 .null handleRightDuplicate, .duplicate 0 1 0xFFFFFFF0 .null]

theorem rights_widened : ∃ w : World (Fin 1) (Fin 1),
    Lib.Reach step Boot (fun _ _ => True) w ∧ ¬ Derivation w.kernel.trail := by
  obtain ⟨w, hw, hhead⟩ := Lib.Reach.exists_run step (P := fun w => w.kernel.trail.head? =
    some (.derived 0 ⟨.event, 0, handleRightDuplicate, []⟩ 0 (.stray 0xFFFFFFF0)
      ⟨.event, 0, handleRightAll, []⟩)) widenRun (boot_bootWorld (Fin 1) (Fin 1))
      (by decide +kernel)
  refine ⟨w, hw, fun h => ?_⟩
  obtain ⟨l, hl⟩ := head?_eq_some_iff.mp hhead
  rw [hl] at h
  cases h with
  | derived _ _ _ hwithin _ => exact absurd hwithin (by decide)

end Xnix
