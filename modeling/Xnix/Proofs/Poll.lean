import Xnix.Poll

/-!
# Waiting for several objects

In every calm run a thread sleeps in `ipc_wait_any` only while none of its objects is ready, returns
only handles of objects that were ready during the call, and leaves no poll entry and no reference
behind (`PollOk`). An object that gets ready between arming and the second check leaves
`pending_wakeup` set (`wakeup_left_pending`).
-/

namespace Xnix

open Function List Option PollCall PollPc

variable {κ Tid : Type} {pc : PollPc κ} {r : Option (PollItem κ)} {o : κ} {s s' : PollSys κ Tid}
  {t : Tid}

/-- A sleeper has nothing ready, and a returned call leaves nothing behind. -/
structure PollSound (s : PollSys κ Tid) : Prop where
  awake : ∀ t it, (s.call t).pc = .asleep → (s.sched t).run = .blocked → it ∈ (s.call t).items →
    (s.obj it.object).ready = false
  truthful : ∀ e ∈ s.log, e.result.isSome = true → e.wasReady = true
  unlinked : ∀ t, (s.call t).pc = .user → ∀ o i, (t, i) ∉ s.pollQueue o
  released : ∀ t, (s.call t).pc = .user → ∀ o, s.refs t o = 0
  clear : ∀ e ∈ s.log, e.pending = false

def PollAction.wakes (s : PollSys κ Tid) (t : Tid) : PollAction κ Tid → Prop
  | .poke u => u = t
  | .send o => ∃ i, (t, i) ∈ s.pollQueue o
  | .signal o _ _ => ∃ i, (t, i) ∈ s.pollQueue o
  | _ => False

/-- A call begins with `pending_wakeup` clear, and a thread in it is woken only after its last check
and before `sched_block_timeout` has returned. -/
structure PollCalm (s : PollSys κ Tid) (a : PollAction κ Tid) : Prop where
  entry : ∀ t set timeout, a = .waitAny t set timeout → (s.sched t).pendingWakeup = false
  wakes : ∀ t, a.wakes s t →
    (s.call t).pc = .user ∨ (s.call t).pc = .blocking ∨ (s.call t).pc = .asleep

section Places
variable {κ : Type}

def PollPc.armed (i : ℕ) : PollPc κ → Prop
  | .arm k => i < k
  | .recheck _ | .blocking | .asleep | .pick _ => True
  | .unlink k _ => k ≤ i
  | _ => False

def PollPc.checked (i : ℕ) : PollPc κ → Prop
  | .recheck k => i < k
  | .blocking | .asleep => True
  | _ => False

def PollPc.result : PollPc κ → Option (PollItem κ)
  | .unlink _ r | .put _ r => r
  | _ => none

/-- At this place `pending_wakeup` may be set: outside the call, or before `sched_block_timeout` has
returned. -/
def PollPc.mayPend : PollPc κ → Prop
  | .user | .blocking | .asleep => True
  | _ => False

def PollCall.held (c : PollCall κ) : List κ :=
  match c.pc with
  | .user => []
  | .check _ o _ _ => o :: c.items.map PollItem.object
  | .put objs _ => objs
  | _ => c.items.map PollItem.object

end Places

section Invariant
variable [DecidableEq κ]

/-- The poll entries are linked where they should be, the references are those held, what triggered
an entry was ready during the call, and an object that got ready after its second check has woken
the thread. -/
structure PollOk (s : PollSys κ Tid) (t : Tid) : Prop where
  linked : ∀ i o, (t, i) ∈ s.pollQueue o ↔
    (s.call t).pc.armed i ∧ (s.call t).items[i]?.map PollItem.object = some o
  refs : ∀ o, s.refs t o = ((s.call t).held.count o : ℤ)
  seenReady : (s.call t).pc ≠ .user → ∀ o, (s.obj o).ready = true → s.seen t o = true
  triggered : (s.call t).pc ≠ .user → ∀ i it, (s.call t).items[i]? = some it →
    (s.call t).triggered i = true → s.seen t it.object = true
  result : ∀ it, (s.call t).pc.result = some it → s.seen t it.object = true
  woken : ∀ i it, (s.call t).pc.checked i → (s.call t).items[i]? = some it →
    (s.obj it.object).ready = true →
      ((s.call t).pc ≠ .asleep → (s.sched t).pendingWakeup = true) ∧
        ((s.call t).pc = .asleep → (s.sched t).run ≠ .blocked)
  quiet : ¬ (s.call t).pc.mayPend → (s.sched t).pendingWakeup = false

structure PollInv (s : PollSys κ Tid) : Prop where
  ok : ∀ t, PollOk s t
  nodup : ∀ o, (s.pollQueue o).Nodup
  truthful : ∀ e ∈ s.log, e.result.isSome = true → e.wasReady = true
  clear : ∀ e ∈ s.log, e.pending = false

theorem PollOk.frame (h : PollOk s t) (hobj : s'.obj = s.obj) (hcall : s'.call t = s.call t)
    (hsched : s'.sched t = s.sched t) (hrefs : s'.refs t = s.refs t) (hseen : s'.seen t = s.seen t)
    (hqueue : ∀ i o, (t, i) ∈ s'.pollQueue o ↔ (t, i) ∈ s.pollQueue o) : PollOk s' t := by
  constructor
  · intro i o
    rw [hqueue, hcall]
    exact h.linked i o
  · rw [hrefs, hcall]
    exact h.refs
  · rw [hcall, hobj, hseen]
    exact h.seenReady
  · rw [hcall, hseen]
    exact h.triggered
  · rw [hcall, hseen]
    exact h.result
  · rw [hcall, hobj, hsched]
    exact h.woken
  · rw [hcall, hsched]
    exact h.quiet

theorem PollOk.own (h : PollOk s t) (hactive : (s.call t).pc ≠ .user) (hobj : s'.obj = s.obj)
    (hseen : s'.seen t = s.seen t) (hitems : (s'.call t).items = (s.call t).items)
    (htrig : (s'.call t).triggered = (s.call t).triggered)
    (hlinked : ∀ i o, (t, i) ∈ s'.pollQueue o ↔
      (s'.call t).pc.armed i ∧ (s.call t).items[i]?.map PollItem.object = some o)
    (hrefs : ∀ o, s'.refs t o = ((s'.call t).held.count o : ℤ))
    (hresult : ∀ it, (s'.call t).pc.result = some it → s.seen t it.object = true)
    (hwoken : ∀ i it, (s'.call t).pc.checked i → (s.call t).items[i]? = some it →
      (s.obj it.object).ready = true →
        ((s'.call t).pc ≠ .asleep → (s'.sched t).pendingWakeup = true) ∧
          ((s'.call t).pc = .asleep → (s'.sched t).run ≠ .blocked))
    (hquiet : ¬ (s'.call t).pc.mayPend → (s'.sched t).pendingWakeup = false) : PollOk s' t := by
  constructor
  · intro i o
    rw [hitems]
    exact hlinked i o
  · exact hrefs
  · intro _
    rw [hobj, hseen]
    exact h.seenReady hactive
  · intro _
    rw [hitems, htrig, hseen]
    exact h.triggered hactive
  · rw [hseen]
    exact hresult
  · rw [hitems, hobj]
    exact hwoken
  · exact hquiet

end Invariant

variable {rest : List ℕ} {mayRecv : Bool}

section Steps
variable {it : PollItem κ}

theorem lt_of_items {i j : ℕ} (hnone : (s.call t).items[i]? = none)
    (hj : (s.call t).items[j]? = some it) : j < i := by
  have hlen := getElem?_eq_none_iff.mp hnone
  have hlt := (List.getElem?_eq_some_iff.mp hj).1
  omega

theorem active_of_busy (hbusy : ¬ (s.call t).pc.mayPend) : (s.call t).pc ≠ .user := by
  intro hpc
  rw [hpc] at hbusy
  exact hbusy trivial

variable [DecidableEq κ]

theorem PollInv.lower {ob : PollObject} (h : PollInv s)
    (hob : ob.ready = true → (s.obj o).ready = true) :
    PollInv { s with obj := update s.obj o ob } := by
  have hready : ∀ o', (update s.obj o ob o').ready = true → (s.obj o').ready = true := by
    intro o' hr
    by_cases ho : o' = o
    · subst ho
      rw [update_self] at hr
      exact hob hr
    · rwa [update_of_ne ho] at hr
  exact ⟨fun t => ⟨(h.ok t).linked, (h.ok t).refs, fun hne o' hr => (h.ok t).seenReady hne o'
    (hready o' hr), (h.ok t).triggered, (h.ok t).result, fun i it hc hi hr =>
    (h.ok t).woken i it hc hi
    (hready _ hr), (h.ok t).quiet⟩, h.nodup, h.truthful, h.clear⟩

variable [DecidableEq Tid] (h : PollInv s)
include h

theorem PollInv.move (hactive : (s.call t).pc ≠ .user) (hobj : s'.obj = s.obj)
    (hqueue : s'.pollQueue = s.pollQueue) (hseen : s'.seen = s.seen) (hlog : s'.log = s.log)
    (hcall : s'.call = update s.call t { s.call t with pc := pc })
    (hsched : ∀ u, u ≠ t → s'.sched u = s.sched u) (hother : ∀ u, u ≠ t → s'.refs u = s.refs u)
    (harmed : ∀ i it, (s.call t).items[i]? = some it → (pc.armed i ↔ (s.call t).pc.armed i))
    (hrefs : ∀ o, s'.refs t o = (({ s.call t with pc := pc } : PollCall κ).held.count o : ℤ))
    (hresult : ∀ it, pc.result = some it → s.seen t it.object = true)
    (hwoken : ∀ i it, pc.checked i → (s.call t).items[i]? = some it →
      (s.obj it.object).ready = true → (pc ≠ .asleep → (s'.sched t).pendingWakeup = true) ∧
        (pc = .asleep → (s'.sched t).run ≠ .blocked))
    (hquiet : ¬ pc.mayPend → (s'.sched t).pendingWakeup = false) : PollInv s' := by
  have hself : s'.call t = { s.call t with pc := pc } := by rw [hcall, update_self]
  refine ⟨fun u =>
    ?_, by rw [hqueue]; exact h.nodup, by rw [hlog]; exact h.truthful, by rw [hlog]; exact h.clear⟩
  by_cases hut : u = t
  · subst hut
    refine (h.ok u).own hactive hobj (by rw [hseen]) (by rw [hself]) (by rw [hself]) (fun i o => ?_)
      (by rw [hself]; exact hrefs) (by rw [hself]; exact hresult) (by rw [hself]; exact hwoken)
      (by rw [hself]; exact hquiet)
    rw [hqueue, hself, (h.ok u).linked]
    refine and_congr_left fun hit => ?_
    obtain ⟨it, hit, -⟩ := map_eq_some_iff.mp hit
    exact (harmed i it hit).symm
  · exact (h.ok u).frame hobj (by rw [hcall, update_of_ne hut]) (hsched u hut)
      (hother u hut) (by rw [hseen]) (by rw [hqueue]; exact fun _ _ => Iff.rfl)

section
variable (hbusy : ¬ (s.call t).pc.mayPend)
include hbusy

theorem PollInv.setPc
    (harmed : ∀ i it, (s.call t).items[i]? = some it → (pc.armed i ↔ (s.call t).pc.armed i))
    (hheld : ∀ o, ({ s.call t with pc := pc } : PollCall κ).held.count o = (s.call t).held.count o)
    (hresult : ∀ it, pc.result = some it → s.seen t it.object = true)
    (hwoken : ∀ i it, pc.checked i → (s.call t).items[i]? = some it →
      (s.obj it.object).ready = true → pc ≠ .asleep ∧ (s.sched t).pendingWakeup = true) :
    PollInv (s.setPc t pc) := by
  refine h.move (active_of_busy hbusy) rfl rfl rfl rfl rfl (fun _ _ => rfl) (fun _ _ => rfl) harmed
    (fun o => ?_) hresult (fun i it hc hi hr => ?_) fun _ => (h.ok t).quiet hbusy
  · rw [hheld]
    exact (h.ok t).refs o
  · exact ⟨fun _ => (hwoken i it hc hi hr).2, fun has => absurd has (hwoken i it hc hi hr).1⟩

theorem PollInv.addRef {d : ℤ} (hold : ∀ i, ¬ (s.call t).pc.armed i)
    (hnew : ∀ i, ¬ pc.armed i) (hcheck : ∀ i, ¬ pc.checked i)
    (hheld : ∀ o', (({ s.call t with pc := pc } : PollCall κ).held.count o' : ℤ) =
      (s.call t).held.count o' + if o' = o then d else 0)
    (hresult : ∀ it, pc.result = some it → s.seen t it.object = true) :
    PollInv ((s.addRef t o d).setPc t pc) := by
  refine h.move (active_of_busy hbusy) rfl rfl rfl rfl rfl (fun _ _ => rfl) (fun u hu =>
    update_of_ne hu ..) (fun i _ _ => iff_of_false (hnew i) (hold i)) (fun o' => ?_) hresult
    (fun i _ hc => absurd hc (hcheck i)) fun _ => (h.ok t).quiet hbusy
  rw [hheld, ← (h.ok t).refs o']
  by_cases ho : o' = o
  · simp [PollSys.addRef, PollSys.setPc, ho]
  · simp [PollSys.addRef, PollSys.setPc, ho]

end

theorem PollInv.ret (harmed : ∀ i, ¬ (s.call t).pc.armed i)
    (hheld : (s.call t).held = []) (hp : (s.sched t).pendingWakeup = false)
    (hr : ∀ it, r = some it → s.seen t it.object = true) : PollInv (s.ret t r) := by
  have hself : (s.ret t r).call t = { s.call t with pc := .user } := update_self ..
  refine ⟨fun u => ?_, h.nodup, fun e he hsome => ?_, fun e he => ?_⟩
  · by_cases hut : u = t
    · subst hut
      constructor
      · intro i o
        rw [hself]
        refine iff_of_false (fun hin => ?_) fun hin => hin.1
        exact harmed i (((h.ok u).linked i o).mp hin).1
      · intro o
        have hrefs := (h.ok u).refs o
        rw [hheld] at hrefs
        rw [hself]
        exact hrefs
      · exact fun hne => absurd (by rw [hself]) hne
      · exact fun hne => absurd (by rw [hself]) hne
      · rw [hself]
        exact fun _ hn => by cases hn
      · rw [hself]
        exact fun _ _ hc => hc.elim
      · exact fun _ => hp
    · exact (h.ok u).frame rfl (update_of_ne hut ..) rfl rfl rfl fun _ _ => Iff.rfl
  · rcases mem_cons.mp he with rfl | he
    · obtain ⟨it, rfl⟩ := isSome_iff_exists.mp hsome
      exact hr it rfl
    · exact h.truthful e he hsome
  · rcases mem_cons.mp he with rfl | he
    · exact hp
    · exact h.clear e he

theorem PollInv.append {hd : ℕ} (hpc : (s.call t).pc = .check hd o mayRecv rest) :
    PollInv (s.append t hd o rest) := by
  have hbusy : ¬ (s.call t).pc.mayPend := by simp [hpc, mayPend]
  have hself : (s.append t hd o rest).call t =
      { s.call t with
        pc := .scan rest
        items := (s.call t).items ++ [⟨hd, o⟩]
        triggered := update (s.call t).triggered (s.call t).items.length false } :=
    update_self ..
  refine ⟨fun u => ?_, h.nodup, h.truthful, h.clear⟩
  by_cases hut : u = t
  · subst hut
    constructor
    · intro i o'
      rw [hself]
      refine iff_of_false (fun hin => ?_) fun hin => hin.1
      have := (((h.ok u).linked i o').mp hin).1
      rw [hpc] at this
      exact this
    · intro o'
      rw [hself]
      have hrefs := (h.ok u).refs o'
      simp only [held, hpc, count_cons, map_append, map_cons, map_nil,
        count_append, count_nil, Nat.zero_add] at hrefs ⊢
      exact hrefs
    · intro _
      exact (h.ok u).seenReady (active_of_busy hbusy)
    · intro _ i it hi htr
      rw [hself] at hi htr
      simp only at hi htr
      by_cases hlt : i < (s.call u).items.length
      · rw [getElem?_append_left hlt] at hi
        rw [update_of_ne (by omega)] at htr
        exact (h.ok u).triggered (active_of_busy hbusy) i it hi htr
      · have heq : i = (s.call u).items.length := by
          have := (List.getElem?_eq_some_iff.mp hi).1
          simp only [length_append, length_singleton] at this
          omega
        subst heq
        simp at htr
    · rw [hself]
      exact fun _ hn => by cases hn
    · rw [hself]
      exact fun _ _ hc => hc.elim
    · exact fun _ => (h.ok u).quiet hbusy
  · exact (h.ok u).frame rfl (update_of_ne hut ..) rfl rfl rfl fun _ _ => Iff.rfl

theorem PollInv.check {hd : ℕ} (hpc : (s.call t).pc = .check hd o mayRecv rest) :
    PollInv (s.check t hd o mayRecv rest) := by
  have hbusy : ¬ (s.call t).pc.mayPend := by simp [hpc, mayPend]
  have hskip : PollInv (s.skip t o rest) := by
    refine h.addRef hbusy (by simp [hpc, armed]) (fun _ => id) (fun _ => id) (fun o' => ?_)
      fun _ hn => by cases hn
    simp only [held, hpc, count_cons, beq_iff_eq, eq_comm (a := o)]
    split <;> omega
  have hfound : (s.obj o).ready = true → PollInv (s.found t hd o) := by
    intro hready
    refine h.setPc hbusy (by simp [hpc, armed]) (by simp [held, hpc])
      (fun it hit => ?_) fun _ _ hc => hc.elim
    obtain rfl := some.inj hit
    exact (h.ok t).seenReady (active_of_busy hbusy) o hready
  unfold PollSys.check
  split
  · split
    · exact hskip
    · split
      · exact hfound ‹_›
      · exact h.append hpc
  · split
    · exact hfound ‹_›
    · exact h.append hpc
  · exact hskip

theorem PollInv.relink {queue : κ → List (Tid × ℕ)}
    (hbusy : ¬ (s.call t).pc.mayPend) (hnodup : ∀ o, (queue o).Nodup)
    (hother : ∀ u i o, u ≠ t → ((u, i) ∈ queue o ↔ (u, i) ∈ s.pollQueue o))
    (hlinked : ∀ i o, (t, i) ∈ queue o ↔
    pc.armed i ∧ (s.call t).items[i]?.map PollItem.object = some o)
    (hheld : ({ s.call t with pc := pc } : PollCall κ).held = (s.call t).held)
    (hresult : ∀ it, pc.result = some it → (s.call t).pc.result = some it)
    (hcheck : ∀ i, ¬ pc.checked i) : PollInv { s.setPc t pc with pollQueue := queue } := by
  refine ⟨fun u => ?_, hnodup, h.truthful, h.clear⟩
  by_cases hut : u = t
  · subst hut
    have hself : (s.setPc u pc).call u = { s.call u with pc := pc } := update_self ..
    refine (h.ok u).own (active_of_busy hbusy) rfl rfl (by simp only [hself]) (by simp only [hself])
      (by simpa only [hself]) (fun o => ?_) (fun it => ?_) (fun i _ => ?_) fun _ =>
      (h.ok u).quiet hbusy
    · simp only [hself, hheld]
      exact (h.ok u).refs o
    · simp only [hself]
      exact fun hr => (h.ok u).result it (hresult it hr)
    · simp only [hself]
      exact fun hc => absurd hc (hcheck i)
  · exact (h.ok u).frame rfl (update_of_ne hut ..) rfl rfl rfl fun i o => hother u i o hut

theorem PollInv.arm {i : ℕ} (hpc : (s.call t).pc = .arm i) (hit : (s.call t).items[i]? = some it) :
    PollInv { s.setPc t (.arm (i + 1)) with
      pollQueue := update s.pollQueue it.object ((t, i) :: s.pollQueue it.object) } := by
  have hnot : ∀ o, (t, i) ∉ s.pollQueue o := by
    intro o hin
    have := (((h.ok t).linked i o).mp hin).1
    rw [hpc] at this
    exact absurd this (Nat.lt_irrefl i)
  have hmem : ∀ o p, p ∈ update s.pollQueue it.object ((t, i) :: s.pollQueue it.object) o ↔
      p ∈ s.pollQueue o ∨ (p = (t, i) ∧ o = it.object) := by
    intro o p
    by_cases ho : o = it.object
    · subst ho
      simp [or_comm]
    · simp [ho]
  refine h.relink (by simp [hpc, mayPend]) (fun o => ?_) (fun u j o hut => ?_) (fun j o => ?_)
    (by simp [held, hpc])
    nofun fun _ => id
  · by_cases ho : o = it.object
    · subst ho
      simp only [update_self]
      exact nodup_cons.mpr ⟨hnot _, h.nodup _⟩
    · simp only [update_of_ne ho]
      exact h.nodup o
  · simp only [hmem, Prod.mk.injEq, hut, false_and, or_false]
  · simp only [hmem, (h.ok t).linked, hpc, armed, Prod.mk.injEq, true_and]
    constructor
    · rintro (⟨hlt, hj⟩ | ⟨rfl, rfl⟩)
      · exact ⟨by omega, hj⟩
      · exact ⟨by omega, by rw [hit]; rfl⟩
    · rintro ⟨hlt, hj⟩
      by_cases hji : j = i
      · subst hji
        rw [hit] at hj
        exact .inr ⟨rfl, (some.inj hj).symm⟩
      · exact .inl ⟨by omega, hj⟩

theorem PollInv.unlink {i : ℕ} (hpc : (s.call t).pc = .unlink i r)
    (hit : (s.call t).items[i]? = some it) :
    PollInv { s.setPc t (.unlink (i + 1) r) with
      pollQueue := update s.pollQueue it.object ((s.pollQueue it.object).erase (t, i)) } := by
  have hmem : ∀ o p, p ∈ update s.pollQueue it.object
      ((s.pollQueue it.object).erase (t, i)) o ↔
      p ∈ s.pollQueue o ∧ ¬ (p = (t, i) ∧ o = it.object) := by
    intro o p
    by_cases ho : o = it.object
    · subst ho
      simp [(h.nodup _).mem_erase_iff, and_comm]
    · simp [ho]
  refine h.relink (by simp [hpc, mayPend]) (fun o => ?_) (fun u j o hut => ?_) (fun j o => ?_)
    (by simp [held, hpc]) (fun it' hr => by rw [hpc]; exact hr) fun _ => id
  · by_cases ho : o = it.object
    · subst ho
      simp only [update_self]
      exact (h.nodup _).erase _
    · simp only [update_of_ne ho]
      exact h.nodup o
  · simp only [hmem, Prod.mk.injEq, hut, false_and, not_false_eq_true, and_true]
  · simp only [hmem, (h.ok t).linked, hpc, armed, Prod.mk.injEq, true_and]
    constructor
    · rintro ⟨⟨hle, hj⟩, hne⟩
      refine ⟨?_, hj⟩
      by_contra hlt
      obtain rfl : j = i := by omega
      rw [hit] at hj
      exact hne ⟨rfl, (some.inj hj).symm⟩
    · rintro ⟨hle, hj⟩
      exact ⟨⟨by omega, hj⟩, by omega⟩

theorem PollInv.next (t : Tid) : PollInv (s.next t) := by
  unfold PollSys.next
  split
  · exact h
  · rename_i hpc
    split
    · rename_i hitems
      exact h.ret (by simp [hpc, armed]) (by simp [held, hpc, hitems])
        ((h.ok t).quiet (by simp [hpc, mayPend])) nofun
    · exact h.setPc (by simp [hpc, mayPend]) (by simp [hpc, armed]) (by simp [held, hpc])
        (fun _ hn => by cases hn) fun _ _ hc => hc.elim
  · rename_i hd rest hpc
    split
    · exact h.setPc (by simp [hpc, mayPend]) (by simp [hpc, armed]) (by simp [held, hpc])
        (fun _ hn => by cases hn) fun _ _ hc => hc.elim
    · rename_i o mayRecv _
      refine h.addRef (by simp [hpc, mayPend]) (by simp [hpc, armed]) (fun _ => id) (fun _ => id)
        (fun o' => ?_) fun _ hn => by cases hn
      simp only [held, hpc, count_cons, beq_iff_eq, eq_comm (a := o)]
      split <;> omega
  · exact h.check ‹_›
  · rename_i i hpc
    split
    · rename_i hnone
      refine h.setPc (by simp [hpc, mayPend]) (fun j it hj => ?_) (by simp [held, hpc])
        (fun _ hn => by cases hn) fun j _ hc => absurd hc (Nat.not_lt_zero j)
      rw [hpc]
      exact iff_of_true trivial (lt_of_items hnone hj)
    · exact h.arm hpc ‹_›
  · rename_i i hpc
    split
    · rename_i hnone
      refine h.setPc (by simp [hpc, mayPend]) (by simp [hpc, armed]) (by simp [held, hpc])
        (fun _ hn => by cases hn) fun j it _ hj hr => ⟨nofun, ?_⟩
      refine ((h.ok t).woken j it ?_ hj hr).1 (by simp [hpc])
      rw [hpc]
      exact lt_of_items hnone hj
    · rename_i it hit
      split
      · rename_i hready
        refine h.setPc (by simp [hpc, mayPend]) (by simp [hpc, armed]) (by simp [held, hpc])
          (fun it' hit' => ?_) fun _ _ hc => hc.elim
        obtain rfl := some.inj hit'
        exact (h.ok t).seenReady (by simp [hpc]) _ hready
      · rename_i hready
        refine h.setPc (by simp [hpc, mayPend]) (by simp [hpc, armed]) (by simp [held, hpc])
          (fun _ hn => by cases hn) fun j it' hc hj hr => ⟨nofun, ?_⟩
        have hlt : j < i := by
          refine Nat.lt_of_le_of_ne (Nat.lt_succ_iff.mp hc) ?_
          rintro rfl
          obtain rfl := some.inj (hit.symm.trans hj)
          exact hready hr
        exact ((h.ok t).woken j it' (by rw [hpc]; exact hlt) hj hr).1 (by simp [hpc])
  · rename_i hpc
    refine h.move (by simp [hpc]) rfl rfl rfl rfl rfl (fun u hu => update_of_ne hu ..)
      (fun _ _ => rfl) (fun i it _ => ?_) (fun o => ?_) (fun it hit => ?_) (fun i it hc hi hr => ?_)
      fun _ => ?_
    · rw [hpc]
      split <;> exact Iff.rfl
    · refine ((h.ok t).refs o).trans ?_
      by_cases hp : (s.sched t).pendingWakeup = true <;> simp [held, hpc, hp]
    · revert hit
      split <;> nofun
    · have hpend := ((h.ok t).woken i it (by rw [hpc]; trivial) hi hr).1 (by simp [hpc])
      rw [if_pos hpend] at hc
      exact hc.elim
    · simp only [update_self, Waiter.block]
      split <;> rfl
  · rename_i hpc
    split
    · refine h.move (by simp [hpc]) rfl rfl rfl rfl rfl (fun u hu => update_of_ne hu ..)
        (fun _ _ => rfl) (fun i it _ => ?_) (fun o => ?_) (fun it hit => ?_)
        (fun i it hc hi hr => ?_) fun _ => ?_
      · rw [hpc]
        split
        · exact iff_of_true (Nat.zero_le i) trivial
        · exact Iff.rfl
      · refine ((h.ok t).refs o).trans ?_
        by_cases hx : (s.sched t).expired = true <;> simp [held, hpc, hx]
      · revert hit
        split <;> nofun
      · revert hc
        split <;> exact fun hc => hc.elim
      · simp only [update_self]
        rfl
    · exact h
  · rename_i i hpc
    split
    · exact h.setPc (by simp [hpc, mayPend]) (by simp [hpc, armed]) (by simp [held, hpc])
        (fun _ hn => by cases hn) fun _ _ hc => hc.elim
    · rename_i it hit
      split
      · rename_i htrig
        refine h.setPc (by simp [hpc, mayPend]) (by simp [hpc, armed]) (by simp [held, hpc])
          (fun it' hit' => ?_) fun _ _ hc => hc.elim
        obtain rfl := some.inj hit'
        exact (h.ok t).triggered (by simp [hpc]) i _ hit htrig
      · exact h.setPc (by simp [hpc, mayPend]) (by simp [hpc, armed]) (by simp [held, hpc])
          (fun _ hn => by cases hn) fun _ _ hc => hc.elim
  · rename_i i r hpc
    split
    · rename_i hnone
      refine h.setPc (by simp [hpc, mayPend]) (fun j it hj => ?_) (by simp [held, hpc])
        (fun it hit => (h.ok t).result it (by rw [hpc]; exact hit)) fun _ _ hc => hc.elim
      rw [hpc]
      exact iff_of_false id (Nat.not_le.mpr (lt_of_items hnone hj))
    · exact h.unlink hpc ‹_›
  · rename_i r hpc
    exact h.ret (by simp [hpc, armed]) (by simp [held, hpc])
      ((h.ok t).quiet (by simp [hpc, mayPend]))
      fun it hit => (h.ok t).result it (by rw [hpc]; exact hit)
  · rename_i o objs r hpc
    refine h.addRef (by simp [hpc, mayPend]) (by simp [hpc, armed]) (fun _ => id) (fun _ => id)
      (fun o' => ?_) fun it hit => (h.ok t).result it (by rw [hpc]; exact hit)
    simp only [held, hpc, count_cons, beq_iff_eq, eq_comm (a := o)]
    split <;> omega

theorem PollInv.arrive (o : κ) (ob : PollObject)
    (hw : ∀ t i, (t, i) ∈ s.pollQueue o → (s.call t).pc.mayPend) : PollInv (s.arrive o ob) := by
  refine ⟨fun t => ?_, h.nodup, h.truthful, h.clear⟩
  have hseen : ∀ o', s.seen t o' = true ∨ o' = o → (s.arrive o ob).seen t o' = true := by
    intro o' ho'
    by_cases heq : o' = o
    · simp [PollSys.arrive, heq]
    · simpa [PollSys.arrive, heq] using ho'
  have hobj : ∀ o', o' ≠ o → (s.arrive o ob).obj o' = s.obj o' :=
    fun o' ho' => update_of_ne ho' ..
  refine ⟨(h.ok t).linked, (h.ok t).refs, fun hne o' hr => ?_, fun hne i it hi htr => ?_,
    fun it hit => hseen _ (.inl ((h.ok t).result it hit)), fun i it hc hi hr => ?_, fun ht => ?_⟩
  · refine hseen o' ?_
    by_cases ho' : o' = o
    · exact .inr ho'
    · rw [hobj o' ho'] at hr
      exact .inl ((h.ok t).seenReady hne o' hr)
  · refine hseen _ ?_
    simp only [PollSys.arrive, Bool.or_eq_true, decide_eq_true_eq] at htr
    rcases htr with htr | hin
    · exact .inl ((h.ok t).triggered hne i it hi htr)
    · have := (((h.ok t).linked i o).mp hin).2
      rw [show (s.call t).items[i]? = some it from hi] at this
      exact .inr (some.inj this)
  · by_cases ho : it.object = o
    · have hin : (t, i) ∈ s.pollQueue o := by
        refine ((h.ok t).linked i o).mpr ⟨?_, ?_⟩
        · change (s.call t).pc.checked i at hc
          revert hc
          cases (s.call t).pc <;> simp [checked, armed]
        · rw [show (s.call t).items[i]? = some it from hi, map_some, ho]
      have hwoken : (s.arrive o ob).sched t = (s.sched t).wakeup :=
        if_pos (mem_map.mpr ⟨(t, i), hin, rfl⟩)
      rw [hwoken]
      exact ⟨fun _ => rfl, fun _ => wakeup_run_ne_blocked _⟩
    · rw [hobj _ ho] at hr
      have hold := (h.ok t).woken i it hc hi hr
      simp only [PollSys.arrive]
      split
      · exact ⟨fun _ => rfl, fun _ => wakeup_run_ne_blocked _⟩
      · exact hold
  · have hnot : t ∉ (s.pollQueue o).map Prod.fst := by
      intro hin
      obtain ⟨⟨u, i⟩, hmem, rfl⟩ := mem_map.mp hin
      exact ht (hw u i hmem)
    have hsched : (s.arrive o ob).sched t = s.sched t := if_neg hnot
    rw [hsched]
    exact (h.ok t).quiet ht

theorem PollInv.wake {w : Waiter} (hp : (s.sched t).pendingWakeup = true → w.pendingWakeup = true)
    (hr : w.run = .blocked → (s.sched t).run = .blocked) (hpc : (s.call t).pc.mayPend) :
    PollInv { s with sched := update s.sched t w } := by
  refine ⟨fun u => ?_, h.nodup, h.truthful, h.clear⟩
  by_cases hut : u = t
  · subst hut
    refine ⟨(h.ok u).linked, (h.ok u).refs, (h.ok u).seenReady, (h.ok u).triggered, (h.ok u).result,
      fun i it hc hi hready => ?_, fun hne => absurd hpc hne⟩
    have hold := (h.ok u).woken i it hc hi hready
    simp only [update_self]
    exact ⟨fun hne => hp (hold.1 hne), fun hpc hb => hold.2 hpc (hr hb)⟩
  · exact (h.ok u).frame rfl rfl (update_of_ne hut ..) rfl rfl fun _ _ => Iff.rfl

theorem PollInv.start {set : List ℕ} {timeout : ℕ} (hpc : (s.call t).pc = .user)
    (hp : (s.sched t).pendingWakeup = false) : PollInv { s with
      call := update s.call t ⟨.scan set, timeout, [], (s.call t).triggered⟩
      seen := update s.seen t fun o => (s.obj o).ready } := by
  refine ⟨fun u => ?_, h.nodup, h.truthful, h.clear⟩
  by_cases hut : u = t
  · subst hut
    have hnot : ∀ i o, (u, i) ∉ s.pollQueue o := fun i o hin => by
      have := (((h.ok u).linked i o).mp hin).1
      rw [hpc] at this
      exact this
    have hzero : ∀ o, s.refs u o = 0 := fun o => by
      rw [(h.ok u).refs o]
      simp [held, hpc]
    constructor
    · intro i o
      simp only [update_self]
      exact iff_of_false (hnot i o) fun hin => hin.1
    · intro o
      simp only [update_self]
      exact hzero o
    · intro _ o hr
      simpa using hr
    · intro _ i it hi
      simp at hi
    · intro it hit
      simp [result] at hit
    · intro i it hc
      simp only [update_self] at hc
      exact hc.elim
    · exact fun _ => hp
  · exact (h.ok u).frame rfl (update_of_ne hut ..) rfl rfl (update_of_ne hut ..)
      fun _ _ => Iff.rfl

theorem PollInv.step {a : PollAction κ Tid} (hc : PollCalm s a) (hs : s.step a = some s') :
    PollInv s' := by
  have hwakes : ∀ t, a.wakes s t → (s.call t).pc.mayPend := by
    intro t ht
    rcases hc.wakes t ht with hpc | hpc | hpc <;> rw [hpc] <;> trivial
  cases a with
  | waitAny t set timeout =>
    have hp := hc.entry t set timeout rfl
    simp only [PollSys.step] at hs
    split at hs
    · rename_i hpc
      split at hs <;> cases hs
      · exact h.ret (by simp [hpc, armed]) (by simp [held, hpc]) hp nofun
      · exact h.start hpc hp
    · cases hs
      exact h
  | next t =>
    cases hs
    exact h.next t
  | expire t =>
    simp only [PollSys.step] at hs
    split at hs
    · rename_i hpc
      split at hs <;> cases hs
      · refine h.wake (fun hp => ?_) (fun hb => ?_) (by rw [hpc]; trivial)
        · unfold Waiter.expire
          split <;> exact hp
        · revert hb
          unfold Waiter.expire
          split
          · nofun
          · exact id
      · exact h
    · cases hs
      exact h
  | send o =>
    simp only [PollSys.step] at hs
    split at hs <;> cases hs
    · exact h.arrive o _ fun t i hin => hwakes t ⟨i, hin⟩
    · exact h
  | receive o =>
    simp only [PollSys.step] at hs
    split at hs <;> cases hs
    · rename_i senders hob
      refine h.lower fun hr => ?_
      rw [hob]
      simp only [PollObject.ready, decide_eq_true_eq] at hr ⊢
      omega
    · exact h
  | signal o bits taken =>
    simp only [PollSys.step] at hs
    split at hs
    · split at hs <;> cases hs
      · exact h
      · exact h.arrive o _ fun t i hin => hwakes t ⟨i, hin⟩
    · cases hs
      exact h
  | take o =>
    simp only [PollSys.step] at hs
    split at hs <;> cases hs
    · exact h.lower fun hr => by simp [PollObject.ready] at hr
    · exact h
  | setHandle t hd v =>
    cases hs
    exact ⟨fun u => (h.ok u).frame rfl rfl rfl rfl rfl fun _ _ => Iff.rfl, h.nodup,
      h.truthful, h.clear⟩
  | poke u =>
    cases hs
    exact h.wake (fun _ => rfl) (fun hb => absurd hb (wakeup_run_ne_blocked _)) (hwakes u rfl)

end Steps

section Results
variable [DecidableEq κ]

theorem PollInv.of_init (h : s.Init) : PollInv s := by
  refine ⟨fun t => ⟨fun i o => ?_, fun o => ?_, fun hne => ?_, fun hne => ?_, fun it hit => ?_,
    fun i it hc => ?_, fun ht => absurd ?_ ht⟩, fun o =>
    ?_, by rw [h.log]; exact nofun, by rw [h.log]; exact nofun⟩
  · rw [h.pollQueue, h.call]
    exact iff_of_false not_mem_nil fun hin => hin.1
  · simp [held, h.call, h.refs]
  · exact absurd (h.call t) hne
  · exact absurd (h.call t) hne
  · rw [h.call] at hit
    cases hit
  · rw [h.call] at hc
    exact hc.elim
  · rw [h.call]
    trivial
  · rw [h.pollQueue]
    exact .nil

theorem PollInv.sound (h : PollInv s) : PollSound s := by
  refine ⟨fun t it hpc hb hit => ?_, h.truthful, fun t hpc o i hin => ?_,
    fun t hpc o => ?_, h.clear⟩
  · obtain ⟨i, hi⟩ := mem_iff_getElem?.mp hit
    by_contra hr
    exact ((h.ok t).woken i it (by rw [hpc]; trivial) hi (Bool.not_eq_false _ ▸ hr)).2 hpc hb
  · have harmed := (((h.ok t).linked i o).mp hin).1
    rw [hpc] at harmed
    exact harmed
  · rw [(h.ok t).refs o]
    simp [held, hpc]

variable [DecidableEq Tid]

/-- In every calm run `ipc_wait_any` is a sound poll and leaves nothing behind. -/
theorem wait_any_sound (h : Lib.Reach PollSys.step PollSys.Init PollCalm s) : PollSound s :=
  (h.invariant (P := PollInv) (fun _ => .of_init) fun _ _ _ hi => hi.step).sound

end Results

def oneWaiter : PollSys Unit Unit where
  obj := fun _ => .event 0
  pollQueue := fun _ => []
  call := fun _ => ⟨.user, 0, [], fun _ => false⟩
  sched := fun _ => .fresh
  table := fun _ h => if h = 3 then some ((), true) else none
  refs := fun _ _ => 0
  seen := fun _ _ => false
  log := []

theorem init_oneWaiter : oneWaiter.Init :=
    ⟨fun _ => rfl, fun _ => rfl, fun _ => rfl, fun _ _ => rfl, rfl⟩

def armRun : List (PollAction Unit Unit) :=
  .waitAny () [3] 0 :: replicate 4 (.next ())

def pollRun : List (PollAction Unit Unit) :=
  armRun ++ replicate 4 (.next ()) ++ [.signal () 1 false] ++ replicate 7 (.next ())

def pollCalmCheck (s : PollSys Unit Unit) : PollAction Unit Unit → Bool
  | .waitAny t _ _ => !(s.sched t).pendingWakeup
  | .signal _ _ _ => (s.call ()).pc = .asleep
  | .next _ => true
  | _ => false

theorem pollCalm_of_check (s : PollSys Unit Unit) (a : PollAction Unit Unit)
    (h : pollCalmCheck s a = true) : PollCalm s a := by
  refine ⟨?_, fun t ht => ?_⟩
  · rintro t set timeout rfl
    simpa [pollCalmCheck] using h
  · cases a with
    | signal o bits taken => exact .inr (.inr (of_decide_eq_true h))
    | poke u => cases h
    | send o => cases h
    | _ => exact ht.elim

theorem wait_any_sound_pollRun : ∃ s, Lib.run PollSys.step oneWaiter pollRun = some s ∧
    s.log = [⟨(), some ⟨3, ()⟩, true, false⟩] ∧ PollSound s := by
  refine Lib.Reach.witness _ pollCalm_of_check init_oneWaiter ?_ ?_ fun _ => wait_any_sound
  · decide
  · decide

/-- The bit comes between arming and the second check: the thread returns with `pending_wakeup`
set. -/
theorem wakeup_left_pending :
    ∃ s : PollSys Unit Unit, Lib.Reach PollSys.step PollSys.Init (fun _ _ => True) s ∧
      s.log = [⟨(), some ⟨3, ()⟩, true, true⟩] ∧ (s.sched ()).pendingWakeup = true ∧
      ¬ PollSound s := by
  obtain ⟨s, hs, hlog, hpend⟩ := Lib.Reach.exists_run PollSys.step (P := fun s =>
    s.log = [⟨(), some ⟨3, ()⟩, true, true⟩] ∧ (s.sched ()).pendingWakeup = true)
    (armRun ++ [.signal () 1 false] ++ replicate 6 (.next ())) init_oneWaiter (by decide)
  refine ⟨s, hs, hlog, hpend, fun hsound => ?_⟩
  have hclear := hsound.clear
  rw [hlog] at hclear
  cases hclear _ (mem_singleton.mpr rfl)

end Xnix
