import Xnix.IrqUser

/-!
# IRQ bindings are unique

`irq_bind_event` takes the first free slot without looking at those behind it, so a process can be
bound twice (`irq_bound_twice`). Where a live process binds an IRQ only while it has no binding on
it, and exits only without one, bindings are unique and their owners live.
-/

namespace Xnix

variable {Pid Eid Tid : Type} {s s' : IrqSys Pid Eid Tid} {b : IrqSlot Pid Eid Tid} {i : ℕ}
  {p : Pid} {t : Tid} {f : IrqSlot Pid Eid Tid → IrqSlot Pid Eid Tid}

/-- What is buffered came in since the slot was bound. -/
def IrqSlot.Fresh (b : IrqSlot Pid Eid Tid) : Prop :=
  b.bound = true → b.ring.Carries cfgIrqUserBufSize b.stored b.taken

/-- A process has one binding at most, while it lives, and its ring is read in order. -/
structure IrqSound (s : IrqSys Pid Eid Tid) : Prop where
  unique : ∀ i j p, (s.slot i).OwnedBy p → (s.slot j).OwnedBy p → i = j
  live : ∀ i p, (s.slot i).OwnedBy p → s.live p = true
  left : s.leftBound = false
  fresh : ∀ i, (s.slot i).Fresh

/-- A slot is bound for a live process without a binding and not behind its unbind, and a process
with a binding does not exit. -/
def IrqCalm (s : IrqSys Pid Eid Tid) : IrqAction Pid Eid Tid → Prop
  | .scan t => ∀ notif bits i, s.job t = some (.bind notif bits i) → i < irqUserMaxBindings →
      (s.slot i).bound = false → s.live (s.proc t) = true ∧ (∀ j, ¬ (s.slot j).OwnedBy (s.proc t)) ∧
        ∀ u j, s.proc u = s.proc t → s.job u = some (.unbind j) → j ≤ i
  | .exit p => ∀ i, ¬ (s.slot i).OwnedBy p
  | _ => True

structure IrqInv (s : IrqSys Pid Eid Tid) : Prop extends IrqSound s where
  passed : ∀ t j, s.job t = some (.unbind j) → ∀ i < j, ¬ (s.slot i).OwnedBy (s.proc t)

namespace IrqSlot

theorem Fresh.push (h : b.Fresh) (data : UInt8) : (b.push data).Fresh := by
  unfold IrqSlot.push
  split_ifs with hb hroom
  · exact h
  · refine fun hbound => (h hbound).push ?_ data
    obtain ⟨hhead, htail, hlo, hhi, -⟩ := h hbound
    simp only [cfgIrqUserBufSize] at *
    omega
  · exact h

theorem Fresh.take : ∀ (n : ℕ) {b : IrqSlot Pid Eid Tid}, b.Fresh → (b.take n).Fresh
  | 0, _, h => h
  | n + 1, b, h => by
    unfold IrqSlot.take
    split_ifs with hempty
    · exact h
    · refine Fresh.take n fun hbound => (h hbound).advance ?_
      refine lt_of_le_of_ne (h hbound).lower fun he => hempty ?_
      rw [(h hbound).head, (h hbound).tail, he]

theorem take_ownedBy : ∀ (n : ℕ) (b : IrqSlot Pid Eid Tid), (b.take n).OwnedBy p ↔ b.OwnedBy p
  | 0, _ => Iff.rfl
  | n + 1, b => by
    unfold take
    split_ifs
    · rfl
    · exact take_ownedBy n _

end IrqSlot

theorem modify_cases (P : ℕ → IrqSlot Pid Eid Tid → Prop)
    (hf : P i (f (s.slot i))) (hs : ∀ j, P j (s.slot j)) (j : ℕ) : P j ((s.modify i f).slot j) := by
  by_cases hj : j = i
  · simpa [IrqSys.modify, hj] using hf
  · simpa [IrqSys.modify, hj] using hs j

theorem IrqInv.modify (h : IrqInv s)
    (hown : ∀ p, (f (s.slot i)).OwnedBy p → (s.slot i).OwnedBy p) (hf : (f (s.slot i)).Fresh) :
    IrqInv (s.modify i f) := by
  have howns := modify_cases (fun j b => ∀ p, b.OwnedBy p → (s.slot j).OwnedBy p) hown fun _ _ => id
  exact {
    unique := fun j k p hj hk => h.unique j k p (howns j p hj) (howns k p hk)
    live := fun j p hj => h.live j p (howns j p hj)
    left := h.left
    fresh := modify_cases (fun _ b => b.Fresh) hf h.fresh
    passed := fun t j ht k hk ho => h.passed t j ht k hk (howns k _ ho) }

theorem IrqInv.bind (h : IrqInv s) (hlive : s.live (s.proc t) = true) (notif : Option Eid)
    (bits : BitVec 32) (hfree : ∀ j, ¬ (s.slot j).OwnedBy (s.proc t))
    (hpass : ∀ u j, s.proc u = s.proc t → s.job u = some (.unbind j) → j ≤ i) :
    IrqInv (s.modify i fun b => b.bind (s.proc t) notif bits) := by
  have howns := modify_cases (f := fun b => b.bind (s.proc t) notif bits)
    (fun j b => ∀ p, b.OwnedBy p → (j = i ∧ p = s.proc t) ∨ (s.slot j).OwnedBy p)
    (fun p hp => .inl ⟨rfl, (Option.some.inj hp.2).symm⟩) fun _ _ => .inr
  refine { h with
    unique := fun j k p hj hk => ?_, live := fun j p hj => ?_, fresh := ?_, passed := ?_ }
  · obtain ⟨hji, hp⟩ | hj := howns j p hj <;> obtain ⟨hki, hp'⟩ | hk := howns k p hk
    · rw [hji, hki]
    · exact absurd (hp ▸ hk) (hfree k)
    · exact absurd (hp' ▸ hj) (hfree j)
    · exact h.unique j k p hj hk
  · obtain ⟨-, rfl⟩ | hj := howns j p hj
    · exact hlive
    · exact h.live j p hj
  · refine modify_cases (fun _ b => b.Fresh) (fun _ => ?_) h.fresh
    exact ⟨rfl, rfl, Nat.le_refl 0, Nat.zero_le _, by simp [IrqSlot.bind]⟩
  · intro u j hu k hk ho
    obtain ⟨rfl, hp⟩ | ho := howns k _ ho
    · exact absurd (hpass u j hp hu) (by omega)
    · exact h.passed u j hu k hk ho

section Step
variable [DecidableEq Tid]

theorem IrqInv.setJob (h : IrqInv s) {j : Option (IrqJob Eid)}
    (hpass : ∀ k, j = some (.unbind k) → ∀ i < k, ¬ (s.slot i).OwnedBy (s.proc t)) :
    IrqInv (s.setJob t j) := by
  have hjob : ∀ u, (u = t ∧ (s.setJob t j).job u = j) ∨ (s.setJob t j).job u = s.job u :=
    fun u => by
    by_cases hut : u = t <;> simp [IrqSys.setJob, hut]
  refine { h with passed := fun u k hu => ?_ }
  obtain ⟨rfl, hj⟩ | hj := hjob u <;> rw [hj] at hu
  · exact hpass k hu
  · exact h.passed u k hu

theorem IrqInv.start (h : IrqInv s) {j : IrqJob Eid} (hj : ∀ k, j = .unbind k → k = 0) :
    IrqInv (s.start t j) := by
  unfold IrqSys.start
  split_ifs
  · exact h.setJob fun k hk i hi => by simp [hj k (Option.some.inj hk)] at hi
  · exact h

variable [DecidableEq Pid]

theorem IrqInv.leave (h : IrqInv s)
    (hfree : ∀ i < irqUserMaxBindings, ¬ (s.slot i).OwnedBy (s.proc t)) : IrqInv (s.leave t) := by
  have hleft : (s.leave t).leftBound = false := by simpa [IrqSys.leave, h.left] using hfree
  exact { h.setJob (by simp) with left := hleft }

theorem IrqInv.scan (h : IrqInv s) (hc : IrqCalm s (.scan t)) : IrqInv (s.scan t) := by
  unfold IrqSys.scan
  split
  · exact h
  · rename_i notif bits i hj
    split_ifs with hend hbound
    · exact h.setJob (by simp)
    · exact h.setJob (by simp)
    · obtain ⟨hlive, hfree, hpass⟩ := hc notif bits i hj (by omega) (by simpa using hbound)
      exact (h.bind hlive notif bits hfree hpass).setJob (by simp)
  · rename_i i hj
    have hpassed := h.passed t i hj
    split_ifs with hend hown
    · exact h.leave fun k hk => hpassed k (by omega)
    · have hun : IrqInv (s.modify i .unbind) := h.modify (fun _ hp => nomatch hp.1) nofun
      refine hun.leave fun k hk ho => ?_
      by_cases hki : k = i
      · simp [hki, IrqSys.modify, IrqSlot.unbind, IrqSlot.OwnedBy] at ho
      · exact hki (h.unique k i _ (by simpa [IrqSys.modify, hki] using ho) hown)
    · refine h.setJob fun k hk j hj => ?_
      obtain rfl : i + 1 = k := by simpa using hk
      rcases Nat.lt_succ_iff_lt_or_eq.mp hj with hj | rfl
      · exact hpassed j hj
      · exact hown

theorem IrqInv.step {a : IrqAction Pid Eid Tid} (h : IrqInv s) (hc : IrqCalm s a)
    (hs : s.step a = some s') : IrqInv s' := by
  cases a <;> cases hs
  case bind t notif bits => exact h.start nofun
  case unbind t => exact h.start fun k hk => (IrqJob.unbind.inj hk).symm
  case scan t => exact h.scan hc
  case push i data =>
    refine h.modify (fun p => ?_) ((h.fresh i).push data)
    unfold IrqSlot.push
    split_ifs <;> exact id
  case signal i =>
    refine h.modify ?_ ?_
    all_goals unfold IrqSlot.signal; split_ifs
    all_goals first | exact fun _ => id | exact h.fresh i
  case read t i n block =>
    refine h.modify ?_ ?_
    all_goals unfold IrqSlot.read; split_ifs
    all_goals first | exact fun _ => id | exact h.fresh i | skip
    · exact fun _ => (IrqSlot.take_ownedBy n _).mp
    · exact (h.fresh i).take n
  case exit p =>
    refine { h with live := fun i q hq => ?_ }
    have hne : q ≠ p := fun he => hc i (he ▸ hq)
    simpa [hne] using h.live i q hq

/-- In every run that binds and exits within the condition, bindings are unique and their owners
live. -/
theorem irq_bindings_sound (h : Lib.Reach IrqSys.step IrqSys.Init IrqCalm s) : IrqSound s := by
  refine (h.invariant (P := IrqInv) (fun s hi => ?_) fun _ _ _ h hc hs => h.step hc hs).toIrqSound
  have hno : ∀ i p, ¬ (s.slot i).OwnedBy p := fun i p hp => by simp [IrqSlot.OwnedBy, hi.slot] at hp
  exact {
    unique := fun i j p hp => absurd hp (hno i p)
    live := fun i p hp => absurd hp (hno i p)
    left := hi.leftBound
    fresh := fun i hb => by simp [hi.slot] at hb
    passed := fun t j ht => by simp [hi.job] at ht }

end Step

def unboundIrq : IrqSys Bool Unit Bool :=
  ⟨fun _ => ⟨false, none, none, 0#32, ⟨fun _ => 0, 0, 0⟩, none, [], 0⟩, id, fun _ => true,
    fun _ => none, false⟩

theorem init_unboundIrq : unboundIrq.Init := ⟨fun _ => rfl, fun _ => rfl, rfl⟩

theorem irq_bindings_sound_push : ∃ s : IrqSys Bool Unit Bool,
    (s.slot 0).OwnedBy true ∧ (s.slot 0).stored = [7] ∧ IrqSound s := by
  refine ⟨_, ⟨rfl, rfl⟩, rfl, irq_bindings_sound (.next (a := .push 0 7) (.next (a := .scan true)
    (.next (a := .bind true none 0#32) (.init init_unboundIrq) trivial rfl) ?_ rfl) trivial rfl)⟩
  intro notif bits i _ _ _
  exact ⟨rfl, fun j hj => (nomatch hj.1), fun u j _ hu => by cases u <;> cases hu⟩

/-- The first process binds and the second after it; the first unbinds, the second binds again and
unbinds. -/
theorem irq_bound_twice : ∃ s : IrqSys Bool Unit Bool,
    Lib.Reach IrqSys.step IrqSys.Init (fun _ _ => True) s ∧ (s.slot 1).OwnedBy true ∧
    ¬ IrqSound s := by
  obtain ⟨s, hr, hown, hleft⟩ := Lib.Reach.exists_run IrqSys.step
    (P := fun s => (s.slot 1).OwnedBy true ∧ s.leftBound = true)
    [.bind false none 0#32, .scan false, .bind true none 0#32, .scan true, .scan true,
    .unbind false, .scan false,
      .bind true none 0#32, .scan true, .unbind true, .scan true] init_unboundIrq (by decide)
  exact ⟨s, hr, hown, fun h => by simp [h.left] at hleft⟩

end Xnix
