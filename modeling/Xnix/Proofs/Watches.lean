import Xnix.Watches

/-!
# Watches fire once

`process_watch_unref` disarms a watch whatever reference is dropped, so a look-up of its handle is
enough to lose the signal (`watch_disarmed`). Where an armed watch loses a reference only together
with its last handle, it stays armed while its process lives, and the exit signals it once.
-/

namespace Xnix

open Function

variable {Pid Eid Wid : Type}

/-- A watch with a handle open since the first is armed while its process lives, was signalled with
its bits after the exit, and none twice. -/
structure WatchesFire (s : WatchSys Pid Eid Wid) : Prop where
  armed : ∀ w x, s.watch w = some x → x.life = .kept → s.zombie x.aim = false → x.armed = true
  fired : ∀ w x, s.watch w = some x → x.life = .kept → s.told x.aim = true →
    x.signals = [(x.notif, x.bits)]
  once : ∀ w x, s.watch w = some x → x.signals.length ≤ 1

/-- A reference to an armed watch that is dropped leaves no handle open. -/
def WatchCalm (s : WatchSys Pid Eid Wid) (a : WatchAction Pid Eid Wid) : Prop :=
  ∀ w x, s.watch w = some x → x.armed = true →
    (a = .put w → x.life ≠ .kept) ∧ (a = .close w → x.handles ≤ 1)

structure WatchOk (zombie told : Pid → Bool) (x : Watch Pid Eid) : Prop where
  armed : x.armed = true → x.linked = true ∧ x.target = some x.aim ∧ told x.aim = false ∧
    x.signals = []
  kept : x.life = .kept ∨ x.life = .new ∧ 0 < x.held → x.armed = true ∨ x.signals ≠ []
  new : x.life = .new → x.handles = 0 ∧ x.held ≤ 1
  signals : x.signals = [] ∨ x.signals = [(x.notif, x.bits)] ∧ zombie x.aim = true

structure WatchInv (s : WatchSys Pid Eid Wid) : Prop where
  ok : ∀ w x, s.watch w = some x → WatchOk s.zombie s.told x
  told : ∀ p, s.told p = true → s.zombie p = true

theorem WatchInv.sound {s : WatchSys Pid Eid Wid} (h : WatchInv s) : WatchesFire s := by
  refine ⟨fun w x hx hk hz => ?_, fun w x hx hk ht => ?_, fun w x hx => ?_⟩
  · refine ((h.ok w x hx).kept (.inl hk)).resolve_right fun hne => ?_
    have hsig := (h.ok w x hx).signals
    simp [hz, hne] at hsig
  · refine ((h.ok w x hx).signals.resolve_left ?_).1
    refine ((h.ok w x hx).kept (.inl hk)).resolve_left fun ha => ?_
    simp [((h.ok w x hx).armed ha).2.2.1] at ht
  · rcases (h.ok w x hx).signals with hs | ⟨hs, -⟩ <;> simp [hs]

section Watch
variable {zombie told : Pid → Bool} {x : Watch Pid Eid}

theorem WatchOk.create {p : Pid} (htold : told p = true → zombie p = true) (e : Eid)
    (bits : BitVec 32) : WatchOk zombie told (.create (zombie p) p e bits) := by
  unfold Watch.create
  split
  · exact ⟨nofun, by simp, by simp, .inr ⟨rfl, ‹_›⟩⟩
  · exact ⟨fun _ => ⟨rfl, rfl, by simp_all, rfl⟩, by simp, by simp, .inl rfl⟩

theorem WatchOk.publish (h : WatchOk zombie told x) : WatchOk zombie told x.publish := by
  unfold Watch.publish
  split
  · exact ⟨h.armed, fun _ => h.kept (.inr ‹_›), nofun, h.signals⟩
  · exact h

theorem WatchOk.acquire (h : WatchOk zombie told x) : WatchOk zombie told x.acquire := by
  unfold Watch.acquire
  split
  · refine ⟨h.armed, fun hk => h.kept (hk.imp_right fun hn => ?_), fun hn => ?_, h.signals⟩
    all_goals have := h.new (by simp_all); omega
  · exact h

theorem WatchOk.openHandle (h : WatchOk zombie told x) : WatchOk zombie told x.openHandle := by
  unfold Watch.openHandle
  split
  · rename_i hcond
    exact ⟨h.armed, h.kept, fun hn => absurd hn hcond.1, h.signals⟩
  · exact h

theorem WatchOk.unref {y : Watch Pid Eid} (hy : WatchOk zombie told y)
    (hlife : y.life = .kept ∨ y.life = .new ∧ 0 < y.held → y.armed = false) :
    WatchOk zombie told y.unref :=
  ⟨nofun, fun hk => .inr (((hy.kept hk).resolve_left (by simp [hlife hk]))), hy.new, hy.signals⟩

theorem WatchOk.put (h : WatchOk zombie told x) (hcalm : x.armed = true → x.life ≠ .kept) :
    WatchOk zombie told x.put := by
  unfold Watch.put
  split
  · refine WatchOk.unref ⟨h.armed, fun hk => h.kept (hk.imp_right (And.imp_right fun _ => ‹_›)),
      fun hn => ?_, h.signals⟩ fun hk => ?_
    · exact ⟨(h.new hn).1, Nat.le_trans (Nat.sub_le _ _) (h.new hn).2⟩
    · rcases hk with hk | ⟨hn, hpos⟩
      · exact Bool.eq_false_iff.mpr fun ha => hcalm ha hk
      · have := (h.new hn).2
        simp only at hpos
        omega
  · exact h

theorem WatchOk.close (h : WatchOk zombie told x) (hcalm : x.armed = true → x.handles ≤ 1) :
    WatchOk zombie told x.close := by
  unfold Watch.close
  split
  · rename_i hpos
    have hnew : x.life ≠ .new := fun hn => by simp [(h.new hn).1] at hpos
    refine WatchOk.unref ⟨h.armed, fun hk => h.kept ?_, fun hn => ?_, h.signals⟩ fun hk => ?_
    · by_cases h1 : x.handles = 1 <;> simp_all
    · by_cases h1 : x.handles = 1 <;> simp_all
    · refine Bool.eq_false_iff.mpr fun ha => ?_
      have := hcalm ha
      simp [show x.handles = 1 by omega] at hk
  · exact h

theorem WatchOk.fire [DecidableEq Pid] {p : Pid} (h : WatchOk zombie told x)
    (hz : zombie p = true) : WatchOk zombie (update told p true) (x.fire p) := by
  unfold Watch.fire
  split
  · rename_i hcond
    obtain ⟨-, haim, -, hs⟩ := h.armed hcond.2.1
    obtain rfl := Option.some.inj (haim.symm.trans hcond.2.2)
    exact ⟨nofun, by simp, h.new, .inr ⟨by simp [hs], hz⟩⟩
  · rename_i hcond
    refine ⟨fun ha => ?_, h.kept, h.new, h.signals⟩
    obtain ⟨hl, haim, ht, hs⟩ := h.armed ha
    have hne : x.aim ≠ p := fun he => hcond ⟨hl, ha, he ▸ haim⟩
    exact ⟨hl, haim, by simp [hne, ht], hs⟩

end Watch

section Run
variable [DecidableEq Wid] {s s' : WatchSys Pid Eid Wid}

theorem WatchInv.modify (h : WatchInv s) {w : Wid} {f : Watch Pid Eid → Watch Pid Eid}
    (hf : ∀ x, s.watch w = some x → WatchOk s.zombie s.told (f x)) : WatchInv (s.modify w f) := by
  refine ⟨fun v y hy => ?_, h.told⟩
  by_cases hv : v = w
  · subst hv
    simp only [WatchSys.modify, update_self, Option.map_eq_some_iff] at hy
    obtain ⟨x, hx, rfl⟩ := hy
    exact hf x hx
  · simp only [WatchSys.modify, update_of_ne hv] at hy
    exact h.ok v y hy

variable [DecidableEq Pid]

theorem WatchInv.step {a : WatchAction Pid Eid Wid} (h : WatchInv s) (hc : WatchCalm s a)
    (hs : s.step a = some s') : WatchInv s' := by
  cases a with
  | create w p e bits =>
    simp only [WatchSys.step] at hs
    split at hs <;> obtain rfl := Option.some.inj hs
    · refine ⟨fun v y hy => ?_, h.told⟩
      by_cases hv : v = w
      · simp only [hv, update_self, Option.some.injEq] at hy
        exact hy ▸ WatchOk.create (h.told p) e bits
      · simp only [update_of_ne hv] at hy
        exact h.ok v y hy
    · exact h
  | publish w =>
    cases hs
    exact h.modify fun x hx => (h.ok w x hx).publish
  | acquire w =>
    cases hs
    exact h.modify fun x hx => (h.ok w x hx).acquire
  | put w =>
    cases hs
    exact h.modify fun x hx => (h.ok w x hx).put fun ha => (hc w x hx ha).1 rfl
  | openHandle w =>
    cases hs
    exact h.modify fun x hx => (h.ok w x hx).openHandle
  | close w =>
    cases hs
    exact h.modify fun x hx => (h.ok w x hx).close fun ha => (hc w x hx ha).2 rfl
  | die p =>
    cases hs
    have hup : ∀ q, s.zombie q = true → update s.zombie p true q = true := fun q hq => by
      by_cases hqp : q = p <;> simp [hqp, hq]
    exact ⟨fun w x hx =>
      { h.ok w x hx with signals := (h.ok w x hx).signals.imp_right (.imp_right (hup _)) },
      fun q hq => hup q (h.told q hq)⟩
  | signalExit p =>
    simp only [WatchSys.step] at hs
    split at hs <;> obtain rfl := Option.some.inj hs
    · rename_i hz
      refine ⟨fun w y hy => ?_, fun q hq => ?_⟩
      · obtain ⟨x, hx, rfl⟩ := Option.map_eq_some_iff.mp hy
        exact (h.ok w x hx).fire hz
      · by_cases hqp : q = p
        · exact hqp ▸ hz
        · exact h.told q (by simpa [hqp] using hq)
    · exact h

/-- In every run in which a reference to an armed watch is dropped only with no handle left, watches
stay armed and fire. -/
theorem watches_fire (h : Lib.Reach WatchSys.step WatchSys.Init WatchCalm s) : WatchesFire s :=
  (h.invariant (P := WatchInv)
    (fun s hi => ⟨fun w x hx => by simp [hi.watch] at hx, by simp [hi.told]⟩)
    fun _ _ _ h hc hs => h.step hc hs).sound

end Run

def noWatches : WatchSys Unit Unit Unit := ⟨fun _ => none, fun _ => false, fun _ => false⟩

theorem init_noWatches : noWatches.Init := ⟨fun _ => rfl, fun _ => rfl⟩

theorem watches_fire_exit : ∃ s : WatchSys Unit Unit Unit,
    (s.watch ()).map Watch.signals = some [((), 4#32)] ∧ WatchesFire s :=
  ⟨_, rfl, watches_fire (.of_run [.create () () () 4#32, .publish (), .die (), .signalExit ()]
    (.init init_noWatches) (by simp [WatchCalm]) rfl)⟩

/-- A look-up of the one handle, and the watch no longer fires. -/
theorem watch_disarmed :
    ∃ s : WatchSys Unit Unit Unit, Lib.Reach WatchSys.step WatchSys.Init (fun _ _ => True) s ∧
      (s.watch ()).map (fun x => (x.handles, x.life, x.signals)) = some (1, .kept, []) ∧
      s.told () = true ∧
      ¬ WatchesFire s :=
  ⟨_, .of_run [.create () () () 4#32, .publish (), .acquire (), .put (), .die (), .signalExit ()]
    (.init init_noWatches) (fun _ _ _ => trivial) rfl, rfl, rfl,
    fun h => absurd (h.fired () _ rfl rfl rfl) (by decide)⟩

end Xnix
