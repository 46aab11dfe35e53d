import Xnix.Timeouts

/-!
# Timeouts are never early

The product `ms * CFG_SCHED_HZ + 999` is a 32-bit one, so a long timeout can end early
(`timeoutTicks_iff`, `sleep_ends_early`). A timeout whose product fits is never early, and what
reports a timeout was woken by the timer (`timeouts_not_early`): the deadline of a thread that is on
the blocked list is cleared by the timer only.
-/

namespace Xnix

open Option

variable {Chan Tid : Type} {cfg : SchedConfig}

section Statements
variable (cfg : SchedConfig)

/-- The rounded number of ticks covers the milliseconds exactly when the 32-bit sum does not
wrap. -/
theorem timeoutTicks_iff (ms : ℕ) :
    ms * cfg.hz ≤ timeoutTicks cfg ms * 1000 ↔ ms * cfg.hz + 999 < 2 ^ 32 := by
  unfold timeoutTicks
  generalize ms * cfg.hz = n
  by_cases hfit : n + 999 < 2 ^ 32
  · simp only [Nat.mod_eq_of_lt hfit, hfit, iff_true]
    split <;> omega
  · have hlt := Nat.mod_lt (n + 999) (show 2 ^ 32 > 0 by decide)
    simp only [hfit, iff_false, not_le]
    split <;> omega

theorem timeoutTicks_pos (ms : ℕ) : 0 < timeoutTicks cfg ms := by
  unfold timeoutTicks
  simp only
  split <;> omega

/-- A call that the timer ended took the time it was given, and a timeout is reported only then. -/
structure TimeoutsOk (s : TimedSys Chan Tid) : Prop where
  lasts : ∀ r ∈ s.log, r.call.woken = some .timer →
    r.call.ms.toNat * cfg.hz ≤ (r.fin - r.call.start) * 1000
  reported : ∀ r ∈ s.log, r.timedOut = true → r.call.woken = some .timer

/-- The 32-bit sum of the conversion to ticks does not wrap. -/
def TimedFits : TimedSys Chan Tid → TimedAction Chan Tid → Prop
  | _, .blockTimeout _ _ ms | _, .sleepMs _ ms => ms.toNat * cfg.hz + 999 < 2 ^ 32
  | _, _ => True

def TimedCall.deadline (c : TimedCall) : ℕ :=
  if c.kind = .sleep ∨ c.kind = .blockTimeout ∧
    0 < c.ms.toNat then c.start + timeoutTicks cfg c.ms.toNat else 0

/-- A call on its way. Only in `sleep_ticks` can a thread be woken and join the blocked list
afterwards. -/
structure TimedOk (now : ℕ) (th : TimedThread Chan Tid) (c : TimedCall) : Prop where
  fits : c.deadline cfg ≠ 0 → c.ms.toNat * cfg.hz + 999 < 2 ^ 32
  tick : th.wakeupTick = 0 ∨ th.wakeupTick = c.deadline cfg
  due : c.woken = some .timer → c.deadline cfg ≠ 0 ∧ c.deadline cfg ≤ now
  cleared : c.kind ≠ .sleep → th.wakeupTick = 0 → c.deadline cfg = 0 ∨ c.woken = some .timer
  asleep : c.kind ≠ .sleep → th.listed = true → c.woken = none
  adding : c.added = false → c.kind = .sleep

def TimedThread.Ok (now : ℕ) (th : TimedThread Chan Tid) : Prop :=
  match th.call with
  | none => th.wakeupTick = 0
  | some c => TimedOk cfg now th c

/-- The log is right, and so is each call on its way. -/
structure TimedInv (s : TimedSys Chan Tid) : Prop extends TimeoutsOk cfg s where
  threads : ∀ t, (s.thread t).Ok cfg s.now

end Statements

section Threads
variable {now : ℕ} {th th' : TimedThread Chan Tid} {c : TimedCall}

theorem TimedOk.wakes (h : TimedOk cfg now th c) {w : Waker} (hlisted : th'.listed = false)
    (hw : w = .timer → th.listed = true ∧ th.wakeupTick ≠ 0 ∧ th.wakeupTick ≤ now ∧
    th'.wakeupTick = 0)
    (hx : w = .explicit → th'.wakeupTick = th.wakeupTick) :
    TimedOk cfg now th' { c with woken := some (c.woken.getD w) } := by
  obtain ⟨hfits, htick, hdue, hcleared, hasleep, hadding⟩ := h
  have hdeadline :
    ({ c with woken := some (c.woken.getD w) } : TimedCall).deadline cfg = c.deadline cfg := rfl
  cases w with
  | timer =>
    obtain ⟨hl, hne, hle, hzero⟩ := hw rfl
    have hat := htick.resolve_left hne
    refine ⟨hfits, .inl hzero, fun _ => hdeadline ▸ hat ▸ ⟨hne, hle⟩, fun hk _ => .inr ?_,
      ?_, hadding⟩
    · simp [hasleep hk hl]
    · simp [hlisted]
  | explicit =>
    rw [← hx rfl] at htick hcleared
    refine ⟨hfits, htick, fun hwoken => hdue ?_,
      fun hk hz => (hcleared hk hz).imp id fun hwoken => ?_, ?_, hadding⟩
    · cases hc : c.woken <;> simp_all
    · simp [hwoken]
    · simp [hlisted]

section
variable (h : th.Ok cfg now)
include h

theorem TimedThread.Ok.wakes {w : Waker} (hcall : th'.call = (th.ready w).call)
    (hlisted : th'.listed = false)
    (hw : w = .timer → th.listed = true ∧ th.wakeupTick ≠ 0 ∧ th.wakeupTick ≤ now ∧
    th'.wakeupTick = 0)
    (hx : w = .explicit → th'.wakeupTick = th.wakeupTick) : th'.Ok cfg now := by
  unfold TimedThread.Ok at h ⊢
  cases hc : th.call with
  | none =>
    simp only [hcall, TimedThread.ready, hc, map_none] at h ⊢
    cases w with
    | timer => exact (hw rfl).2.2.2
    | explicit => exact (hx rfl).trans h
  | some c =>
    simp only [hcall, TimedThread.ready, hc, map_some] at h ⊢
    exact h.wakes hlisted hw hx

theorem TimedThread.Ok.timerWakeup : (th.timerWakeup now).Ok cfg now := by
  unfold TimedThread.timerWakeup
  split
  · rename_i hdue
    exact h.wakes rfl rfl (fun _ => ⟨hdue.1, hdue.2.1, hdue.2.2, rfl⟩) nofun
  · exact h

theorem TimedThread.Ok.chanWakeup [DecidableEq Chan] [DecidableEq Tid] (chan : Option (Chan ⊕ Tid))
    : (th.chanWakeup chan).Ok cfg now := by
  unfold TimedThread.chanWakeup
  split
  · exact h.wakes rfl rfl nofun fun _ => rfl
  · exact h

theorem TimedThread.Ok.unlisted (hcall : th'.call = th.call) (hlisted : th'.listed = false)
    (htick : th'.wakeupTick = th.wakeupTick) : th'.Ok cfg now := by
  unfold TimedThread.Ok at h ⊢
  rw [hcall]
  split at h
  · exact htick.trans h
  · exact ⟨h.fits, htick ▸ h.tick, h.due, htick ▸ h.cleared, by simp [hlisted], h.adding⟩

theorem TimedThread.Ok.schedWakeupThread : th.schedWakeupThread.Ok cfg now := by
  unfold TimedThread.schedWakeupThread
  split
  · exact h.wakes rfl rfl nofun fun _ => rfl
  · exact h.unlisted rfl rfl rfl

theorem TimedThread.Ok.later : th.Ok cfg (now + 1) := by
  unfold TimedThread.Ok at h ⊢
  split
  · simpa [*] using h
  · simp only [*] at h
    exact { h with due := fun hw => ⟨(h.due hw).1, (h.due hw).2.trans (Nat.le_succ _)⟩ }

end

theorem TimedOk.start (hwoken : c.woken = none) (htick : th.wakeupTick = c.deadline cfg)
    (hfits : c.deadline cfg ≠ 0 → c.ms.toNat * cfg.hz + 999 < 2 ^ 32)
    (hadding : c.added = false → c.kind = .sleep) :
    TimedOk cfg now th c :=
  ⟨hfits, .inr htick, by simp [hwoken], fun _ hz => .inl (htick ▸ hz), fun _ _ => hwoken, hadding⟩

theorem TimedOk.lasts (h : TimedOk cfg now th c) (hw : c.woken = some .timer) :
    c.ms.toNat * cfg.hz ≤ (now - c.start) * 1000 := by
  obtain ⟨hne, hle⟩ := h.due hw
  have hticks := (timeoutTicks_iff cfg c.ms.toNat).mpr (h.fits hne)
  unfold TimedCall.deadline at hne hle
  split at hle
  · exact hticks.trans (Nat.mul_le_mul_right _ (Nat.le_sub_of_add_le' hle))
  · simp_all

end Threads

section Steps
variable {s s' : TimedSys Chan Tid} {t : Tid}

theorem TimedInv.record (h : TimedInv cfg s) {r : TimedReturn}
    (hlasts : r.call.woken = some .timer → r.call.ms.toNat * cfg.hz ≤ (r.fin - r.call.start) * 1000)
    (hreported : r.timedOut = true → r.call.woken = some .timer) :
    TimedInv cfg { s with log := r :: s.log } where
  lasts := List.forall_mem_cons.mpr ⟨hlasts, h.lasts⟩
  reported := List.forall_mem_cons.mpr ⟨hreported, h.reported⟩
  threads := h.threads

variable [DecidableEq Tid]

theorem TimedInv.setThread (h : TimedInv cfg s) {th : TimedThread Chan Tid}
    (hok : th.Ok cfg s.now) : TimedInv cfg (s.setThread t th) where
  toTimeoutsOk := ⟨h.lasts, h.reported⟩
  threads u := by
    by_cases hu : u = t
    · simpa [TimedSys.setThread, hu] using hok
    · simpa [TimedSys.setThread, hu] using h.threads u

theorem TimedInv.schedBlock (h : TimedInv cfg s) {chan : Option (Chan ⊕ Tid)} {kind : TimedKind}
    {ms : BitVec 32} {tick : ℕ}
    (htick : (s.thread t).call = none →
    tick = (⟨kind, ms, s.now, true, none⟩ : TimedCall).deadline cfg)
    (hfits : kind ≠ .block → ms.toNat * cfg.hz + 999 < 2 ^ 32) :
    TimedInv cfg (s.schedBlock t chan kind ms tick) := by
  unfold TimedSys.schedBlock
  simp only [isSome_iff_ne_none, ne_eq, ite_not]
  split
  case isFalse => exact h
  rename_i hcall
  split
  · refine (h.setThread ?_).record (by simp) (by simp)
    simpa [TimedThread.Ok, hcall] using h.threads t
  · refine h.setThread (TimedOk.start rfl (htick hcall) (fun hne => hfits ?_) nofun)
    rintro rfl
    exact hne rfl

theorem TimedInv.sleepMs (h : TimedInv cfg s) {ms : BitVec 32}
    (hfits : ms.toNat * cfg.hz + 999 < 2 ^ 32) : TimedInv cfg (s.sleepMs cfg t ms) := by
  unfold TimedSys.sleepMs
  split
  · exact h
  · exact h.setThread (TimedOk.start rfl rfl (fun _ => hfits) fun _ => rfl)

theorem TimedInv.resume (h : TimedInv cfg s) : TimedInv cfg (s.resume t) := by
  unfold TimedSys.resume
  have hok := h.threads t
  simp only
  split
  · exact h
  rename_i c hc
  simp only [TimedThread.Ok, hc] at hok
  split
  case isFalse => exact h
  refine (h.setThread ?_).record hok.lasts fun hout => ?_
  · cases hk : c.kind <;> simp [TimedThread.Ok]
    simpa [TimedCall.deadline, hk] using hok.tick
  · obtain ⟨hk, hms, hz⟩ := of_decide_eq_true hout
    have hpos := timeoutTicks_pos cfg c.ms.toNat
    refine (hok.cleared (by simp [hk]) hz).resolve_left ?_
    simp only [TimedCall.deadline, hk, hms]
    simp only [and_self, or_true, if_true]
    omega

variable [DecidableEq Chan]

theorem TimedInv.step {a : TimedAction Chan Tid} (h : TimedInv cfg s) (hfits : TimedFits cfg s a)
    (hs : s.step cfg a = some s') : TimedInv cfg s' := by
  cases a <;> simp only [TimedSys.step, some.injEq] at hs
  case tick => exact hs ▸ ⟨⟨h.lasts, h.reported⟩, fun u => (h.threads u).later⟩
  case sleepCheckWakeup => exact hs ▸ ⟨⟨h.lasts, h.reported⟩, fun u => (h.threads u).timerWakeup⟩
  case wakeup chan => exact hs ▸ ⟨⟨h.lasts, h.reported⟩, fun u => (h.threads u).chanWakeup chan⟩
  case wakeupThread t => exact hs ▸ h.setThread (h.threads t).schedWakeupThread
  case block t chan =>
    refine hs ▸ h.schedBlock (fun hc => ?_) nofun
    simpa [TimedThread.Ok, hc, TimedCall.deadline] using h.threads t
  case blockTimeout t chan ms =>
    exact hs ▸ h.schedBlock (fun _ => by simp [TimedCall.deadline]) fun _ => hfits
  case sleepMs t ms => exact hs ▸ h.sleepMs hfits
  case resume t => exact hs ▸ h.resume
  case sleepAdd t =>
    have hok := h.threads t
    split at hs
    case h_2 => exact some.inj hs ▸ h
    rename_i c hc
    simp only [TimedThread.Ok, hc] at hok
    split at hs
    · exact some.inj hs ▸ h
    · rename_i hadded
      have hk := hok.adding (by simpa using hadded)
      exact some.inj hs ▸ h.setThread
        ⟨hok.fits, hok.tick, hok.due, (absurd hk ·), (absurd hk ·), fun _ => hk⟩

/-- In every run in which no conversion to ticks wraps, no timeout is early and none is reported for
a call that a wakeup ended. -/
theorem timeouts_not_early (h : Lib.Reach (TimedSys.step cfg) TimedSys.Init (TimedFits cfg) s) :
  TimeoutsOk cfg s := (h.invariant (P := TimedInv cfg)
    (fun _ hi => ⟨⟨by simp [hi.log], by simp [hi.log]⟩,
    fun t => by simp [TimedThread.Ok, hi.thread t]⟩)
    fun _ _ _ hi hfits hs => hi.step hfits hs).toTimeoutsOk

end Steps

def oneRunning : TimedSys Unit (Fin 1) := ⟨0, fun _ => ⟨.running, false, none, 0, false, none⟩, []⟩

def sleepRun (ms : BitVec 32) : List (TimedAction Unit (Fin 1)) :=
  [.sleepMs 0 ms, .sleepAdd 0, .tick, .sleepCheckWakeup, .resume 0]

theorem init_oneRunning : oneRunning.Init := ⟨fun _ => ⟨rfl, rfl⟩, rfl⟩

theorem timeouts_not_early_sleepRun :
    ∃ s, Lib.run (TimedSys.step ⟨100, 1⟩) oneRunning (sleepRun 10) = some s ∧
    s.log = [⟨⟨.sleep, 10, 0, true, some .timer⟩, 1, false⟩] ∧ TimeoutsOk ⟨100, 1⟩ s := by
  refine ⟨_, rfl, rfl,
    timeouts_not_early (Lib.Reach.of_run (sleepRun 10) (.init init_oneRunning) ?_ rfl)⟩
  simp [sleepRun, TimedFits]

/-- A sleep of 42949663 ms ends in the next tick, for its number of ticks wraps. -/
theorem sleep_ends_early : ∃ s : TimedSys Unit (Fin 1),
    Lib.Reach (TimedSys.step ⟨100, 1⟩) TimedSys.Init (fun _ _ => True) s ∧
    ¬ TimeoutsOk ⟨100, 1⟩ s := by
  refine ⟨_, .of_run (sleepRun 42949663) (.init init_oneRunning) (fun _ _ _ => trivial) rfl,
    fun h => ?_⟩
  exact absurd (h.lasts _ (List.mem_singleton_self _) rfl) (by decide)

end Xnix
