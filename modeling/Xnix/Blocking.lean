import Mathlib.Data.Fintype.BigOperators

/-!
# Blocking at lock granularity

`kernel/sched/blocked.c` as other CPUs see it. `sched_block`, `sched_wakeup_thread`, `sched_wakeup`
and the timer each work under `sched_lock`, so each is one step on the threads they touch. A thread
is on `blocked_list` exactly while it is `blocked`.
-/

namespace Xnix

inductive RunState
  | running | blocked | woken
  deriving DecidableEq

/-- The fields of `struct thread` that blocking uses. `expired` says that the timer cleared
`wakeup_tick`. -/
structure Waiter where
  run : RunState
  pendingWakeup : Bool
  expired : Bool
  deriving DecidableEq

def Waiter.fresh : Waiter := ⟨.running, false, false⟩

/-- `sched_block` and `sched_block_timeout` up to `schedule`: with a wakeup pending the thread goes
on at once. -/
def Waiter.block (w : Waiter) : Waiter :=
  if w.pendingWakeup then { w with pendingWakeup := false } else ⟨.blocked, false, false⟩

/-- `sched_wakeup_thread`. -/
def Waiter.wakeup (w : Waiter) : Waiter :=
  { w with pendingWakeup := true, run := if w.run = .blocked then .woken else w.run }

/-- `sched_wakeup`, for a thread on the channel: it does not set `pending_wakeup`. -/
def Waiter.release (w : Waiter) : Waiter :=
  { w with run := if w.run = .blocked then .woken else w.run }

/-- `sleep_check_wakeup`, for a thread whose time has come. -/
def Waiter.expire (w : Waiter) : Waiter :=
  if w.run = .blocked then { w with run := .woken, expired := true } else w

/-- `schedule` returns to the thread. -/
def Waiter.resume (_ : Waiter) : Waiter := ⟨.running, false, false⟩

section Fields
variable (w : Waiter)

theorem block_of_not_pending (h : w.pendingWakeup = false) : w.block = ⟨.blocked, false, false⟩ :=
  if_neg (by rw [h]; exact Bool.false_ne_true)

@[simp] theorem wakeup_run_ne_blocked : w.wakeup.run ≠ .blocked := by
  unfold Waiter.wakeup
  simp only
  split
  · nofun
  · assumption

@[simp] theorem release_run_ne_blocked : w.release.run ≠ .blocked := by
  unfold Waiter.release
  simp only
  split
  · nofun
  · assumption

@[simp] theorem wakeup_pendingWakeup : w.wakeup.pendingWakeup = true := rfl

@[simp] theorem resume_run : w.resume.run = .running := rfl

end Fields

/-- A field of the entries of a table that a change of one entry leaves as it is. -/
theorem update_field {ι β α : Type} [DecidableEq ι] (g : β → α) {P P' : ι → β} {p : ι} {b : β}
    (hP : P' = Function.update P p b) (hg : g b = g (P p)) (c : ι) : g (P' c) = g (P c) := by
  rw [hP]
  by_cases hc : c = p
  · rw [hc, Function.update_self, hg]
  · rw [Function.update_of_ne hc]

theorem update_apart {ι β : Type} [DecidableEq ι] {P P' : ι → β} {p : ι} {b : β}
    (hP : P' = Function.update P p b) : P' p = b ∧ ∀ c, c ≠ p → P' c = P c := by
  subst hP
  exact ⟨Function.update_self .., fun c hc => Function.update_of_ne hc ..⟩

/-- What holds of an entry after the change of one of which it does not hold. -/
theorem of_update {ι β : Type} [DecidableEq ι] (Φ : β → Prop) {P P' : ι → β} {p c : ι} {b : β}
    (hP : P' = Function.update P p b) (h : Φ (P' c)) (hb : ¬ Φ b) : c ≠ p ∧ Φ (P c) := by
  have hc : c ≠ p := by
    rintro rfl
    rw [hP, Function.update_self] at h
    exact hb h
  rw [hP, Function.update_of_ne hc] at h
  exact ⟨hc, h⟩

theorem update_of {ι β : Type} [DecidableEq ι] (Φ : β → Prop) {P P' : ι → β} {p c : ι} {b : β}
    (hP : P' = Function.update P p b) (h : Φ (P c)) (hp : ¬ Φ (P p)) : Φ (P' c) := by
  rw [hP, Function.update_of_ne]
  · exact h
  · rintro rfl
    exact hp h

end Xnix
