import Xnix.Sync

/-!
# Wakeups of mutexes and semaphores

A thread that finds an object taken drops the guard and only then joins the blocked list. If the
object is released and its waiters woken in between, nobody wakes the thread again
(`unlocked_with_sleeper`). Where no release wakes while a thread is on its way to `sched_block`, an
object that is free and still has somebody on the way to sleep has a release in progress
(`Attended`).
-/

namespace Xnix

open Function Option SyncObject SyncSys

variable {κ Tid : Type} {o : κ} {init : κ → Option ℕ} {s : SyncSys κ Tid} {t : Tid}
  {ob' : SyncObject Tid} {ob : SyncObject Tid}

def SyncThread.waitsFor (th : SyncThread κ) (o : κ) : Prop :=
  th.pc = .trying o ∨ th.pc = .registering o ∨ th.pc = .asleep o

/-- The object is free, somebody waits for it, all who do are on the blocked list, and no release is
in progress. -/
structure LostWakeup (s : SyncSys κ Tid) (o : κ) : Prop where
  free : (s.obj o).free = true
  waiter : ∃ t, (s.thr t).waitsFor o
  blocked : ∀ t, (s.thr t).waitsFor o → (s.thr t).pc = .asleep o ∧ (s.thr t).sched.run = .blocked
  quiet : ∀ t, (s.thr t).pc ≠ .waking o

/-- At most one thread is inside a mutex, a semaphore was taken at most as often as it was put, and
no wakeup is lost. -/
structure SyncSound (init : κ → Option ℕ) (s : SyncSys κ Tid) : Prop where
  exclusive : ∀ o, init o = none → ∀ t u, s.inside o t = true → s.inside o u = true → t = u
  bounded : ∀ o n, init o = some n → s.downs o ≤ n + s.ups o
  noneLost : ∀ o, ¬ LostWakeup s o

/-- A release wakes only while no thread is between the guard and `sched_block`, and a mutex is
unlocked by a thread that is inside. -/
structure SyncCalm (s : SyncSys κ Tid) (a : SyncAction κ Tid) : Prop where
  wake : ∀ t o, a = .wake t → (s.thr t).pc = .waking o → ∀ u, (s.thr u).pc ≠ .registering o
  unlock : ∀ t o, a = .release t o → (s.obj o).isMutex = true → s.inside o t = true

section Accounts
variable {init : Option ℕ} {ins : Tid → Bool} {d u : ℕ}

def SyncObject.Accounts (init : Option ℕ) (ins : Tid → Bool) (d u : ℕ) : SyncObject Tid → Prop
  | .mutex m => init = none ∧ ∀ t, ins t = true → m.locked = true ∧ m.owner = some t
  | .semaphore x => ∃ n, init = some n ∧ 0 ≤ x.count ∧ d + x.count = n + u

theorem acquire_free (h : ob.acquire t = some ob') : ob.free = true := by
  cases ob with
  | mutex m =>
    simp only [acquire, mutexLock, map_eq_some_iff, ite_none_left_eq_some]
      at h
    obtain ⟨-, ⟨hm, -⟩, -⟩ := h
    simpa [free] using hm
  | semaphore x =>
    simp only [acquire, semaphoreDown, map_eq_some_iff, ite_none_left_eq_some] at h
    obtain ⟨-, ⟨hx, -⟩, -⟩ := h
    simpa [free] using hx

theorem acquire_eq_none (h : ob.acquire t = none) : ob.free = false := by
  cases ob with
  | mutex m => simpa [acquire, mutexLock, free] using h
  | semaphore x => simpa [acquire, semaphoreDown, free] using h

variable [DecidableEq Tid]

theorem SyncObject.Accounts.acquire (h : ob.Accounts init ins d u)
    (ha : ob.acquire t = some ob') :
    ob'.Accounts init (update ins t true) (d + 1) u := by
  cases ob with
  | mutex m =>
    simp only [acquire, mutexLock, map_eq_some_iff, ite_none_left_eq_some, some.injEq] at ha
    obtain ⟨-, ⟨hm, rfl⟩, rfl⟩ := ha
    refine ⟨h.1, fun v hv => ⟨rfl, ?_⟩⟩
    by_cases hvt : v = t
    · rw [hvt]
    · rw [update_of_ne hvt] at hv
      exact absurd (h.2 v hv).1 hm
  | semaphore x =>
    simp only [acquire, semaphoreDown, map_eq_some_iff, ite_none_left_eq_some, some.injEq] at ha
    obtain ⟨-, ⟨hx, rfl⟩, rfl⟩ := ha
    obtain ⟨n, hn, -, hsum⟩ := h
    refine ⟨n, hn, ?_, ?_⟩
    · show 0 ≤ x.count - 1
      omega
    · show ((d + 1 : ℕ) : ℤ) + (x.count - 1) = n + u
      omega

theorem SyncObject.Accounts.release (h : ob.Accounts init ins d u)
    (ht : ob.isMutex = true → ins t = true) :
    ob.release.Accounts init (update ins t false) d (u + 1) := by
  cases ob with
  | mutex m =>
    refine ⟨h.1, fun v hv => ?_⟩
    by_cases hvt : v = t
    · rw [hvt, update_self] at hv
      cases hv
    · rw [update_of_ne hvt] at hv
      have howner := (h.2 v hv).2.symm.trans (h.2 t (ht rfl)).2
      exact absurd (some.inj howner) hvt
  | semaphore x =>
    obtain ⟨n, hn, hpos, hsum⟩ := h
    refine ⟨n, hn, ?_, ?_⟩
    · show 0 ≤ x.count + 1
      omega
    · show (d : ℤ) + (x.count + 1) = n + ((u + 1 : ℕ) : ℤ)
      omega

end Accounts

section Attended
def SyncThread.pressing (th : SyncThread κ) (o : κ) : Prop :=
  th.pc = .registering o ∨ (th.pc = .asleep o ∧ th.sched.run = .blocked)

/-- A free object for which somebody is on the way to sleep has a release in progress. -/
def Attended (s : SyncSys κ Tid) : Prop :=
  ∀ o t, (s.thr t).pressing o → (s.obj o).free = true → ∃ u, (s.thr u).pc = .waking o

theorem Attended.not_lost (h : Attended s) (o : κ) : ¬ LostWakeup s o := by
  intro hlost
  obtain ⟨t, ht⟩ := hlost.waiter
  obtain ⟨u, hu⟩ := h o t (.inr (hlost.blocked t ht)) hlost.free
  exact hlost.quiet u hu

variable [DecidableEq Tid]

theorem Attended.setThr {v : SyncThread κ} (h : Attended s)
    (hpress : ∀ o, v.pressing o → (s.thr t).pressing o ∨ (s.obj o).free = false)
    (hwake : ∀ o, (s.thr t).pc = .waking o → v.pc = .waking o) : Attended (s.setThr t v) := by
  intro o u hu hfree
  have hold : (s.thr u).pressing o := by
    by_cases hut : u = t
    · subst hut
      rw [setThr_self] at hu
      rcases hpress o hu with hp | hp
      · exact hp
      · exact absurd hfree (by simpa [SyncSys.setThr] using hp)
    · rwa [s.setThr_of_ne t v hut] at hu
  obtain ⟨w, hw⟩ := h o u hold hfree
  refine ⟨w, ?_⟩
  by_cases hwt : w = t
  · subst hwt
    rw [setThr_self]
    exact hwake o hw
  · rwa [s.setThr_of_ne t v hwt]

variable [DecidableEq κ]

theorem Attended.take {ins : κ → Tid → Bool} {d : κ → ℕ}
    (h : Attended s) (hpc : (s.thr t).pc = .trying o) (hfree : (s.obj o).free = true) :
    Attended { s.setThr t { s.thr t with pc := .user } with
      obj := update s.obj o ob, inside := ins, downs := d } := by
  have hset : Attended (s.setThr t { s.thr t with pc := .user }) := by
    refine h.setThr (fun o' hp => ?_) (fun o' hw => ?_)
    · rcases hp with hp | ⟨hp, -⟩ <;> cases hp
    · rw [hpc] at hw
      cases hw
  intro o' u hu hfree'
  refine hset o' u hu ?_
  by_cases ho : o' = o
  · rw [ho]
    exact hfree
  · simpa [update_of_ne ho, SyncSys.setThr] using hfree'

theorem Attended.release (h : Attended s) (hpc : (s.thr t).pc = .user) :
    Attended (s.release t o) := by
  have hset : Attended (s.setThr t { s.thr t with pc := .waking o }) := by
    refine h.setThr (fun o' hp => ?_) (fun o' hw => ?_)
    · rcases hp with hp | ⟨hp, -⟩ <;> cases hp
    · rw [hpc] at hw
      cases hw
  intro o' u hu hfree
  by_cases ho : o' = o
  · exact ⟨t, by simp [SyncSys.release, SyncSys.setThr, ho]⟩
  · refine hset o' u hu ?_
    simpa [SyncSys.release, SyncSys.setThr, update_of_ne ho] using hfree

theorem wake_thr_self (t : Tid) (o : κ) :
    (s.wake t o).thr t = { s.thr t with pc := .user } := if_pos rfl

theorem wake_pc_of_ne {u : Tid} (o : κ) (h : u ≠ t) : ((s.wake t o).thr u).pc = (s.thr u).pc := by
  simp only [wake, if_neg h]
  split <;> rfl

theorem wake_pressing {u : Tid} {o' : κ} (h : ((s.wake t o).thr u).pressing o') :
    u ≠ t ∧ (s.thr u).pressing o' ∧ (o' = o → (s.thr u).pc = .registering o) := by
  have hut : u ≠ t := by
    rintro rfl
    rw [wake_thr_self] at h
    rcases h with h | ⟨h, -⟩ <;> cases h
  refine ⟨hut, ?_⟩
  rw [SyncThread.pressing, wake_pc_of_ne o hut] at h
  rcases h with h | ⟨hpc, hrun⟩
  · exact ⟨.inl h, fun ho => ho ▸ h⟩
  · simp only [wake, if_neg hut] at hrun
    split at hrun
    · exact absurd hrun (release_run_ne_blocked _)
    · rename_i hne
      exact ⟨.inr ⟨hpc, hrun⟩, fun ho => absurd (ho ▸ hpc) hne⟩

theorem Attended.wake (h : Attended s) (hpc : (s.thr t).pc = .waking o)
    (hcalm : ∀ u, (s.thr u).pc ≠ .registering o) : Attended (s.wake t o) := by
  intro o' u hu hfree
  obtain ⟨-, hold, hreg⟩ := wake_pressing hu
  have ho : o' ≠ o := fun ho => hcalm u (hreg ho)
  obtain ⟨w, hw⟩ := h o' u hold hfree
  have hwt : w ≠ t := by
    rintro rfl
    rw [hpc] at hw
    exact ho (SyncPc.waking.inj hw).symm
  exact ⟨w, by rwa [wake_pc_of_ne o hwt]⟩

end Attended

section Steps
variable {s s' : SyncSys κ Tid}

/-- Counts balance the calls, and no waiter is forgotten. -/
structure SyncInv (init : κ → Option ℕ) (s : SyncSys κ Tid) : Prop where
  accounts : ∀ o, (s.obj o).Accounts (init o) (s.inside o) (s.downs o) (s.ups o)
  attended : Attended s

theorem SyncInv.of_init (h : s.Init init) : SyncInv init s where
  accounts o := by
    rw [h.obj, h.downs, h.ups, show s.inside o = fun _ => false from funext (h.inside o)]
    cases hi : init o with
    | none => exact ⟨rfl, fun t ht => by cases ht⟩
    | some n => exact ⟨n, rfl, Int.natCast_nonneg n, by simp⟩
  attended o t hp _ := by
    rcases hp with hp | ⟨hp, -⟩ <;> rw [(h.thr t).1] at hp <;> cases hp

theorem SyncInv.sound (h : SyncInv init s) : SyncSound init s where
  exclusive o ho t u ht hu := by
    have hacc := h.accounts o
    revert hacc
    cases s.obj o with
    | mutex m =>
      intro hacc
      exact some.inj ((hacc.2 t ht).2.symm.trans (hacc.2 u hu).2)
    | semaphore x =>
      rintro ⟨n, hn, -⟩
      rw [ho] at hn
      cases hn
  bounded o n ho := by
    have hacc := h.accounts o
    revert hacc
    cases s.obj o with
    | mutex m =>
      rintro ⟨hn, -⟩
      rw [ho] at hn
      cases hn
    | semaphore x =>
      rintro ⟨k, hk, hpos, hsum⟩
      obtain rfl := some.inj (ho.symm.trans hk)
      omega
  noneLost := h.attended.not_lost

variable [DecidableEq Tid]

theorem SyncInv.setThr {v : SyncThread κ} (h : SyncInv init s)
    (hpress : ∀ o, v.pressing o → (s.thr t).pressing o ∨ (s.obj o).free = false)
    (hwake : ∀ o, (s.thr t).pc = .waking o → v.pc = .waking o) : SyncInv init (s.setThr t v) :=
  ⟨h.accounts, h.attended.setThr hpress hwake⟩

theorem SyncInv.register (h : SyncInv init s)
    (hpc : (s.thr t).pc = .registering o) : SyncInv init (s.register t o) := by
  refine h.setThr (fun o' hp => .inl (.inl ?_)) (fun o' hw => ?_)
  · rcases hp with hp | ⟨hp, -⟩
    · simp only at hp
      split at hp <;> cases hp
    · simp only at hp
      split at hp
      · cases hp
      · rw [hpc, SyncPc.asleep.inj hp]
  · rw [hpc] at hw
    cases hw

theorem SyncInv.poke (h : SyncInv init s) (u : Tid) :
    SyncInv init (s.setThr u { s.thr u with sched := (s.thr u).sched.wakeup }) := by
  refine h.setThr (fun o hp => .inl ?_) (fun o hw => hw)
  rcases hp with hp | ⟨-, hrun⟩
  · exact .inl hp
  · exact absurd hrun (wakeup_run_ne_blocked _)

variable [DecidableEq κ]

theorem SyncInv.attempt (h : SyncInv init s) (hpc : (s.thr t).pc = .trying o) :
    SyncInv init (s.attempt t o) := by
  unfold SyncSys.attempt
  split
  · rename_i ob hob
    refine ⟨fun o' => ?_, h.attended.take hpc (acquire_free hob)⟩
    by_cases ho : o' = o
    · subst ho
      simpa [SyncSys.setThr] using (h.accounts o').acquire hob
    · simpa [SyncSys.setThr, update_of_ne ho] using h.accounts o'
  · rename_i hnone
    refine h.setThr (fun o' hp => ?_) (fun o' hw => ?_)
    · rcases hp with hp | ⟨hp, -⟩
      · exact .inr (SyncPc.registering.inj hp ▸ acquire_eq_none hnone)
      · cases hp
    · rw [hpc] at hw
      cases hw

theorem SyncInv.release (h : SyncInv init s) (hpc : (s.thr t).pc = .user)
    (hin : (s.obj o).isMutex = true → s.inside o t = true) : SyncInv init (s.release t o) := by
  refine ⟨fun o' => ?_, h.attended.release hpc⟩
  by_cases ho : o' = o
  · subst ho
    simpa [SyncSys.release, SyncSys.setThr] using (h.accounts o').release hin
  · simpa [SyncSys.release, SyncSys.setThr, update_of_ne ho] using h.accounts o'

theorem SyncInv.step {a : SyncAction κ Tid} (h : SyncInv init s) (hc : SyncCalm s a)
    (hs : s.step a = some s') : SyncInv init s' := by
  cases a with
  | acquire t o =>
    simp only [SyncSys.step] at hs
    split at hs <;> cases hs
    · rename_i hpc
      refine h.setThr (fun o' hp => ?_) (fun o' hw => ?_)
      · rcases hp with hp | ⟨hp, -⟩ <;> cases hp
      · rw [hpc] at hw
        cases hw
    · exact h
  | attempt t =>
    simp only [SyncSys.step] at hs
    split at hs <;> cases hs
    · exact h.attempt ‹_›
    · exact h
  | register t =>
    simp only [SyncSys.step] at hs
    split at hs <;> cases hs
    · exact h.register ‹_›
    · exact h
  | resume t =>
    simp only [SyncSys.step] at hs
    split at hs
    · rename_i hpc
      split at hs <;> cases hs
      · refine h.setThr (fun o' hp => ?_) (fun o' hw => ?_)
        · rcases hp with hp | ⟨hp, -⟩ <;> cases hp
        · rw [hpc] at hw
          cases hw
      · exact h
    · cases hs
      exact h
  | release t o =>
    simp only [SyncSys.step] at hs
    split at hs <;> cases hs
    · exact h.release ‹_› (hc.unlock t o rfl)
    · exact h
  | wake t =>
    simp only [SyncSys.step] at hs
    split at hs <;> cases hs
    · rename_i hpc
      exact ⟨h.accounts, h.attended.wake hpc (hc.wake t _ rfl hpc)⟩
    · exact h
  | poke u =>
    cases hs
    exact h.poke u

end Steps

section Results
variable [DecidableEq κ] [DecidableEq Tid]

/-- In every calm run mutexes exclude, semaphores count, and no wakeup is lost. -/
theorem sync_sound
    (h : Lib.Reach SyncSys.step (SyncSys.Init init) SyncCalm s) : SyncSound init s :=
  SyncInv.sound (h.invariant (fun _ => .of_init) fun _ _ _ hi hc hs => hi.step hc hs)

end Results

def oneMutex : SyncSys Unit (Fin 2) := initSync fun _ => none

def handOverRun : List (SyncAction Unit (Fin 2)) :=
  [.acquire 0 (), .attempt 0, .acquire 1 (), .attempt 1, .register 1, .release 0 (), .wake 0]

def syncCalmCheck (s : SyncSys Unit (Fin 2)) : SyncAction Unit (Fin 2) → Bool
  | .wake t => decide ((s.thr t).pc = .waking () → ∀ u, (s.thr u).pc ≠ .registering ())
  | .release t _ => s.inside () t
  | _ => true

theorem syncCalm_of_check (s : SyncSys Unit (Fin 2)) (a : SyncAction Unit (Fin 2))
    (h : syncCalmCheck s a = true) : SyncCalm s a := by
  constructor
  · rintro t ⟨⟩ rfl
    exact of_decide_eq_true h
  · rintro t ⟨⟩ rfl _
    exact h

theorem sync_sound_handOverRun : ∃ s, Lib.run SyncSys.step oneMutex handOverRun = some s ∧
    (s.thr 1).sched.run = .woken ∧ SyncSound (fun _ => none) s := by
  refine Lib.Reach.witness _ syncCalm_of_check (init_initSync _) ?_ ?_ fun _ => sync_sound
  · decide
  · decide

/-- The mutex is unlocked after the second thread has seen it locked and before it is on the blocked
list: it sleeps for a free mutex. -/
theorem unlocked_with_sleeper : ∃ s : SyncSys Unit (Fin 2),
    Lib.Reach SyncSys.step (SyncSys.Init fun _ => none) (fun _ _ => True) s ∧ LostWakeup s () := by
  obtain ⟨s, hs, hfree, h0, h1⟩ :=
    Lib.Reach.exists_run SyncSys.step (P := fun s => (s.obj ()).free = true ∧
    (s.thr 0).pc = .user ∧ s.thr (1 : Fin 2) = ⟨.asleep (), ⟨.blocked, false, false⟩⟩)
    [.acquire 0 (), .attempt 0, .acquire 1 (), .attempt 1, .release 0 (), .wake 0, .register 1]
    (init_initSync fun _ => none) (by decide)
  refine ⟨s, hs, hfree, ⟨1, .inr (.inr (by rw [h1]))⟩, Fin.forall_fin_two.mpr ⟨?_, ?_⟩,
    Fin.forall_fin_two.mpr ⟨?_, ?_⟩⟩
  · simp [SyncThread.waitsFor, h0]
  · simp [h1]
  · simp [h0]
  · simp [h1]

end Xnix
