import Xnix.SignalMachine

/-!
# Stopped until continued

`process_kill_one` wakes the first thread of its process. If that thread runs, the wakeup stays
pending and the `sched_block` of the stop returns at once (`stopped_thread_runs`);
`process_continue` wakes only the first thread. Where stops are handled by the first thread with no
wakeup pending, and nothing else wakes a stopped thread, it is held in `process_stop_current` until
its process is continued (`ThreadOk`).
-/

namespace Xnix

open Function Option

variable {Pid Tid : Type} {s s' : SigSys Pid Tid} {p : Pid} {t : Tid}

section Statements
variable [DecidableEq Pid] [DecidableEq Tid]

/-- Who handled a stop signal stays in `process_stop_current` until `SIGCONT` or the end of the
process; who is blocked there was not continued. -/
structure StopSound (s : SigSys Pid Tid) : Prop where
  held : ∀ t, s.heldBack t = true → s.InStop t
  released : ∀ t, s.pc t = .asleep → (s.sched t).run = .blocked → s.notContinued t = true

variable (s : SigSys Pid Tid) (t : Tid)

/-- `process_check_signals` of the thread calls `process_stop_current`. -/
def SigSys.HandlesStop : Prop :=
  s.pc t = .user ∧ (stopSig (s.toHandle (s.owner t))).isSome

/-- `process_check_signals` of the thread stops or ends the process. -/
def SigSys.HandlesSignal : Prop :=
  s.HandlesStop t ∨ s.pc t = .user ∧ (fatalSig (s.toHandle (s.owner t))).isSome

/-- The thread is in `process_stop_current` and its process has not been continued. -/
def SigSys.AtStop : Prop :=
  s.InStop t ∧ (s.proc (s.owner t)).state = .stopped

instance (s : SigSys Pid Tid) (t : Tid) : Decidable (s.HandlesStop t) :=
  inferInstanceAs (Decidable (_ ∧ _))

instance (s : SigSys Pid Tid) (t : Tid) : Decidable (s.HandlesSignal t) :=
  inferInstanceAs (Decidable (_ ∨ _))

instance (s : SigSys Pid Tid) (t : Tid) : Decidable (s.InStop t) :=
    inferInstanceAs (Decidable (_ ∨ _))

instance (s : SigSys Pid Tid) (t : Tid) : Decidable (s.AtStop t) :=
    inferInstanceAs (Decidable (_ ∧ _))

def SigSys.wakes : SigAction Pid Tid → Option Tid
  | .kill p sig =>
    if sig = sigCont ∧ (s.proc p).state = .stopped then none else (s.proc p).threads.head?
  | .check t => if s.HandlesSignal t then s.parentWaiter (s.owner t) else none
  | .exit t => s.parentWaiter (s.owner t)
  | .poke u => some u
  | _ => none

/-- A stop signal is handled by the first thread of the process, with no wakeup pending; only
`process_continue` wakes a thread at a stop; and the thread list does not change meanwhile. -/
structure StopCalm (s : SigSys Pid Tid) (a : SigAction Pid Tid) : Prop where
  first : ∀ t, a = .check t → s.HandlesStop t →
    (s.proc (s.owner t)).threads.head? = some t ∧ (s.sched t).pendingWakeup = false
  wake : ∀ u, s.wakes a = some u → ¬ s.AtStop u
  threads : ∀ t u, a = .addThread t ∨ a = .removeThread t → s.InStop u → s.owner u ≠ s.owner t

end Statements

section Invariant
variable [DecidableEq Tid]

theorem SigSys.wakeup_sched (s : SigSys Pid Tid) (o : Option Tid)
    (hw : ∀ u, o = some u → ¬ s.AtStop u)
    (t : Tid) : (s.wakeup o).sched t = s.sched t ∨ (s.wakeup o).sched t = (s.sched t).wakeup ∧
    ¬ s.AtStop t := by
  by_cases ht : o = some t
  · exact .inr ⟨if_pos ht, hw t ht⟩
  · exact .inl (if_neg ht)

variable [DecidableEq Pid]

structure Halted (s : SigSys Pid Tid) (t : Tid) : Prop where
  state : (s.proc (s.owner t)).state = .stopped
  pending : (s.sched t).pendingWakeup = false
  blocked : s.pc t = .asleep → (s.sched t).run = .blocked
  notContinued : s.notContinued t = true

structure CalledBack (s : SigSys Pid Tid) (t : Tid) : Prop where
  free : s.heldBack t = false
  pending : s.pc t = .stopping → (s.sched t).pendingWakeup = true
  woken : s.pc t = .asleep → (s.sched t).run ≠ .blocked

structure ThreadOk (s : SigSys Pid Tid) (t : Tid) : Prop where
  outside : ¬ s.InStop t → s.heldBack t = false
  first : s.InStop t → (s.proc (s.owner t)).threads.head? = some t
  inside : s.InStop t → Halted s t ∨ CalledBack s t

structure SigInv (s : SigSys Pid Tid) : Prop where
  owners : ∀ p, ∀ t ∈ (s.proc p).threads, s.owner t = p
  parent : ∀ p, (s.proc p).parent ≠ some p
  threads : ∀ t, ThreadOk s t

theorem SigInv.of_init (h : s.Init) : SigInv s := by
  have hout : ∀ t, ¬ s.InStop t := fun t ht => by simp [SigSys.InStop, h.pc] at ht
  refine ⟨h.owners, h.parent, fun t => ⟨fun _ => ?_, fun ht => absurd ht (hout t),
    fun ht => absurd ht (hout t)⟩⟩
  rw [SigSys.heldBack, h.log]
  rfl

theorem SigInv.sound (h : SigInv s) : StopSound s := by
  refine ⟨fun t ht => ?_, fun t hpc hrun => ?_⟩
  · by_contra hout
    rw [(h.threads t).outside hout] at ht
    cases ht
  · rcases (h.threads t).inside (.inr hpc) with hh | hc
    · exact hh.notContinued
    · exact absurd hrun (hc.woken hpc)

variable {e : SigEvent Pid Tid}

/-- The later state holds the thread back only if the earlier one does, and does not continue it. -/
structure LogKeeps (s s' : SigSys Pid Tid) (t : Tid) : Prop where
  heldBack : s.heldBack t = false → s'.heldBack t = false
  notContinued : s.notContinued t = true → s'.notContinued t = true

theorem LogKeeps.of_eq (howner : s'.owner = s.owner) (hlog : s'.log = s.log) : LogKeeps s s' t := by
  constructor
  · intro h
    rw [SigSys.heldBack, howner, hlog]
    exact h
  · intro h
    rw [SigSys.notContinued, howner, hlog]
    exact h

theorem LogKeeps.cons (howner : s'.owner = s.owner) (hlog : s'.log = e :: s.log)
    (he : e ≠ .stopped t) (hc : e ≠ .continued (s.owner t)) : LogKeeps s s' t := by
  constructor
  · intro h
    rw [SigSys.heldBack, howner, hlog, stoppedSince, if_neg he, Bool.and_eq_false_iff]
    exact .inr h
  · intro h
    rw [SigSys.notContinued, howner, hlog, stoppedSince, if_neg he, Bool.and_eq_true]
    exact ⟨by simpa using hc, h⟩

theorem LogKeeps.trans {s'' : SigSys Pid Tid} (h : LogKeeps s s' t) (h' : LogKeeps s' s'' t) :
    LogKeeps s s'' t :=
  ⟨fun hb => h'.heldBack (h.heldBack hb), fun hc => h'.notContinued (h.notContinued hc)⟩

end Invariant

section Frames

def SigProc.core (pr : SigProc Pid Tid) : ProcState × Option Pid × List Tid :=
  (pr.state, pr.parent, pr.threads)

theorem SigProc.core_eq {a b : SigProc Pid Tid} (h : a.core = b.core) :
    a.state = b.state ∧ a.parent = b.parent ∧ a.threads = b.threads := by
  simpa only [SigProc.core, Prod.mk.injEq] using h

theorem SigSys.InStop.congr (hpc : s'.pc t = s.pc t) : s'.InStop t ↔ s.InStop t := by
  rw [SigSys.InStop, SigSys.InStop, hpc]

variable [DecidableEq Pid]

theorem SigSys.modify_field {α : Type} (g : SigProc Pid Tid → α)
    {f : SigProc Pid Tid → SigProc Pid Tid}
    (hg : g (f (s.proc p)) = g (s.proc p)) (c : Pid) : g ((s.modify p f).proc c) = g (s.proc c) :=
  update_field g rfl hg c

variable [DecidableEq Tid]

theorem ThreadOk.of_outside (hout : ¬ s.InStop t) (hb : s.heldBack t = false) : ThreadOk s t :=
  ⟨fun _ => hb, fun h => absurd h hout, fun h => absurd h hout⟩

theorem ThreadOk.frame (h : ThreadOk s t) (howner : s'.owner = s.owner) (hpc : s'.pc t = s.pc t)
    (hproc : (s'.proc (s.owner t)).core = (s.proc (s.owner t)).core)
    (hw : s'.sched t = s.sched t ∨ s'.sched t = (s.sched t).wakeup ∧ ¬ s.AtStop t)
    (hlog : LogKeeps s s' t) : ThreadOk s' t := by
  obtain ⟨hst, -, hth⟩ := SigProc.core_eq hproc
  refine ⟨fun hout => ?_, fun hin => ?_, fun hin => ?_⟩
  · rw [SigSys.InStop.congr hpc] at hout
    exact hlog.heldBack (h.outside hout)
  · rw [SigSys.InStop.congr hpc] at hin
    rw [howner, hth]
    exact h.first hin
  · rw [SigSys.InStop.congr hpc] at hin
    rcases h.inside hin with hh | hc
    · rcases hw with hw | ⟨-, hstop⟩
      · exact .inl ⟨by rw [howner, hst]; exact hh.state, by rw [hw]; exact hh.pending,
          by rw [hpc, hw]; exact hh.blocked, hlog.notContinued hh.notContinued⟩
      · exact absurd ⟨hin, hh.state⟩ hstop
    · refine .inr ⟨hlog.heldBack hc.free, ?_, ?_⟩ <;> rw [hpc]
      · rcases hw with hw | ⟨hw, -⟩ <;> rw [hw]
        · exact hc.pending
        · exact fun _ => rfl
      · rcases hw with hw | ⟨hw, -⟩ <;> rw [hw]
        · exact hc.woken
        · exact fun _ => wakeup_run_ne_blocked _

theorem SigInv.frame (h : SigInv s) (howner : s'.owner = s.owner) (hpc : s'.pc = s.pc)
    (hproc : ∀ p, (s'.proc p).core = (s.proc p).core)
    (hw : ∀ t, s'.sched t = s.sched t ∨ s'.sched t = (s.sched t).wakeup ∧ ¬ s.AtStop t)
    (hlog : ∀ t, LogKeeps s s' t) : SigInv s' := by
  refine ⟨fun p => ?_, fun p => ?_, fun t => ?_⟩
  · rw [(SigProc.core_eq (hproc p)).2.2, howner]
    exact h.owners p
  · rw [(SigProc.core_eq (hproc p)).2.1]
    exact h.parent p
  · exact (h.threads t).frame howner (by rw [hpc]) (hproc _) (hw t) (hlog t)

theorem SigInv.move (h : SigInv s) (howner : s'.owner = s.owner) (hproc : s'.proc = s.proc)
    (hlog : s'.log = s.log) (hpc : ∀ u, u ≠ t → s'.pc u = s.pc u)
    (hsched : ∀ u, u ≠ t → s'.sched u = s.sched u) (ht : ThreadOk s' t) : SigInv s' := by
  refine ⟨by rw [hproc, howner]; exact h.owners, by rw [hproc]; exact h.parent, fun u => ?_⟩
  by_cases hu : u = t
  · exact hu ▸ ht
  · exact (h.threads u).frame howner (hpc u hu) (by rw [hproc]) (.inl (hsched u hu))
      (.of_eq howner hlog)

end Frames

section Signals
variable [DecidableEq Pid]

theorem parentWaiter_setPending (b : BitVec 32) (q : Pid) :
    (s.setPending p b).parentWaiter q = s.parentWaiter q := by
  have hparent :=
    SigSys.modify_field (s := s) (p := p) (f := fun pr => { pr with pendingSignals := b })
    SigProc.parent rfl
  have hchan := SigSys.modify_field (s := s) (p := p)
    (f := fun pr => { pr with pendingSignals := b }) SigProc.waitChan rfl
  have hthreads :=
    SigSys.modify_field (s := s) (p := p) (f := fun pr => { pr with pendingSignals := b })
    SigProc.threads rfl
  unfold SigSys.parentWaiter SigSys.setPending
  rw [hparent]
  congr 1
  funext r
  rw [hchan, hthreads]

theorem SigSys.AtStop.of_setPending {b : BitVec 32} (h : (s.setPending p b).AtStop t) :
  s.AtStop t := ⟨h.1, (SigSys.modify_field SigProc.state rfl _).symm.trans h.2⟩

variable [DecidableEq Tid] (h : SigInv s)
include h

theorem SigInv.setPending (b : BitVec 32) : SigInv (s.setPending p b) :=
  h.frame rfl rfl (SigSys.modify_field SigProc.core rfl) (fun _ => .inl rfl) fun _ => .of_eq rfl rfl

theorem SigInv.owner_parentWaiter {u : Tid} (hu : s.parentWaiter p = some u) : s.owner u ≠ p := by
  obtain ⟨q, hq, hu⟩ := bind_eq_some_iff.mp hu
  split at hu
  · rw [h.owners q u (List.mem_of_mem_head? hu)]
    rintro rfl
    exact h.parent q hq
  · cases hu

theorem SigInv.signal (sig : ℕ) (hw : ∀ u, (s.proc p).threads.head? = some u → ¬ s.AtStop u) :
    SigInv ((s.setPending p ((s.proc p).pendingSignals ||| sigmask sig)).wakeup
      (s.proc p).threads.head?) := by
  refine (h.setPending _).frame rfl rfl (fun _ => rfl) ?_ fun _ => .of_eq rfl rfl
  exact SigSys.wakeup_sched _ _ fun u hu hstop => hw u hu hstop.of_setPending

theorem SigInv.sigcont : SigInv (s.record (.sigcont p)) :=
    h.frame rfl rfl (fun _ => rfl) (fun _ => .inl rfl) fun _ =>
    .cons rfl rfl nofun nofun

theorem SigInv.processContinue : SigInv ((s.record (.sigcont p)).processContinue p) := by
  generalize hs' : (s.record (.sigcont p)).processContinue p = s'
  have howner : s'.owner = s.owner := by rw [← hs']; rfl
  have hpc : s'.pc = s.pc := by rw [← hs']; rfl
  have hproc : s'.proc = update s.proc p { s.proc p with
      state := .running, pendingSignals := dropSig (s.proc p).pendingSignals sigCont } := by
    rw [← hs']; rfl
  have hsched : ∀ t, s'.sched t =
      if (s.proc p).threads.head? = some t then (s.sched t).wakeup else s.sched t := by
    rw [← hs']; exact fun _ => rfl
  have hlog : s'.log = .continued p :: .sigcont p :: s.log := by rw [← hs']; rfl
  refine ⟨fun q => ?_, fun q => ?_, fun t => ?_⟩
  · rw [howner, update_field SigProc.threads hproc rfl q]
    exact h.owners q
  · rw [update_field SigProc.parent hproc rfl q]
    exact h.parent q
  by_cases ht : s.owner t = p
  · have hfree : s'.heldBack t = false := by
      rw [SigSys.heldBack, hlog, howner, ht]
      simp [stoppedSince]
    refine ⟨fun _ => hfree, fun hin => ?_, fun hin => .inr ⟨hfree, ?_, ?_⟩⟩
    · rw [howner, update_field SigProc.threads hproc rfl]
      exact (h.threads t).first ((SigSys.InStop.congr (by rw [hpc])).mp hin)
    all_goals
      intro _
      have hfirst := (h.threads t).first ((SigSys.InStop.congr (by rw [hpc])).mp hin)
      rw [ht] at hfirst
      rw [hsched, if_pos hfirst]
    · rfl
    · exact wakeup_run_ne_blocked _
  · have hne : (s.proc p).threads.head? ≠ some t :=
      fun hu => ht (h.owners p t (List.mem_of_mem_head? hu))
    have hsent : LogKeeps s (s.record (.sigcont p)) t := .cons rfl rfl nofun nofun
    refine (h.threads t).frame howner (by rw [hpc]) ?_ (.inl ?_) (hsent.trans ?_)
    · rw [hproc, update_of_ne ht]
    · rw [hsched, if_neg hne]
    · exact .cons howner hlog nofun fun hp => ht (SigEvent.continued.inj hp).symm

theorem SigInv.terminate (hw : ∀ u, s.parentWaiter p = some u → ¬ s.AtStop u) :
    SigInv (s.terminate p) := by
  generalize hs' : s.terminate p = s'
  have howner : s'.owner = s.owner := by rw [← hs']; rfl
  have hpc : ∀ t, s'.pc t = if s.owner t = p then .dead
    else s.pc t := by rw [← hs']; exact fun _ => rfl
  have hproc : s'.proc = update s.proc p { s.proc p with state := .zombie } := by
    rw [← hs']; rfl
  have hsched : s'.sched = (s.wakeup (s.parentWaiter p)).sched := by rw [← hs']; rfl
  have hlog : s'.log = .ended p :: s.log := by rw [← hs']; rfl
  refine ⟨fun q => ?_, fun q => ?_, fun t => ?_⟩
  · rw [howner, update_field SigProc.threads hproc rfl q]
    exact h.owners q
  · rw [update_field SigProc.parent hproc rfl q]
    exact h.parent q
  by_cases ht : s.owner t = p
  · refine .of_outside ?_ ?_
    · simp [SigSys.InStop, hpc, ht]
    · rw [SigSys.heldBack, hlog, howner, ht]
      simp [stoppedSince]
  · refine (h.threads t).frame howner (by rw [hpc, if_neg ht]) ?_ ?_ ?_
    · rw [hproc, update_of_ne ht]
    · rw [hsched]
      exact SigSys.wakeup_sched s _ hw t
    · exact .cons howner hlog nofun nofun

theorem SigInv.processStopCurrent (sig : ℕ) (hpc : s.pc t = .user)
    (hfirst : (s.proc (s.owner t)).threads.head? = some t)
    (hpend : (s.sched t).pendingWakeup = false)
    (hw : ∀ u, s.parentWaiter (s.owner t) = some u → ¬ s.AtStop u) :
    SigInv (s.processStopCurrent t sig) := by
  generalize hs' : s.processStopCurrent t sig = s'
  have howner : s'.owner = s.owner := by rw [← hs']; rfl
  have hpc' : s'.pc = update s.pc t .stopping := by rw [← hs']; rfl
  have hproc : s'.proc = update s.proc (s.owner t) { s.proc (s.owner t) with
      state := .stopped, pendingSignals := dropSig (s.proc (s.owner t)).pendingSignals sig } := by
    rw [← hs']; rfl
  have hsched : s'.sched = (s.wakeup (s.parentWaiter (s.owner t))).sched := by rw [← hs']; rfl
  have hlog : s'.log = .stopped t :: s.log := by rw [← hs']; rfl
  refine ⟨fun q => ?_, fun q => ?_, fun u => ?_⟩
  · rw [howner, update_field SigProc.threads hproc rfl q]
    exact h.owners q
  · rw [update_field SigProc.parent hproc rfl q]
    exact h.parent q
  by_cases hu : u = t
  · subst hu
    have hself : s'.pc u = .stopping := by rw [hpc', update_self]
    have hsame : s'.sched u = s.sched u := by
      rw [hsched]
      exact if_neg fun hwaiter => h.owner_parentWaiter hwaiter rfl
    refine ⟨fun hout => absurd (.inl hself) hout, fun _ => ?_, fun _ => .inl ⟨?_, ?_, ?_, ?_⟩⟩
    · rw [howner, update_field SigProc.threads hproc rfl]
      exact hfirst
    · rw [howner, hproc, update_self]
    · rw [hsame, hpend]
    · rw [hself]
      nofun
    · rw [SigSys.notContinued, hlog, stoppedSince, if_pos rfl]
  have hother : s'.pc u = s.pc u := by rw [hpc', update_of_ne hu]
  have hkeeps : LogKeeps s s' u :=
    .cons howner hlog (fun hut => hu (SigEvent.stopped.inj hut).symm) nofun
  by_cases ho : s.owner u = s.owner t
  · have hout : ¬ s.InStop u := by
      intro hin
      have hu' := (h.threads u).first hin
      rw [ho, hfirst] at hu'
      exact hu (some.inj hu').symm
    exact .of_outside (fun hin => hout ((SigSys.InStop.congr hother).mp hin))
      (hkeeps.heldBack ((h.threads u).outside hout))
  · refine (h.threads u).frame howner hother ?_ ?_ hkeeps
    · rw [hproc, update_of_ne ho]
    · rw [hsched]
      exact SigSys.wakeup_sched s _ hw u

theorem SigInv.check (hpc : s.pc t = .user) (hfirst : s.HandlesStop t →
      (s.proc (s.owner t)).threads.head? = some t ∧ (s.sched t).pendingWakeup = false)
    (hw : s.HandlesSignal t → ∀ u, s.parentWaiter (s.owner t) = some u → ¬ s.AtStop u) :
    SigInv (s.processCheckSignals t) := by
  unfold SigSys.processCheckSignals
  simp only
  cases hstop : stopSig (s.toHandle (s.owner t)) with
  | some sig =>
    have hhandles : s.HandlesStop t := ⟨hpc, by rw [hstop]; rfl⟩
    obtain ⟨hhead, hpend⟩ := hfirst hhandles
    refine (h.setPending _).processStopCurrent sig hpc ?_ hpend fun u hu hat => ?_
    · exact (SigSys.modify_field (List.head? ∘ SigProc.threads) rfl _).trans hhead
    · rw [parentWaiter_setPending] at hu
      exact hw (.inl hhandles) u hu hat.of_setPending
  | none =>
    cases hfatal : fatalSig (s.toHandle (s.owner t)) with
    | some sig =>
      refine (h.setPending _).terminate fun u hu hat => ?_
      rw [parentWaiter_setPending] at hu
      exact hw (.inr ⟨hpc, by rw [hfatal]; rfl⟩) u hu hat.of_setPending
    | none => exact h.setPending _

end Signals

section Threads
variable [DecidableEq Pid] [DecidableEq Tid]

theorem SigInv.block (h : SigInv s) (hpc : s.pc t = .stopping) : SigInv (s.block t .asleep) := by
  refine h.move rfl rfl rfl (fun u hu => update_of_ne hu ..)
    (fun u hu => update_of_ne hu ..) ?_
  have hin : s.InStop t := .inl hpc
  have hpc' : (s.block t .asleep).pc t = if (s.sched t).pendingWakeup then .user else .asleep :=
    update_self ..
  have hsched : (s.block t .asleep).sched t = (s.sched t).block := update_self ..
  rcases (h.threads t).inside hin with hh | hc
  · rw [hh.pending] at hpc'
    rw [block_of_not_pending _ hh.pending] at hsched
    have hinside : (s.block t .asleep).InStop t := .inr hpc'
    refine ⟨fun hout => absurd hinside hout, fun _ => (h.threads t).first hin,
      fun _ => .inl ⟨hh.state, ?_, fun _ => ?_, hh.notContinued⟩⟩ <;> rw [hsched]
  · rw [hc.pending hpc] at hpc'
    refine .of_outside (fun hin => ?_) hc.free
    simp [SigSys.InStop, hpc'] at hin

theorem SigInv.sleep (h : SigInv s) (hpc : s.pc t = .user) : SigInv (s.block t .waiting) := by
  refine h.move rfl rfl rfl (fun u hu => update_of_ne hu ..)
    (fun u hu => update_of_ne hu ..) ?_
  have hpc' : (s.block t .waiting).pc t = if (s.sched t).pendingWakeup then .user else .waiting :=
    update_self ..
  refine .of_outside (fun hin => ?_) ((h.threads t).outside ?_)
  · rw [SigSys.InStop, hpc'] at hin
    split at hin <;> simp at hin
  · simp [SigSys.InStop, hpc]

theorem SigInv.resume (h : SigInv s) (hrun : (s.sched t).run = .woken)
    (hpc : s.pc t = .asleep ∨ s.pc t = .waiting) : SigInv (s.resume t) := by
  refine h.move rfl rfl rfl (fun u hu => update_of_ne hu ..)
    (fun u hu => update_of_ne hu ..) ?_
  have hpc' : (s.resume t).pc t = .user := update_self ..
  have hfree : s.heldBack t = false := by
    rcases hpc with hpc | hpc
    · rcases (h.threads t).inside (.inr hpc) with hh | hc
      · have hblocked := hh.blocked hpc
        rw [hrun] at hblocked
        cases hblocked
      · exact hc.free
    · exact (h.threads t).outside (by simp [SigSys.InStop, hpc])
  exact .of_outside (by simp [SigSys.InStop, hpc']) hfree

theorem SigInv.setThreads (h : SigInv s) (f : List Tid → List Tid)
    (hf : ∀ u ∈ f (s.proc (s.owner t)).threads, s.owner u = s.owner t)
    (hout : ∀ u, s.InStop u → s.owner u ≠ s.owner t) :
    SigInv (s.modify (s.owner t) fun pr => { pr with threads := f pr.threads }) := by
  generalize hs' : (s.modify (s.owner t) fun pr => { pr with threads := f pr.threads }) = s'
  have howner : s'.owner = s.owner := by rw [← hs']; rfl
  have hpc : s'.pc = s.pc := by rw [← hs']; rfl
  have hproc : s'.proc = update s.proc (s.owner t) { s.proc (s.owner t) with
      threads := f (s.proc (s.owner t)).threads } := by rw [← hs']; rfl
  have hkeeps : ∀ u, LogKeeps s s' u := fun u => .of_eq howner (by rw [← hs']; rfl)
  refine ⟨fun q u hu => ?_, fun q => ?_, fun u => ?_⟩
  · rw [howner]
    by_cases hq : q = s.owner t
    · rw [hq, hproc, update_self] at hu
      rw [hq]
      exact hf u hu
    · rw [hproc, update_of_ne hq] at hu
      exact h.owners q u hu
  · rw [update_field SigProc.parent hproc rfl q]
    exact h.parent q
  by_cases hin : s.InStop u
  · refine (h.threads u).frame howner (by rw [hpc]) ?_ (.inl (by rw [← hs']; rfl)) (hkeeps u)
    rw [hproc, update_of_ne (hout u hin)]
  · exact .of_outside (fun hin' => hin ((SigSys.InStop.congr (by rw [hpc])).mp hin'))
      ((hkeeps u).heldBack ((h.threads u).outside hin))

end Threads

section Run
variable [DecidableEq Pid] [DecidableEq Tid]

theorem SigInv.kill (h : SigInv s) {sig : ℕ}
    (hw : ∀ u, s.wakes (.kill p sig) = some u → ¬ s.AtStop u) :
    SigInv ((if sig = sigCont then s.record (.sigcont p) else s).processKillOne p sig) := by
  by_cases hc : sig = sigCont ∧ (s.proc p).state = .stopped
  · have hrw : (if sig = sigCont then s.record (.sigcont p) else s).processKillOne p sig =
        (s.record (.sigcont p)).processContinue p := by
      rw [if_pos hc.1, SigSys.processKillOne]
      exact if_pos hc
    rw [hrw]
    exact h.processContinue
  · have hwake : ∀ u, (s.proc p).threads.head? = some u → ¬ s.AtStop u := by
      intro u hu
      refine hw u ?_
      rw [SigSys.wakes, if_neg hc, hu]
    split
    · rw [SigSys.processKillOne]
      rw [if_neg (c := sig = sigCont ∧ ((s.record (.sigcont p)).proc p).state = .stopped) hc]
      exact h.sigcont.signal sig hwake
    · rw [SigSys.processKillOne, if_neg hc]
      exact h.signal sig hwake

theorem SigInv.step (h : SigInv s) {a : SigAction Pid Tid}
    (hok : StopCalm s a) (hs : s.step a = some s') : SigInv s' := by
  cases a with
  | kill p sig =>
    simp only [SigSys.step] at hs
    split at hs <;> obtain rfl := some.inj hs
    · exact h.kill hok.wake
    · exact h
  | check t =>
    simp only [SigSys.step] at hs
    split at hs <;> obtain rfl := some.inj hs
    · rename_i hpc
      refine h.check hpc (hok.first t rfl) fun hsig u hu => hok.wake u ?_
      rw [SigSys.wakes, if_pos hsig, hu]
    · exact h
  | block t =>
    simp only [SigSys.step] at hs
    split at hs <;> obtain rfl := some.inj hs
    · exact h.block ‹_›
    · exact h
  | sleep t =>
    simp only [SigSys.step] at hs
    split at hs <;> obtain rfl := some.inj hs
    · exact h.sleep ‹_›
    · exact h
  | resume t =>
    simp only [SigSys.step] at hs
    split at hs <;> obtain rfl := some.inj hs
    · rename_i hcond
      exact h.resume hcond.2 hcond.1
    · exact h
  | exit t =>
    simp only [SigSys.step] at hs
    split at hs <;> obtain rfl := some.inj hs
    · exact h.terminate hok.wake
    · exact h
  | setWait p b =>
    obtain rfl := some.inj hs
    exact h.frame rfl rfl (SigSys.modify_field SigProc.core rfl) (fun _ => .inl rfl) fun _ =>
      .of_eq rfl rfl
  | addThread t =>
    obtain rfl := some.inj hs
    refine h.setThreads (t :: ·) (fun u hu => ?_) fun u => hok.threads t u (.inl rfl)
    rcases List.mem_cons.mp hu with rfl | hu
    · rfl
    · exact h.owners _ u hu
  | removeThread t =>
    obtain rfl := some.inj hs
    exact h.setThreads (·.erase t) (fun u hu => h.owners _ u (List.mem_of_mem_erase hu))
      fun u => hok.threads t u (.inr rfl)
  | poke u =>
    obtain rfl := some.inj hs
    exact h.frame rfl rfl (fun _ => rfl) (SigSys.wakeup_sched s _ hok.wake) fun _ => .of_eq rfl rfl

end Run

def signalledProc : SigSys (Fin 1) (Fin 2) where
  proc _ := ⟨.running, 0, none, false, [0, 1]⟩
  owner _ := 0
  pc _ := .user
  sched _ := .fresh
  log := []

theorem init_signalledProc : signalledProc.Init :=
  ⟨fun _ => rfl, rfl, fun p _ _ => (Fin.fin_one_eq_zero p).symm, nofun⟩

def stopCalmActor (s : SigSys (Fin 1) (Fin 2)) : SigAction (Fin 1) (Fin 2) → Bool
  | .check t => decide (s.HandlesStop t →
      (s.proc (s.owner t)).threads.head? = some t ∧ (s.sched t).pendingWakeup = false)
  | .addThread _ => false
  | .removeThread _ => false
  | _ => true

def stopCalmCheck (s : SigSys (Fin 1) (Fin 2)) (a : SigAction (Fin 1) (Fin 2)) : Bool :=
  stopCalmActor s a && (s.wakes a).all fun u => !decide (s.AtStop u)

theorem stopCalm_of_check (s : SigSys (Fin 1) (Fin 2)) (a : SigAction (Fin 1) (Fin 2))
    (h : stopCalmCheck s a = true) : StopCalm s a := by
  obtain ⟨hactor, hwake⟩ := (Bool.and_eq_true ..).mp h
  refine ⟨?_, fun u hu => ?_, ?_⟩
  · rintro t rfl
    simpa only [stopCalmActor, decide_eq_true_eq] using hactor
  · rw [hu] at hwake
    simpa using hwake
  · rintro t u (rfl | rfl) <;> cases hactor

/-- The first thread sleeps in a system call when `SIGTSTP` arrives, stops on its way out, and is
continued. -/
def stopContinueRun : List (SigAction (Fin 1) (Fin 2)) :=
  [.sleep 0, .kill 0 sigTstp, .resume 0, .check 0, .block 0, .sleep 1, .kill 0 sigCont, .resume 0]

/-- Both threads handle a `SIGTSTP`. The first was running when it arrived, so its `sched_block`
returns at once. -/
def bothStopRun : List (SigAction (Fin 1) (Fin 2)) :=
  [.kill 0 sigTstp, .check 1, .block 1, .kill 0 sigTstp, .check 0, .block 0]

end Xnix
