import Xnix.Blocking
import Xnix.SvcRestart

/-!
# Restarts and reports of services

`cascade_restart` goes from a service to the active ones that depend on it and changes their states
on the way. A service that it has left has no active dependents any more, so the services it
restarted are all that are linked to the first one.
-/

namespace Xnix

open List Relation

namespace SvcManager

variable {mgr : SvcManager} {s s' : SvcRun} {t i j : ℕ} {ms seen : List ℕ} {msg : ReadyMsg}

/-- `i` is active and depends on `t`. -/
def Follows (mgr : SvcManager) (s : SvcRun) (t i : ℕ) : Prop :=
  i < mgr.count ∧ (mgr.graph i).deps.any (·.targetIdx = t) ∧ s.Active i

/-- A chain of dependencies leads from `i` to `t`, and `i` and the services between them are
active. -/
def Linked (mgr : SvcManager) (s : SvcRun) : ℕ → ℕ → Prop := TransGen (mgr.Follows s)

theorem Linked.active (h : mgr.Linked s t i) : s.Active i := by
  obtain ⟨_, -, -, -, hact⟩ := TransGen.tail'_iff.mp h
  exact hact

theorem restartAll_eq (hnd : ms.Nodup) (s : SvcRun) : ms.foldl SvcRun.restart s =
    ⟨fun i => if i ∈ ms then (s.runtime i).restarted else s.runtime i,
      s.signals ++ (ms.map fun i => (s.runtime i).pid).filter (0 < ·)⟩ := by
  induction ms generalizing s with
  | nil => simp
  | cons m ms ih =>
    obtain ⟨hm, hnd⟩ := nodup_cons.mp hnd
    have hrest : ∀ i ∈ ms, (s.restart m).runtime i = s.runtime i := fun i hi =>
      Function.update_of_ne (ne_of_mem_of_not_mem hi hm) ..
    have hsignals : (s.restart m).signals = s.signals ++ [(s.runtime m).pid].filter (0 < ·) := by
      unfold SvcRun.restart SvcRun.kill
      split_ifs with h <;> simp [h]
    rw [foldl_cons, ih hnd, hsignals, append_assoc, ← filter_append, singleton_append, map_cons,
      map_congr_left fun i hi => by rw [hrest i hi]]
    congr 1
    funext i
    by_cases him : i = m
    · subst him
      simp [hm, SvcRun.restart]
    · simp [him, SvcRun.restart]

theorem active_restartAll (hnd : ms.Nodup) :
    (ms.foldl SvcRun.restart s).Active i ↔ s.Active i ∧ i ∉ ms := by
  unfold SvcRun.Active
  rw [restartAll_eq hnd]
  by_cases hi : i ∈ ms <;> simp [hi, SvcRuntime.restarted]

theorem active_restart : (s.restart i).Active j ↔ s.Active j ∧ j ∉ [i] :=
  active_restartAll (nodup_singleton i)

theorem Follows.of_restartAll (hnd : ms.Nodup) (h : mgr.Follows (ms.foldl SvcRun.restart s) t i) :
  mgr.Follows s t i := ⟨h.1, h.2.1, ((active_restartAll hnd).mp h.2.2).1⟩

theorem Linked.of_restartAll (hnd : ms.Nodup) (h : mgr.Linked (ms.foldl SvcRun.restart s) t i) :
  mgr.Linked s t i := TransGen.mono (fun _ _ hf => Follows.of_restartAll hnd hf) _ _ h

def activeCount (mgr : SvcManager) (s : SvcRun) : ℕ :=
    ((Finset.range mgr.count).filter s.Active).card

theorem activeCount_le (h : ∀ j, s'.Active j → s.Active j) : mgr.activeCount s' ≤
  mgr.activeCount s := Finset.card_le_card (Finset.monotone_filter_right _ fun j _ => h j)

theorem activeCount_restart (hi : i < mgr.count) (hact : s.Active i) :
    mgr.activeCount (s.restart i) < mgr.activeCount s := by
  refine Finset.card_lt_card (Finset.ssubset_iff_of_subset (fun j hj => ?_) |>.mpr ⟨i, ?_, ?_⟩)
  · rw [Finset.mem_filter, active_restart] at hj
    exact Finset.mem_filter.mpr ⟨hj.1, hj.2.1⟩
  · exact Finset.mem_filter.mpr ⟨Finset.mem_range.mpr hi, hact⟩
  · rw [Finset.mem_filter, active_restart]
    simp

/-- The services below `t` have been restarted, in the order of `ms`; of those that depend on `t`
itself, the ones in `seen` have been looked at. -/
structure Cascaded (mgr : SvcManager) (t : ℕ) (seen : List ℕ) (s : SvcRun) (ms : List ℕ)
    (s' : SvcRun) : Prop where
  nodup : ms.Nodup
  linked : ∀ m ∈ ms, mgr.Linked s t m
  run : s' = ms.foldl SvcRun.restart s
  left : ∀ m ∈ ms, ∀ i, ¬ mgr.Follows s' m i
  passed : ∀ i ∈ seen, ¬ mgr.Follows s' t i

theorem Cascaded.before (h : mgr.Cascaded t seen s ms s') (hf : mgr.Follows s' i j) :
  mgr.Follows s i j := (h.run ▸ hf).of_restartAll h.nodup

/-- A service that depends on `t` is restarted with all below it, and the loop goes on. -/
theorem Cascaded.cons {s1 s2 : SvcRun} {ms' : List ℕ} (hi : mgr.Follows s t i)
    (h : mgr.Cascaded i (range mgr.count) (s.restart i) ms s1)
    (h' : mgr.Cascaded t seen s1 ms' s2) :
    mgr.Cascaded t (i :: seen) s (i :: ms ++ ms') s2 := by
  have hnd : (i :: ms).Nodup := by
    refine nodup_cons.mpr ⟨fun hmem => ?_, h.nodup⟩
    exact (active_restart.mp (h.linked i hmem).active).2 (by simp)
  have hrun : s1 = (i :: ms).foldl SvcRun.restart s := h.run
  have hidle : ∀ m ∈ i :: ms, ¬ s1.Active m := fun m hm hact => by
    rw [hrun, active_restartAll hnd] at hact
    exact hact.2 hm
  refine ⟨nodup_append'.mpr ⟨hnd, h'.nodup, fun m hm hm' => hidle m hm (h'.linked m hm').active⟩,
    fun m hm => ?_, ?_, fun m hm j hj => ?_, fun j hj hf => ?_⟩
  · rcases mem_append.mp hm with hm | hm
    · rcases mem_cons.mp hm with rfl | hm
      · exact .single hi
      · exact .head hi (Linked.of_restartAll (nodup_singleton i) (h.linked m hm))
    · exact (hrun ▸ h'.linked m hm).of_restartAll hnd
  · rw [foldl_append, ← hrun, h'.run]
  · rcases mem_append.mp hm with hm | hm
    · rcases mem_cons.mp hm with rfl | hm
      · exact h.passed j (mem_range.mpr hj.1) (h'.before hj)
      · exact h.left m hm j (h'.before hj)
    · exact h'.left m hm j hj
  · rcases mem_cons.mp hj with rfl | hj
    · exact hidle j mem_cons_self (h'.before hf).2.2
    · exact h'.passed j hj hf

theorem cascadeRestart_spec (mgr : SvcManager) :
    ∀ (room t : ℕ) (s : SvcRun), mgr.activeCount s < room →
    ∃ ms s', mgr.cascadeRestart room t s = some s' ∧ mgr.Cascaded t (range mgr.count) s ms s'
  | 0, _, _, h => absurd h (Nat.not_lt_zero _)
  | room + 1, t, s, h => by
    suffices hloop : ∀ (l : List ℕ) (s : SvcRun), (∀ i ∈ l, i < mgr.count) →
        mgr.activeCount s ≤ room → ∃ ms s', l.foldlM (fun s i =>
          if (mgr.graph i).deps.any (·.targetIdx = t) ∧
            s.Active i then mgr.cascadeRestart room i (s.restart i)
          else some s) s = some s' ∧ mgr.Cascaded t l s ms s' from
      hloop _ s (fun i hi => mem_range.mp hi) (Nat.lt_succ_iff.mp h)
    intro l
    induction l with
    | nil => exact fun s _ _ => ⟨[], s, rfl, nodup_nil, by simp, rfl, by simp, by simp⟩
    | cons i l ih =>
      intro s hlt hroom
      have hi := hlt i mem_cons_self
      have hlt' : ∀ j ∈ l, j < mgr.count := fun j hj => hlt j (mem_cons_of_mem i hj)
      simp only [foldlM_cons]
      split_ifs with hc
      · have hless := activeCount_restart hi hc.2
        obtain ⟨ms, s1, hrun, h1⟩ := cascadeRestart_spec mgr room i (s.restart i) (by omega)
        have hfewer : mgr.activeCount s1 ≤ mgr.activeCount (s.restart i) :=
          activeCount_le fun j hj => ((active_restartAll h1.nodup).mp (h1.run ▸ hj)).1
        obtain ⟨ms', s2, hrest, h2⟩ := ih s1 hlt' (by omega)
        refine ⟨_, s2, ?_, h1.cons ⟨hi, hc.1, hc.2⟩ h2⟩
        rw [hrun]
        exact hrest
      · obtain ⟨ms, s', hrest, h'⟩ := ih s hlt' hroom
        refine ⟨ms, s', hrest, h'.nodup, h'.linked, h'.run, h'.left, fun j hj hf => ?_⟩
        rcases mem_cons.mp hj with rfl | hj
        · exact hc (h'.before hf).2
        · exact h'.passed j hj hf

theorem Cascaded.mem_iff (h : mgr.Cascaded t (range mgr.count) s ms s') :
    i ∈ ms ↔ mgr.Linked s t i := by
  refine ⟨h.linked i, fun hi => ?_⟩
  have hmem : ∀ m i, (m = t ∨ m ∈ ms) → mgr.Follows s m i → i ∈ ms := by
    intro m i hm hf
    by_contra hnot
    have hf' : mgr.Follows s' m i :=
      ⟨hf.1, hf.2.1, h.run ▸ (active_restartAll h.nodup).mpr ⟨hf.2.2, hnot⟩⟩
    rcases hm with rfl | hm
    · exact h.passed i (mem_range.mpr hf.1) hf'
    · exact h.left m hm i hf'
  induction hi with
  | single hf => exact hmem t _ (.inl rfl) hf
  | tail _ hf ih => exact hmem _ _ (.inr ih) hf

/-- `cascade_restart` returns, for any graph and from any state. It marks exactly the services that
are linked to the first one, each once, signals the processes of those that have one, and changes
nothing else. -/
theorem cascade_exact (mgr : SvcManager) (s : SvcRun) (t : ℕ) :
    ∃ ms : List ℕ, ms.Nodup ∧ (∀ i, i ∈ ms ↔ mgr.Linked s t i) ∧
      mgr.cascadeRestart (mgr.count + 1) t s =
        some ⟨fun i => if i ∈ ms then (s.runtime i).restarted else s.runtime i,
          s.signals ++ (ms.map fun i => (s.runtime i).pid).filter (0 < ·)⟩ := by
  have hcount : mgr.activeCount s < mgr.count + 1 :=
    Nat.lt_succ_of_le ((Finset.card_filter_le _ _).trans (Finset.card_range _).le)
  obtain ⟨ms, s', hrun, h⟩ := cascadeRestart_spec mgr (mgr.count + 1) t s hcount
  exact ⟨ms, h.nodup, fun i => h.mem_iff, by rw [hrun, h.run, restartAll_eq h.nodup]⟩

/-- The second service comes after the first. -/
def twoServices : SvcManager :=
  ⟨[⟨[97], [], [], by decide, by decide⟩, ⟨[98], [[97]], [], by decide, by decide⟩],
    fun _ => ⟨[], 0, 0, false, false⟩, [], 0, false, by decide⟩

/-- The second service is starting, and has no process yet. -/
def startingRun : SvcRun := ⟨fun _ => ⟨.starting, -1, false, false⟩, []⟩

/-- A starting service without a process is marked and not signalled. -/
theorem cascade_without_signal : ∃ mgr s', twoServices.buildDependencyGraph = some (.ok mgr) ∧
    mgr.Linked startingRun 0 1 ∧ mgr.cascadeRestart (mgr.count + 1) 0 startingRun = some s' ∧
    (s'.runtime 1).state = .pending ∧ s'.signals = startingRun.signals := by
  have hbuilt : (twoServices.buildDependencyGraph.bind Except.toOption).any (fun mgr =>
      decide (1 < mgr.count ∧ (mgr.graph 1).deps.any (·.targetIdx = 0)) &&
      (mgr.cascadeRestart (mgr.count + 1) 0 startingRun).any fun s' =>
        decide ((s'.runtime 1).state = .pending ∧ s'.signals = [])) = true := by
    decide +kernel
  obtain ⟨mgr, hmgr, hfacts⟩ := Option.any_eq_true _ _ |>.mp hbuilt
  obtain ⟨_ | _, hbuild, hok⟩ := Option.bind_eq_some_iff.mp hmgr <;> cases hok
  rw [Bool.and_eq_true, decide_eq_true_eq, Option.any_eq_true] at hfacts
  obtain ⟨⟨hcount, hdeps⟩, s', hrun, hs'⟩ := hfacts
  exact ⟨mgr, s', hbuild, .single ⟨hcount, hdeps, .inr rfl⟩, hrun, of_decide_eq_true hs'⟩

/-- A message claims no pid but that of its sender, and does not restart a service. -/
def Honest (mgr : SvcManager) (msg : ReadyMsg) : Prop :=
  (∀ c ∈ msg.claim, c.1 = msg.senderPid) ∧
    (msg.regs 0 = svcMsgRestart → mgr.findByName (msg.name 1) = none)

instance (mgr : SvcManager) : DecidablePred mgr.Honest :=
    fun _ => inferInstanceAs (Decidable (_ ∧ _))

/-- Among `as` is a message from the process that the service was running in when it came, and still
has. -/
def Reported (mgr : SvcManager) (mount : ℕ → CString) (as : List ReadyAction) (i : ℕ) : Prop :=
  ∃ us msg vs, as = us ++ .receive msg :: vs ∧ (mgr.readyRun mount us i).state = .running ∧
    (mgr.readyRun mount us i).pid = msg.senderPid ∧ (mgr.readyRun mount as i).pid = msg.senderPid

variable (mgr) (mount : ℕ → CString) (rt : ℕ → SvcReadiness)

theorem handleReadyNotification_cases (hmsg : ∀ c ∈ msg.claim, c.1 = msg.senderPid) (i : ℕ) :
    mgr.handleReadyNotification mount rt msg i = rt i ∨ (rt i).state = .running ∧
    (rt i).pid = msg.senderPid := by
  unfold handleReadyNotification
  rcases h : msg.claim.bind fun c => (mgr.findByName c.2).map (c.1, ·) with _ | ⟨pid, j⟩
  · exact .inl rfl
  · dsimp only
    split_ifs with hj
    · rcases eq_or_ne i j with rfl | hij
      · obtain ⟨c, hc, hfind⟩ := Option.bind_eq_some_iff.mp h
        obtain ⟨_, -, hpid⟩ := Option.map_eq_some_iff.mp hfind
        have hsender : pid = msg.senderPid := (Prod.mk.inj hpid).1 ▸ hmsg c hc
        exact .inr ⟨hj.1, hj.2.trans hsender⟩
      · exact .inl (Function.update_of_ne hij ..)
    · exact .inl rfl

variable {mount rt}

theorem pid_handleReadyNotification (msg : ReadyMsg) (i : ℕ) :
    (mgr.handleReadyNotification mount rt msg i).pid = (rt i).pid := by
  unfold handleReadyNotification
  rcases msg.claim.bind fun c => (mgr.findByName c.2).map (c.1, ·) with _ | ⟨pid, j⟩
  · rfl
  · dsimp only
    split_ifs
    · refine update_field (fun r : SvcReadiness => r.pid) rfl ?_ i
      rfl
    · rfl

/-- A command other than a restart leaves the processes of the services and what is known about
them. -/
theorem apply_adminDispatch {α : Type} (f : SvcReadiness → α)
    (hstop : ∀ r, f { r with manualStop := true } = f r)
    (hstart : ∀ r, f { r with manualStop := false, state := .pending } = f r)
    (hmsg : mgr.Honest msg) {rt' : ℕ → SvcReadiness}
    (h : mgr.adminDispatch rt msg = some rt') (i : ℕ) :
    f (rt' i) = f (rt i) := by
  unfold adminDispatch at h
  rcases hfind : mgr.findByName (msg.name 1) with _ | j <;> simp only [hfind] at h
  · split_ifs at h
    cases h
    rfl
  split_ifs at h with _ hop hop' hop'' <;> cases h
  · unfold handleStop
    split_ifs
    · rfl
    · exact update_field f rfl (hstop _) i
  · unfold handleStart
    split_ifs
    · rfl
    · exact update_field f rfl (hstart _) i
  · cases (hmsg.2 hop'').symm.trans hfind
  · rfl

theorem receive_cases (hmsg : mgr.Honest msg) (i : ℕ) :
    (mgr.readyStep mount rt (.receive msg) i).pid = (rt i).pid ∧
      ((mgr.readyStep mount rt (.receive msg) i).readiness = (rt i).readiness ∨
        (rt i).state = .running ∧ (rt i).pid = msg.senderPid) := by
  dsimp only [readyStep]
  rcases hadm : mgr.adminDispatch rt msg with _ | rt'
  · refine ⟨mgr.pid_handleReadyNotification msg i, ?_⟩
    exact (mgr.handleReadyNotification_cases mount rt hmsg.1 i).imp_left
      (congrArg SvcReadiness.readiness)
  · exact ⟨mgr.apply_adminDispatch (·.pid) (fun _ => rfl) (fun _ => rfl) hmsg hadm i,
      .inl (mgr.apply_adminDispatch SvcReadiness.readiness (fun _ => rfl) (fun _ => rfl)
      hmsg hadm i)⟩

theorem readiness_tryMountService {k : ℕ} {ok : Bool}
    (h : (tryMountService mount rt k ok i).readiness ≠ (rt i).readiness) :
    (rt i).reportedReady := by
  unfold tryMountService at h
  split_ifs at h with hk hok
  · exact absurd rfl h
  all_goals
    rcases eq_or_ne i k with rfl | hik
    · exact Bool.not_eq_false _ ▸ fun hrep => hk (.inr (.inr (.inl hrep)))
    · exact absurd (congrArg SvcReadiness.readiness (Function.update_of_ne hik ..)) h

theorem reported_of_update {r : SvcReadiness}
    (hr : r.reportedReady → (rt j).reportedReady ∧ r.pid = (rt j).pid)
    (h : (Function.update rt j r i).reportedReady) :
    (rt i).reportedReady ∧ (Function.update rt j r i).pid = (rt i).pid := by
  rcases eq_or_ne i j with rfl | hij
  · rw [Function.update_self] at h ⊢
    exact hr h
  · rw [Function.update_of_ne hij] at h ⊢
    exact ⟨h, rfl⟩

/-- Only a message reports a service, and a report does not outlive the process. -/
theorem reported_of_step {a : ReadyAction} (ha : ∀ msg, a ≠ .receive msg)
    (h : (mgr.readyStep mount rt a i).reportedReady) :
    (rt i).reportedReady ∧ (mgr.readyStep mount rt a i).pid = (rt i).pid := by
  cases a with
  | receive msg => exact absurd rfl (ha msg)
  | tryMount k ok =>
    dsimp only [readyStep, tryMountService] at h ⊢
    split_ifs at h ⊢
    · exact ⟨h, rfl⟩
    all_goals exact reported_of_update (fun hr => ⟨hr, rfl⟩) h
  | start k pid =>
    dsimp only [readyStep, startService] at h ⊢
    split_ifs at h ⊢
    · exact reported_of_update (fun hr => ⟨hr, rfl⟩) h
    · exact reported_of_update nofun h
  | exit pid respawn =>
    dsimp only [readyStep, handleExit] at h ⊢
    rcases hfind : (range mgr.count).find? fun i => (rt i).pid = pid with _ | k <;> rw [hfind] at h
    · exact ⟨h, rfl⟩
    · exact reported_of_update nofun h
  | timeout k depended =>
    dsimp only [readyStep, readyTimeout] at h ⊢
    split_ifs at h ⊢
    · exact ⟨h, rfl⟩
    all_goals exact reported_of_update (fun hr => ⟨hr, rfl⟩) h

theorem readyRun_concat (as : List ReadyAction) (a : ReadyAction) :
    mgr.readyRun mount (as ++ [a]) = mgr.readyStep mount (mgr.readyRun mount as) a := foldl_append

theorem reported_of_readyRun {as : List ReadyAction}
    (has : ∀ msg, .receive msg ∈ as → mgr.Honest msg)
    (h : (mgr.readyRun mount as i).reportedReady) : mgr.Reported mount as i := by
  induction as using reverseRecOn with
  | nil => cases h
  | append_singleton as a ih =>
    have hlater : (mgr.readyRun mount as i).reportedReady →
        (mgr.readyRun mount (as ++ [a]) i).pid = (mgr.readyRun mount as i).pid →
        mgr.Reported mount (as ++ [a]) i := by
      intro hrep hpid
      obtain ⟨us, msg, vs, rfl, hrun, hsent, hnow⟩ :=
        ih (fun msg hm => has msg (mem_append_left _ hm)) hrep
      exact ⟨us, msg, vs ++ [a], by simp, hrun, hsent, hpid.trans hnow⟩
    rw [readyRun_concat] at h hlater
    by_cases ha : ∃ msg, a = .receive msg
    · obtain ⟨msg, rfl⟩ := ha
      obtain ⟨hpid, heq | ⟨hrun, hsent⟩⟩ := mgr.receive_cases (has msg (by simp)) i
      · exact hlater ((congrArg Prod.fst heq).symm.trans h) hpid
      · exact ⟨as, msg, [], rfl, hrun, hsent, by rw [readyRun_concat, hpid, hsent]⟩
    · obtain ⟨hrep, hpid⟩ := mgr.reported_of_step (fun msg hm => ha ⟨msg, hm⟩) h
      exact hlater hrep hpid

variable (mount)

/-- As long as messages claim the pids of their senders and restart nothing, a service counts as
reported only after a message from the process that it runs in, a mount makes it ready only then,
and no message from another process changes its readiness. -/
theorem readiness_authentic (as : List ReadyAction)
    (has : ∀ msg, .receive msg ∈ as → mgr.Honest msg) (i : ℕ) :
    ((mgr.readyRun mount as i).reportedReady → mgr.Reported mount as i) ∧
    (∀ k ok, (mgr.readyRun mount (as ++ [.tryMount k ok]) i).readiness ≠
      (mgr.readyRun mount as i).readiness → mgr.Reported mount as i) ∧
    ∀ msg, mgr.Honest msg →
      (mgr.readyRun mount (as ++ [.receive msg]) i).readiness ≠
      (mgr.readyRun mount as i).readiness →
      (mgr.readyRun mount as i).state = .running ∧
      (mgr.readyRun mount as i).pid = msg.senderPid := by
  refine ⟨mgr.reported_of_readyRun has, ?_, ?_⟩
  · intro k ok h
    rw [readyRun_concat] at h
    exact mgr.reported_of_readyRun has (readiness_tryMountService h)
  · intro msg hmsg h
    rw [readyRun_concat] at h
    exact (mgr.receive_cases hmsg i).2.resolve_left h

/-- A report of the process `pid` that the service "a" is ready in process 5. -/
def reportFrom (pid : ℤ) : ReadyAction :=
    .receive ⟨pid, fun k => [svcMsgReady, 5, 97].getD k 0, none⟩

/-- The command of process `pid` to restart the service "a". -/
def restartFrom (pid : ℤ) : ReadyAction :=
    .receive ⟨pid, fun k => [svcMsgRestart, 97].getD k 0, none⟩

theorem readiness_authentic_own :
    (twoServices.readyRun (fun _ => []) [.start 0 5, reportFrom 5] 0).ready ∧
      twoServices.Reported (fun _ => []) [.start 0 5, reportFrom 5] 0 :=
  ⟨by decide, (readiness_authentic twoServices (fun _ => []) [.start 0 5, reportFrom 5]
    (fun msg h => by
      have h : .receive msg = reportFrom 5 := by simpa using h
      cases h
      decide) 0).1 (by decide)⟩

/-- Process 9 makes a service ready that runs in process 5, and takes the readiness from it. -/
theorem readiness_forged :
    (twoServices.readyRun (fun _ => []) [.start 0 5, reportFrom 9] 0).ready ∧
    (twoServices.readyRun (fun _ => []) [.start 0 5, reportFrom 5] 0).ready ∧
    (twoServices.readyRun (fun _ => []) [.start 0 5, reportFrom 5, restartFrom 9] 0).ready =
    false := by
  decide

end SvcManager

end Xnix
