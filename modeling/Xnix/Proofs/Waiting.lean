import Xnix.WaitMachine

/-!
# No child is missed

`process_exit` wakes the first thread of the parent, and only while the parent's `wait_chan` is set.
Every thread in `process_waitpid` sets and clears that field, and a new thread becomes the first: a
main thread that waits sleeps on when another is woken in its place (`waiter_missed`). Where at most
one thread of a process waits, which is the first, a zombie child finds it awake or has not come to
the wakeup yet.
-/

namespace Xnix

open Function

variable {Pid Tid : Type} {t : Tid} {s : WaitSys Pid Tid} {Q : Pid → List Pid} {u : Tid}

section Statements
def WaitPc.waiting : WaitPc Pid → Prop
  | .scan _ _ | .report _ _ | .leave | .block _ | .asleep _ => True
  | _ => False

/-- The thread is in `process_exit` and has not come to the wakeup of the parent. -/
def WaitPc.exiting : WaitPc Pid → Prop
  | .dying _ | .orphan | .notify => True
  | _ => False

def Exiting (s : WaitSys Pid Tid) (c : Pid) : Prop := ∃ x, s.owner x = c ∧ (s.pc x).exiting

/-- The process has this exit code, and no exit under way stores another. -/
def Settled (s : WaitSys Pid Tid) (c : Pid) (code : ℤ) : Prop :=
  (s.proc c).exitCode = code ∧ ∀ x k, s.owner x = c → s.pc x = .dying k → k = code

def WaitEvent.reapedChild : WaitEvent Pid Tid → Option Pid
  | .reaped _ c _ => some c
  | .spawned _ _ => none

/-- A thread that calls `process_waitpid` is the first of its process, no other one waits, and the
list stays. A child does not change between the search and the report, and its exit code is stored.
A process ends once, or with the same code; it is not init, has children only while there is an
init, and is not stopped after its end. No creation fails once the child is linked. -/
structure WaitCalm (s : WaitSys Pid Tid) (a : WaitAction Pid Tid) : Prop where
  first : ∀ t target nohang, a = .waitpid t target nohang →
    (s.proc (s.owner t)).threads.head? = some t ∧
      ∀ u, s.owner u = s.owner t → ¬ (s.pc u).waiting
  threads : ∀ t, a = .addThread t ∨ a = .removeThread t → ∀ u, s.owner u = s.owner t →
    ¬ (s.pc u).waiting
  seen : ∀ t c seen, a = .next t → s.pc t = .report c seen →
    (s.proc c).state = seen ∧ Settled s c (s.proc c).exitCode
  exit : ∀ t code, a = .exit t code → (s.proc (s.owner t)).state ≠ .free ∧
    ((s.proc (s.owner t)).state = .zombie → Settled s (s.owner t) code)
  orphan : ∀ t, a = .next t → s.pc t = .orphan → ∃ i, s.init = some i ∧ i ≠ s.owner t
  stop : ∀ p, a = .stop p → (s.proc p).state ≠ .zombie ∧ (s.proc p).state ≠ .free
  created : ∀ t c, a ≠ .spawnFailed t c

variable [DecidableEq Pid] [Fintype Pid]

/-- No thread sleeps in `process_waitpid` while a child it waits for is a zombie whose exit is over;
a child is reported once, with its exit code; and no zombie is lost. -/
structure WaitSound (s : WaitSys Pid Tid) : Prop where
  awake : ∀ t target children c, s.pc t = .asleep target → (s.sched t).run = .blocked →
    s.kids.members (s.owner t) = some children → c ∈ children → isTarget target c = true →
      (s.proc c).state = .zombie → Exiting s c
  code : ∀ t c status, .reaped t c status ∈ s.log →
    (s.proc c).state = .zombie ∧ (s.proc c).exitCode = status
  once : (s.log.filterMap WaitEvent.reapedChild).Nodup
  kept : ∀ p c, .spawned p c ∈ s.log → (s.proc c).state = .zombie →
    (∃ q children, (s.proc c).parent = some q ∧ s.kids.members q = some children ∧ c ∈ children) ∨
      (∃ t, s.pc t = .report c .zombie) ∨ ∃ t status, .reaped t c status ∈ s.log

end Statements

section Invariant
variable {s' : WaitSys Pid Tid} {Q' : Pid → List Pid}

structure Reaping (s : WaitSys Pid Tid) (Q : Pid → List Pid) : Prop where
  linked : Lib.Linked s.kids Q
  parent : ∀ p c, c ∈ Q p → (s.proc c).parent = some p
  born : ∀ p c, c ∈ Q p → (s.proc c).state ≠ .free
  seen : ∀ t c seen, s.pc t = .report c seen → seen = .stopped ∨ seen = .zombie
  taken : ∀ t c, s.pc t = .report c .zombie → (∀ p, c ∉ Q p) ∧ (s.proc c).state = .zombie ∧
    (∀ u status, .reaped u c status ∉ s.log) ∧ ∀ u, s.pc u = .report c .zombie → u = t
  reaped : ∀ t c status, .reaped t c status ∈ s.log →
    (∀ p, c ∉ Q p) ∧ (s.proc c).state = .zombie ∧ Settled s c status
  once : (s.log.filterMap WaitEvent.reapedChild).Nodup
  kept : ∀ p c, .spawned p c ∈ s.log →
    (∃ q, c ∈ Q q) ∨ (∃ t, s.pc t = .report c .zombie) ∨ ∃ t status, .reaped t c status ∈ s.log

def Roused (s : WaitSys Pid Tid) (t : Tid) : Prop :=
  (∀ target, s.pc t = .block target → (s.sched t).pendingWakeup = true) ∧
    ∀ target, s.pc t = .asleep target → (s.sched t).run ≠ .blocked

theorem Reaping.change (h : Reaping s Q) (hkids : s'.kids = s.kids) (hlog : s'.log = s.log)
    (hzombie : ∀ c, (s.proc c).state = .zombie → (s'.proc c).state = .zombie)
    (hborn : ∀ c, (s.proc c).state ≠ .free → (s'.proc c).state ≠ .free)
    (hparent : ∀ c, (s'.proc c).parent = (s.proc c).parent)
    (hseen : ∀ t c seen, s'.pc t = .report c seen → seen = .stopped ∨ s.pc t = .report c seen)
    (hreport : ∀ t c, s.pc t = .report c .zombie → s'.pc t = .report c .zombie)
    (hset : ∀ c status, (s.proc c).state = .zombie → Settled s c status → Settled s' c status) :
    Reaping s' Q := by
  have hback : ∀ t c, s'.pc t = .report c .zombie → s.pc t = .report c .zombie := by
    intro t c hpc
    rcases hseen t c _ hpc with hno | hpc
    · cases hno
    · exact hpc
  refine ⟨by rw [hkids]; exact h.linked, fun p c hc => ?_, fun p c hc => hborn c (h.born p c hc),
    fun t c seen hpc => ?_, fun t c hpc => ?_, fun t c status hm => ?_, by rw [hlog]; exact h.once,
    fun p c hm => ?_⟩
  · rw [hparent]
    exact h.parent p c hc
  · rcases hseen t c seen hpc with rfl | hpc
    · exact .inl rfl
    · exact h.seen t c seen hpc
  · obtain ⟨hQ, hz, hlog', huniq⟩ := h.taken t c (hback t c hpc)
    rw [hlog]
    exact ⟨hQ, hzombie c hz, hlog', fun u hu => huniq u (hback u c hu)⟩
  · rw [hlog] at hm
    obtain ⟨hQ, hz, hs⟩ := h.reaped t c status hm
    exact ⟨hQ, hzombie c hz, hset c status hz hs⟩
  · rw [hlog] at hm ⊢
    exact (h.kept p c hm).imp_right (Or.imp_left fun ⟨t, ht⟩ => ⟨t, hreport t c ht⟩)

theorem waiting_of_block {target : Option Pid}
    (h : s.pc t = .block target ∨ s.pc t = .asleep target) : (s.pc t).waiting := by
  rcases h with h | h <;> rw [h] <;> trivial

variable [DecidableEq Pid]

structure Waiting (s : WaitSys Pid Tid) (Q : Pid → List Pid) : Prop where
  first : ∀ t, (s.pc t).waiting → (s.proc (s.owner t)).waitChan = true ∧
    (s.proc (s.owner t)).threads.head? = some t
  roused : ∀ t target c, s.pc t = .block target ∨ s.pc t = .asleep target → c ∈ Q (s.owner t) →
    isTarget target c = true → (s.proc c).state = .zombie → Exiting s c ∨ Roused s t

theorem Waiting.frame (h : Waiting s Q) (Q' : Pid → List Pid) (howner : s'.owner = s.owner)
    (hQ : ∀ p c, c ∈ Q' p → (s'.proc c).state = .zombie → c ∈ Q p ∧ (s.proc c).state = .zombie)
    (hchan : ∀ t, (s'.pc t).waiting → (s'.proc (s.owner t)).waitChan = true ∧
      (s'.proc (s.owner t)).threads.head? = some t)
    (hpc : ∀ t target, s'.pc t = .block target ∨ s'.pc t = .asleep target →
      s.pc t = .block target ∨ s.pc t = .asleep target)
    (hexit : ∀ c, Exiting s c → Exiting s' c) (hroused : ∀ t, Roused s t → Roused s' t) :
    Waiting s' Q' := by
  refine ⟨fun t ht => ?_, fun t target c ht hc htar hz => ?_⟩
  · rw [howner]
    exact hchan t ht
  · rw [howner] at hc
    obtain ⟨hc, hz⟩ := hQ _ c hc hz
    exact (h.roused t target c (hpc t target ht) hc htar hz).imp (hexit c) (hroused t)

theorem Waiting.eq_of_owner (h : Waiting s Q) (ht : (s.pc t).waiting)
    (hu : (s.pc u).waiting) (heq : s.owner u = s.owner t) : u = t := by
  have hfirst := (h.first u hu).2
  rw [heq, (h.first t ht).2] at hfirst
  exact (Option.some.inj hfirst).symm

theorem proc_modify_self (s : WaitSys Pid Tid) (p : Pid) (f : Family Pid Tid → Family Pid Tid) :
    (s.modify p f).proc p = f (s.proc p) := update_self ..

theorem proc_modify_of_ne (s : WaitSys Pid Tid) {p c : Pid} (hc : c ≠ p)
    (f : Family Pid Tid → Family Pid Tid) : (s.modify p f).proc c = s.proc c :=
  update_of_ne hc ..

theorem proc_modify {α : Type} (g : Family Pid Tid → α) (s : WaitSys Pid Tid) (p : Pid)
    {f : Family Pid Tid → Family Pid Tid} (hg : g (f (s.proc p)) = g (s.proc p)) (c : Pid) :
    g ((s.modify p f).proc c) = g (s.proc c) := by
  by_cases hc : c = p
  · rw [hc, proc_modify_self, hg]
  · rw [proc_modify_of_ne s hc]

theorem proc_setChan (s : WaitSys Pid Tid) (p : Pid) (b : Bool) (c : Pid) :
    ((s.modify p fun pr => { pr with waitChan := b }).proc c).state = (s.proc c).state ∧
      ((s.modify p fun pr => { pr with waitChan := b }).proc c).parent = (s.proc c).parent ∧
      ((s.modify p fun pr => { pr with waitChan := b }).proc c).exitCode = (s.proc c).exitCode ∧
      ((s.modify p fun pr => { pr with waitChan := b }).proc c).threads = (s.proc c).threads := by
  by_cases hc : c = p
  · rw [hc, proc_modify_self]
    exact ⟨rfl, rfl, rfl, rfl⟩
  · rw [proc_modify_of_ne s hc]
    exact ⟨rfl, rfl, rfl, rfl⟩

variable [DecidableEq Tid]

omit [DecidableEq Pid] in
theorem Reaping.move {b : WaitPc Pid} (h : Reaping s Q) (hpc : s'.pc = update s.pc t b)
    (hkids : s'.kids = s.kids) (howner : s'.owner = s.owner) (hlog : s'.log = s.log)
    (hstate : ∀ c, (s'.proc c).state = (s.proc c).state)
    (hparent : ∀ c, (s'.proc c).parent = (s.proc c).parent)
    (hcode : ∀ c, (s'.proc c).exitCode = (s.proc c).exitCode)
    (hold : ∀ c, s.pc t ≠ .report c .zombie) (hnew : ∀ c seen, b = .report c seen → seen = .stopped)
    (hnd : ∀ k, b ≠ .dying k) : Reaping s' Q := by
  refine h.change hkids hlog (fun c hc => by rwa [hstate]) (fun c hc => by rwa [hstate]) hparent
    (fun u c seen hu => ?_) (fun u c hu => ?_) fun c status _ hs => ⟨(hcode c).trans hs.1,
      fun x k hx hk => ?_⟩
  · by_cases hut : u = t
    · rw [hut, hpc, update_self] at hu
      exact .inl (hnew c seen hu)
    · rw [hpc, update_of_ne hut] at hu
      exact .inr hu
  · exact update_of (· = _) hpc hu (hold c)
  · rw [howner] at hx
    exact hs.2 x k hx (of_update (· = _) hpc hk (hnd k)).2

theorem Waiting.move {b : WaitPc Pid} (h : Waiting s Q)
    (hpc : s'.pc = update s.pc t b) (howner : s'.owner = s.owner)
    (hstate : ∀ c, (s'.proc c).state = (s.proc c).state)
    (hsched : ∀ u, u ≠ t → s'.sched u = s.sched u)
    (hchan : ∀ u, u ≠ t → (s.pc u).waiting → (s'.proc (s.owner u)).waitChan = true ∧
      (s'.proc (s.owner u)).threads.head? = some u)
    (hfirst : b.waiting → (s'.proc (s.owner t)).waitChan = true ∧
      (s'.proc (s.owner t)).threads.head? = some t)
    (hexit : (s.pc t).exiting → b.exiting)
    (hsleep : ∀ target c, b = .block target ∨ b = .asleep target → c ∈ Q (s.owner t) →
      isTarget target c = true → (s.proc c).state = .zombie → Exiting s c ∨ Roused s' t) :
    Waiting s' Q := by
  obtain ⟨hself, hother⟩ := update_apart hpc
  have hkeep : ∀ c, Exiting s c → Exiting s' c := by
    rintro c ⟨x, hx, hxe⟩
    refine ⟨x, by rw [howner]; exact hx, ?_⟩
    by_cases hxt : x = t
    · subst hxt
      rw [hself]
      exact hexit hxe
    · rw [hother x hxt]
      exact hxe
  refine ⟨fun u hu => ?_, fun u target c hu hc htar hz => ?_⟩
  · rw [howner]
    by_cases hut : u = t
    · subst hut
      rw [hself] at hu
      exact hfirst hu
    · rw [hother u hut] at hu
      exact hchan u hut hu
  · rw [howner] at hc
    rw [hstate] at hz
    by_cases hut : u = t
    · subst hut
      rw [hself] at hu
      exact (hsleep target c hu hc htar hz).imp_left (hkeep c)
    · rw [hother u hut] at hu
      refine (h.roused u target c hu hc htar hz).imp (hkeep c) fun hr => ?_
      unfold Roused
      rw [hother u hut, hsched u hut]
      exact hr

end Invariant

section Wakeups
variable [DecidableEq Tid]

theorem Roused.wakeup (h : Roused s t) :
    Roused { s with sched := update s.sched u (s.sched u).wakeup } t := by
  by_cases hut : t = u
  · subst hut
    unfold Roused
    simp only [update_self]
    exact ⟨fun _ _ => rfl, fun _ _ => wakeup_run_ne_blocked _⟩
  · unfold Roused
    simp only [update_of_ne hut]
    exact h

theorem roused_of_wakeup : Roused { s with sched := update s.sched t (s.sched t).wakeup } t := by
  unfold Roused
  simp only [update_self]
  exact ⟨fun _ _ => rfl, fun _ _ => wakeup_run_ne_blocked _⟩

theorem wakeWaiter_cases (s : WaitSys Pid Tid) (p : Pid) : s.wakeWaiter p = s ∨
      ∃ u, s.wakeWaiter p = { s with sched := update s.sched u (s.sched u).wakeup } := by
  unfold WaitSys.wakeWaiter
  split
  · exact .inr ⟨_, rfl⟩
  · exact .inl rfl

theorem wakeWaiter_same (s : WaitSys Pid Tid) (p : Pid) : (s.wakeWaiter p).pc = s.pc ∧
    (s.wakeWaiter p).owner = s.owner ∧ (s.wakeWaiter p).proc = s.proc := by
  rcases wakeWaiter_cases s p with heq | ⟨u, heq⟩ <;> rw [heq] <;> exact ⟨rfl, rfl, rfl⟩

theorem Reaping.wakeWaiter (h : Reaping s Q) (p : Pid) : Reaping (s.wakeWaiter p) Q := by
  rcases wakeWaiter_cases s p with heq | ⟨u, heq⟩ <;> rw [heq]
  · exact h
  · exact ⟨h.linked, h.parent, h.born, h.seen, h.taken, h.reaped, h.once, h.kept⟩

theorem roused_wakeWaiter (hfirst : (s.proc (s.owner t)).waitChan = true ∧
    (s.proc (s.owner t)).threads.head? = some t) : Roused (s.wakeWaiter (s.owner t)) t := by
  obtain ⟨hchan, hhead⟩ := hfirst
  obtain ⟨l, hl⟩ := List.head?_eq_some_iff.mp hhead
  have heq : s.wakeWaiter (s.owner t) =
      { s with sched := update s.sched t (s.sched t).wakeup } := by
    rw [WaitSys.wakeWaiter, hchan, hl]
  rw [heq]
  exact roused_of_wakeup

variable [DecidableEq Pid]

theorem Waiting.wakeup (h : Waiting s Q) :
    Waiting { s with sched := update s.sched u (s.sched u).wakeup } Q :=
  ⟨h.first, fun t target c ht hc htar hz =>
    (h.roused t target c ht hc htar hz).imp_right Roused.wakeup⟩

theorem Waiting.wakeWaiter (h : Waiting s Q) (p : Pid) : Waiting (s.wakeWaiter p) Q := by
  rcases wakeWaiter_cases s p with heq | ⟨u, heq⟩ <;> rw [heq]
  · exact h
  · exact h.wakeup

end Wakeups

end Xnix
