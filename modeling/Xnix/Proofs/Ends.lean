import Xnix.EndMachine

/-!
# Processes end with their threads

`thread_exit` takes a thread for the last of its process when `thread_count` is at most one, but a
thread that has exited is counted until it is cleaned up, which never happens if it was neither
detached nor joined. Where the last thread to exit is detached and the only one left in the list, a
process that exits has no exited threads that are not reclaimable, and no running thread is forced
to exit, threads and references are counted (`ProcOk`) and exited threads are on zombie lists.
-/

namespace Xnix

open Function List Option EndSys

variable {Cpu Pid Tid : Type} {u t : Tid} {s s' : EndSys Cpu Pid Tid} {p : Pid} {c : Cpu}

/-- A process whose threads have all exited is a zombie with reclaimable threads, and one that was
reaped is released once these are cleaned. -/
structure EndsSound (s : EndSys Cpu Pid Tid) : Prop where
  ended : ∀ p, (s.proc p).started = true → (∀ t ∈ (s.proc p).threads, (s.thread t).exited = true) →
    (s.proc p).state = .zombie
  reclaimable : ∀ p, (s.proc p).state = .zombie → ∀ t ∈ (s.proc p).threads,
    (s.thread t).exited = true → (s.thread t).reclaimable = true
  released : ∀ p, (s.proc p).state = .zombie → (s.proc p).reaped = true →
    (∀ t ∈ (s.proc p).threads, (s.thread t).exited = true) →
    (∀ c, ∀ t ∈ s.zombies c, (s.thread t).reclaimable = false) → (s.proc p).freed = true

/-- A thread that exits or ends its process has been added; if all others of the process have
exited, they are out of its list or the process is a zombie. A thread that is the last in the list,
or of a zombie, is detached when it exits. When a process exits, its exited threads are reclaimable,
and the threads that it forces to exit are not running. -/
@[mk_iff] structure EndCalm (s : EndSys Cpu Pid Tid) (a : EndAction Cpu Pid Tid) : Prop where
  added : ∀ t p, a.ender = some t → (s.thread t).owner = some p → t ∈ (s.proc p).threads
  last : ∀ t c p, a = .exit t c → (s.thread t).owner = some p →
    (∀ u ∈ (s.proc p).threads, u ≠ t → (s.thread u).exited = true) →
    (s.proc p).state = .zombie ∨ (s.proc p).threads = [t]
  detached : ∀ t c p, a = .exit t c → (s.thread t).owner = some p →
    (s.proc p).state = .zombie ∨ (s.proc p).threads = [t] → (s.thread t).isDetached = true
  processExit : ∀ t p, a = .processExit t → (s.thread t).owner = some p →
    ∀ u ∈ (s.proc p).threads, (s.thread u).exited = true → (s.thread u).reclaimable = true
  preempted : ∀ t c p, a = .terminateThreads t c → (s.thread t).owner = some p →
    ∀ u ∈ (s.proc p).threads, u ≠ t → (s.thread u).exited = true ∨ (s.thread u).running = false

/-- Threads and references are counted, and the list holds its threads, among them all that have
exited. -/
structure ProcOk (s : EndSys Cpu Pid Tid) (p : Pid) : Prop where
  count : (s.proc p).threadCount = (s.proc p).threads.length
  refs : (s.proc p).refcount = (if (s.proc p).reaped then 0 else 1) + (s.proc p).threads.length
  freed : (s.proc p).freed = true ↔ (s.proc p).refcount = 0
  nodup : (s.proc p).threads.Nodup
  listed : ∀ t ∈ (s.proc p).threads, (s.thread t).owner = some p ∧ (s.thread t).added = true
  owned : ∀ t, (s.thread t).exited = true → (s.thread t).owner = some p → t ∈ (s.proc p).threads
  ended : (s.proc p).started = true → (∀ t ∈ (s.proc p).threads, (s.thread t).exited = true) →
    (s.proc p).state = .zombie
  reclaimable : (s.proc p).state = .zombie → ∀ t ∈ (s.proc p).threads,
    (s.thread t).exited = true → (s.thread t).reclaimable = true

/-- Every exited thread of a process is in the zombie list of some CPU. -/
structure EndInv (s : EndSys Cpu Pid Tid) : Prop where
  procs : ∀ p, ProcOk s p
  unborn : ∀ t, (s.thread t).born = false → (s.thread t).owner = none ∧
    (s.thread t).added = false ∧ (s.thread t).exited = false ∧ (s.thread t).pc = .user
  ending : ∀ t p, (s.thread t).pc = .ending → (s.thread t).owner = some p →
    (s.proc p).state = .zombie
  zombies : ∀ c, ∀ t ∈ s.zombies c, (s.thread t).exited = true
  buried : ∀ t, (s.thread t).exited = true → (s.thread t).owner ≠ none → ∃ c, t ∈ s.zombies c

theorem EndInv.of_init (h : s.Init) : EndInv s := by
  refine ⟨fun p => ?_, fun t _ => (h.thread t).2, fun t p hpc => ?_, fun c t ht => ?_,
    fun t ht => ?_⟩
  · have hp := h.proc p
    constructor <;> simp [hp]
    intro t hexited
    rw [(h.thread t).2.2.2.1] at hexited
    cases hexited
  · rw [(h.thread t).2.2.2.2] at hpc
    cases hpc
  · rw [h.zombies c] at ht
    cases ht
  · rw [(h.thread t).2.2.2.1] at ht
    cases ht

theorem EndInv.born (h : EndInv s)
    (ht : (s.thread t).owner ≠ none ∨ (s.thread t).added = true ∨ (s.thread t).exited = true) :
    (s.thread t).born = true := by
  by_contra hb
  obtain ⟨howner, hadded, hexited, -⟩ := h.unborn t (Bool.eq_false_iff.mpr hb)
  simp [howner, hadded, hexited] at ht

theorem EndInv.freed_iff (h : EndInv s) :
    (s.proc p).freed = true ↔ (s.proc p).reaped = true ∧ (s.proc p).threads = [] := by
  rw [(h.procs p).freed, (h.procs p).refs]
  cases (s.proc p).reaped <;> simp

/-- No reference is left to a process that was reaped and whose threads were reclaimed. -/
theorem EndInv.sound (h : EndInv s) : EndsSound s := by
  refine ⟨fun p => (h.procs p).ended, fun p => (h.procs p).reclaimable, ?_⟩
  intro p hzombie hreaped hexited hclean
  have hempty : (s.proc p).threads = [] := by
    refine eq_nil_iff_forall_not_mem.mpr fun t ht => ?_
    obtain ⟨c, hc⟩ := h.buried t (hexited t ht) (by simp [((h.procs p).listed t ht).1])
    have hrecl := (h.procs p).reclaimable hzombie t ht (h.zombies c t hc)
    rw [hclean c t hc] at hrecl
    cases hrecl
  rw [(h.procs p).freed, (h.procs p).refs, hreaped, hempty]
  rfl

def EndProc.core (pr : EndProc Tid) : List Tid × ℕ × ℕ × Bool × Bool :=
  (pr.threads, pr.threadCount, pr.refcount, pr.reaped, pr.freed)

theorem EndProc.core_eq {a b : EndProc Tid} (h : a.core = b.core) :
    a.threads = b.threads ∧ a.threadCount = b.threadCount ∧ a.refcount = b.refcount ∧
      a.reaped = b.reaped ∧ a.freed = b.freed := by
  simpa only [EndProc.core, Prod.mk.injEq] using h

theorem ProcOk.rebuild (h : ProcOk s p) (hcore : (s'.proc p).core = (s.proc p).core)
    (hlisted : ∀ t ∈ (s.proc p).threads,
      (s'.thread t).owner = (s.thread t).owner ∧ (s'.thread t).added = (s.thread t).added)
    (howned : ∀ t, (s'.thread t).exited = true → (s'.thread t).owner = some p →
      t ∈ (s.proc p).threads)
    (hended : (s'.proc p).started = true → (∀ t ∈ (s.proc p).threads, (s'.thread t).exited = true) →
      (s'.proc p).state = .zombie)
    (hrecl : (s'.proc p).state = .zombie → ∀ t ∈ (s.proc p).threads,
      (s'.thread t).exited = true → (s'.thread t).reclaimable = true) : ProcOk s' p := by
  obtain ⟨hthreads, hcount, href, hreaped, hfreed⟩ := EndProc.core_eq hcore
  constructor
  · rw [hcount, hthreads]
    exact h.count
  · rw [href, hreaped, hthreads]
    exact h.refs
  · rw [hfreed, href]
    exact h.freed
  · rw [hthreads]
    exact h.nodup
  · intro t ht
    rw [hthreads] at ht
    obtain ⟨howner, hadded⟩ := hlisted t ht
    rw [howner, hadded]
    exact h.listed t ht
  · rw [hthreads]
    exact howned
  · rw [hthreads]
    exact hended
  · rw [hthreads]
    exact hrecl

theorem ProcOk.frame (h : ProcOk s p) (hproc : s'.proc p = s.proc p)
    (hsame : ∀ t ∈ (s.proc p).threads, s'.thread t = s.thread t)
    (howned : ∀ t, (s'.thread t).exited = true → (s'.thread t).owner = some p →
      t ∈ (s.proc p).threads) : ProcOk s' p := by
  refine h.rebuild (by rw [hproc]) (fun t ht => by rw [hsame t ht]; exact ⟨rfl, rfl⟩)
    howned ?_ ?_ <;>
    rw [hproc]
  · exact fun hstarted hall => h.ended hstarted fun t ht => hsame t ht ▸ hall t ht
  · intro hzombie t ht
    rw [hsame t ht]
    exact h.reclaimable hzombie t ht

structure Unnoticed (s : EndSys Cpu Pid Tid) (a b : EndThread Pid Tid) : Prop where
  owner : b.owner = a.owner
  born : b.born = a.born
  added : b.added = a.added
  exited : b.exited = a.exited
  reclaimable : a.reclaimable = true → b.reclaimable = true
  ending : b.pc = .ending → a.pc = .ending ∨ ∀ p, a.owner = some p → (s.proc p).state = .zombie
  user : a.born = true ∨ b.pc = a.pc

theorem Unnoticed.refl (a : EndThread Pid Tid) : Unnoticed s a a :=
    ⟨rfl, rfl, rfl, rfl, id, .inl, .inr rfl⟩

theorem EndInv.quiet (h : EndInv s) (hproc : s'.proc = s.proc)
    (hquiet : ∀ t, Unnoticed s (s.thread t) (s'.thread t))
    (hzombies : ∀ c, ∀ t ∈ s'.zombies c, t ∈ s.zombies c ∨ (s.thread t).exited = true)
    (hkept : ∀ c, ∀ t ∈ s.zombies c, (s.thread t).owner ≠ none → t ∈ s'.zombies c) : EndInv s' := by
  refine ⟨fun p => ?_, fun t hborn => ?_, fun t p hpc howner => ?_, fun c t ht => ?_,
    fun t ht howner => ?_⟩
  · refine (h.procs p).rebuild (by rw [hproc]) (fun t _ => ⟨(hquiet t).owner, (hquiet t).added⟩)
      (fun t hexited howner => ?_) ?_ ?_
    · rw [(hquiet t).exited] at hexited
      rw [(hquiet t).owner] at howner
      exact (h.procs p).owned t hexited howner
    · rw [hproc]
      intro hstarted hall
      exact (h.procs p).ended hstarted fun t ht => (hquiet t).exited ▸ hall t ht
    · rw [hproc]
      intro hzombie t ht hexited
      rw [(hquiet t).exited] at hexited
      exact (hquiet t).reclaimable ((h.procs p).reclaimable hzombie t ht hexited)
  · rw [(hquiet t).born] at hborn
    rw [(hquiet t).owner, (hquiet t).added, (hquiet t).exited,
      (hquiet t).user.resolve_left (by simp [hborn])]
    exact h.unborn t hborn
  · rw [(hquiet t).owner] at howner
    rw [hproc]
    exact ((hquiet t).ending hpc).elim (h.ending t p · howner) fun hz => hz p howner
  · rw [(hquiet t).exited]
    exact (hzombies c t ht).elim (h.zombies c t) id
  · rw [(hquiet t).exited] at ht
    rw [(hquiet t).owner] at howner
    obtain ⟨c, hc⟩ := h.buried t ht howner
    exact ⟨c, hkept c t hc howner⟩

section Fields
variable (s : EndSys Cpu Pid Tid)

@[simp] theorem setThread_self [DecidableEq Tid] (th : EndThread Pid Tid) :
  (s.setThread t th).thread t = th := update_self ..

theorem setThread_of_ne [DecidableEq Tid] (h : u ≠ t) (th : EndThread Pid Tid) :
    (s.setThread t th).thread u = s.thread u :=
  update_of_ne h ..

@[simp] theorem setProc_self [DecidableEq Pid] (pr : EndProc Tid) : (s.setProc p pr).proc p = pr :=
    update_self ..

theorem setProc_of_ne [DecidableEq Pid] {q : Pid} (h : q ≠ p) (pr : EndProc Tid) :
    (s.setProc p pr).proc q = s.proc q :=
  update_of_ne h ..

theorem mem_zombies_bury [DecidableEq Cpu] [DecidableEq Tid] {d : Cpu} :
    u ∈ (s.bury t c).zombies d ↔ u ∈ s.zombies d ∨ d = c ∧ u = t := by
  by_cases hd : d = c
  · subst hd
    have hlist : (s.bury t d).zombies d = t :: s.zombies d := update_self ..
    rw [hlist, mem_cons, or_comm, and_iff_right rfl]
  · have hlist : (s.bury t c).zombies d = s.zombies d := update_of_ne hd ..
    simp [hlist, hd]

theorem bury_thread_self [DecidableEq Cpu] [DecidableEq Tid] :
    (s.bury t c).thread t = { s.thread t with gone := true } :=
  update_self ..

theorem bury_thread_of_ne [DecidableEq Cpu] [DecidableEq Tid] (h : u ≠ t) :
    (s.bury t c).thread u = s.thread u :=
  update_of_ne h ..

theorem exitLast_same [DecidableEq Pid] (o : Option Pid) :
    (s.exitLast o).thread = s.thread ∧ (s.exitLast o).zombies = s.zombies := by
  cases o with
  | none => exact ⟨rfl, rfl⟩
  | some p =>
    rw [exitLast]
    split <;> exact ⟨rfl, rfl⟩

theorem exitLast_proc_of_ne [DecidableEq Pid] {o : Option Pid} (h : o ≠ some p) :
    (s.exitLast o).proc p = s.proc p := by
  cases o with
  | none => rfl
  | some q =>
    rw [exitLast]
    split
    · refine setProc_of_ne s ?_ _
      rintro rfl
      exact h rfl
    · rfl

theorem exitLast_proc_self [DecidableEq Pid] : (s.exitLast (some p)).proc p =
    if (s.proc p).threadCount ≤ 1 then { s.proc p with state := .zombie } else s.proc p := by
  rw [exitLast]
  split
  · exact setProc_self ..
  · rfl

end Fields

section Threads
variable [DecidableEq Tid]

theorem EndInv.setThread (h : EndInv s) {th : EndThread Pid Tid}
    (hquiet : Unnoticed s (s.thread t) th) : EndInv (s.setThread t th) := by
  refine h.quiet rfl (fun u => ?_) (fun _ _ => .inl) fun _ _ hu _ => hu
  by_cases hu : u = t
  · rw [hu, setThread_self]
    exact hquiet
  · rw [setThread_of_ne s hu]
    exact .refl _

theorem EndInv.bury [DecidableEq Cpu] (h : EndInv s) (hexited : (s.thread t).exited = true) :
    EndInv (s.bury t c) := by
  refine h.quiet rfl (fun u => ?_) (fun d u hu => ?_) fun d u hu _ =>
    (mem_zombies_bury s).mpr (.inl hu)
  · by_cases hu : u = t
    · rw [hu, bury_thread_self]
      exact ⟨rfl, rfl, rfl, rfl, id, .inl, .inr rfl⟩
    · rw [bury_thread_of_ne _ hu]
      exact .refl _
  · refine ((mem_zombies_bury s).mp hu).imp id ?_
    rintro ⟨-, rfl⟩
    exact hexited

theorem EndInv.spawn (h : EndInv s) (hborn : (s.thread u).born = false) :
    EndInv (s.setThread u { s.thread u with born := true, owner := some p }) := by
  obtain ⟨-, hadded, hexited, hpc⟩ := h.unborn u hborn
  generalize hs' : s.setThread u { s.thread u with born := true, owner := some p } = s'
  have hself : s'.thread u = { s.thread u with born := true, owner := some p } := by
    rw [← hs', setThread_self]
  have hother : ∀ t, t ≠ u → s'.thread t = s.thread t := fun t ht => by
    rw [← hs', setThread_of_ne s ht]
  have hproc : s'.proc = s.proc := by rw [← hs']; rfl
  have hzombies : s'.zombies = s.zombies := by rw [← hs']; rfl
  have hold : ∀ t, (s'.thread t).exited = true → t ≠ u := by
    rintro t ht rfl
    rw [hself] at ht
    exact Bool.false_ne_true (hexited.symm.trans ht)
  refine ⟨fun q => ?_, fun t ht => ?_, fun t q ht howner => ?_, fun d t ht => ?_, fun t ht => ?_⟩
  · refine (h.procs q).frame (by rw [hproc]) (fun t ht => hother t ?_) fun t ht howner => ?_
    · rintro rfl
      exact Bool.false_ne_true (hadded.symm.trans ((h.procs q).listed t ht).2)
    · have hne := hold t ht
      rw [hother t hne] at ht howner
      exact (h.procs q).owned t ht howner
  · by_cases htu : t = u
    · rw [htu, hself] at ht
      cases ht
    · rw [hother t htu] at ht ⊢
      exact h.unborn t ht
  · by_cases htu : t = u
    · rw [htu, hself, hpc] at ht
      cases ht
    · rw [hother t htu] at ht howner
      rw [hproc]
      exact h.ending t q ht howner
  · rw [hzombies] at ht
    have hex := h.zombies d t ht
    rw [hother t fun htu => Bool.false_ne_true (hexited.symm.trans (htu ▸ hex))]
    exact hex
  · have hne := hold t ht
    rw [hother t hne] at ht ⊢
    rw [hzombies]
    exact h.buried t ht

theorem EndInv.unlink [DecidableEq Cpu] (h : EndInv s) (hz : (s.thread z).owner = none) :
    EndInv { s with zombies := update s.zombies c ((s.zombies c).erase z) } := by
  refine h.quiet rfl (fun _ => .refl _) (fun d t ht => .inl ?_) fun d t ht ho => ?_
  · exact Lib.mem_of_mem_update (fun _ => mem_of_mem_erase) ht
  · have hne : t ≠ z := fun he => ho (he ▸ hz)
    by_cases hd : d = c
    · subst hd
      simpa [mem_erase_of_ne hne] using ht
    · simpa [hd] using ht

end Threads

section Ends

/-- What the exit of a thread does: after the last one the process is a zombie, and a zombie's
exited threads are reclaimable. -/
structure LeavesOk (s s' : EndSys Cpu Pid Tid) (t : Tid) (p : Pid) : Prop where
  mem : t ∈ (s.proc p).threads
  core : (s'.proc p).core = (s.proc p).core
  last : (∀ u ∈ (s.proc p).threads, u ≠ t → (s.thread u).exited = true) →
    (s'.proc p).state = .zombie
  reclaimable : (s'.proc p).state = .zombie → (s'.thread t).reclaimable = true ∧
    ∀ u ∈ (s.proc p).threads, u ≠ t → (s.thread u).exited = true → (s.thread u).reclaimable = true
  zombie : (s.proc p).state = .zombie → (s'.proc p).state = .zombie

theorem EndInv.leave (h : EndInv s) {d : Bool} (hborn : (s.thread t).born = true)
    (hself : s'.thread t = { s.thread t with exited := true, gone := true, isDetached := d })
    (hother : ∀ u, u ≠ t → s'.thread u = s.thread u)
    (hzombies : ∀ d u, u ∈ s'.zombies d ↔ u ∈ s.zombies d ∨ d = c ∧ u = t)
    (hproc : ∀ p, (s.thread t).owner ≠ some p → s'.proc p = s.proc p)
    (hleaves : ∀ p, (s.thread t).owner = some p → LeavesOk s s' t p) : EndInv s' := by
  classical
  have hsame : ∀ u, (s'.thread u).owner = (s.thread u).owner ∧
      (s'.thread u).added = (s.thread u).added ∧ (s'.thread u).pc = (s.thread u).pc := fun u => by
    by_cases hu : u = t
    · rw [hu, hself]
      exact ⟨rfl, rfl, rfl⟩
    · rw [hother u hu]
      exact ⟨rfl, rfl, rfl⟩
  have howned : ∀ p u, (s'.thread u).exited = true → (s'.thread u).owner = some p →
    u ∈ (s.proc p).threads := by
    intro p u hexited ho
    rw [(hsame u).1] at ho
    by_cases hu : u = t
    · subst hu
      exact (hleaves p ho).mem
    · rw [hother u hu] at hexited
      exact (h.procs p).owned u hexited ho
  refine ⟨fun p => ?_, fun u hu => ?_, fun u p hu ho => ?_, fun d u hu => ?_, fun u hu ho => ?_⟩
  · by_cases ho : (s.thread t).owner = some p
    · have hl := hleaves p ho
      refine (h.procs p).rebuild hl.core (fun u _ => ⟨(hsame u).1, (hsame u).2.1⟩) (howned p)
        (fun _ hall => hl.last fun u hu hut => hother u hut ▸ hall u hu) fun hz u hu hexited => ?_
      by_cases hut : u = t
      · rw [hut]
        exact (hl.reclaimable hz).1
      · rw [hother u hut] at hexited ⊢
        exact (hl.reclaimable hz).2 u hu hut hexited
    · exact (h.procs p).frame (hproc p ho)
        (fun u hu => hother u fun hut => ho (hut ▸ ((h.procs p).listed u hu).1)) (howned p)
  · by_cases hut : u = t
    · rw [hut, hself, hborn] at hu
      cases hu
    · rw [hother u hut] at hu ⊢
      exact h.unborn u hu
  · rw [(hsame u).1] at ho
    rw [(hsame u).2.2] at hu
    have hz := h.ending u p hu ho
    by_cases hop : (s.thread t).owner = some p
    · exact (hleaves p hop).zombie hz
    · rw [hproc p hop]
      exact hz
  · by_cases hut : u = t
    · rw [hut, hself]
    · rw [hother u hut]
      exact h.zombies d u (((hzombies d u).mp hu).resolve_right fun h => hut h.2)
  · by_cases hut : u = t
    · exact ⟨c, (hzombies c u).mpr (.inr ⟨rfl, hut⟩)⟩
    · rw [hother u hut] at hu ho
      obtain ⟨d, hd⟩ := h.buried u hu ho
      exact ⟨d, (hzombies d u).mpr (.inl hd)⟩

theorem EndInv.processExit [DecidableEq Pid] (h : EndInv s)
    (hrecl : ∀ u ∈ (s.proc p).threads, (s.thread u).exited = true →
    (s.thread u).reclaimable = true) :
    EndInv (s.processExit p) := by
  have hself : (s.processExit p).proc p = { s.proc p with state := .zombie } := setProc_self ..
  have hother : ∀ q, q ≠ p → (s.processExit p).proc q = s.proc q := fun q hq => setProc_of_ne s hq _
  refine ⟨fun q => ?_, h.unborn, fun u q hu ho => ?_, h.zombies, h.buried⟩ <;> by_cases hq : q = p
  · subst hq
    exact (h.procs q).rebuild (by rw [hself]; rfl) (fun _ _ => ⟨rfl, rfl⟩) (h.procs q).owned
      (fun _ _ => by rw [hself]) fun _ => hrecl
  · exact (h.procs q).frame (hother q hq) (fun _ _ => rfl) (h.procs q).owned
  · rw [hq, hself]
  · rw [hother q hq]
    exact h.ending u q hu ho

variable [DecidableEq Tid] [DecidableEq Cpu]

theorem EndInv.forceExit (h : EndInv s) (hz : (s.proc p).state = .zombie)
    (hu : u ∈ (s.proc p).threads)
    (hrun : (s.thread u).exited = true ∨ (s.thread u).running = false) :
    EndInv (s.threadForceExit c u) := by
  unfold threadForceExit
  split
  · exact h
  rename_i hexited
  rw [hrun.resolve_left hexited, if_neg Bool.false_ne_true]
  obtain ⟨howner, hadded⟩ := (h.procs p).listed u hu
  refine h.leave (c := c) (h.born (.inr (.inl hadded))) (by rw [bury_thread_self, setThread_self])
    (fun v hv => by rw [bury_thread_of_ne _ hv, setThread_of_ne s hv])
    (fun d v => mem_zombies_bury _)
    (fun _ _ => rfl) fun q ho => ?_
  rw [howner, some.injEq] at ho
  subst ho
  refine ⟨hu, rfl, fun _ => hz, fun _ => ⟨?_, fun v hv _ => (h.procs p).reclaimable hz v hv⟩,
    fun _ => hz⟩
  rw [bury_thread_self, setThread_self]
  rfl

theorem forceExit_proc (c : Cpu) (u : Tid) : (s.threadForceExit c u).proc = s.proc := by
  unfold threadForceExit
  split
  · rfl
  · split <;> rfl

theorem forceExit_thread (c : Cpu) (u v : Tid) : ((s.threadForceExit c u).thread v).exited = true ∨
    (s.threadForceExit c u).thread v = s.thread v := by
  unfold threadForceExit
  split
  · exact .inr rfl
  · by_cases hv : v = u
    · left
      split <;> simp [hv, bury_thread_self]
    · right
      split <;> simp [bury_thread_of_ne _ hv, setThread_of_ne _ hv]

theorem EndInv.terminate (c : Cpu) (t : Tid) {p : Pid} :
    ∀ (l : List Tid) {s : EndSys Cpu Pid Tid}, EndInv s →
    (s.proc p).state = .zombie → (∀ u ∈ l, u ∈ (s.proc p).threads) →
    (∀ u ∈ l, u ≠ t → (s.thread u).exited = true ∨ (s.thread u).running = false) →
    EndInv (l.foldl (fun s u => if u = t then s else s.threadForceExit c u) s)
  | [], _, h, _, _, _ => h
  | u :: l, s, h, hz, hl, hrun => by
    rw [foldl_cons]
    have hl' : ∀ v ∈ l, v ∈ (s.proc p).threads := fun v hv => hl v (mem_cons_of_mem _ hv)
    have hrun' := fun v hv => hrun v (mem_cons_of_mem u hv)
    split
    · exact EndInv.terminate c t l h hz hl' hrun'
    · rename_i hut
      refine EndInv.terminate (p := p) c t l
        (h.forceExit hz (hl u mem_cons_self) (hrun u mem_cons_self hut)) ?_ ?_ fun v hv hvt => ?_
      · rwa [forceExit_proc]
      · rwa [forceExit_proc]
      · rcases forceExit_thread c u v with hex | hsame
        · exact .inl hex
        · rw [hsame]
          exact hrun' v hv hvt

theorem EndInv.threadExit [DecidableEq Pid] (h : EndInv s) (hborn : (s.thread t).born = true)
    (hadded : ∀ p, (s.thread t).owner = some p → t ∈ (s.proc p).threads)
    (hlast : ∀ p, (s.thread t).owner = some p →
    (∀ u ∈ (s.proc p).threads, u ≠ t → (s.thread u).exited = true) →
      (s.proc p).state = .zombie ∨ (s.proc p).threads = [t])
    (hdetached : ∀ p, (s.thread t).owner = some p →
      (s.proc p).state = .zombie ∨ (s.proc p).threads = [t] → (s.thread t).isDetached = true) :
    EndInv (s.threadExit t c) := by
  have hself : (s.threadExit t c).thread t = { s.thread t with exited := true, gone := true } := by
    rw [EndSys.threadExit, bury_thread_self, (exitLast_same ..).1, setThread_self]
  refine h.leave (c := c) hborn hself
    (fun u hu => by
      rw [EndSys.threadExit, bury_thread_of_ne _ hu, (exitLast_same ..).1, setThread_of_ne s hu])
    (fun d u => by rw [EndSys.threadExit, mem_zombies_bury, (exitLast_same ..).2]; rfl)
    (fun p ho => (exitLast_proc_of_ne _ ho).trans rfl) fun p ho => ?_
  have hproc : (s.threadExit t c).proc p =
      if (s.proc p).threadCount ≤ 1 then { s.proc p with state := .zombie } else s.proc p := by
    rw [EndSys.threadExit, ho]
    exact exitLast_proc_self _
  have hrecl : (s.proc p).state = .zombie ∨ (s.proc p).threads = [t] →
      ((s.threadExit t c).thread t).reclaimable = true := fun hz => by
    simp [hself, EndThread.reclaimable, hdetached p ho hz]
  by_cases hone : (s.proc p).threads = [t]
  · have hcount : (s.proc p).threadCount ≤ 1 := by rw [(h.procs p).count, hone]; rfl
    rw [if_pos hcount] at hproc
    refine ⟨hadded p
      ho, by rw [hproc]; rfl, fun _ => by rw [hproc], fun _ => ⟨?_, ?_⟩, fun _ => by rw [hproc]⟩
    · exact hrecl (.inr hone)
    · intro u hu hut
      rw [hone, mem_singleton] at hu
      exact absurd hu hut
  · have hcount : ¬ (s.proc p).threadCount ≤ 1 := by
      rw [(h.procs p).count]
      intro hle
      obtain ⟨u, hu⟩ := length_eq_one_iff.mp
        (Nat.le_antisymm hle (length_pos_of_mem (hadded p ho)))
      have htu : t ∈ [u] := hu ▸ hadded p ho
      rw [mem_singleton] at htu
      exact hone (htu ▸ hu)
    rw [if_neg hcount] at hproc
    refine ⟨hadded p
      ho, by rw [hproc], fun hall => ?_, fun hz => ⟨?_, ?_⟩, fun hz => by rw [hproc, hz]⟩
    · rw [hproc]
      exact (hlast p ho hall).resolve_right hone
    · rw [hproc] at hz
      exact hrecl (.inl hz)
    · rw [hproc] at hz
      exact fun u hu _ => (h.procs p).reclaimable hz u hu

end Ends

section References
variable [DecidableEq Pid]

theorem EndInv.recount (h : EndInv s) (hok : ProcOk s' p)
    (hproc : ∀ q, q ≠ p → s'.proc q = s.proc q) (hstate : (s'.proc p).state = (s.proc p).state)
    (hthread : ∀ t, s'.thread t = s.thread t ∨ (s.thread t).owner = some p ∧
      ((s'.thread t).owner = some p ∨ (s'.thread t).owner = none) ∧ (s'.thread t).born = true ∧
      (s'.thread t).exited = (s.thread t).exited ∧ (s'.thread t).pc = (s.thread t).pc)
    (hzombies : s'.zombies = s.zombies) : EndInv s' := by
  have hexited : ∀ t, (s'.thread t).exited = (s.thread t).exited := fun t => by
    rcases hthread t with ht | ⟨-, -, -, ht, -⟩
    · rw [ht]
    · exact ht
  refine ⟨fun q => ?_, fun t ht => ?_, fun t q hpc ho => ?_, fun c t ht => ?_, fun t ht ho => ?_⟩
  · by_cases hq : q = p
    · exact hq ▸ hok
    have hsame : ∀ t ∈ (s.proc q).threads, s'.thread t = s.thread t := fun t ht => by
      rcases hthread t with hs | ⟨ho, -⟩
      · exact hs
      · rw [((h.procs q).listed t ht).1, some.injEq] at ho
        exact absurd ho hq
    refine (h.procs q).frame (hproc q hq) hsame fun t hex ho => ?_
    rcases hthread t with hs | ⟨-, ho' | ho', -⟩
    · rw [hs] at hex ho
      exact (h.procs q).owned t hex ho
    · rw [ho', some.injEq] at ho
      exact absurd ho.symm hq
    · rw [ho'] at ho
      cases ho
  · rcases hthread t with hs | ⟨-, -, hb, -⟩
    · rw [hs] at ht ⊢
      exact h.unborn t ht
    · rw [hb] at ht
      cases ht
  · have hkeep : ∀ q, (s.proc q).state = .zombie → (s'.proc q).state = .zombie := fun q hz => by
      by_cases hq : q = p
      · rw [hq, hstate, ← hq, hz]
      · rw [hproc q hq, hz]
    rcases hthread t with hs | ⟨ho', ho'' | ho'', -, -, hpc'⟩
    · rw [hs] at hpc ho
      exact hkeep q (h.ending t q hpc ho)
    · rw [ho'', some.injEq] at ho
      exact hkeep q (h.ending t q (hpc' ▸ hpc) (ho ▸ ho'))
    · rw [ho''] at ho
      cases ho
  · rw [hexited]
    exact h.zombies c t (hzombies ▸ ht)
  · rw [hexited] at ht
    rw [hzombies]
    refine h.buried t ht ?_
    rcases hthread t with hs | ⟨ho', -⟩
    · rwa [hs] at ho
    · simp [ho']

theorem EndInv.reap (h : EndInv s) (hreaped : (s.proc p).reaped = false) :
    EndInv ((s.setProc p { s.proc p with reaped := true }).processUnref p) := by
  generalize hs' : (s.setProc p { s.proc p with reaped := true }).processUnref p = s'
  have hproc : s'.proc p = { s.proc p with
      reaped := true, refcount := (s.proc p).refcount - 1,
      freed := decide ((s.proc p).refcount - 1 = 0) } := by
    rw [← hs', processUnref, setProc_self, setProc_self]
  have hother : ∀ q, q ≠ p → s'.proc q = s.proc q := fun q hq => by
    rw [← hs', processUnref, setProc_of_ne _ hq, setProc_of_ne _ hq]
  have hthread : s'.thread = s.thread := by rw [← hs']; rfl
  have hok := h.procs p
  refine h.recount ⟨?_, ?_, ?_, ?_, ?_, ?_, ?_,
    ?_⟩ hother (by rw [hproc]) (fun t => .inl (by rw [hthread])) (by rw [← hs']; rfl) <;> rw [hproc]
  · exact hok.count
  · have hrefs := hok.refs
    rw [hreaped] at hrefs
    simp only [hrefs]
    simp
  · simp
  · exact hok.nodup
  · rw [hthread]
    exact hok.listed
  · rw [hthread]
    exact hok.owned
  · rw [hthread]
    exact hok.ended
  · rw [hthread]
    exact hok.reclaimable

variable [DecidableEq Tid] {z : Tid}

theorem EndInv.add (h : EndInv s) (howner : (s.thread u).owner = some p)
    (hadded : (s.thread u).added = false) (hfreed : (s.proc p).freed = false) :
    EndInv (s.processAddThread p u) := by
  generalize hs' : s.processAddThread p u = s'
  have hproc : s'.proc p = { s.proc p with
      threads := u :: (s.proc p).threads, threadCount := (s.proc p).threadCount + 1,
      refcount := (s.proc p).refcount + 1, started := true } := by
    rw [← hs']
    exact setProc_self ..
  have hself : s'.thread u = { s.thread u with added := true } := by
    rw [← hs', processAddThread, setThread_self]
  have hother : ∀ t, t ≠ u → s'.thread t = s.thread t := fun t ht => by
    rw [← hs', processAddThread, setThread_of_ne _ ht]
    rfl
  have hok := h.procs p
  have hnew : u ∉ (s.proc p).threads :=
    fun hu => Bool.false_ne_true (hadded.symm.trans (hok.listed u hu).2)
  have halive : (s.thread u).exited = false :=
    Bool.eq_false_iff.mpr fun hex => hnew (hok.owned u hex howner)
  have hold : ∀ t ∈ (s.proc p).threads, s'.thread t = s.thread t :=
    fun t ht => hother t fun htu => hnew (htu ▸ ht)
  refine h.recount ⟨?_, ?_, ?_, ?_, ?_, ?_, ?_, ?_⟩
    (fun q hq => by rw [← hs']; exact setProc_of_ne _ hq _) (by rw [hproc]) (fun t => ?_)
    (by rw [← hs']; rfl) <;> try rw [hproc]
  · simp only [hok.count, length_cons]
  · simp only [hok.refs, length_cons, Nat.add_assoc]
  · simp [hfreed]
  · exact nodup_cons.mpr ⟨hnew, hok.nodup⟩
  · intro t ht
    rcases mem_cons.mp ht with rfl | ht
    · rw [hself]
      exact ⟨howner, rfl⟩
    · rw [hold t ht]
      exact hok.listed t ht
  · intro t hex ho
    by_cases ht : t = u
    · exact ht ▸ mem_cons_self ..
    · rw [hother t ht] at hex ho
      exact mem_cons_of_mem _ (hok.owned t hex ho)
  · intro _ hall
    have hex := hall u (mem_cons_self ..)
    rw [hself] at hex
    exact absurd (halive.symm.trans hex) Bool.false_ne_true
  · intro hz t ht hex
    rcases mem_cons.mp ht with rfl | ht
    · rw [hself] at hex
      exact absurd (halive.symm.trans hex) Bool.false_ne_true
    · rw [hold t ht] at hex ⊢
      exact hok.reclaimable hz t ht hex
  · by_cases ht : t = u
    · right
      rw [ht, hself]
      exact ⟨howner, .inl howner, h.born (.inl (by simp [howner])), rfl, rfl⟩
    · exact .inl (hother t ht)

theorem EndInv.remove (h : EndInv s) (hexited : (s.thread z).exited = true)
    (howner : (s.thread z).owner = some p) :
    EndInv ((s.processRemoveThread p z).processUnref p) := by
  have hok := h.procs p
  have hz := hok.owned z hexited howner
  generalize hs' : (s.processRemoveThread p z).processUnref p = s'
  rw [processRemoveThread, if_pos hz] at hs'
  have hproc : s'.proc p = { s.proc p with
      threads := (s.proc p).threads.erase z, threadCount := (s.proc p).threadCount - 1,
      refcount := (s.proc p).refcount - 1, freed := decide ((s.proc p).refcount - 1 = 0) } := by
    have hset : ((s.setProc p { s.proc p with
        threads := (s.proc p).threads.erase z, threadCount :=
        (s.proc p).threadCount - 1 }).setThread z
          { s.thread z with owner := none }).proc p = { s.proc p with
        threads := (s.proc p).threads.erase z, threadCount := (s.proc p).threadCount - 1 } :=
          setProc_self ..
    rw [← hs', processUnref, setProc_self, hset]
  have hself : s'.thread z = { s.thread z with owner := none } := by
    rw [← hs']
    exact setThread_self ..
  have hother : ∀ t, t ≠ z → s'.thread t = s.thread t := fun t ht => by
    rw [← hs']
    exact setThread_of_ne _ ht _
  have hmem : ∀ t, t ∈ (s.proc p).threads.erase z ↔ t ≠ z ∧ t ∈ (s.proc p).threads :=
    fun t => hok.nodup.mem_erase_iff
  have hpos := length_pos_of_mem hz
  refine h.recount ⟨?_, ?_, ?_, ?_, ?_, ?_, ?_, ?_⟩
    (fun q hq => by rw [← hs', processUnref, setProc_of_ne _ hq]; exact setProc_of_ne _ hq _)
    (by rw [hproc]) (fun t => ?_) (by rw [← hs']; rfl) <;> try rw [hproc]
  · simp only [hok.count, length_erase_of_mem hz]
  · simp only [hok.refs, length_erase_of_mem hz]
    omega
  · simp
  · exact hok.nodup.erase z
  · intro t ht
    obtain ⟨hne, ht⟩ := (hmem t).mp ht
    rw [hother t hne]
    exact hok.listed t ht
  · intro t hex ho
    have hne : t ≠ z := by
      rintro rfl
      rw [hself] at ho
      cases ho
    rw [hother t hne] at hex ho
    exact (hmem t).mpr ⟨hne, hok.owned t hex ho⟩
  · intro hstarted hall
    refine hok.ended hstarted fun t ht => ?_
    by_cases hne : t = z
    · exact hne ▸ hexited
    · exact hother t hne ▸ hall t ((hmem t).mpr ⟨hne, ht⟩)
  · intro hzombie t ht
    obtain ⟨hne, ht⟩ := (hmem t).mp ht
    rw [hother t hne]
    exact hok.reclaimable hzombie t ht
  · by_cases ht : t = z
    · right
      rw [ht, hself]
      exact ⟨howner, .inr rfl, h.born (.inr (.inr hexited)), rfl, rfl⟩
    · exact .inl (hother t ht)

theorem EndInv.reclaim [DecidableEq Cpu] (h : EndInv s) (hexited : (s.thread z).exited = true) :
    ∃ s', s.reclaim c z = some s' ∧ EndInv s' ∧ ∀ t, (s.thread t).exited = true →
    (s'.thread t).exited = true := by
  unfold EndSys.reclaim
  split
  · split
    · rename_i p howner
      have hz := (h.procs p).owned z hexited howner
      split
      · simp [(h.freed_iff.mp ‹_›).2] at hz
      refine ⟨_, rfl, ?_⟩
      have hremoved := h.remove hexited howner
      rw [processRemoveThread, if_pos hz] at hremoved ⊢
      refine ⟨hremoved.unlink (congrArg EndThread.owner (setThread_self ..)), fun t ht => ?_⟩
      by_cases htz : t = z
      · subst htz
        exact (congrArg EndThread.exited (setThread_self ..)).trans ht
      · exact (congrArg EndThread.exited (setThread_of_ne _ htz _)).trans ht
    · rename_i howner
      exact ⟨_, rfl, h.unlink howner, fun _ => id⟩
  · exact ⟨_, rfl, h, fun _ => id⟩

theorem EndInv.cleanup [DecidableEq Cpu] (c : Cpu) :
    ∀ (l : List Tid) {s : EndSys Cpu Pid Tid}, EndInv s →
    (∀ z ∈ l, (s.thread z).exited = true) → ∃ s',
    l.foldlM (fun s z => EndSys.reclaim s c z) s = some s' ∧ EndInv s'
  | [], s, h, _ => ⟨s, rfl, h⟩
  | z :: l, s, h, hl => by
    obtain ⟨s1, hs1, h1, hkeep⟩ := h.reclaim (c := c) (hl z (mem_cons_self ..))
    obtain ⟨s2, hs2, h2⟩ := EndInv.cleanup c l h1 fun v hv => hkeep v (hl v (mem_cons_of_mem _ hv))
    exact ⟨s2, by simpa [hs1] using hs2, h2⟩

end References

section Run

theorem EndSys.born_of_acts (h : s.acts t = true) : (s.thread t).born = true :=
    ((Bool.and_eq_true ..).mp h).1

theorem of_unless_freed {c : Prop} [Decidable c] {b : Bool} {r : EndSys Cpu Pid Tid}
    (h : (if c then if b = true then none else some r else some s) = some s') :
    s' = s ∨ c ∧ s' = r := by
  split_ifs at h with hc
  · exact .inr ⟨hc, (some.inj h).symm⟩
  · exact .inl (some.inj h).symm

variable [DecidableEq Tid]

theorem EndInv.joinDone (h : EndInv s) (hborn : (s.thread t).born = true) :
    EndInv (s.joinDone t u) := by
  unfold EndSys.joinDone
  have hset : EndInv (s.setThread u { s.thread u with hasBeenJoined := true, joiner := none }) :=
    h.setThread ⟨rfl, rfl, rfl, rfl, fun _ => Bool.or_true _, .inl, .inr rfl⟩
  refine hset.setThread ⟨rfl, rfl, rfl, rfl, id, nofun, .inl ?_⟩
  by_cases htu : t = u
  · subst htu
    rwa [setThread_self]
  · rwa [setThread_of_ne s htu]

variable [DecidableEq Pid]

theorem EndInv.join (h : EndInv s) (hborn : (s.thread t).born = true) :
    EndInv (s.sysThreadJoin t u) := by
  unfold sysThreadJoin
  split
  · rename_i hcond
    have hset : EndInv (s.setThread u { s.thread u with joiner := some t }) :=
      h.setThread ⟨rfl, rfl, rfl, rfl, id, .inl, .inr rfl⟩
    split
    · refine hset.setThread ?_
      rw [setThread_of_ne s hcond.1]
      exact ⟨rfl, rfl, rfl, rfl, id, nofun, .inl hborn⟩
    · exact hset
  · exact h

theorem EndInv.detach (h : EndInv s) : EndInv (s.sysThreadDetach t u) := by
  unfold sysThreadDetach
  split
  · exact h.setThread ⟨rfl, rfl, rfl, rfl, fun _ => rfl, .inl, .inr rfl⟩
  · exact h

variable [DecidableEq Cpu]

theorem EndInv.step {a : EndAction Cpu Pid Tid} (h : EndInv s) (hok : EndCalm s a)
    (hs : s.step a = some s') : EndInv s' := by
  cases a with
  | spawn p u =>
    simp only [EndSys.step] at hs
    split at hs <;> obtain rfl := some.inj hs
    · exact h
    · rename_i hborn
      exact h.spawn (Bool.eq_false_iff.mpr hborn)
  | add u =>
    simp only [EndSys.step] at hs
    split at hs
    · rename_i p howner
      split at hs
      · obtain rfl := some.inj hs
        exact h
      · rename_i hadded
        split at hs
        · cases hs
        · rename_i hfreed
          obtain rfl := some.inj hs
          exact h.add howner (Bool.eq_false_iff.mpr hadded) (Bool.eq_false_iff.mpr hfreed)
    · obtain rfl := some.inj hs
      exact h
  | exit t c =>
    obtain rfl | ⟨hcond, rfl⟩ := of_unless_freed hs
    · exact h
    · exact h.threadExit (born_of_acts hcond.1) (fun p => hok.added t p rfl)
        (fun p => hok.last t c p rfl) fun p => hok.detached t c p rfl
  | processExit t =>
    simp only [EndSys.step] at hs
    split at hs
    · rename_i p howner
      obtain rfl | ⟨hcond, rfl⟩ := of_unless_freed hs
      · exact h
      refine (h.processExit (hok.processExit t p rfl howner)).setThread
        ⟨rfl, rfl, rfl, rfl, id, fun _ => .inr fun q ho => ?_, .inl (born_of_acts hcond.1)⟩
      obtain rfl := some.inj (howner.symm.trans ho)
      rw [EndSys.processExit, setProc_self]
    · obtain rfl := some.inj hs
      exact h
  | terminateThreads t c =>
    simp only [EndSys.step] at hs
    split at hs
    · rename_i p howner
      obtain rfl | ⟨hcond, rfl⟩ := of_unless_freed hs
      · exact h
      have hset : EndInv (s.setThread t { s.thread t with pc := .alone }) :=
        h.setThread ⟨rfl, rfl, rfl, rfl, id, nofun, .inl (born_of_acts hcond.1)⟩
      refine hset.terminate c t _ (h.ending t p hcond.2 howner) (fun _ => id) fun u hu hut => ?_
      rw [setThread_of_ne s hut]
      exact hok.preempted t c p rfl howner u hu hut
    · obtain rfl := some.inj hs
      exact h
  | bury t c => exact Lib.of_guard h (fun hcond => h.bury hcond.2) hs
  | join t u => exact Lib.of_guard h (fun hcond => h.join (born_of_acts hcond.1)) hs
  | joinDone t =>
    simp only [EndSys.step] at hs
    split at hs
    · exact Lib.of_guard h (fun hacts => h.joinDone (born_of_acts hacts)) hs
    · obtain rfl := some.inj hs
      exact h
  | detach t u => exact Lib.of_guard h (fun _ => h.detach) hs
  | setRunning t b =>
    obtain rfl := some.inj hs
    exact h.setThread ⟨rfl, rfl, rfl, rfl, id, .inl, .inr rfl⟩
  | cleanup c =>
    obtain ⟨s1, hs1, h1⟩ := h.cleanup c _ (h.zombies c)
    exact some.inj (hs1.symm.trans hs) ▸ h1
  | reap p =>
    simp only [EndSys.step] at hs
    split at hs
    · rename_i hcond
      split at hs
      · cases hs
      · obtain rfl := some.inj hs
        exact h.reap hcond.2
    · obtain rfl := some.inj hs
      exact h

theorem endInv_of_run (h : Lib.Reach EndSys.step EndSys.Init EndCalm s) : EndInv s :=
  h.invariant (fun _ => EndInv.of_init) fun _ _ _ h hok hs => h.step hok hs

end Run

def newProcess : EndSys (Fin 1) (Fin 1) (Fin 2) where
  proc _ := ⟨.running, [], 0, 1, false, false, false⟩
  thread _ := ⟨none, false, false, false, false, false, false, false, none, .user⟩
  zombies _ := []

theorem init_newProcess : newProcess.Init :=
    ⟨fun _ => rfl, fun _ => ⟨rfl, rfl, rfl, rfl, rfl⟩, fun _ => rfl⟩

instance (s : EndSys (Fin 1) (Fin 1) (Fin 2)) (a : EndAction (Fin 1) (Fin 1) (Fin 2)) :
    Decidable (EndCalm s a) :=
  @decidable_of_iff _ _ (endCalm_iff s a).symm (@instDecidableAnd _ _ inferInstance
    (@instDecidableAnd _ _ inferInstance
      (@instDecidableAnd _ _ inferInstance (@instDecidableAnd _ _ inferInstance inferInstance))))

/-- The main thread detaches itself, joins the thread it created, and exits; the process is
reaped. -/
def detachedRun : List (EndAction (Fin 1) (Fin 1) (Fin 2)) :=
  [.spawn 0 0, .add 0, .detach 0 0, .spawn 0 1, .add 1, .join 0 1, .exit 1 0, .join 0 1,
    .joinDone 0, .cleanup 0, .exit 0 0, .cleanup 0, .reap 0]

/-- A second thread exits without being joined, then the main thread. -/
def bothExitRun : List (EndAction (Fin 1) (Fin 1) (Fin 2)) :=
  [.spawn 0 0, .add 0, .spawn 0 1, .add 1, .exit 1 0, .exit 0 0, .cleanup 0]

/-- A process with one thread calls `exit`, is reaped, and the zombie list is cleaned. -/
def plainExitRun : List (EndAction (Fin 1) (Fin 1) (Fin 2)) :=
  [.spawn 0 0, .add 0, .processExit 0, .terminateThreads 0 0, .exit 0 0, .reap 0, .cleanup 0]

end Xnix
