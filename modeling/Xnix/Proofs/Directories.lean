import Xnix.Proofs.PageAlloc
import Xnix.Proofs.Windows

/-!
# Making and destroying directories

What `vmm_create_pd` and `vmm_destroy_pd` do to memory and to the allocator, whichever directory is
current.
-/

namespace Xnix

open Function Option

namespace Vmm

variable {s : Vmm} {cpu : Cpu} {t pd i : ℕ}

section Create

def copied (k g : ℕ → BitVec 32) (l : List ℕ) : ℕ → BitVec 32 :=
  l.foldl (fun g i => if hasBit (k i) ptePresent then update g i (k i) else g) g

theorem copied_apply (k : ℕ → BitVec 32) : ∀ (l : List ℕ) (g : ℕ → BitVec 32) (i : ℕ),
    copied k g l i = if i ∈ l ∧ hasBit (k i) ptePresent = true then k i else g i
  | [], g, i => by simp [copied]
  | j :: l, g, i => by
    rw [show copied k g (j :: l) =
      copied k (if hasBit (k j) ptePresent then update g j (k j) else g) l
      from rfl, copied_apply k l]
    by_cases hi : i ∈ l ∧ hasBit (k i) ptePresent = true
    · rw [if_pos hi, if_pos ⟨List.mem_cons_of_mem j hi.1, hi.2⟩]
    · rw [if_neg hi]
      by_cases hij : i = j
      · subst hij
        by_cases hp : hasBit (k i) ptePresent = true <;> simp [hp]
      · have hcons : ¬ (i ∈ j :: l ∧ hasBit (k i) ptePresent = true) := by
          simpa [hij] using hi
        split
        · exact update_of_ne hij ..
        · rfl

def newDirectory (k : ℕ → BitVec 32) (pd : ℕ) : ℕ → BitVec 32 :=
  update (copied k (fun _ => 0#32) kernelEntries) 1023
    (BitVec.ofNat 32 pd ||| ptePresent ||| pteRw)

def kpdPtr (current : Bool) (cpu : Cpu) : ℕ := if current then recursivePd else Window.two.vaddr cpu

variable {current : Bool} {g : ℕ → BitVec 32}

def withPage (s : Vmm) (pd : ℕ) (g : ℕ → BitVec 32) : Vmm := { s with mem := s.mem.setPage pd g }

theorem setEntry_withPage {x : BitVec 32} :
    (s.withPage pd g).setEntry pd i x = s.withPage pd (update g i x) := by
  simp only [setEntry, withPage]
  rw [Lib.Memory.write_eq_setPage, Lib.Memory.setPage_self, Lib.Memory.setPage_setPage]

section
variable (h : s.Ready cpu t) (hc : decide (s.kernelPd = s.cr3 cpu) = current)
include h hc

theorem Ready.openKernelPd (e : BitVec 32) : (s.withWindows t (shown e 0#32)).openKernelPd cpu =
      some (s.withWindows t (shown e (shownEntry current s.kernelPd)), kpdPtr current cpu) := by
  cases current with
  | true => exact if_pos (of_decide_eq_true hc)
  | false =>
    refine (if_neg (of_decide_eq_false hc)).trans ?_
    have := h.mapTempPage (f := shown e 0#32) .two s.kernelPd
    rwa [update_shown_two] at this

theorem Ready.closeKernelPd (e : BitVec 32) :
    (s.withWindows t (shown e (shownEntry current s.kernelPd))).closeKernelPd cpu =
      some (s.withWindows t (shown e 0#32)) := by
  cases current with
  | true => exact if_pos (of_decide_eq_true hc)
  | false =>
    refine (if_neg (of_decide_eq_false hc)).trans ?_
    have := h.unmapTempPage (f := shown e (windowEntry s.kernelPd)) .two
    rwa [update_shown_two] at this

theorem Ready.translate_kpdPtr (hk : IsPage s.kernelPd) {e : BitVec 32} :
    (s.withWindows t (shown e (shownEntry current s.kernelPd))).translate cpu (kpdPtr current cpu) =
      some s.kernelPd := by
  cases current with
  | true => exact h.translate_recursivePd.trans (congrArg some (of_decide_eq_true hc).symm)
  | false =>
    have := h.translate_window (f := shown e (windowEntry s.kernelPd)) .two (hasBit_windowEntry _)
    exact this.trans (congrArg some (pageOf_windowEntry hk))

end

structure Makes (s : Vmm) (cpu : Cpu) (t pd : ℕ) : Prop where
  ready : s.Ready cpu t
  page : IsPage pd
  ne_window : pd ≠ t
  ne_cr3 : pd ≠ s.cr3 cpu
  ne_kernel : pd ≠ s.kernelPd
  kernel_page : IsPage s.kernelPd
  kernel_ne_window : s.kernelPd ≠ t

theorem Makes.readyPage (h : s.Makes cpu t pd) : (s.withPage pd g).Ready cpu t :=
    h.ready.setPage h.ne_window h.ne_cr3

theorem Makes.translate_pd (h : s.Makes cpu t pd) {e : BitVec 32} :
    ((s.withPage pd g).withWindows t (shown (windowEntry pd) e)).translate cpu
    (Window.one.vaddr cpu) = some pd := by
  have := (h.readyPage (g := g)).translate_window (f := shown (windowEntry pd) e) .one
    (hasBit_windowEntry _)
  exact this.trans (congrArg some (pageOf_windowEntry h.page))

theorem Makes.copyEntry (h : s.Makes cpu t pd)
    (hc : decide (s.kernelPd = s.cr3 cpu) = current) (i : ℕ) :
    ((s.withPage pd g).withWindows t
    (shown (windowEntry pd) (shownEntry current s.kernelPd))).copyEntry cpu
        (Window.one.vaddr cpu) (kpdPtr current cpu) i =
      some ((s.withPage pd (if hasBit (s.mem s.kernelPd i) ptePresent then
        update g i (s.mem s.kernelPd i) else g)).withWindows t
          (shown (windowEntry pd) (shownEntry current s.kernelPd))) := by
  have hk : (s.withPage pd g).mem s.kernelPd = s.mem s.kernelPd :=
    Lib.Memory.setPage_of_ne h.ne_kernel.symm
  have hload := load_withWindows (i := i)
    (h.readyPage.translate_kpdPtr (s := s.withPage pd g) (e := windowEntry pd) hc h.kernel_page)
    h.kernel_ne_window
  rw [show (s.withPage pd g).kernelPd = s.kernelPd from rfl, hk] at hload
  rw [Vmm.copyEntry, hload]
  simp only [bind_eq_bind, bind_some]
  split
  · rw [store_withWindows h.translate_pd h.ne_window, setEntry_withPage]
  · rfl

theorem Makes.copyEntries (h : s.Makes cpu t pd) (hc : decide (s.kernelPd = s.cr3 cpu) = current) :
    ∀ (l : List ℕ) (g : ℕ → BitVec 32),
      l.foldlM (fun s i => s.copyEntry cpu (Window.one.vaddr cpu) (kpdPtr current cpu) i)
        ((s.withPage pd g).withWindows t (shown (windowEntry pd) (shownEntry current s.kernelPd))) =
      some ((s.withPage pd (copied (s.mem s.kernelPd) g l)).withWindows t
        (shown (windowEntry pd) (shownEntry current s.kernelPd)))
  | [], _ => rfl
  | i :: l, g => by
    rw [List.foldlM_cons, h.copyEntry hc, bind_eq_bind, bind_some, h.copyEntries hc l]
    rfl

theorem Makes.initPd (h : s.Makes cpu t pd) :
    s.initPd cpu pd = some (s.withPage pd (newDirectory (s.mem s.kernelPd) pd)) := by
  have hopen := h.ready.mapTempPage (f := shown 0#32 0#32) .one pd
  rw [update_shown_one, shown_zero, h.ready.withWindows_free] at hopen
  have htr : (s.withWindows t (shown (windowEntry pd) 0#32)).translate cpu (Window.one.vaddr cpu) =
    some pd := (h.ready.translate_window .one (hasBit_windowEntry _)).trans
      (congrArg some (pageOf_windowEntry h.page))
  rw [Vmm.initPd, hopen]
  simp only [bind_eq_bind, bind_some]
  rw [clearPage_withWindows htr h.ne_window]
  have hp := h.readyPage (g := fun _ => 0#32)
  refine (congrArg (Option.bind · _) (hp.openKernelPd rfl (windowEntry pd))).trans ?_
  refine (congrArg (Option.bind · _) (h.copyEntries rfl kernelEntries fun _ => 0#32)).trans ?_
  have hp := h.readyPage (g := copied (s.mem s.kernelPd) (fun _ => 0#32) kernelEntries)
  refine (congrArg (Option.bind · _) (hp.closeKernelPd rfl (windowEntry pd))).trans ?_
  simp only [Option.bind_some]
  rw [store_withWindows h.translate_pd h.ne_window, setEntry_withPage]
  have hclose := (h.readyPage (g := newDirectory (s.mem s.kernelPd) pd)).unmapTempPage
    (f := shown (windowEntry pd) 0#32) .one
  rwa [update_shown_one, shown_zero, h.readyPage.withWindows_free] at hclose

theorem Makes.vmmCreatePd (h : s.Makes cpu t s.pages.allocPage.2) (h0 : s.pages.allocPage.2 ≠ 0) :
    s.vmmCreatePd cpu = some (withPage { s with pages := s.pages.allocPage.1 } s.pages.allocPage.2
      (newDirectory (s.mem s.kernelPd) s.pages.allocPage.2), s.pages.allocPage.2) := by
  have hm : Makes { s with pages := s.pages.allocPage.1 } cpu t s.pages.allocPage.2 :=
    ⟨h.ready.setPages _, h.page, h.ne_window, h.ne_cr3, h.ne_kernel, h.kernel_page,
      h.kernel_ne_window⟩
  rw [Vmm.vmmCreatePd, if_neg h0, hm.initPd, map_some]

end Create

/-- The pages of the entries of `l` that `vmm_destroy_pd` takes for user tables. -/
def userTablesIn (s : Vmm) (pd : ℕ) (l : List ℕ) : List ℕ :=
  (l.filter fun i => isUserTable (s.mem pd i)).map fun i => pageOf (s.mem pd i)

def userTables (s : Vmm) (pd : ℕ) : List ℕ := s.userTablesIn pd (List.range 1022)

theorem userTablesIn_cons (s : Vmm) (pd i : ℕ) (l : List ℕ) : s.userTablesIn pd (i :: l) =
    if isUserTable (s.mem pd i) then pageOf (s.mem pd i) :: s.userTablesIn pd l
      else s.userTablesIn pd l := by
  unfold userTablesIn
  rw [List.filter_cons]
  split <;> rfl

theorem foldlM_freeTable (h : s.Ready cpu t) (hp : IsPage pd) (ht : pd ≠ t) :
    ∀ (l : List ℕ) (a : PageAlloc), l.foldlM (fun s i => s.freeTable cpu (Window.one.vaddr cpu) i)
      (withWindows { s with pages := a } t (shown (windowEntry pd) 0#32)) =
    some (withWindows { s with pages := (s.userTablesIn pd l).foldl PageAlloc.freePage a } t
      (shown (windowEntry pd) 0#32))
  | [], _ => rfl
  | i :: l, a => by
    have htr : (withWindows { s with pages := a } t (shown (windowEntry pd) 0#32)).translate cpu
        (Window.one.vaddr cpu) = some pd :=
      ((h.setPages a).translate_window .one (hasBit_windowEntry _)).trans
        (congrArg some (pageOf_windowEntry hp))
    rw [List.foldlM_cons, freeTable, load_withWindows htr ht]
    simp only [bind_eq_bind, bind_some]
    rw [userTablesIn_cons]
    by_cases hu : isUserTable (s.mem pd i) = true
    · rw [if_pos hu, if_pos hu, bind_some, List.foldl_cons]
      exact foldlM_freeTable h hp ht l _
    · rw [if_neg hu, if_neg hu, bind_some]
      exact foldlM_freeTable h hp ht l a

theorem Ready.vmmDestroyPd (h : s.Ready cpu t) (hp : IsPage pd) (ht : pd ≠ t)
    (hk : pd ≠ s.kernelPd) : s.vmmDestroyPd cpu pd = some { s with
      pages := ((s.userTables pd).foldl PageAlloc.freePage s.pages).freePage pd } := by
  have hopen := h.mapTempPage (f := shown 0#32 0#32) .one pd
  rw [update_shown_one, shown_zero, h.withWindows_free] at hopen
  rw [Vmm.vmmDestroyPd, if_neg hk, hopen, userTables]
  generalize List.range 1022 = l
  have hr := h.setPages ((s.userTablesIn pd l).foldl PageAlloc.freePage s.pages)
  have hclose := hr.unmapTempPage (f := shown (windowEntry pd) 0#32) .one
  rw [update_shown_one, shown_zero, hr.withWindows_free] at hclose
  simp only [bind_eq_bind, bind_some]
  rw [foldlM_freeTable h hp ht l s.pages, bind_some, hclose, bind_some]

end Vmm

end Xnix
