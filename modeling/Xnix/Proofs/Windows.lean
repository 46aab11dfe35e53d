import Xnix.Vmm

/-!
# The windows and the recursive entry

As long as the current directory has its recursive entry and its window entry, and the windows are
free between operations, each operation of `vmm.c` does what the same operation does that reads and
writes the pages of the directory and its tables directly, and leaves the windows free.
-/

namespace Xnix

open Function Option Lib Memory

section Entries

variable {v w b f : BitVec 32} {p : ℕ}

def IsPage (p : ℕ) : Prop := p % 4096 = 0 ∧ p < 2 ^ 32

theorem getLsbD_pageMask : ∀ i < 32, pageMask.getLsbD i = decide (12 ≤ i) := by decide

theorem and_pageMask (w : BitVec 32) : w &&& pageMask = w >>> 12 <<< 12 := by
  apply BitVec.eq_of_getLsbD_eq
  intro i hi
  rw [BitVec.getLsbD_and, getLsbD_pageMask i hi, BitVec.getLsbD_shiftLeft,
    BitVec.getLsbD_ushiftRight]
  by_cases h : i < 12
  · have : ¬ 12 ≤ i := by omega
    simp [h, this]
  · rw [show 12 + (i - 12) = i by omega]
    have : 12 ≤ i := by omega
    simp [h, hi, this]

theorem pageOf_eq (w : BitVec 32) : pageOf w = w.toNat / 4096 * 4096 := by
  rw [pageOf, and_pageMask, BitVec.toNat_shiftLeft, BitVec.toNat_ushiftRight,
    Nat.shiftRight_eq_div_pow, Nat.shiftLeft_eq]
  omega

theorem pageOf_isPage (w : BitVec 32) : IsPage (pageOf w) := by
  rw [pageOf_eq]
  exact ⟨by omega, by omega⟩

theorem pageOf_or (hf : f &&& pageMask = 0#32) : pageOf (w ||| f) = pageOf w := by
  have : (w ||| f) &&& pageMask = w &&& pageMask := by
    rw [BitVec.and_comm, BitVec.and_or_distrib_left, BitVec.and_comm pageMask f, hf, BitVec.or_zero,
      BitVec.and_comm]
  rw [pageOf, this, pageOf]

theorem pageOf_ofNat (hp : IsPage p) : pageOf (BitVec.ofNat 32 p) = p := by
  have h1 := hp.1
  have h2 := hp.2
  rw [pageOf_eq, BitVec.toNat_ofNat]
  omega

theorem pageOf_and_pageMask (w : BitVec 32) : pageOf (w &&& pageMask) = pageOf w := by
  rw [pageOf, BitVec.and_assoc, BitVec.and_self, pageOf]

theorem hasBit_or (v w b : BitVec 32) : hasBit (v ||| w) b = (hasBit v b || hasBit w b) := by
  unfold hasBit
  rw [BitVec.and_comm, BitVec.and_or_distrib_left, BitVec.and_comm b v, BitVec.and_comm b w]
  by_cases h : v &&& b = 0#32
  · rw [h, BitVec.zero_or]
    rfl
  · have : (v &&& b) ||| (w &&& b) ≠ 0#32 := fun h' => h (BitVec.or_eq_zero_iff.mp h').1
    rw [bne_iff_ne.mpr h, bne_iff_ne.mpr this, Bool.true_or]

theorem hasBit_and_pageMask (hb : b &&& pageMask = 0#32) : hasBit (w &&& pageMask) b = false := by
  unfold hasBit
  rw [BitVec.and_assoc, BitVec.and_comm pageMask b, hb]
  simp

theorem hasBit_ofNat (hp : IsPage p) (hb : b &&& pageMask = 0#32) :
    hasBit (BitVec.ofNat 32 p) b = false := by
  have : BitVec.ofNat 32 p &&& pageMask = BitVec.ofNat 32 p := by
    apply BitVec.eq_of_toNat_eq
    have h2 := hp.2
    rw [← pageOf, pageOf_ofNat hp, BitVec.toNat_ofNat, Nat.mod_eq_of_lt h2]
  rw [← this]
  exact hasBit_and_pageMask hb

theorem pageOf_windowEntry (hp : IsPage p) : pageOf (Vmm.windowEntry p) = p := by
  rw [Vmm.windowEntry, pageOf_or (by decide), pageOf_or (by decide), pageOf_and_pageMask,
    pageOf_ofNat hp]

theorem hasBit_windowEntry (p : ℕ) : hasBit (Vmm.windowEntry p) ptePresent = true := by
  rw [Vmm.windowEntry, hasBit_or, hasBit_or, show hasBit ptePresent ptePresent = true by decide]
  simp

end Entries

section Addresses

variable {cpu : Cpu} {i : ℕ}

theorem pdIndex_recursivePt (h : i < 1024) : pdIndex (recursivePt i) = 1023 := by
  unfold pdIndex recursivePt
  omega

theorem ptIndex_recursivePt (h : i < 1024) : ptIndex (recursivePt i) = i := by
  unfold ptIndex recursivePt
  omega

theorem windowPdIdx_lt (cpu : Cpu) : windowPdIdx cpu < 1023 := by
  unfold windowPdIdx
  omega

theorem windowPdIdx_ge (cpu : Cpu) : 768 ≤ windowPdIdx cpu := by
  have := cpu.isLt
  unfold windowPdIdx
  unfold cfgMaxCpus at this
  omega

theorem Window.slot_lt (w : Window) : w.slot < 1024 := by cases w <;> decide

theorem pdIndex_vaddr (w : Window) : pdIndex (w.vaddr cpu) = windowPdIdx cpu := by
  have := w.slot_lt
  unfold pdIndex Window.vaddr tempVaddrBase
  omega

theorem ptIndex_vaddr (w : Window) : ptIndex (w.vaddr cpu) = w.slot := by
  have := w.slot_lt
  unfold ptIndex Window.vaddr tempVaddrBase
  omega

end Addresses

namespace Vmm

variable {s : Vmm} {cpu : Cpu} {t pd q i vaddr : ℕ} {x : BitVec 32} {f : Window → BitVec 32}

/-- The ways to page tables are open on a CPU: its directory has the recursive entry and the window
table `t`, and the windows are free. -/
structure Ready (s : Vmm) (cpu : Cpu) (t : ℕ) : Prop where
  self_present : hasBit (s.mem (s.cr3 cpu) 1023) ptePresent = true
  self_page : pageOf (s.mem (s.cr3 cpu) 1023) = s.cr3 cpu
  window_present : hasBit (s.mem (s.cr3 cpu) (windowPdIdx cpu)) ptePresent = true
  window_page : pageOf (s.mem (s.cr3 cpu) (windowPdIdx cpu)) = t
  ne_cr3 : t ≠ s.cr3 cpu
  free : ∀ w : Window, s.mem t w.slot = 0#32

def withWindows (s : Vmm) (t : ℕ) (f : Window → BitVec 32) : Vmm :=
  { s with mem := (s.mem.write t 1023 (f .one)).write t 1022 (f .two) }

/-- A store that is not to the window table nor to the entries that lead to it. -/
structure Safe (cr3 t q i : ℕ) : Prop where
  ne_window : q ≠ t
  ne_path : q = cr3 → i < 768

section Windows

theorem setEntry_mem_apply (s : Vmm) (q i : ℕ) (x : BitVec 32) (p j : ℕ) :
    (s.setEntry q i x).mem p j = if p = q ∧ j = i then x else s.mem p j := write_apply ..

theorem setEntry_mem_of_ne {p : ℕ} (h : p ≠ q) : (s.setEntry q i x).mem p = s.mem p :=
    write_page_of_ne h

@[simp] theorem withWindows_cr3 : (s.withWindows t f).cr3 = s.cr3 := rfl

theorem withWindows_mem_of_ne (h : q ≠ t) : (s.withWindows t f).mem q = s.mem q :=
  (write_page_of_ne h).trans (write_page_of_ne h)

theorem withWindows_mem_slot (w : Window) : (s.withWindows t f).mem t w.slot = f w := by
  cases w
  · exact (write_of_ne_index (by decide)).trans (write_self ..)
  · exact write_self ..

theorem Ready.withWindows_free (h : s.Ready cpu t) : s.withWindows t (fun _ => 0#32) = s := by
  have h1 : s.mem t 1023 = 0#32 := h.free .one
  have h2 : s.mem t 1022 = 0#32 := h.free .two
  unfold withWindows
  rw [write_eq_self h1, write_eq_self h2]

theorem setEntry_withWindows (h : q ≠ t) :
    (s.withWindows t f).setEntry q i x = (s.setEntry q i x).withWindows t f := by
  simp only [setEntry, withWindows]
  rw [write_comm (.inl h.symm), write_comm (.inl h.symm)]

variable {g : ℕ → BitVec 32}

theorem setPage_withWindows (h : q ≠ t) :
    { s.withWindows t f with mem := (s.withWindows t f).mem.setPage q g } =
      withWindows { s with mem := s.mem.setPage q g } t f := by
  simp only [withWindows]
  rw [setPage_write h, setPage_write h]

theorem setSlot_withWindows (w : Window) :
    (s.withWindows t f).setEntry t w.slot x = s.withWindows t (update f w x) := by
  cases w
  · simp only [setEntry, withWindows, Window.slot]
    rw [write_comm (.inr (by decide)), write_write]
    simp
  · simp only [setEntry, withWindows, Window.slot]
    rw [write_write]
    simp

variable (h : s.Ready cpu t)
include h

theorem Ready.setEntry (hs : Safe (s.cr3 cpu) t q i) : (s.setEntry q i x).Ready cpu t := by
  have hself : (s.setEntry q i x).mem (s.cr3 cpu) 1023 = s.mem (s.cr3 cpu) 1023 := by
    by_cases hq : s.cr3 cpu = q
    · have := hs.ne_path hq.symm
      exact write_of_ne_index (by omega)
    · exact congrFun (write_page_of_ne hq) _
  have hwin : (s.setEntry q i x).mem (s.cr3 cpu) (windowPdIdx cpu) =
    s.mem (s.cr3 cpu) (windowPdIdx cpu) := by
    by_cases hq : s.cr3 cpu = q
    · have := hs.ne_path hq.symm
      have := windowPdIdx_ge cpu
      exact write_of_ne_index (by omega)
    · exact congrFun (write_page_of_ne hq) _
  have ht : (s.setEntry q i x).mem t = s.mem t := write_page_of_ne hs.ne_window.symm
  exact ⟨hself ▸ h.self_present, hself ▸ h.self_page, hwin ▸ h.window_present, hwin ▸ h.window_page,
    h.ne_cr3, fun w => by rw [ht]; exact h.free w⟩

theorem Ready.of_mem {s' : Vmm} (hc : s'.cr3 cpu = s.cr3 cpu)
    (hd : s'.mem (s.cr3 cpu) = s.mem (s.cr3 cpu)) (ht : s'.mem t = s.mem t) : s'.Ready cpu t := by
  obtain ⟨h₁, h₂, h3, h4, h5, h₆⟩ := h
  rw [← hd, ← hc] at h₁ h₂ h3 h4
  exact ⟨h₁, h₂, h3, h4, hc ▸ h5, fun w => ht ▸ h₆ w⟩

theorem Ready.setPage (hq : q ≠ t) (hd : q ≠ s.cr3 cpu) :
    Ready { s with mem := s.mem.setPage q g } cpu t :=
  h.of_mem rfl (setPage_of_ne hd.symm) (setPage_of_ne hq.symm)

theorem Ready.setPages (a : PageAlloc) : Ready { s with pages := a } cpu t :=
    ⟨h.1, h.2, h.3, h.4, h.5, h.6⟩

end Windows

section Translate

variable {v : ℕ}

theorem translate_eq {y : BitVec 32} (hpde : s.mem (s.cr3 cpu) (pdIndex v) = x)
    (h₁ : hasBit x ptePresent = true) (hpte : s.mem (pageOf x) (ptIndex v) = y)
    (h₂ : hasBit y ptePresent = true) : s.translate cpu v = some (pageOf y) := by
  simp only [translate, hpde, h₁, hpte, h₂, if_true]

theorem Ready.translate_recursivePt (h : s.Ready cpu t) (hi : i < 1024)
    (hp : hasBit (s.mem (s.cr3 cpu) i) ptePresent = true) :
    (s.withWindows t f).translate cpu (recursivePt i) = some (pageOf (s.mem (s.cr3 cpu) i)) := by
  have hd : (s.withWindows t f).mem (s.cr3 cpu) = s.mem (s.cr3 cpu) :=
    withWindows_mem_of_ne h.ne_cr3.symm
  refine translate_eq ?_ h.self_present ?_ hp
  · rw [pdIndex_recursivePt hi, withWindows_cr3, hd]
  · rw [ptIndex_recursivePt hi, h.self_page, hd]

theorem Ready.translate_recursivePd (h : s.Ready cpu t) :
    (s.withWindows t f).translate cpu recursivePd = some (s.cr3 cpu) := by
  have := h.translate_recursivePt (f := f) (by decide) h.self_present
  rwa [h.self_page] at this

theorem Ready.translate_tempPt (h : s.Ready cpu t) :
    (s.withWindows t f).translate cpu (tempPtVaddr cpu) = some t := by
  have := h.translate_recursivePt (f := f)
    (Nat.lt_succ_of_lt (windowPdIdx_lt cpu)) h.window_present
  rwa [h.window_page] at this

theorem Ready.translate_window (h : s.Ready cpu t) (w : Window)
    (hp : hasBit (f w) ptePresent = true) :
    (s.withWindows t f).translate cpu (w.vaddr cpu) = some (pageOf (f w)) := by
  have hd : (s.withWindows t f).mem (s.cr3 cpu) = s.mem (s.cr3 cpu) :=
    withWindows_mem_of_ne h.ne_cr3.symm
  refine translate_eq ?_ h.window_present ?_ hp
  · rw [pdIndex_vaddr, withWindows_cr3, hd]
  · rw [ptIndex_vaddr, h.window_page, withWindows_mem_slot]

section
variable (h : (s.withWindows t f).translate cpu v = some q) (hq : q ≠ t)
include h hq

theorem load_withWindows : (s.withWindows t f).load cpu v i = some (s.mem q i) := by
  rw [load, h, map_some, withWindows_mem_of_ne hq]

theorem store_withWindows :
    (s.withWindows t f).store cpu v i x = some ((s.setEntry q i x).withWindows t f) := by
  rw [store, h, map_some, setEntry_withWindows hq]

theorem clearPage_withWindows : (s.withWindows t f).clearPage cpu v =
      some (withWindows { s with mem := s.mem.setPage q fun _ => 0#32 } t f) := by
  rw [clearPage, h, map_some, setPage_withWindows hq]

end

theorem Ready.mapTempPage (h : s.Ready cpu t) (w : Window) (p : ℕ) :
    (s.withWindows t f).mapTempPage cpu w p =
      some (s.withWindows t (update f w (windowEntry p)), w.vaddr cpu) := by
  rw [Vmm.mapTempPage, store, h.translate_tempPt, map_some, setSlot_withWindows, map_some]

theorem Ready.unmapTempPage (h : s.Ready cpu t) (w : Window) :
    (s.withWindows t f).unmapTempPage cpu w = some (s.withWindows t (update f w 0#32)) := by
  rw [Vmm.unmapTempPage, store, h.translate_tempPt, map_some, setSlot_withWindows]

end Translate

section Pointers

/-- The directory that an operation is about: `NULL` stands for the current one. -/
def resolve (s : Vmm) (cpu : Cpu) (pdPhys : ℕ) : ℕ := if pdPhys = 0 then s.cr3 cpu else pdPhys

/-- What a window holds while an operation shows a page in it; one on the current directory does
not. -/
def shownEntry (current : Bool) (page : ℕ) : BitVec 32 := if current then 0#32 else windowEntry page

def pdPtr (current : Bool) (cpu : Cpu) : ℕ := if current then recursivePd else Window.one.vaddr cpu

def ptPtr (current : Bool) (cpu : Cpu) (i : ℕ) : ℕ :=
  if current then recursivePt i else Window.two.vaddr cpu

def shown (e₁ e₂ : BitVec 32) : Window → BitVec 32
  | .one => e₁
  | .two => e₂

theorem shown_zero : shown 0#32 0#32 = fun _ => 0#32 := by
  funext w
  cases w <;> rfl

@[simp] theorem update_shown_one (e₁ e₂ x : BitVec 32) :
    update (shown e₁ e₂) .one x = shown x e₂ := by
  funext w
  cases w <;> simp [shown]

@[simp] theorem update_shown_two (e₁ e₂ x : BitVec 32) :
    update (shown e₁ e₂) .two x = shown e₁ x := by
  funext w
  cases w <;> simp [shown]

@[simp] theorem isCurrent_withWindows :
    (s.withWindows t f).isCurrent cpu pd = s.isCurrent cpu pd := rfl

theorem isCurrent_iff : s.isCurrent cpu pd = true ↔ s.resolve cpu pd = s.cr3 cpu := by
  unfold isCurrent resolve
  by_cases h : pd = 0 <;> simp [h]

theorem resolve_of_not_current (h : s.isCurrent cpu pd = false) : s.resolve cpu pd = pd := by
  unfold isCurrent at h
  have : pd ≠ 0 := fun h' => by simp [h'] at h
  rw [resolve, if_neg this]

variable {current : Bool} {d : ℕ} (h : s.Ready cpu t) (hc : s.isCurrent cpu pd = current)
include h hc

theorem Ready.openPd :
    s.openPd cpu pd =
    some (s.withWindows t (shown (shownEntry current pd) 0#32), pdPtr current cpu) := by
  rw [Vmm.openPd, hc]
  cases current with
  | true => simp [shownEntry, pdPtr, shown_zero, h.withWindows_free]
  | false =>
    have := h.mapTempPage (f := shown 0#32 0#32) .one pd
    rwa [update_shown_one, shown_zero, h.withWindows_free] at this

theorem Ready.translate_pdPtr (hd : s.resolve cpu pd = d) (hp : IsPage d)
    (hf : f .one = shownEntry current pd) :
    (s.withWindows t f).translate cpu (pdPtr current cpu) = some d := by
  cases current with
  | true =>
    exact (h.translate_recursivePd).trans (congrArg some ((isCurrent_iff.mp hc).symm.trans hd))
  | false =>
    have hf : f .one = windowEntry pd := hf
    have hpd := (resolve_of_not_current hc).symm.trans hd
    have := h.translate_window (f := f) .one (by rw [hf]; exact hasBit_windowEntry pd)
    rwa [hf, pageOf_windowEntry (hpd ▸ hp), hpd] at this

theorem Ready.openPt (e pde : BitVec 32) : (s.withWindows t (shown e 0#32)).openPt cpu pd i pde =
      some (s.withWindows t (shown e (shownEntry current (pageOf pde))), ptPtr current cpu i) := by
  rw [Vmm.openPt, isCurrent_withWindows, hc]
  cases current with
  | true => rfl
  | false =>
    have := h.mapTempPage (f := shown e 0#32) .two (pageOf pde)
    rwa [update_shown_two] at this

theorem Ready.translate_ptPtr (hd : s.resolve cpu pd = d) (hi : i < 1024)
    (hp : hasBit (s.mem d i) ptePresent = true) {e : BitVec 32} :
    (s.withWindows t (shown e (shownEntry current (pageOf (s.mem d i))))).translate cpu
      (ptPtr current cpu i) = some (pageOf (s.mem d i)) := by
  cases current with
  | true =>
    rw [← hd, isCurrent_iff.mp hc] at hp ⊢
    exact h.translate_recursivePt hi hp
  | false =>
    refine (h.translate_window .two (hasBit_windowEntry _)).trans ?_
    exact congrArg some (pageOf_windowEntry (pageOf_isPage _))

theorem Ready.closeTwo (e : BitVec 32) (page : ℕ) :
    (s.withWindows t (shown e (shownEntry current page))).closeWindow cpu pd .two =
      some (s.withWindows t (shown e 0#32)) := by
  rw [closeWindow, isCurrent_withWindows, hc]
  cases current with
  | true => rfl
  | false =>
    have := h.unmapTempPage (f := shown e (windowEntry page)) .two
    rwa [update_shown_two] at this

theorem Ready.closeOne (page : ℕ) :
    (s.withWindows t (shown (shownEntry current page) 0#32)).closeWindow cpu pd .one = some s := by
  rw [closeWindow, isCurrent_withWindows, hc]
  cases current with
  | true => simp [shownEntry, shown_zero, h.withWindows_free]
  | false =>
    have := h.unmapTempPage (f := shown (windowEntry page) 0#32) .one
    rwa [update_shown_one, shown_zero, h.withWindows_free] at this

end Pointers

section Direct

variable {current : Bool} {d : ℕ} {flags paddr : BitVec 32}

/-- What an operation on entry `i` needs: the ways are open, the entry is of the user half, and the
directory and its table are no pages that the ways lead through. -/
structure Reaches (s : Vmm) (cpu : Cpu) (t d i : ℕ) : Prop where
  ready : s.Ready cpu t
  page : IsPage d
  ne_window : d ≠ t
  user : i < 768
  table_ne_window : hasBit (s.mem d i) ptePresent = true → pageOf (s.mem d i) ≠ t
  table_ne_cr3 : hasBit (s.mem d i) ptePresent = true → pageOf (s.mem d i) ≠ s.cr3 cpu

theorem Reaches.safe (h : s.Reaches cpu t d i) : Safe (s.cr3 cpu) t d i :=
    ⟨h.ne_window, fun _ => h.user⟩

theorem Reaches.of_mem {s' : Vmm} (h : s.Reaches cpu t d i) (hc : s'.cr3 cpu = s.cr3 cpu)
    (hcr3 : s'.mem (s.cr3 cpu) = s.mem (s.cr3 cpu)) (ht : s'.mem t = s.mem t)
    (hd : s'.mem d = s.mem d) :
    s'.Reaches cpu t d i :=
  ⟨h.ready.of_mem hc hcr3 ht, h.page, h.ne_window, h.user, hd ▸ h.table_ne_window,
    hd ▸ hc ▸ h.table_ne_cr3⟩

theorem Reaches.lt (h : s.Reaches cpu t d i) : i < 1024 := by
  have := h.user
  omega

theorem Reaches.writePte (h : s.Reaches cpu t d (pdIndex vaddr)) (hc : s.isCurrent cpu pd = current)
    (hd : s.resolve cpu pd = d) (hp : hasBit (s.mem d (pdIndex vaddr)) ptePresent = true) :
    (s.withWindows t (shown (shownEntry current pd) 0#32)).writePte cpu pd
    (pdPtr current cpu) vaddr x =
      some (s.setEntry (pageOf (s.mem d (pdIndex vaddr))) (ptIndex vaddr) x) := by
  have hready := h.ready.setEntry (x := x) (i := ptIndex vaddr)
    ⟨h.table_ne_window hp, fun he => absurd he (h.table_ne_cr3 hp)⟩
  rw [Vmm.writePte, load_withWindows (h.ready.translate_pdPtr hc hd h.page rfl) h.ne_window]
  simp only [bind_eq_bind, bind_some]
  rw [h.ready.openPt hc]
  simp only [bind_some]
  rw [store_withWindows (h.ready.translate_ptPtr hc hd h.lt hp) (h.table_ne_window hp)]
  simp only [bind_some]
  rw [hready.closeTwo hc]
  exact hready.closeOne hc pd

def entries (s : Vmm) (d vaddr : ℕ) : BitVec 32 × Option (BitVec 32) :=
  (s.mem d (pdIndex vaddr), if hasBit (s.mem d (pdIndex vaddr)) ptePresent then
    some (s.mem (pageOf (s.mem d (pdIndex vaddr))) (ptIndex vaddr)) else none)

/-- Reading the entries finds them and changes nothing, for any entry whose table is not the window
table. -/
theorem Ready.readEntries (h : s.Ready cpu t) (hp : IsPage d) (hne : d ≠ t)
    (hi : pdIndex vaddr < 1024)
    (ht : hasBit (s.mem d (pdIndex vaddr)) ptePresent = true → pageOf (s.mem d (pdIndex vaddr)) ≠ t)
    (hd : s.resolve cpu pd = d) : s.readEntries cpu pd vaddr = some (s, s.entries d vaddr) := by
  rw [Vmm.readEntries, h.openPd rfl, entries]
  simp only [bind_eq_bind, bind_some]
  rw [load_withWindows (h.translate_pdPtr rfl hd hp rfl) hne]
  simp only [bind_some]
  by_cases hp : hasBit (s.mem d (pdIndex vaddr)) ptePresent = true
  · rw [if_pos hp, if_pos hp, h.openPt rfl]
    simp only [bind_some]
    rw [load_withWindows (h.translate_ptPtr rfl hd hi hp) (ht hp)]
    rw [h.closeTwo rfl]
    simp only [bind_some]
    rw [h.closeOne rfl, bind_some]
  · rw [if_neg hp, if_neg hp, h.closeOne rfl, bind_some]

section
variable (h : s.Reaches cpu t d (pdIndex vaddr)) (hd : s.resolve cpu pd = d)
include h hd

theorem Reaches.readEntries : s.readEntries cpu pd vaddr = some (s, s.entries d vaddr) :=
  h.ready.readEntries h.page h.ne_window h.lt h.table_ne_window hd

theorem Reaches.vmmGetPaddr :
    s.vmmGetPaddr cpu pd vaddr = some (s, entriesPaddr (s.entries d vaddr).2 vaddr) := by
  rw [Vmm.vmmGetPaddr, h.readEntries hd]
  rfl

theorem Reaches.vmmQueryFlags : s.vmmQueryFlags cpu pd vaddr =
      some (s, entriesFlags (s.entries d vaddr).1 (s.entries d vaddr).2 vaddr) := by
  rw [Vmm.vmmQueryFlags, h.readEntries hd]
  rfl

end

def unmapDirect (s : Vmm) (d vaddr : ℕ) : Vmm :=
  if hasBit (s.mem d (pdIndex vaddr)) ptePresent then
    s.setEntry (pageOf (s.mem d (pdIndex vaddr))) (ptIndex vaddr) 0#32
  else s

theorem Reaches.vmmUnmapPage (h : s.Reaches cpu t d (pdIndex vaddr)) (hd : s.resolve cpu pd = d) :
    s.vmmUnmapPage cpu pd vaddr = some (s.unmapDirect d vaddr) := by
  rw [Vmm.vmmUnmapPage, h.ready.openPd rfl, unmapDirect]
  simp only [bind_eq_bind, bind_some]
  rw [load_withWindows (h.ready.translate_pdPtr rfl hd h.page rfl) h.ne_window]
  simp only [bind_some]
  split
  · rename_i hp
    exact h.writePte rfl hd hp
  · exact h.ready.closeOne rfl pd

def widen (s : Vmm) (d i : ℕ) (flags : BitVec 32) : Vmm :=
    s.setEntry d i (s.mem d i ||| pdeNeed flags)

/-- A new table for entry `i` of a directory: an allocated page, cleared. -/
def addTable (s : Vmm) (d i : ℕ) (flags : BitVec 32) : Vmm :=
  setEntry { s with
    pages := s.pages.allocPage.1
    mem := s.mem.setPage s.pages.allocPage.2 fun _ => 0#32 } d i
    (BitVec.ofNat 32 s.pages.allocPage.2 ||| pdeFlags flags)

/-- `vmm_map_page` on the pages themselves. -/
def mapDirect (s : Vmm) (d vaddr : ℕ) (paddr flags : BitVec 32) : Vmm × ℤ :=
  if hasBit (s.mem d (pdIndex vaddr)) ptePresent then
    ((s.widen d (pdIndex vaddr) flags).setEntry (pageOf (s.mem d (pdIndex vaddr))) (ptIndex vaddr)
      (pteOf paddr flags), 0)
  else if s.pages.allocPage.2 = 0 then (s, -eNoMem)
  else ((s.addTable d (pdIndex vaddr) flags).setEntry s.pages.allocPage.2 (ptIndex vaddr)
    (pteOf paddr flags), 0)

/-- The page that the allocator would give is none that the kernel's ways to a directory lead
through. -/
structure FreshFor (s : Vmm) (cpu : Cpu) (t : ℕ) : Prop where
  page : IsPage s.pages.allocPage.2
  ne_window : s.pages.allocPage.2 ≠ t
  ne_cr3 : s.pages.allocPage.2 ≠ s.cr3 cpu

theorem pdeNeed_low (flags : BitVec 32) : pdeNeed flags &&& pageMask = 0#32 := by
  unfold pdeNeed
  cases hasBit flags vmmProtUser <;> cases hasBit flags vmmProtWrite <;> decide

theorem pdeFlags_low (flags : BitVec 32) : pdeFlags flags &&& pageMask = 0#32 := by
  unfold pdeFlags
  cases hasBit flags vmmProtUser <;> decide

theorem pdeFlags_present (flags : BitVec 32) : hasBit (pdeFlags flags) ptePresent = true := by
  unfold pdeFlags
  cases hasBit flags vmmProtUser <;> decide

theorem or_eq_self_of_and_eq {v w : BitVec 32} (h : v &&& w = w) : v ||| w = v := by
  apply BitVec.eq_of_getLsbD_eq
  intro i hi
  have := congrArg (fun b => b.getLsbD i) h
  cases hv : v.getLsbD i <;> cases hw : w.getLsbD i <;> simp [hv, hw] at this ⊢

theorem widen_entry : (s.widen d i flags).mem d i = s.mem d i ||| pdeNeed flags := write_self ..

theorem addTable_entry : (s.addTable d i flags).mem d i =
    BitVec.ofNat 32 s.pages.allocPage.2 ||| pdeFlags flags := write_self ..

theorem pageOf_widen : pageOf ((s.widen d i flags).mem d i) = pageOf (s.mem d i) := by
  rw [widen_entry, pageOf_or (pdeNeed_low flags)]

theorem pageOf_addTable (h : IsPage s.pages.allocPage.2) :
    pageOf ((s.addTable d i flags).mem d i) = s.pages.allocPage.2 := by
  rw [addTable_entry, pageOf_or (pdeFlags_low flags), pageOf_ofNat h]

theorem present_widen (hp : hasBit (s.mem d i) ptePresent = true) :
    hasBit ((s.widen d i flags).mem d i) ptePresent = true := by
  rw [widen_entry, hasBit_or, hp, Bool.true_or]

theorem present_addTable : hasBit ((s.addTable d i flags).mem d i) ptePresent = true := by
  rw [addTable_entry, hasBit_or, pdeFlags_present, Bool.or_true]

section
variable (h : s.Reaches cpu t d i)
include h

theorem Reaches.widen (flags : BitVec 32) (hp : hasBit (s.mem d i) ptePresent = true) :
    (s.widen d i flags).Reaches cpu t d i :=
  ⟨h.ready.setEntry h.safe, h.page, h.ne_window, h.user,
    fun _ => pageOf_widen (s := s) ▸ h.table_ne_window hp,
    fun _ => pageOf_widen (s := s) ▸ h.table_ne_cr3 hp⟩

theorem Reaches.addTable (flags : BitVec 32) (hf : s.FreshFor cpu t) :
    (s.addTable d i flags).Reaches cpu t d i :=
  ⟨((h.ready.setPages s.pages.allocPage.1).setPage hf.ne_window hf.ne_cr3).setEntry h.safe, h.page,
    h.ne_window, h.user, fun _ => (pageOf_addTable hf.page).symm ▸ hf.ne_window,
    fun _ => (pageOf_addTable hf.page).symm ▸ hf.ne_cr3⟩

theorem Reaches.enterTable (hc : s.isCurrent cpu pd = current) (hd : s.resolve cpu pd = d)
    (hf : s.FreshFor cpu t) :
    enterTable { s.withWindows t (shown (shownEntry current pd)
    0#32) with pages := s.pages.allocPage.1 } cpu
      (pdPtr current cpu) i s.pages.allocPage.2 flags =
      some ((s.addTable d i flags).withWindows t (shown (shownEntry current pd) 0#32)) := by
  have hr := h.ready.setPages s.pages.allocPage.1
  have hclear := hr.setPage (g := fun _ => 0#32) hf.ne_window hf.ne_cr3
  have htr := hr.translate_window
    (f := shown (shownEntry current pd) (windowEntry s.pages.allocPage.2)) .two
    (hasBit_windowEntry _)
  have htr := htr.trans (congrArg some (pageOf_windowEntry hf.page))
  have hmap := hr.mapTempPage (f := shown (shownEntry current pd) 0#32) .two s.pages.allocPage.2
  refine (congrArg (bind · _) hmap).trans ?_
  refine (congrArg (bind · _) (clearPage_withWindows htr hf.ne_window)).trans ?_
  refine (congrArg (bind · _) (hclear.unmapTempPage .two)).trans ?_
  exact store_withWindows (hclear.translate_pdPtr hc hd h.page rfl) h.ne_window

theorem Reaches.widenEntry (hc : s.isCurrent cpu pd = current) (hd : s.resolve cpu pd = d) :
    (s.withWindows t (shown (shownEntry current pd) 0#32)).widenEntry cpu (pdPtr current cpu) i
    (s.mem d i)
      flags = some ((s.widen d i flags).withWindows t (shown (shownEntry current pd) 0#32)) := by
  unfold Vmm.widenEntry
  split
  · exact store_withWindows (h.ready.translate_pdPtr hc hd h.page rfl) h.ne_window
  · rename_i hn
    rw [Vmm.widen, or_eq_self_of_and_eq (not_not.mp hn), setEntry, write_eq_self rfl]

end

theorem Reaches.vmmMapPage (h : s.Reaches cpu t d (pdIndex vaddr)) (hd : s.resolve cpu pd = d)
    (hv : ¬ (vaddr < pageSize ∧ hasBit flags vmmProtUser = true))
    (hf : s.pages.allocPage.2 ≠ 0 → s.FreshFor cpu t) :
    s.vmmMapPage cpu pd vaddr paddr flags = some (s.mapDirect d vaddr paddr flags) := by
  rw [Vmm.vmmMapPage, if_neg hv, h.ready.openPd rfl, mapDirect]
  simp only [bind_eq_bind, bind_some]
  rw [load_withWindows (h.ready.translate_pdPtr rfl hd h.page rfl) h.ne_window]
  simp only [bind_some]
  by_cases hp : hasBit (s.mem d (pdIndex vaddr)) ptePresent = true
  · rw [if_pos hp, if_pos hp, h.widenEntry rfl hd]
    have := (h.widen flags hp).writePte (x := pteOf paddr flags) rfl hd (present_widen hp)
    rw [pageOf_widen] at this
    exact congrArg (bind · _) this
  · rw [if_neg hp, if_neg hp]
    by_cases h0 : s.pages.allocPage.2 = 0
    · have h0' : (s.withWindows t
        (shown (shownEntry (s.isCurrent cpu pd) pd) 0#32)).pages.allocPage.2 = 0 := h0
      rw [if_pos h0', if_pos h0, h.ready.closeOne rfl, bind_some]
    · have h0' : ¬ (s.withWindows t
        (shown (shownEntry (s.isCurrent cpu pd) pd) 0#32)).pages.allocPage.2 = 0 := h0
      rw [if_neg h0', if_neg h0]
      refine (congrArg (bind · _) (h.enterTable rfl hd (hf h0))).trans ?_
      have := (h.addTable flags (hf h0)).writePte (x := pteOf paddr flags) rfl hd present_addTable
      rw [pageOf_addTable (hf h0).page] at this
      exact congrArg (bind · _) this

end Direct

section Kmap

variable {page offset len : ℕ} {bytes : List (BitVec 8)}

theorem Ready.translate_kmap (h : s.Ready cpu t) (hp : IsPage page) :
    (s.withWindows t (shown 0#32 (windowEntry page))).translate cpu (Window.two.vaddr cpu) =
    some page := by
  have := h.translate_window (f := shown 0#32 (windowEntry page)) .two (hasBit_windowEntry page)
  exact this.trans (congrArg some (pageOf_windowEntry hp))

theorem Ready.vmmKmap (h : s.Ready cpu t) :
    s.vmmKmap cpu page =
    some (s.withWindows t (shown 0#32 (windowEntry page)), Window.two.vaddr cpu) := by
  have := h.mapTempPage (f := shown 0#32 0#32) .two page
  rwa [update_shown_two, shown_zero, h.withWindows_free] at this

theorem Ready.vmmKunmap (h : s.Ready cpu t) {e : BitVec 32} :
    (s.withWindows t (shown 0#32 e)).vmmKunmap cpu = some s := by
  have := h.unmapTempPage (f := shown 0#32 e) .two
  rwa [update_shown_two, shown_zero, h.withWindows_free] at this

variable (h : s.Ready cpu t) (hp : IsPage page) (ht : page ≠ t)
include h hp ht

theorem Ready.kmapClear (hd : page ≠ s.cr3 cpu) :
    s.kmapClear cpu page = some { s with mem := s.mem.setPage page fun _ => 0#32 } := by
  rw [Vmm.kmapClear, h.vmmKmap]
  simp only [bind_eq_bind, bind_some]
  rw [clearPage_withWindows (h.translate_kmap hp) ht]
  exact (h.setPage ht hd).vmmKunmap

theorem Ready.kmapRead (hlen : offset + len ≤ 4096) :
    s.kmapRead cpu page offset len = some (s, s.mem.readBytes (page + offset) len) := by
  have hpage : ∀ k < len, pageAt (page + offset + k) = page := fun k hk => by
    rw [Nat.add_assoc]
    exact pageAt_add hp.1 (by omega)
  have hread : (s.withWindows t (shown 0#32 (windowEntry page))).mem.readBytes (page + offset) len =
      s.mem.readBytes (page + offset) len := by
    refine List.map_congr_left fun k hk => ?_
    rw [readByte, readByte, hpage k (List.mem_range.mp hk), withWindows_mem_of_ne ht]
  rw [Vmm.kmapRead, h.vmmKmap]
  simp only [bind_eq_bind, bind_some]
  rw [loadBytes, h.translate_kmap hp, map_some, bind_some, hread, h.vmmKunmap, bind_some]

theorem Ready.kmapWrite (hd : page ≠ s.cr3 cpu) (hlen : offset + bytes.length ≤ 4096) :
    s.kmapWrite cpu page offset bytes =
    some { s with mem := s.mem.writeBytes (page + offset) bytes } := by
  have hin : ∀ k < bytes.length, pageAt (page + offset + k) = page := fun k hk => by
    rw [Nat.add_assoc]
    exact pageAt_add hp.1 (by omega)
  have hstore : (s.withWindows t (shown 0#32 (windowEntry page))).storeBytes cpu
    (Window.two.vaddr cpu) offset
      bytes = some (withWindows { s with mem := s.mem.writeBytes (page + offset) bytes } t
        (shown 0#32 (windowEntry page))) := by
    rw [storeBytes, h.translate_kmap hp, map_some, writeBytes_eq_setPage hin,
      writeBytes_congr (withWindows_mem_of_ne ht) hin, setPage_withWindows ht,
      ← writeBytes_eq_setPage hin]
  have hready : Ready { s with mem := s.mem.writeBytes (page + offset) bytes } cpu t := by
    rw [writeBytes_eq_setPage hin]
    exact h.setPage ht hd
  rw [Vmm.kmapWrite, h.vmmKmap]
  simp only [bind_eq_bind, bind_some]
  rw [hstore]
  exact hready.vmmKunmap

end Kmap

end Vmm

end Xnix
