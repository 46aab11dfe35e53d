import Xnix.Vmm

/-!
# Runs of the page table operations

Calls of `vmm_create_pd`, `vmm_map_page`, `vmm_unmap_page`, `vmm_switch_pd` and `vmm_destroy_pd` on
any CPUs, one after the other, for user addresses in directory entries 1 to 767 and for directories
that have been made and not destroyed. Beside memory the state records what the calls should amount
to.
-/

namespace Xnix

/-- What a call of `vmm_map_page` asks for. -/
structure PageMapping where
  paddr : BitVec 32
  flags : BitVec 32
  deriving DecidableEq

/-- Memory, the directories, for each of their pages the last mapping that was made and not undone,
and which entries have had a mapping with `VMM_PROT_USER`. -/
structure PagingSys where
  vmm : Vmm
  dirs : List ℕ
  view : ℕ → ℕ → Option PageMapping
  userMapped : ℕ → ℕ → Bool

inductive PagingAction
  | createPd (cpu : Cpu)
  | mapPage (cpu : Cpu) (pdPhys vaddr : ℕ) (paddr flags : BitVec 32)
  | unmapPage (cpu : Cpu) (pdPhys vaddr : ℕ)
  | switchPd (cpu : Cpu) (pdPhys : ℕ)
  | destroyPd (cpu : Cpu) (pdPhys : ℕ)

namespace PagingSys

variable (s : PagingSys)

/-- The directory that a call is about: `NULL` is the current one. -/
def target (cpu : Cpu) (pdPhys : ℕ) : ℕ := if pdPhys = 0 then s.vmm.cr3 cpu else pdPhys

/-- A page of directory entries 1 to 767. -/
def isUserPage (vaddr : ℕ) : Bool := decide (1 ≤ pdIndex vaddr ∧ pdIndex vaddr < 768)

def vpn (vaddr : ℕ) : ℕ := vaddr / pageSize

def setView (d vaddr : ℕ) (m : Option PageMapping) : ℕ → ℕ → Option PageMapping :=
  Function.update s.view d (Function.update (s.view d) (vpn vaddr) m)

/-- The entry has had a user mapping if this one is one. -/
def setUserMapped (d vaddr : ℕ) (flags : BitVec 32) : ℕ → ℕ → Bool :=
  Function.update s.userMapped d (Function.update (s.userMapped d) (pdIndex vaddr)
    (s.userMapped d (pdIndex vaddr) || hasBit flags vmmProtUser))

/-- One call. A call that is not of the kind described is left out. -/
def step : PagingAction → Option PagingSys
  | .createPd cpu =>
    (s.vmm.vmmCreatePd cpu).map fun (v, pd) =>
      if pd = 0 then { s with vmm := v }
      else { vmm := v, dirs := pd :: s.dirs, view := Function.update s.view pd fun _ => none,
             userMapped := Function.update s.userMapped pd fun _ => false }
  | .mapPage cpu pdPhys vaddr paddr flags =>
    if s.target cpu pdPhys ∈ s.dirs ∧ isUserPage vaddr then
      (s.vmm.vmmMapPage cpu pdPhys vaddr paddr flags).map fun (v, ret) =>
        if ret = 0 then
          { s with vmm := v
                   view := s.setView (s.target cpu pdPhys) vaddr (some ⟨paddr, flags⟩)
                   userMapped := s.setUserMapped (s.target cpu pdPhys) vaddr flags }
        else { s with vmm := v }
    else some s
  | .unmapPage cpu pdPhys vaddr =>
    if s.target cpu pdPhys ∈ s.dirs ∧ isUserPage vaddr then
      (s.vmm.vmmUnmapPage cpu pdPhys vaddr).map fun v =>
        { s with vmm := v, view := s.setView (s.target cpu pdPhys) vaddr none }
    else some s
  | .switchPd cpu pdPhys =>
    if pdPhys ∈ s.dirs then some { s with vmm := s.vmm.vmmSwitchPd cpu pdPhys } else some s
  | .destroyPd cpu pdPhys =>
    if pdPhys ∈ s.dirs ∧ pdPhys ≠ s.vmm.kernelPd ∧ ∀ c, s.vmm.cr3 c ≠ pdPhys then
      (s.vmm.vmmDestroyPd cpu pdPhys).map fun v =>
        { s with vmm := v, dirs := s.dirs.filter (· ≠ pdPhys) }
    else some s

end PagingSys

end Xnix
