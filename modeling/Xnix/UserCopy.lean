import Xnix.Lib.Loops
import Xnix.Vmm

/-!
# Copies from and to user space

`copy_from_user` and `copy_to_user` of `kernel/mm/mm.c`. A user address is never used as it is: the
page is looked up with `query_flags` and shown in a window, one page after the other. Of the
kernel's buffer only whether it is `NULL` and its bytes matter; the functions are given on a machine
with an MMU, where `query_flags` is there.
-/

namespace Xnix

def kernelVirtBase : ℕ := 0xC0000000

namespace Vmm

/-- `x86_vmm_query_flags`: the return value, `*out_paddr` and `*out_flags`, which are 0 before the
call. -/
def queryFlags (s : Vmm) (cpu : Cpu) (pdPhys vaddr : ℕ) : Option (Vmm × ℤ × ℕ × BitVec 32) := do
  let (s, ret, paddr, flags) ← s.vmmQueryFlags cpu pdPhys vaddr
  if ret < 0 then some (s, -eFault, 0, 0#32) else some (s, 0, paddr, flags)

/-- The check of the range: `end` is a 32-bit sum. -/
def badRange (start n : ℕ) : Bool :=
  let stop := (start + n) % 2 ^ 32
  decide (kernelVirtBase ≤ start ∨ stop < start ∨ kernelVirtBase < stop)

/-- The checks that both functions begin with: the value that is returned at once, if any. -/
def copyChecks (kernelPtr userPtr n : ℕ) : Option ℤ :=
  if kernelPtr = 0 ∨ userPtr = 0 ∧ n ≠ 0 then some (-eInval)
  else if n = 0 then some 0
  else if badRange userPtr n then some (-eFault)
  else none

/-- A page that is refused with `-EFAULT`; `write` is for `copy_to_user`. -/
def refused (write : Bool) (ret : ℤ) (paddr : ℕ) (flags : BitVec 32) : Bool :=
  decide (ret < 0) || !hasBit flags mmQueryPresent || !hasBit flags mmQueryUser ||
    (write && !hasBit flags mmQueryWrite) || paddr == 0

def pageRoom (addr : ℕ) : ℕ := pageSize - addr % pageSize

/-- The loop's body of `copy_from_user`; the bytes are those stored at `dst` so far. -/
def copyFromPage (cpu : Cpu) (pd userSrc copied chunkSize : ℕ) (r : Vmm × List (BitVec 8)) :
    Option (Except (Vmm × List (BitVec 8)) (Vmm × List (BitVec 8))) := do
  let (s, ret, paddr, flags) ← r.1.queryFlags cpu pd (userSrc + copied)
  if refused false ret paddr flags then some (.error (s, r.2))
  else
    let (s, bytes) ← s.kmapRead cpu (pageAlignDown paddr) ((userSrc + copied) % pageSize) chunkSize
    some (.ok (s, r.2 ++ bytes))

/-- `copy_from_user`: the return value and the bytes stored at `dst`. `pd` is the directory of the
current process, or `NULL`. -/
def copyFromUser (s : Vmm) (cpu : Cpu) (pd dst userSrc n : ℕ) :
    Option (Vmm × ℤ × List (BitVec 8)) :=
  match copyChecks dst userSrc n with
  | some ret => some (s, ret, [])
  | none =>
    (Lib.chunks (fun copied => pageRoom (userSrc + copied)) (copyFromPage cpu pd userSrc) n
      (s, [])).map fun
      | .error (s, out) => (s, -eFault, out)
      | .ok (s, out) => (s, 0, out)

def copyToPage (cpu : Cpu) (pd userDst : ℕ) (src : List (BitVec 8)) (copied chunkSize : ℕ)
    (s : Vmm) : Option (Except Vmm Vmm) := do
  let (s, ret, paddr, flags) ← s.queryFlags cpu pd (userDst + copied)
  if refused true ret paddr flags then some (.error s)
  else
    let s ← s.kmapWrite cpu (pageAlignDown paddr) ((userDst + copied) % pageSize)
      ((src.drop copied).take chunkSize)
    some (.ok s)

/-- `copy_to_user` of the bytes at `src`. -/
def copyToUser (s : Vmm) (cpu : Cpu) (pd userDst src : ℕ) (bytes : List (BitVec 8)) :
    Option (Vmm × ℤ) :=
  match copyChecks src userDst bytes.length with
  | some ret => some (s, ret)
  | none =>
    (Lib.chunks (fun copied => pageRoom (userDst + copied)) (copyToPage cpu pd userDst bytes)
      bytes.length s).map fun
      | .error s => (s, -eFault)
      | .ok s => (s, 0)

end Vmm

end Xnix
