import Xnix.Elf
import Xnix.Proofs.UserCopy

/-!
# Copies of physical memory

`elf_memcpy_from_phys` and `elf_memcpy_phys_to_phys` through the window: they read and write the
bytes that they are asked for, whatever pages these are in, and leave everything else.
-/

namespace Xnix

open Lib Memory

namespace Vmm

variable {s : Vmm} {cpu : Cpu} {t src dst len c q : ℕ}

theorem pageAlignDown_isPage {a : ℕ} (ha : a < 2 ^ 32) : IsPage (pageAlignDown a) := by
  unfold IsPage pageAlignDown pageSize
  omega

theorem pageAlignDown_add_mod (a : ℕ) : pageAlignDown a + a % pageSize = a := by
  unfold pageAlignDown pageSize
  omega

theorem Ready.elfMemcpyFromPhys (h : s.Ready cpu t) (hlt : src + len ≤ 2 ^ 32)
    (ht : ∀ k < len, pageAt (src + k) ≠ t) :
    s.elfMemcpyFromPhys cpu src len = some (.ok (s, s.mem.readBytes src len)) := by
  have hends : Ends (s.elfMemcpyFromPhys cpu src len) (fun _ => False)
      (fun r => r = (s, s.mem.readBytes src len)) := by
    refine chunks_spec (fun c r => r = (s, s.mem.readBytes src c)) (fun _ => False)
      (fun c _ => pageRoom_pos (src + c)) ?_ rfl
    rintro c r hc rfl
    have hroom := copyPiece_le src len c
    rw [readPiece, if_neg (by omega), h.kmapRead (pageAlignDown_isPage (by omega)) (ht c hc) hroom,
      pageAlignDown_add_mod]
    exact .ok (by rw [readBytes_add])
  obtain ⟨r, hrun, hres⟩ := hends
  cases r with
  | error r => exact hres.elim
  | ok r => rw [hrun, show r = _ from hres]

section Move

theorem moveLimit_pos (dst src c : ℕ) : 0 < moveLimit dst src c := by
  have := pageRoom_pos (src + c)
  have := pageRoom_pos (dst + c)
  unfold moveLimit
  omega

theorem movePiece_le (dst src len c : ℕ) :
    (src + c) % pageSize + piece (moveLimit dst src) len c ≤ pageSize ∧
      (dst + c) % pageSize + piece (moveLimit dst src) len c ≤ pageSize := by
  simp only [piece, moveLimit, pageRoom, pageSize]
  omega

def moved (s : Vmm) (dst src len : ℕ) : Vmm :=
  { s with mem := s.mem.writeBytes dst (s.mem.readBytes src len) }

theorem moved_add (s : Vmm) (dst src c k : ℕ) : s.moved dst src (c + k) = { s.moved dst src c with
    mem := (s.moved dst src c).mem.writeBytes (dst + c) (s.mem.readBytes (src + c) k) } := by
  rw [moved, readBytes_add, writeBytes_append, length_readBytes]
  rfl

/-- The destination lies in one page, which is none of the pages that are read or that the window
needs. -/
structure Movable (s : Vmm) (cpu : Cpu) (t q dst src len : ℕ) : Prop where
  ready : s.Ready cpu t
  page : IsPage q
  ne_window : q ≠ t
  ne_cr3 : q ≠ s.cr3 cpu
  le_dst : q ≤ dst
  dst_le : dst + len ≤ q + pageSize
  src_le : src + len ≤ 2 ^ 32
  src_ne_window : ∀ k < len, Lib.Memory.pageAt (src + k) ≠ t
  src_ne : ∀ k < len, Lib.Memory.pageAt (src + k) ≠ q

variable (h : s.Movable cpu t q dst src len)
include h

theorem Movable.pageAt_dst {k : ℕ} (hk : k < len) : pageAt (dst + k) = q := by
  have := h.page.1
  have := h.le_dst
  have := h.dst_le
  unfold pageAt pageSize at *
  omega

theorem Movable.mem_of_ne (hc : c ≤ len) {p : ℕ} (hp : p ≠ q) :
    (s.moved dst src c).mem p = s.mem p := by
  refine writeBytes_page_of_ne fun k hk => ?_
  rw [length_readBytes] at hk
  rwa [h.pageAt_dst (by omega)]

theorem Movable.ready_moved (hc : c ≤ len) : (s.moved dst src c).Ready cpu t :=
  h.ready.of_mem rfl (h.mem_of_ne hc h.ne_cr3.symm) (h.mem_of_ne hc h.ne_window.symm)

theorem Movable.elfMemcpyPhysToPhys :
    elfMemcpyPhysToPhys cpu dst src len s = some (.ok (s.moved dst src len)) := by
  have hends : Ends (Vmm.elfMemcpyPhysToPhys cpu dst src len s) (fun _ => False)
      (fun r => r = s.moved dst src len) := by
    refine chunks_spec (fun c r => r = s.moved dst src c) (fun _ => False)
      (fun c _ => moveLimit_pos dst src c) ?_ rfl
    rintro c r hc rfl
    have hready := h.ready_moved hc.le
    have hsrc := h.src_le
    have hpage := h.page.2
    obtain ⟨hroom, hroom'⟩ := movePiece_le dst src len c
    have hlen : c + piece (moveLimit dst src) len c ≤ len := add_piece_le hc.le
    have hdst : pageAlignDown (dst + c) = q := h.pageAt_dst hc
    have hdst_lt : dst + c < 2 ^ 32 := by
      have := h.dst_le
      have := h.page.1
      unfold pageSize at *
      omega
    have hread : (s.moved dst src c).mem.readBytes (src + c) (piece (moveLimit dst src) len c) =
        s.mem.readBytes (src + c) (piece (moveLimit dst src) len c) :=
      readBytes_congr fun k hk => h.mem_of_ne hc.le (by
        rw [Nat.add_assoc]
        exact h.src_ne (c + k) (by omega))
    rw [movePiece, if_neg (by omega)]
    simp only [Option.bind_eq_bind]
    rw [hready.kmapRead (pageAlignDown_isPage (by omega)) (h.src_ne_window c hc) hroom]
    simp only [Option.bind_some]
    rw [hdst, hready.kmapWrite h.page h.ne_window h.ne_cr3 (by rw [length_readBytes]; exact hroom'),
      pageAlignDown_add_mod, hread, ← hdst, pageAlignDown_add_mod]
    exact .ok (moved_add s dst src c _).symm
  obtain ⟨r, hrun, hres⟩ := hends
  cases r with
  | error r => exact hres.elim
  | ok r => rw [hrun, show r = _ from hres]

end Move

end Vmm

end Xnix
