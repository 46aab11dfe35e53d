import Mathlib.Data.List.GetD
import Xnix.Proofs.RamRuns

/-!
# Files as arrays of bytes

A file's block has `capacity` bytes, of which the first `size` are the file. A truncation keeps the
block and what it holds, so a write past the end may uncover old bytes. With the conditions `Fits`
on a request, the files hold what `model` says.
-/

namespace Xnix

open Function

section Overwrite
variable {file buf : List (BitVec 8)} {offset i : ℕ}

theorem length_overwrite :
    (overwrite file offset buf).length = max file.length (offset + buf.length) := by
  simp only [overwrite, List.length_append, List.length_take, List.length_replicate,
    List.length_drop]
  omega

theorem getD_overwrite : (overwrite file offset buf).getD i 0 =
      if offset ≤ i ∧ i < offset + buf.length then buf.getD (i - offset) 0 else file.getD i 0 := by
  have hlen : ((file ++ List.replicate (offset - file.length) (0 : BitVec 8)).take offset).length =
    offset := by
    simp only [List.length_take, List.length_append, List.length_replicate]
    omega
  rw [overwrite, List.append_assoc]
  rcases lt_or_ge i offset with hlt | hge
  · rw [if_neg (by omega), List.getD_append _ _ _ _ (by omega), List.getD_eq_getElem?_getD,
      List.getElem?_take_of_lt hlt, ← List.getD_eq_getElem?_getD]
    rcases lt_or_ge i file.length with hf | hf
    · rw [List.getD_append _ _ _ _ hf]
    · rw [List.getD_append_right _ _ _ _ hf, List.getD_replicate _ (by omega),
        List.getD_eq_default _ _ hf]
  · rw [List.getD_append_right _ _ _ _ (by omega), hlen]
    rcases lt_or_ge i (offset + buf.length) with hb | hb
    · rw [if_pos ⟨hge, hb⟩, List.getD_append _ _ _ _ (by omega)]
    · rw [if_neg (by omega), List.getD_append_right _ _ _ _ (by omega)]
      simp only [List.getD, List.getElem?_drop]
      congr 2
      omega

end Overwrite

namespace RamNode

variable {node node' : RamNode} {last offset : ℕ} {memory : Option Lib.Flat} {buf : List (BitVec 8)}

def byteAt (node : RamNode) (i : ℕ) : BitVec 8 :=
  match node.data with
  | .block _ bytes => bytes i
  | _ => 0

def bytes (node : RamNode) : Option (List (BitVec 8)) :=
  match node.data with
  | .null => if node.size = 0 then some [] else none
  | .block len bytes => if node.size ≤ len then some (bytes.slice 0 node.size) else none
  | .freed => none

def file (node : RamNode) : Option (List (BitVec 8)) :=
  if node.inUse = true ∧ node.type = .file then node.bytes else none

def BufferOk (node : RamNode) : Prop :=
  match node.data with
  | .null => node.capacity = 0 ∧ node.size = 0
  | .block len _ => node.capacity = len ∧ node.size ≤ len
  | .freed => False

def held (node : RamNode) : List (BitVec 8) := (List.range node.size).map node.byteAt

theorem length_held : node.held.length = node.size := by simp [held]

theorem getD_held {i : ℕ} (hi : i < node.size) : node.held.getD i 0 = node.byteAt i := by
  simp [held, List.getD, hi]

section
variable (h : node.BufferOk)
include h

theorem BufferOk.size_le : node.size ≤ node.capacity := by
  unfold BufferOk at h
  split at h
  · omega
  · omega
  · cases h

theorem BufferOk.bytes : node.bytes = some node.held := by
  unfold BufferOk at h
  unfold RamNode.bytes
  split at h
  · simp [h.2, held]
  · rename_i len b hd
    simp only [h.2, if_true, held, Lib.Flat.slice, Option.some.injEq]
    refine List.map_congr_left fun i _ => ?_
    simp [byteAt, hd]
  · cases h

theorem BufferOk.ne_freed : node.data ≠ .freed := fun hd => by
  simp [BufferOk, hd] at h

theorem BufferOk.growTo (hlast : last ≤ 0xFFFFF000 ∨ last < 2 ^ 32 ∧ node.data = .null)
    (memory : Option Lib.Flat) : Ramfs.growTo node last memory = some (false, node) ∨
      ∃ node', Ramfs.growTo node last memory = some (true, node') ∧ node'.BufferOk ∧
      last ≤ node'.capacity ∧
        node'.size = node.size ∧ node'.inUse = node.inUse ∧ node'.type = node.type ∧
        ∀ i < node'.capacity, node'.byteAt i = if i < node.capacity then node.byteAt i else 0 := by
  unfold Ramfs.growTo
  split
  · rename_i hle
    exact .inr ⟨node, rfl, h, hle, rfl, rfl, rfl, fun i hi => by rw [if_pos hi]⟩
  · rename_i hgt
    set newCap := (last + 4095) % 2 ^ 32 / 4096 * 4096 with hcap
    have hfill (b : Lib.Flat) (i : ℕ) (hi : i < newCap) :
        b.fill node.capacity (newCap - node.capacity) 0 i = if i < node.capacity then b i
        else 0 := by
      unfold Lib.Flat.fill
      split <;> split <;> first | rfl | omega
    have hnull : newCap = 0 → node.data = .null := fun h0 => by
      rcases hlast with hle | ⟨-, hnull⟩
      · omega
      · exact hnull
    have hle : newCap ≠ 0 → last ≤ newCap := fun h0 => by omega
    have hgrown (b : Lib.Flat) (h0 : newCap ≠ 0) (hb : ∀ i < node.capacity, b i = node.byteAt i)
        (hsize : node.size ≤ node.capacity) : ∃ node', some (true, { node with
            data := RamData.block newCap (b.fill node.capacity (newCap - node.capacity) 0)
            capacity := newCap }) = some (true, node') ∧ node'.BufferOk ∧ last ≤ node'.capacity ∧
          node'.size = node.size ∧ node'.inUse = node.inUse ∧ node'.type = node.type ∧
          ∀ i < node'.capacity, node'.byteAt i = if i < node.capacity then node.byteAt i
            else 0 := by
      refine ⟨_, rfl, ⟨rfl, by dsimp only; omega⟩, hle h0, rfl, rfl, rfl, fun i hi => ?_⟩
      refine (hfill b i hi).trans ?_
      split
      · exact hb i ‹_›
      · rfl
    have hsame (d : RamData) (hd : node.data = d) : { node with data := d } = node := by
      rw [← hd]
    have hsize := h.size_le
    unfold BufferOk at h
    rcases hd : node.data with _ | ⟨len, b⟩ | _
    · rw [hd] at h
      rcases memory with _ | garbage
      · exact .inl (by simp only [Ramfs.realloc, Option.map_some, hsame .null hd])
      · by_cases h0 : newCap = 0
        · exact .inl (by simp only [Ramfs.realloc, if_pos h0, Option.map_some, hsame .null hd])
        · simp only [Ramfs.realloc, if_neg h0, Option.map_some]
          exact .inr (hgrown garbage h0 (fun i hi => by omega) hsize)
    · rw [hd] at h
      have h0 : newCap ≠ 0 := fun h0 => by rw [hnull h0] at hd; cases hd
      rcases memory with _ | garbage
      · exact .inl (by simp only [Ramfs.realloc, if_neg h0, Option.map_some, hsame _ hd])
      · simp only [Ramfs.realloc, if_neg h0, Option.map_some]
        exact .inr (hgrown _ h0
          (fun i hi => by simp only [byteAt, hd]; exact if_pos (by omega)) hsize)
    · rw [hd] at h
      cases h

theorem BufferOk.copyIn (hroom : offset + buf.length ≤ node.capacity) :
    ∃ data, Ramfs.copyIn node.data offset buf = some data ∧
      BufferOk { node with data := data, size := max node.size (offset + buf.length) } ∧
      ∀ i, byteAt { node with data := data, size := max node.size (offset + buf.length) } i =
        if offset ≤ i ∧ i < offset + buf.length then buf.getD (i - offset) 0
          else node.byteAt i := by
  unfold Ramfs.copyIn
  rcases hd : node.data with _ | ⟨len, b⟩ | _
  · simp only [BufferOk, hd] at h
    have hbuf : buf = [] := List.length_eq_zero_iff.mp (by omega)
    refine ⟨.null, by rw [if_pos hbuf], ?_, fun i => ?_⟩
    · simp only [BufferOk, hbuf, List.length_nil]
      omega
    · rw [if_neg (by simp [hbuf])]
      simp [byteAt, hd]
  · simp only [BufferOk, hd] at h
    by_cases hbuf : buf = []
    · refine ⟨.block len b, by rw [if_pos hbuf], ?_, fun i => ?_⟩
      · simp only [BufferOk]
        omega
      · rw [if_neg (by simp [hbuf])]
        simp [byteAt, hd]
    · refine ⟨.block len
        (b.put offset buf), by rw [if_neg hbuf]; exact if_pos (by omega), ?_, fun i => ?_⟩
      · simp only [BufferOk]
        omega
      · simp [byteAt, hd, Lib.Flat.put]
  · simp [BufferOk, hd] at h

end

/-- A write that a file can take: its end does not wrap, also when rounded up to pages, its size is
a positive `int`, and the block holds nothing old before it. -/
def WriteFits (node : RamNode) (offset : ℕ) (buf : List (BitVec 8)) : Prop :=
  (offset + buf.length ≤ 0xFFFFF000 ∨ offset + buf.length < 2 ^ 32 ∧ node.data = .null) ∧
    buf.length < 2 ^ 31 ∧ ∀ i, node.size ≤ i → i < offset → i < node.capacity → node.byteAt i = 0

theorem held_eq_overwrite {node'' : RamNode} (hfits : node.WriteFits offset buf)
    (hsize : node.size ≤ node.capacity)
    (hlast : offset + buf.length ≤ node'.capacity) (hle : node.size ≤ node'.capacity)
    (hgrown : ∀ i < node'.capacity, node'.byteAt i = if i < node.capacity then node.byteAt i else 0)
    (hsize'' : node''.size = max node.size (offset + buf.length))
    (hput : ∀ i, node''.byteAt i =
      if offset ≤ i ∧ i < offset + buf.length then buf.getD (i - offset) 0 else node'.byteAt i) :
    node''.held = overwrite node.held offset buf := by
  have hlen : node''.held.length = (overwrite node.held offset buf).length := by
    rw [length_held, length_overwrite, length_held, hsize'']
  refine List.ext_getElem hlen fun i hi hi' => ?_
  rw [length_held, hsize''] at hi
  rw [← List.getD_eq_getElem _ 0, ← List.getD_eq_getElem _ 0, getD_held (by omega), hput,
    getD_overwrite]
  by_cases hin : offset ≤ i ∧ i < offset + buf.length
  · rw [if_pos hin, if_pos hin]
  · rw [if_neg hin, if_neg hin, hgrown i (by omega)]
    rcases lt_or_ge i node.size with hlt | hge
    · rw [if_pos (by omega), getD_held hlt]
    · rw [List.getD_eq_default _ _ (by rw [length_held]; exact hge)]
      split
      · exact hfits.2.2 i hge (by omega) ‹_›
      · rfl

end RamNode

namespace Ramfs

open RamNode

variable {fs : Ramfs} {n : NodeId} {fd offset size : ℕ} {buf : List (BitVec 8)}

def contents (fs : Ramfs) (n : NodeId) : Option (List (BitVec 8)) := (fs.nodes n).file

theorem setNode_self (fs : Ramfs) (n : NodeId) : fs.setNode n (fs.nodes n) = fs := by
  rw [setNode, update_eq_self]

theorem toInt32_of_lt {k : ℕ} (hk : k < 2 ^ 31) : toInt32 k = k := if_pos hk

variable (hn : fs.getHandle fd = some n) (htype : (fs.nodes n).type = .file)
  (hb : (fs.nodes n).BufferOk)
include hn htype hb

theorem write_of_end
    (hend : offset + buf.length ≤ 0xFFFFF000 ∨ offset + buf.length < 2 ^ 32 ∧
    (fs.nodes n).data = .null)
    (memory : Option Lib.Flat) : fs.write fd offset buf memory = some (fs, -eNoMem) ∨
      ∃ node, fs.write fd offset buf memory = some (fs.setNode n node, toInt32 buf.length) ∧
        node.BufferOk ∧ node.inUse = (fs.nodes n).inUse ∧ node.type = .file ∧
        ((fs.nodes n).WriteFits offset buf →
        node.held = overwrite (fs.nodes n).held offset buf) := by
  have hmod : (offset + buf.length) % 2 ^ 32 = offset + buf.length := Nat.mod_eq_of_lt (by omega)
  unfold write
  rw [hn]
  simp only [htype, reduceCtorEq, if_false, hmod]
  rcases hb.growTo hend memory with hgrow | ⟨node', hgrow, hb', hlast, hsize, huse, htype', hbytes⟩
  · rw [hgrow]
    exact .inl (by simp only [Option.bind_some, if_true, setNode_self])
  · obtain ⟨data, hcopy, hb'', hput⟩ := hb'.copyIn hlast
    refine .inr ⟨_, ?_, hb'', huse, htype'.trans htype, fun hfits => ?_⟩
    · simp only [hgrow, Option.bind_some, reduceCtorEq, if_false, hcopy, Option.map_some]
    have hle := hb'.size_le
    exact held_eq_overwrite hfits hb.size_le hlast (by omega) hbytes
      (by dsimp only; rw [hsize]) hput

theorem read_of_bufferOk (offset size : ℕ) :
    fs.read fd offset size = some (toInt32 (((fs.nodes n).held.drop offset).take size).length,
      ((fs.nodes n).held.drop offset).take size) := by
  have hlen : (((fs.nodes n).held.drop offset).take size).length =
    min size ((fs.nodes n).size - offset) := by
    rw [List.length_take, List.length_drop, length_held]
  unfold read
  rw [hn]
  simp only [htype, reduceCtorEq, if_false, hlen]
  split
  · rename_i hle
    have hnil : (fs.nodes n).held.drop offset = [] :=
      List.drop_eq_nil_of_le (by rw [length_held]; exact hle)
    simp [hnil, Nat.sub_eq_zero_of_le hle, toInt32]
  · rename_i hgt
    split
    · rename_i hzero
      have hnil : ((fs.nodes n).held.drop offset).take size = [] :=
        List.length_eq_zero_iff.mp (hlen.trans hzero)
      rw [hzero, hnil]
      rfl
    · unfold BufferOk at hb
      rcases hd : (fs.nodes n).data with _ | ⟨len, b⟩ | _
      · rw [hd] at hb
        omega
      · rw [hd] at hb
        dsimp only
        rw [if_pos (by omega)]
        congr 2
        refine List.ext_getElem (by rw [hlen]; simp [Lib.Flat.slice]) fun i hi hi' => ?_
        simp [Lib.Flat.slice, held, byteAt, hd]
      · rw [hd] at hb
        cases hb

omit htype

theorem read_isSome (offset size : ℕ) : (fs.read fd offset size).isSome := by
  rcases htype : (fs.nodes n).type with _ | _
  · rw [read_of_bufferOk hn htype hb]
    rfl
  · simp [read, hn, htype]

theorem write_isSome (hend : offset + buf.length ≤ 0xFFFFF000) (memory : Option Lib.Flat) :
    (fs.write fd offset buf memory).isSome := by
  rcases htype : (fs.nodes n).type with _ | _
  · rcases write_of_end hn htype hb (.inl hend) memory with hw | ⟨node, hw, -⟩ <;>
      rw [hw] <;> rfl
  · simp [write, hn, htype]

end Ramfs

namespace RamSys

open Ramfs RamNode

variable {s : RamSys} {fs fs' : Ramfs} {Q : NodeId → List NodeId} {n m : NodeId} {r : ℤ}
  {a : Action} {flags : BitVec 32} {path : CString}

/-- A request that the code handles: a write fits, and an open that makes a file or empties one has
a slot. -/
def Fits (fs : Ramfs) : Action → Prop
  | .openFile path flags => fs.freeSlot = none →
      (∀ n, fs.lookupPath path = some (some n) → (fs.nodes n).type = .file →
        (hasFlag flags vfsOCreat && hasFlag flags vfsOExcl) = false →
        hasFlag flags vfsOTrunc = true →
        (fs.nodes n).size = 0) ∧
      (fs.lookupPath path = some none → hasFlag flags vfsOCreat = true →
        ∀ made n, fs.makeNode path .file ≠ some (made, .ok n))
  | .write fd offset buf _ => ∀ n, fs.getHandle fd = some n → (fs.nodes n).type = .file →
      (fs.nodes n).WriteFits offset buf
  | _ => True

/-- The blocks of the nodes in use are in order, and the files hold what they should. -/
structure FilesOk (s : RamSys) : Prop where
  buffer : ∀ n, (s.fs.nodes n).inUse = true → (s.fs.nodes n).BufferOk
  model : ∀ n, s.fs.contents n = s.model n

theorem contents_of_notInUse (hn : (fs.nodes n).inUse = false) : fs.contents n = none := by
  simp [contents, file, hn]

theorem contents_of_file (hn : (fs.nodes n).inUse = true) (htype : (fs.nodes n).type = .file)
    (hb : (fs.nodes n).BufferOk) : fs.contents n = some (fs.nodes n).held := by
  rw [contents, file, if_pos ⟨hn, htype⟩, hb.bytes]

theorem FilesOk.of_node (hf : FilesOk s) (hnodes : ∀ m, m ≠ n → fs.nodes m = s.fs.nodes m)
    (hbuffer : (fs.nodes n).inUse = true → (fs.nodes n).BufferOk)
    (hmodel : expect s.fs fs s.model r a = update s.model n (fs.contents n)) :
    FilesOk (s.after a fs r) where
  buffer m hm := by
    change (fs.nodes m).inUse = true at hm
    change (fs.nodes m).BufferOk
    by_cases hmn : m = n
    · subst hmn
      exact hbuffer hm
    · rw [hnodes m hmn] at hm ⊢
      exact hf.buffer m hm
  model m := by
    change fs.contents m = expect s.fs fs s.model r a m
    rw [hmodel]
    by_cases hmn : m = n
    · subst hmn
      rw [update_self]
    · rw [update_of_ne hmn, ← hf.model m, contents, contents, hnodes m hmn]

theorem FilesOk.of_nodes (hf : FilesOk s) (hnodes : fs.nodes = s.fs.nodes)
    (hmodel : expect s.fs fs s.model r a = s.model) : FilesOk (s.after a fs r) where
  buffer := by
    change ∀ n, (fs.nodes n).inUse = true → (fs.nodes n).BufferOk
    rw [hnodes]
    exact hf.buffer
  model m := by
    change fs.contents m = expect s.fs fs s.model r a m
    rw [hmodel, ← hf.model m, contents, contents, hnodes]

theorem expect_openFile {h : ℕ} (hnode : (fs'.handles h).node = n)
    (model : NodeId → Option (List (BitVec 8))) :
    expect fs fs' model (h : ℤ) (.openFile path flags) =
      if model n = none ∨ hasFlag flags vfsOTrunc then update model n (some []) else model := by
  have hneg : ¬ (h : ℤ) < 0 := by omega
  simp only [expect, if_neg hneg, Int.toNat_natCast, hnode]

theorem expect_of_neg (hr : r < 0) (model : NodeId → Option (List (BitVec 8))) :
    expect fs fs' model r a = model := by
  unfold expect
  split
  · exact if_pos hr
  · exact if_pos hr
  · split
    · exact if_pos hr
    · rfl
    · rfl
  · rfl

theorem FilesOk.created (hf : FilesOk s) {p : NodeId} {name : CString}
    (hn : (s.fs.nodes n).inUse = false) (hslot : s.fs.freeSlot ≠ none)
    (hnew : (fs, r) = (s.fs.newNode n p name .file).allocHandle n) :
    FilesOk (s.after (.openFile path flags) fs r) := by
  rcases allocHandle_spec (s.fs.newNode n p name .file) n with ⟨h, -, -, halloc⟩ | ⟨hfull, -⟩
  · rw [halloc, Prod.mk.injEq] at hnew
    obtain ⟨rfl, rfl⟩ := hnew
    have hnone : s.model n = none := (hf.model n).symm.trans (contents_of_notInUse hn)
    refine hf.of_node (fun m hm => newNode_of_ne .file hm) (fun _ => by simp [newNode, BufferOk]) ?_
    rw [expect_openFile (n := n) (by simp), if_pos (.inl hnone)]
    simp [contents, newNode, file, bytes]
  · exact absurd hfull hslot

theorem truncate_of_size (h : (fs.nodes n).size = 0) : fs.truncate n = fs := by
  have hsame : { fs.nodes n with size := 0 } = fs.nodes n := by rw [← h]
  rw [truncate, hsame, setNode_self]

section
variable (hf : FilesOk s) (huse : (s.fs.nodes n).inUse = true) (htype : (s.fs.nodes n).type = .file)
include hf huse htype

theorem FilesOk.truncated (hflag : hasFlag flags vfsOTrunc = true)
    (hslot : s.fs.freeSlot = none → (s.fs.nodes n).size = 0)
    (hold : (fs, r) = (s.fs.truncate n).allocHandle n) :
    FilesOk (s.after (.openFile path flags) fs r) := by
  rcases allocHandle_spec (s.fs.truncate n) n with ⟨h, -, -, halloc⟩ | ⟨hfull, halloc⟩ <;>
    rw [halloc, Prod.mk.injEq] at hold <;> obtain ⟨rfl, rfl⟩ := hold
  · have hb : BufferOk { s.fs.nodes n with size := 0 } := by
      have hb := hf.buffer n huse
      unfold BufferOk at hb ⊢
      dsimp only
      split at hb
      · exact ⟨hb.1, rfl⟩
      · exact ⟨hb.1, Nat.zero_le _⟩
      · exact hb
    refine hf.of_node (fun m hm => update_of_ne hm ..) (fun _ => ?_) ?_
    · simpa [truncate, setNode] using hb
    · rw [expect_openFile (n := n) (by simp), if_pos (.inr hflag)]
      congr 1
      have hfile : file { s.fs.nodes n with size := 0 } = some [] := by
        rw [file, if_pos ⟨huse, htype⟩, hb.bytes]
        rfl
      simpa [contents, truncate, setNode] using hfile.symm
  · exact hf.of_nodes (by rw [truncate_of_size (hslot hfull)]) (expect_of_neg (by decide) _)

theorem FilesOk.found (hflag : hasFlag flags vfsOTrunc = false)
    (hold : (fs, r) = s.fs.allocHandle n) : FilesOk (s.after (.openFile path flags) fs r) := by
  have hsome : s.model n ≠ none := by
    rw [← hf.model n, contents_of_file huse htype (hf.buffer n huse)]
    exact Option.some_ne_none _
  rcases allocHandle_spec s.fs n with ⟨h, -, -, halloc⟩ | ⟨-, halloc⟩ <;>
    rw [halloc, Prod.mk.injEq] at hold <;> obtain ⟨rfl, rfl⟩ := hold
  · refine hf.of_nodes rfl ?_
    rw [expect_openFile (n := n) (by simp), if_neg (by simp [hsome, hflag])]
  · exact hf.of_nodes rfl (expect_of_neg (by decide) _)

end

theorem FilesOk.openFile (hS : Shape s.fs Q) (hf : FilesOk s)
    (hfits : Fits s.fs (.openFile path flags)) :
    ∃ fs r, s.fs.openFile path flags = some (fs, r) ∧
    FilesOk (s.after (.openFile path flags) fs r) := by
  obtain ⟨fs', r, heq, hcases⟩ := openFile_spec hS path flags
  refine ⟨fs', r, heq, ?_⟩
  rcases hcases with ⟨rfl, hneg⟩ | ⟨n, p, name, hres, hcreat, hn, hmake, -, hnew⟩ | ⟨n, hn, htype,
    hexcl, hold⟩
  · exact hf.of_nodes rfl (expect_of_neg hneg _)
  · refine hf.created hn (fun hfull => ?_) hnew
    exact (hfits hfull).2 (by rw [lookupPath_eq hS.linked, hres]) hcreat _ _ hmake
  · have huse := hS.inUse_of (resolve_mem hn)
    rcases hflag : hasFlag flags vfsOTrunc with _ | _
    · rw [if_neg (by rw [hflag]; exact Bool.false_ne_true)] at hold
      exact hf.found huse htype hflag hold
    · rw [if_pos hflag] at hold
      refine hf.truncated huse htype hflag (fun hfull => ?_) hold
      exact (hfits hfull).1 n (by rw [lookupPath_eq hS.linked, hn]) htype hexcl hflag

theorem FilesOk.write (hs : HandlesOk s) (hf : FilesOk s) {fd offset : ℕ} {buf : List (BitVec 8)}
    {memory : Option Lib.Flat} (hfits : Fits s.fs (.write fd offset buf memory)) :
    ∃ fs r, s.fs.write fd offset buf memory = some (fs, r) ∧
      FilesOk (s.after (.write fd offset buf memory) fs r) := by
  rcases hn : s.fs.getHandle fd with _ | n
  · exact ⟨s.fs, -eBadf, by rw [Ramfs.write, hn], hf.of_nodes rfl (expect_of_neg (by decide) _)⟩
  · rcases htype : (s.fs.nodes n).type with _ | _
    · obtain ⟨hopen, rfl⟩ := getHandle_eq_some hn
      have huse := (hs.handle fd hopen).1
      have hb := hf.buffer _ huse
      have hfits := hfits _ hn htype
      rcases write_of_end hn htype hb hfits.1 memory with hw | ⟨node, hw, hb', huse', htype', hheld⟩
      · exact ⟨_, _, hw, hf.of_nodes rfl (expect_of_neg (by decide) _)⟩
      · rw [toInt32_of_lt hfits.2.1] at hw
        refine ⟨_, _, hw, hf.of_node (fun m hm => update_of_ne hm ..)
          (fun _ => by simpa [setNode] using hb') ?_⟩
        have hpos : ¬ (buf.length : ℤ) < 0 := by omega
        have hnew : node.file =
          some (overwrite (s.fs.nodes (s.fs.handles fd).node).held offset buf) := by
          rw [file, if_pos ⟨huse'.trans huse, htype'⟩, hb'.bytes, hheld hfits]
        simp only [expect, if_neg hpos]
        congr 1
        rw [← hf.model, contents_of_file huse htype hb, Option.map_some, ← hnew]
        simp [contents, setNode]
    · exact ⟨s.fs, -eIsDir, by simp [Ramfs.write, hn, htype],
        hf.of_nodes rfl (expect_of_neg (by decide) _)⟩

section
variable (hS : Shape s.fs Q) (hf : FilesOk s)
include hS hf

theorem FilesOk.del (path : CString) :
    ∃ fs r, s.fs.del path = some (fs, r) ∧ FilesOk (s.after (.del path) fs r) := by
  rcases del_spec hS path with ⟨-, n, hn, hfreed⟩ | ⟨fs', r, heq, hcases⟩
  · exact absurd hfreed (hf.buffer n (hS.inUse_of (resolve_mem hn))).ne_freed
  · refine ⟨fs', r, heq, ?_⟩
    rcases hcases with ⟨rfl, hneg⟩ | ⟨n, p, links, hn, -, -, -, rfl, rfl⟩
    · exact hf.of_nodes rfl (expect_of_neg hneg _)
    · refine hf.of_node (fun m hm => gone_of_ne hm) (fun h => by simp [gone, setNode] at h) ?_
      simp only [expect, lookupPath_eq hS.linked, hn, lt_irrefl, if_false]
      rw [contents_of_notInUse (by simp [gone, setNode])]

theorem FilesOk.mkdir (path : CString) :
    ∃ fs r, s.fs.mkdir path = some (fs, r) ∧ FilesOk (s.after (.mkdir path) fs r) := by
  obtain ⟨fs', r, heq, hcases⟩ := mkdir_spec hS path
  refine ⟨fs', r, heq, ?_⟩
  rcases hcases with ⟨rfl, -⟩ | ⟨n, p, name, hn, -, rfl, -⟩
  · exact hf.of_nodes rfl rfl
  · refine hf.of_node (fun m hm => newNode_of_ne .dir hm) (fun _ => by simp [newNode, BufferOk]) ?_
    have hnone : s.model n = none := (hf.model n).symm.trans (contents_of_notInUse hn)
    have hdir : (s.fs.newNode n p name .dir).contents n = none := by
      simp [contents, newNode, file]
    rw [hdir, ← hnone, update_eq_self]
    rfl

theorem FilesOk.rename (oldPath newPath : CString) :
    ∃ fs r, s.fs.rename oldPath newPath = some (fs, r) ∧
    FilesOk (s.after (.rename oldPath newPath) fs r) := by
  obtain ⟨fs', r, heq, hcases⟩ := rename_spec hS oldPath newPath
  refine ⟨fs', r, heq, ?_⟩
  rcases hcases with ⟨rfl, -⟩ | ⟨n, q, p, name, links, -, hq, -, -, -, -, rfl, -⟩
  · exact hf.of_nodes rfl rfl
  · have hb := hf.buffer n (hS.inUse hq)
    refine hf.of_node (fun m hm => attach_of_ne hm)
      (fun _ => by simpa [attach, setNode, BufferOk] using hb) ?_
    have hsame : (attach { s.fs with links := links } n p name).contents n = s.model n := by
      rw [← hf.model n]
      simp [contents, attach, setNode, file, bytes]
    rw [hsame, update_eq_self]
    rfl

theorem FilesOk.openDir (path : CString) :
    ∃ fs r, s.fs.openDir path = some (fs, r) ∧ FilesOk (s.after (.openDir path) fs r) := by
  obtain ⟨fs', r, heq, hcases⟩ := openDir_spec hS path
  refine ⟨fs', r, heq, ?_⟩
  rcases hcases with ⟨rfl, -⟩ | ⟨n, -, hopen⟩
  · exact hf.of_nodes rfl rfl
  · obtain rfl := congrArg Prod.fst hopen
    exact hf.of_nodes (allocHandle_nodes s.fs n).1 rfl

end

theorem FilesOk.close (hf : FilesOk s) (fd : ℕ) :
    FilesOk (s.after (.close fd) (s.fs.close fd).1 (s.fs.close fd).2) := by
  refine hf.of_nodes ?_ rfl
  unfold Ramfs.close
  split <;> rfl

theorem FilesOk.read (hs : HandlesOk s) (hf : FilesOk s) (fd offset size : ℕ) :
    ∃ r, s.fs.read fd offset size = some r := by
  rcases hn : s.fs.getHandle fd with _ | n
  · exact ⟨_, by rw [Ramfs.read, hn]⟩
  · obtain ⟨hopen, rfl⟩ := getHandle_eq_some hn
    exact Option.isSome_iff_exists.mp
      (read_isSome hn (hf.buffer _ (hs.handle fd hopen).1) offset size)

theorem FilesOk.serve (hS : Shape s.fs Q) (hs : HandlesOk s) (hf : FilesOk s)
    (hfits : Fits s.fs a) : ∃ fs r, serve s.fs a = some (fs, r) ∧ FilesOk (s.after a fs r) := by
  cases a with
  | openFile path flags => exact hf.openFile hS hfits
  | openDir path => exact hf.openDir hS path
  | close fd => exact ⟨_, _, rfl, hf.close fd⟩
  | read fd offset size =>
    obtain ⟨r, hr⟩ := hf.read hs fd offset size
    exact ⟨s.fs, r.1, by rw [serve, hr, Option.map_some], hf.of_nodes rfl rfl⟩
  | write fd offset buf memory => exact hf.write hs hfits
  | mkdir path => exact hf.mkdir hS path
  | del path => exact hf.del hS path
  | rename oldPath newPath => exact hf.rename hS oldPath newPath

theorem FilesOk.init : FilesOk init where
  buffer n hn := by
    rw [init_inUse_iff.mp hn]
    exact ⟨rfl, rfl⟩
  model n := by
    by_cases hn : n = root
    · subst hn
      rfl
    · exact contents_of_notInUse (Bool.eq_false_iff.mpr fun h => hn (init_inUse_iff.mp h))

/-- Every request is one that the code handles and no file is deleted under an open handle. -/
def Handled (s : RamSys) (a : Action) : Prop := Fits s.fs a ∧ NotOpen s.fs a

theorem filesOk (h : Lib.Reach step (· = init) Handled s) : FilesOk s := by
  have hall : ((∃ Q, Shape s.fs Q) ∧ HandlesOk s) ∧ FilesOk s := by
    induction h with
    | init h =>
      cases h
      exact ⟨⟨⟨_, Shape.init⟩, .init⟩, .init⟩
    | @next s s' a hreach hok hstep ih =>
      obtain ⟨⟨⟨Q, hS⟩, hs⟩, hf⟩ := ih
      refine ⟨shape_handlesOk (fun _ _ h => h.2) (hreach.next hok hstep), ?_⟩
      obtain ⟨fs, r, hserve, hf'⟩ := hf.serve hS hs hok.1
      obtain ⟨fs1, r1, hserve1, rfl⟩ := step_eq_some.mp hstep
      rw [hserve, Option.some.injEq, Prod.mk.injEq] at hserve1
      obtain ⟨rfl, rfl⟩ := hserve1
      exact hf'
  exact hall.2

/-- In every run of requests that the code handles, the files hold the bytes of the model, reads
return them, and every such request is answered. -/
theorem files_are_byte_arrays (h : Lib.Reach step (· = init) Handled s) :
    (∀ n, s.fs.contents n = s.model n) ∧
      (∀ fd n file, s.fs.getHandle fd = some n → s.model n = some file → ∀ offset size,
        min size (file.length - offset) < 2 ^ 31 →
        s.fs.read fd offset size = some (readBack file offset size)) ∧
      ∀ a, Handled s a → ∃ s', step s a = some s' := by
  have hf := filesOk h
  obtain ⟨⟨Q, hS⟩, hs⟩ := shape_handlesOk (fun _ _ h => h.2) h
  refine ⟨hf.model, fun fd n file hn hfile offset size hsize => ?_, fun a ha => ?_⟩
  · have hcontents := (hf.model n).trans hfile
    rw [contents, RamNode.file] at hcontents
    split at hcontents
    · rename_i hinUse
      have hb := hf.buffer n hinUse.1
      obtain rfl := Option.some.inj (hb.bytes.symm.trans hcontents)
      rw [read_of_bufferOk hn hinUse.2 hb, readBack, toInt32_of_lt]
      rwa [List.length_take, List.length_drop]
    · cases hcontents
  · obtain ⟨fs, r, hserve, -⟩ := hf.serve hS hs ha.1
    exact ⟨_, step_eq_some.mpr ⟨fs, r, hserve, rfl⟩⟩

/-- A byte is written behind the end of the new file `/a`, into memory that held something else. -/
theorem files_are_byte_arrays_gap : ∃ s s', step init (.openFile [47, 97] vfsOCreat) = some s ∧
    step s (.write 0 3 [7] (some fun _ => 0xAA)) = some s' ∧ s'.model 1 = some [0, 0, 0, 7] ∧
    s'.fs.contents 1 = s'.model 1 := by
  obtain ⟨s, hs⟩ : ∃ s, step init (.openFile [47, 97] vfsOCreat) = some s :=
    Option.isSome_iff_exists.mp (by decide)
  have hfacts : (step init (.openFile [47, 97] vfsOCreat)).map (fun s =>
      (s.fs.getHandle 0, (s.fs.nodes 1).capacity)) = some (some 1, 0) := by decide
  have hmodel : ((step init (.openFile [47, 97] vfsOCreat)).bind
      (step · (.write 0 3 [7] (some fun _ => 0xAA)))).map (fun s => s.model 1) =
      some (some [0, 0, 0, 7]) := by
    decide
  rw [hs] at hfacts hmodel
  simp only [Option.map_some, Option.some.injEq, Prod.mk.injEq, Option.bind_some,
    Option.map_eq_some_iff] at hfacts hmodel
  obtain ⟨s', hs', hmodel⟩ := hmodel
  have hopen : Handled init (.openFile [47, 97] vfsOCreat) :=
    ⟨fun hfull => absurd hfull (by decide), nofun⟩
  have hwrite : Handled s (.write 0 3 [7] (some fun _ => 0xAA)) := by
    refine ⟨fun n hn _ => ?_, nofun⟩
    obtain rfl := Option.some.inj (hfacts.1.symm.trans hn)
    exact ⟨.inl (by decide), by decide, fun i _ _ hi => by omega⟩
  have hstart : Lib.Reach step (· = init) Handled init := .init rfl
  exact ⟨s, s', hs, hs', hmodel,
    (files_are_byte_arrays ((hstart.next hopen hs).next hwrite hs')).1 1⟩

/-- `/a` holds two bytes, is emptied and gets a byte at offset 1: the first of the old bytes is
back. -/
theorem old_byte_uncovered :
    (Lib.run step init [.openFile [47, 97] vfsOCreat, .write 0 0 [1, 2] (some fun _ => 0),
    .openFile [47, 97] vfsOTrunc, .write 1 1 [3] none]).map (fun s =>
      (s.fs.contents 1, s.model 1)) = some (some [1, 3], some [0, 3]) := by
  decide

/-- Where no file is deleted under an open handle, a handle stays on its file: the node is in use
and holds that file alone. A write through it changes that node only, and a read depends on it only.
Both return where the node's block is in order and the write does not wrap. -/
theorem handles_keep_files (h : Lib.Reach step (· = init) (fun s a => NotOpen s.fs a) s) {fd : ℕ}
    (hn : s.fs.getHandle fd = some n) :
    (s.fs.nodes n).inUse = true ∧ s.stamp n = s.opened fd ∧
      (∀ m, (s.fs.nodes m).inUse = true → s.stamp m = s.opened fd → m = n) ∧
      (∀ offset buf memory fs' r, s.fs.write fd offset buf memory = some (fs', r) →
        ∀ m, m ≠ n → fs'.nodes m = s.fs.nodes m) ∧
      (∀ fs' : Ramfs, fs'.handles = s.fs.handles → fs'.nodes n = s.fs.nodes n →
        ∀ offset size, fs'.read fd offset size = s.fs.read fd offset size) ∧
      ((s.fs.nodes n).BufferOk → ∀ offset size buf memory, (s.fs.read fd offset size).isSome ∧
        (offset + buf.length ≤ 0xFFFFF000 → (s.fs.write fd offset buf memory).isSome)) := by
  obtain ⟨-, hs⟩ := shape_handlesOk (fun _ _ h => h) h
  obtain ⟨hopen, rfl⟩ := getHandle_eq_some hn
  obtain ⟨huse, hstamp⟩ := hs.handle fd hopen
  refine ⟨huse, hstamp, fun m hm heq => hs.unique m _ hm huse (heq.trans hstamp.symm), ?_, ?_, ?_⟩
  · intro offset buf memory fs' r hw m hm
    rcases write_spec hw with rfl | ⟨n, data, capacity, size, hn', rfl⟩
    · rfl
    · rw [hn, Option.some.injEq] at hn'
      rw [← hn']
      exact Function.update_of_ne hm ..
  · intro fs' hhandles hnodes offset size
    have hn' : fs'.getHandle fd = some (s.fs.handles fd).node := by
      rw [← hn, getHandle, getHandle, hhandles]
    rw [Ramfs.read, Ramfs.read, hn, hn']
    simp only [hnodes]
  · exact fun hb offset size buf memory => ⟨read_isSome hn hb offset size,
      fun hend => write_isSome hn hb hend memory⟩

theorem handles_keep_files_opened : ∃ s, Lib.run step init [.mkdir [47, 98], .del [47, 98],
    .openFile [47, 97] vfsOCreat, .mkdir [47, 98]] = some s ∧ s.fs.getHandle 0 = some 1 ∧
    s.stamp 1 = s.opened 0 := by
  obtain ⟨s, hs⟩ :
    ∃ s, Lib.run step init [.mkdir [47, 98], .del [47, 98], .openFile [47, 97] vfsOCreat,
    .mkdir [47, 98]] = some s := Option.isSome_iff_exists.mp (by decide)
  have hfacts : (Lib.run step init [.mkdir [47, 98], .del [47, 98], .openFile [47, 97] vfsOCreat,
      .mkdir [47, 98]]).bind (fun s => s.fs.getHandle 0) = some 1 := by decide
  rw [hs, Option.bind_some] at hfacts
  have hstart : Lib.Reach step (· = init) (fun s a => NotOpen s.fs a) init := .init rfl
  have hcheck : ∀ (s : RamSys) (a : Action), decide (NotOpen s.fs a) = true → NotOpen s.fs a :=
    fun _ _ h => of_decide_eq_true h
  have hreach := Lib.Reach.of_runAll hcheck _ hstart (by decide +kernel) hs
  exact ⟨s, hs, hfacts, (handles_keep_files hreach hfacts).2.1⟩

/-- A handle that was opened on `/a` ends up on `/b`. -/
theorem handle_on_other_file : (Lib.run step init [.openFile [47, 97] vfsOCreat, .del [47, 97],
    .openFile [47, 98] vfsOCreat]).map (fun s =>
      (s.fs.getHandle 0, (s.fs.nodes 1).name, decide (s.stamp 1 = s.opened 0))) =
        some (some 1, [98], false) := by
  decide

end RamSys

end Xnix
