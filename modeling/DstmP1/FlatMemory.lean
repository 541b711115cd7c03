import DstmP1.ReadCell
import Mathlib.Data.List.GetD

/-!
# Values in memory

The transactions read and write 32- and 64-bit values at naturally aligned addresses of the
first `OBJECTS_COUNT` cells of a node. `Flat` is the memory of all nodes as bytes, with `load`
and `store` of such values; a transaction does the same on the 64-byte copies it keeps of cells,
`Cell.load` and `Cell.store`. An access lies in one cell (`Access.offset_add_le`), so the two
agree: `Flat.load_eq`, `Flat.cell_store` and `Flat.cell_store_ne`.
-/

namespace DstmP1

/-- The type `T` of the instantiated `read<T>` and `write<T>`. -/
inductive Width where
  | u32
  | u64
  deriving DecidableEq

/-- `sizeof(T)`. -/
def Width.bytes : Width → ℕ
  | u32 => 4
  | u64 => 8

theorem Width.bytes_pos (w : Width) : 0 < w.bytes := by cases w <;> decide

theorem Width.bytes_le (w : Width) : w.bytes ≤ 8 := by cases w <;> decide

/-- A value of type `T`, as its bytes in memory. -/
abbrev Value (w : Width) := { l : List Byte // l.length = w.bytes }

/-- A transactional access: a naturally aligned address of an object. -/
structure Access (g : Segments) where
  addr : Word
  width : Width
  inHeap : g.InHeap addr
  aligned : addr.toNat % width.bytes = 0

/-- A call of `read` or `write`. -/
inductive Op (g : Segments) where
  | read (a : Access g)
  | write (a : Access g) (value : Value a.width)

/-- The access a call makes. -/
def Op.access {g : Segments} : Op g → Access g
  | read a => a
  | write a _ => a

namespace Access

variable {g : Segments} (a : Access g)

/-- `block_lb`. -/
def block : Word := blockLb a.addr

/-- `ADDR_FROM_ADDRESS(addr - block_lb)`. -/
def offset : ℕ := (addrFromAddress (a.addr - a.block)).toNat

/-- The offset of an access is the low six bits of its address. -/
theorem offset_eq : a.offset = a.addr.toNat % 64 := by
  have hb := blockLb_toNat a.addr
  rw [offset, addrFromAddress_toNat, block, BitVec.toNat_sub_of_le (by rw [BitVec.le_def]; omega)]
  omega

/-- An aligned value lies in one cell. -/
theorem offset_add_le : a.offset + a.width.bytes ≤ cellSize := by
  have h := a.aligned
  rw [offset_eq, cellSize_eq]
  cases hw : a.width <;> rw [hw] at h <;> simp only [Width.bytes] at * <;> omega

/-- The block of an access is a cell of the heap. -/
theorem isCell : g.IsCell a.block := a.inHeap.blockLb_isCell.1

/-- A cell is on the node of its bytes. -/
theorem node_block : nodeFromAddress a.block = nodeFromAddress a.addr := a.inHeap.blockLb_isCell.2

/-- The arguments with which `read` and `write` call `readCell`; `copy` says whether a copy of
the cell is asked for. -/
def cellArgs (copy : Bool) : CellArgs where
  addr := a.addr
  width := a.width.bytes
  copy := copy
  inCell := by have := a.offset_add_le; rwa [offset_eq] at this

/-- The untagged base of the cell is what `readCell` computes. -/
theorem addrFromAddress_block : addrFromAddress a.block = (a.cellArgs true).lowBound := by
  apply BitVec.eq_of_toNat_eq
  rw [CellArgs.lowBound_toNat, addrFromAddress_toNat, block, blockLb_toNat]
  change _ = a.addr.toNat % 2 ^ 48 / 64 * 64
  omega

/-- The bytes of the value are bytes of the cell. -/
theorem addr_add {i : ℕ} (hi : i < a.width.bytes) :
    addrFromAddress a.addr + BitVec.ofNat 64 i =
      addrFromAddress a.block + BitVec.ofNat 64 (a.offset + i) := by
  have h := a.offset_add_le
  have ha := addrFromAddress_toNat a.addr
  have hb := addrFromAddress_toNat a.block
  rw [block, blockLb_toNat, ← block] at hb
  rw [offset_eq, cellSize_eq] at *
  apply BitVec.eq_of_toNat_eq
  rw [BitVec.toNat_add, BitVec.toNat_add, BitVec.toNat_ofNat, BitVec.toNat_ofNat, ha, hb]
  omega

end Access

/-! ## Cells -/

/-- `*(T*)(copy + off)`. -/
def Cell.load (c : Cell) (off n : ℕ) : List Byte :=
  (List.range n).map fun i => c (Fin.ofNat cellSize (off + i))

/-- `*(T*)(copy + off) = v`. -/
def Cell.store (c : Cell) (off : ℕ) (v : List Byte) : Cell := fun i =>
  if off ≤ i then v.getD (i - off) (c i) else c i

theorem Cell.length_load (c : Cell) (off n : ℕ) : (c.load off n).length = n := by
  rw [Cell.load, List.length_map, List.length_range]

/-! ## Flat memory -/

/-- The bytes of all nodes. -/
abbrev Flat := ℕ → Mem

namespace Flat

/-- The `n` bytes at the address `addr`. -/
def load (m : Flat) (addr : Word) (n : ℕ) : List Byte :=
  (List.range n).map fun i => m (nodeFromAddress addr) (addrFromAddress addr + BitVec.ofNat 64 i)

/-- The memory after `v` has been stored at `addr`. -/
def store (m : Flat) (addr : Word) (v : List Byte) : Flat := fun n p =>
  if n = nodeFromAddress addr then v.getD (p - addrFromAddress addr).toNat (m n p) else m n p

/-- The contents of the cell with base `b`. -/
def cell (m : Flat) (b : Word) : Cell := (m (nodeFromAddress b)).cell (addrFromAddress b)

theorem cell_apply (m : Flat) (b : Word) (i : Fin cellSize) :
    m.cell b i = m (Segments.cellLoc b i).1 (Segments.cellLoc b i).2 := rfl

theorem length_load (m : Flat) (addr : Word) (n : ℕ) : (m.load addr n).length = n := by
  rw [load, List.length_map, List.length_range]

section
variable {g : Segments} (a : Access g) (m : Flat)

/-- Loading a value is loading it from its cell. -/
theorem load_eq : m.load a.addr a.width.bytes = (m.cell a.block).load a.offset a.width.bytes := by
  refine List.map_congr_left fun i hi => ?_
  have hi := List.mem_range.1 hi
  have hlt := a.offset_add_le
  rw [cell, Mem.cell, a.node_block, a.addr_add hi]
  rw [show (Fin.ofNat cellSize (a.offset + i)).val = a.offset + i from
    Nat.mod_eq_of_lt (by omega)]

/-- How far a byte of the cell `b` lies behind the value: the bytes of the value are those at
distance less than its width. -/
theorem dist {b : Word} (hb : g.IsCell b) (hn : nodeFromAddress b = nodeFromAddress a.addr)
    {i : ℕ} (hi : i < 64) :
    (b = a.block ∧ a.offset ≤ i ∧
      (addrFromAddress b + BitVec.ofNat 64 i - addrFromAddress a.addr).toNat = i - a.offset) ∨
    a.width.bytes ≤
      (addrFromAddress b + BitVec.ofNat 64 i - addrFromAddress a.addr).toNat ∧
      (b = a.block → i < a.offset ∨ a.offset + a.width.bytes ≤ i) := by
  have hp : (addrFromAddress b + BitVec.ofNat 64 i).toNat = b.toNat % 2 ^ 48 + i :=
    Segments.cellLoc_toNat (b := b) hi
  have ha := addrFromAddress_toNat a.addr
  have hbl : b = a.block ↔ b.toNat = a.addr.toNat / 64 * 64 := by
    rw [← blockLb_toNat a.addr, BitVec.toNat_inj, Access.block]
  have hlt : a.addr.toNat % 64 + a.width.bytes ≤ 64 := a.offset_eq ▸ a.offset_add_le
  have hnd : b.toNat / 2 ^ 48 = a.addr.toNat / 2 ^ 48 := by
    have hbu := hb.untagged
    have hau := a.inHeap.untagged
    rw [nodeFromAddress_eq, nodeFromAddress_eq] at hn
    unfold Unlocked at hbu hau
    omega
  have hal : b.toNat % 64 = 0 := hb.aligned
  have hw := a.width.bytes_le
  have hsub := BitVec.toNat_sub (addrFromAddress b + BitVec.ofNat 64 i) (addrFromAddress a.addr)
  rw [hp, ha] at hsub
  rw [hbl, a.offset_eq, hsub]
  generalize b.toNat = B at *
  generalize a.addr.toNat = A at *
  generalize a.width.bytes = w at *
  by_cases hBA : B = A / 64 * 64 <;> by_cases hle : A % 2 ^ 48 ≤ B % 2 ^ 48 + i
  · exact .inl ⟨hBA, by omega, by omega⟩
  · exact .inr ⟨by omega, fun _ => .inl (by omega)⟩
  · exact .inr ⟨by omega, fun h => absurd h hBA⟩
  · exact .inr ⟨by omega, fun h => absurd h hBA⟩

/-- Storing a value changes its cell as storing it in the cell does. -/
theorem cell_store {v : List Byte} (hv : v.length = a.width.bytes) :
    (m.store a.addr v).cell a.block = (m.cell a.block).store a.offset v := by
  funext i
  rw [cell_apply, store, Cell.store, if_pos (show (Segments.cellLoc a.block i).1 = _ from
    a.node_block)]
  have hd := dist a a.isCell a.node_block i.isLt
  rcases hd with ⟨-, hle, he⟩ | ⟨hlen, hout⟩
  · rw [if_pos hle, show (Segments.cellLoc a.block i).2 = addrFromAddress a.block +
      BitVec.ofNat 64 i from rfl, he]
    rfl
  · rw [List.getD_eq_default _ _ (by rw [hv]; exact hlen)]
    split
    · next hle => rw [List.getD_eq_default _ _ (by have := hout rfl; omega)]; rfl
    · rfl

/-- It leaves the other cells alone. -/
theorem cell_store_ne {v : List Byte} (hv : v.length = a.width.bytes) {b : Word}
    (hb : g.IsCell b) (hne : b ≠ a.block) : (m.store a.addr v).cell b = m.cell b := by
  funext i
  rw [cell_apply, cell_apply, store]
  split
  · next hn =>
    rcases dist a hb hn i.isLt with ⟨hbb, -, -⟩ | ⟨hlen, -⟩
    · exact absurd hbb hne
    · exact List.getD_eq_default _ _ (by rw [hv]; exact hlen)
  · rfl

/-- A byte that a store changes is a byte of the value's cell. -/
theorem store_ne {v : List Byte} (hv : v.length = a.width.bytes) {n : ℕ} {p : Word}
    (h : m.store a.addr v n p ≠ m n p) :
    ∃ i : Fin cellSize, (n, p) = Segments.cellLoc a.block i := by
  rw [store] at h
  split at h
  · next hn =>
    have hlt : (p - addrFromAddress a.addr).toNat < v.length := by
      by_contra hge
      exact h (List.getD_eq_default _ _ (by omega))
    have hoff := a.offset_add_le
    refine ⟨⟨a.offset + (p - addrFromAddress a.addr).toNat, by omega⟩, ?_⟩
    rw [Segments.cellLoc, a.node_block, ← hn, ← a.addr_add (by omega), BitVec.ofNat_toNat,
      BitVec.setWidth_eq, BitVec.add_comm, BitVec.sub_add_cancel]
  · exact absurd rfl h

end

end Flat

end DstmP1
