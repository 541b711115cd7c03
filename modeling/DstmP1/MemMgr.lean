import DstmP1.Timestamps

/-!
# Addresses, cells and lock words

An object address carries the number of its home node in bits 48 to 62; the rest is the local
address on that node (`dstm_malloc.h`). `GASNetMemoryManager` (`gasnet_mem_mgr.cpp`) lays the
lock table out at the start of every node's segment and the objects after it, and maps an
object address to the address of its lock word. A *cell* is an aligned block of 64 bytes, the
unit that one lock word guards; `IsCell` names the cells the lock table has room for, the
first `OBJECTS_COUNT` of a node.

For these the map is what the transactions rely on: it can be computed from any address of the
cell or, on the home node, from the untagged address (`lockLoc_home`), different cells have
different lock words (`lockLoc_inj`), and the bytes of different cells are different bytes
(`cellLoc_inj`).
-/

namespace DstmP1

/-! ## Constants -/

def BUDDY_LEVEL : ℕ := 24
def CDU_SIZE : ℕ := 6
def MAU_SIZE : ℕ := 3
def OBJECTS_COUNT : ℕ := (1 <<< BUDDY_LEVEL) >>> CDU_SIZE

/-- The bytes of a cell, `1 << CDU_SIZE`. -/
def cellSize : ℕ := 1 <<< CDU_SIZE

/-- The page of an x86-64 node, in which `main` counts the segment. -/
def GASNET_PAGESIZE : ℕ := 4096

/-- The segment size `main` attaches (`dstm_main.cpp`). -/
def segmentSize : ℕ := 262144 * GASNET_PAGESIZE

instance : NeZero cellSize := ⟨by decide⟩

@[simp] theorem OBJECTS_COUNT_eq : OBJECTS_COUNT = 2 ^ 18 := rfl
@[simp] theorem cellSize_eq : cellSize = 64 := rfl
@[simp] theorem segmentSize_eq : segmentSize = 2 ^ 30 := rfl

/-! ## Tagged addresses -/

/-- `NODE_FROM_ADDRESS`. -/
def nodeFromAddress (x : Word) : ℕ := (((0x7fff <<< 48 : Word) &&& x) >>> 48).toNat

/-- `ADDR_FROM_ADDRESS`. -/
def addrFromAddress (x : Word) : Word := (0xffffffffffff : Word) &&& x

/-- The key under which `read` and `write` keep the cell of `addr`. -/
def blockLb (addr : Word) : Word := (addr >>> CDU_SIZE) <<< CDU_SIZE

/-- The node of an address is bits 48 to 62. -/
theorem nodeFromAddress_eq (x : Word) : nodeFromAddress x = x.toNat / 2 ^ 48 % 2 ^ 15 := by
  have h : ((0x7fff <<< 48 : Word) &&& x) >>> 48 = nodeTs x := by
    rw [nodeTs, BitVec.ushiftRight_and_distrib, BitVec.and_comm,
      show (0x7fff <<< 48 : Word) >>> 48 = 0x7fff by decide]
  rw [nodeFromAddress, h, nodeTs_toNat]

theorem nodeFromAddress_lt (x : Word) : nodeFromAddress x < 2 ^ 15 := by
  rw [nodeFromAddress_eq]; exact Nat.mod_lt _ (by decide)

/-- The local address is the low 48 bits. -/
theorem addrFromAddress_toNat (x : Word) : (addrFromAddress x).toNat = x.toNat % 2 ^ 48 := by
  rw [addrFromAddress, BitVec.and_comm]; exact versionTs_toNat x

/-- The base of a block is the address rounded down to 64. -/
theorem blockLb_toNat (x : Word) : (blockLb x).toNat = x.toNat / 64 * 64 := by
  have := x.isLt
  rw [blockLb, BitVec.toNat_shiftLeft, BitVec.toNat_ushiftRight, Nat.shiftRight_eq_div_pow,
    Nat.shiftLeft_eq, show CDU_SIZE = 6 from rfl]
  omega

/-- An address is put together from its node and its local part. -/
theorem address_ext {a b : Word} (ha : Unlocked a) (hb : Unlocked b)
    (hn : nodeFromAddress a = nodeFromAddress b)
    (hl : addrFromAddress a = addrFromAddress b) : a = b := by
  have hl' := congrArg BitVec.toNat hl
  rw [addrFromAddress_toNat, addrFromAddress_toNat] at hl'
  rw [nodeFromAddress_eq, nodeFromAddress_eq] at hn
  unfold Unlocked at ha hb
  apply BitVec.eq_of_toNat_eq
  omega

/-- Tagging the local part of an address with its own node gives the address back. -/
theorem retag {a : Word} (ha : Unlocked a) :
    addrFromAddress a ||| toNodeTs (BitVec.ofNat 64 (nodeFromAddress a)) = a := by
  have hlt : (addrFromAddress a).toNat < 2 ^ 48 := by
    rw [addrFromAddress_toNat]; exact Nat.mod_lt _ (by decide)
  have h := newVersion_toNat (nodeFromAddress a) hlt
  rw [newVersion, BitVec.or_comm] at h
  apply BitVec.eq_of_toNat_eq
  rw [h, addrFromAddress_toNat, nodeFromAddress_eq]
  unfold Unlocked at ha
  omega

/-! ## The memory manager -/

/-- The attached segments: one page-aligned range of `segmentSize` bytes on every node, inside
the 48 bits that an address has for its local part. -/
structure Segments where
  /-- `gasnet_nodes()`. -/
  nodes : ℕ
  /-- `segs[n].addr`. -/
  addr : ℕ → Word
  page_aligned : ∀ n, (addr n).toNat % GASNET_PAGESIZE = 0
  in_range : ∀ n, (addr n).toNat + segmentSize ≤ 2 ^ 48

namespace Segments

variable (g : Segments)

/-- `locks_addr[n]` as `GASNetMemoryManager::init` fills it; the shift is by
`sizeof(uint64_t)`, which is 8. -/
def locksAddr (n : ℕ) : Word := (g.addr n >>> 8) <<< 8

/-- `objects_addr[n]` as `GASNetMemoryManager::init` fills it. -/
def objectsAddr (n : ℕ) : Word :=
  let addr := g.locksAddr n + BitVec.ofNat 64 (OBJECTS_COUNT * 8)
  let al := addr >>> CDU_SIZE
  (al + 1) <<< CDU_SIZE

/-- `getObjectLockAddr(addr)`: the tagged address of the lock word. -/
def getObjectLockAddr (addr : Word) : Word :=
  let node := nodeFromAddress addr
  let objNum := (addrFromAddress addr - g.objectsAddr node) >>> CDU_SIZE
  (g.locksAddr node + objNum * 8) ||| toNodeTs (BitVec.ofNat 64 node)

/-- `getObjectLockAddr(addr, node)`: the local address of the lock word on node `node`. -/
def getObjectLockAddrAt (addr : Word) (node : ℕ) : Word :=
  let objNum := (addrFromAddress addr - g.objectsAddr node) >>> CDU_SIZE
  g.locksAddr node + objNum * 8

/-- The lock words come first in the segment. -/
theorem locksAddr_eq (n : ℕ) : g.locksAddr n = g.addr n := by
  have h := g.page_aligned n
  have hlt := (g.addr n).isLt
  apply BitVec.eq_of_toNat_eq
  rw [locksAddr, BitVec.toNat_shiftLeft, BitVec.toNat_ushiftRight, Nat.shiftRight_eq_div_pow,
    Nat.shiftLeft_eq]
  unfold GASNET_PAGESIZE at h
  omega

/-- The objects start one cell after the lock table. -/
theorem objectsAddr_toNat (n : ℕ) :
    (g.objectsAddr n).toNat = (g.addr n).toNat + OBJECTS_COUNT * 8 + cellSize := by
  have h := g.page_aligned n
  have hr := g.in_range n
  rw [segmentSize_eq] at hr
  unfold GASNET_PAGESIZE at h
  have h1 : (g.locksAddr n + BitVec.ofNat 64 (OBJECTS_COUNT * 8)).toNat =
      (g.addr n).toNat + 2097152 := by
    rw [locksAddr_eq, BitVec.toNat_add, show (BitVec.ofNat 64 (OBJECTS_COUNT * 8)).toNat = 2097152
      by decide]
    omega
  have h2 : ((g.locksAddr n + BitVec.ofNat 64 (OBJECTS_COUNT * 8)) >>> CDU_SIZE + 1).toNat =
      ((g.addr n).toNat + 2097152) / 64 + 1 := by
    rw [BitVec.toNat_add, BitVec.toNat_ushiftRight, Nat.shiftRight_eq_div_pow, h1,
      show (1 : Word).toNat = 1 from rfl, show 2 ^ CDU_SIZE = 64 by decide]
    omega
  rw [objectsAddr, BitVec.toNat_shiftLeft, h2, Nat.shiftLeft_eq, OBJECTS_COUNT_eq, cellSize_eq,
    show 2 ^ CDU_SIZE = 64 by decide]
  omega

/-! ## Cells -/

/-- `a` is an address in one of the first `OBJECTS_COUNT` cells of an existing node. -/
structure InHeap (a : Word) : Prop where
  untagged : Unlocked a
  node_lt : nodeFromAddress a < g.nodes
  ge : (g.objectsAddr (nodeFromAddress a)).toNat ≤ (addrFromAddress a).toNat
  lt : (addrFromAddress a).toNat <
    (g.objectsAddr (nodeFromAddress a)).toNat + OBJECTS_COUNT * cellSize

/-- `b` is the base of one of the first `OBJECTS_COUNT` cells of an existing node. -/
structure IsCell (b : Word) : Prop extends g.InHeap b where
  aligned : b.toNat % cellSize = 0

variable {g}

/-- The number of a cell, `obj_num` of `getObjectLockAddr`. -/
def cellIndex (g : Segments) (a : Word) : ℕ :=
  ((addrFromAddress a).toNat - (g.objectsAddr (nodeFromAddress a)).toNat) / cellSize

/-- A byte of the heap is in one of the first `OBJECTS_COUNT` cells. -/
theorem InHeap.cellIndex_lt {a : Word} (h : g.InHeap a) : g.cellIndex a < OBJECTS_COUNT := by
  have h1 := h.ge
  have h2 := h.lt
  simp only [cellIndex, cellSize_eq, OBJECTS_COUNT_eq] at *
  omega

/-- Base and address lie in the same cell of the same node. -/
theorem InHeap.blockLb_isCell {a : Word} (h : g.InHeap a) :
    g.IsCell (blockLb a) ∧ nodeFromAddress (blockLb a) = nodeFromAddress a := by
  have hb := blockLb_toNat a
  have hn : nodeFromAddress (blockLb a) = nodeFromAddress a := by
    rw [nodeFromAddress_eq, nodeFromAddress_eq, hb]; omega
  have h0 := h.untagged
  have h1 := h.ge
  have h2 := h.lt
  have ho := g.objectsAddr_toNat (nodeFromAddress a)
  have hal := g.page_aligned (nodeFromAddress a)
  simp only [Unlocked, addrFromAddress_toNat, OBJECTS_COUNT_eq, cellSize_eq,
    GASNET_PAGESIZE] at *
  refine ⟨⟨⟨?_, by rw [hn]; exact h.node_lt, ?_, ?_⟩, ?_⟩, hn⟩
  · unfold Unlocked; omega
  · rw [hn, addrFromAddress_toNat]; omega
  · rw [hn, addrFromAddress_toNat, cellSize_eq, OBJECTS_COUNT_eq]; omega
  · rw [hb, cellSize_eq]; omega

/-- The local address of the lock word: the `cellIndex`-th word of the lock table. -/
theorem InHeap.getObjectLockAddrAt_toNat {a : Word} (h : g.InHeap a) :
    (g.getObjectLockAddrAt a (nodeFromAddress a)).toNat =
      (g.addr (nodeFromAddress a)).toNat + 8 * g.cellIndex a := by
  have hi := h.cellIndex_lt
  have h1 := h.ge
  have hr := g.in_range (nodeFromAddress a)
  rw [OBJECTS_COUNT_eq] at hi
  rw [segmentSize_eq] at hr
  have h2 : ((addrFromAddress a - g.objectsAddr (nodeFromAddress a)) >>> CDU_SIZE).toNat =
      g.cellIndex a := by
    rw [BitVec.toNat_ushiftRight, Nat.shiftRight_eq_div_pow, BitVec.toNat_sub_of_le h1, cellIndex]
    rfl
  rw [getObjectLockAddrAt, BitVec.toNat_add, BitVec.toNat_mul, h2, locksAddr_eq,
    show (8 : Word).toNat = 8 from rfl]
  omega

/-- The tagged lock address is the local one with the node's tag. -/
theorem getObjectLockAddr_eq (a : Word) : g.getObjectLockAddr a =
    g.getObjectLockAddrAt a (nodeFromAddress a) |||
      toNodeTs (BitVec.ofNat 64 (nodeFromAddress a)) := rfl

/-- The lock word of a byte of the heap is the one with the number of its cell. -/
theorem InHeap.getObjectLockAddr_toNat {a : Word} (h : g.InHeap a) :
    (g.getObjectLockAddr a).toNat = nodeFromAddress a * 2 ^ 48 +
      ((g.addr (nodeFromAddress a)).toNat + 8 * g.cellIndex a) := by
  have hi := h.cellIndex_lt
  have hr := g.in_range (nodeFromAddress a)
  have hlk := h.getObjectLockAddrAt_toNat
  have hn := nodeFromAddress_lt a
  have hlt : (g.getObjectLockAddrAt a (nodeFromAddress a)).toNat < 2 ^ 48 := by
    simp only [OBJECTS_COUNT_eq, segmentSize_eq] at *
    omega
  have hv := newVersion_toNat (nodeFromAddress a) hlt
  rw [newVersion, BitVec.or_comm] at hv
  rw [getObjectLockAddr_eq, hv, hlk, Nat.mod_eq_of_lt hn]

/-- A lock address names the node of its cell. -/
theorem InHeap.nodeFromAddress_lockAddr {a : Word} (h : g.InHeap a) :
    nodeFromAddress (g.getObjectLockAddr a) = nodeFromAddress a := by
  have hi := h.cellIndex_lt
  have hr := g.in_range (nodeFromAddress a)
  have hn := nodeFromAddress_lt a
  rw [nodeFromAddress_eq (g.getObjectLockAddr a), h.getObjectLockAddr_toNat]
  simp only [OBJECTS_COUNT_eq, segmentSize_eq] at *
  omega

/-- Requester and home node compute the same local lock address. -/
theorem InHeap.addrFromAddress_lockAddr {a : Word} (h : g.InHeap a) :
    addrFromAddress (g.getObjectLockAddr a) = g.getObjectLockAddrAt a (nodeFromAddress a) := by
  have hi := h.cellIndex_lt
  have hr := g.in_range (nodeFromAddress a)
  apply BitVec.eq_of_toNat_eq
  rw [addrFromAddress_toNat, h.getObjectLockAddr_toNat, h.getObjectLockAddrAt_toNat]
  simp only [OBJECTS_COUNT_eq, segmentSize_eq] at *
  omega

/-! ## Lock locations -/

/-- A location in the shared memory: a node and a local address on it. -/
abbrev Loc := ℕ × Word

/-- Where the lock word of the cell of `a` lies, as the transactions compute it. -/
def lockLoc (g : Segments) (a : Word) : Loc :=
  (nodeFromAddress a, addrFromAddress (g.getObjectLockAddr a))

/-- The lock address read back by `getVersion` is the location of the lock word. -/
theorem InHeap.lockLoc_eq {a : Word} (h : g.InHeap a) :
    (nodeFromAddress (g.getObjectLockAddr a), addrFromAddress (g.getObjectLockAddr a)) =
      g.lockLoc a := by
  rw [lockLoc, h.nodeFromAddress_lockAddr]

/-- The home node finds the lock word of a cell from the untagged address. -/
theorem InHeap.lockLoc_home {a : Word} (h : g.InHeap a) :
    (nodeFromAddress a, g.getObjectLockAddrAt (addrFromAddress a) (nodeFromAddress a)) =
      g.lockLoc a := by
  have hl : addrFromAddress (addrFromAddress a) = addrFromAddress a := by
    apply BitVec.eq_of_toNat_eq
    rw [addrFromAddress_toNat, addrFromAddress_toNat, Nat.mod_mod]
  rw [lockLoc, h.addrFromAddress_lockAddr, getObjectLockAddrAt, getObjectLockAddrAt, hl]

/-- Every address of a cell has the lock word of the cell's base. -/
theorem InHeap.lockLoc_blockLb {a : Word} (h : g.InHeap a) :
    g.lockLoc (blockLb a) = g.lockLoc a := by
  obtain ⟨hc, hn⟩ := h.blockLb_isCell
  have hb := blockLb_toNat a
  have h1 := h.ge
  have hal := g.page_aligned (nodeFromAddress a)
  have ho := g.objectsAddr_toNat (nodeFromAddress a)
  have hidx : g.cellIndex (blockLb a) = g.cellIndex a := by
    simp only [cellIndex, hn, addrFromAddress_toNat, cellSize_eq, OBJECTS_COUNT_eq,
      GASNET_PAGESIZE] at *
    omega
  have h3 := hc.toInHeap.getObjectLockAddrAt_toNat
  have h4 := h.getObjectLockAddrAt_toNat
  rw [hn, hidx, ← h4] at h3
  rw [lockLoc, lockLoc, hn, hc.toInHeap.addrFromAddress_lockAddr, h.addrFromAddress_lockAddr, hn,
    BitVec.eq_of_toNat_eq h3]

/-- Different cells have different lock words. -/
theorem lockLoc_inj {b b' : Word} (hb : g.IsCell b) (hb' : g.IsCell b')
    (h : g.lockLoc b = g.lockLoc b') : b = b' := by
  obtain ⟨hn, hl⟩ := Prod.mk.inj h
  have h1 := hb.toInHeap.addrFromAddress_lockAddr
  have h2 := hb'.toInHeap.addrFromAddress_lockAddr
  have h3 := hb.toInHeap.getObjectLockAddrAt_toNat
  have h4 := hb'.toInHeap.getObjectLockAddrAt_toNat
  rw [← h1, hl, h2, h4, ← hn] at h3
  refine address_ext hb.untagged hb'.untagged hn (BitVec.eq_of_toNat_eq ?_)
  have ho := g.objectsAddr_toNat (nodeFromAddress b)
  have hal := g.page_aligned (nodeFromAddress b)
  have g1 := hb.ge
  have g2 := hb'.ge
  have a1 := hb.aligned
  have a2 := hb'.aligned
  simp only [cellIndex, ← hn, addrFromAddress_toNat, cellSize_eq, OBJECTS_COUNT_eq,
    GASNET_PAGESIZE] at *
  omega

/-! ## Bytes of cells -/

/-- Where byte `i` of the cell with base `b` lies. -/
def cellLoc (b : Word) (i : ℕ) : Loc :=
  (nodeFromAddress b, addrFromAddress b + BitVec.ofNat 64 i)

/-- The bytes of a cell follow each other. -/
theorem cellLoc_toNat {b : Word} {i : ℕ} (hi : i < cellSize) :
    (cellLoc b i).2.toNat = b.toNat % 2 ^ 48 + i := by
  rw [cellSize_eq] at hi
  rw [cellLoc, BitVec.toNat_add, addrFromAddress_toNat, BitVec.toNat_ofNat]
  omega

/-- The bytes of the cells are pairwise different. -/
theorem cellLoc_inj {b b' : Word} {i i' : ℕ} (hb : g.IsCell b) (hb' : g.IsCell b')
    (hi : i < cellSize) (hi' : i' < cellSize) (h : cellLoc b i = cellLoc b' i') :
    b = b' ∧ i = i' := by
  have hn : nodeFromAddress b = nodeFromAddress b' := congrArg Prod.fst h
  have hl := congrArg (fun l : Loc => l.2.toNat) h
  simp only [cellLoc_toNat hi, cellLoc_toNat hi'] at hl
  have a1 := hb.aligned
  have a2 := hb'.aligned
  rw [cellSize_eq] at *
  refine ⟨address_ext hb.untagged hb'.untagged hn (BitVec.eq_of_toNat_eq ?_), by omega⟩
  rw [addrFromAddress_toNat, addrFromAddress_toNat]
  omega

end Segments

end DstmP1
