import DstmP1.MemMgr
import Mathlib.Data.Set.Function

/-!
# The lock map

`GASNetMemoryManager::init` works out two tables from the segments of the nodes, where the lock
words of each start and where its objects do, and `getObjectLockAddr` finds the lock word of an
address from them. What one cell is to the transactions comes from aligning whole addresses, tag
included, and what one lock word is to the memory manager from dividing an offset without the tag.
The map is one to one between the two (`lockMap`), for any number of nodes and segments that lie
anywhere in the address space. For the segments of the transactions it is the map of
`Segments.getObjectLockAddr` (`Segments.getObjectLockAddr_init`).
-/

namespace DstmP1

/-! ## The tables -/

/-- `gasnet_seginfo_t`: a page-aligned range of memory, which does not wrap around. -/
structure Segment where
  addr : Word
  page_aligned : addr.toNat % GASNET_PAGESIZE = 0
  inside : addr.toNat + segmentSize ≤ 2 ^ 64

/-- `GASNetMemoryManager`. -/
structure MemoryManager where
  locksAddr : List Word
  objectsAddr : List Word

namespace MemoryManager

/-- What the loop of `init` adds to `locks_addr`. -/
def locks (segAddr : Word) : Word := (segAddr >>> 8) <<< 8

/-- What it adds to `objects_addr`. -/
def objects (segAddr : Word) : Word :=
  let addr := locks segAddr + BitVec.ofNat 64 (OBJECTS_COUNT * 8)
  let al := addr >>> CDU_SIZE
  (al + 1) <<< CDU_SIZE

/-- The loop of `init` for one node. -/
def push (m : MemoryManager) (seg : Segment) : MemoryManager where
  locksAddr := m.locksAddr ++ [locks seg.addr]
  objectsAddr := m.objectsAddr ++ [objects seg.addr]

/-- `GASNetMemoryManager::init`, which also clears the lock words of its own node. -/
def init (segs : List Segment) : MemoryManager := segs.foldl push ⟨[], []⟩

/-- `getObjectLockAddr(addr, node)` -/
def getObjectLockAddrAt (m : MemoryManager) (addr : Word) (node : ℕ) : Option Word := do
  let objects ← m.objectsAddr[node]?
  let locks ← m.locksAddr[node]?
  let objNum := (addrFromAddress addr - objects) >>> CDU_SIZE
  return locks + objNum * 8

/-- `getObjectLockAddr(addr)` -/
def getObjectLockAddr (m : MemoryManager) (addr : Word) : Option Word := do
  let node := nodeFromAddress addr
  let objects ← m.objectsAddr[node]?
  let locks ← m.locksAddr[node]?
  let objNum := (addrFromAddress addr - objects) >>> CDU_SIZE
  return (locks + objNum * 8) ||| toNodeTs (BitVec.ofNat 64 node)

/-! ## What is claimed -/

variable (segs : List Segment) (n : ℕ)

/-- `a` is tagged with `n`, and its local part is at or above `objects_addr[n]`. -/
structure IsObject (a : Word) : Prop where
  untagged : Unlocked a
  node : nodeFromAddress a = n
  above : ∃ o, (init segs).objectsAddr[n]? = some o ∧ o ≤ addrFromAddress a

/-- `lock` is the lock word of `a`: on the node of `a`, aligned, and found from the address, from
the base of its block, and on the home node from either without the tag. -/
structure IsLockOf (a lock : Word) : Prop where
  node : nodeFromAddress lock = n
  aligned : lock.toNat % 8 = 0
  address : (init segs).getObjectLockAddr a = some lock
  base : (init segs).getObjectLockAddr (blockLb a) = some lock
  home : (init segs).getObjectLockAddrAt (addrFromAddress a) n = some (addrFromAddress lock)
  homeBase : (init segs).getObjectLockAddrAt (addrFromAddress (blockLb a)) n =
    some (addrFromAddress lock)

/-- The bases of the cells of node `n`. -/
def cells : Set Word := {b | IsObject segs n b ∧ blockLb b = b}

/-- The lock words of node `n`, for as many cells as have addresses. -/
def lockWords : Set Word := {lock | ∃ seg i, segs[n]? = some seg ∧ n < 2 ^ 15 ∧
  (objects seg.addr).toNat + i * cellSize < 2 ^ 48 ∧
  lock.toNat = n * 2 ^ 48 + (seg.addr.toNat + i * 8)}

/-! ## What the tables hold -/

variable {segs n} {seg : Segment} {a b : Word}

/-- The loop adds one entry for each node. -/
theorem foldl_push (segs : List Segment) (m : MemoryManager) : segs.foldl push m =
    ⟨m.locksAddr ++ segs.map fun seg => locks seg.addr,
      m.objectsAddr ++ segs.map fun seg => objects seg.addr⟩ := by
  induction segs generalizing m with
  | nil => rw [List.foldl_nil, List.map_nil, List.map_nil, List.append_nil, List.append_nil]
  | cons seg segs ih =>
    rw [List.foldl_cons, ih, push, List.map_cons, List.map_cons, List.append_assoc,
      List.append_assoc]
    rfl

theorem locksAddr_init (segs : List Segment) (n : ℕ) :
    (init segs).locksAddr[n]? = (segs[n]?).map fun seg => locks seg.addr := by
  rw [init, foldl_push]
  exact List.getElem?_map

theorem objectsAddr_init (segs : List Segment) (n : ℕ) :
    (init segs).objectsAddr[n]? = (segs[n]?).map fun seg => objects seg.addr := by
  rw [init, foldl_push]
  exact List.getElem?_map

/-- The lock words start with the segment. -/
theorem locks_toNat (seg : Segment) : (locks seg.addr).toNat = seg.addr.toNat := by
  have h := seg.page_aligned
  have hlt := seg.addr.isLt
  rw [locks, BitVec.toNat_shiftLeft, BitVec.toNat_ushiftRight, Nat.shiftRight_eq_div_pow,
    Nat.shiftLeft_eq]
  unfold GASNET_PAGESIZE at h
  omega

/-- The objects start one cell after the lock words. -/
theorem objects_toNat (seg : Segment) :
    (objects seg.addr).toNat = seg.addr.toNat + OBJECTS_COUNT * 8 + cellSize := by
  have h := seg.page_aligned
  have hr := seg.inside
  rw [segmentSize_eq] at hr
  unfold GASNET_PAGESIZE at h
  have h1 : (locks seg.addr + BitVec.ofNat 64 (OBJECTS_COUNT * 8)).toNat =
      seg.addr.toNat + 2097152 := by
    rw [BitVec.toNat_add, locks_toNat, show (BitVec.ofNat 64 (OBJECTS_COUNT * 8)).toNat = 2097152
      by decide]
    omega
  have h2 : ((locks seg.addr + BitVec.ofNat 64 (OBJECTS_COUNT * 8)) >>> CDU_SIZE + 1).toNat =
      (seg.addr.toNat + 2097152) / 64 + 1 := by
    rw [BitVec.toNat_add, BitVec.toNat_ushiftRight, Nat.shiftRight_eq_div_pow, h1,
      show (1 : Word).toNat = 1 from rfl, show 2 ^ CDU_SIZE = 64 by decide]
    omega
  rw [objects, BitVec.toNat_shiftLeft, h2, Nat.shiftLeft_eq, OBJECTS_COUNT_eq, cellSize_eq,
    show 2 ^ CDU_SIZE = 64 by decide]
  omega

/-! ## The address of a lock word -/

/-- The number of the cell of `a`, `obj_num`. -/
def objNum (seg : Segment) (a : Word) : ℕ :=
  ((addrFromAddress a).toNat - (objects seg.addr).toNat) / cellSize

/-- `a` is at or above the objects of `seg`, the segment of node `n`. -/
structure AtSegment (segs : List Segment) (n : ℕ) (seg : Segment) (a : Word) : Prop where
  get : segs[n]? = some seg
  above : (objects seg.addr).toNat ≤ (addrFromAddress a).toNat

theorem IsObject.atSegment (h : IsObject segs n a) : ∃ seg, AtSegment segs n seg a := by
  obtain ⟨o, ho, hle⟩ := h.above
  rw [objectsAddr_init] at ho
  obtain ⟨seg, hseg, rfl⟩ := Option.map_eq_some_iff.1 ho
  exact ⟨seg, hseg, hle⟩

namespace AtSegment

/-- The lock word is below the object, and so an address of 48 bits. -/
theorem lock_lt (h : AtSegment segs n seg a) : seg.addr.toNat + objNum seg a * 8 < 2 ^ 48 := by
  have habove := h.above
  have hobjects := objects_toNat seg
  have hlt : (addrFromAddress a).toNat < 2 ^ 48 := by
    rw [addrFromAddress_toNat]
    exact Nat.mod_lt _ (by decide)
  simp only [objNum, OBJECTS_COUNT_eq, cellSize_eq] at *
  omega

/-- On its node the lock word is the entry of the cell in the table. -/
theorem getObjectLockAddrAt (h : AtSegment segs n seg a) : ∃ lock,
    (init segs).getObjectLockAddrAt a n = some lock ∧
      lock.toNat = seg.addr.toNat + objNum seg a * 8 := by
  have hlt := h.lock_lt
  have hnum : ((addrFromAddress a - objects seg.addr) >>> CDU_SIZE).toNat = objNum seg a := by
    rw [BitVec.toNat_ushiftRight, Nat.shiftRight_eq_div_pow, BitVec.toNat_sub_of_le h.above, objNum]
    rfl
  rw [MemoryManager.getObjectLockAddrAt, objectsAddr_init, locksAddr_init, h.get]
  refine ⟨_, rfl, ?_⟩
  rw [BitVec.toNat_add, BitVec.toNat_mul, hnum, locks_toNat, show (8 : Word).toNat = 8 from rfl]
  omega

/-- For the others it carries the tag of the node. -/
theorem getObjectLockAddr (h : AtSegment segs n seg a) (hn : nodeFromAddress a = n) : ∃ lock,
    (init segs).getObjectLockAddr a = some lock ∧
      lock.toNat = n * 2 ^ 48 + (seg.addr.toNat + objNum seg a * 8) := by
  obtain ⟨lock, hlock, hval⟩ := h.getObjectLockAddrAt
  have hlt : lock.toNat < 2 ^ 48 := hval ▸ h.lock_lt
  refine ⟨lock ||| toNodeTs (BitVec.ofNat 64 n), ?_, ?_⟩
  · rw [MemoryManager.getObjectLockAddrAt, objectsAddr_init, locksAddr_init, h.get] at hlock
    rw [MemoryManager.getObjectLockAddr, hn, objectsAddr_init, locksAddr_init, h.get]
    exact congrArg _ (congrArg (· ||| toNodeTs (BitVec.ofNat 64 n)) (Option.some.inj hlock))
  · have hv := newVersion_toNat n hlt
    rw [newVersion, BitVec.or_comm, Nat.mod_eq_of_lt (hn ▸ nodeFromAddress_lt a)] at hv
    rw [hv, hval]

/-- All addresses of a block have the same entry. -/
theorem of_block (h : AtSegment segs n seg a)
    (hb : (addrFromAddress b).toNat / cellSize = (addrFromAddress a).toNat / cellSize) :
    AtSegment segs n seg b ∧ objNum seg b = objNum seg a := by
  have habove := h.above
  have hobjects := objects_toNat seg
  have hpage := seg.page_aligned
  simp only [objNum, OBJECTS_COUNT_eq, cellSize_eq, GASNET_PAGESIZE] at *
  exact ⟨⟨h.get, by omega⟩, by omega⟩

end AtSegment

/-- Dropping the tag does not change the local part. -/
theorem addrFromAddress_idem (a : Word) :
    addrFromAddress (addrFromAddress a) = addrFromAddress a := by
  apply BitVec.eq_of_toNat_eq
  rw [addrFromAddress_toNat, addrFromAddress_toNat, Nat.mod_mod]

/-- The base of a block lies in the block. -/
theorem addrFromAddress_blockLb (a : Word) :
    (addrFromAddress (blockLb a)).toNat / cellSize = (addrFromAddress a).toNat / cellSize := by
  rw [addrFromAddress_toNat, addrFromAddress_toNat, blockLb_toNat, cellSize_eq]
  omega

theorem nodeFromAddress_blockLb (a : Word) : nodeFromAddress (blockLb a) = nodeFromAddress a := by
  rw [nodeFromAddress_eq, nodeFromAddress_eq, blockLb_toNat]
  omega

/-- The home node finds the lock word of every address of the block. -/
theorem AtSegment.home {lock : Word} (h : AtSegment segs n seg a)
    (hval : lock.toNat = n * 2 ^ 48 + (seg.addr.toNat + objNum seg a * 8))
    (hb : (addrFromAddress b).toNat / cellSize = (addrFromAddress a).toNat / cellSize) :
    (init segs).getObjectLockAddrAt (addrFromAddress b) n = some (addrFromAddress lock) := by
  have hlt := h.lock_lt
  obtain ⟨hseg, hnum⟩ := h.of_block (b := addrFromAddress b) (by rwa [addrFromAddress_idem])
  obtain ⟨lock', hlock', hval'⟩ := hseg.getObjectLockAddrAt
  rw [hlock']
  refine congrArg some (BitVec.eq_of_toNat_eq ?_)
  rw [addrFromAddress_toNat, hval, hval', hnum]
  omega

/-- Every object has its lock word. -/
theorem IsObject.exists_lock (h : IsObject segs n a) : ∃ lock, IsLockOf segs n a lock := by
  obtain ⟨seg, hseg⟩ := h.atSegment
  have hn : n < 2 ^ 15 := h.node ▸ nodeFromAddress_lt a
  have hlt := hseg.lock_lt
  obtain ⟨lock, hlock, hval⟩ := hseg.getObjectLockAddr h.node
  have hbase := addrFromAddress_blockLb a
  obtain ⟨hseg', hnum⟩ := hseg.of_block hbase
  obtain ⟨lock', hlock', hval'⟩ :=
    hseg'.getObjectLockAddr ((nodeFromAddress_blockLb a).trans h.node)
  have heq : lock' = lock := BitVec.eq_of_toNat_eq (by rw [hval, hval', hnum])
  have hpage := seg.page_aligned
  refine ⟨lock, ?_, ?_, hlock, heq ▸ hlock', hseg.home hval rfl, hseg.home hval hbase⟩
  · rw [nodeFromAddress_eq, hval]
    omega
  · rw [hval]
    unfold GASNET_PAGESIZE at hpage
    omega

/-- Addresses of one node have the same lock word exactly when they lie in the same block. -/
theorem IsObject.blockLb_eq_iff (ha : IsObject segs n a) (hb : IsObject segs n b) :
    blockLb a = blockLb b ↔
      (init segs).getObjectLockAddr a = (init segs).getObjectLockAddr b := by
  obtain ⟨seg, hsega⟩ := ha.atSegment
  obtain ⟨seg', hsegb⟩ := hb.atSegment
  obtain rfl : seg = seg' := Option.some.inj (hsega.get.symm.trans hsegb.get)
  obtain ⟨lock, hlock, hval⟩ := hsega.getObjectLockAddr ha.node
  obtain ⟨lock', hlock', hval'⟩ := hsegb.getObjectLockAddr hb.node
  have hobjects := objects_toNat seg
  have hpage := seg.page_aligned
  have ha0 := ha.untagged
  have hb0 := hb.untagged
  have han := ha.node
  have hbn := hb.node
  have ha1 := hsega.above
  have hb1 := hsegb.above
  rw [hlock, hlock', Option.some_inj, ← BitVec.toNat_inj, ← BitVec.toNat_inj, hval, hval',
    blockLb_toNat, blockLb_toNat]
  simp only [objNum, OBJECTS_COUNT_eq, cellSize_eq, GASNET_PAGESIZE, Unlocked,
    nodeFromAddress_eq, addrFromAddress_toNat] at *
  omega

/-- A cell base is found for every lock word. -/
theorem exists_cell {lock : Word} (h : lock ∈ lockWords segs n) :
    ∃ b ∈ cells segs n, (init segs).getObjectLockAddr b = some lock := by
  obtain ⟨seg, i, hseg, hn, hi, hlock⟩ := h
  have hobjects := objects_toNat seg
  have hpage := seg.page_aligned
  rw [cellSize_eq] at hi
  have hb : (BitVec.ofNat 64 (n * 2 ^ 48 + ((objects seg.addr).toNat + i * 64))).toNat =
      n * 2 ^ 48 + ((objects seg.addr).toNat + i * 64) := by
    rw [BitVec.toNat_ofNat]
    exact Nat.mod_eq_of_lt (by omega)
  generalize BitVec.ofNat 64 (n * 2 ^ 48 + ((objects seg.addr).toNat + i * 64)) = b at hb
  have hnode : nodeFromAddress b = n := by
    rw [nodeFromAddress_eq, hb]
    omega
  have hlocal : (addrFromAddress b).toNat = (objects seg.addr).toNat + i * 64 := by
    rw [addrFromAddress_toNat, hb]
    omega
  have habove : (objects seg.addr).toNat ≤ (addrFromAddress b).toNat :=
    hlocal ▸ Nat.le_add_right _ _
  have hat : AtSegment segs n seg b := ⟨hseg, habove⟩
  have hnum : objNum seg b = i := by
    rw [objNum, hlocal, Nat.add_sub_cancel_left, cellSize_eq, Nat.mul_div_cancel _ (by omega)]
  obtain ⟨lock', hlock', hval⟩ := hat.getObjectLockAddr hnode
  refine ⟨b, ⟨⟨?_, hnode, _, ?_, habove⟩, BitVec.eq_of_toNat_eq ?_⟩, ?_⟩
  · rw [Unlocked, hb]
    omega
  · rw [objectsAddr_init, hseg, Option.map_some]
  · unfold GASNET_PAGESIZE at hpage
    rw [OBJECTS_COUNT_eq, cellSize_eq] at hobjects
    rw [blockLb_toNat, hb]
    omega
  · rw [hlock']
    exact congrArg some (BitVec.eq_of_toNat_eq (by rw [hval, hlock, hnum]))

/-- **The map is a bijection between the cells and the lock words of a node.** -/
theorem getObjectLockAddr_bijOn (segs : List Segment) (n : ℕ) :
    Set.BijOn (init segs).getObjectLockAddr (cells segs n) (some '' lockWords segs n) := by
  refine ⟨?_, ?_, ?_⟩
  · rintro b ⟨hb, -⟩
    obtain ⟨seg, hseg⟩ := hb.atSegment
    obtain ⟨lock, hlock, hval⟩ := hseg.getObjectLockAddr hb.node
    refine ⟨lock, ⟨seg, objNum seg b, hseg.get, hb.node ▸ nodeFromAddress_lt b, ?_, hval⟩,
      hlock.symm⟩
    have hlt : (addrFromAddress b).toNat < 2 ^ 48 := by
      rw [addrFromAddress_toNat]
      exact Nat.mod_lt _ (by decide)
    have hle : objNum seg b * cellSize ≤ (addrFromAddress b).toNat - (objects seg.addr).toNat :=
      Nat.div_mul_le_self _ _
    have habove := hseg.above
    omega
  · rintro b ⟨hb, hbase⟩ b' ⟨hb', hbase'⟩ he
    rw [← hbase, ← hbase']
    exact (hb.blockLb_eq_iff hb').2 he
  · rintro _ ⟨lock, hlock, rfl⟩
    obtain ⟨b, hb, he⟩ := exists_cell hlock
    exact ⟨b, hb, he⟩

end MemoryManager

/-! ## Segments of the transactions -/

namespace Segments

variable {g : Segments}

/-- `gasnet_seginfo_t` of a node. -/
def segment (g : Segments) (n : ℕ) : Segment where
  addr := g.addr n
  page_aligned := g.page_aligned n
  inside := (g.in_range n).trans (Nat.pow_le_pow_right Nat.two_pos (by omega))

/-- `init` gets the segments of all nodes. -/
def infos (g : Segments) : List Segment := (List.range g.nodes).map g.segment

theorem getElem?_infos {n : ℕ} (hn : n < g.nodes) : g.infos[n]? = some (g.segment n) := by
  rw [infos, List.getElem?_map, List.getElem?_range hn, Option.map_some]

/-- The transactions use the map of the tables. -/
theorem getObjectLockAddr_init {a : Word} (hn : nodeFromAddress a < g.nodes) :
    (MemoryManager.init g.infos).getObjectLockAddr a = some (g.getObjectLockAddr a) := by
  rw [MemoryManager.getObjectLockAddr, MemoryManager.objectsAddr_init,
    MemoryManager.locksAddr_init, getElem?_infos hn]
  rfl

theorem getObjectLockAddrAt_init {a : Word} {n : ℕ} (hn : n < g.nodes) :
    (MemoryManager.init g.infos).getObjectLockAddrAt a n = some (g.getObjectLockAddrAt a n) := by
  rw [MemoryManager.getObjectLockAddrAt, MemoryManager.objectsAddr_init,
    MemoryManager.locksAddr_init, getElem?_infos hn]
  rfl

end Segments

/-! ## Main result -/

section
open MemoryManager

/-- **One lock word for each block.** For any segments, two objects of a node lie in one block
exactly when they have the same lock word, every object has its lock word (`IsLockOf`), the map is
a bijection between the cells and the lock words of a node, and objects of different nodes have
different lock words. -/
theorem lockMap (segs : List Segment) :
    (∀ n a b, IsObject segs n a → IsObject segs n b →
      (blockLb a = blockLb b ↔
        (init segs).getObjectLockAddr a = (init segs).getObjectLockAddr b)) ∧
    (∀ n a, IsObject segs n a → ∃ lock, IsLockOf segs n a lock) ∧
    (∀ n, Set.BijOn (init segs).getObjectLockAddr (cells segs n) (some '' lockWords segs n)) ∧
    ∀ n n' a b, n ≠ n' → IsObject segs n a → IsObject segs n' b →
      (init segs).getObjectLockAddr a ≠ (init segs).getObjectLockAddr b := by
  refine ⟨fun n a b ha hb => ha.blockLb_eq_iff hb, fun n a ha => ha.exists_lock,
    getObjectLockAddr_bijOn segs, ?_⟩
  intro n n' a b hne ha hb he
  obtain ⟨lock, hlock⟩ := ha.exists_lock
  obtain ⟨lock', hlock'⟩ := hb.exists_lock
  rw [hlock.address, hlock'.address, Option.some_inj] at he
  rw [← hlock.node, ← hlock'.node, he] at hne
  exact hne rfl

/-- The segments of two nodes. -/
def twoSegments : List Segment :=
  [⟨0x10000000, by decide, by decide⟩, ⟨0x7f0000000000, by decide, by decide⟩]

/-- Two addresses in the first cell of node 1, and one in the first cell of node 0. -/
theorem lockMap_two :
    (init twoSegments).getObjectLockAddr 0x17f0000200045 =
      (init twoSegments).getObjectLockAddr 0x17f0000200078 ∧
    (init twoSegments).getObjectLockAddr 0x17f0000200045 ≠
      (init twoSegments).getObjectLockAddr 0x10200045 := by
  have h1 : IsObject twoSegments 1 0x17f0000200045 :=
    ⟨by decide, by decide, _, rfl, by decide⟩
  have h2 : IsObject twoSegments 1 0x17f0000200078 :=
    ⟨by decide, by decide, _, rfl, by decide⟩
  have h3 : IsObject twoSegments 0 0x10200045 := ⟨by decide, by decide, _, rfl, by decide⟩
  obtain ⟨hiff, -, -, hne⟩ := lockMap twoSegments
  exact ⟨(hiff 1 _ _ h1 h2).1 (by decide), hne 1 0 _ _ (by decide) h1 h3⟩

end

end DstmP1
