import DstmP1.MemMgr

/-!
# The node allocator and the lock table

`dstm_malloc` (`dstm_malloc.cpp`) hands out consecutive ranges of 8-byte units from the start of
a node's object area: `ALL_UNITS`, an `int`, is the number of units handed out so far, and
nothing compares it with the size of the lock table or of the segment.

`LocksSafe` is what the transactions need of the blocks a node has handed out: every byte that
lies in the segment has its lock word inside the lock table of the node, bytes of different cells
have different lock words, and no lock word shares a byte with a cell. `Fits` is the condition on
the node and the requested sizes under which this holds: the number of the node fits the 15 bits
that a pointer has for it, and every block ends within the `OBJECTS_COUNT` cells that the table has
words for, 16 MiB of the 1 GiB segment.
-/

namespace DstmP1

/-! ## The allocator -/

/-- The number of units `dstm_malloc` takes for `size` bytes. `units` is an `int`: the shifted
size is cut to 32 bits, and `units << MAU_SIZE` is widened again for the comparison. -/
def dstmUnits (size : Word) : BitVec 32 :=
  let units := (size >>> MAU_SIZE).truncate 32
  if (units <<< MAU_SIZE).signExtend 64 < size then (size >>> MAU_SIZE + 1).truncate 32 else units

/-- `dstm_malloc(size, UINT_MAX)` on `node` with the object area at `lowBound` and `allUnits`
units handed out so far: the pointer, `none` for `NULL`, and the new `ALL_UNITS`. -/
def dstmMalloc (lowBound : Word) (node : ℕ) (allUnits : BitVec 32) (size : Word) :
    Option Word × BitVec 32 :=
  let offset := allUnits
  let allUnits' := allUnits + dstmUnits size
  if offset = -1 then (none, allUnits')
  else (some ((lowBound + (offset * (1 <<< MAU_SIZE)).signExtend 64) |||
    toNodeTs (BitVec.ofNat 64 node)), allUnits')

/-- A block handed out: what `dstm_malloc` returned and the size it was asked for. -/
structure Block where
  ptr : Word
  size : Word
deriving DecidableEq

/-- `a` is the address of a byte of the block. -/
def Block.HasByte (b : Block) (a : Word) : Prop := ∃ i < b.size.toNat, a = b.ptr + BitVec.ofNat 64 i

/-- The blocks a sequence of `dstm_malloc` calls on node `n` returns. -/
def dstmMallocs (g : Segments) (n : ℕ) : BitVec 32 → List Word → List Block
  | _, [] => []
  | allUnits, size :: sizes =>
    match dstmMalloc (g.objectsAddr n) n allUnits size with
    | (none, allUnits') => dstmMallocs g n allUnits' sizes
    | (some ptr, allUnits') => ⟨ptr, size⟩ :: dstmMallocs g n allUnits' sizes

/-! ## What the transactions need -/

/-- The local address of `a` lies in the segment of node `n`. -/
def InSegment (g : Segments) (n : ℕ) (a : Word) : Prop :=
  (g.addr n).toNat ≤ (addrFromAddress a).toNat ∧
    (addrFromAddress a).toNat < (g.addr n).toNat + segmentSize

/-- The lock word of `a` is one of node `n` and lies in
`[locks_addr[n], locks_addr[n] + OBJECTS_COUNT*8)`. -/
def LockInTable (g : Segments) (n : ℕ) (a : Word) : Prop :=
  (g.lockLoc a).1 = n ∧ (g.locksAddr n).toNat ≤ (g.lockLoc a).2.toNat ∧
    (g.lockLoc a).2.toNat + 8 ≤ (g.locksAddr n).toNat + OBJECTS_COUNT * 8

/-- `a` is a byte of one of the blocks and lies in the segment. -/
def Handed (g : Segments) (n : ℕ) (blocks : List Block) (a : Word) : Prop :=
  (∃ b ∈ blocks, b.HasByte a) ∧ InSegment g n a

/-- Every cell of the blocks has its own lock word, in the lock table and away from every cell:
no write of a lock word changes object data and no commit of a cell changes a lock word. -/
structure LocksSafe (g : Segments) (n : ℕ) (blocks : List Block) : Prop where
  inTable : ∀ a, Handed g n blocks a → LockInTable g n a
  own : ∀ a a', Handed g n blocks a → Handed g n blocks a' → g.lockLoc a = g.lockLoc a' →
    blockLb a = blockLb a'
  apart : ∀ a a', Handed g n blocks a → Handed g n blocks a' → ∀ i < 8, ∀ j < cellSize,
    (g.lockLoc a).2.toNat + i ≠ (Segments.cellLoc (blockLb a') j).2.toNat

/-- Every block that is not empty is on a node with a number of 15 bits and ends within the first
`OBJECTS_COUNT` cells, when `used` units are taken and the sizes are requested in order, each
rounded up to whole units. -/
def Fits (n : ℕ) : ℕ → List Word → Prop
  | _, [] => True
  | used, size :: sizes =>
    (size ≠ 0 → n < 2 ^ 15 ∧ 8 * used + size.toNat ≤ OBJECTS_COUNT * cellSize) ∧
      Fits n (used + (size.toNat + 7) / 8) sizes

instance decidableFits (n : ℕ) : ∀ (used : ℕ) (sizes : List Word), Decidable (Fits n used sizes)
  | _, [] => inferInstanceAs (Decidable True)
  | used, size :: sizes =>
    have := decidableFits n (used + (size.toNat + 7) / 8) sizes
    inferInstanceAs (Decidable (_ ∧ _))

/-! ## The allocator in the object area -/

/-- The bytes between `objects_addr` and the end of a segment. -/
def heapSize : ℕ := segmentSize - (OBJECTS_COUNT * 8 + cellSize)

theorem heapSize_eq : heapSize = 1071644608 := by decide

/-- The cells that the lock table has words for are the first bytes of the object area. -/
theorem cells_le_heapSize : OBJECTS_COUNT * cellSize ≤ heapSize := by decide

/-- A size that fits an `int` is rounded up to whole units. -/
theorem dstmUnits_toNat {size : Word} (h : size.toNat < 2 ^ 31) :
    (dstmUnits size).toNat = (size.toNat + 7) / 8 := by
  have h1 : ((size >>> MAU_SIZE).truncate 32).toNat = size.toNat / 8 := by
    rw [BitVec.truncate_eq_setWidth, BitVec.toNat_setWidth, BitVec.toNat_ushiftRight,
      Nat.shiftRight_eq_div_pow, show 2 ^ MAU_SIZE = 8 by decide]
    omega
  have h2 : (((size >>> MAU_SIZE).truncate 32) <<< MAU_SIZE).toNat = size.toNat / 8 * 8 := by
    rw [BitVec.toNat_shiftLeft, h1, Nat.shiftLeft_eq, show 2 ^ MAU_SIZE = 8 by decide]
    omega
  have h3 : ((((size >>> MAU_SIZE).truncate 32) <<< MAU_SIZE).signExtend 64).toNat =
      size.toNat / 8 * 8 := by
    rw [BitVec.signExtend_eq_setWidth_of_msb_false, BitVec.toNat_setWidth, h2]
    · omega
    · rw [BitVec.msb_eq_decide, h2, decide_eq_false_iff_not]; omega
  have h4 : ((size >>> MAU_SIZE + 1).truncate 32).toNat = size.toNat / 8 + 1 := by
    rw [BitVec.truncate_eq_setWidth, BitVec.toNat_setWidth, BitVec.toNat_add,
      BitVec.toNat_ushiftRight, Nat.shiftRight_eq_div_pow, show 2 ^ MAU_SIZE = 8 by decide,
      show (1 : Word).toNat = 1 from rfl]
    omega
  simp only [dstmUnits, BitVec.lt_def, h3]
  split
  · rw [h4]; omega
  · rw [h1]; omega

section
variable {g : Segments} {n : ℕ}

/-- Within the object area the allocator returns the next free unit and moves on. -/
theorem dstmMalloc_base {allUnits : BitVec 32} (size : Word)
    (hu : 8 * allUnits.toNat ≤ heapSize) :
    ∃ base : Word, dstmMalloc (g.objectsAddr n) n allUnits size =
        (some (base ||| toNodeTs (BitVec.ofNat 64 n)), allUnits + dstmUnits size) ∧
      base.toNat = (g.objectsAddr n).toNat + 8 * allUnits.toNat := by
  have ho := g.objectsAddr_toNat n
  have hr := g.in_range n
  rw [heapSize_eq] at hu
  simp only [OBJECTS_COUNT_eq, cellSize_eq, segmentSize_eq] at ho hr
  have hne : allUnits ≠ -1 := by
    intro h
    rw [h, show (-1 : BitVec 32).toNat = 4294967295 by decide] at hu
    omega
  have h1 : (allUnits * (1 <<< MAU_SIZE)).toNat = 8 * allUnits.toNat := by
    rw [BitVec.toNat_mul, show (1 <<< MAU_SIZE : BitVec 32).toNat = 8 by decide]
    omega
  have h2 : ((allUnits * (1 <<< MAU_SIZE)).signExtend 64).toNat = 8 * allUnits.toNat := by
    rw [BitVec.signExtend_eq_setWidth_of_msb_false, BitVec.toNat_setWidth, h1]
    · omega
    · rw [BitVec.msb_eq_decide, h1, decide_eq_false_iff_not]; omega
  refine ⟨_, by rw [dstmMalloc, if_neg hne], ?_⟩
  rw [BitVec.toNat_add, h2]
  omega

/-- The pointer is tagged with the node when it starts below `2 ^ 48`. -/
theorem dstmMalloc_eq {allUnits : BitVec 32} (size : Word)
    (hu : 8 * allUnits.toNat ≤ heapSize)
    (hlt : (g.objectsAddr n).toNat + 8 * allUnits.toNat < 2 ^ 48) :
    ∃ ptr, dstmMalloc (g.objectsAddr n) n allUnits size =
        (some ptr, allUnits + dstmUnits size) ∧
      ptr.toNat = n % 2 ^ 15 * 2 ^ 48 + ((g.objectsAddr n).toNat + 8 * allUnits.toNat) := by
  obtain ⟨base, heq, hbase⟩ := dstmMalloc_base (g := g) (n := n) size hu
  have h4 := @newVersion_toNat n base (by rw [hbase]; exact hlt)
  rw [newVersion, BitVec.or_comm] at h4
  exact ⟨_, heq, by rw [h4, hbase]⟩

/-- The first cells lie below `2 ^ 48`. -/
theorem cells_lt (g : Segments) (n : ℕ) {o : ℕ} (ho : o ≤ OBJECTS_COUNT * cellSize) :
    (g.objectsAddr n).toNat + o < 2 ^ 48 := by
  have h := g.objectsAddr_toNat n
  have hr := g.in_range n
  simp only [OBJECTS_COUNT_eq, cellSize_eq, segmentSize_eq] at *
  omega

/-- The byte at offset `o` of the object area, as a tagged address. -/
def heapByte (g : Segments) (n o : ℕ) : Word :=
  BitVec.ofNat 64 (n * 2 ^ 48 + ((g.objectsAddr n).toNat + o))

theorem heapByte_toNat (hn : n < 2 ^ 15) {o : ℕ} (ho : o ≤ OBJECTS_COUNT * cellSize) :
    (heapByte g n o).toNat = n * 2 ^ 48 + ((g.objectsAddr n).toNat + o) := by
  have h1 := g.objectsAddr_toNat n
  have hr := g.in_range n
  simp only [OBJECTS_COUNT_eq, cellSize_eq, segmentSize_eq] at *
  rw [heapByte, BitVec.toNat_ofNat]
  omega

theorem heapByte_node (hn : n < 2 ^ 15) {o : ℕ} (ho : o ≤ OBJECTS_COUNT * cellSize) :
    nodeFromAddress (heapByte g n o) = n := by
  have h1 := g.objectsAddr_toNat n
  have hr := g.in_range n
  rw [nodeFromAddress_eq, heapByte_toNat hn ho]
  simp only [OBJECTS_COUNT_eq, cellSize_eq, segmentSize_eq] at *
  omega

theorem heapByte_local (hn : n < 2 ^ 15) {o : ℕ} (ho : o ≤ OBJECTS_COUNT * cellSize) :
    (addrFromAddress (heapByte g n o)).toNat = (g.objectsAddr n).toNat + o := by
  have h1 := g.objectsAddr_toNat n
  have hr := g.in_range n
  rw [addrFromAddress_toNat, heapByte_toNat hn ho]
  simp only [OBJECTS_COUNT_eq, cellSize_eq, segmentSize_eq] at *
  omega

/-- The object area with the cells the table has words for lies in the segment, and so does the
byte right after it. -/
theorem heapByte_inSegment (hn : n < 2 ^ 15) {o : ℕ} (ho : o ≤ OBJECTS_COUNT * cellSize) :
    InSegment g n (heapByte g n o) := by
  have h1 := g.objectsAddr_toNat n
  have hl := heapByte_local (g := g) hn ho
  refine ⟨?_, ?_⟩ <;> rw [hl] <;>
    simp only [OBJECTS_COUNT_eq, cellSize_eq, segmentSize_eq] at * <;> omega

theorem heapByte_inHeap (hn : n < 2 ^ 15) (hg : n < g.nodes) {o : ℕ}
    (ho : o < OBJECTS_COUNT * cellSize) : g.InHeap (heapByte g n o) := by
  have h0 := heapByte_toNat (g := g) hn (o := o) (by omega)
  have h1 := g.objectsAddr_toNat n
  have hr := g.in_range n
  have hl := heapByte_local (g := g) hn (o := o) (by omega)
  have hnode := heapByte_node (g := g) hn (o := o) (by omega)
  refine ⟨?_, by rw [hnode]; exact hg, by rw [hnode, hl]; omega, by rw [hnode, hl]; omega⟩
  simp only [Unlocked, h0, OBJECTS_COUNT_eq, cellSize_eq, segmentSize_eq] at *
  omega

/-- The bytes of a block that starts `used` units into the object area. -/
theorem hasByte_heapByte (hn : n < 2 ^ 15) {ptr : Word} {used i : ℕ}
    (hp : ptr.toNat = n % 2 ^ 15 * 2 ^ 48 + ((g.objectsAddr n).toNat + 8 * used))
    (ho : 8 * used + i ≤ OBJECTS_COUNT * cellSize) :
    ptr + BitVec.ofNat 64 i = heapByte g n (8 * used + i) := by
  have h1 := heapByte_toNat (g := g) hn ho
  have h2 := g.objectsAddr_toNat n
  have hr := g.in_range n
  apply BitVec.eq_of_toNat_eq
  rw [BitVec.toNat_add, BitVec.toNat_ofNat, hp, h1]
  simp only [OBJECTS_COUNT_eq, cellSize_eq, segmentSize_eq] at *
  omega

/-- When every block fits, every byte handed out is a byte of the first `OBJECTS_COUNT` cells. -/
theorem fits_handed :
    ∀ (sizes : List Word) (allUnits : BitVec 32),
      8 * allUnits.toNat ≤ OBJECTS_COUNT * cellSize → Fits n allUnits.toNat sizes →
      ∀ b ∈ dstmMallocs g n allUnits sizes, ∀ a, b.HasByte a →
        n < 2 ^ 15 ∧ ∃ o < OBJECTS_COUNT * cellSize, a = heapByte g n o := by
  intro sizes
  induction sizes with
  | nil => intro _ _ _ b hb; cases hb
  | cons size sizes ih =>
    rintro allUnits hu ⟨hs, hrest⟩ b hb a ha
    obtain ⟨ptr, heq, hptr⟩ := dstmMalloc_eq (g := g) (n := n) size
      (hu.trans cells_le_heapSize) (cells_lt g n hu)
    have hsz : size.toNat ≤ OBJECTS_COUNT * cellSize := by
      rcases eq_or_ne size 0 with rfl | h0
      · exact Nat.zero_le _
      · exact le_trans (Nat.le_add_left _ _) (hs h0).2
    have hnext : (allUnits + dstmUnits size).toNat = allUnits.toNat + (size.toNat + 7) / 8 := by
      have := dstmUnits_toNat (lt_of_le_of_lt hsz (by decide))
      simp only [OBJECTS_COUNT_eq, cellSize_eq] at hu hsz
      rw [BitVec.toNat_add, this]
      omega
    rw [dstmMallocs, heq] at hb
    rcases List.mem_cons.1 hb with rfl | hb
    · obtain ⟨i, hi, rfl⟩ := ha
      have h0 : size ≠ 0 := by rintro rfl; exact absurd hi (Nat.not_lt_zero i)
      obtain ⟨hn, hend⟩ := hs h0
      have hi : i < size.toNat := hi
      exact ⟨hn, 8 * allUnits.toNat + i, by omega, hasByte_heapByte hn hptr (by omega)⟩
    · refine ih _ ?_ (by rw [hnext]; exact hrest) b hb a ha
      rw [hnext]
      rcases eq_or_ne size 0 with rfl | h0
      · simpa using hu
      · have hend := (hs h0).2
        simp only [OBJECTS_COUNT_eq, cellSize_eq] at *
        omega

/-- When some block does not fit, the byte right after the first `OBJECTS_COUNT` cells is handed
out. -/
theorem handed_of_not_fits (hn : n < 2 ^ 15) :
    ∀ (sizes : List Word) (allUnits : BitVec 32),
      8 * allUnits.toNat ≤ OBJECTS_COUNT * cellSize → ¬ Fits n allUnits.toNat sizes →
      ∃ b ∈ dstmMallocs g n allUnits sizes,
        b.HasByte (heapByte g n (OBJECTS_COUNT * cellSize)) := by
  intro sizes
  induction sizes with
  | nil => intro _ _ h; exact absurd trivial h
  | cons size sizes ih =>
    intro allUnits hu hf
    obtain ⟨ptr, heq, hptr⟩ := dstmMalloc_eq (g := g) (n := n) size
      (hu.trans cells_le_heapSize) (cells_lt g n hu)
    rw [dstmMallocs, heq]
    by_cases hs : size ≠ 0 → 8 * allUnits.toNat + size.toNat ≤ OBJECTS_COUNT * cellSize
    · have hsz : size.toNat ≤ OBJECTS_COUNT * cellSize := by
        rcases eq_or_ne size 0 with rfl | h0
        · exact Nat.zero_le _
        · exact le_trans (Nat.le_add_left _ _) (hs h0)
      have hnext : (allUnits + dstmUnits size).toNat = allUnits.toNat + (size.toNat + 7) / 8 := by
        have := dstmUnits_toNat (lt_of_le_of_lt hsz (by decide))
        simp only [OBJECTS_COUNT_eq, cellSize_eq] at hu hsz
        rw [BitVec.toNat_add, this]
        omega
      have hrest : ¬ Fits n (allUnits + dstmUnits size).toNat sizes := by
        rw [hnext]; exact fun h => hf ⟨fun h0 => ⟨hn, hs h0⟩, h⟩
      have hu' : 8 * (allUnits + dstmUnits size).toNat ≤ OBJECTS_COUNT * cellSize := by
        rw [hnext]
        rcases eq_or_ne size 0 with rfl | h0
        · simpa using hu
        · have hend := hs h0
          simp only [OBJECTS_COUNT_eq, cellSize_eq] at *
          omega
      obtain ⟨b, hb, ha⟩ := ih _ hu' hrest
      exact ⟨b, List.mem_cons_of_mem _ hb, ha⟩
    · -- this block is the first that reaches past the cells
      obtain ⟨-, hgt⟩ := Classical.not_imp.1 hs
      refine ⟨⟨ptr, size⟩, List.mem_cons_self, OBJECTS_COUNT * cellSize - 8 * allUnits.toNat,
        by show _ < size.toNat; omega, ?_⟩
      rw [hasByte_heapByte hn hptr (by omega)]
      congr 1
      omega

/-- On a node whose number has more bits, the first byte that is handed out has its lock word on
another node. -/
theorem handed_of_wide (hn : 2 ^ 15 ≤ n) :
    ∀ sizes : List Word, ¬ Fits n 0 sizes →
      ∃ a, Handed g n (dstmMallocs g n 0 sizes) a ∧ ¬ LockInTable g n a := by
  intro sizes
  induction sizes with
  | nil => intro h; exact absurd trivial h
  | cons size sizes ih =>
    intro hf
    have hu : 8 * (0 : BitVec 32).toNat ≤ heapSize := Nat.zero_le _
    obtain ⟨ptr, heq, hptr⟩ := dstmMalloc_eq (g := g) (n := n) size hu
      (cells_lt g n (Nat.zero_le _))
    rw [dstmMallocs, heq]
    by_cases h0 : size = 0
    · -- an empty block takes no unit
      subst h0
      obtain ⟨a, ⟨⟨b, hb, hba⟩, hseg⟩, ha⟩ := ih fun h => hf ⟨fun h0 => absurd rfl h0, h⟩
      exact ⟨a, ⟨⟨b, List.mem_cons_of_mem _ hb, hba⟩, hseg⟩, ha⟩
    · have hr := g.in_range n
      have ho := g.objectsAddr_toNat n
      have hlocal : (addrFromAddress ptr).toNat = (g.objectsAddr n).toNat := by
        rw [addrFromAddress_toNat, hptr, show (0 : BitVec 32).toNat = 0 from rfl]
        simp only [OBJECTS_COUNT_eq, cellSize_eq, segmentSize_eq] at *
        omega
      have hpos : 0 < size.toNat := Nat.pos_of_ne_zero fun h => h0 (BitVec.eq_of_toNat_eq h)
      refine ⟨ptr, ⟨⟨⟨ptr, size⟩, List.mem_cons_self, 0, hpos, (BitVec.add_zero _).symm⟩, ?_, ?_⟩,
        fun h => ?_⟩
      · rw [hlocal]
        omega
      · rw [hlocal, ho]
        simp only [OBJECTS_COUNT_eq, cellSize_eq, segmentSize_eq]
        omega
      · exact absurd (h.1 ▸ nodeFromAddress_lt ptr) (Nat.not_lt.2 hn)

/-- The byte right after the first `OBJECTS_COUNT` cells has no word in the lock table. -/
theorem heapByte_end_not_inTable (hn : n < 2 ^ 15) :
    ¬ LockInTable g n (heapByte g n (OBJECTS_COUNT * cellSize)) := by
  have ho := g.objectsAddr_toNat n
  have hr := g.in_range n
  have hnode := heapByte_node (g := g) hn (le_refl (OBJECTS_COUNT * cellSize))
  have hloc := heapByte_local (g := g) hn (le_refl (OBJECTS_COUNT * cellSize))
  set a := heapByte g n (OBJECTS_COUNT * cellSize) with ha
  have h2 : ((addrFromAddress a - g.objectsAddr n) >>> CDU_SIZE).toNat = OBJECTS_COUNT := by
    rw [BitVec.toNat_ushiftRight, Nat.shiftRight_eq_div_pow,
      BitVec.toNat_sub_of_le (by rw [BitVec.le_def, hloc]; omega), hloc, Nat.add_sub_cancel_left]
    rfl
  simp only [OBJECTS_COUNT_eq, cellSize_eq, segmentSize_eq] at *
  have h3 : (g.locksAddr n + ((addrFromAddress a - g.objectsAddr n) >>> CDU_SIZE) * 8).toNat =
      (g.addr n).toNat + 8 * 2 ^ 18 := by
    rw [BitVec.toNat_add, BitVec.toNat_mul, h2, Segments.locksAddr_eq,
      show (8 : Word).toNat = 8 from rfl]
    omega
  have h4 := @newVersion_toNat n
    (g.locksAddr n + ((addrFromAddress a - g.objectsAddr n) >>> CDU_SIZE) * 8) (by omega)
  rw [newVersion, BitVec.or_comm] at h4
  have h5 : (g.lockLoc a).2.toNat = (g.addr n).toNat + 8 * 2 ^ 18 := by
    rw [Segments.lockLoc, addrFromAddress_toNat, Segments.getObjectLockAddr, hnode]
    simp only [h4, h3]
    omega
  rintro ⟨-, -, h⟩
  rw [h5, Segments.locksAddr_eq] at h
  simp only [OBJECTS_COUNT_eq] at h
  omega

/-! ## The first cells are safe -/

/-- The lock word of a byte of the first `OBJECTS_COUNT` cells lies in the table. -/
theorem inHeap_lockInTable {a : Word} (h : g.InHeap a) :
    LockInTable g (nodeFromAddress a) a := by
  have hi := h.cellIndex_lt
  have hl := h.getObjectLockAddrAt_toNat
  rw [LockInTable, Segments.locksAddr_eq, Segments.lockLoc, h.addrFromAddress_lockAddr, hl]
  exact ⟨rfl, by omega, by omega⟩

/-- Blocks that only have bytes in the first `OBJECTS_COUNT` cells are safe. -/
theorem locksSafe_of_inHeap {blocks : List Block}
    (h : ∀ a, Handed g n blocks a → g.InHeap a ∧ nodeFromAddress a = n) :
    LocksSafe g n blocks := by
  refine ⟨fun a ha => ?_, fun a a' ha ha' hl => ?_, fun a a' ha ha' i hi j hj => ?_⟩
  · obtain ⟨hh, rfl⟩ := h a ha
    exact inHeap_lockInTable hh
  · obtain ⟨hh, -⟩ := h a ha
    obtain ⟨hh', -⟩ := h a' ha'
    rw [← hh.lockLoc_blockLb, ← hh'.lockLoc_blockLb] at hl
    exact Segments.lockLoc_inj hh.blockLb_isCell.1 hh'.blockLb_isCell.1 hl
  · obtain ⟨hh, hn⟩ := h a ha
    obtain ⟨hh', hn'⟩ := h a' ha'
    obtain ⟨-, -, ht⟩ := inHeap_lockInTable hh
    obtain ⟨hc, hcn⟩ := hh'.blockLb_isCell
    have hge := hc.ge
    have ho := g.objectsAddr_toNat n
    rw [hn, Segments.locksAddr_eq] at ht
    rw [hcn, hn', addrFromAddress_toNat] at hge
    rw [Segments.cellLoc_toNat hj]
    omega

/-- **The lock table holds exactly as long as the blocks fit the cells it was sized for.** For
every node and every sequence of requested sizes, the lock words of all handed-out bytes are in the
table of the node, the cells' own, and away from all object data if and only if every block that is
not empty is on a node with a number of 15 bits and ends within the first `OBJECTS_COUNT` cells.
`OBJECTS_COUNT` takes `1 << BUDDY_LEVEL` for a number of bytes, where the allocator counts units of
8. -/
theorem dstmMallocs_locksSafe_iff (g : Segments) {n : ℕ} (hg : n < g.nodes) (sizes : List Word) :
    LocksSafe g n (dstmMallocs g n 0 sizes) ↔ Fits n 0 sizes := by
  constructor
  · intro hsafe
    by_contra hf
    rcases Nat.lt_or_ge n (2 ^ 15) with hn | hn
    · obtain ⟨b, hb, ha⟩ := handed_of_not_fits (g := g) hn sizes 0 (Nat.zero_le _) hf
      exact heapByte_end_not_inTable hn
        (hsafe.inTable _ ⟨⟨b, hb, ha⟩, heapByte_inSegment hn (le_refl _)⟩)
    · obtain ⟨a, ha, hnot⟩ := handed_of_wide (g := g) hn sizes hf
      exact hnot (hsafe.inTable a ha)
  · intro hf
    refine locksSafe_of_inHeap fun a ha => ?_
    obtain ⟨⟨b, hb, hba⟩, -⟩ := ha
    obtain ⟨hn, o, ho, rfl⟩ := fits_handed sizes 0 (Nat.zero_le _) hf b hb a hba
    exact ⟨heapByte_inHeap hn hg ho, heapByte_node hn ho.le⟩

/-- One node with its segment at 256 MiB. -/
def oneSegment : Segments where
  nodes := 1
  addr := fun _ => 0x10000000
  page_aligned := by intro; decide
  in_range := by intro; decide

/-- The condition at a small program: two objects of a cell and of a word. -/
theorem dstmMallocs_locksSafe_small :
    0 < oneSegment.nodes ∧ LocksSafe oneSegment 0 (dstmMallocs oneSegment 0 0 [64, 8]) :=
  ⟨by decide, (dstmMallocs_locksSafe_iff oneSegment (by decide) [64, 8]).2 (by decide)⟩

/-- A block of one cell and one of 16 MiB and 512 bytes are not safe: a byte of the second
has the first word of the first for its lock word, so taking that lock overwrites an object. -/
theorem dstmMallocs_not_locksSafe :
    ¬ LocksSafe oneSegment 0 (dstmMallocs oneSegment 0 0 [64, 0x1000200]) ∧
    ∃ b b', dstmMallocs oneSegment 0 0 [64, 0x1000200] = [b, b'] ∧
      b'.HasByte (b'.ptr + 0x10001c0) ∧ (oneSegment.lockLoc (b'.ptr + 0x10001c0)).2 = b.ptr := by
  refine ⟨fun h => ?_, ⟨0x10200040, 64⟩, ⟨0x10200080, 0x1000200⟩, by decide, ?_, by decide⟩
  · obtain ⟨b, hb, ha⟩ := handed_of_not_fits (g := oneSegment) (n := 0) (by decide)
      [64, 0x1000200] 0 (Nat.zero_le _) (by decide)
    exact heapByte_end_not_inTable (by decide)
      (h.inTable _ ⟨⟨b, hb, ha⟩, heapByte_inSegment (by decide) (le_refl _)⟩)
  · exact ⟨0x10001c0, by decide, rfl⟩

end

end DstmP1
