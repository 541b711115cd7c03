import DstmP1.Malloc
import DstmP1.FlatMemory

/-!
# The distributed heap

Any number of nodes call `dstm_malloc` and `dstm_free`. A local request is served at once; a
request for another node goes there in a message whose argument has 32 bits and is served when
the message is handled. A `dstm_free` of a block of another node is a message as well, handled at
any later time. The heap after a sequence of such events (`HeapEvent`, in the order in which they
take effect) is what the nodes have handed out and the `dstm_free` requests under way.

`HeapSafe` says of every event what a caller relies on: a pointer returned is tagged with its home
node and its bytes lie in the object area and in no other block, a request that does not fit gets
`NULL`, and a `dstm_free` leaves the bytes of the other live blocks alone. Nothing in
`dstm_malloc` looks at the end of the segment, and an empty block shares its pointer with the next
one; `heapSafe_iff` says that these are the only ways in which it goes wrong.
-/

namespace DstmP1

/-! ## Events -/

/-- A block of the heap: its home node, and whether `dstm_free` has not been called on it. -/
structure HeapBlock extends Block where
  home : ℕ
  live : Bool

/-- The heap of all nodes: `ALL_UNITS` of each node, the blocks returned so far in their order,
and the blocks whose `dstm_free` requests are under way. -/
structure Heap where
  allUnits : ℕ → BitVec 32
  blocks : List HeapBlock
  requests : List ℕ

inductive HeapEvent where
  /-- `dstm_malloc(size, _)` is served on node `home`, for a caller on the node itself with
  `UINT_MAX` or for a `remote` request. -/
  | malloc (home : ℕ) (remote : Bool) (size : Word)
  /-- `dstm_free` is called on node `caller` with the pointer of block `k`. -/
  | free (caller : ℕ) (k : ℕ)
  /-- The `j`-th `dstm_free` request is handled. -/
  | deliver (j : ℕ)

/-- Nothing has been handed out. -/
def Heap.init : Heap := ⟨fun _ => 0, [], []⟩

/-- The `__size` that `dstm_malloc` runs with on the home node: a remote request carries it as a
`harg_t`, a signed 32-bit number. -/
def servedSize (remote : Bool) (size : Word) : Word :=
  if remote then (size.truncate 32).signExtend 64 else size

/-- `gasnet_memset(node, ptr, 0, 1 << MAU_SIZE)`, what `dstm_free` does to memory. -/
def Flat.clear (m : Flat) (ptr : Word) : Flat := fun n p =>
  if n = nodeFromAddress ptr ∧ (p - addrFromAddress ptr).toNat < 1 <<< MAU_SIZE then 0 else m n p

section
variable (g : Segments) (h : Heap)

/-- `dstm_malloc` as it is served on node `home`. -/
def Heap.serve (home : ℕ) (remote : Bool) (size : Word) : Option Word × BitVec 32 :=
  dstmMalloc (g.objectsAddr home) home (h.allUnits home) (servedSize remote size)

def Heap.step : HeapEvent → Heap
  | .malloc home remote size =>
    let r := h.serve g home remote size
    { h with
      allUnits := Function.update h.allUnits home r.2
      blocks := match r.1 with
        | some ptr => h.blocks ++ [⟨⟨ptr, size⟩, home, true⟩]
        | none => h.blocks }
  | .free caller k =>
    match h.blocks[k]? with
    | some b =>
      if b.live then { h with
          blocks := h.blocks.set k { b with live := false }
          requests := if nodeFromAddress b.ptr = caller then h.requests
            else h.requests ++ [k] }
      else h
    | none => h
  | .deliver j => { h with requests := h.requests.eraseIdx j }

/-! ## Safety -/

/-- The byte at the local address `a` of the home node is one of the block. -/
def HeapBlock.Covers (b : HeapBlock) (a : ℕ) : Prop :=
  (addrFromAddress b.ptr).toNat ≤ a ∧ a < (addrFromAddress b.ptr).toNat + b.size.toNat

/-- The block is tagged with its home node and lies between `objects_addr` and the end of the
segment. -/
structure HeapBlock.InArea (g : Segments) (b : HeapBlock) : Prop where
  tag : nodeFromAddress b.ptr = b.home
  ge : (g.objectsAddr b.home).toNat ≤ (addrFromAddress b.ptr).toNat
  le : (addrFromAddress b.ptr).toNat + b.size.toNat ≤ (g.addr b.home).toNat + segmentSize

/-- The memory left to node `home` does not hold `size` bytes. -/
def Heap.Full (home : ℕ) (size : Word) : Prop :=
  heapSize < 8 * (h.allUnits home).toNat + size.toNat

/-- Clearing block `k` changes no byte of another live block, whatever memory holds. -/
def Heap.ClearSafe (k : ℕ) : Prop :=
  ∀ b, h.blocks[k]? = some b → ∀ k' b', h.blocks[k']? = some b' → k' ≠ k → b'.live = true →
    ∀ (m : Flat) (p : Word), b'.Covers p.toNat → m.clear b.ptr b'.home p = m b'.home p

/-- What the caller of an event relies on. -/
def Heap.Safe : HeapEvent → Prop
  | .malloc home remote size =>
    (∀ ptr, (h.serve g home remote size).1 = some ptr →
      HeapBlock.InArea g ⟨⟨ptr, size⟩, home, true⟩ ∧
        ∀ b ∈ h.blocks, b.home = home →
          ∀ a, ¬ (b.Covers a ∧ HeapBlock.Covers ⟨⟨ptr, size⟩, home, true⟩ a)) ∧
      (h.Full home size → (h.serve g home remote size).1 = none)
  | .free caller k => ∀ b, h.blocks[k]? = some b → b.live = true →
      nodeFromAddress b.ptr = caller → h.ClearSafe k
  | .deliver j => ∀ k, h.requests[j]? = some k → h.ClearSafe k

/-- Every event of a sequence is safe. -/
def HeapSafe : Heap → List HeapEvent → Prop
  | _, [] => True
  | h, e :: es => h.Safe g e ∧ HeapSafe (h.step g e) es

/-! ## The condition -/

/-- Block `k` is not empty, or no live block with bytes has the same pointer. -/
def Heap.OwnUnit (k : ℕ) : Prop :=
  ∀ b, h.blocks[k]? = some b → b.size = 0 → ∀ k' b', h.blocks[k']? = some b' → k' ≠ k →
    b'.live = true → b'.ptr = b.ptr → b'.size = 0

/-- The node has a number of 15 bits, and a block that starts at the first free unit lies in the
object area and starts below `2 ^ 48`; a block that is cleared has a unit of its own. -/
def Heap.Fine : HeapEvent → Prop
  | .malloc home _ size => home < 2 ^ 15 ∧
      8 * (h.allUnits home).toNat + size.toNat ≤ heapSize ∧
      (g.objectsAddr home).toNat + 8 * (h.allUnits home).toNat < 2 ^ 48
  | .free caller k => ∀ b, h.blocks[k]? = some b → b.live = true →
      nodeFromAddress b.ptr = caller → h.OwnUnit k
  | .deliver j => ∀ k, h.requests[j]? = some k → h.OwnUnit k

/-- Every event of a sequence is fine. -/
def HeapFine : Heap → List HeapEvent → Prop
  | _, [] => True
  | h, e :: es => h.Fine g e ∧ HeapFine (h.step g e) es

end

/-! ## Blocks and units -/

/-- The first unit of a block, counted from `objects_addr`. -/
def HeapBlock.unit (g : Segments) (b : HeapBlock) : ℕ :=
  ((addrFromAddress b.ptr).toNat - (g.objectsAddr b.home).toNat) / 8

/-- The units of a block. -/
def HeapBlock.units (b : HeapBlock) : ℕ := (b.size.toNat + 7) / 8

/-- The block starts at its first unit and ends at the `upto`-th unit or before, in the object
area of its node. -/
structure HeapBlock.Placed (g : Segments) (upto : ℕ) (b : HeapBlock) : Prop where
  home_lt : b.home < 2 ^ 15
  ptr_eq : b.ptr.toNat = b.home * 2 ^ 48 + ((g.objectsAddr b.home).toNat + 8 * b.unit g)
  start_lt : (g.objectsAddr b.home).toNat + 8 * b.unit g < 2 ^ 48
  le : b.unit g + b.units ≤ upto

/-- The blocks of each node lie one after the other in what has been handed out. -/
structure Heap.Ok (g : Segments) (h : Heap) : Prop where
  units_le : ∀ home, 8 * (h.allUnits home).toNat ≤ heapSize
  placed : ∀ b ∈ h.blocks, b.Placed g (h.allUnits b.home).toNat
  sorted : h.blocks.Pairwise fun b b' => b.home = b'.home → b.unit g + b.units ≤ b'.unit g

section
variable {g : Segments} {h : Heap} {b b' : HeapBlock} {upto : ℕ}

theorem HeapBlock.Placed.mono (hb : b.Placed g upto) {upto' : ℕ} (hle : upto ≤ upto') :
    b.Placed g upto' := ⟨hb.home_lt, hb.ptr_eq, hb.start_lt, hb.le.trans hle⟩

theorem HeapBlock.Placed.tag (hb : b.Placed g upto) : nodeFromAddress b.ptr = b.home := by
  have h1 := hb.ptr_eq
  have h2 := hb.start_lt
  have h3 := hb.home_lt
  rw [nodeFromAddress_eq]
  omega

/-- The local address of a block. -/
theorem HeapBlock.Placed.addr (hb : b.Placed g upto) :
    (addrFromAddress b.ptr).toNat = (g.objectsAddr b.home).toNat + 8 * b.unit g := by
  have h1 := hb.ptr_eq
  have h2 := hb.start_lt
  rw [addrFromAddress_toNat]
  omega

/-- The bytes of a block lie in its units. -/
theorem HeapBlock.Placed.covers (hb : b.Placed g upto) {a : ℕ} (ha : b.Covers a) :
    (g.objectsAddr b.home).toNat + 8 * b.unit g ≤ a ∧
      a < (g.objectsAddr b.home).toNat + 8 * (b.unit g + b.units) := by
  obtain ⟨h1, h2⟩ := ha
  rw [hb.addr] at h1 h2
  unfold HeapBlock.units
  omega

theorem Heap.Ok.init (g : Segments) : Heap.Ok g Heap.init where
  units_le _ := Nat.zero_le _
  placed _ hb := absurd hb List.not_mem_nil
  sorted := .nil

/-- The object area ends with the segment. -/
theorem objectsAddr_add_heapSize (g : Segments) (n : ℕ) :
    (g.objectsAddr n).toNat + heapSize = (g.addr n).toNat + segmentSize := by
  have := g.objectsAddr_toNat n
  rw [heapSize]
  simp only [OBJECTS_COUNT_eq, cellSize_eq, segmentSize_eq] at *
  omega

/-- A tag leaves the local address alone. -/
theorem addrFromAddress_or_tag (x y : Word) :
    addrFromAddress (x ||| toNodeTs y) = addrFromAddress x := by
  have h0 : addrFromAddress (toNodeTs y) = 0 := by
    apply BitVec.eq_of_toNat_eq
    rw [addrFromAddress_toNat, toNodeTs_toNat, Nat.mul_mod_left]
    rfl
  rw [addrFromAddress, addrFromAddress] at *
  rw [BitVec.and_or_distrib_left, h0]
  exact BitVec.or_zero

/-- A size that fits the object area reaches the home node unchanged. -/
theorem servedSize_eq {size : Word} (hs : size.toNat ≤ heapSize) (remote : Bool) :
    servedSize remote size = size := by
  rw [heapSize_eq] at hs
  cases remote with
  | false => rfl
  | true =>
    have h1 : (size.truncate 32).toNat = size.toNat := by
      rw [BitVec.truncate_eq_setWidth, BitVec.toNat_setWidth]
      omega
    apply BitVec.eq_of_toNat_eq
    rw [servedSize, if_pos rfl, BitVec.signExtend_eq_setWidth_of_msb_false,
      BitVec.toNat_setWidth, h1]
    · omega
    · rw [BitVec.msb_eq_decide, h1, decide_eq_false_iff_not]
      omega

/-! ## The allocator -/

/-- A block that fits starts at the first free unit. -/
theorem Heap.Ok.serve_fine (hok : h.Ok g) {home : ℕ} (remote : Bool) {size : Word}
    (hf : h.Fine g (.malloc home remote size)) :
    ∃ ptr, h.serve g home remote size = (some ptr, h.allUnits home + dstmUnits size) ∧
      HeapBlock.Placed g ((h.allUnits home).toNat + (size.toNat + 7) / 8)
        ⟨⟨ptr, size⟩, home, true⟩ ∧
      HeapBlock.unit g ⟨⟨ptr, size⟩, home, true⟩ = (h.allUnits home).toNat := by
  obtain ⟨hhome, hsz, hlt⟩ := hf
  obtain ⟨ptr, heq, hptr⟩ := dstmMalloc_eq (g := g) (n := home) (servedSize remote size)
    (hok.units_le home) hlt
  rw [Nat.mod_eq_of_lt hhome] at hptr
  have hunit : HeapBlock.unit g ⟨⟨ptr, size⟩, home, true⟩ = (h.allUnits home).toNat := by
    simp only [HeapBlock.unit, addrFromAddress_toNat, hptr]
    omega
  refine ⟨ptr, ?_, ⟨hhome, ?_, ?_, ?_⟩, hunit⟩
  · rw [Heap.serve, heq, servedSize_eq (by omega)]
  · rw [hunit]
    exact hptr
  · rw [hunit]
    exact hlt
  · rw [hunit]
    exact le_rfl

/-- The units handed out after a block that fits. -/
theorem allUnits_add {allUnits : BitVec 32} {size : Word}
    (hs : 8 * allUnits.toNat + size.toNat ≤ heapSize) :
    (allUnits + dstmUnits size).toNat = allUnits.toNat + (size.toNat + 7) / 8 ∧
      8 * (allUnits + dstmUnits size).toNat ≤ heapSize := by
  rw [heapSize_eq] at *
  have hlt : size.toNat < 2 ^ 31 := by omega
  have hd := dstmUnits_toNat hlt
  rw [BitVec.toNat_add, hd]
  omega

/-- A request is served safely exactly when its block fits. -/
theorem Heap.Ok.safe_malloc_iff (hok : h.Ok g) {home : ℕ} {remote : Bool} {size : Word} :
    h.Safe g (.malloc home remote size) ↔ h.Fine g (.malloc home remote size) := by
  constructor
  · rintro ⟨hsafe, hfull⟩
    obtain ⟨base, heq, hbase⟩ := dstmMalloc_base (g := g) (n := home) (servedSize remote size)
      (hok.units_le home)
    have hsome : (h.serve g home remote size).1 =
        some (base ||| toNodeTs (BitVec.ofNat 64 home)) := by rw [Heap.serve, heq]
    obtain ⟨⟨htag, hge, -⟩, -⟩ := hsafe _ hsome
    have hhome : home < 2 ^ 15 := by
      have := nodeFromAddress_lt (base ||| toNodeTs (BitVec.ofNat 64 home))
      rwa [htag] at this
    refine ⟨hhome, ?_, ?_⟩
    · by_contra hn
      rw [hfull (not_le.1 hn)] at hsome
      cases hsome
    · -- a start at `2 ^ 48` has lost its local address to the tag
      by_contra hn
      have hend := objectsAddr_add_heapSize g home
      have hr := g.in_range home
      have hu := hok.units_le home
      have ho := g.objectsAddr_toNat home
      dsimp only at hge
      rw [addrFromAddress_or_tag, addrFromAddress_toNat, hbase] at hge
      simp only [OBJECTS_COUNT_eq, cellSize_eq] at ho
      omega
  · intro hf
    obtain ⟨ptr, heq, hplaced, hunit⟩ := hok.serve_fine remote hf
    refine ⟨fun ptr' hp => ?_, fun hfull => absurd hf.2.1 (not_le.2 hfull)⟩
    rw [heq, Option.some.injEq] at hp
    subst hp
    have haddr := hplaced.addr
    rw [hunit] at haddr
    refine ⟨⟨hplaced.tag, ?_, ?_⟩, fun b hb hbh a ⟨ha, ha'⟩ => ?_⟩
    · rw [haddr]
      exact Nat.le_add_right _ _
    · have hend := objectsAddr_add_heapSize g home
      have hsz := hf.2.1
      rw [haddr]
      dsimp only
      omega
    · have h1 := ((hok.placed b hb).covers ha).2
      have h2 := (hplaced.covers ha').1
      have h3 := (hok.placed b hb).le
      rw [hbh] at h1 h3
      rw [hunit] at h2
      dsimp only at h2
      omega

/-! ## Clearing -/

/-- The order of two blocks of a node. -/
theorem Heap.Ok.apart (hok : h.Ok g) {k k' : ℕ} (hk : h.blocks[k]? = some b)
    (hk' : h.blocks[k']? = some b') (hne : k' ≠ k) (hh : b'.home = b.home) :
    b.unit g + b.units ≤ b'.unit g ∨ b'.unit g + b'.units ≤ b.unit g := by
  obtain ⟨hi, rfl⟩ := List.getElem?_eq_some_iff.1 hk
  obtain ⟨hi', rfl⟩ := List.getElem?_eq_some_iff.1 hk'
  have hs := List.pairwise_iff_getElem.1 hok.sorted
  rcases lt_or_gt_of_ne hne with hlt | hlt
  · exact .inr (hs k' k hi' hi hlt hh)
  · exact .inl (hs k k' hi hi' hlt hh.symm)

/-- Clearing a block is safe exactly when it has a unit of its own. -/
theorem Heap.Ok.clearSafe_iff (hok : h.Ok g) (k : ℕ) : h.ClearSafe k ↔ h.OwnUnit k := by
  constructor
  · intro hs b hk h0 k' b' hk' hne hlive hptr
    have hb := hok.placed b (List.mem_of_getElem? hk)
    have hb' := hok.placed b' (List.mem_of_getElem? hk')
    by_contra hsz
    have hpos : 0 < b'.size.toNat := by
      rw [Nat.pos_iff_ne_zero, ← BitVec.toNat_zero (w := 64), ne_eq, BitVec.toNat_inj]
      exact hsz
    have hc := hs b hk k' b' hk' hne hlive (fun _ _ => 1) (addrFromAddress b'.ptr)
      ⟨le_rfl, Nat.lt_add_of_pos_right hpos⟩
    rw [← hb'.tag, hptr, Flat.clear, if_pos ⟨rfl, by rw [BitVec.sub_self]; decide⟩] at hc
    exact absurd hc (by decide)
  · intro hown b hk k' b' hk' hne hlive m p hp
    have hb := hok.placed b (List.mem_of_getElem? hk)
    have hb' := hok.placed b' (List.mem_of_getElem? hk')
    refine if_neg ?_
    rintro ⟨hn, hlt⟩
    rw [hb.tag] at hn
    obtain ⟨hlo, hhi⟩ := hb'.covers hp
    have haddr := hb.addr
    have hobj := hb.start_lt
    rw [show 1 <<< MAU_SIZE = 8 by decide, BitVec.toNat_sub] at hlt
    rw [hn] at hlo hhi
    rcases hok.apart hk hk' hne hn with hle | hle
    · by_cases h0 : b.size = 0
      · have hu : b'.unit g = b.unit g := by omega
        have hptr : b'.ptr = b.ptr := BitVec.eq_of_toNat_eq (by
          rw [hb'.ptr_eq, hb.ptr_eq, hn, hu])
        have hz := hown b hk h0 k' b' hk' hne hlive hptr
        rw [HeapBlock.Covers, hz] at hp
        exact absurd hp.2 (not_lt.2 hp.1)
      · have hpos : b.size.toNat ≠ 0 := fun h => h0 (BitVec.eq_of_toNat_eq h)
        have hun : 1 ≤ b.units := by unfold HeapBlock.units; omega
        omega
    · omega

/-! ## Every event -/

/-- Fine events keep the blocks in order. -/
theorem Heap.Ok.step (hok : h.Ok g) {e : HeapEvent} (hf : h.Fine g e) : (h.step g e).Ok g := by
  cases e with
  | malloc home remote size =>
    obtain ⟨ptr, heq, hplaced, hunit⟩ := hok.serve_fine remote hf
    obtain ⟨hadd, hle⟩ := allUnits_add hf.2.1
    have hup : ∀ n, (h.allUnits n).toNat ≤
        (Function.update h.allUnits home (h.allUnits home + dstmUnits size) n).toNat := by
      intro n
      by_cases hn : n = home
      · rw [hn, Function.update_self, hadd]
        exact Nat.le_add_right _ _
      · rw [Function.update_of_ne hn]
    simp only [Heap.step, heq]
    refine ⟨fun n => ?_, fun b hb => ?_, ?_⟩
    · by_cases hn : n = home
      · rw [hn]
        dsimp only
        rw [Function.update_self]
        exact hle
      · dsimp only
        rw [Function.update_of_ne hn]
        exact hok.units_le n
    · rcases List.mem_append.1 hb with hb | hb
      · exact (hok.placed b hb).mono (hup _)
      · rw [List.mem_singleton.1 hb]
        dsimp only
        rw [Function.update_self, hadd]
        exact hplaced
    · refine List.pairwise_append.2 ⟨hok.sorted, List.pairwise_singleton _ _, ?_⟩
      intro b hb b' hb' hh
      rw [List.mem_singleton.1 hb'] at hh ⊢
      rw [hunit]
      have := (hok.placed b hb).le
      rwa [hh] at this
  | free caller k =>
    simp only [Heap.step]
    split
    · next b hb =>
      split
      · -- only the mark of the block changes
        obtain ⟨hi, rfl⟩ := List.getElem?_eq_some_iff.1 hb
        have hget : ∀ i (hi' : i < h.blocks.length)
            (_ : i < (h.blocks.set k { h.blocks[k] with live := false }).length),
            (h.blocks.set k { h.blocks[k] with live := false })[i] = { h.blocks[i] with
              live := if k = i then false else h.blocks[i].live } := fun i hi' _ => by
          rw [List.getElem_set]
          split
          · next hki => subst hki; rfl
          · rfl
        refine ⟨hok.units_le, fun b' hb' => ?_, List.pairwise_iff_getElem.2 ?_⟩
        · obtain ⟨i, hs, rfl⟩ := List.getElem_of_mem hb'
          have hi' := hs
          rw [List.length_set] at hi'
          rw [hget i hi' hs]
          exact ⟨(hok.placed _ (List.getElem_mem hi')).1, (hok.placed _ (List.getElem_mem hi')).2,
            (hok.placed _ (List.getElem_mem hi')).3, (hok.placed _ (List.getElem_mem hi')).4⟩
        · intro i j hs hs' hlt
          have hi' := hs
          have hj' := hs'
          rw [List.length_set] at hi' hj'
          rw [hget i hi' hs, hget j hj' hs']
          exact List.pairwise_iff_getElem.1 hok.sorted i j hi' hj' hlt
      · exact hok
    · exact hok
  | deliver j => exact ⟨hok.units_le, hok.placed, hok.sorted⟩

/-- An event is safe exactly when it is fine. -/
theorem Heap.Ok.safe_iff (hok : h.Ok g) (e : HeapEvent) : h.Safe g e ↔ h.Fine g e := by
  cases e with
  | malloc home remote size => exact hok.safe_malloc_iff
  | free caller k =>
    simp only [Heap.Safe, Heap.Fine, hok.clearSafe_iff]
  | deliver j =>
    simp only [Heap.Safe, Heap.Fine, hok.clearSafe_iff]

/-- The same for a sequence of events. -/
theorem Heap.Ok.seq_iff (hok : h.Ok g) (es : List HeapEvent) :
    HeapSafe g h es ↔ HeapFine g h es := by
  induction es generalizing h with
  | nil => exact Iff.rfl
  | cons e es ih =>
    rw [HeapSafe, HeapFine, hok.safe_iff]
    exact and_congr_right fun hf => ih (hok.step hf)

/-- **The heap is safe in a sequence of `dstm_malloc` and `dstm_free` events on all nodes exactly
when every request is served on a node with a number of 15 bits, fits what is left of its segment
and starts below `2 ^ 48`, and no `dstm_free` clears the pointer of an empty block that a live
block with bytes shares.** -/
theorem heapSafe_iff (g : Segments) (es : List HeapEvent) :
    HeapSafe g Heap.init es ↔ HeapFine g Heap.init es :=
  (Heap.Ok.init g).seq_iff es

/-- A request of 1 GiB, more than a segment has for objects, is not refused; neither is a remote
one of 4 GiB and 8 bytes, which is served as one of 8 bytes; and the `dstm_free` of an empty
block clears the block after it. -/
theorem heapSafe_fails :
    ¬ HeapSafe oneSegment Heap.init [.malloc 0 false 0x40000000] ∧
    ¬ HeapSafe oneSegment Heap.init [.malloc 0 true 0x100000008] ∧
    ¬ HeapSafe oneSegment Heap.init [.malloc 0 false 0, .malloc 0 false 8, .free 0 0] := by
  rw [(Heap.Ok.init _).seq_iff, (Heap.Ok.init _).seq_iff, (Heap.Ok.init _).seq_iff]
  refine ⟨fun h => absurd h.1.2.1 (by decide), fun h => absurd h.1.2.1 (by decide), fun h => ?_⟩
  have hown := h.2.2.1 _ rfl rfl (by decide)
  have hsize := hown _ rfl rfl 1 _ rfl (by decide) rfl (by decide)
  exact absurd hsize (by decide)

end

end DstmP1
