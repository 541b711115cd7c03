import DstmP1.Transaction

/-!
# Lock requests

`getLocks` collects the objects of the write set in batches: one buffer for every home node,
closed when one of them holds `maxRequestedLocksPerNode` objects. A buffer is the words
`[descriptor, count, addresses, versions]` as `getLocks` writes and `processLocksRequest` reads
them; addresses cross the wire without their node and are tagged again by the home node.

`encode` says what the buffer of a list of objects is: `Buffer.add` appends an object
(`add_encode`), the home node reads the objects back (`objAddr_encode`, `version_encode`), and
the buffers of a batch are those of its objects by node (`fillBatch_spec`).
-/

namespace DstmP1

def maxRequestedLocksPerNode : ℕ := 10

/-- The words `objvers` of a request. -/
abbrev Buffer := List Word

/-- A zeroed buffer with the descriptor in its first word. -/
def newBuffer (this : Word) : Buffer :=
  this :: List.replicate (2 * maxRequestedLocksPerNode + 1) 0

namespace Buffer

/-- `objvers[1]`, the number of objects. -/
def count (buf : Buffer) : ℕ := (buf.getD 1 0).toNat

/-- One round of the loop of `getLocks`: address and version of an object are stored and the
count is raised. -/
def add (buf : Buffer) (addr version : Word) : Buffer :=
  let n := buf.count
  ((buf.set (n + 2) (addrFromAddress addr)).set (n + maxRequestedLocksPerNode + 2) version).set 1
    (BitVec.ofNat 64 (n + 1))

/-- `objects_versions[0]`. -/
def tx (buf : Buffer) : Word := buf.getD 0 0

/-- `objectsNum`, computed from the size of the message. -/
def objectsNum (buf : Buffer) : ℕ := (8 * buf.length - 2 * 8) / 16

/-- `obj_addr` of object `i`. -/
def objAddr (buf : Buffer) (i : ℕ) : Word := buf.getD (i + 2) 0

/-- `current_version` of object `i`. -/
def version (buf : Buffer) (i : ℕ) : Word := buf.getD (buf.objectsNum + i + 2) 0

end Buffer

/-- The timestamp of the object `b` in the write set. -/
def entryTs (m : CellMap) (b : Word) : Word := ((m.lookup b).map Entry.ts).getD 0

/-- The inner loop of `getLocks`: objects are added to the buffers of their nodes until a buffer
is full. Returns the buffers and the objects left for the next batch. -/
def fillBatch (this : Word) (m : CellMap) :
    AList (fun _ : ℕ => Buffer) → List Word → AList (fun _ : ℕ => Buffer) × List Word
  | arr, [] => (arr, [])
  | arr, b :: rest =>
    let node := nodeFromAddress b
    let buf := ((arr.lookup node).getD (newBuffer this)).add b (entryTs m b)
    let arr := arr.insert node buf
    if buf.count = maxRequestedLocksPerNode then (arr, rest) else fillBatch this m arr rest

/-! ## The handler -/

/-- The lock word of an untagged address, as `processLocksRequest` finds it on node `node`. -/
def lockOf (g : Segments) (node : ℕ) (addr : Word) : Segments.Loc :=
  (node, g.getObjectLockAddrAt addr node)

/-- `lock_val_old > current_version`: the words are compared as a whole. -/
def isRefused (old version : Word) : Bool := decide (version < old)

/-- `lock_val_new`. -/
def lockValNew (version : Word) : Word := version ||| lockBit

/-- An object as it is reported back. -/
def changedObj (node : ℕ) (addr : Word) : Word := addr ||| toNodeTs (BitVec.ofNat 64 node)

/-! ## Buffers of lists of objects -/

/-- The buffer of the objects `l`, pairs of address and version. -/
def encode (this : Word) (l : List (Word × Word)) : Buffer :=
  this :: BitVec.ofNat 64 l.length ::
    (l.map (fun e => addrFromAddress e.1) ++
        List.replicate (maxRequestedLocksPerNode - l.length) 0 ++
      (l.map Prod.snd ++ List.replicate (maxRequestedLocksPerNode - l.length) 0))

section
variable {this : Word} {l : List (Word × Word)}

@[simp] theorem tx_encode : Buffer.tx (encode this l) = this := rfl

/-- The buffer says how many objects it names. -/
theorem count_encode (h : l.length ≤ maxRequestedLocksPerNode) :
    Buffer.count (encode this l) = l.length := by
  rw [maxRequestedLocksPerNode] at h
  show (BitVec.ofNat 64 l.length).toNat = _
  rw [BitVec.toNat_ofNat]
  omega

/-- A buffer has room for the header and ten objects. -/
theorem length_encode (h : l.length ≤ maxRequestedLocksPerNode) :
    (encode this l).length = 2 * maxRequestedLocksPerNode + 2 := by
  simp only [encode, List.length_cons, List.length_append, List.length_map,
    List.length_replicate]
  omega

/-- The buffer says for how many objects it has room. -/
theorem objectsNum_encode (h : l.length ≤ maxRequestedLocksPerNode) :
    Buffer.objectsNum (encode this l) = maxRequestedLocksPerNode := by
  rw [Buffer.objectsNum, length_encode h]
  rfl

/-- The word after `xs` is set. -/
theorem set_length_append (xs ys : List Word) (x v : Word) {n : ℕ} (h : n = xs.length) :
    (xs ++ x :: ys).set n v = xs ++ v :: ys := by
  rw [h, List.set_append_right _ _ le_rfl, Nat.sub_self, List.set_cons_zero]

/-- Adding an object to the buffer of a list that is not full. -/
theorem add_encode (h : l.length < maxRequestedLocksPerNode) (addr version : Word) :
    Buffer.add (encode this l) addr version = encode this (l ++ [(addr, version)]) := by
  obtain ⟨k, hk⟩ : ∃ k, maxRequestedLocksPerNode - l.length = k + 1 := ⟨_, (Nat.succ_pred
    (by omega)).symm⟩
  have hk' : maxRequestedLocksPerNode - (l.length + 1) = k := by omega
  rw [Buffer.add, count_encode h.le]
  simp only [encode, hk, hk', List.length_append, List.length_singleton, List.map_append,
    List.map_cons, List.map_nil, List.set_cons_succ, List.append_assoc, List.replicate_succ,
    List.cons_append, List.nil_append, List.set_cons_zero]
  have h1 := set_length_append (l.map fun e => addrFromAddress e.1)
    (List.replicate k 0 ++ (l.map Prod.snd ++ 0 :: List.replicate k 0)) 0 (addrFromAddress addr)
    (n := l.length) (List.length_map _).symm
  have h2 := set_length_append (l.map (fun e => addrFromAddress e.1) ++
    addrFromAddress addr :: (List.replicate k 0 ++ l.map Prod.snd)) (List.replicate k 0) 0 version
    (n := l.length + maxRequestedLocksPerNode) (by simp; omega)
  simp only [List.append_assoc, List.cons_append] at h2
  rw [h1, h2]

/-- The home node reads the untagged address of an object. -/
theorem objAddr_encode {i : ℕ} (hi : i < l.length) :
    Buffer.objAddr (encode this l) i = addrFromAddress l[i].1 := by
  simp [Buffer.objAddr, encode, List.getElem?_append, hi]

/-- It reads the version of an object. -/
theorem version_encode (h : l.length ≤ maxRequestedLocksPerNode) {i : ℕ} (hi : i < l.length) :
    Buffer.version (encode this l) i = l[i].2 := by
  have hlen : (l.map (fun e : Word × Word => addrFromAddress e.1) ++
      List.replicate (maxRequestedLocksPerNode - l.length) (0 : Word)).length =
      maxRequestedLocksPerNode := by
    rw [List.length_append, List.length_map, List.length_replicate]; omega
  rw [Buffer.version, objectsNum_encode h, encode, List.getD_cons_succ, List.getD_cons_succ,
    List.getD_append_right _ _ _ _ (by rw [hlen]; omega), hlen, Nat.add_sub_cancel_left,
    List.getD_append _ _ _ _ (by rw [List.length_map]; exact hi)]
  simp [hi]

end

/-! ## Batches -/

/-- The objects of `l` that live on `node`, with their versions. -/
def slice (m : CellMap) (node : ℕ) (l : List Word) : List (Word × Word) :=
  (l.filter fun b => nodeFromAddress b = node).map fun b => (b, entryTs m b)

/-- `arr` holds the buffers of the objects `l`, none of which is full. -/
structure Filled (this : Word) (m : CellMap) (arr : AList fun _ : ℕ => Buffer) (l : List Word) :
    Prop where
  mem : ∀ node, node ∈ arr ↔ ∃ b ∈ l, nodeFromAddress b = node
  buf : ∀ node buf, arr.lookup node = some buf → buf = encode this (slice m node l)
  le : ∀ node, (slice m node l).length ≤ maxRequestedLocksPerNode

section
variable {this : Word} {m : CellMap}

/-- The objects of a node come in the order of the iterator. -/
theorem slice_append (m : CellMap) (node : ℕ) (l l' : List Word) :
    slice m node (l ++ l') = slice m node l ++ slice m node l' := by
  rw [slice, List.filter_append, List.map_append]; rfl

/-- An object goes to its home node, with the timestamp recorded. -/
theorem slice_singleton_self (m : CellMap) (b : Word) :
    slice m (nodeFromAddress b) [b] = [(b, entryTs m b)] := by
  simp [slice]

/-- An object goes to no other node. -/
theorem slice_singleton_ne {node : ℕ} {b : Word} (h : nodeFromAddress b ≠ node) :
    slice m node [b] = [] := by
  simp [slice, h]

theorem slice_eq_nil {node : ℕ} {l : List Word} :
    slice m node l = [] ↔ ∀ b ∈ l, nodeFromAddress b ≠ node := by
  simp [slice]

/-- Before the first object there are no buffers. -/
theorem filled_empty : Filled this m ∅ [] where
  mem _ := by simp
  buf _ _ h := by cases h
  le _ := Nat.zero_le _

/-- One object is added to the buffer of its node. -/
theorem Filled.insert {arr : AList fun _ : ℕ => Buffer} {l : List Word}
    (h : Filled this m arr l) (b : Word)
    (hlt : (slice m (nodeFromAddress b) l).length < maxRequestedLocksPerNode) :
    Filled this m (arr.insert (nodeFromAddress b)
      (((arr.lookup (nodeFromAddress b)).getD (newBuffer this)).add b (entryTs m b)))
      (l ++ [b]) := by
  have hold : (arr.lookup (nodeFromAddress b)).getD (newBuffer this) =
      encode this (slice m (nodeFromAddress b) l) := by
    cases hb : arr.lookup (nodeFromAddress b) with
    | some buf => exact h.buf _ _ hb
    | none =>
      have hmem : nodeFromAddress b ∉ arr := AList.lookup_eq_none.1 hb
      rw [h.mem] at hmem
      push Not at hmem
      rw [slice_eq_nil.2 hmem]
      rfl
  have hself : slice m (nodeFromAddress b) (l ++ [b]) =
      slice m (nodeFromAddress b) l ++ [(b, entryTs m b)] := by
    rw [slice_append, slice_singleton_self]
  refine ⟨fun node => ?_, fun node buf hbuf => ?_, fun node => ?_⟩
  · simp only [AList.mem_insert, h.mem, List.mem_append, List.mem_singleton, or_and_right,
      exists_or, exists_eq_left]
    rw [or_comm, eq_comm]
  · by_cases hn : node = nodeFromAddress b
    · subst hn
      rw [AList.lookup_insert, Option.some.injEq] at hbuf
      rw [← hbuf, hold, add_encode hlt, hself]
    · rw [AList.lookup_insert_ne hn] at hbuf
      rw [slice_append, slice_singleton_ne (Ne.symm hn), List.append_nil]
      exact h.buf _ _ hbuf
  · by_cases hn : node = nodeFromAddress b
    · rw [hn, hself, List.length_append]
      exact hlt
    · rw [slice_append, slice_singleton_ne (Ne.symm hn), List.append_nil]
      exact h.le node

/-- The batch is a prefix of the objects, not empty when there are any; the buffers are those of
its objects, node by node. -/
theorem fillBatch_spec (this : Word) (m : CellMap) (order : List Word) :
    ∀ {arr : AList fun _ : ℕ => Buffer} {l : List Word},
    Filled this m arr l → (∀ node, (slice m node l).length < maxRequestedLocksPerNode) →
    ∃ batch, order = batch ++ (fillBatch this m arr order).2 ∧ (order ≠ [] → batch ≠ []) ∧
      Filled this m (fillBatch this m arr order).1 (l ++ batch) := by
  induction order with
  | nil => exact fun h _ => ⟨[], rfl, fun hne => absurd rfl hne, by rwa [List.append_nil]⟩
  | cons b rest ih =>
    intro arr l h hlt
    have h' := h.insert b (hlt _)
    have hcount := @count_encode this _ (h'.le (nodeFromAddress b))
    have hb := h'.buf (nodeFromAddress b) _ (AList.lookup_insert _)
    rw [← hb] at hcount
    rw [fillBatch]
    split
    · exact ⟨[b], rfl, fun _ => List.cons_ne_nil _ _, h'⟩
    · next hne =>
      rw [hcount] at hne
      obtain ⟨batch, he, -, hf⟩ := ih h' fun node => by
        by_cases hn : node = nodeFromAddress b
        · rw [hn]
          exact lt_of_le_of_ne (h'.le _) hne
        · rw [slice_append, slice_singleton_ne (Ne.symm hn), List.append_nil]
          exact hlt node
      refine ⟨b :: batch, congrArg (b :: ·) he, fun _ => List.cons_ne_nil _ _, ?_⟩
      rwa [List.append_assoc] at hf

end

end DstmP1
