import DstmP1.Accounting

/-!
# The requests of a commit

`DSTMTransaction::getLocks` runs over the write set, fills a buffer for every home node until one
of them is full or the write set ends, sends the buffers and waits for the replies; when an
object has been refused it calls `releaseLocks` with its iterator. Here the whole loop is a
function of what the replies of each batch report, which may be anything. The writes into a
buffer are checked against its size, and the loop has only as many rounds as the write set has
cells; that it returns nevertheless (`getLocks_requests`) says that neither is ever exceeded.

`decode` reads a request as the home node does. `Sent` compares what has been sent with the cells
that the iterator has passed.
-/

namespace DstmP1

/-! ## The loop -/

/-- `Buffer.add`, when the words it writes lie in the buffer. -/
def Buffer.addChecked (buf : Buffer) (addr version : Word) : Option Buffer :=
  if buf.count + 2 < buf.length ∧ buf.count + maxRequestedLocksPerNode + 2 < buf.length ∧
      1 < buf.length then
    some (buf.add addr version)
  else none

/-- `fillBatch` with checked writes. -/
def fillBatchChecked (this : Word) (m : CellMap) :
    AList (fun _ : ℕ => Buffer) → List Word → Option (AList (fun _ : ℕ => Buffer) × List Word)
  | arr, [] => some (arr, [])
  | arr, b :: rest =>
    let node := nodeFromAddress b
    (((arr.lookup node).getD (newBuffer this)).addChecked b (entryTs m b)).bind fun buf =>
      let arr := arr.insert node buf
      if buf.count = maxRequestedLocksPerNode then some (arr, rest)
      else fillBatchChecked this m arr rest

/-- The outer loop of `getLocks` in at most `fuel` rounds, from batch `k` on: `before` are the
cells before the iterator, `rest` those from it on. Returns the requests of each batch and, when
an object has been refused, the cells before the iterator that `releaseLocks` gets. -/
def getLocksLoop (this : Word) (m : CellMap) (changed : ℕ → List Word) :
    ℕ → ℕ → List Word → List Word → Option (List (List (ℕ × Buffer)) × Option (List Word))
  | _, _, _, [] => some ([], none)
  | 0, _, _, _ :: _ => none
  | fuel + 1, k, before, b :: rest =>
    (fillBatchChecked this m ∅ (b :: rest)).bind fun r =>
      let before := before ++ (b :: rest).take ((b :: rest).length - r.2.length)
      if (changed k).isEmpty then
        (getLocksLoop this m changed fuel (k + 1) before r.2).map fun s =>
          (requestsOf r.1 :: s.1, s.2)
      else some ([requestsOf r.1], some before)

/-- `getLocks`, when the write set is iterated in the order `order` and `changed k` is what
`rlChangedObjects` holds after the replies to batch `k`. -/
def getLocks (this : Word) (m : CellMap) (changed : ℕ → List Word) (order : List Word) :
    Option (List (List (ℕ × Buffer)) × Option (List Word)) :=
  getLocksLoop this m changed order.length 0 [] order

/-! ## What is sent -/

/-- A request as the home node reads it: node, local address and version of each object. -/
def decode (q : ℕ × Buffer) : List (ℕ × Word × Word) :=
  (List.range q.2.count).map fun i => (q.1, q.2.objAddr i, q.2.version i)

/-- A cell of the write set at its home node, with the timestamp recorded for it. -/
def named (m : CellMap) (b : Word) : ℕ × Word × Word :=
  (nodeFromAddress b, addrFromAddress b, entryTs m b)

/-- The requests of `batches` are for the cells `objs`, each once, and none is too long. -/
structure Sent (m : CellMap) (batches : List (List (ℕ × Buffer))) (objs : List Word) : Prop where
  size : ∀ requests ∈ batches, ∀ q ∈ requests,
    q.2.length = 2 * maxRequestedLocksPerNode + 2 ∧ q.2.count ≤ maxRequestedLocksPerNode
  names : (batches.flatten.flatMap decode).Perm (objs.map (named m))

section
variable {this : Word} {m : CellMap} {arr : AList fun _ : ℕ => Buffer} {batch : List Word}

/-- The words of an object lie in a buffer that is not full. -/
theorem addChecked_encode {l : List (Word × Word)} (h : l.length < maxRequestedLocksPerNode)
    (addr version : Word) :
    Buffer.addChecked (encode this l) addr version =
      some (Buffer.add (encode this l) addr version) := by
  have hc := @count_encode this l h.le
  have hl := @length_encode this l h.le
  refine if_pos ?_
  rw [hc, hl]
  unfold maxRequestedLocksPerNode at *
  omega

/-- The buffer of a node is that of its objects, also when it is new. -/
theorem Filled.lookup_getD (h : Filled this m arr batch) (node : ℕ) :
    (arr.lookup node).getD (newBuffer this) = encode this (slice m node batch) := by
  cases hb : arr.lookup node with
  | some buf => exact h.buf _ _ hb
  | none =>
    have hmem : node ∉ arr := AList.lookup_eq_none.1 hb
    rw [h.mem] at hmem
    push Not at hmem
    rw [slice_eq_nil.2 hmem]
    rfl

/-- Every write of a batch lies in its buffer. -/
theorem fillBatchChecked_eq (this : Word) (m : CellMap) (order : List Word) :
    ∀ {arr : AList fun _ : ℕ => Buffer} {l : List Word},
    Filled this m arr l → (∀ node, (slice m node l).length < maxRequestedLocksPerNode) →
    fillBatchChecked this m arr order = some (fillBatch this m arr order) := by
  induction order with
  | nil => exact fun _ _ => rfl
  | cons b rest ih =>
    intro arr l h hlt
    have h' := h.insert b (hlt _)
    rw [fillBatchChecked, fillBatch, h.lookup_getD, addChecked_encode (hlt _)]
    rw [h.lookup_getD] at h'
    have hcount := @count_encode this _ (h'.le (nodeFromAddress b))
    have hb := h'.buf (nodeFromAddress b) _ (AList.lookup_insert _)
    rw [← hb] at hcount
    simp only [Option.bind_some]
    split
    · rfl
    · next hne =>
      rw [hcount] at hne
      refine ih h' fun node => ?_
      by_cases hn : node = nodeFromAddress b
      · rw [hn]
        exact lt_of_le_of_ne (h'.le _) hne
      · rw [slice_append, slice_singleton_ne (Ne.symm hn), List.append_nil]
        exact hlt node

/-- The home node reads the objects of a buffer back. -/
theorem decode_encode {node : ℕ} {l : List (Word × Word)}
    (h : l.length ≤ maxRequestedLocksPerNode) :
    decode (node, encode this l) = l.map fun e => (node, addrFromAddress e.1, e.2) := by
  rw [decode, count_encode h]
  refine List.ext_getElem (by simp) fun i hi _ => ?_
  have hi' : i < l.length := by simpa using hi
  simp [objAddr_encode hi', version_encode h hi']

/-- The requests of a batch name its objects. -/
theorem Filled.decode_perm (hf : Filled this m arr batch) :
    ((requestsOf arr).flatMap decode).Perm (batch.map (named m)) := by
  have hdec : (requestsOf arr).flatMap decode =
      ((requestsOf arr).flatMap fun q => (slice m q.1 batch).map Prod.fst).map (named m) := by
    rw [List.map_flatMap]
    refine List.flatMap_congr fun q hq => ?_
    obtain ⟨e, he, rfl⟩ := List.mem_map.1 hq
    have hbuf := hf.buf _ _ (AList.mem_lookup_iff.2 he)
    rw [hbuf, decode_encode (hf.le _), slice, List.map_map, List.map_map, List.map_map]
    refine List.map_congr_left fun b hb => ?_
    have hn : nodeFromAddress b = e.1 := by simpa using (List.mem_filter.1 hb).2
    rw [← hn]
    rfl
  rw [hdec]
  exact hf.perm_requests.map _

theorem Sent.nil : Sent m [] [] := ⟨fun _ h => absurd h List.not_mem_nil, .refl _⟩

/-- A batch more has been sent. -/
theorem Sent.cons {batches : List (List (ℕ × Buffer))} {objs : List Word}
    (hf : Filled this m arr batch) (h : Sent m batches objs) :
    Sent m (requestsOf arr :: batches) (batch ++ objs) where
  size requests hr q hq := by
    rcases List.mem_cons.1 hr with rfl | hr
    · obtain ⟨e, he, rfl⟩ := List.mem_map.1 hq
      rw [hf.buf _ _ (AList.mem_lookup_iff.2 he), length_encode (hf.le _), count_encode (hf.le _)]
      exact ⟨rfl, hf.le _⟩
    · exact h.size requests hr q hq
  names := by
    rw [List.flatten_cons, List.flatMap_append, List.map_append]
    exact hf.decode_perm.append h.names

/-! ## The whole loop -/

/-- With a round for every cell the loop ends; it has sent the cells it has passed, and it has
stopped at the first batch with a refused object. -/
theorem getLocksLoop_spec (this : Word) (m : CellMap) (changed : ℕ → List Word) (fuel : ℕ) :
    ∀ (k : ℕ) (before rest : List Word), rest.length ≤ fuel →
    ∃ batches objs it, getLocksLoop this m changed fuel k before rest = some (batches, it) ∧
      Sent m batches objs ∧
      (it = none ∧ objs = rest ∧ (∀ i < batches.length, changed (k + i) = []) ∨
        it = some (before ++ objs) ∧ objs <+: rest ∧ ∃ n, batches.length = n + 1 ∧
          changed (k + n) ≠ [] ∧ ∀ i < n, changed (k + i) = []) := by
  induction fuel with
  | zero =>
    intro k before rest hlen
    obtain rfl := List.length_eq_zero_iff.1 (Nat.le_zero.1 hlen)
    exact ⟨[], [], none, rfl, .nil, .inl ⟨rfl, rfl, fun i hi => absurd hi (Nat.not_lt_zero i)⟩⟩
  | succ fuel ih =>
    intro k before rest hlen
    cases rest with
    | nil =>
      exact ⟨[], [], none, rfl, .nil, .inl ⟨rfl, rfl, fun i hi => absurd hi (Nat.not_lt_zero i)⟩⟩
    | cons b rest =>
      have hslice : ∀ node, (slice m node []).length < maxRequestedLocksPerNode := fun _ => by
        rw [slice_eq_nil.2 (by simp)]; decide
      obtain ⟨batch, he, hne, hf⟩ := fillBatch_spec this m (b :: rest) filled_empty hslice
      rw [List.nil_append] at hf
      rw [getLocksLoop, fillBatchChecked_eq this m (b :: rest) filled_empty hslice,
        Option.bind_some]
      generalize (fillBatch this m ∅ (b :: rest)).1 = arr at *
      generalize (fillBatch this m ∅ (b :: rest)).2 = rest' at *
      have hb : (b :: rest).take ((b :: rest).length - rest'.length) = batch := by
        rw [he, List.length_append, Nat.add_sub_cancel, List.take_left]
      have hpos := List.length_pos_iff.2 (hne (List.cons_ne_nil b rest))
      have hlen' : rest'.length ≤ fuel := by
        have := congrArg List.length he
        rw [List.length_append] at this
        omega
      simp only [hb]
      split
      · next hc =>
        rw [List.isEmpty_iff] at hc
        obtain ⟨batches, objs, it, hl, hs, hcase⟩ := ih (k + 1) (before ++ batch) rest' hlen'
        refine ⟨requestsOf arr :: batches, batch ++ objs, it, by rw [hl]; rfl, hs.cons hf, ?_⟩
        have hstep : ∀ n, (∀ i < n, changed (k + 1 + i) = []) →
            ∀ i < n + 1, changed (k + i) = [] := fun n h i hi => by
          cases i with
          | zero => exact hc
          | succ i =>
            rw [Nat.add_comm i 1, ← Nat.add_assoc]
            exact h i (by omega)
        rcases hcase with ⟨rfl, rfl, hall⟩ | ⟨rfl, hpre, n, hn, hbad, hall⟩
        · exact .inl ⟨rfl, he.symm, hstep _ hall⟩
        · refine .inr ⟨by rw [List.append_assoc], ?_, n + 1, by rw [List.length_cons, hn], ?_,
            hstep n hall⟩
          · rw [he]
            exact (List.prefix_append_right_inj batch).2 hpre
          · rwa [Nat.add_comm n 1, ← Nat.add_assoc]
      · next hc =>
        refine ⟨[requestsOf arr], batch, _, rfl, ?_, .inr ⟨rfl, ?_, 0, rfl, ?_, ?_⟩⟩
        · have := Sent.cons hf (Sent.nil (m := m))
          rwa [List.append_nil] at this
        · rw [he]
          exact List.prefix_append _ _
        · rw [Nat.add_zero]
          exact fun h => hc (List.isEmpty_iff.2 h)
        · exact fun i hi => absurd hi (Nat.not_lt_zero i)

/-- The places of different cells are different. -/
theorem named_place_inj {g : Segments} {objs : List Word} (h : ∀ b ∈ objs, g.IsCell b)
    (hd : objs.Nodup) : ((objs.map (named m)).map fun e => (e.1, e.2.1)).Nodup := by
  rw [List.map_map]
  refine List.Nodup.map_on (fun b hb b' hb' he => ?_) hd
  obtain ⟨hn, ha⟩ := Prod.mk.inj he
  exact address_ext (h b hb).untagged (h b' hb').untagged hn ha

/-- **`getLocks` returns. The requests it has sent name exactly the cells before its iterator,
each once, at its home node and with the timestamp recorded for it, and none is longer than its
buffer has room for. When no object is refused the iterator has passed the whole write set; else
the cells before it are those that `releaseLocks` gets, and the refusal was in the last batch.** -/
theorem getLocks_requests {g : Segments} {tx : Tx} (h : tx.Ok g) (this : Word)
    (changed : ℕ → List Word) {order : List Word} (ho : order.Perm tx.writeSet.keys) :
    ∃ batches it, getLocks this tx.writeSet changed order = some (batches, it) ∧
      Sent tx.writeSet batches (it.getD order) ∧ it.getD order <+: order ∧
      ((batches.flatten.flatMap decode).map fun e => (e.1, e.2.1)).Nodup ∧
      (it = none ↔ ∀ k < batches.length, changed k = []) ∧
      (it ≠ none → ∃ n, batches.length = n + 1 ∧ changed n ≠ [] ∧ ∀ k < n, changed k = []) := by
  obtain ⟨batches, objs, it, hl, hs, hcase⟩ :=
    getLocksLoop_spec this tx.writeSet changed order.length 0 [] order le_rfl
  simp only [Nat.zero_add, List.nil_append] at hcase
  have hobjs : it.getD order = objs ∧ objs <+: order := by
    rcases hcase with ⟨rfl, rfl, -⟩ | ⟨rfl, hpre, -⟩
    · exact ⟨rfl, List.prefix_rfl⟩
    · exact ⟨rfl, hpre⟩
  refine ⟨batches, it, hl, ?_⟩
  rw [hobjs.1]
  refine ⟨hs, hobjs.2, ?_, ?_, fun hne => ?_⟩
  · refine ((hs.names.map _).nodup_iff).2 (named_place_inj (g := g) (fun b hb => ?_) ?_)
    · have hk : b ∈ tx.writeSet.keys := ho.subset (hobjs.2.subset hb)
      obtain ⟨e, he⟩ := exists_lookup (AList.mem_keys.1 hk)
      exact (h.write b e he).1
    · exact (ho.nodup_iff.2 (AList.keys_nodup _)).sublist hobjs.2.sublist
  · rcases hcase with ⟨rfl, -, hall⟩ | ⟨rfl, -, n, hn, hbad, -⟩
    · exact ⟨fun _ => hall, fun _ => rfl⟩
    · exact ⟨nofun, fun hall => absurd (hall n (by omega)) hbad⟩
  · rcases hcase with ⟨rfl, -⟩ | ⟨-, -, hn⟩
    · exact absurd rfl hne
    · exact hn

/-- A descriptor that has written the cells of `cellX` and `cellY`. -/
def twoCells : Tx :=
  { Tx.new with
    writeSet := AList.insert cellY.block ⟨newVersion 0 2, fun _ => 0⟩
      (AList.insert cellX.block ⟨newVersion 1 1, fun _ => 0⟩ ∅) }

theorem ok_twoCells : twoCells.Ok smallSegs := by
  have hx := Tx.Ok.new.insertWrite (e := ⟨newVersion 1 1, fun _ => 0⟩) cellX.isCell (by decide)
  exact hx.insertWrite (e := ⟨newVersion 0 2, fun _ => 0⟩) cellY.isCell (by decide)

/-- Two cells on two nodes, the lock of one of which is refused. -/
theorem getLocks_requests_two : ∃ batches it,
    getLocks 16 twoCells.writeSet (fun _ => [cellX.block]) twoCells.writeSet.keys =
      some (batches, it) ∧
    Sent twoCells.writeSet batches (it.getD twoCells.writeSet.keys) ∧
    it.getD twoCells.writeSet.keys <+: twoCells.writeSet.keys ∧
    ((batches.flatten.flatMap decode).map fun e => (e.1, e.2.1)).Nodup ∧
    (it = none ↔ ∀ k < batches.length, [cellX.block] = []) ∧
    (it ≠ none → ∃ n, batches.length = n + 1 ∧ [cellX.block] ≠ [] ∧
      ∀ k < n, [cellX.block] = []) :=
  getLocks_requests ok_twoCells 16 (fun _ => [cellX.block]) (.refl _)

end

end DstmP1
