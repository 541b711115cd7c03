import DstmP1.Lib.Messages
import DstmP1.Rules

/-!
# Lock requests and their replies

Every object of a write set that `getLocks` has passed is in one place: granted, reported back as
changed, on the way in a reply, still with the home node, or in a request not sent yet.
`Batch` keeps this account while a batch is under way, `PcOk` says what it amounts to at every
point of the code, and `LocalOk` is kept by every step (`reach_localOk`).

For the replies this means that each is delivered to the descriptor that sent the request, while
`getLocks` waits for the very batch it belongs to, and that at the end of the wait all replies
have come (`lockReplies`).
-/

namespace DstmP1

open Segments (Loc)

/-- The objects of a list, sorted by their nodes, are the list. -/
theorem count_flatMap_nodes {ns : List ℕ} (hn : ns.Nodup) (l : List Word) (b : Word) :
    (ns.flatMap fun n => l.filter fun b => nodeFromAddress b = n).count b =
      if nodeFromAddress b ∈ ns then l.count b else 0 := by
  induction ns with
  | nil => rfl
  | cons n ns ih =>
    obtain ⟨hn, hns⟩ := List.nodup_cons.1 hn
    rw [List.flatMap_cons, List.count_append, ih hns]
    by_cases hb : nodeFromAddress b = n
    · rw [List.count_filter (by simpa using hb), if_neg (hb ▸ hn),
        if_pos (List.mem_cons.2 (.inl hb)), Nat.add_zero]
    · rw [List.count_eq_zero.2 (fun h => hb (by simpa using (List.mem_filter.1 h).2)), Nat.zero_add]
      simp [hb]

/-! ## The account of a batch -/

namespace Packet

/-- The objects refused so far. -/
def changed (p : Packet) : List Word :=
  match p.msg with
  | .request _ _ changed => changed
  | .reply _ changed => changed

/-- The objects of a request whose turn has not come yet. -/
def pending (m : CellMap) (batch : List Word) (p : Packet) : List Word :=
  match p.msg with
  | .request i _ _ => ((slice m p.node batch).drop i).map Prod.fst
  | .reply _ _ => []

/-- The objects a message accounts for. -/
def objects (m : CellMap) (batch : List Word) (p : Packet) : List Word :=
  p.changed ++ p.pending m batch

/-- The handler is at an object of the request, and the lock word it has loaded passed its test;
the reply goes to the descriptor of the request. -/
def MsgOk (p : Packet) : Prop :=
  match p.msg with
  | .request i old _ => i ≤ p.buf.count ∧ ∀ w, old = some w → isRefused w (p.buf.version i) = false
  | .reply tx _ => tx = p.buf.tx

end Packet

/-- While the batch `batch` is under way, `unsent` are the requests not sent yet out of
`requests`, and `done` the objects of earlier batches. -/
structure Batch (cfg : Config) (t : Tid) (this : Word) (batches : ℕ) (tx : Tx)
    (held : List (Word × Word)) (refused : List Loc) (net : List Packet) (done batch : List Word)
    (unsent : List (ℕ × Buffer)) (requests : ℕ) : Prop where
  le : ∀ node, (slice tx.writeSet node batch).length ≤ maxRequestedLocksPerNode
  packet : ∀ p ∈ net, p.src = cfg.node t ∧ p.batch = batches ∧
    p.buf = encode this (slice tx.writeSet p.node batch) ∧ p.MsgOk
  unsent_eq : ∀ q ∈ unsent, q.2 = encode this (slice tx.writeSet q.1 batch)
  number : tx.rlNodes + net.length + unsent.length = requests
  account : ∀ b, (held.map Prod.fst).count b + tx.rlChangedObjects.count b +
    (net.flatMap (Packet.objects tx.writeSet batch)).count b +
    (unsent.flatMap fun q => (slice tx.writeSet q.1 batch).map Prod.fst).count b =
      (done ++ batch).count b
  changed_mem : ∀ b ∈ tx.rlChangedObjects ++ net.flatMap Packet.changed, b ∈ batch
  refused_perm : refused.Perm
    ((tx.rlChangedObjects ++ net.flatMap Packet.changed).map cfg.segs.lockLoc)

/-- The locks of `l` are held, nothing has been refused and no message is under way. -/
structure HasLocks (changed : List Word) (held : List (Word × Word)) (net : List Packet)
    (l : List Word) : Prop where
  net : net = []
  changed : changed = []
  held : (held.map Prod.fst).Perm l

/-- What a thread holds and has under way, at every point of its code. -/
def PcOk (cfg : Config) (t : Tid) (th : Thread cfg.segs) (me : Attempt cfg.segs)
    (net : List Packet) : Prop :=
  match th.pc with
  | .idle | .active | .readCell _ .version => HasLocks th.tx.rlChangedObjects me.held net []
  | .readCell _ (.data version _ _) =>
    HasLocks th.tx.rlChangedObjects me.held net [] ∧ Unlocked version
  | .increaseClock _ ts _ _ | .validateStart _ ts _ | .validate _ ts _ _ _ =>
    HasLocks th.tx.rlChangedObjects me.held net [] ∧ Unlocked ts
  | .getLocks o done rest =>
    o.Of th.tx ∧ o.ws = done ++ rest ∧ HasLocks th.tx.rlChangedObjects me.held net done
  | .requestLocks o done batch rest unsent requests =>
    o.Of th.tx ∧ o.ws = done ++ batch ++ rest ∧ ∃ this, th.this = some this ∧
      Batch cfg t this th.batches th.tx me.held me.refused net done batch unsent requests
  | .waitLocks o done batch rest requests =>
    o.Of th.tx ∧ o.ws = done ++ batch ++ rest ∧ ∃ this, th.this = some this ∧
      Batch cfg t this th.batches th.tx me.held me.refused net done batch [] requests
  | .releaseLocks left =>
    net = [] ∧ left.Nodup ∧ (∀ b ∈ left, b ∈ th.tx.writeSet) ∧
      (me.held.map Prod.fst).Perm (left.filter fun b => !th.tx.rlChangedObjects.contains b)
  | .validateAll o _ _ | .getNextClock o _ =>
    o.Of th.tx ∧ HasLocks th.tx.rlChangedObjects me.held net o.ws
  | .commitWriteSetValues o puts left =>
    o.Of th.tx ∧ HasLocks th.tx.rlChangedObjects me.held net o.ws ∧
      puts <:+ th.tx.commitValues cfg.build.variant o ∧ left ⊆ firstBytes puts
  | .releaseLocksWithNewClock version left =>
    HasLocks th.tx.rlChangedObjects me.held net left ∧ left.Nodup ∧
      (∀ b ∈ left, b ∈ th.tx.writeSet) ∧ me.newVersion = some version

/-- What holds of a thread, its current transaction and its messages. -/
structure LocalOk (cfg : Config) (t : Tid) (th : Thread cfg.segs) (me : Attempt cfg.segs)
    (net : List Packet) : Prop where
  tx : th.tx.Ok cfg.segs
  pc : PcOk cfg t th me net

/-- The live descriptors are those the threads have. -/
def Sys.DescsOk (cfg : Config) (σ : Sys cfg.segs) : Prop :=
  ∀ t ptr, (σ.th t).this = some ptr ↔ σ.descs (cfg.node t) ptr = some t

/-! ## A batch from its start to the end of the wait -/

section
variable {cfg : Config} {t : Tid} {this : Word} {batches : ℕ} {tx : Tx}
  {held held' : List (Word × Word)} {refused refused' : List Loc} {net : List Packet}
  {done batch rest : List Word} {unsent : List (ℕ × Buffer)} {requests k : ℕ} {p : Packet}

theorem slice_keys (m : CellMap) (node : ℕ) (l : List Word) :
    (slice m node l).map Prod.fst = l.filter fun b => nodeFromAddress b = node := by
  rw [slice, List.map_map]
  exact List.map_id _

/-- The requests of a batch are for its objects. -/
theorem Filled.perm_requests {m : CellMap} {arr : AList fun _ : ℕ => Buffer} {batch : List Word}
    (hf : Filled this m arr batch) :
    ((requestsOf arr).flatMap fun q => (slice m q.1 batch).map Prod.fst).Perm batch := by
  have hkeys : (requestsOf arr).flatMap (fun q => (slice m q.1 batch).map Prod.fst) =
      arr.keys.flatMap fun n => batch.filter fun b => nodeFromAddress b = n := by
    rw [requestsOf, List.flatMap_map]
    simp only [slice_keys]
    rw [AList.keys, List.keys, List.flatMap_map]
  rw [List.perm_iff_count]
  intro b
  rw [hkeys, count_flatMap_nodes (AList.keys_nodup _)]
  split
  · rfl
  · next hn =>
    exact (List.count_eq_zero.2 fun hb =>
      hn (AList.mem_keys.1 ((hf.mem _).2 ⟨b, hb, rfl⟩))).symm

/-- A batch starts with all its requests unsent. -/
theorem Batch.start (this : Word) (batches : ℕ) (rest : List Word)
    (h : HasLocks tx.rlChangedObjects held net done) :
    Batch cfg t this batches { tx with rlNodes := 0 } held [] net done
      (rest.take (rest.length - (fillBatch this tx.writeSet ∅ rest).2.length))
      (requestsOf (fillBatch this tx.writeSet ∅ rest).1)
      (requestsOf (fillBatch this tx.writeSet ∅ rest).1).length ∧
    rest = rest.take (rest.length - (fillBatch this tx.writeSet ∅ rest).2.length) ++
      (fillBatch this tx.writeSet ∅ rest).2 := by
  obtain ⟨batch, he, -, hf⟩ := fillBatch_spec this tx.writeSet rest
    filled_empty fun _ => by rw [slice_eq_nil.2 (by simp)]; decide
  rw [List.nil_append] at hf
  generalize (fillBatch this tx.writeSet ∅ rest).1 = arr at *
  generalize (fillBatch this tx.writeSet ∅ rest).2 = rest' at *
  have hb : rest.take (rest.length - rest'.length) = batch := by
    rw [he, List.length_append, Nat.add_sub_cancel, List.take_left]
  rw [hb]
  refine ⟨⟨hf.le, ?_, ?_, ?_, ?_, ?_, ?_⟩, he⟩
  · rw [h.net]
    exact fun p hp => absurd hp List.not_mem_nil
  · rintro q hq
    obtain ⟨e, hmem, rfl⟩ := List.mem_map.1 hq
    exact hf.buf _ _ (AList.mem_lookup_iff.2 hmem)
  · rw [h.net, List.length_nil, Nat.zero_add]
  · intro b
    rw [hf.perm_requests.count_eq, h.changed, h.held.count_eq, h.net, List.count_append]
    simp
  · rw [h.changed, h.net]
    exact fun b hb => absurd hb List.not_mem_nil
  · rw [h.changed, h.net]
    exact List.Perm.refl _

/-- A request is sent. -/
theorem Batch.send
    (h : Batch cfg t this batches tx held refused net done batch unsent requests) {node : ℕ}
    {buf : Buffer} (hk : unsent[k]? = some (node, buf)) :
    Batch cfg t this batches tx held refused
      (net ++ [⟨cfg.node t, node, buf, batches, .request 0 none []⟩]) done batch
      (unsent.eraseIdx k) requests := by
  have hbuf := h.unsent_eq _ (List.mem_of_getElem? hk)
  have hlen := (perm_eraseIdx hk).length_eq
  refine ⟨h.le, ?_, ?_, ?_, ?_, ?_, ?_⟩
  · intro p hp
    rcases List.mem_append.1 hp with hp | hp
    · exact h.packet p hp
    · rw [List.mem_singleton] at hp
      subst hp
      exact ⟨rfl, rfl, hbuf, Nat.zero_le _, fun w hw => by cases hw⟩
  · exact fun q hq => h.unsent_eq q (List.mem_of_mem_eraseIdx hq)
  · have := h.number
    rw [List.length_append, List.length_singleton]
    rw [List.length_cons] at hlen
    omega
  · intro b
    have hacc := h.account b
    rw [count_flatMap_eraseIdx hk] at hacc
    rw [List.flatMap_append, List.count_append, ← hacc]
    simp only [List.flatMap_singleton, Packet.objects, Packet.changed, Packet.pending,
      List.drop_zero, List.nil_append]
    omega
  · intro b hb
    refine h.changed_mem b ?_
    rwa [List.flatMap_append, List.flatMap_singleton, Packet.changed, List.append_nil] at hb
  · rw [List.flatMap_append, List.flatMap_singleton, Packet.changed, List.append_nil]
    exact h.refused_perm

/-- The handler takes a step with the `k`-th message: what the message no longer accounts for is
held, and what it reports as changed is recorded. -/
theorem Batch.setMsg
    (h : Batch cfg t this batches tx held refused net done batch unsent requests)
    (hk : net[k]? = some p) {m : Msg} (hm : ({ p with msg := m } : Packet).MsgOk)
    (hacc : ∀ b, (held'.map Prod.fst).count b +
        (({ p with msg := m } : Packet).objects tx.writeSet batch).count b =
      (held.map Prod.fst).count b + (p.objects tx.writeSet batch).count b)
    {l : List Word} (hnew : ({ p with msg := m } : Packet).changed = p.changed ++ l)
    (hmem : ∀ b ∈ l, b ∈ batch) (href : refused' = refused ++ l.map cfg.segs.lockLoc) :
    Batch cfg t this batches tx held' refused' (net.set k { p with msg := m }) done batch unsent
      requests := by
  have hp := List.mem_of_getElem? hk
  refine ⟨h.le, ?_, h.unsent_eq, ?_, ?_, ?_, ?_⟩
  · intro q hq
    rcases List.mem_or_eq_of_mem_set hq with hq | rfl
    · exact h.packet q hq
    · obtain ⟨hsrc, hbt, hbuf, -⟩ := h.packet p hp
      exact ⟨hsrc, hbt, hbuf, hm⟩
  · rw [List.length_set]
    exact h.number
  · intro b
    have hold := h.account b
    have hb := hacc b
    rw [count_flatMap_eraseIdx hk] at hold
    rw [count_flatMap_set hk]
    omega
  · intro b hb
    rw [List.mem_append, List.mem_flatMap] at hb
    have hall := h.changed_mem
    rcases hb with hb | ⟨q, hq, hb⟩
    · exact hall b (List.mem_append_left _ hb)
    · rcases List.mem_or_eq_of_mem_set hq with hq | rfl
      · exact hall b (List.mem_append_right _ (List.mem_flatMap.2 ⟨q, hq, hb⟩))
      · rw [hnew, List.mem_append] at hb
        rcases hb with hb | hb
        · exact hall b (List.mem_append_right _ (List.mem_flatMap.2 ⟨p, hp, hb⟩))
        · exact hmem b hb
  · have hperm : (tx.rlChangedObjects ++
        (net.set k { p with msg := m }).flatMap Packet.changed).Perm
        (tx.rlChangedObjects ++ net.flatMap Packet.changed ++ l) := by
      rw [List.perm_iff_count]
      intro b
      rw [List.count_append, List.count_append, List.count_append, count_flatMap_set hk, hnew,
        count_flatMap_eraseIdx hk, List.count_append]
      omega
    rw [href]
    refine ((h.refused_perm.append_right _).trans ?_).trans (hperm.map _).symm
    rw [← List.map_append]

/-- A reply is delivered. -/
theorem Batch.deliver
    (h : Batch cfg t this batches tx held refused net done batch unsent requests)
    (hk : net[k]? = some p) {ptr : Word} {changed : List Word} (hm : p.msg = .reply ptr changed) :
    Batch cfg t this batches { tx with
        rlNodes := tx.rlNodes + 1
        rlChangedObjects := tx.rlChangedObjects ++ changed }
      held refused (net.eraseIdx k) done batch unsent requests := by
  have hlen := (perm_eraseIdx hk).length_eq
  have hpc : p.changed = changed := by rw [Packet.changed, hm]
  have hobj : p.objects tx.writeSet batch = changed := by
    rw [Packet.objects, hpc, Packet.pending, hm, List.append_nil]
  refine ⟨h.le, fun q hq => h.packet q (List.mem_of_mem_eraseIdx hq), h.unsent_eq, ?_, ?_, ?_, ?_⟩
  · have := h.number
    rw [List.length_cons] at hlen
    dsimp only
    omega
  · intro b
    have hold := h.account b
    rw [count_flatMap_eraseIdx hk, hobj] at hold
    dsimp only
    rw [List.count_append]
    omega
  · intro b hb
    refine h.changed_mem b ?_
    rw [List.append_assoc, List.mem_append, List.mem_append] at hb
    rw [List.mem_append, (((perm_eraseIdx hk).flatMap_right Packet.changed).mem_iff),
      List.flatMap_cons, List.mem_append, hpc]
    exact hb
  · refine h.refused_perm.trans (List.Perm.map _ ?_)
    rw [List.append_assoc]
    refine List.Perm.append_left _ ?_
    have := (perm_eraseIdx hk).flatMap_right Packet.changed
    rwa [List.flatMap_cons, hpc] at this

/-- The object that the handler is at: an object of the batch, found by its untagged address. -/
theorem Batch.object
    (h : Batch cfg t this batches tx held refused net done batch unsent requests)
    (hcell : ∀ b ∈ batch, cfg.segs.IsCell b) (hp : p ∈ net) {i : ℕ} {old : Option Word}
    {changed : List Word} (hm : p.msg = .request i old changed) (hi : i < p.buf.count) :
    ∃ b ∈ batch, changedObj p.node (p.buf.objAddr i) = b ∧
      lockOf cfg.segs p.node (p.buf.objAddr i) = cfg.segs.lockLoc b ∧
      p.buf.version i = entryTs tx.writeSet b ∧
      p.pending tx.writeSet batch =
        b :: ((slice tx.writeSet p.node batch).drop (i + 1)).map Prod.fst := by
  have hle := h.le p.node
  obtain ⟨-, -, hbuf, -⟩ := h.packet p hp
  rw [hbuf, count_encode hle] at hi
  obtain ⟨b, hb, hget⟩ := List.mem_map.1 (List.getElem_mem hi)
  obtain ⟨hb, hn⟩ := List.mem_filter.1 hb
  have hn : nodeFromAddress b = p.node := by simpa using hn
  have hc := hcell b hb
  rw [hbuf, objAddr_encode hi, version_encode hle hi, ← hget]
  refine ⟨b, hb, ?_, ?_, rfl, ?_⟩
  · rw [changedObj, ← hn]
    exact retag hc.untagged
  · rw [lockOf, ← hn]
    exact hc.toInHeap.lockLoc_home
  · rw [Packet.pending, hm]
    dsimp only
    rw [List.drop_eq_getElem_cons hi, List.map_cons, ← hget]

/-- The handler loads a lock word that passes its test. -/
theorem Batch.load
    (h : Batch cfg t this batches tx held refused net done batch unsent requests)
    (hk : net[k]? = some p) {i : ℕ} {changed : List Word} (hm : p.msg = .request i none changed)
    (hi : i < p.buf.count) {w : Word} (ho : isRefused w (p.buf.version i) = false) :
    Batch cfg t this batches tx held refused
      (net.set k { p with msg := .request i (some w) changed }) done batch unsent requests := by
  refine h.setMsg hk ⟨hi.le, fun w hw => ?_⟩ (fun b => ?_) (l := []) ?_
    (fun _ hb => absurd hb List.not_mem_nil) (List.append_nil _).symm
  · cases hw
    exact ho
  · simp only [Packet.objects, Packet.changed, Packet.pending, hm]
  · simp only [Packet.changed, hm, List.append_nil]

/-- The handler refuses an object, which the message then reports. -/
theorem Batch.refuse
    (h : Batch cfg t this batches tx held refused net done batch unsent requests)
    (hcell : ∀ b ∈ batch, cfg.segs.IsCell b) (hk : net[k]? = some p) {i : ℕ} {old : Option Word}
    {changed : List Word} (hm : p.msg = .request i old changed) (hi : i < p.buf.count) :
    Batch cfg t this batches tx held (refused ++ [lockOf cfg.segs p.node (p.buf.objAddr i)])
      (net.set k { p with
        msg := .request (i + 1) none (changed ++ [changedObj p.node (p.buf.objAddr i)]) })
      done batch unsent requests := by
  obtain ⟨b, hbm, hobj, hlock, -, hpend⟩ := h.object hcell (List.mem_of_getElem? hk) hm hi
  rw [hobj, hlock]
  refine h.setMsg hk ⟨hi, fun w hw => by cases hw⟩ (fun c => ?_) (l := [b]) ?_
    (fun c hc => List.mem_singleton.1 hc ▸ hbm) rfl
  · simp only [Packet.objects, Packet.changed, hm, hpend]
    simp only [Packet.pending, List.append_assoc, List.singleton_append]
  · simp only [Packet.changed, hm]

/-- The handler grants an object, which is held from then on. -/
theorem Batch.grant
    (h : Batch cfg t this batches tx held refused net done batch unsent requests)
    (hcell : ∀ b ∈ batch, cfg.segs.IsCell b) (hk : net[k]? = some p) {i : ℕ} {old : Option Word}
    {changed : List Word} (hm : p.msg = .request i old changed) (hi : i < p.buf.count) (w : Word) :
    Batch cfg t this batches tx (held ++ [(changedObj p.node (p.buf.objAddr i), w)]) refused
      (net.set k { p with msg := .request (i + 1) none changed }) done batch unsent requests := by
  obtain ⟨b, hbm, hobj, hlock, -, hpend⟩ := h.object hcell (List.mem_of_getElem? hk) hm hi
  rw [hobj]
  refine h.setMsg hk ⟨hi, fun w hw => by cases hw⟩ (fun c => ?_) (l := []) ?_
    (fun _ hc => absurd hc List.not_mem_nil) (List.append_nil _).symm
  · simp only [Packet.objects, Packet.changed, hm, hpend]
    simp only [Packet.pending, List.map_append, List.count_append, List.map_cons, List.map_nil,
      List.count_cons, List.count_nil]
    omega
  · simp only [Packet.changed, hm, List.append_nil]

/-- The handler has been through all objects and replies. -/
theorem Batch.reply
    (h : Batch cfg t this batches tx held refused net done batch unsent requests)
    (hk : net[k]? = some p) {i : ℕ} {old : Option Word} {changed : List Word}
    (hm : p.msg = .request i old changed) (hi : p.buf.count ≤ i) :
    Batch cfg t this batches tx held refused
      (net.set k { p with msg := .reply p.buf.tx changed }) done batch unsent requests := by
  have hnil : (slice tx.writeSet p.node batch).drop i = [] := by
    rw [(h.packet p (List.mem_of_getElem? hk)).2.2.1, count_encode (h.le _)] at hi
    exact List.drop_eq_nil_of_le hi
  refine h.setMsg hk rfl (fun b => ?_) (l := []) ?_
    (fun _ hb => absurd hb List.not_mem_nil) (List.append_nil _).symm
  · simp only [Packet.objects, Packet.changed, Packet.pending, hm, hnil, List.map_nil]
  · simp only [Packet.changed, hm, List.append_nil]

/-- An object is either held or refused, and neither before its turn has come. -/
theorem Batch.turn
    (h : Batch cfg t this batches tx held refused net done batch unsent requests)
    (hd : (done ++ batch).Nodup) (b : Word) :
    (b ∈ held.map Prod.fst → b ∉ tx.rlChangedObjects ++ net.flatMap Packet.changed) ∧
    (b ∈ net.flatMap (Packet.pending tx.writeSet batch) → b ∉ held.map Prod.fst ∧
      b ∉ tx.rlChangedObjects ++ net.flatMap Packet.changed) := by
  have hacc := h.account b
  have hle := List.nodup_iff_count_le_one.1 hd b
  have hobj : (net.flatMap (Packet.objects tx.writeSet batch)).count b =
      (net.flatMap Packet.changed).count b +
        (net.flatMap (Packet.pending tx.writeSet batch)).count b := by
    rw [List.count_flatMap, List.count_flatMap, List.count_flatMap, ← List.sum_map_add]
    refine congrArg List.sum (List.map_congr_left fun p _ => ?_)
    exact List.count_append
  simp only [← List.count_pos_iff, List.count_append]
  omega

/-- When the wait ends, no message is under way any more. -/
theorem Batch.net_eq_nil
    (h : Batch cfg t this batches tx held refused net done batch [] requests)
    (hn : requests ≤ tx.rlNodes) : net = [] ∧ tx.rlNodes = requests := by
  have := h.number
  rw [List.length_nil] at this
  exact ⟨List.length_eq_zero_iff.1 (by omega), by omega⟩

/-- When the wait ends, the objects that were not reported back are held. -/
theorem Batch.held_perm
    (h : Batch cfg t this batches tx held refused net done batch [] requests)
    (hn : requests ≤ tx.rlNodes) (hd : (done ++ batch).Nodup) :
    (held.map Prod.fst).Perm ((done ++ batch).filter fun b => !tx.rlChangedObjects.contains b) := by
  rw [List.perm_iff_count]
  intro b
  have hacc := h.account b
  have hle := List.nodup_iff_count_le_one.1 hd b
  rw [(h.net_eq_nil hn).1] at hacc
  simp only [List.flatMap_nil, List.count_nil, Nat.add_zero] at hacc
  by_cases hb : b ∈ tx.rlChangedObjects
  · have hpos := List.count_pos_iff.2 hb
    have hnot : b ∉ (done ++ batch).filter fun b => !tx.rlChangedObjects.contains b := fun hm => by
      simpa [hb] using (List.mem_filter.1 hm).2
    rw [List.count_eq_zero.2 hnot]
    omega
  · rw [List.count_filter (by simpa using hb), ← hacc, List.count_eq_zero.2 hb, Nat.add_zero]

end

/-! ## Every step keeps the account -/

section
variable {cfg : Config} {σ σ' : Sys cfg.segs} {t : Tid} {a : Act cfg.segs}

/-- A fact about thread `t` in the form in which the rules give its new state. -/
theorem LocalOk.lift {th : Thread cfg.segs} {me : Attempt cfg.segs} {net : List Packet}
    (h : LocalOk cfg t th me net) (hth : σ'.th = (σ.upd t th me).th)
    (hatt : σ'.att = (σ.upd t th me).att) (hnet : σ'.net t = net) :
    LocalOk cfg t (σ'.th t) (σ'.me t) (σ'.net t) := by
  have h1 : σ'.th t = th := by rw [hth, Sys.upd_th]
  have h2 : σ'.me t = me := by
    rw [Sys.me, Sys.cur, h1, hatt]
    exact Function.update_self ..
  rwa [h1, h2, hnet]

/-- What `t` holds between two calls, and in a call that may abort. -/
theorem PcOk.calling {th : Thread cfg.segs} {me : Attempt cfg.segs} {net : List Packet}
    (h : PcOk cfg t th me net) (hpc : th.pc.calling = true) :
    HasLocks th.tx.rlChangedObjects me.held net [] := by
  rw [PcOk] at h
  split at h <;> rename_i hp <;> rw [hp] at hpc <;> first
    | exact h
    | exact h.1
    | cases hpc

/-- The batch that is under way while messages are. -/
theorem PcOk.batch {th : Thread cfg.segs} {me : Attempt cfg.segs} {net : List Packet}
    (h : PcOk cfg t th me net) {p : Packet} (hp : p ∈ net) :
    ∃ o done batch rest unsent requests this, th.this = some this ∧ o.Of th.tx ∧
      o.ws = done ++ batch ++ rest ∧
      Batch cfg t this th.batches th.tx me.held me.refused net done batch unsent requests ∧
      (th.pc = .requestLocks o done batch rest unsent requests ∨
        unsent = [] ∧ th.pc = .waitLocks o done batch rest requests) := by
  have hne : net ≠ [] := List.ne_nil_of_mem hp
  cases hpc : th.pc with
  | requestLocks o done batch rest unsent requests =>
    simp only [PcOk, hpc] at h
    obtain ⟨ho, hws, this, hthis, hb⟩ := h
    exact ⟨o, done, batch, rest, unsent, requests, this, hthis, ho, hws, hb, .inl rfl⟩
  | waitLocks o done batch rest requests =>
    simp only [PcOk, hpc] at h
    obtain ⟨ho, hws, this, hthis, hb⟩ := h
    exact ⟨o, done, batch, rest, [], requests, this, hthis, ho, hws, hb, .inr ⟨rfl, rfl⟩⟩
  | idle => simp only [PcOk, hpc] at h; exact absurd h.net hne
  | getLocks | validateAll | getNextClock =>
    simp only [PcOk, hpc] at h
    first | exact absurd h.2.net hne | exact absurd h.2.2.net hne
  | releaseLocks | releaseLocksWithNewClock =>
    simp only [PcOk, hpc] at h
    first | exact absurd h.1 hne | exact absurd h.1.net hne
  | commitWriteSetValues => simp only [PcOk, hpc] at h; exact absurd h.2.1.net hne
  | _ => exact absurd (h.calling (by rw [hpc]; rfl)).net hne

/-- The steps that only move a thread on keep the account. -/
theorem Goes.pcOk {pc : Pc cfg.segs} (hg : Goes cfg σ t pc)
    (h : PcOk cfg t (σ.th t) (σ.me t) (σ.net t)) :
    PcOk cfg t { σ.th t with pc := pc } (σ.me t) (σ.net t) := by
  cases hg with
  | fetch op hpc hs => exact h.calling (by rw [hpc]; rfl)
  | readVersion hpc hl => exact ⟨h.calling (by rw [hpc]; rfl), isLocked_eq_false.1 hl⟩
  | readPiece off n hpc => simpa only [PcOk, hpc] using h
  | retry hpc => exact h.calling (by rw [hpc]; rfl)
  | clockRead hpc hb => simpa only [PcOk, hpc] using h
  | clockKept hpc hb => simpa only [PcOk, hpc] using h
  | clockRetry hpc => simpa only [PcOk, hpc] using h
  | validate o hpc hc hn ho => simpa only [PcOk, hpc] using h
  | looked hpc => simpa only [PcOk, hpc] using h
  | valid hpc hc => simpa only [PcOk, hpc] using h
  | commit o hpc ho => exact ⟨ho, rfl, h.calling (by rw [hpc]; rfl)⟩
  | wait hpc => simpa only [PcOk, hpc] using h
  | granted hpc hn hc =>
    simp only [PcOk, hpc] at h
    obtain ⟨ho, hws, this, hthis, hb⟩ := h
    have hnd : (_ ++ _ : List Word).Nodup :=
      (List.nodup_append.1 (hws ▸ ho.ws.nodup_iff.2 (AList.keys_nodup _))).1
    refine ⟨ho, hws, (hb.net_eq_nil hn).1, hc, ?_⟩
    have := hb.held_perm hn hnd
    rwa [hc, List.filter_eq_self.2 (by simp)] at this
  | refused hpc hn hc =>
    simp only [PcOk, hpc] at h
    obtain ⟨ho, hws, this, hthis, hb⟩ := h
    have hnd : (_ ++ _ : List Word).Nodup :=
      (List.nodup_append.1 (hws ▸ ho.ws.nodup_iff.2 (AList.keys_nodup _))).1
    refine ⟨(hb.net_eq_nil hn).1, hnd, fun b hb => ?_, hb.held_perm hn hnd⟩
    exact AList.mem_keys.2 (ho.ws.mem_iff.1 (hws ▸ List.mem_append_left _ hb))
  | skip hpc hb =>
    simp only [PcOk, hpc] at h
    obtain ⟨hnet, hnd, hmem, hperm⟩ := h
    refine ⟨hnet, (List.nodup_cons.1 hnd).2, fun b hb => hmem b (List.mem_cons_of_mem _ hb), ?_⟩
    rwa [List.filter_cons_of_neg (by simpa using hb)] at hperm
  | lookedAll hpc => simpa only [PcOk, hpc] using h
  | validAll hpc hc => simpa only [PcOk, hpc] using h
  | putNext hpc =>
    simp only [PcOk, hpc] at h
    exact ⟨h.1, h.2.1, (List.suffix_cons _ _).trans h.2.2.1, List.Subset.refl _⟩
  | putAll hpc =>
    simp only [PcOk, hpc] at h
    exact ⟨h.1, h.2.1⟩
  | nextRead hpc => simpa only [PcOk, hpc] using h
  | nextRetry hpc => simpa only [PcOk, hpc] using h

theorem PcOk.of_batch {th : Thread cfg.segs} {me : Attempt cfg.segs} {net : List Packet}
    {o : Tx.Orders} {done batch rest : List Word} {unsent : List (ℕ × Buffer)} {requests : ℕ}
    {this : Word} (hthis : th.this = some this) (ho : o.Of th.tx)
    (hws : o.ws = done ++ batch ++ rest)
    (hb : Batch cfg t this th.batches th.tx me.held me.refused net done batch unsent requests)
    (hpc : th.pc = .requestLocks o done batch rest unsent requests ∨
      unsent = [] ∧ th.pc = .waitLocks o done batch rest requests) : PcOk cfg t th me net := by
  rcases hpc with hpc | ⟨rfl, hpc⟩ <;> simp only [PcOk, hpc] <;> exact ⟨ho, hws, this, hthis, hb⟩

/-- The objects of a batch are cells. -/
theorem LocalOk.isCell {th : Thread cfg.segs} {me : Attempt cfg.segs} {net : List Packet}
    (h : LocalOk cfg t th me net) {o : Tx.Orders} (ho : o.Of th.tx) {b : Word} (hb : b ∈ o.ws) :
    cfg.segs.IsCell b := by
  obtain ⟨e, he⟩ := exists_lookup (AList.mem_keys.2 (ho.ws.mem_iff.1 hb))
  exact (h.tx.write b e he).1

/-- A lock is given back. -/
theorem held_filter {held : List (Word × Word)} {b : Word} {l : List Word}
    (h : (held.map Prod.fst).Perm (b :: l)) (hb : b ∉ l) :
    ((held.filter fun e => e.1 ≠ b).map Prod.fst).Perm l := by
  have hmap : (held.filter fun e => e.1 ≠ b).map Prod.fst =
      (held.map Prod.fst).filter fun c => c ≠ b := by
    rw [List.filter_map]
    rfl
  have hl : (b :: l).filter (fun c => c ≠ b) = l := by
    rw [List.filter_cons_of_neg (by simp), List.filter_eq_self.2]
    exact fun c hc => by simpa using fun h : c = b => hb (h ▸ hc)
  rw [hmap]
  have := h.filter fun c => decide (c ≠ b)
  rwa [hl] at this

/-- The reply to a request finds the descriptor that sent it. -/
theorem LocalOk.desc (h : LocalOk cfg t (σ.th t) (σ.me t) (σ.net t)) (hd : σ.DescsOk cfg)
    {p : Packet} (hp : p ∈ σ.net t) {tx : Word} {changed : List Word}
    (hm : p.msg = .reply tx changed) : σ.descs p.src tx = some t := by
  obtain ⟨o, done, batch, rest, unsent, requests, this, hthis, -, -, hb, -⟩ := h.pc.batch hp
  obtain ⟨hsrc, -, hbuf, hok⟩ := hb.packet p hp
  rw [Packet.MsgOk, hm] at hok
  have htx : tx = this := by rw [show tx = p.buf.tx from hok, hbuf, tx_encode]
  rw [hsrc, htx]
  exact (hd t this).1 hthis

/-- `getLocks` begins a batch. -/
theorem LocalOk.batch {th : Thread cfg.segs} {me : Attempt cfg.segs} {net : List Packet}
    (h : LocalOk cfg t th me net) {o : Tx.Orders} {done rest : List Word} {this : Word}
    (hpc : th.pc = .getLocks o done rest) (hthis : th.this = some this) :
    LocalOk cfg t
      { th with
        tx := { th.tx with rlNodes := 0 }
        pc := .requestLocks o done
          (rest.take (rest.length - (fillBatch this th.tx.writeSet ∅ rest).2.length))
          (fillBatch this th.tx.writeSet ∅ rest).2
          (requestsOf (fillBatch this th.tx.writeSet ∅ rest).1)
          (requestsOf (fillBatch this th.tx.writeSet ∅ rest).1).length
        batches := th.batches + 1 }
      { me with refused := [] } net := by
  have hl := h.pc
  simp only [PcOk, hpc] at hl
  obtain ⟨ho, hws, hl⟩ := hl
  obtain ⟨hb, hrest⟩ := Batch.start this (th.batches + 1) rest hl
  refine ⟨h.tx.congr rfl rfl rfl, ⟨ho.rs, ho.ws, ho.vs⟩, ?_, this, hthis, hb⟩
  rw [List.append_assoc, ← hrest]
  exact hws

/-- What a handler does with a message, it does with one of the batch under way. -/
theorem LocalOk.handle {th : Thread cfg.segs} {me me' : Attempt cfg.segs} {net net' : List Packet}
    (h : LocalOk cfg t th me net) {p : Packet} (hp : p ∈ net)
    (hb : ∀ {this done batch unsent requests},
      Batch cfg t this th.batches th.tx me.held me.refused net done batch unsent requests →
      (∀ b ∈ batch, cfg.segs.IsCell b) →
      Batch cfg t this th.batches th.tx me'.held me'.refused net' done batch unsent requests) :
    LocalOk cfg t th me' net' := by
  obtain ⟨o, done, batch, rest, unsent, requests, this, hthis, ho, hws, hbatch, hpc⟩ :=
    h.pc.batch hp
  refine ⟨h.tx, .of_batch hthis ho hws (hb hbatch fun b hm => h.isCell ho ?_) hpc⟩
  rw [hws]
  exact List.mem_append_left _ (List.mem_append_right _ hm)

/-- A reply is delivered to the thread that waits for it. -/
theorem LocalOk.deliver {th : Thread cfg.segs} {me : Attempt cfg.segs} {net : List Packet}
    (h : LocalOk cfg t th me net) {k : ℕ} {p : Packet} {ptr : Word} {changed : List Word}
    (hk : net[k]? = some p) (hm : p.msg = .reply ptr changed) :
    LocalOk cfg t
      { th with tx := { th.tx with
          rlNodes := th.tx.rlNodes + 1
          rlChangedObjects := th.tx.rlChangedObjects ++ changed } }
      me (net.eraseIdx k) := by
  obtain ⟨o, done, batch, rest, unsent, requests, this, hthis, ho, hws, hb, hpc⟩ :=
    h.pc.batch (List.mem_of_getElem? hk)
  exact ⟨h.tx.congr rfl rfl rfl,
    .of_batch hthis ⟨ho.rs, ho.ws, ho.vs⟩ hws (hb.deliver hk hm) hpc⟩

/-- A step keeps the account of the thread whose step it is. -/
theorem Rule.localOk (hr : Rule cfg σ a σ')
    (h : ∀ t, LocalOk cfg t (σ.th t) (σ.me t) (σ.net t)) (hd : σ.DescsOk cfg) :
    LocalOk cfg a.tid (σ'.th a.tid) (σ'.me a.tid) (σ'.net a.tid) := by
  cases hr with
  | @goto _ t _ ha hc hg =>
    subst ha
    refine LocalOk.lift (σ := σ) ?_ rfl rfl rfl
    exact ⟨(h _).tx, hg.pcOk (h _).pc⟩
  | @new t ptr hpc hc hthis hdesc =>
    have hl := (h t).pc
    simp only [PcOk, hpc] at hl
    refine LocalOk.lift (σ := σ) ?_ rfl rfl rfl
    refine ⟨.new, ?_⟩
    simp only [PcOk, hpc]
    exact ⟨hl.net, rfl, hl.held⟩
  | @begin t ptr hpc hc hthis =>
    have hl := (h t).pc
    simp only [PcOk, hpc] at hl
    refine LocalOk.lift (σ := σ) ?_ rfl rfl rfl
    exact ⟨(h t).tx.congr rfl rfl rfl, hl.net, rfl, List.Perm.refl _⟩
  | @delete t ptr hpc hc hthis =>
    have hl := (h t).pc
    simp only [PcOk, hpc] at hl
    refine LocalOk.lift (σ := σ) ?_ rfl rfl rfl
    refine ⟨(h t).tx, ?_⟩
    simp only [PcOk, hpc]
    exact hl
  | @addVersion t b ts hc =>
    refine LocalOk.lift (σ := σ) ?_ rfl rfl rfl
    exact ⟨(h t).tx, (h t).pc⟩
  | @served t op tx r hpc hc hs =>
    have hl := (h t).pc
    simp only [PcOk, hpc] at hl
    refine LocalOk.lift (σ := σ) ?_ rfl rfl rfl
    refine ⟨(h t).tx.served hs, ?_⟩
    simp only [PcOk, hpc]
    exact ⟨hl.net, (Tx.served_eq hs).1.trans hl.changed, hl.held⟩
  | @abort _ t v hpc hc ha hv =>
    subst ha
    have hl := (h _).pc.calling hpc
    refine LocalOk.lift (σ := σ) ?_ rfl rfl rfl
    exact ⟨.clear _, hl.net, hl.changed, hl.held⟩
  | @fetched t c op ts buf hpc hc hlk heq =>
    have hl := (h t).pc
    simp only [PcOk, hpc] at hl
    refine LocalOk.lift (σ := σ) ?_ rfl rfl rfl
    exact ⟨(h t).tx.fetched hl.2 buf,
      ⟨hl.1.net, (Tx.fetched_eq ts buf).1.trans hl.1.changed, hl.1.held⟩, hl.2⟩
  | @clockRaised t c op ts buf hpc hc =>
    have hl := (h t).pc
    simp only [PcOk, hpc] at hl
    refine LocalOk.lift (σ := σ) ?_ rfl rfl rfl
    exact ⟨(h t).tx, hl⟩
  | @finish t c op ts buf hpc hc hcf hn =>
    have hl := (h t).pc
    simp only [PcOk, hpc] at hl
    refine LocalOk.lift (σ := σ) ?_ rfl rfl rfl
    exact ⟨(h t).tx.finished hl.2 _,
      hl.1.net, (Tx.finished_eq ts _).1.trans hl.1.changed, hl.1.held⟩
  | @finishValid t c op ts buf looked hpc hc =>
    have hl := (h t).pc
    simp only [PcOk, hpc] at hl
    have htx : Tx.Ok cfg.segs ((σ.th t).tx.setVC ts) := (h t).tx.congr rfl rfl rfl
    refine LocalOk.lift (σ := σ) ?_ rfl rfl rfl
    exact ⟨htx.finished hl.2 _,
      hl.1.net, (Tx.finished_eq ts _).1.trans hl.1.changed, hl.1.held⟩
  | @lockPoint t c o done hpc hc =>
    have hl := (h t).pc
    simp only [PcOk, hpc, List.append_nil] at hl
    obtain ⟨ho, hws, hl⟩ := hl
    refine LocalOk.lift (σ := σ) ?_ rfl rfl rfl
    exact ⟨(h t).tx, ho, hws ▸ hl⟩
  | @batch t c o done rest this hpc hne hc hthis =>
    exact LocalOk.lift (σ := σ) ((h t).batch hpc hthis) rfl rfl rfl
  | @send t c o done batch rest unsent requests k node buf hpc hc hk =>
    have hl := (h t).pc
    simp only [PcOk, hpc] at hl
    obtain ⟨ho, hws, this, hthis, hb⟩ := hl
    refine LocalOk.lift (σ := σ) ?_ rfl rfl (Function.update_self ..)
    exact ⟨(h t).tx, ho, hws, this, hthis, hb.send hk⟩
  | @released t c hpc hc =>
    have hl := (h t).pc
    simp only [PcOk, hpc] at hl
    obtain ⟨hnet, -, -, hperm⟩ := hl
    refine LocalOk.lift (σ := σ) ?_ rfl rfl rfl
    exact ⟨.clear _, hnet, rfl, hperm⟩
  | @restore t c b left hpc hc hb =>
    have hl := (h t).pc
    simp only [PcOk, hpc] at hl
    obtain ⟨hnet, hnd, hmem, hperm⟩ := hl
    obtain ⟨hnb, hnd⟩ := List.nodup_cons.1 hnd
    rw [List.filter_cons_of_pos (by simpa using hb)] at hperm
    refine LocalOk.lift (σ := σ) ?_ rfl rfl rfl
    exact ⟨(h t).tx, hnet, hnd, fun c hc => hmem c (List.mem_cons_of_mem _ hc),
      held_filter hperm fun hm => hnb (List.mem_filter.1 hm).1⟩
  | @validated t c o looked hpc hc =>
    have hl := (h t).pc
    simp only [PcOk, hpc] at hl
    refine LocalOk.lift (σ := σ) ?_ rfl rfl rfl
    exact ⟨(h t).tx, hl.1, hl.2, List.suffix_refl _, List.Subset.refl _⟩
  | @invalid t c o b e left looked v hpc hc hv =>
    have hl := (h t).pc
    simp only [PcOk, hpc] at hl
    obtain ⟨ho, hl⟩ := hl
    refine LocalOk.lift (σ := σ) ?_ rfl rfl rfl
    refine ⟨(h t).tx, hl.net, ho.ws.nodup_iff.2 (AList.keys_nodup _),
      fun b hb => AList.mem_keys.2 (ho.ws.mem_iff.1 hb), ?_⟩
    rw [List.filter_eq_self.2 (by simp [hl.changed])]
    exact hl.held
  | @put t c o p puts left off n hpc hc =>
    have hl := (h t).pc
    simp only [PcOk, hpc] at hl
    refine LocalOk.lift (σ := σ) ?_ rfl rfl rfl
    exact ⟨(h t).tx, hl.1, hl.2.1, hl.2.2.1, fun k hk => hl.2.2.2 (List.mem_filter.1 hk).1⟩
  | @issue t c o hpc hc =>
    have hl := (h t).pc
    simp only [PcOk, hpc] at hl
    obtain ⟨ho, hl⟩ := hl
    refine LocalOk.lift (σ := σ) ?_ rfl rfl rfl
    exact ⟨(h t).tx, hl, ho.ws.nodup_iff.2 (AList.keys_nodup _),
      fun b hb => AList.mem_keys.2 (ho.ws.mem_iff.1 hb), rfl⟩
  | @release t c version b left hpc hc =>
    have hl := (h t).pc
    simp only [PcOk, hpc] at hl
    obtain ⟨hl, hnd, hmem, hv⟩ := hl
    obtain ⟨hnb, hnd⟩ := List.nodup_cons.1 hnd
    refine LocalOk.lift (σ := σ) ?_ rfl rfl rfl
    exact ⟨(h t).tx, ⟨hl.net, hl.changed, held_filter hl.held hnb⟩, hnd,
      fun c hc => hmem c (List.mem_cons_of_mem _ hc), hv⟩
  | @committed t c version hpc hc =>
    have hl := (h t).pc
    simp only [PcOk, hpc] at hl
    refine LocalOk.lift (σ := σ) ?_ rfl rfl rfl
    exact ⟨.clear _, hl.1.net, hl.1.changed, hl.1.held⟩
  | @load t k p i changed hk hm hi ho =>
    show LocalOk cfg t (σ.th t) (σ.me t) ((σ.setMsg t k p _).net t)
    rw [Sys.setMsg_net]
    exact (h t).handle (List.mem_of_getElem? hk) fun hb _ => hb.load hk hm hi ho
  | @refuse t k p i old changed hk hm hi =>
    refine LocalOk.lift (σ := σ) ?_ rfl rfl (Function.update_self ..)
    exact (h t).handle (List.mem_of_getElem? hk) fun hb hcell => hb.refuse hcell hk hm hi
  | @grant t k p i old changed hk hm hi ho =>
    refine LocalOk.lift (σ := σ) ?_ rfl rfl (Function.update_self ..)
    exact (h t).handle (List.mem_of_getElem? hk) fun hb hcell => hb.grant hcell hk hm hi old
  | @reply t k p i old changed hk hm hi =>
    show LocalOk cfg t (σ.th t) (σ.me t) ((σ.setMsg t k p _).net t)
    rw [Sys.setMsg_net]
    exact (h t).handle (List.mem_of_getElem? hk) fun hb _ => hb.reply hk hm hi
  | @deliver t t' k p tx changed hk hm hdesc =>
    obtain rfl : t' = t :=
      Option.some_inj.1 (hdesc.symm.trans ((h t).desc hd (List.mem_of_getElem? hk) hm))
    exact LocalOk.lift (σ := σ) ((h t').deliver hk hm) rfl rfl (Function.update_self ..)
  | @lost t k p tx changed hk hm hdesc =>
    rw [(h t).desc hd (List.mem_of_getElem? hk) hm] at hdesc
    cases hdesc

theorem update_this {th : Thread cfg.segs} (h : th.this = (σ.th t).this) (t' : Tid) :
    (Function.update σ.th t th t').this = (σ.th t').this := by
  by_cases ht : t' = t
  · rw [ht, Function.update_self, h]
  · rw [Function.update_of_ne ht]

/-- Descriptors are live from `new` to `delete`. -/
theorem Rule.descsOk (hr : Rule cfg σ a σ') (hd : σ.DescsOk cfg) : σ'.DescsOk cfg := by
  have hkeep : (∀ t, (σ'.th t).this = (σ.th t).this) → σ'.descs = σ.descs →
      σ'.DescsOk cfg := fun h1 h2 t ptr => by rw [h1, h2]; exact hd t ptr
  cases hr with
  | @new t ptr hpc hc hthis hdesc =>
    intro t' ptr'
    by_cases ht : t' = t
    · subst ht
      simp only [Sys.upd_th, Option.some.injEq, Function.update_self]
      by_cases hp : ptr' = ptr
      · subst hp
        simp
      · rw [Function.update_of_ne hp, ← hd t' ptr', hthis]
        exact ⟨fun h => absurd h.symm hp, fun h => by cases h⟩
    · simp only [Sys.upd_th_ne ht, hd t' ptr']
      by_cases hn : cfg.node t' = cfg.node t
      · rw [hn, Function.update_self]
        by_cases hp : ptr' = ptr
        · subst hp
          rw [hdesc, Function.update_self]
          exact ⟨fun h => (by cases h), fun h => absurd (Option.some_inj.1 h).symm ht⟩
        · rw [Function.update_of_ne hp]
      · rw [Function.update_of_ne hn]
  | @delete t ptr hpc hc hthis =>
    intro t' ptr'
    by_cases ht : t' = t
    · subst ht
      simp only [Sys.upd_th, Function.update_self]
      by_cases hp : ptr' = ptr
      · subst hp
        simp
      · rw [Function.update_of_ne hp, ← hd t' ptr', hthis]
        exact ⟨fun h => (by cases h), fun h => absurd (Option.some_inj.1 h).symm hp⟩
    · simp only [Sys.upd_th_ne ht, hd t' ptr']
      by_cases hn : cfg.node t' = cfg.node t
      · rw [hn, Function.update_self]
        by_cases hp : ptr' = ptr
        · subst hp
          have := (hd t ptr').1 hthis
          rw [this, Function.update_self]
          exact ⟨fun h => absurd (Option.some_inj.1 h).symm ht, fun h => by cases h⟩
        · rw [Function.update_of_ne hp]
      · rw [Function.update_of_ne hn]
  | load | reply | lost => exact hkeep (fun _ => rfl) rfl
  | @deliver t t' k p tx changed hk hm hdesc => exact hkeep (update_this rfl) rfl
  | _ => exact hkeep (update_this rfl) rfl

/-- Replies find the thread that sent the request. -/
theorem delivers (h : ∀ t, LocalOk cfg t (σ.th t) (σ.me t) (σ.net t)) (hd : σ.DescsOk cfg) :
    σ.Delivers := by
  intro t t' k p tx changed hk hm hdesc
  rw [(h t).desc hd (List.mem_of_getElem? hk) hm] at hdesc
  exact (Option.some_inj.1 hdesc).symm

/-- What holds of all threads. -/
structure Sys.Ok (cfg : Config) (σ : Sys cfg.segs) : Prop where
  local_ok : ∀ t, LocalOk cfg t (σ.th t) (σ.me t) (σ.net t)
  descs : σ.DescsOk cfg
  no_fault : σ.fault = false

theorem Sys.Ok.init (objs : Flat) : (Sys.init cfg.segs objs).Ok cfg where
  local_ok _ := ⟨.new, rfl, rfl, List.Perm.refl _⟩
  descs _ _ := ⟨fun h => (by cases h), fun h => by cases h⟩
  no_fault := rfl

theorem Sys.Ok.step (h : σ.Ok cfg) (hr : Rule cfg σ a σ') : σ'.Ok cfg where
  local_ok t := by
    have hs := hr.sameBut (delivers h.local_ok h.descs)
    by_cases ht : t = a.tid
    · subst ht
      exact hr.localOk h.local_ok h.descs
    · rw [hs.th t ht, hs.me ht, hs.net t ht]
      exact h.local_ok t
  descs := hr.descsOk h.descs
  no_fault := by
    cases hr with
    | @lost t k p tx changed hk hm hdesc =>
      rw [(h.local_ok t).desc h.descs (List.mem_of_getElem? hk) hm] at hdesc
      cases hdesc
    | _ => exact h.no_fault

/-- **Every reachable state** is well formed. -/
theorem reach_ok {objs : Flat} {ok : Sys cfg.segs → Act cfg.segs → Sys cfg.segs → Prop}
    (h : (cfg.lts objs).Reach ok σ) : σ.Ok cfg :=
  h.induct (fun _ h0 => h0 ▸ .init objs) fun _ _ _ _ ih hs _ => ih.step (step_rule hs)

end

/-! ## Replies -/

/-- `getLocks` is sending the requests of a batch or waits for their replies. -/
def Pc.inBatch {g : Segments} : Pc g → Bool
  | .requestLocks _ _ _ _ _ _ | .waitLocks _ _ _ _ _ => true
  | _ => false

/-- Messages are under way only while the batch they belong to is. -/
theorem Sys.Ok.inBatch {cfg : Config} {σ : Sys cfg.segs} (h : σ.Ok cfg) {t : Tid} {p : Packet}
    (hp : p ∈ σ.net t) : (σ.th t).pc.inBatch = true ∧ p.batch = (σ.th t).batches := by
  obtain ⟨o, done, batch, rest, unsent, requests, this, -, -, -, hb, hpc⟩ :=
    (h.local_ok t).pc.batch hp
  refine ⟨?_, (hb.packet p hp).2.1⟩
  rcases hpc with hpc | ⟨-, hpc⟩ <;> rw [hpc] <;> rfl

/-- The object that the handler is at: a cell of the write set that its transaction has not locked
yet. -/
theorem Sys.Ok.requested {cfg : Config} {σ : Sys cfg.segs} (h : σ.Ok cfg) {t : Tid} {p : Packet}
    (hp : p ∈ σ.net t) {i : ℕ} {old : Option Word} {changed : List Word}
    (hm : p.msg = .request i old changed) (hi : i < p.buf.count) :
    ∃ b ∈ (σ.th t).tx.writeSet, cfg.segs.IsCell b ∧ changedObj p.node (p.buf.objAddr i) = b ∧
      lockOf cfg.segs p.node (p.buf.objAddr i) = cfg.segs.lockLoc b ∧
      p.buf.version i = entryTs (σ.th t).tx.writeSet b ∧ b ∉ (σ.me t).held.map Prod.fst := by
  have hl := h.local_ok t
  obtain ⟨o, done, batch, rest, unsent, requests, this, -, ho, hws, hb, -⟩ := hl.pc.batch hp
  have hin : ∀ b ∈ batch, b ∈ o.ws := by
    intro b hb
    rw [hws]
    exact List.mem_append_left _ (List.mem_append_right _ hb)
  obtain ⟨b, hbm, hobj, hlock, hver, hpend⟩ :=
    hb.object (fun b hb => hl.isCell ho (hin b hb)) hp hm hi
  refine ⟨b, AList.mem_keys.2 (ho.ws.mem_iff.1 (hin b hbm)), hl.isCell ho (hin b hbm), hobj, hlock,
    hver, ?_⟩
  have hnd : (done ++ batch).Nodup :=
    (List.nodup_append.1 (hws ▸ ho.ws.nodup_iff.2 (AList.keys_nodup _))).1
  refine ((hb.turn hnd b).2 (List.mem_flatMap.2 ⟨p, hp, ?_⟩)).1
  rw [hpend]
  exact List.mem_cons_self

/-- **Lock replies are accounted for.** No reply meets a descriptor that does not exist; a message
belongs to the batch its sender is sending or waiting for, and its reply is applied to that sender
only. When the wait of a batch ends, all its replies have come, and the objects reported back are
exactly those whose lock words the home nodes refused: keys of the write set, each as it stands
in the batch, and the objects of the batch whose locks are not held. -/
theorem lockReplies {cfg : Config} {objs : Flat} {σ : Sys cfg.segs} (h : cfg.Reach objs σ) :
    σ.fault = false ∧
    (∀ t, ∀ p ∈ σ.net t, (σ.th t).pc.inBatch = true ∧ p.batch = (σ.th t).batches ∧
      ∀ tx changed, p.msg = .reply tx changed → σ.descs p.src tx = some t) ∧
    (∀ t k σ', step cfg σ (.deliver t k) = some σ' → ∀ t' ≠ t, σ'.th t' = σ.th t') ∧
    ∀ t o done batch rest requests, (σ.th t).pc = .waitLocks o done batch rest requests →
      requests ≤ (σ.th t).tx.rlNodes →
      (σ.th t).tx.rlNodes = requests ∧ σ.net t = [] ∧
      ((σ.th t).tx.rlChangedObjects.map cfg.segs.lockLoc).Perm (σ.me t).refused ∧
      (∀ b ∈ (σ.th t).tx.rlChangedObjects, b ∈ batch) ∧
      ∀ b ∈ batch, b ∈ (σ.th t).tx.writeSet ∧
        (b ∈ (σ.th t).tx.rlChangedObjects ↔ cfg.segs.lockLoc b ∈ (σ.me t).refused) ∧
        (b ∈ (σ.th t).tx.rlChangedObjects ↔ b ∉ (σ.me t).held.map Prod.fst) := by
  have hok := reach_ok h
  refine ⟨hok.no_fault, fun t p hp => ?_, fun t k σ' hs => ?_,
    fun t o done batch rest requests hpc hn => ?_⟩
  · obtain ⟨hpc, hb⟩ := hok.inBatch hp
    exact ⟨hpc, hb, fun tx changed hm => (hok.local_ok t).desc hok.descs hp hm⟩
  · exact ((step_rule hs).sameBut (delivers hok.local_ok hok.descs)).th
  · have hl := (hok.local_ok t).pc
    simp only [PcOk, hpc] at hl
    obtain ⟨ho, hws, this, -, hb⟩ := hl
    obtain ⟨hnet, hnodes⟩ := hb.net_eq_nil hn
    have hnd : (done ++ batch).Nodup :=
      (List.nodup_append.1 (hws ▸ ho.ws.nodup_iff.2 (AList.keys_nodup _))).1
    have href := hb.refused_perm
    have hmem := hb.changed_mem
    rw [hnet, List.flatMap_nil, List.append_nil] at href hmem
    have hin : ∀ b ∈ batch, b ∈ o.ws := fun b hb => by
      rw [hws]
      exact List.mem_append_left _ (List.mem_append_right _ hb)
    have hcell : ∀ b ∈ batch, cfg.segs.IsCell b := fun b hb =>
      (hok.local_ok t).isCell ho (hin b hb)
    refine ⟨hnodes, hnet, href.symm, hmem, fun b hbb => ⟨?_, ?_, ?_⟩⟩
    · exact AList.mem_keys.2 (ho.ws.mem_iff.1 (hin b hbb))
    · rw [href.mem_iff, List.mem_map]
      refine ⟨fun h => ⟨b, h, rfl⟩, fun ⟨c, hc, hl⟩ => ?_⟩
      rwa [Segments.lockLoc_inj (hcell c (hmem c hc)) (hcell b hbb) hl] at hc
    · rw [(hb.held_perm hn hnd).mem_iff, List.mem_filter]
      simp [hbb]

/-- Where a thread waits, for how many replies, and what it has got. -/
def waitOf {g : Segments} (th : Thread g) : Option (List Word × ℕ × ℕ × List Word) :=
  match th.pc with
  | .waitLocks _ _ batch _ requests =>
    some (batch, requests, th.tx.rlNodes, th.tx.rlChangedObjects)
  | _ => none

/-- Two threads commit the same cell, and the second is refused its lock. -/
theorem lockReplies_refused : ∃ σ, (small ⟨.variant1, false⟩).Reach (fun _ _ => 0) σ ∧
    (σ.th 1).tx.rlChangedObjects = [cellX.block] ∧ σ.net 1 = [] ∧
    smallSegs.lockLoc cellX.block ∈ (σ.me 1).refused := by
  have hrun : (Small ⟨.variant1, false⟩
      (List.flatten [[.new 0 16, .begin 0, .call 0 (.write cellX (smallValue 1))], runs _ 0 5,
        [.new 1 16, .begin 1, .call 1 (.write cellX (smallValue 2))], runs _ 1 5,
        [.commit 0 ⟨[], [cellX.block], []⟩], runs _ 0 2, [.handle 0 0, .handle 0 0],
        [.commit 1 ⟨[], [cellX.block], []⟩], runs _ 1 3,
        [.handle 1 0, .handle 1 0, .deliver 1 0]])).map (fun σ => waitOf (σ.th 1)) =
      some (some ([cellX.block], 1, 1, [cellX.block])) := by decide +kernel
  obtain ⟨σ, h, ho⟩ := Lts.Reach.of_run rfl hrun
  rw [waitOf] at ho
  split at ho
  · next o done batch rest requests hpc =>
    simp only [Option.some.injEq, Prod.mk.injEq] at ho
    obtain ⟨rfl, rfl, hn, hc⟩ := ho
    obtain ⟨-, -, -, hw⟩ := lockReplies h
    obtain ⟨-, hnet, -, -, hb⟩ := hw _ _ _ _ _ _ hpc hn.ge
    exact ⟨σ, h, hc, hnet, (hb _ List.mem_cons_self).2.1.1 (hc ▸ List.mem_cons_self)⟩
  · cases ho

end DstmP1
