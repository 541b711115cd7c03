import DstmP1.Runtime

/-!
# Cells that one node writes

The lock handler compares lock words as a whole, and the node field stands above the version
number. So it can take an old version for one that is not older only if another node has written
the cell since. If all writes of a cell are called on one node, its `owner`, every lock that is
granted has the version recorded for its word (`Sys.WritersOk.noStaleGrant`), and what is said of
runs without stale grants holds as long as no clock reaches `2^48`.
-/

namespace DstmP1

variable (owner : Word → ℕ)

/-- A write is called on the node `n` that owns its cell. -/
def Op.Own {g : Segments} (n : ℕ) : Op g → Prop
  | .read _ => True
  | .write a _ => owner a.block = n

instance {g : Segments} (n : ℕ) : (op : Op g) → Decidable (op.Own owner n)
  | .read _ => isTrue trivial
  | .write a _ => inferInstanceAs (Decidable (owner a.block = n))

/-- Cells are written on the nodes that own them. -/
def OwnWrites (cfg : Config) (_ : Sys cfg.segs) (a : Act cfg.segs) (_ : Sys cfg.segs) : Prop :=
  match a with
  | .call t op => op.Own owner (cfg.node t)
  | _ => True

instance (cfg : Config) (σ σ' : Sys cfg.segs) (a : Act cfg.segs) :
    Decidable (OwnWrites owner cfg σ a σ') := by
  cases a <;> simp only [OwnWrites] <;> infer_instance

/-- `ts` is the first version of the cell `b` or one from its owner. -/
def Labelled (b ts : Word) : Prop := ver ts = 0 ∧ nodeOfTs ts = 0 ∨ nodeOfTs ts = owner b

/-- What a thread on node `n` is doing with cells. -/
def WriterPc {g : Segments} (n : ℕ) : Pc g → Prop
  | .readCell op .version => op.Own owner n
  | .readCell op (.data version _ _) => op.Own owner n ∧ Labelled owner op.access.block version
  | .releaseLocksWithNewClock version _ => nodeOfTs version = n
  | _ => True

/-- The versions that a thread on node `n` has recorded, and the cells it has written to. -/
structure Thread.WriterOk {g : Segments} (n : ℕ) (th : Thread g) : Prop where
  recorded : ∀ b ts, th.tx.RecordsAt b ts → Labelled owner b ts
  writes : ∀ b ∈ th.tx.writeSet, owner b = n
  pc : WriterPc owner n th.pc

structure Sys.WritersOk (cfg : Config) (σ : Sys cfg.segs) : Prop where
  thread : ∀ t, (σ.th t).WriterOk owner (cfg.node t)
  lock : ∀ b, cfg.segs.IsCell b → Labelled owner b (σ.locks (cfg.segs.lockLoc b))

variable {owner}

/-- A lock taken keeps the node in the word. -/
theorem Labelled.lockValNew {b ts : Word} (h : Labelled owner b ts) (hu : Unlocked ts) :
    Labelled owner b (lockValNew ts) := by
  rw [Labelled, DstmP1.lockValNew, ver_or_lockBit, nodeOfTs_or_lockBit hu]
  exact h

/-- Of two versions of a cell, the one with the greater number is the greater word. -/
theorem Labelled.lt {b l w : Word} (hl : Labelled owner b l) (hw : Labelled owner b w)
    (hu : Unlocked l) (hlt : ver l < ver w) : l < w := by
  have hnode : nodeOfTs l ≤ nodeOfTs w := by
    rcases hl with ⟨-, hl⟩ | hl
    · exact hl ▸ Nat.zero_le _
    · rcases hw with ⟨hw, -⟩ | hw
      · omega
      · rw [hl, hw]
  rw [nodeOfTs_eq, nodeOfTs_eq] at hnode
  unfold Unlocked ver at *
  rw [BitVec.lt_def]
  have hw' := w.isLt
  omega

/-! ## Maps -/

section
variable {g : Segments} {tx tx' : Tx} {op : Op g} {n : ℕ} {b ts : Word}

/-- An entry for an owned cell is inserted. -/
theorem owned_insert {m : CellMap} {b₀ : Word} {e : Entry} (hb : owner b₀ = n)
    (h : ∀ b ∈ m, owner b = n) : ∀ b ∈ m.insert b₀ e, owner b = n := by
  intro b hin
  rcases (AList.mem_insert m).1 hin with rfl | hin
  · exact hb
  · exact h b hin

/-- A call that the maps serve writes to an owned cell. -/
theorem Tx.writes_served {r : List Byte} (hs : tx.served .variant1 op = some (tx', r))
    (ho : op.Own owner n) (h : ∀ b ∈ tx.writeSet, owner b = n) :
    ∀ b ∈ tx'.writeSet, owner b = n := by
  cases op with
  | read a =>
    simp only [served] at hs
    split at hs
    · cases hs
      exact h
    · obtain ⟨e, -, hp⟩ := Option.map_eq_some_iff.1 hs
      cases hp
      exact h
  | write a value =>
    simp only [served] at hs
    split at hs
    · cases hs
      exact owned_insert ho h
    · obtain ⟨e, -, hp⟩ := Option.map_eq_some_iff.1 hs
      cases hp
      exact owned_insert ho h

/-- A fetched cell that is written is owned. -/
theorem Tx.writes_fetched {buf : ℕ → Byte} (ho : op.Own owner n)
    (h : ∀ b ∈ tx.writeSet, owner b = n) :
    ∀ b ∈ (tx.fetched .variant1 op ts buf).writeSet, owner b = n := by
  cases op with
  | read a => exact h
  | write a value => exact owned_insert ho h

/-- The end of a call adds no cell to the write set. -/
theorem Tx.writes_finished {value : List Byte} (h : ∀ b ∈ tx.writeSet, owner b = n) :
    ∀ b ∈ (tx.finished .variant1 op ts value).1.writeSet, owner b = n := by
  cases op with
  | read a => exact h
  | write a new =>
    dsimp only [finished]
    split
    · next e he => exact owned_insert (h _ (mem_of_lookup he)) h
    · exact h

end

section
variable {cfg : Config} {σ σ' : Sys cfg.segs} {a : Act cfg.segs} {t : Tid} {n : ℕ}
  {th th' : Thread cfg.segs}

/-- Nothing is written in the state after `initMemory`. -/
theorem Sys.WritersOk.init (objs : Flat) : (Sys.init cfg.segs objs).WritersOk owner cfg where
  thread _ := ⟨fun _ _ h => absurd h (Tx.not_recordsAt rfl rfl), fun _ h => absurd h (by
    exact AList.notMem_empty _), trivial⟩
  lock _ _ := .inl ⟨rfl, show nodeOfTs 0 = 0 by decide⟩

/-- A thread whose maps stay. -/
theorem Thread.WriterOk.go (h : th.WriterOk owner n) (hr : th'.tx.readSet = th.tx.readSet)
    (hw : th'.tx.writeSet = th.tx.writeSet) (hpc : WriterPc owner n th'.pc) :
    th'.WriterOk owner n where
  recorded b ts hts := h.recorded b ts ((Tx.recordsAt_congr hr hw).1 hts)
  writes := hw ▸ h.writes
  pc := hpc

/-- A thread whose maps are empty. -/
theorem Thread.WriterOk.of_empty (hr : th.tx.readSet = ∅) (hw : th.tx.writeSet = ∅)
    (hpc : WriterPc owner n th.pc) : th.WriterOk owner n where
  recorded _ _ hts := absurd hts (Tx.not_recordsAt hr hw)
  writes b hb := by
    rw [hw] at hb
    exact absurd hb (AList.notMem_empty _)
  pc := hpc

/-- A step keeps what its thread knows of versions in order. -/
theorem Sys.WritersOk.thread_step (h : σ.WritersOk owner cfg) (hv : cfg.build.variant = .variant1)
    (hn : ∀ t, cfg.node t < 2 ^ 15) (hi : σ.TxnsOk cfg) (hs : step cfg σ a = some σ')
    (ho : OwnWrites owner cfg σ a σ') (hb : ClockBelow cfg (2 ^ 48) σ a σ') :
    (σ'.th a.tid).WriterOk owner (cfg.node a.tid) := by
  have lift : ∀ {th : Thread cfg.segs}, σ'.th = Function.update σ.th a.tid th →
      th.WriterOk owner (cfg.node a.tid) → (σ'.th a.tid).WriterOk owner (cfg.node a.tid) := by
    intro th he hth
    rwa [he, Function.update_self]
  have hth := h.thread a.tid
  have hpc0 := hth.pc
  cases step_rule hs with
  | goto ht hc hg =>
    subst ht
    refine lift rfl (hth.go rfl rfl ?_)
    cases hg with
    | fetch op hpc =>
      have ha := step_fetch hs hi.good.ok hpc (by rw [Sys.goto, Sys.upd_th])
      rw [ha] at ho
      exact ho
    | @readVersion op hpc =>
      rw [hpc] at hpc0
      have hl := h.lock op.access.block op.access.isCell
      rw [Access.block, op.access.inHeap.lockLoc_blockLb] at hl
      exact ⟨hpc0, hl⟩
    | readPiece _ _ hpc =>
      rw [hpc] at hpc0
      exact hpc0
    | retry hpc =>
      rw [hpc] at hpc0
      exact hpc0.1
    | _ => trivial
  | new ptr hpc =>
    refine lift rfl (.of_empty rfl rfl ?_)
    dsimp only
    rw [Act.tid] at hpc0
    exact hpc0
  | begin | clockRaised | lockPoint | batch | send | restore | validated | invalid | put =>
    exact lift rfl (hth.go rfl rfl trivial)
  | delete | addVersion | refuse | grant => exact lift rfl (hth.go rfl rfl hpc0)
  | @served t op tx r hpc hc hserved =>
    rw [hv] at hserved
    refine lift rfl ⟨fun b ts hts => hth.recorded b ts ((Tx.recordsAt_served hserved).1 hts),
      Tx.writes_served hserved ho hth.writes, ?_⟩
    dsimp only
    rw [hpc]
    trivial
  | abort _ _ ht =>
    subst ht
    exact lift rfl (.of_empty rfl rfl trivial)
  | released | committed => exact lift rfl (.of_empty rfl rfl trivial)
  | @fetched t c op ts buf hpc =>
    have hnew := ((hi.runs t).running (by rw [hpc]; simp)).new op _ hpc
    rw [Act.tid, hpc] at hpc0
    refine lift rfl ⟨fun b ts' hts => ?_, ?_, trivial⟩
    · dsimp only at hts
      rw [hv, Tx.recordsAt_fetched hnew] at hts
      rcases hts with ⟨rfl, rfl⟩ | ⟨-, hts⟩
      · exact hpc0.2
      · exact hth.recorded b ts' hts
    · dsimp only
      rw [hv]
      exact Tx.writes_fetched hpc0.1 hth.writes
  | finish | finishValid =>
    refine lift rfl ⟨fun b ts hts => ?_, ?_, trivial⟩
    · dsimp only at hts
      rw [hv, Tx.recordsAt_finished] at hts
      exact hth.recorded b ts hts
    · dsimp only
      rw [hv]
      exact Tx.writes_finished hth.writes
  | @issue t c o hpc =>
    have hlt : (σ.clock (cfg.node t) + 1).toNat < 2 ^ 48 := by
      have hb : (Function.update σ.clock (cfg.node t) (σ.clock (cfg.node t) + 1)
        (cfg.node t)).toNat < 2 ^ 48 := hb
      rwa [Function.update_self] at hb
    refine lift rfl (hth.go rfl rfl ?_)
    exact (nodeOfTs_newVersion hlt).trans (Nat.mod_eq_of_lt (hn t))
  | release hpc =>
    rw [Act.tid, hpc] at hpc0
    exact lift rfl (hth.go rfl rfl hpc0)
  | load | reply | lost => exact hth
  | deliver hk hm hdesc =>
    obtain rfl := delivers hi.good.ok.local_ok hi.good.ok.descs _ _ _ _ _ _ hk hm hdesc
    exact lift rfl (hth.go rfl rfl hpc0)

/-- One step keeps writers to their cells. -/
theorem Sys.WritersOk.step (h : σ.WritersOk owner cfg) (hv : cfg.build.variant = .variant1)
    (hn : ∀ t, cfg.node t < 2 ^ 15) (hi : σ.TxnsOk cfg) (hs : DstmP1.step cfg σ a = some σ')
    (ho : OwnWrites owner cfg σ a σ') (hb : ClockBelow cfg (2 ^ 48) σ a σ') :
    σ'.WritersOk owner cfg where
  thread t := by
    have hok := hi.good.ok
    by_cases ht : t = a.tid
    · subst ht
      exact h.thread_step hv hn hi hs ho hb
    · rw [((step_rule hs).sameBut (delivers hok.local_ok hok.descs)).th t ht]
      exact h.thread t
  lock b hcell := by
    have hok := hi.good.ok
    have hupd : ∀ {b₀ w : Word}, cfg.segs.IsCell b₀ → Labelled owner b₀ w →
        σ'.locks = Function.update σ.locks (cfg.segs.lockLoc b₀) w →
        Labelled owner b (σ'.locks (cfg.segs.lockLoc b)) := by
      intro b₀ w hc hw hlocks
      by_cases hbb : b = b₀
      · subst hbb
        rwa [hlocks, Function.update_self]
      · rw [hlocks, Function.update_of_ne fun he => hbb (Segments.lockLoc_inj hcell hc he)]
        exact h.lock b hcell
    have hrec : ∀ {t : Tid} {b : Word}, b ∈ (σ.th t).tx.writeSet →
        Labelled owner b (entryTs (σ.th t).tx.writeSet b) := fun hb =>
      (h.thread _).recorded _ _ (Tx.recordsAt_entryTs hb)
    cases (step_rule hs).lockStep hok hi.good.att with
    | keep hlocks =>
      rw [hlocks]
      exact h.lock b hcell
    | @grant t b₀ _ hb₀ _ hlocks =>
      have htx := (hok.local_ok t).tx
      exact hupd (htx.isCell_of_mem hb₀) ((hrec hb₀).lockValNew (htx.unlocked_entryTs hb₀)) hlocks
    | @giveBack t b₀ w hh hp hlocks =>
      have hin := (hh.inside hok hi.good.att).2
      refine hupd hin.2.2 ?_ hlocks
      cases hp with
      | restore => exact hrec hin.2.1
      | release hpc =>
        -- The new version is one of the node that has written the cell.
        have hver := (h.thread t).pc
        rw [hpc] at hver
        exact .inr (Eq.trans hver ((h.thread t).writes _ hin.2.1).symm)

/-- Versions that the lock handler does not refuse are the present ones. -/
theorem Sys.WritersOk.eq_of_not_refused {objs : Flat} (h : σ.WritersOk owner cfg)
    (hok : σ.SerialOk cfg objs) (hpc : (σ.th t).pc.inBatch = true) {b : Word}
    (hb : b ∈ (σ.th t).tx.writeSet)
    (hr : isRefused (σ.locks (cfg.segs.lockLoc b)) (entryTs (σ.th t).tx.writeSet b) = false) :
    σ.locks (cfg.segs.lockLoc b) = entryTs (σ.th t).tx.writeSet b := by
  have hgood := hok.txns.good
  have htx := (hgood.ok.local_ok t).tx
  have hcell := htx.isCell_of_mem hb
  have hu := htx.unlocked_entryTs hb
  have hle : ¬ entryTs (σ.th t).tx.writeSet b < σ.locks (cfg.segs.lockLoc b) :=
    of_decide_eq_false hr
  have hfree : isLocked (σ.locks (cfg.segs.lockLoc b)) = false := by
    rw [isLocked_eq_false]
    unfold Unlocked at *
    rw [BitVec.lt_def] at hle
    omega
  obtain ⟨s, href, hinv⟩ := hok.sim
  obtain ⟨-, hlabel⟩ := href.unlocked hgood.own (b := ⟨b, hcell⟩) hfree
  have hrec := Tx.recordsAt_entryTs hb
  obtain ⟨v, hv⟩ := href.recorded ((hok.txns.runs t).running (Pc.not_idle_of_inBatch hpc))
    (b := ⟨b, hcell⟩) hrec
  rcases hinv.used _ _ _ _ hv with heq | hlt
  · rw [heq, hlabel]
  · rw [hlabel] at hlt
    exact absurd (((h.thread t).recorded b _ hrec).lt (h.lock b hcell) hu hlt) hle

/-- The words of a cell come from one node, so the order of words is that of versions. -/
theorem Sys.WritersOk.noStaleGrant {objs : Flat} (h : σ.WritersOk owner cfg)
    (hok : σ.SerialOk cfg objs) : NoStaleGrant cfg σ a σ' := by
  cases a with
  | handle t k =>
    simp only [NoStaleGrant, staleGrant]
    split
    · next p hk =>
      split
      · next i old changed hm =>
        by_contra hne
        obtain ⟨hi, ho, hold⟩ : i < p.buf.count ∧
            σ.locks (lockOf cfg.segs p.node (p.buf.objAddr i)) = old ∧ old ≠ p.buf.version i := by
          simpa using hne
        have hgood := hok.txns.good
        have hp := List.mem_of_getElem? hk
        obtain ⟨b, hb, -, -, hlock, hver, -⟩ := hgood.ok.requested hp hm hi
        -- The word was loaded before it is swapped, and was not refused then.
        obtain ⟨o, done, batch, rest, unsent, requests, this, -, -, -, hbatch, -⟩ :=
          (hgood.ok.local_ok t).pc.batch hp
        have hmsg := (hbatch.packet p hp).2.2.2
        rw [Packet.MsgOk, hm] at hmsg
        have hr := hmsg.2 old rfl
        rw [← ho, hlock, hver] at hr
        have heq := h.eq_of_not_refused hok (hgood.ok.inBatch hp).1 hb hr
        rw [hlock] at ho
        exact hold (by rw [← ho, heq, hver])
      · rfl
    · rfl
  | _ => rfl

/-- Runs in which cells are written on the nodes that own them have no stale grants. -/
theorem reach_writersOk {objs : Flat} (hv : cfg.build.variant = .variant1)
    (hn : ∀ t, cfg.node t < 2 ^ 15)
    (h : (cfg.lts objs).Reach (fun σ a σ' =>
      OwnWrites owner cfg σ a σ' ∧ ClockBelow cfg (2 ^ 48) σ a σ') σ) :
    σ.WritersOk owner cfg ∧ σ.SerialOk cfg objs := by
  refine h.induct (I := fun σ => σ.WritersOk owner cfg ∧ σ.SerialOk cfg objs) ?_ ?_
  · rintro σ rfl
    exact ⟨.init objs, .init objs⟩
  · rintro σ a σ' - ⟨hw, hok⟩ hs ⟨ho, hb⟩
    exact ⟨hw.step hv hn hok.txns hs ho hb,
      hok.step hv (step_rule hs) (hw.noStaleGrant hok) hb⟩

/-- **Cells with one writer node need no other condition**: if all writes of a cell are called on
its owner, commits are serial in every run in which no clock reaches `2^48`. -/
theorem reach_serializable_writers {objs : Flat} (hv : cfg.build.variant = .variant1)
    (hn : ∀ t, cfg.node t < 2 ^ 15)
    (h : (cfg.lts objs).Reach (fun σ a σ' =>
      OwnWrites owner cfg σ a σ' ∧ ClockBelow cfg (2 ^ 48) σ a σ') σ) :
    ∃ l, σ.SerialOrder objs l :=
  (reach_writersOk hv hn h).2.serialOrder

end

/-- Node 0, which owns all cells, commits `cellX`; node 2 reads it and commits. -/
theorem serializable_writers_two : ∃ σ l, (small ⟨.variant1, false⟩).Reach (fun _ _ => 0) σ ∧
    σ.SerialOrder (fun _ _ => 0) l ∧ (0, 1) ∈ l ∧ (2, 1) ∈ l := by
  have hrun : (((small ⟨.variant1, false⟩).lts fun _ _ => 0).runIf (fun σ a σ' =>
      OwnWrites (fun _ => 0) (small ⟨.variant1, false⟩) σ a σ' ∧
        ClockBelow (small ⟨.variant1, false⟩) (2 ^ 48) σ a σ') (Sys.init _ fun _ _ => 0)
      (List.flatten [[.new 0 16, .begin 0, .call 0 (.write cellX (smallValue 1))], runs _ 0 5,
        commitX _ 0, readX _ 2, [.commit 2 ⟨[cellX.block], [], []⟩], runs _ 2 7])).map
      (fun σ => ((σ.att (0, 1)).returned.isSome, (σ.att (2, 1)).returned.isSome)) =
      some (true, true) := by
    decide +kernel
  obtain ⟨σ, h, ho⟩ := Lts.Reach.of_runIf rfl hrun
  obtain ⟨h0, h2⟩ := Prod.mk.inj ho
  obtain ⟨l, hl⟩ := reach_serializable_writers rfl
    (fun t => Nat.lt_trans (Nat.mod_lt t (by decide)) (by decide)) h
  exact ⟨σ, l, h.mono fun _ _ _ _ => trivial, hl,
    hl.committed _ (Option.isSome_iff_ne_none.1 h0),
    hl.committed _ (Option.isSome_iff_ne_none.1 h2)⟩

end DstmP1
