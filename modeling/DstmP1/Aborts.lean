import DstmP1.Ownership

/-!
# Aborted commits

When a lock is refused or the validation in `commit` fails, `releaseLocks` puts back the versions
of the write set, the words that the locks are expected to have replaced. They have as long as the
lock handler swaps a lock word only when it is the version the request carries (`NoStaleGrant`):
then an aborted transaction has restored exactly the words that its grants replaced
(`abort_restores`).

The handler compares the words as a whole, so it also swaps a word that is smaller: one with the
number of a smaller node and a newer version. Then the abort moves the cell back to the version
recorded (`abort_restores_stale`).
-/

namespace DstmP1

/-- The next step of the handler swaps a lock word that is not the version its request carries. -/
def staleGrant (cfg : Config) (σ : Sys cfg.segs) : Act cfg.segs → Bool
  | .handle t k =>
    match (σ.net t)[k]? with
    | some p =>
      match p.msg with
      | .request i (some old) _ => decide (i < p.buf.count) &&
          decide (σ.locks (lockOf cfg.segs p.node (p.buf.objAddr i)) = old) &&
          decide (old ≠ p.buf.version i)
      | _ => false
    | none => false
  | _ => false

/-- A lock word that is swapped is the version that the request carries. -/
def NoStaleGrant (cfg : Config) (σ : Sys cfg.segs) (a : Act cfg.segs) (_ : Sys cfg.segs) : Prop :=
  staleGrant cfg σ a = false

instance (cfg : Config) (σ σ' : Sys cfg.segs) (a : Act cfg.segs) :
    Decidable (NoStaleGrant cfg σ a σ') :=
  inferInstanceAs (Decidable (_ = _))

/-- The transaction has passed validation in `commit`. -/
def Pc.writing {g : Segments} : Pc g → Bool
  | .commitWriteSetValues _ _ _ | .getNextClock _ _ | .releaseLocksWithNewClock _ _ => true
  | _ => false

/-- Before a transaction has passed validation it has put no object bytes, and what was granted to
it has been restored or is held. -/
structure AbortOk {g : Segments} (th : Thread g) (me : Attempt g) : Prop where
  word : ∀ e ∈ me.held, e.2 = entryTs th.tx.writeSet e.1
  clean : th.pc.writing = false → me.returned = none →
    me.dirty = false ∧ me.granted.Perm (me.restored ++ me.held)
  aborted : me.aborted = true → me.returned = none

/-- An aborted transaction has put no object bytes and has restored the words it replaced. -/
def Restored {g : Segments} (a : Attempt g) : Prop :=
  a.aborted = true → a.dirty = false ∧ a.restored.Perm a.granted

section
variable {cfg : Config} {σ σ' : Sys cfg.segs} {a : Act cfg.segs} {t : Tid}

/-- A step that only moves a thread on does not take it past validation or back. -/
theorem Goes.writing_eq {pc : Pc cfg.segs} (hg : Goes cfg σ t pc) :
    pc.writing = (σ.th t).pc.writing := by
  cases hg <;> simp_all [Pc.writing]

/-- A lock that is held is one entry among the locks held. -/
theorem perm_cons_filter {held : List (Word × Word)} {b w : Word}
    (hnd : (held.map Prod.fst).Nodup) (hb : (b, w) ∈ held) :
    held.Perm ((b, w) :: held.filter fun e => e.1 ≠ b) := by
  induction held with
  | nil => cases hb
  | cons e held ih =>
    obtain ⟨hn, hnd⟩ := List.nodup_cons.1 hnd
    rcases List.mem_cons.1 hb with rfl | hb
    · rw [List.filter_cons_of_neg (by simp), List.filter_eq_self.2]
      intro e he
      have hne : e.1 ≠ b := fun h => hn (List.mem_map.2 ⟨e, he, h⟩)
      simpa using hne
    · have hne : e.1 ≠ b := fun h => hn (List.mem_map.2 ⟨(b, w), hb, h.symm⟩)
      rw [List.filter_cons_of_pos (by simpa using hne)]
      exact ((ih hnd hb).cons e).trans (List.Perm.swap ..)

/-- A thread outside `commit` holds nothing. -/
theorem LocalOk.held_nil {th : Thread cfg.segs} {me : Attempt cfg.segs} {net : List Packet}
    (h : LocalOk cfg t th me net) (hpc : th.pc.committing = false) : me.held = [] := by
  rcases hm : me.held with _ | ⟨e, held⟩
  · rfl
  · have := (h.held_mem (b := e.1) (by rw [hm]; exact List.mem_cons_self)).2
    rw [hpc] at this
    cases this

/-- A transaction that a thread is inside of has not ended. -/
theorem Sys.AttOk.running (h : σ.AttOk) (hpc : (σ.th t).pc ≠ .idle) :
    (σ.me t).returned = none ∧ (σ.me t).aborted = false := by
  have hend := h.cur t
  rw [EndedOk] at hend
  split at hend
  · exact absurd hend.1 hpc
  · have hne := mt hend.1 hpc
    simpa [Attempt.Ended] using hne

/-- Without stale grants, a lock that is granted replaces the version of the entry. -/
theorem Sys.Good.granted (hg : σ.Good cfg) {k : ℕ} {p : Packet} {i : ℕ} {old : Word}
    {changed : List Word} (hs : NoStaleGrant cfg σ (.handle t k) σ') (hk : (σ.net t)[k]? = some p)
    (hm : p.msg = .request i (some old) changed) (hi : i < p.buf.count)
    (ho : σ.locks (lockOf cfg.segs p.node (p.buf.objAddr i)) = old) :
    old = entryTs (σ.th t).tx.writeSet (changedObj p.node (p.buf.objAddr i)) := by
  obtain ⟨b, -, -, hobj, -, hver, -⟩ := hg.ok.requested (List.mem_of_getElem? hk) hm hi
  rw [hobj, ← hver]
  simpa [NoStaleGrant, staleGrant, hk, hm, hi, ho] using hs

/-- Of a transaction outside `commit` there is nothing to say but that it has put no bytes. -/
theorem AbortOk.outside {th : Thread cfg.segs} {me : Attempt cfg.segs}
    (hheld : me.held = []) (hd : me.returned = none → me.dirty = false)
    (hp : me.returned = none → me.granted.Perm me.restored)
    (ha : me.aborted = true → me.returned = none) : AbortOk th me where
  word := by simp [hheld]
  clean _ hr := ⟨hd hr, by rw [hheld, List.append_nil]; exact hp hr⟩
  aborted := ha

/-- After validation there is nothing to say but what the locks held have replaced. -/
theorem AbortOk.of_writing {th : Thread cfg.segs} {me : Attempt cfg.segs}
    (hw : ∀ e ∈ me.held, e.2 = entryTs th.tx.writeSet e.1) (hpc : th.pc.writing = true)
    (ha : me.aborted = true → me.returned = none) : AbortOk th me where
  word := hw
  clean hf := by
    rw [hpc] at hf
    cases hf
  aborted := ha

/-- A transaction that begins has done nothing. -/
theorem AbortOk.begin (th : Thread cfg.segs) (now : ℕ) : AbortOk th (Attempt.new cfg.segs now) :=
  .outside rfl (fun _ => rfl) (fun _ => List.Perm.refl _) fun _ => rfl

/-- A transaction that has committed has not aborted. -/
theorem AbortOk.committed {th : Thread cfg.segs} {me : Attempt cfg.segs} (hheld : me.held = [])
    (hr : me.returned ≠ none) (ha : me.aborted = false) : AbortOk th me :=
  .outside hheld (fun h => absurd h hr) (fun h => absurd h hr) fun h => by
    rw [ha] at h
    cases h

theorem Rule.abortOk (hr : Rule cfg σ a σ') (hg : σ.Good cfg) (hs : NoStaleGrant cfg σ a σ')
    (h : AbortOk (σ.th a.tid) (σ.me a.tid)) : AbortOk (σ'.th a.tid) (σ'.me a.tid) := by
  have lift : ∀ {th : Thread cfg.segs} {me : Attempt cfg.segs},
      σ'.th = (σ.upd a.tid th me).th → σ'.att = (σ.upd a.tid th me).att →
      AbortOk th me → AbortOk (σ'.th a.tid) (σ'.me a.tid) :=
    fun hth hatt h => Sys.lift (P := AbortOk) h hth hatt
  have hnil := (hg.ok.local_ok a.tid).held_nil
  cases hr with
  | goto ha hc hgo =>
    subst ha
    refine lift rfl rfl ⟨h.word, fun hw hret => h.clean ?_ hret, h.aborted⟩
    rw [← hgo.writing_eq]
    exact hw
  | load | reply | lost => exact h
  | begin => exact lift rfl rfl (.begin _ _)
  | new _ hpc | delete hpc | served hpc | fetched hpc | clockRaised hpc | finish hpc
  | finishValid hpc =>
    simp only [Act.tid] at h hnil
    have hcl := h.clean (by rw [hpc]; rfl)
    rw [hnil (by rw [hpc]; rfl), List.append_nil] at hcl
    exact lift rfl rfl (.outside (hnil (by rw [hpc]; rfl)) (fun hr => (hcl hr).1)
      (fun hr => (hcl hr).2) h.aborted)
  | abort hpc hc ha =>
    subst ha
    have hrun := hg.att.running (t := a.tid) fun hi => by rw [hi] at hpc; cases hpc
    have hout : (σ.th a.tid).pc.writing = false ∧ (σ.th a.tid).pc.committing = false := by
      cases hp : (σ.th a.tid).pc <;> rw [hp] at hpc <;> first | exact ⟨rfl, rfl⟩ | cases hpc
    have hcl := h.clean hout.1
    rw [hnil hout.2, List.append_nil] at hcl
    exact lift rfl rfl (.outside (hnil hout.2) (fun hr => (hcl hr).1) (fun hr => (hcl hr).2)
      fun _ => hrun.1)
  | addVersion => exact lift rfl rfl ⟨h.word, h.clean, h.aborted⟩
  | deliver hk hm hdesc =>
    obtain rfl := delivers hg.ok.local_ok hg.ok.descs _ _ _ _ _ _ hk hm hdesc
    exact lift rfl rfl ⟨h.word, h.clean, h.aborted⟩
  | refuse => exact lift rfl rfl ⟨h.word, h.clean, h.aborted⟩
  | lockPoint hpc | batch hpc | send hpc | invalid hpc =>
    exact lift rfl rfl ⟨h.word, fun _ => h.clean (by rw [Act.tid, hpc]; rfl), h.aborted⟩
  | validated | put | issue => exact lift rfl rfl (.of_writing h.word rfl h.aborted)
  | release =>
    exact lift rfl rfl (.of_writing (fun e he => h.word e (List.mem_filter.1 he).1) rfl h.aborted)
  | @committed t c version hpc =>
    have hrun := hg.att.running (t := t) fun hi => by rw [hi] at hpc; cases hpc
    have hheld : (σ.me t).held = [] := by
      have hl := (hg.ok.local_ok t).pc
      simp only [PcOk, hpc] at hl
      exact List.map_eq_nil_iff.1 hl.1.held.eq_nil
    exact lift rfl rfl (.committed hheld (Option.some_ne_none _) hrun.2)
  | @released t c hpc =>
    have hrun := hg.att.running (t := t) fun hi => by rw [hi] at hpc; cases hpc
    have hheld : (σ.me t).held = [] := by
      have hl := (hg.ok.local_ok t).pc
      simp only [PcOk, hpc] at hl
      exact List.map_eq_nil_iff.1 hl.2.2.2.eq_nil
    have hcl := h.clean (by rw [Act.tid, hpc]; rfl)
    simp only [Act.tid, hheld, List.append_nil] at hcl
    exact lift rfl rfl (.outside hheld (fun hr => (hcl hr).1) (fun hr => (hcl hr).2)
      fun _ => hrun.1)
  | @restore t c b left hpc hc hb =>
    have hh := PutsLock.holds hg.ok (.restore hpc hb)
    obtain ⟨e, he, hbe⟩ := List.mem_map.1 hh
    obtain ⟨hdirty, hperm⟩ := h.clean (by rw [Act.tid, hpc]; rfl)
      (hg.att.running (t := t) fun hi => by rw [hi] at hpc; cases hpc).1
    have hnd : ((σ.me t).held.map Prod.fst).Nodup := by
      have hl := (hg.ok.local_ok t).pc
      simp only [PcOk, hpc] at hl
      exact hl.2.2.2.nodup_iff.2 (hl.2.1.filter _)
    have hmem : (b, entryTs (σ.th t).tx.writeSet b) ∈ (σ.me t).held := by
      have hw := h.word e he
      rw [hbe] at hw
      exact (Prod.ext hbe hw : e = (b, _)) ▸ he
    refine lift rfl rfl ⟨fun e he => h.word e (List.mem_filter.1 he).1, fun _ _ => ⟨hdirty, ?_⟩,
      h.aborted⟩
    -- What was held is restored now.
    rw [List.append_assoc]
    exact hperm.trans ((perm_cons_filter hnd hmem).append_left _)
  | @grant t k p i old changed hk hm hi ho =>
    have hw := hg.granted hs hk hm hi ho
    refine lift rfl rfl ⟨fun e he => ?_, fun hpc hr => ?_, h.aborted⟩
    · rcases List.mem_append.1 he with he | he
      · exact h.word e he
      · rw [List.mem_singleton.1 he]
        exact hw
    · obtain ⟨hdirty, hperm⟩ := h.clean hpc hr
      refine ⟨hdirty, ?_⟩
      rw [← List.append_assoc]
      exact hperm.append_right _

/-- What `AbortOk` says at the end of a transaction. -/
theorem AbortOk.restored (h : AbortOk (σ.th t) (σ.me t)) (hok : σ.Ok cfg)
    (hpc : (σ.th t).pc = .idle) : Restored (σ.me t) := fun ha => by
  obtain ⟨hdirty, hperm⟩ := h.clean (by rw [hpc]; rfl) (h.aborted ha)
  rw [(hok.local_ok t).held_nil (by rw [hpc]; rfl), List.append_nil] at hperm
  exact ⟨hdirty, hperm.symm⟩

/-- The current transactions, and those that are over. -/
structure Sys.AbortsOk (σ : Sys cfg.segs) : Prop where
  cur : ∀ t, AbortOk (σ.th t) (σ.me t)
  past : ∀ u : Tid × ℕ, u ≠ σ.cur u.1 → Restored (σ.att u)

theorem Sys.AbortsOk.init (objs : Flat) : (Sys.init cfg.segs objs).AbortsOk where
  cur t := .begin (Thread.init cfg.segs) 0
  past _ _ h := by cases h

theorem Sys.AbortsOk.step (h : σ.AbortsOk) (hg : σ.Good cfg) (hr : Rule cfg σ a σ')
    (hs : NoStaleGrant cfg σ a σ') : σ'.AbortsOk where
  cur t := by
    have hb := hr.sameBut (delivers hg.ok.local_ok hg.ok.descs)
    by_cases ht : t = a.tid
    · subst ht
      exact hr.abortOk hg hs (h.cur _)
    · rw [hb.th t ht, hb.me ht]
      exact h.cur t
  past u hu := by
    rw [hr.att_ne hu]
    by_cases hcur : u = σ.cur u.1
    · -- The thread has begun a new transaction, so it was outside this one.
      rcases hr.round u.1 with hround | ⟨hpc, -⟩
      · exact absurd (by rw [Sys.cur, hround]; exact hcur) hu
      · have hre := (h.cur u.1).restored hg.ok hpc
        rwa [Sys.me, ← hcur] at hre
    · exact h.past u hcur

/-- Bytes that a step changes make its transaction dirty. -/
theorem Rule.dirty (hr : Rule cfg σ a σ') (ho : σ'.objs ≠ σ.objs) :
    (σ'.me a.tid).dirty = true := by
  cases hr with
  | put => exact Sys.lift (P := fun _ me => me.dirty = true) rfl rfl rfl
  | _ => exact absurd rfl ho

/-- **Aborted commits leave no trace**, in runs without stale grants: a transaction that has
aborted has put no object bytes, and it has put back exactly the lock words that the grants of its
locks replaced. Bytes that a step changes are put by a transaction that counts as dirty. -/
theorem abort_restores {objs : Flat} (h : (cfg.lts objs).Reach (NoStaleGrant cfg) σ) :
    (∀ u, (σ.att u).aborted = true →
      (σ.att u).dirty = false ∧ (σ.att u).restored.Perm (σ.att u).granted) ∧
    ∀ a σ', step cfg σ a = some σ' → σ'.objs ≠ σ.objs → (σ'.me a.tid).dirty = true := by
  have hg := reach_good h
  have hab : σ.AbortsOk := h.induct (fun _ h0 => h0 ▸ .init objs)
    fun _ _ _ hr ih hs hok => ih.step (reach_good hr) (step_rule hs) hok
  refine ⟨fun u ha => ?_, fun a σ' hs ho => (step_rule hs).dirty ho⟩
  by_cases hcur : u = σ.cur u.1
  · have hpc : (σ.th u.1).pc = .idle := by
      by_contra hne
      have hrun := (hg.att.running hne).2
      rw [Sys.me, ← hcur, ha] at hrun
      cases hrun
    have hre := (hab.cur u.1).restored hg.ok hpc
    rw [Sys.me, ← hcur] at hre
    exact hre ha
  · exact hab.past u hcur ha

end

/-- `n` steps of the code of `t` while its write set has the keys `ws`. -/
def runsWith (build : Build) (t : Tid) (ws : List Word) (n : ℕ) : List (Act (small build).segs) :=
  List.replicate n (.run t ⟨0, 64, ⟨[], ws, []⟩, 0⟩)

/-- What a transaction was granted, what it restored, and whether it has aborted. -/
def abortOf {g : Segments} (a : Attempt g) : List (Word × Word) × List (Word × Word) × Bool :=
  (a.granted, a.restored, a.aborted)

/-- Node 1 commits a cell, node 2 reads it, and node 0 commits it again, with the version after
that of node 1. The lock handler grants the cell to node 2, which is refused another one, aborts
and moves the cell back to the version of node 1. -/
theorem abort_restores_stale : ∃ σ, (small ⟨.variant1, false⟩).Reach (fun _ _ => 0) σ ∧
    (σ.att (2, 1)).aborted = true ∧
    (σ.att (2, 1)).granted = [(cellX.block, newVersion 0 2)] ∧
    (σ.att (2, 1)).restored = [(cellX.block, newVersion 1 1)] ∧
    ver (newVersion 1 1) < ver (newVersion 0 2) := by
  have hrun : (Small ⟨.variant1, false⟩ (List.flatten
      [[.new 1 16, .begin 1, .call 1 (.write cellX (smallValue 1))], runs _ 1 5,
        [.commit 1 ⟨[], [cellX.block], []⟩], runs _ 1 3,
        [.handle 1 0, .handle 1 0, .handle 1 0, .deliver 1 0], runs _ 1 10,
        [.new 2 16, .begin 2, .call 2 (.write cellY (smallValue 5))], runs _ 2 5,
        [.call 2 (.write cellX (smallValue 6))], runsWith _ 2 [cellX.block, cellY.block] 8,
        [.new 0 16, .begin 0, .call 0 (.write cellX (smallValue 1))],
        runsWith _ 0 [cellX.block] 7, [.call 0 (.write cellY (smallValue 1))], runs _ 0 5,
        [.commit 0 ⟨[], [cellX.block, cellY.block], []⟩], runs _ 0 4,
        [.handle 0 0, .handle 0 0, .handle 0 0, .deliver 0 0,
          .handle 0 0, .handle 0 0, .handle 0 0, .deliver 0 0], runs _ 0 13,
        [.commit 2 ⟨[], [cellX.block, cellY.block], []⟩], runs _ 2 4,
        [.handle 2 0, .handle 2 0, .deliver 2 0,
          .handle 2 0, .handle 2 0, .handle 2 0, .deliver 2 0], runs _ 2 4])).map
      (fun σ => abortOf (σ.att (2, 1))) =
      some ([(cellX.block, newVersion 0 2)], [(cellX.block, newVersion 1 1)], true) := by
    decide +kernel
  obtain ⟨σ, h, ho⟩ := Lts.Reach.of_run rfl hrun
  obtain ⟨hg, hr, ha⟩ : _ ∧ _ ∧ _ := by simpa [abortOf] using ho
  exact ⟨σ, h, ha, hg, hr, by decide⟩

/-- A transaction is refused a lock, aborts, and restores the lock it was granted. -/
theorem abort_restores_refused : ∃ σ, (small ⟨.variant1, false⟩).Reach (fun _ _ => 0) σ ∧
    (σ.att (2, 1)).aborted = true ∧ (σ.att (2, 1)).dirty = false ∧
    (σ.att (2, 1)).restored = [(cellX.block, 0)] := by
  have hrun : (((small ⟨.variant1, false⟩).lts fun _ _ => 0).runIf (NoStaleGrant _)
      (Sys.init _ fun _ _ => 0) (List.flatten
      [[.new 2 16, .begin 2, .call 2 (.write cellY (smallValue 5))], runs _ 2 5,
        [.call 2 (.write cellX (smallValue 6))], runs _ 2 5,
        [.new 1 16, .begin 1, .call 1 (.write cellY (smallValue 1))], runs _ 1 5,
        [.commit 1 ⟨[], [cellY.block], []⟩], runs _ 1 3, [.handle 1 0, .handle 1 0],
        [.commit 2 ⟨[], [cellX.block, cellY.block], []⟩], runs _ 2 4,
        [.handle 2 0, .handle 2 0, .deliver 2 0,
          .handle 2 0, .handle 2 0, .handle 2 0, .deliver 2 0], runs _ 2 4])).map
      (fun σ => abortOf (σ.att (2, 1))) = some ([(cellX.block, 0)], [(cellX.block, 0)], true) := by
    decide +kernel
  obtain ⟨σ, h, ho⟩ := Lts.Reach.of_runIf rfl hrun
  obtain ⟨-, hr, ha⟩ : _ ∧ _ ∧ _ := by simpa [abortOf] using ho
  exact ⟨σ, h.mono fun _ _ _ _ => trivial, ha, ((abort_restores h).1 _ ha).1, hr⟩

end DstmP1
