import DstmP1.Completion

/-!
# Why a transaction aborts

A transaction waits for nobody: it aborts when it finds a lock taken, when a cell that it has
recorded has another version, or when a home node refuses it a lock. (It also aborts in a load or
store at address 0, with `INVALID_MEMORY`; the calls here are at addresses of the heap.) Lock words
change only when locks are granted and given back, so behind each of these is another transaction
that has held the lock of a cell while this one was using it (`Sys.Contends`). As long as there has
been none, the lock word of every cell recorded is the timestamp recorded, unless the transaction
has locked it itself (`CalmTx`), and nothing fails. So in both variants a transaction that nobody
interferes with does not abort unless it is rolled back (`trace_progressive`).

With the version cache this is not so: a stale grant takes a version back that the cache still has.
-/

namespace DstmP1

open Segments (Loc)

/-! ## Conflicts -/

section
variable {g : Segments}

/-- The thread is in a transaction that has recorded the cell `b`, or in a call to it. -/
def Thread.Uses (th : Thread g) (b : Word) : Prop :=
  (∃ ts, th.tx.RecordsAt b ts) ∨ ∃ op, th.pc.call = some op ∧ op.access.block = b

/-- The current transaction `u` of its thread uses the cell `b`, whose lock another one holds. -/
structure Sys.Contends (σ : Sys g) (u : Tid × ℕ) (b : Word) : Prop where
  cur : σ.cur u.1 = u
  uses : (σ.th u.1).Uses b
  held : ∃ w, w.1 ≠ u.1 ∧ σ.Holds w b

/-- In one of `states` the transaction `u` has met a conflict. -/
def Met (states : List (Sys g)) (u : Tid × ℕ) : Prop := ∃ σ ∈ states, ∃ b, σ.Contends u b

/-- The cell that a call has read, with its timestamp, until the call returns. -/
def Pc.carried : Pc g → Option (Word × Word)
  | .increaseClock op ts _ _ | .validateStart op ts _ | .validate op ts _ _ _ =>
    some (op.access.block, ts)
  | _ => none

/-- The timestamps that a transaction goes by: those recorded, and the one of the current call. -/
def Thread.Knows (th : Thread g) (b ts : Word) : Prop :=
  th.tx.RecordsAt b ts ∨ th.pc.carried = some (b, ts)

theorem Met.mono {states states' : List (Sys g)} {u : Tid × ℕ} (h : Met states u)
    (hs : states ⊆ states') : Met states' u := by
  obtain ⟨σ, hmem, h⟩ := h
  exact ⟨σ, hs hmem, h⟩

/-- The timestamps recorded are unlocked. -/
theorem Tx.RecordsAt.unlocked {tx : Tx} {b ts : Word} (h : tx.RecordsAt b ts) (ho : tx.Ok g) :
    Unlocked ts := by
  obtain ⟨e, he | he, rfl⟩ := h
  · exact (ho.read b e he).2
  · exact (ho.write b e he).2

/-- The cell that is carried is the one of the call. -/
theorem Pc.call_of_carried {pc : Pc g} {b ts : Word} (h : pc.carried = some (b, ts)) :
    ∃ op, pc.call = some op ∧ op.access.block = b := by
  cases pc with
  | increaseClock op | validateStart op | validate op =>
    obtain ⟨rfl, -⟩ := Prod.mk.inj (Option.some.inj h)
    exact ⟨op, rfl, rfl⟩
  | _ => cases h

/-- A transaction uses the cells whose timestamps it goes by. -/
theorem Thread.Knows.uses {th : Thread g} {b ts : Word} (h : th.Knows b ts) : th.Uses b :=
  h.imp (fun h => ⟨ts, h⟩) Pc.call_of_carried

theorem Thread.Knows.recordsAt {th : Thread g} {b ts : Word} (h : th.Knows b ts)
    (hpc : th.pc.carried = none) : th.tx.RecordsAt b ts := by
  refine h.resolve_right fun hc => ?_
  rw [hpc] at hc
  cases hc

theorem Thread.Knows.isCell {th : Thread g} {b ts : Word} (h : th.Knows b ts)
    (htx : th.tx.Ok g) : g.IsCell b := by
  rcases h with h | h
  · exact h.isCell htx
  · obtain ⟨op, -, rfl⟩ := Pc.call_of_carried h
    exact op.access.isCell

end

/-! ## A transaction without conflicts -/

section
variable {cfg : Config} {σ σ' : Sys cfg.segs} {a : Act cfg.segs} {t : Tid} {locks : Loc → Word}
  {th th' : Thread cfg.segs} {me me' : Attempt cfg.segs} {net net' : List Packet}

/-- The entries that a validation is to look at are recorded, in `commit` they are not those of
cells that the transaction has locked itself, and it does not release its locks. -/
def CalmPc (tx : Tx) : Pc cfg.segs → Prop
  | .validate _ _ _ left _ => ∀ p ∈ left, tx.RecordsAt p.1 p.2
  | .validateAll _ left _ => ∀ p ∈ left, tx.RecordsAt p.1 p.2 ∧ p.1 ∉ tx.writeSet
  | .releaseLocks _ => False
  | _ => True

/-- The timestamps that the transaction goes by stand in the lock words, but for the locks that it
holds; its requests are for locks as they are, and nothing has been refused. -/
structure CalmTx (cfg : Config) (locks : Loc → Word) (th : Thread cfg.segs) (me : Attempt cfg.segs)
    (net : List Packet) : Prop where
  word : ∀ b ts, th.Knows b ts → locks (cfg.segs.lockLoc b) = ts ∨
    b ∈ me.held.map Prod.fst ∧ ts = entryTs th.tx.writeSet b
  pc : CalmPc th.tx th.pc
  changed : th.tx.rlChangedObjects = []
  msg : ∀ p ∈ net, AloneMsg p

/-- `t` is calm, if it is in a transaction that has not passed validation in `commit`. -/
def Sys.CalmAt (cfg : Config) (σ : Sys cfg.segs) (t : Tid) : Prop :=
  (σ.th t).pc ≠ .idle → (σ.th t).pc.writing = false →
    CalmTx cfg σ.locks (σ.th t) (σ.me t) (σ.net t)

/-- The word of a lock that the transaction does not hold is the timestamp it goes by. -/
theorem CalmTx.word_eq (h : CalmTx cfg locks th me net) {b ts : Word} (hb : th.Knows b ts)
    (hn : b ∉ me.held.map Prod.fst) : locks (cfg.segs.lockLoc b) = ts :=
  (h.word b ts hb).resolve_right fun hh => hn hh.1

/-- A message takes a step. -/
theorem CalmTx.msg_set (h : CalmTx cfg locks th me net) {k : ℕ} {q : Packet} (hq : AloneMsg q) :
    ∀ p ∈ net.set k q, AloneMsg p := by
  intro p hp
  rcases List.mem_or_eq_of_mem_set hp with hp | rfl
  · exact h.msg p hp
  · exact hq

/-- The fields that count. -/
theorem CalmTx.congr (h : CalmTx cfg locks th me net) (hpc : th'.pc = th.pc)
    (hr : th'.tx.readSet = th.tx.readSet) (hw : th'.tx.writeSet = th.tx.writeSet)
    (hch : th'.tx.rlChangedObjects = []) (hh : me'.held = me.held)
    (hnet : ∀ p ∈ net', AloneMsg p) : CalmTx cfg locks th' me' net' where
  word b ts hb := by
    rw [Thread.Knows, Tx.recordsAt_congr hr hw, hpc] at hb
    rw [hh, hw]
    exact h.word b ts hb
  pc := by
    have hp := h.pc
    rw [hpc]
    cases hp' : th.pc <;> rw [hp'] at hp <;> first
      | trivial
      | exact hp
      | simpa only [CalmPc, hw, Tx.recordsAt_congr hr hw] using hp
  changed := hch
  msg := hnet

/-- The code goes on, going by the timestamps that it has gone by or that it finds. -/
theorem CalmTx.go (h : CalmTx cfg locks th me net)
    (hk : ∀ b ts, th'.Knows b ts → th.Knows b ts ∨ locks (cfg.segs.lockLoc b) = ts)
    (hw : ∀ b ∈ me.held.map Prod.fst, entryTs th'.tx.writeSet b = entryTs th.tx.writeSet b)
    (hp : CalmPc th'.tx th'.pc) (hch : th'.tx.rlChangedObjects = th.tx.rlChangedObjects)
    (hh : me'.held = me.held) (hnet : ∀ p ∈ net', AloneMsg p) :
    CalmTx cfg locks th' me' net' where
  word b ts hb := by
    rcases hk b ts hb with hb | hb
    · rw [hh]
      exact (h.word b ts hb).imp_right fun ⟨hm, he⟩ => ⟨hm, he.trans (hw b hm).symm⟩
    · exact .inl hb
  pc := hp
  changed := hch.trans h.changed
  msg := hnet

/-- A thread in a call goes on in it, with the timestamp it has read. -/
theorem Goes.carried {pc : Pc cfg.segs} (hg : Goes cfg σ t pc) {e : Word × Word}
    (he : pc.carried = some e) : (σ.th t).pc.carried = some e := by
  cases hg with
  | clockRead hpc | clockKept hpc | clockRetry hpc | validate o hpc | looked hpc | valid hpc =>
    rw [hpc]
    exact he
  | _ => cases he

/-- A thread that only moves on. -/
theorem Goes.calmPc {pc : Pc cfg.segs} (hg : Goes cfg σ t pc) (hp : CalmPc (σ.th t).tx (σ.th t).pc)
    (hch : (σ.th t).tx.rlChangedObjects = []) : CalmPc (σ.th t).tx pc := by
  cases hg with
  | validate o hpc => exact fun p hp => Tx.recordsAt_of_stale hp
  | looked hpc | lookedAll hpc | skip hpc =>
    rw [hpc] at hp
    exact hp
  | valid hpc | validAll hpc =>
    rw [hpc] at hp
    exact fun p hm => hp p (List.mem_cons_of_mem _ hm)
  | refused hpc hn hne => exact hne hch
  | _ => trivial

/-! ## Nothing fails -/

/-- A thread in a call, or between two calls, holds no lock. -/
theorem Sys.Ok.not_held (hok : σ.Ok cfg) (hpc : (σ.th t).pc.calling = true) (b : Word) :
    b ∉ (σ.me t).held.map Prod.fst := by
  rw [((hok.local_ok t).pc.calling hpc).held.eq_nil]
  exact List.not_mem_nil

/-- A call of a calm transaction aborts only because another one holds the lock of its cell. -/
theorem CalmTx.contends (h : CalmTx cfg σ.locks (σ.th t) (σ.me t) (σ.net t)) (hg : σ.Good cfg)
    (hl : σ.LockedOk cfg) (hv : cfg.build.cache = false)
    (hpc : (σ.th t).pc.calling = true) (hc : AbortCause cfg σ t) :
    ∃ b, σ.Contends (σ.cur t) b := by
  have hfree := hg.ok.not_held hpc
  have htx := (hg.ok.local_ok t).tx
  cases hc with
  | @locked op pc hp hlk =>
    obtain ⟨w, b, hw, hb⟩ := hl.held _ (isLocked_eq_true.1 hlk)
    obtain ⟨hcur, hcom, -, hcell⟩ := hw.inside hg.ok hg.att
    rw [← op.access.inHeap.lockLoc_blockLb] at hb
    obtain rfl := Segments.lockLoc_inj hcell op.access.isCell hb
    refine ⟨_, rfl, .inr ⟨op, by rw [Sys.cur, hp]; rfl, rfl⟩, w, ?_, hw⟩
    rintro (rfl : w.1 = t)
    rw [hp] at hcom
    cases hcom
  | @conflict op ts buf hp hcf =>
    -- The timestamp recorded and the one just read both stand in the lock word.
    unfold Tx.conflict at hcf
    split at hcf
    · next e _ he =>
      have h1 := h.word_eq (.inl ⟨e, .inr he, rfl⟩) (hfree _)
      have hknown : (σ.th t).Knows op.access.block ts := .inr (by rw [hp]; rfl)
      have h2 := h.word_eq hknown (hfree _)
      rw [← h1, ← h2, isTimestampsEquivalent_refl] at hcf
      cases hcf
    · cases hcf
  | cached _ hcache =>
    rw [hv] at hcache
    cases hcache
  | @changed op ts buf p left looked hp hch =>
    have hent := h.pc
    rw [hp] at hent
    have hrec : (σ.th t).tx.RecordsAt p.1 p.2 := hent p List.mem_cons_self
    have hword := h.word_eq (.inl hrec) (hfree _)
    rw [Sys.getVersion_eq (hrec.isCell htx), hword, Tx.changed_self (hrec.unlocked htx)] at hch
    cases hch

/-- The validation in `commit` of a calm transaction does not fail. -/
theorem CalmTx.not_invalid (h : CalmTx cfg σ.locks (σ.th t) (σ.me t) (σ.net t)) (hg : σ.Good cfg)
    (hv : cfg.build.cache = false) {c : Choice} {o : Tx.Orders} {p : Word × Word}
    {left : List (Word × Word)} {looked : Bool}
    (hpc : (σ.th t).pc = .validateAll o (p :: left) looked) (hs : step cfg σ (.run t c) = some σ')
    (ws : List Word) : (σ'.th t).pc ≠ .releaseLocks ws := by
  have hent := h.pc
  rw [hpc] at hent
  obtain ⟨hrec, hnot⟩ := hent p List.mem_cons_self
  have htx := (hg.ok.local_ok t).tx
  have hfree : p.1 ∉ (σ.me t).held.map Prod.fst := fun hh =>
    hnot (Sys.Holds.inside (u := σ.cur t) hg.ok hg.att hh).2.2.1
  have hch : Tx.changed (σ.getVersion (cfg.segs.getObjectLockAddr p.1)) p.2 = false := by
    rw [Sys.getVersion_eq (hrec.isCell htx), h.word_eq (.inl hrec) hfree]
    exact Tx.changed_self (hrec.unlocked htx)
  have hs := step_run hs
  simp only [stepRun, hpc, stepValidateAll, hv, hch, Option.some.injEq, Bool.false_and,
    Bool.false_eq_true, if_false] at hs
  rw [← hs, Sys.goto, Sys.upd_th]
  simp

/-- The lock word that the handler is at is the version requested. -/
theorem CalmTx.word_requested (h : CalmTx cfg σ.locks (σ.th t) (σ.me t) (σ.net t)) (hok : σ.Ok cfg)
    {k i : ℕ} {p : Packet} {old : Option Word} {changed : List Word}
    (hk : (σ.net t)[k]? = some p) (hm : p.msg = .request i old changed) (hi : i < p.buf.count) :
    σ.locks (lockOf cfg.segs p.node (p.buf.objAddr i)) = p.buf.version i := by
  obtain ⟨b, hw, -, -, hlock, hver, hfree⟩ := hok.requested (List.mem_of_getElem? hk) hm hi
  rw [hlock, hver]
  exact h.word_eq (.inl (Tx.recordsAt_entryTs hw)) hfree

/-- So the handler refuses nothing. -/
theorem CalmTx.refused_eq (h : CalmTx cfg σ.locks (σ.th t) (σ.me t) (σ.net t)) (hok : σ.Ok cfg)
    {k : ℕ} (hs : step cfg σ (.handle t k) = some σ') :
    (σ'.me t).refused = (σ.me t).refused := by
  change stepHandle cfg σ t k = some σ' at hs
  rw [stepHandle] at hs
  split at hs
  · cases hs
  · next p hk =>
    split at hs
    · cases hs
    · next i old changed hm =>
      split at hs
      · next hi =>
        have hword := h.word_requested hok hk hm hi
        have hmsg := h.msg p (List.mem_of_getElem? hk)
        simp only [AloneMsg, hm] at hmsg
        cases old with
        | none =>
          simp only [stepRequest, hword, isRefused_self, Option.some.injEq] at hs
          subst hs
          rfl
        | some w =>
          rw [hmsg.1 w rfl, stepRequest, if_pos hword, Option.some.injEq] at hs
          subst hs
          refine Sys.lift (P := fun _ me => me.refused = (σ.me t).refused) ?_ rfl rfl
          rfl
      · cases hs
        rfl

/-! ## Steps of the transaction -/

/-- `readCell` returns: the two lock words that it has seen are equal, so the cell still has the
timestamp that it is recorded with. -/
theorem CalmTx.fetched (h : CalmTx cfg σ.locks (σ.th t) (σ.me t) (σ.net t)) (hok : σ.Ok cfg)
    {op : Op cfg.segs} {ts : Word} {buf : ℕ → Byte}
    (hpc : (σ.th t).pc = .readCell op (.data ts [] buf))
    (hlk : isLocked (σ.locks (cfg.segs.lockLoc op.access.addr)) = false)
    (he : isTimestampsEquivalent ts (σ.locks (cfg.segs.lockLoc op.access.addr)) = true) :
    CalmTx cfg σ.locks
      { σ.th t with
        tx := (σ.th t).tx.fetched cfg.build.variant op ts buf
        pc := .increaseClock op ts buf none
        toCache := cfg.build.toCache op.access.block ts }
      { σ.me t with seen := (σ.me t).seen.insert op.access.block ⟨ts, fun i => buf i⟩ }
      (σ.net t) := by
  have hl := (hok.local_ok t).pc
  simp only [PcOk, hpc] at hl
  have hword : σ.locks (cfg.segs.lockLoc op.access.block) = ts := by
    rw [Access.block, op.access.inHeap.lockLoc_blockLb]
    exact (hl.2.eq_of_equivalent (isLocked_eq_false.1 hlk) he).symm
  refine h.go (fun b x hb => ?_) (fun b hb => absurd hb (hok.not_held (by rw [hpc]; rfl) b)) trivial
    (Tx.fetched_eq ts buf).1 rfl h.msg
  rcases hb with hb | hb
  · rcases hb.of_fetched with hb | ⟨rfl, rfl⟩
    · exact .inl (.inl hb)
    · exact .inr hword
  · obtain ⟨rfl, rfl⟩ := Prod.mk.inj (Option.some.inj hb)
    exact .inr hword

/-- `getLocks` has all locks: `validateAll` looks at cells that are not locked by the transaction,
as those of the read set are not in the write set. -/
theorem CalmTx.lockPoint (h : CalmTx cfg locks th me net) (o : Tx.Orders)
    (hdis : cfg.build.variant = .variant1 → ∀ b ∈ th.tx.readSet, b ∉ th.tx.writeSet) :
    CalmTx cfg locks
      { th with pc := .validateAll o (th.tx.allEntries cfg.build.variant o) false }
      { me with writes := th.tx.writeSet } net := by
  refine h.go (fun b x hb => .inl (.inl (hb.recordsAt rfl))) (fun _ _ => rfl) (fun p hp => ?_) rfl
    rfl h.msg
  obtain ⟨hp, hw⟩ := List.mem_filter.1 hp
  obtain ⟨e, he, hts⟩ := of_mem_timestamps hp
  refine ⟨⟨e, .inl he, hts⟩, fun hm => ?_⟩
  cases hvar : cfg.build.variant with
  | variant1 => exact hdis hvar p.1 (mem_of_lookup he) hm
  | variant2 =>
    rw [hvar] at hw
    obtain ⟨e', he'⟩ := exists_lookup hm
    simp [he'] at hw

/-- A lock is granted: both the timestamp that the transaction goes by and that of the entry have
stood in the lock word. -/
theorem CalmTx.grant (h : CalmTx cfg σ.locks (σ.th t) (σ.me t) (σ.net t)) (hok : σ.Ok cfg)
    {k i : ℕ} {p : Packet} {old : Word} {changed : List Word} (hk : (σ.net t)[k]? = some p)
    (hm : p.msg = .request i (some old) changed) (hi : i < p.buf.count) :
    CalmTx cfg
      (Function.update σ.locks (lockOf cfg.segs p.node (p.buf.objAddr i))
        (lockValNew (p.buf.version i)))
      (σ.th t)
      { σ.me t with
        granted := (σ.me t).granted ++ [(changedObj p.node (p.buf.objAddr i), old)]
        held := (σ.me t).held ++ [(changedObj p.node (p.buf.objAddr i), old)] }
      ((σ.net t).set k { p with msg := .request (i + 1) none changed }) := by
  have hold := h.msg p (List.mem_of_getElem? hk)
  simp only [AloneMsg, hm] at hold
  obtain ⟨b, hbw, hb, hobj, hlock, hver, hnot⟩ := hok.requested (List.mem_of_getElem? hk) hm hi
  refine ⟨fun b' ts hk' => ?_, h.pc, h.changed,
    h.msg_set ⟨fun w hw => (by cases hw), hold.2⟩⟩
  rw [hobj, hlock, List.map_append]
  rcases eq_or_ne b' b with rfl | hbb
  · refine .inr ⟨List.mem_append_right _ (by simp), ?_⟩
    exact (h.word_eq hk' hnot).symm.trans (h.word_eq (.inl (Tx.recordsAt_entryTs hbw)) hnot)
  · rw [Function.update_of_ne fun he =>
      hbb (Segments.lockLoc_inj (hk'.isCell (hok.local_ok t).tx) hb he)]
    exact (h.word b' ts hk').imp_right fun hh => ⟨List.mem_append_left _ hh.1, hh.2⟩

/-- A step of a calm transaction keeps it calm until it has passed validation or is over. -/
theorem Rule.calm (hr : Rule cfg σ a σ') (hs : step cfg σ a = some σ') (hg : σ.Good cfg)
    (hv : cfg.build.cache = false)
    (hidle : (σ.th a.tid).pc = .idle →
      (σ.th a.tid).tx.readSet = ∅ ∧ (σ.th a.tid).tx.writeSet = ∅)
    (hdis : cfg.build.variant = .variant1 → ∀ b ∈ (σ.th a.tid).tx.readSet,
      b ∉ (σ.th a.tid).tx.writeSet)
    (h : σ.CalmAt cfg a.tid) : σ'.CalmAt cfg a.tid := by
  have lift : ∀ {th : Thread cfg.segs} {me : Attempt cfg.segs},
      σ'.th = (σ.upd a.tid th me).th → σ'.att = (σ.upd a.tid th me).att →
      (th.pc ≠ .idle → th.pc.writing = false → CalmTx cfg σ'.locks th me (σ'.net a.tid)) →
      σ'.CalmAt cfg a.tid := fun h1 h2 h3 => Sys.lift (P := fun th me => th.pc ≠ .idle →
        th.pc.writing = false → CalmTx cfg σ'.locks th me (σ'.net a.tid)) h3 h1 h2
  have hfree : (σ.th a.tid).pc.calling = true → ∀ b, b ∉ (σ.me a.tid).held.map Prod.fst :=
    hg.ok.not_held
  have new : ∀ {l}, σ'.net = Function.update σ.net a.tid l → (∀ q ∈ l, AloneMsg q) →
      ∀ q ∈ σ'.net a.tid, AloneMsg q := by
    intro l hnet hall
    rw [hnet, Function.update_self]
    exact hall
  cases hr with
  | goto ha hc hgo =>
    subst ha
    refine lift rfl rfl fun _ hw => ?_
    have hcalm := h hgo.not_idle.1 (hgo.writing_eq ▸ hw)
    refine hcalm.go (fun b ts hb => .inl (hb.imp id hgo.carried)) (fun _ _ => rfl)
      (hgo.calmPc hcalm.pc hcalm.changed) rfl rfl hcalm.msg
  | new ptr hpc | delete hpc => exact lift rfl rfl fun hne => absurd hpc hne
  | @begin t ptr hpc =>
    have hl := (hg.ok.local_ok t).pc
    simp only [PcOk, hpc] at hl
    obtain ⟨hr, hw⟩ := hidle hpc
    refine lift rfl rfl fun _ _ => ⟨fun b ts hb => ?_, trivial, rfl, ?_⟩
    · rcases hb with hb | hb
      · exact absurd hb (Tx.not_recordsAt hr hw)
      · cases hb
    · intro p (hp : p ∈ σ.net t)
      rw [hl.net] at hp
      cases hp
  | addVersion =>
    exact lift rfl rfl fun hi hw =>
      (h hi hw).congr rfl rfl rfl (h hi hw).changed rfl (h hi hw).msg
  | abort hpc hc ha =>
    subst ha
    exact lift rfl rfl fun hne => absurd rfl hne
  | released | committed => exact lift rfl rfl fun hne => absurd rfl hne
  | restore hpc =>
    have hcalm := h (by rw [Act.tid, hpc]; simp) (by rw [Act.tid, hpc]; rfl)
    have hp := hcalm.pc
    rw [Act.tid, hpc] at hp
    exact hp.elim
  | @served t op tx r hpc hc hsv =>
    have hcalm := h (by rw [Act.tid, hpc]; simp) (by rw [Act.tid, hpc]; rfl)
    refine lift rfl rfl fun _ _ => hcalm.go ?_
      (fun b hb => absurd hb (hfree (by rw [Act.tid, hpc]; rfl) b)) ?_ (Tx.served_eq hsv).1 rfl
      hcalm.msg
    · rintro b ts (hb | hb)
      · exact .inl (.inl (hb.of_served hsv))
      · exact .inl (.inr hb)
    · dsimp only
      rw [hpc]
      trivial
  | @fetched t c op ts buf hpc hc hlk he =>
    have hcalm := h (by rw [Act.tid, hpc]; simp) (by rw [Act.tid, hpc]; rfl)
    exact lift rfl rfl fun _ _ => hcalm.fetched hg.ok hpc hlk he
  | @clockRaised t c op ts buf hpc =>
    have hcalm := h (by rw [Act.tid, hpc]; simp) (by rw [Act.tid, hpc]; rfl)
    refine lift rfl rfl fun _ _ => hcalm.go (fun b x hb => .inl (hb.imp id fun hb => ?_))
      (fun _ _ => rfl) trivial rfl rfl hcalm.msg
    rw [Act.tid, hpc]
    exact hb
  | @finish t c op ts buf hpc | @finishValid t c op ts buf looked hpc =>
    have hcalm := h (by rw [Act.tid, hpc]; simp) (by rw [Act.tid, hpc]; rfl)
    refine lift rfl rfl fun _ _ => hcalm.go (fun b x hb => .inl ?_)
      (fun b hb => absurd hb (hfree (by rw [Act.tid, hpc]; rfl) b)) trivial (Tx.finished_eq ts _).1
      rfl hcalm.msg
    rcases hb with hb | hb
    · rcases hb.of_finished with hb | ⟨rfl, rfl⟩
      · exact .inl hb
      · right
        rw [Act.tid, hpc]
        rfl
    · cases hb
  | @lockPoint t c o done hpc =>
    have hcalm := h (by rw [Act.tid, hpc]; simp) (by rw [Act.tid, hpc]; rfl)
    exact lift rfl rfl fun _ _ => hcalm.lockPoint o hdis
  | batch hpc =>
    have hcalm := h (by rw [Act.tid, hpc]; simp) (by rw [Act.tid, hpc]; rfl)
    exact lift rfl rfl fun _ _ => hcalm.go (fun b x hb => .inl (.inl (hb.recordsAt rfl)))
      (fun _ _ => rfl) trivial rfl rfl hcalm.msg
  | @send t c o done batch rest unsent requests k node buf hpc =>
    have hcalm := h (by rw [Act.tid, hpc]; simp) (by rw [Act.tid, hpc]; rfl)
    refine lift rfl rfl fun _ _ => hcalm.go (fun b x hb => .inl (.inl (hb.recordsAt rfl)))
      (fun _ _ => rfl)
      trivial rfl rfl (new rfl fun p hp => ?_)
    rcases List.mem_append.1 hp with hp | hp
    · exact hcalm.msg p hp
    · rw [List.mem_singleton.1 hp]
      exact ⟨fun w hw => (by cases hw), rfl⟩
  | @invalid t c o b e left looked v hpc =>
    have hcalm := h (by rw [Act.tid, hpc]; simp) (by rw [Act.tid, hpc]; rfl)
    have hne := hcalm.not_invalid hg hv hpc hs o.ws
    dsimp only at hne
    rw [Act.tid, Sys.upd_th] at hne
    exact absurd rfl hne
  | validated | put | issue | release => exact lift rfl rfl fun _ hw => by cases hw
  | @load t k p i changed hk hm hi =>
    intro hne hw
    have hcalm := h hne hw
    have hold := hcalm.msg p (List.mem_of_getElem? hk)
    simp only [AloneMsg, hm] at hold
    refine hcalm.congr rfl rfl rfl hcalm.changed rfl
      (new rfl (hcalm.msg_set ⟨fun w hw => ?_, hold.2⟩))
    rw [← Option.some.inj hw]
    exact hcalm.word_requested hg.ok hk hm hi
  | @refuse t k p i old changed hk hm hi =>
    refine lift rfl rfl fun hne hw => ?_
    -- The record would have one more refusal.
    have hlen := congrArg List.length ((h hne hw).refused_eq hg.ok hs)
    have hnew : ((DstmP1.refuse cfg σ t k p i changed).me t).refused.length =
        (σ.me t).refused.length + 1 :=
      Sys.lift (P := fun _ me => me.refused.length = (σ.me t).refused.length + 1)
        List.length_append rfl rfl
    rw [Act.tid, hnew] at hlen
    omega
  | @grant t k p i old changed hk hm hi ho =>
    refine lift rfl rfl fun hne hw => ?_
    have hcalm := (h hne hw).grant hg.ok hk hm hi
    exact hcalm.congr rfl rfl rfl hcalm.changed rfl (new rfl hcalm.msg)
  | @reply t k p i old changed hk hm hi =>
    intro hne hw
    have hcalm := h hne hw
    have hold := hcalm.msg p (List.mem_of_getElem? hk)
    simp only [AloneMsg, hm] at hold
    exact hcalm.congr rfl rfl rfl hcalm.changed rfl (new rfl (hcalm.msg_set hold.2))
  | deliver hk hm hdesc =>
    obtain rfl := delivers hg.ok.local_ok hg.ok.descs _ _ _ _ _ _ hk hm hdesc
    refine lift rfl rfl fun hne hw => ?_
    have hcalm := h hne hw
    have hmsg := hcalm.msg _ (List.mem_of_getElem? hk)
    simp only [AloneMsg, hm] at hmsg
    refine hcalm.congr rfl rfl rfl ?_ rfl
      (new rfl fun p hp => hcalm.msg p (List.mem_of_mem_eraseIdx hp))
    rw [hmsg, List.append_nil]
    exact hcalm.changed
  | lost =>
    intro hne hw
    have hcalm := h hne hw
    exact hcalm.congr rfl rfl rfl hcalm.changed rfl
      (new rfl fun p hp => hcalm.msg p (List.mem_of_mem_eraseIdx hp))

/-! ## Steps of others -/

/-- A step of another thread keeps the transaction calm, or takes or gives back the lock of a cell
that it uses. -/
theorem Rule.calm_other (hr : Rule cfg σ a σ') (hg : σ.Good cfg) (hg' : σ'.Good cfg)
    (ht : t ≠ a.tid) (h : σ.CalmAt cfg t) :
    σ'.CalmAt cfg t ∨ ∃ τ ∈ [σ', σ], ∃ b, τ.Contends (σ'.cur t) b := by
  have hsame := hr.sameBut (delivers hg.ok.local_ok hg.ok.descs)
  have hth := hsame.th t ht
  have hcur : σ'.cur t = σ.cur t := by rw [Sys.cur, Sys.cur, hth]
  refine or_iff_not_imp_right.2 fun hno hne hw => ?_
  rw [hth] at hne hw
  have hcalm := h hne hw
  rw [hth, hsame.me ht, hsame.net t ht]
  refine ⟨fun b ts hk => ?_, hcalm.pc, hcalm.changed, hcalm.msg⟩
  have hb := hk.isCell (hg.ok.local_ok t).tx
  -- Nobody else holds the lock of `b`, before the step or after it.
  have hfree : ∀ w, w.1 ≠ t → ¬ σ.Holds w b ∧ ¬ σ'.Holds w b := by
    refine fun w hwt => ⟨fun hh => hno ⟨σ, by simp, b, ?_⟩, fun hh => hno ⟨σ', by simp, b, ?_⟩⟩
    · exact ⟨hcur.symm, hk.uses, w, hwt, hh⟩
    · refine ⟨rfl, ?_, w, hwt, hh⟩
      rw [Sys.cur, hth]
      exact hk.uses
  have hkeep : σ'.Holds (σ.cur t) b ↔ σ.Holds (σ.cur t) b := by
    rw [Sys.Holds, Sys.Holds, hsame.att _ ht]
  have hword : σ'.locks (cfg.segs.lockLoc b) = σ.locks (cfg.segs.lockLoc b) := by
    cases hr.lockStep hg.ok hg.att with
    | keep hl => rw [hl]
    | @grant u b' hin hbu hgr hl hheld =>
      have hh : σ'.Holds (σ.cur u) b' := (holds_grant hheld _ _).2 (.inr ⟨rfl, rfl⟩)
      rw [hl, Function.update_of_ne]
      intro he
      obtain rfl := Segments.lockLoc_inj hb (hh.inside hg'.ok hg'.att).2.2.2 he
      rcases eq_or_ne u t with rfl | hu
      · exact not_holds_of_granted hg.ok hg.own hbu hgr _ (hkeep.1 hh)
      · exact (hfree _ hu).2 hh
    | @giveBack u b' w hh hp hl hheld =>
      rw [hl, Function.update_of_ne]
      intro he
      obtain rfl := Segments.lockLoc_inj hb (hh.inside hg.ok hg.att).2.2.2 he
      rcases eq_or_ne u t with rfl | hu
      · exact ((holds_giveBack hheld _ _).1 (hkeep.2 hh)).2 ⟨rfl, rfl⟩
      · exact (hfree _ hu).1 hh
  rw [hword]
  exact hcalm.word b ts hk

/-! ## The maps of a transaction -/

/-- A thread outside its transactions has empty maps. -/
def Thread.MapsOk (th : Thread cfg.segs) : Prop :=
  th.pc = .idle → th.tx.readSet = ∅ ∧ th.tx.writeSet = ∅

/-- A step of a thread keeps its maps apart. -/
theorem Rule.mapsOk (hr : Rule cfg σ a σ') (hok : σ.Ok cfg) (h : (σ.th a.tid).MapsOk) :
    (σ'.th a.tid).MapsOk := by
  have lift : ∀ {th : Thread cfg.segs}, σ'.th = Function.update σ.th a.tid th → th.MapsOk →
      (σ'.th a.tid).MapsOk := by
    intro th hth ho
    rwa [hth, Function.update_self]
  cases hr with
  | goto ha hc hgo =>
    subst ha
    exact lift rfl fun hi => absurd hi hgo.not_idle.2
  | new => exact lift rfl fun _ => ⟨rfl, rfl⟩
  | delete | addVersion | refuse | grant => exact lift rfl h
  | load | reply | lost => exact h
  | deliver hk hm hdesc =>
    obtain rfl := delivers hok.local_ok hok.descs _ _ _ _ _ _ hk hm hdesc
    exact lift rfl h
  | abort hpc hc ha =>
    subst ha
    exact lift rfl fun _ => ⟨rfl, rfl⟩
  | released | committed => exact lift rfl fun _ => ⟨rfl, rfl⟩
  | served hpc =>
    refine lift rfl fun hi => ?_
    rw [show (σ.th _).pc = .idle from hi] at hpc
    cases hpc
  | _ => exact lift rfl fun hi => by cases hi

/-- Some memory has the cells of a map. -/
theorem exists_agrees {g : Segments} {seen : CellMap} (h : ∀ b ∈ seen, g.IsCell b) :
    ∃ base : Flat, base.Agrees seen := by
  classical
  let Has (n : ℕ) (p : Word) (x : Byte) : Prop := ∃ b e, ∃ i : Fin cellSize,
    seen.lookup b = some e ∧ Segments.cellLoc b i = (n, p) ∧ e.copy i = x
  refine ⟨fun n p => if hx : ∃ x, Has n p x then hx.choose else 0, fun b e he => ?_⟩
  funext i
  have hex : ∃ x, Has (Segments.cellLoc b i).1 (Segments.cellLoc b i).2 x :=
    ⟨e.copy i, b, e, i, he, rfl, rfl⟩
  rw [Flat.cell_apply, dif_pos hex]
  obtain ⟨b', e', i', he', hl, hx⟩ := hex.choose_spec
  obtain ⟨rfl, hi⟩ := Segments.cellLoc_inj (h _ (mem_of_lookup he')) (h _ (mem_of_lookup he))
    i'.2 i.2 hl
  obtain rfl := Fin.ext hi
  rw [he] at he'
  cases he'
  exact hx.symm

/-- In `VARIANT1` the two maps of a thread have no cell in common. -/
theorem Sys.TxnsOk.disjoint (h : σ.TxnsOk cfg) {b : Word} (hb : b ∈ (σ.th t).tx.readSet) :
    b ∉ (σ.th t).tx.writeSet := by
  rcases Classical.em ((σ.th t).pc = .idle) with hpc | hpc
  · rw [((h.runs t).idle hpc).1] at hb
    cases hb
  · have hrun := (h.runs t).running hpc
    obtain ⟨base, hbase⟩ := exists_agrees fun b hb =>
      hrun.isCell (h.good.ok.local_ok t).tx hb
    obtain ⟨m, -, ht, -⟩ := hrun.runs base hbase
    obtain ⟨e, he⟩ := exists_lookup hb
    exact (ht.read b e he).2.2

/-! ## How a transaction aborts -/

/-- A transaction aborts in a step of its thread outside `commit`, or at the end of
`releaseLocks`. -/
theorem Rule.aborts (hr : Rule cfg σ a σ') (hok : σ.Ok cfg) {u : Tid × ℕ}
    (hu : (σ'.att u).aborted = true) : (σ.att u).aborted = true ∨ u = σ.cur a.tid ∧
      ((σ.th a.tid).pc.calling = true ∧ (σ.th a.tid).toCache = none ∧ (σ'.th a.tid).pc = .idle ∨
        (σ.th a.tid).pc = .releaseLocks []) := by
  have hsame := hr.sameBut (delivers hok.local_ok hok.descs)
  rcases eq_or_ne u (σ'.cur a.tid) with rfl | hne
  · have lift : ∀ {th : Thread cfg.segs} {me : Attempt cfg.segs},
        σ'.th = (σ.upd a.tid th me).th → σ'.att = (σ.upd a.tid th me).att →
        (me.aborted = true → th.round = (σ.th a.tid).round ∧ ((σ.me a.tid).aborted = true ∨
          (σ.th a.tid).pc.calling = true ∧ (σ.th a.tid).toCache = none ∧ th.pc = .idle ∨
          (σ.th a.tid).pc = .releaseLocks [])) →
        (σ.att (σ'.cur a.tid)).aborted = true ∨ σ'.cur a.tid = σ.cur a.tid ∧
          ((σ.th a.tid).pc.calling = true ∧ (σ.th a.tid).toCache = none ∧
            (σ'.th a.tid).pc = .idle ∨ (σ.th a.tid).pc = .releaseLocks []) := by
      intro th me h1 h2 h3
      obtain ⟨hround, ho⟩ := Sys.lift (P := fun th me => me.aborted = true →
        th.round = (σ.th a.tid).round ∧ ((σ.me a.tid).aborted = true ∨
          (σ.th a.tid).pc.calling = true ∧ (σ.th a.tid).toCache = none ∧ th.pc = .idle ∨
          (σ.th a.tid).pc = .releaseLocks [])) h3 h1 h2 hu
      have hcur : σ'.cur a.tid = σ.cur a.tid := by rw [Sys.cur, Sys.cur, hround]
      rw [hcur]
      exact ho.imp id fun ho => ⟨rfl, ho⟩
    cases hr with
    | goto ha hc hgo =>
      subst ha
      exact lift rfl rfl fun h => ⟨rfl, .inl h⟩
    | begin => exact lift rfl rfl fun h => by cases h
    | abort hpc hc ha =>
      subst ha
      exact lift rfl rfl fun _ => ⟨rfl, .inr (.inl ⟨hpc, hc, rfl⟩)⟩
    | released hpc => exact lift rfl rfl fun _ => ⟨rfl, .inr (.inr hpc)⟩
    | load | reply | lost => exact .inl hu
    | deliver hk hm hdesc =>
      obtain rfl := delivers hok.local_ok hok.descs _ _ _ _ _ _ hk hm hdesc
      exact lift rfl rfl fun h => ⟨rfl, .inl h⟩
    | _ => exact lift rfl rfl fun h => ⟨rfl, .inl h⟩
  · rcases eq_or_ne u.1 a.tid with ht | ht
    · rw [hr.att_ne (ht ▸ hne)] at hu
      exact .inl hu
    · rw [hsame.att u ht] at hu
      exact .inl hu

/-! ## Every run -/

/-- The current transaction of the thread of `u` was `u` when it was rolled back. -/
def RolledBack (h : List (Sys cfg.segs × Act cfg.segs)) (u : Tid × ℕ) : Prop :=
  ∃ x ∈ h, x.2 = .rollback u.1 ∧ x.1.cur u.1 = u

theorem RolledBack.cons {h : List (Sys cfg.segs × Act cfg.segs)} {u : Tid × ℕ}
    (hr : RolledBack h u) (x : Sys cfg.segs × Act cfg.segs) : RolledBack (x :: h) u := by
  obtain ⟨y, hy, ho⟩ := hr
  exact ⟨y, List.mem_cons_of_mem _ hy, ho⟩

/-- What holds in a run: a transaction is calm or has met a conflict, and one that has aborted was
rolled back or has met one. -/
structure ConflictOk (cfg : Config) (h : List (Sys cfg.segs × Act cfg.segs)) (σ : Sys cfg.segs) :
    Prop where
  good : σ.Good cfg
  locked : σ.LockedOk cfg
  txns : cfg.build.variant = .variant1 → σ.TxnsOk cfg
  maps : ∀ t, (σ.th t).MapsOk
  calm : ∀ t, σ.CalmAt cfg t ∨ Met (σ :: h.map Prod.fst) (σ.cur t)
  ended : ∀ u, (σ.att u).aborted = true → RolledBack h u ∨ Met (σ :: h.map Prod.fst) u

variable {h : List (Sys cfg.segs × Act cfg.segs)}

theorem ConflictOk.init (objs : Flat) : ConflictOk cfg [] (Sys.init cfg.segs objs) where
  good := .init objs
  locked := .init objs
  txns _ := .init objs
  maps _ _ := ⟨rfl, rfl⟩
  calm _ := .inl fun hne => absurd rfl hne
  ended _ ha := by cases ha

/-- One step keeps the account of conflicts. -/
theorem ConflictOk.step (hi : ConflictOk cfg h σ) (hv : cfg.build.cache = false)
    (hs : step cfg σ a = some σ') (hb : ClockBelow cfg (2 ^ 48) σ a σ') :
    ConflictOk cfg ((σ, a) :: h) σ' := by
  have hr := step_rule hs
  have hg := hi.good
  have hg' := hg.step hr
  have hsame := hr.sameBut (delivers hg.ok.local_ok hg.ok.descs)
  have hmono : ∀ {u}, Met (σ :: h.map Prod.fst) u → Met (σ' :: ((σ, a) :: h).map Prod.fst) u :=
    fun hm => hm.mono (List.subset_cons_self _ _)
  refine ⟨hg', hi.locked.step hg hr (lt_trans hb (by decide)), fun hvar =>
    (hi.txns hvar).step hvar hr hb, fun t => ?_, fun t => ?_, fun u hu => ?_⟩
  · rcases eq_or_ne t a.tid with rfl | ht
    · exact hr.mapsOk hg.ok (hi.maps _)
    · rw [hsame.th t ht]
      exact hi.maps t
  · rcases eq_or_ne t a.tid with rfl | ht
    · have hown : σ.CalmAt cfg a.tid → σ'.CalmAt cfg a.tid :=
        hr.calm hs hg hv (hi.maps _) fun hvar b hb => (hi.txns hvar).disjoint hb
      rcases hr.round a.tid with hround | ⟨hpc, -⟩
      · rw [show σ'.cur a.tid = σ.cur a.tid by rw [Sys.cur, Sys.cur, hround]]
        exact (hi.calm a.tid).imp hown hmono
      · -- A new transaction begins.
        exact .inl (hown fun hne => absurd hpc hne)
    · have hcur : σ'.cur t = σ.cur t := by rw [Sys.cur, Sys.cur, hsame.th t ht]
      rcases hi.calm t with hcalm | hmet
      · refine (hr.calm_other hg hg' ht hcalm).imp id fun hmet => ?_
        obtain ⟨τ, hτ, hc⟩ := hmet
        refine ⟨τ, ?_, hc⟩
        rcases List.mem_cons.1 hτ with rfl | hτ
        · exact List.mem_cons_self
        · exact List.mem_cons_of_mem _ (List.mem_singleton.1 hτ ▸ List.mem_cons_self)
      · rw [hcur]
        exact .inr (hmono hmet)
  · rcases hr.aborts hg.ok hu with hold | ⟨rfl, hhow⟩
    · exact (hi.ended u hold).imp (fun hroll => hroll.cons _) hmono
    · rcases Classical.em (a = .rollback a.tid) with hroll | hroll
      · exact .inl ⟨_, List.mem_cons_self, hroll, rfl⟩
      · refine .inr (hmono ?_)
        rcases hi.calm a.tid with hcalm | hmet
        · rcases hhow with ⟨hpc, hc, hidle⟩ | hpc
          · have hcause := (step_calling hg.ok hs hroll hpc hc).resolve_left (· hidle)
            have hne : (σ.th a.tid).pc ≠ .idle := (Pc.calling_iff.1 hpc).2
            obtain ⟨b, hb⟩ := (hcalm hne (Pc.not_writing_of_calling hpc)).contends hg hi.locked hv
              hpc hcause
            exact ⟨σ, List.mem_cons_self, b, hb⟩
          · have hp := (hcalm (by rw [hpc]; simp) (by rw [hpc]; rfl)).pc
            rw [hpc] at hp
            exact hp.elim
        · exact hmet

/-- The account of conflicts as a run leaves it. -/
theorem trace_conflictOk {objs : Flat} (hv : cfg.build.cache = false)
    (ht : (cfg.lts objs).Trace h σ) (hb : ∀ x ∈ h, SmallStep cfg x = true) :
    ConflictOk cfg h σ := by
  induction ht with
  | init hi => exact hi ▸ .init objs
  | @step h σ σ' a ht hs ih =>
    have hsmall := hb _ List.mem_cons_self
    rw [SmallStep, show step cfg σ a = some σ' from hs, Option.all_some, decide_eq_true_iff]
      at hsmall
    exact (ih fun x hx => hb x (List.mem_cons_of_mem _ hx)).step hv hs hsmall

/-- **Nobody aborts without a conflict**: in a run without the version cache in which no clock
reaches `2^48`, a transaction that has aborted was rolled back, or at some moment another one held
the lock of a cell that it had recorded or was in a call to. -/
theorem trace_progressive {objs : Flat} (hv : cfg.build.cache = false)
    (ht : (cfg.lts objs).Trace h σ) (hb : ∀ x ∈ h, SmallStep cfg x = true) {u : Tid × ℕ}
    (hu : (σ.att u).aborted = true) :
    RolledBack h u ∨ ∃ τ ∈ σ :: h.map Prod.fst, ∃ b, τ.Contends u b :=
  (trace_conflictOk hv ht hb).ended u hu

end

/-- Node 2 has read `cellX` when node 1 commits it, and aborts when it validates its read set. -/
theorem progressive_two : ∃ h σ, ((small ⟨.variant1, false⟩).lts fun _ _ => 0).Trace h σ ∧
    (σ.att (2, 1)).aborted = true ∧
    (RolledBack h (2, 1) ∨ ∃ τ ∈ σ :: h.map Prod.fst, ∃ b, τ.Contends (2, 1) b) := by
  have hrun : (((small ⟨.variant1, false⟩).lts fun _ _ => 0).runHist [] (Sys.init _ fun _ _ => 0)
      (List.flatten [[.new 2 16, .begin 2, .call 2 (.read cellX)], runsReading _ 2 5, writeX _,
        [.commit 2 ⟨[cellX.block], [], []⟩], runsReading _ 2 3])).map
      (fun r => (r.1.all (SmallStep (small ⟨.variant1, false⟩)), (r.2.att (2, 1)).aborted)) =
      some (true, true) := by decide +kernel
  obtain ⟨h, σ, ht, ho⟩ := Lts.Trace.of_runHist rfl hrun
  obtain ⟨hall, hab⟩ := Prod.mk.inj ho
  exact ⟨h, σ, ht, hab, trace_progressive rfl ht (List.all_eq_true.1 hall) hab⟩

end DstmP1
