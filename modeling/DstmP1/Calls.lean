import DstmP1.Aborts

/-!
# What the calls of a transaction amount to

A `VARIANT1` transaction works on copies of cells that it has read one after the other. On any flat
memory that has these cells as they were read (`Flat.Agrees`), its calls return what they have
returned, and its maps are what `Tx.Tracks` says (`TxnOk`). This is kept by every step, whatever
the other transactions do (`Rule.txnOk`); whether there is a memory that agrees with a transaction
is decided elsewhere.
-/

namespace DstmP1

open Segments (Loc)

/-- The memory has the cells `seen` as they were read. -/
def Flat.Agrees (m : Flat) (seen : CellMap) : Prop :=
  ∀ b e, seen.lookup b = some e → m.cell b = e.copy

/-- The cell `b` is in the read set or the write set with the timestamp `ts`. -/
def Tx.RecordsAt (tx : Tx) (b ts : Word) : Prop :=
  ∃ e, (tx.readSet.lookup b = some e ∨ tx.writeSet.lookup b = some e) ∧ e.ts = ts

section
variable {g : Segments} {tx tx' : Tx} {op : Op g} {b ts : Word} {r : List Byte}

theorem Tx.recordsAt_congr (hr : tx'.readSet = tx.readSet) (hw : tx'.writeSet = tx.writeSet) :
    tx'.RecordsAt b ts ↔ tx.RecordsAt b ts := by
  rw [Tx.RecordsAt, Tx.RecordsAt, hr, hw]

/-- Empty maps record nothing. -/
theorem Tx.not_recordsAt (hr : tx.readSet = ∅) (hw : tx.writeSet = ∅) : ¬ tx.RecordsAt b ts := by
  rintro ⟨e, he | he, -⟩
  · rw [hr] at he
    cases he
  · rw [hw] at he
    cases he

/-- The copy of an entry of the write set is replaced. -/
theorem Tx.recordsAt_insert {b₀ : Word} {e : Entry} (he : tx.writeSet.lookup b₀ = some e)
    (copy : Cell) :
    Tx.RecordsAt { tx with writeSet := tx.writeSet.insert b₀ ⟨e.ts, copy⟩ } b ts ↔
      tx.RecordsAt b ts := by
  rcases eq_or_ne b b₀ with rfl | hb
  · simp [Tx.RecordsAt, AList.lookup_insert, he, or_and_right, exists_or]
  · simp [Tx.RecordsAt, AList.lookup_insert_ne hb]

/-- A call that the maps serve leaves the cells and timestamps as they are. -/
theorem Tx.recordsAt_served (hs : tx.served .variant1 op = some (tx', r)) :
    tx'.RecordsAt b ts ↔ tx.RecordsAt b ts := by
  cases op with
  | read a =>
    simp only [Tx.served] at hs
    split at hs
    · cases hs
      rfl
    · obtain ⟨e, -, hp⟩ := Option.map_eq_some_iff.1 hs
      cases hp
      rfl
  | write a value =>
    simp only [Tx.served] at hs
    split at hs
    · next e he =>
      cases hs
      exact Tx.recordsAt_insert he _
    · next hn =>
      obtain ⟨e, he, hp⟩ := Option.map_eq_some_iff.1 hs
      cases hp
      rcases eq_or_ne b a.block with rfl | hb
      · simp [Tx.RecordsAt, AList.lookup_insert, AList.lookup_erase, he, hn]
      · simp [Tx.RecordsAt, AList.lookup_insert_ne hb, AList.lookup_erase_ne hb]

/-- So does the end of a call that has read its cell. -/
theorem Tx.recordsAt_finished {x : Word} {value : List Byte} :
    (tx.finished .variant1 op x value).1.RecordsAt b ts ↔ tx.RecordsAt b ts := by
  cases op with
  | read a => rfl
  | write a new =>
    dsimp only [Tx.finished]
    split
    · next e he => exact Tx.recordsAt_insert he _
    · rfl

/-- A cell that has been read is recorded with its timestamp. -/
theorem Tx.recordsAt_fetched {x : Word} {buf : ℕ → Byte} (hs : tx.served .variant1 op = none) :
    (tx.fetched .variant1 op x buf).RecordsAt b ts ↔
      b = op.access.block ∧ ts = x ∨ b ≠ op.access.block ∧ tx.RecordsAt b ts := by
  obtain ⟨hw, hr⟩ := Tx.Tracks.not_mem hs
  rw [← AList.lookup_eq_none] at hw hr
  cases op with
  | read a | write a value =>
    rcases eq_or_ne b a.block with rfl | hb
    · simp only [Op.access] at hw hr
      simp [Tx.RecordsAt, Tx.fetched, Op.access, AList.lookup_insert, hw, hr, eq_comm]
    · simp [Tx.RecordsAt, Tx.fetched, Op.access, AList.lookup_insert_ne hb, hb]

end

/-! ## Entries -/

section
variable {tx : Tx} {v : Variant} {o : Tx.Orders} {b ts : Word} {p : Word × Word}

/-- The entries of a map are among those that a list of its keys gives. -/
theorem mem_timestamps {m : CellMap} {l : List Word} {e : Entry} (he : m.lookup b = some e)
    (hl : l.Perm m.keys) : (b, e.ts) ∈ Tx.timestamps m l := by
  refine List.mem_filterMap.2 ⟨b, hl.mem_iff.2 (AList.mem_keys.1 (mem_of_lookup he)), ?_⟩
  rw [he]
  rfl

theorem of_mem_timestamps {m : CellMap} {l : List Word} (hp : p ∈ Tx.timestamps m l) :
    ∃ e, m.lookup p.1 = some e ∧ e.ts = p.2 := by
  obtain ⟨b, -, hb⟩ := List.mem_filterMap.1 hp
  obtain ⟨e, he, rfl⟩ := Option.map_eq_some_iff.1 hb
  exact ⟨e, he, rfl⟩

/-- The entries that `validate` looks at are recorded. -/
theorem Tx.recordsAt_of_stale (hp : p ∈ tx.staleEntries v o ts) : tx.RecordsAt p.1 p.2 := by
  rcases List.mem_append.1 (List.mem_filter.1 hp).1 with hp | hp
  · obtain ⟨e, he, hts⟩ := of_mem_timestamps hp
    exact ⟨e, .inl he, hts⟩
  · cases v with
    | variant1 =>
      obtain ⟨e, he, hts⟩ := of_mem_timestamps hp
      exact ⟨e, .inr he, hts⟩
    | variant2 => cases hp

end

/-! ## Transactions -/

/-- What a call that has read its cell knows. -/
def CallOk {g : Segments} (tx : Tx) (m : Flat) : Pc g → Prop
  | .increaseClock op _ buf _ | .validateStart op _ buf | .validate op _ buf _ _ =>
    match op with
    | .read a => (Tx.cellArgs .variant1 (.read a)).value buf = m.load a.addr a.width.bytes
    | .write a _ => a.block ∈ tx.writeSet ∧ a.block ∉ tx.readSet
  | _ => True

/-- The maps have the cells read with their timestamps, and on every memory that agrees with them
the calls return what they have returned; a cell that is being read is not in the maps. -/
structure TxnOk {g : Segments} (th : Thread g) (me : Attempt g) : Prop where
  new : ∀ op pc, th.pc = .readCell op pc → th.tx.served .variant1 op = none
  cells : ∀ b ts, th.tx.RecordsAt b ts ↔ ∃ c, me.seen.lookup b = some ⟨ts, c⟩
  runs : ∀ base, base.Agrees me.seen → ∃ m, replay base me.ops = some m ∧
    th.tx.Tracks g base m ∧ CallOk th.tx m th.pc

/-- A thread outside its transactions has empty maps. -/
structure RunOk {g : Segments} (th : Thread g) (me : Attempt g) : Prop where
  idle : th.pc = .idle → th.tx.readSet = ∅ ∧ th.tx.writeSet = ∅
  running : th.pc ≠ .idle → TxnOk th me

section
variable {cfg : Config} {σ σ' : Sys cfg.segs} {a : Act cfg.segs} {t : Tid}

section
variable {g : Segments} {th th' : Thread g} {me me' : Attempt g}

theorem Tx.served_eq_none_congr {tx tx' : Tx} {op : Op g} (hr : tx'.readSet = tx.readSet)
    (hw : tx'.writeSet = tx.writeSet) (h : tx.served .variant1 op = none) :
    tx'.served .variant1 op = none := by
  cases op with
  | read a | write a value =>
    simp only [Tx.served, hr, hw] at h ⊢
    split at h
    · cases h
    · simpa using h

theorem CallOk.congr {tx tx' : Tx} {m : Flat} {pc : Pc g} (h : CallOk tx m pc)
    (hr : tx'.readSet = tx.readSet) (hw : tx'.writeSet = tx.writeSet) : CallOk tx' m pc := by
  cases pc with
  | increaseClock op | validateStart op | validate op =>
    cases op with
    | read a => exact h
    | write a value =>
      simp only [CallOk, hr, hw] at h ⊢
      exact h
  | _ => trivial

/-- The two maps, the cells read and the calls count, and what the code knows of its call. -/
theorem TxnOk.congr (h : TxnOk th me) (hr : th'.tx.readSet = th.tx.readSet)
    (hw : th'.tx.writeSet = th.tx.writeSet) (hs : me'.seen = me.seen) (ho : me'.ops = me.ops)
    (hn : ∀ op pc, th'.pc = .readCell op pc → th.tx.served .variant1 op = none)
    (hc : ∀ m, CallOk th.tx m th.pc → CallOk th.tx m th'.pc) : TxnOk th' me' where
  new op pc hpc := Tx.served_eq_none_congr hr hw (hn op pc hpc)
  cells b ts := by rw [Tx.recordsAt_congr hr hw, hs, h.cells]
  runs base ha := by
    obtain ⟨m, hm, ht, hcall⟩ := h.runs base (hs ▸ ha)
    exact ⟨m, ho ▸ hm, ht.congr hr hw, (hc m hcall).congr hr hw⟩

theorem RunOk.of_idle (hpc : th.pc = .idle) (hr : th.tx.readSet = ∅) (hw : th.tx.writeSet = ∅) :
    RunOk th me :=
  ⟨fun _ => ⟨hr, hw⟩, fun hne => absurd hpc hne⟩

theorem RunOk.of_running (hpc : th.pc ≠ .idle) (h : TxnOk th me) : RunOk th me :=
  ⟨fun hi => absurd hi hpc, fun _ => h⟩

/-- A thread that stays where it is. -/
theorem RunOk.congr (h : RunOk th me) (hpc : th'.pc = th.pc)
    (hr : th'.tx.readSet = th.tx.readSet) (hw : th'.tx.writeSet = th.tx.writeSet)
    (hs : me'.seen = me.seen) (ho : me'.ops = me.ops) : RunOk th' me' where
  idle hi := by
    rw [hr, hw]
    exact h.idle (hpc ▸ hi)
  running hne :=
    have ht := h.running (hpc ▸ hne)
    ht.congr hr hw hs ho (hpc ▸ ht.new) fun m hc => hpc ▸ hc

/-- A transaction that begins. -/
theorem TxnOk.begin (hr : th.tx.readSet = ∅) (hw : th.tx.writeSet = ∅) (hpc : th.pc = .active)
    (now : ℕ) : TxnOk th (Attempt.new g now) where
  new op pc h := by
    rw [hpc] at h
    cases h
  cells b ts := by
    refine ⟨fun hb => absurd hb (Tx.not_recordsAt hr hw), ?_⟩
    rintro ⟨c, hc⟩
    cases hc
  runs base _ := ⟨base, rfl, .empty base hr hw, by rw [hpc]; trivial⟩

/-- The maps serve a call. -/
theorem TxnOk.served (h : TxnOk th me) {op : Op g} {tx : Tx} {r : List Byte}
    (hs : th.tx.served .variant1 op = some (tx, r)) (hpc : th.pc = .active) :
    TxnOk { th with tx := tx } { me with ops := me.ops ++ [(op, r)] } where
  new op pc h := by
    dsimp only at h
    rw [hpc] at h
    cases h
  cells b ts := (Tx.recordsAt_served hs).trans (h.cells b ts)
  runs base ha := by
    obtain ⟨m, hm, ht, -⟩ := h.runs base ha
    obtain ⟨rfl, ht⟩ := ht.served hs
    exact ⟨op.apply m, replay_concat hm op, ht, by dsimp only; rw [hpc]; trivial⟩

/-- A call has read its cell. -/
theorem TxnOk.fetched (h : TxnOk th me) {op : Op g} {ts : Word} {buf : ℕ → Byte}
    (hs : th.tx.served .variant1 op = none) (v : Option (Word × Word)) :
    TxnOk { th with
        tx := th.tx.fetched .variant1 op ts buf
        pc := .increaseClock op ts buf none
        toCache := v }
      { me with seen := me.seen.insert op.access.block ⟨ts, fun i => buf i⟩ } where
  new _ _ h := by cases h
  cells b x := by
    refine (Tx.recordsAt_fetched hs).trans ?_
    rcases eq_or_ne b op.access.block with rfl | hb
    · rw [AList.lookup_insert]
      refine ⟨?_, ?_⟩
      · rintro (⟨-, rfl⟩ | ⟨hne, -⟩)
        · exact ⟨_, rfl⟩
        · exact absurd rfl hne
      · rintro ⟨c, hc⟩
        cases hc
        exact .inl ⟨rfl, rfl⟩
    · simp [AList.lookup_insert_ne hb, hb, h.cells]
  runs base ha := by
    -- The cell has not been read before, so the memory agrees with the cells read earlier.
    have hnew : op.access.block ∉ me.seen := by
      intro hin
      obtain ⟨⟨x, c⟩, he⟩ := exists_lookup hin
      obtain ⟨hw, hr⟩ := Tx.Tracks.not_mem hs
      obtain ⟨e, he | he, -⟩ := (h.cells _ x).2 ⟨c, he⟩
      · exact hr (mem_of_lookup he)
      · exact hw (mem_of_lookup he)
    have hold : base.Agrees me.seen := by
      intro b e he
      refine ha b e ?_
      rwa [AList.lookup_insert_ne]
      rintro rfl
      exact hnew (mem_of_lookup he)
    have hcell : (fun i : Fin cellSize => buf i) = base.cell op.access.block :=
      (ha _ _ (AList.lookup_insert ..)).symm
    obtain ⟨m, hm, ht, -⟩ := h.runs base hold
    refine ⟨m, hm, ht.fetched hs ts hcell, ?_⟩
    obtain ⟨hw, hr⟩ := Tx.Tracks.not_mem hs
    cases op with
    | read a =>
      have hbuf : (fun i : Fin cellSize => buf i) = m.cell a.block :=
        hcell.trans (ht.cell_eq a.isCell hw).symm
      show (a.cellArgs true).value buf = _
      rw [CellArgs.filled_value _ (CellArgs.filled_of_copy rfl hbuf), a.valueIn_eq, Flat.load_eq]
    | write a value => exact ⟨(AList.mem_insert _).2 (.inl rfl), hr⟩

/-- A call that has read its cell returns. -/
theorem TxnOk.finished (h : TxnOk th me) {op : Op g} {ts : Word} {buf : ℕ → Byte} (tx : Tx)
    (hpc : ∀ m, CallOk th.tx m th.pc → CallOk th.tx m (.validateStart op ts buf))
    (hr : tx.readSet = th.tx.readSet) (hw : tx.writeSet = th.tx.writeSet) :
    let r := tx.finished .variant1 op ts ((Tx.cellArgs .variant1 op).value buf)
    TxnOk { th with tx := r.1, pc := .active } { me with ops := me.ops ++ [(op, r.2)] } where
  new _ _ h := by cases h
  cells b x := by
    rw [Tx.recordsAt_finished, Tx.recordsAt_congr hr hw]
    exact h.cells b x
  runs base ha := by
    obtain ⟨m, hm, ht, hcall⟩ := h.runs base ha
    have hcall := (hpc m hcall).congr hr hw
    have hfin := @Tx.Tracks.finished g tx base m op (ht.congr hr hw) ts
      ((Tx.cellArgs .variant1 op).value buf) (by cases op <;> exact hcall)
    obtain ⟨hres, ht⟩ := hfin
    rw [hres]
    exact ⟨op.apply m, replay_concat hm op, ht, trivial⟩

end

/-- A thread that only moves on. -/
theorem Goes.txnOk {pc : Pc cfg.segs} (hg : Goes cfg σ t pc) (hv : cfg.build.variant = .variant1)
    (h : TxnOk (σ.th t) (σ.me t)) : TxnOk { σ.th t with pc := pc } (σ.me t) := by
  refine h.congr rfl rfl rfl rfl (fun op pc' hpc' => ?_) fun m hm => ?_
  · dsimp only at hpc'
    have hnew := h.new op
    cases hg with
    | fetch op hpc hs =>
      cases hpc'
      exact hv ▸ hs
    | readVersion hpc | readPiece _ _ hpc | retry hpc =>
      cases hpc'
      exact hnew _ hpc
    | _ => cases hpc'
  · dsimp only
    cases hg with
    | clockRead hpc | clockKept hpc | clockRetry hpc | validate _ hpc | looked hpc | valid hpc =>
      rw [hpc] at hm
      exact hm
    | _ => trivial

/-- A step keeps what the calls of its thread amount to. -/
theorem Rule.runOk (hr : Rule cfg σ a σ') (hv : cfg.build.variant = .variant1) (hok : σ.Ok cfg)
    (h : RunOk (σ.th a.tid) (σ.me a.tid)) : RunOk (σ'.th a.tid) (σ'.me a.tid) := by
  have lift : ∀ {th : Thread cfg.segs} {me : Attempt cfg.segs},
      σ'.th = (σ.upd a.tid th me).th → σ'.att = (σ.upd a.tid th me).att →
      RunOk th me → RunOk (σ'.th a.tid) (σ'.me a.tid) :=
    fun hth hatt h => Sys.lift (P := RunOk) h hth hatt
  cases hr with
  | goto ha hc hg =>
    subst ha
    have hne := hg.not_idle
    exact lift rfl rfl (.of_running hne.2 (hg.txnOk hv (h.running hne.1)))
  | new ptr hpc => exact lift rfl rfl (.of_idle hpc rfl rfl)
  | begin hpc =>
    obtain ⟨hr, hw⟩ := h.idle hpc
    refine lift rfl rfl (.of_running (by simp) (.begin ?_ ?_ rfl _))
    · exact hr
    · exact hw
  | delete | addVersion | refuse | grant => exact lift rfl rfl (h.congr rfl rfl rfl rfl rfl)
  | load | reply | lost => exact h
  | abort hpc hc ha =>
    subst ha
    exact lift rfl rfl (.of_idle rfl rfl rfl)
  | released | committed => exact lift rfl rfl (.of_idle rfl rfl rfl)
  | deliver hk hm hdesc =>
    obtain rfl := delivers hok.local_ok hok.descs _ _ _ _ _ _ hk hm hdesc
    exact lift rfl rfl (h.congr rfl rfl rfl rfl rfl)
  | @served t op tx r hpc hc hs =>
    have hne : (σ.th t).pc ≠ .idle := by rw [hpc]; simp
    rw [hv] at hs
    exact lift rfl rfl (.of_running hne ((h.running hne).served hs hpc))
  | @fetched t c op ts buf hpc =>
    have hrun := h.running (show (σ.th t).pc ≠ .idle by rw [hpc]; simp)
    refine lift rfl rfl (.of_running (by simp) ?_)
    rw [hv]
    exact hrun.fetched (hrun.new op _ hpc) _
  | @finish t c op ts buf hpc =>
    have hrun := h.running (show (σ.th t).pc ≠ .idle by rw [hpc]; simp)
    refine lift rfl rfl (.of_running (by simp) ?_)
    rw [hv]
    exact hrun.finished (σ.th t).tx (fun m hm => by rw [Act.tid, hpc] at hm; exact hm) rfl rfl
  | @finishValid t c op ts buf looked hpc =>
    have hrun := h.running (show (σ.th t).pc ≠ .idle by rw [hpc]; simp)
    refine lift rfl rfl (.of_running (by simp) ?_)
    rw [hv]
    exact hrun.finished ((σ.th t).tx.setVC ts)
      (fun m hm => by rw [Act.tid, hpc] at hm; exact hm) rfl rfl
  | clockRaised hpc =>
    have hrun := h.running (by rw [Act.tid, hpc]; simp)
    exact lift rfl rfl (.of_running (by simp) (hrun.congr rfl rfl rfl rfl (by simp)
      fun m hm => by rw [Act.tid, hpc] at hm; exact hm))
  | lockPoint hpc | batch hpc | send hpc | restore hpc | validated hpc | invalid hpc | put _ _ hpc
  | issue hpc | release hpc =>
    have hrun := h.running (by rw [Act.tid, hpc]; simp)
    exact lift rfl rfl
      (.of_running (by simp) (hrun.congr rfl rfl rfl rfl (by simp) fun m _ => trivial))

end

end DstmP1
