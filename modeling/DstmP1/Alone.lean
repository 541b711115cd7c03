import DstmP1.Serializability
import DstmP1.Solo

/-!
# A transaction that runs alone

One thread runs one transaction while nobody else commits, from any table of unlocked lock words.
Others may read meanwhile. The locks then stay as they are until the transaction takes them, so
nothing it does is refused: what it has recorded are the lock words it has found (`Sys.AloneOk`),
no call aborts, every lock is granted and validation succeeds (`Sys.AloneOk.step`).
-/

namespace DstmP1

open Segments (Loc)

/-! ## The runs -/

/-- No lock is held, and versions and clocks leave room for one more. -/
structure Quiet (locks : Loc → Word) (clock : ℕ → Word) : Prop where
  unlocked : ∀ ℓ, Unlocked (locks ℓ)
  small : ∀ ℓ, ver (locks ℓ) < 2 ^ 48 - 1
  clock : ∀ n, (clock n).toNat < 2 ^ 48 - 1

/-! ## What holds of them -/

/-- What the code of the transaction knows, when `locks` were the lock words to begin with. -/
def AlonePc (cfg : Config) (locks : Loc → Word) (tx : Tx) : Pc cfg.segs → Prop
  | .readCell op (.data version _ _) => version = locks (cfg.segs.lockLoc op.access.block)
  | .increaseClock op ts _ _ | .validateStart op ts _ =>
    ts = locks (cfg.segs.lockLoc op.access.block)
  | .validate op ts _ left _ => ts = locks (cfg.segs.lockLoc op.access.block) ∧
      ∀ p ∈ left, cfg.segs.IsCell p.1 ∧ p.2 = locks (cfg.segs.lockLoc p.1)
  | .validateAll _ left _ => ∀ p ∈ left,
      (cfg.segs.IsCell p.1 ∧ p.2 = locks (cfg.segs.lockLoc p.1)) ∧ p.1 ∉ tx.writeSet
  | .releaseLocks _ => False
  | _ => True

/-- The transaction has recorded the lock words as they were, nothing has been refused, and it has
not aborted. -/
structure AloneTh (cfg : Config) (locks : Loc → Word) (th : Thread cfg.segs)
    (me : Attempt cfg.segs) : Prop where
  records : ∀ b ts, th.tx.RecordsAt b ts → ts = locks (cfg.segs.lockLoc b)
  pc : AlonePc cfg locks th.tx th.pc
  changed : th.tx.rlChangedObjects = []
  toCache : th.toCache = none
  aborted : me.aborted = false
  issued : me.newVersion ≠ none → th.pc = .idle ∨
    ∃ version left, th.pc = .releaseLocksWithNewClock version left

/-- A request is for locks as they are. -/
def AloneMsg (p : Packet) : Prop :=
  match p.msg with
  | .request i old changed => (∀ w, old = some w → w = p.buf.version i) ∧ changed = []
  | .reply _ changed => changed = []

/-- The lock words `now` are those to begin with, but for the locks that the transaction holds and
those that it has given back with its new version. -/
structure AloneLocks (cfg : Config) (locks now : Loc → Word) (me : Attempt cfg.segs) : Prop where
  kept : ∀ ℓ, (∀ b ∈ me.held.map Prod.fst, cfg.segs.lockLoc b ≠ ℓ) →
    (me.newVersion = none ∨ ∀ b ∈ me.writes, cfg.segs.lockLoc b ≠ ℓ) → now ℓ = locks ℓ
  new : ∀ v, me.newVersion = some v → ∀ b ∈ me.writes, b ∉ me.held.map Prod.fst →
    now (cfg.segs.lockLoc b) = v

/-- What holds while `t` runs its transaction alone; nobody else is inside `commit`. -/
structure Sys.AloneOk (cfg : Config) (t : Tid) (locks : Loc → Word) (σ : Sys cfg.segs) :
    Prop where
  others : ∀ t' ≠ t, (σ.th t').pc.committing = false
  thread : AloneTh cfg locks (σ.th t) (σ.me t)
  msg : ∀ p ∈ σ.net t, AloneMsg p
  locks : AloneLocks cfg locks σ.locks (σ.me t)

/-! ## Timestamps recorded for cells -/

section
variable {g : Segments} {v : Variant} {tx tx' : Tx} {op : Op g} {b x ts : Word}

theorem Tx.RecordsAt.of_insertRead {b₀ : Word} {e : Entry}
    (h : Tx.RecordsAt { tx with readSet := tx.readSet.insert b₀ e } b x) :
    tx.RecordsAt b x ∨ b = b₀ ∧ x = e.ts := by
  obtain ⟨e', h | h, rfl⟩ := h
  · rcases lookup_insert_cases h with ⟨rfl, rfl⟩ | h
    · exact .inr ⟨rfl, rfl⟩
    · exact .inl ⟨e', .inl h, rfl⟩
  · exact .inl ⟨e', .inr h, rfl⟩

theorem Tx.RecordsAt.of_insertWrite {b₀ : Word} {e : Entry}
    (h : Tx.RecordsAt { tx with writeSet := tx.writeSet.insert b₀ e } b x) :
    tx.RecordsAt b x ∨ b = b₀ ∧ x = e.ts := by
  obtain ⟨e', h | h, rfl⟩ := h
  · exact .inl ⟨e', .inl h, rfl⟩
  · rcases lookup_insert_cases h with ⟨rfl, rfl⟩ | h
    · exact .inr ⟨rfl, rfl⟩
    · exact .inl ⟨e', .inr h, rfl⟩

/-- A call that the maps serve records nothing new. -/
theorem Tx.RecordsAt.of_served {r : List Byte} (hs : tx.served v op = some (tx', r))
    (h : tx'.RecordsAt b x) : tx.RecordsAt b x := by
  cases v with
  | variant1 => exact (Tx.recordsAt_served hs).1 h
  | variant2 =>
    cases op with
    | read a =>
      obtain ⟨e, -, hp⟩ := Option.map_eq_some_iff.1 hs
      cases hp
      exact h
    | write a value =>
      simp only [Tx.served] at hs
      split at hs
      · cases hs
        exact h
      · obtain ⟨e, he, hp⟩ := Option.map_eq_some_iff.1 hs
        cases hp
        have h' : Tx.RecordsAt { tx with writeSet := tx.writeSet.insert a.block e } b x := h
        rcases h'.of_insertWrite with h | ⟨rfl, rfl⟩
        · exact h
        · exact ⟨e, .inl he, rfl⟩

/-- A cell that has been read is recorded with its timestamp. -/
theorem Tx.RecordsAt.of_fetched {buf : ℕ → Byte}
    (h : (tx.fetched v op ts buf).RecordsAt b x) :
    tx.RecordsAt b x ∨ b = op.access.block ∧ x = ts := by
  cases v with
  | variant1 =>
    cases op with
    | read a => exact h.of_insertRead
    | write a value => exact h.of_insertWrite
  | variant2 => exact .inl h

/-- So is a cell whose call returns. -/
theorem Tx.RecordsAt.of_finished {value : List Byte}
    (h : (tx.finished v op ts value).1.RecordsAt b x) :
    tx.RecordsAt b x ∨ b = op.access.block ∧ x = ts := by
  cases v with
  | variant1 => exact .inl (Tx.recordsAt_finished.1 h)
  | variant2 =>
    cases op with
    | read a => exact h.of_insertRead
    | write a new =>
      have h' : Tx.RecordsAt { tx with
          writeSet := tx.writeSet.insert a.block ⟨ts, fun _ => 0⟩ } b x := h
      exact h'.of_insertWrite

theorem Tx.RecordsAt.isCell (h : tx.RecordsAt b x) (ho : tx.Ok g) : g.IsCell b := by
  obtain ⟨e, he | he, -⟩ := h
  · exact (ho.read b e he).1
  · exact (ho.write b e he).1

end

/-! ## Nothing is refused -/

section
variable {cfg : Config} {σ σ' : Sys cfg.segs} {a : Act cfg.segs} {t : Tid}
  {locks : Loc → Word} {clock : ℕ → Word}

/-- A lock word that is as it was passes every check of its own value. -/
theorem Tx.changed_self {w : Word} (h : Unlocked w) : Tx.changed w w = false := by
  rw [Tx.changed, isLocked_eq_false.2 h, Bool.false_or]
  exact isTimestampGreater_eq_false.2 le_rfl

theorem isRefused_self (w : Word) : isRefused w w = false := by
  simp [isRefused]

/-- Outside `commit` all lock words are as they were. -/
theorem Sys.AloneOk.locks_eq (h : σ.AloneOk cfg t locks) (hok : σ.Ok cfg)
    (hpc : (σ.th t).pc.calling = true) : σ.locks = locks := by
  have hl := (hok.local_ok t).pc.calling hpc
  funext ℓ
  refine h.locks.kept ℓ (fun b hb => ?_) (.inl ?_)
  · rw [hl.held.eq_nil] at hb
    cases hb
  · by_contra hne
    rcases h.thread.issued hne with hp | ⟨_, _, hp⟩ <;> rw [hp] at hpc <;> cases hpc

/-- No new version has been made as long as the code is not in `releaseLocksWithNewClock`. -/
theorem AloneTh.newVersion_eq {th : Thread cfg.segs} {me : Attempt cfg.segs}
    (h : AloneTh cfg locks th me) (hi : th.pc ≠ .idle)
    (hr : ∀ version left, th.pc ≠ .releaseLocksWithNewClock version left) :
    me.newVersion = none := by
  by_contra hne
  rcases h.issued hne with hp | ⟨v, left, hp⟩
  · exact hi hp
  · exact hr v left hp

/-- A cell that is not locked has the lock word that it had. -/
theorem Sys.AloneOk.word_eq (h : σ.AloneOk cfg t locks) (hg : σ.Good cfg)
    (hn : (σ.me t).newVersion = none) {b : Word} (hc : cfg.segs.IsCell b)
    (hb : ¬ σ.Holds (σ.cur t) b) :
    σ.locks (cfg.segs.lockLoc b) = locks (cfg.segs.lockLoc b) := by
  refine h.locks.kept _ (fun b' hb' he => ?_) (.inl hn)
  have hh : σ.Holds (σ.cur t) b' := hb'
  rw [Segments.lockLoc_inj (hh.inside hg.ok hg.att).2.2.2 hc he] at hb'
  exact hb hb'

/-- While requests are under way no new version has been made. -/
theorem Sys.AloneOk.newVersion_of_msg (h : σ.AloneOk cfg t locks) (hok : σ.Ok cfg)
    {p : Packet} (hp : p ∈ σ.net t) : (σ.me t).newVersion = none := by
  have hin := (hok.inBatch hp).1
  refine h.thread.newVersion_eq (fun hpc => ?_) fun version left hpc => ?_
  · rw [hpc] at hin
    cases hin
  · rw [hpc] at hin
    cases hin

/-- The lock word that the handler is at is the version requested. -/
theorem Sys.AloneOk.word_requested (h : σ.AloneOk cfg t locks) (hg : σ.Good cfg) {k i : ℕ}
    {p : Packet} {old : Option Word} {changed : List Word} (hk : (σ.net t)[k]? = some p)
    (hm : p.msg = .request i old changed) (hi : i < p.buf.count) :
    σ.locks (lockOf cfg.segs p.node (p.buf.objAddr i)) = p.buf.version i := by
  have hp := List.mem_of_getElem? hk
  obtain ⟨b, hw, hc, -, hlock, hver, hfree⟩ := hg.ok.requested hp hm hi
  rw [hlock, hver, h.word_eq hg (h.newVersion_of_msg hg.ok hp) hc hfree,
    h.thread.records b _ (Tx.recordsAt_entryTs hw)]

/-- So nothing is refused. -/
theorem Sys.AloneOk.refused_eq (h : σ.AloneOk cfg t locks) (hg : σ.Good cfg) {k : ℕ}
    (hs : step cfg σ (.handle t k) = some σ') : (σ'.me t).refused = (σ.me t).refused := by
  change stepHandle cfg σ t k = some σ' at hs
  rw [stepHandle] at hs
  split at hs
  · cases hs
  · next p hk =>
    split at hs
    · cases hs
    · next i old changed hm =>
      split at hs
      · next hi =>
        have hword := h.word_requested hg hk hm hi
        have hmsg := h.msg p (List.mem_of_getElem? hk)
        simp only [AloneMsg, hm] at hmsg
        cases old with
        | none =>
          simp only [stepRequest, hword, isRefused_self, Option.some.injEq] at hs
          subst hs
          rfl
        | some w =>
          rw [hmsg.1 w rfl, stepRequest, if_pos hword, Option.some.injEq] at hs
          subst hs
          refine Sys.lift (P := fun _ me => me.refused = (σ.me t).refused) ?_ rfl rfl
          rfl
      · cases hs
        rfl

/-! ## Nothing aborts -/

/-- What makes a call abort. -/
inductive AbortCause (cfg : Config) (σ : Sys cfg.segs) (t : Tid) : Prop where
  | locked {op : Op cfg.segs} {pc : CellPc} : (σ.th t).pc = .readCell op pc →
      isLocked (σ.locks (cfg.segs.lockLoc op.access.addr)) = true → AbortCause cfg σ t
  | conflict {op : Op cfg.segs} {ts : Word} {buf : ℕ → Byte} :
      (σ.th t).pc = .validateStart op ts buf →
      (σ.th t).tx.conflict cfg.build.variant op ts = true → AbortCause cfg σ t
  | cached {op : Op cfg.segs} {ts : Word} {buf : ℕ → Byte} {p : Word × Word}
      {left : List (Word × Word)} {looked : Bool} :
      (σ.th t).pc = .validate op ts buf (p :: left) looked → cfg.build.cache = true →
      AbortCause cfg σ t
  | changed {op : Op cfg.segs} {ts : Word} {buf : ℕ → Byte} {p : Word × Word}
      {left : List (Word × Word)} {looked : Bool} :
      (σ.th t).pc = .validate op ts buf (p :: left) looked →
      Tx.changed (σ.getVersion (cfg.segs.getObjectLockAddr p.1)) p.2 = true → AbortCause cfg σ t

/-- A step of the code of a call goes on with its transaction, or there is a cause to abort. -/
theorem stepRun_calling {c : Choice} (hs : stepRun cfg σ t c = some σ')
    (hpc : (σ.th t).pc.calling = true) : (σ'.th t).pc ≠ .idle ∨ AbortCause cfg σ t := by
  have hgoto : ∀ {pc}, pc ≠ .idle → ((σ.goto t pc).th t).pc ≠ .idle :=
    fun h => by rwa [Sys.goto, Sys.upd_th]
  have hfin : ∀ {v op ts buf tx}, ((σ.finish t v op ts buf tx).th t).pc ≠ .idle := by
    intros
    rw [Sys.finish, Sys.upd_th]
    simp
  cases hp : (σ.th t).pc with
  | readCell op pc =>
    simp only [stepRun, hp, Option.some.injEq] at hs
    subst hs
    cases hl : isLocked (σ.locks (cfg.segs.lockLoc op.access.addr)) with
    | true => exact .inr (.locked hp hl)
    | false =>
      left
      cases pc with
      | version =>
        simp only [stepReadCell, CellArgs.readVersion, hl]
        exact hgoto (by simp)
      | data version left buf =>
        cases left with
        | cons k left => exact hgoto (by simp)
        | nil =>
          rw [stepReadCell, CellArgs.readVersion2, if_neg (by rw [hl]; simp)]
          rcases Bool.eq_false_or_eq_true
            (isTimestampsEquivalent version (σ.locks (cfg.segs.lockLoc op.access.addr)))
              with he | he
          · rw [if_pos he]
            dsimp only
            rw [Sys.upd_th]
            simp
          · rw [if_neg (by rw [he]; simp)]
            exact hgoto (by simp)
  | increaseClock op ts buf cur =>
    simp only [stepRun, hp, Option.some.injEq] at hs
    subst hs
    left
    cases cur with
    | none =>
      rw [stepIncreaseClock]
      split
      · exact hgoto (by simp)
      · exact hgoto (by simp)
    | some cur =>
      rw [stepIncreaseClock]
      split
      · change ((σ.goto t (.validateStart op ts buf)).th t).pc ≠ .idle
        exact hgoto (by simp)
      · exact hgoto (by simp)
  | validateStart op ts buf =>
    simp only [stepRun, hp, stepValidateStart] at hs
    split at hs
    · next hc => exact .inr (.conflict hp hc)
    · split at hs
      · split at hs
        · cases hs
          exact .inl (hgoto (by simp))
        · cases hs
      · cases hs
        exact .inl hfin
  | validate op ts buf left looked =>
    simp only [stepRun, hp, Option.some.injEq] at hs
    subst hs
    cases left with
    | nil => exact .inl hfin
    | cons p left =>
      rw [stepValidate]
      split
      · next hc => exact .inr (.cached hp (Bool.and_eq_true_iff.1 hc).1)
      · rcases Bool.eq_false_or_eq_true
          (Tx.changed (σ.getVersion (cfg.segs.getObjectLockAddr p.1)) p.2) with hc | hc
        · exact .inr (.changed hp hc)
        · rw [if_neg (by rw [hc]; simp)]
          exact .inl (hgoto (by simp))
  | active =>
    rw [stepRun, hp] at hs
    cases hs
  | _ =>
    rw [hp] at hpc
    cases hpc

/-- So does every other step of its thread, unless it is rolled back. -/
theorem step_calling (hok : σ.Ok cfg) (hs : step cfg σ a = some σ') (hr : a ≠ .rollback a.tid)
    (hpc : (σ.th a.tid).pc.calling = true) (hc : (σ.th a.tid).toCache = none) :
    (σ'.th a.tid).pc ≠ .idle ∨ AbortCause cfg σ a.tid := by
  have hi : (σ.th a.tid).pc ≠ .idle := fun hp => by
    rw [hp] at hpc
    cases hpc
  have hnet : σ.net a.tid = [] := ((hok.local_ok _).pc.calling hpc).net
  rcases Classical.em ((σ.th a.tid).pc = .active) with ha | ha
  · -- Between two calls the thread starts the next one or `commit`.
    left
    rcases step_active hs ha hnet with ⟨op, -, rfl⟩ | ⟨o, -, rfl⟩ | ⟨he, -⟩ | ⟨hne, -⟩
    · rw [stepCall]
      split
      · rw [Sys.upd_th]
        exact hi
      · rw [Sys.goto, Sys.upd_th]
        simp
    · rw [Sys.goto, Sys.upd_th]
      simp
    · exact absurd he hr
    · exact absurd hc hne
  · obtain ⟨c, -, hs⟩ := step_eq_run hs hi ha hnet hc
    exact stepRun_calling hs hpc

/-- A cell that has been written to has the timestamp that it is read with. -/
theorem AloneTh.conflict_eq {th : Thread cfg.segs} {me : Attempt cfg.segs}
    (h : AloneTh cfg locks th me) {op : Op cfg.segs} {ts : Word} {buf : ℕ → Byte}
    (hpc : th.pc = .validateStart op ts buf) : th.tx.conflict cfg.build.variant op ts = false := by
  have hp := h.pc
  rw [hpc] at hp
  unfold Tx.conflict
  split
  · next e _ he =>
    have hts : e.ts = locks (cfg.segs.lockLoc op.access.block) := h.records _ _ ⟨e, .inr he, rfl⟩
    rw [hts, ← hp, isTimestampsEquivalent_refl]
    rfl
  · rfl

/-- No call of a transaction that runs alone aborts. -/
theorem Sys.AloneOk.not_abort (h : σ.AloneOk cfg t locks) (hq : Quiet locks clock)
    (hg : σ.Good cfg) (hv : cfg.build.cache = false) (ha : a.tid = t)
    (halone : Alone cfg t σ a σ') (hs : step cfg σ a = some σ')
    (hpc : (σ.th t).pc.calling = true) : (σ'.th t).pc ≠ .idle := by
  have hlocks := h.locks_eq hg.ok hpc
  subst ha
  refine (step_calling hg.ok hs ?_ hpc h.thread.toCache).resolve_right fun hc => ?_
  · rintro he
    rw [he] at halone
    exact halone rfl
  · have hp := h.thread.pc
    cases hc with
    | locked _ hl =>
      rw [hlocks, isLocked_eq_false.2 (hq.unlocked _)] at hl
      cases hl
    | @conflict op ts buf hpc hc =>
      rw [h.thread.conflict_eq hpc] at hc
      cases hc
    | cached _ hc =>
      rw [hv] at hc
      cases hc
    | @changed op ts buf p left looked hpc hc =>
      rw [hpc] at hp
      obtain ⟨hb, he⟩ := hp.2 p List.mem_cons_self
      rw [Sys.getVersion_eq hb, hlocks, he, Tx.changed_self (hq.unlocked _)] at hc
      cases hc

/-- What is validated in `commit` is not locked by the transaction itself, so its lock word is as it
was. -/
theorem Sys.AloneOk.changed_eq (h : σ.AloneOk cfg t locks) (hq : Quiet locks clock)
    (hg : σ.Good cfg) {o : Tx.Orders} {p : Word × Word} {left : List (Word × Word)} {looked : Bool}
    (hpc : (σ.th t).pc = .validateAll o (p :: left) looked) :
    Tx.changed (σ.getVersion (cfg.segs.getObjectLockAddr p.1)) p.2 = false := by
  have hp := h.thread.pc
  rw [hpc] at hp
  obtain ⟨⟨hb, he⟩, hnot⟩ := hp p List.mem_cons_self
  have hfree : ¬ σ.Holds (σ.cur t) p.1 := fun hh => hnot (hh.inside hg.ok hg.att).2.2.1
  have hn : (σ.me t).newVersion = none :=
    h.thread.newVersion_eq (by rw [hpc]; simp) (by rw [hpc]; simp)
  rw [Sys.getVersion_eq hb, h.word_eq hg hn hb hfree, he]
  exact Tx.changed_self (hq.unlocked _)

/-- The validation in `commit` does not fail. -/
theorem Sys.AloneOk.not_invalid (h : σ.AloneOk cfg t locks) (hq : Quiet locks clock)
    (hg : σ.Good cfg) (hv : cfg.build.cache = false) (ha : a.tid = t)
    (hs : step cfg σ a = some σ') {o : Tx.Orders} {left : List (Word × Word)} {looked : Bool}
    (hpc : (σ.th t).pc = .validateAll o left looked) (ws : List Word) :
    (σ'.th t).pc ≠ .releaseLocks ws := by
  subst ha
  have hl := (hg.ok.local_ok a.tid).pc
  simp only [PcOk, hpc] at hl
  obtain ⟨c, -, hs⟩ := step_eq_run hs (by rw [hpc]; simp) (by rw [hpc]; simp) hl.2.net
    h.thread.toCache
  simp only [stepRun, hpc, Option.some.injEq] at hs
  subst hs
  cases left with
  | nil =>
    rw [stepValidateAll]
    dsimp only
    rw [Sys.upd_th]
    simp
  | cons p left =>
    have hch := h.changed_eq hq hg hpc
    rw [stepValidateAll, hv, Bool.false_and, if_neg (by simp)]
    dsimp only
    rw [if_neg (by rw [hch]; simp), Sys.goto, Sys.upd_th]
    simp

/-! ## The thread of the transaction -/

/-- The fields that count. -/
theorem AloneTh.congr {th th' : Thread cfg.segs} {me me' : Attempt cfg.segs}
    (h : AloneTh cfg locks th me) (hpc : th'.pc = th.pc)
    (hr : th'.tx.readSet = th.tx.readSet) (hw : th'.tx.writeSet = th.tx.writeSet)
    (hch : th'.tx.rlChangedObjects = []) (hc : th'.toCache = none)
    (hab : me'.aborted = me.aborted) (hnv : me'.newVersion = me.newVersion) :
    AloneTh cfg locks th' me' where
  records b ts hb := h.records b ts ((Tx.recordsAt_congr hr hw).1 hb)
  pc := by
    have hp := h.pc
    rw [hpc]
    cases hp' : th.pc <;> rw [hp'] at hp <;> first
      | trivial
      | exact hp
      | simpa only [AlonePc, hw] using hp
  changed := hch
  toCache := hc
  aborted := hab.trans h.aborted
  issued := by
    rw [hpc, hnv]
    exact h.issued

/-- The code goes on, with the same entries. -/
theorem AloneTh.go {th th' : Thread cfg.segs} {me me' : Attempt cfg.segs}
    (h : AloneTh cfg locks th me)
    (hrec : ∀ b ts, th'.tx.RecordsAt b ts → ts = locks (cfg.segs.lockLoc b))
    (hp : AlonePc cfg locks th'.tx th'.pc) (hch : th'.tx.rlChangedObjects = [])
    (hc : th'.toCache = none) (hab : me'.aborted = me.aborted) (hnv : me'.newVersion = none) :
    AloneTh cfg locks th' me' where
  records := hrec
  pc := hp
  changed := hch
  toCache := hc
  aborted := hab.trans h.aborted
  issued hne := absurd hnv hne

/-- A thread that only moves on. -/
theorem Goes.alonePc {pc : Pc cfg.segs} (hgo : Goes cfg σ t pc) (h : σ.AloneOk cfg t locks)
    (hg : σ.Good cfg) : AlonePc cfg locks (σ.th t).tx pc := by
  have hp := h.thread.pc
  cases hgo with
  | @readVersion op hpc hl =>
    have hlocks := h.locks_eq hg.ok (show (σ.th t).pc.calling = true by rw [hpc]; rfl)
    rw [AlonePc, hlocks]
    exact congrArg locks op.access.inHeap.lockLoc_blockLb.symm
  | readPiece _ _ hpc | clockRead hpc | clockKept hpc | clockRetry hpc | looked hpc
  | lookedAll hpc =>
    rw [hpc] at hp
    exact hp
  | @validate op ts buf o hpc hcf hneed ho =>
    rw [hpc] at hp
    refine ⟨hp, fun p hp => ?_⟩
    have hrec := Tx.recordsAt_of_stale hp
    exact ⟨hrec.isCell (hg.ok.local_ok t).tx, h.thread.records _ _ hrec⟩
  | valid hpc =>
    rw [hpc] at hp
    exact ⟨hp.1, fun p hm => hp.2 p (List.mem_cons_of_mem _ hm)⟩
  | validAll hpc =>
    rw [hpc] at hp
    exact fun p hm => hp p (List.mem_cons_of_mem _ hm)
  | refused hpc hn hch => exact absurd h.thread.changed hch
  | skip hpc =>
    rw [hpc] at hp
    exact hp
  | _ => trivial

/-- A thread that moves on has no new version, unless it stays outside. -/
theorem Goes.newVersion_eq {pc : Pc cfg.segs} (hgo : Goes cfg σ t pc)
    (h : AloneTh cfg locks (σ.th t) (σ.me t)) : (σ.me t).newVersion = none := by
  refine h.newVersion_eq hgo.not_idle.1 fun version left hpc => ?_
  cases hgo <;> simp_all

/-- A step of the transaction keeps what its thread knows. -/
theorem Rule.aloneTh (hr : Rule cfg σ a σ') (hs : step cfg σ a = some σ')
    (h : σ.AloneOk cfg a.tid locks) (hq : Quiet locks clock) (hg : σ.Good cfg)
    (hv : cfg.build.cache = false) (halone : Alone cfg a.tid σ a σ')
    (hdis : ∀ b ∈ (σ.th a.tid).tx.readSet, cfg.build.variant = .variant1 →
      b ∉ (σ.th a.tid).tx.writeSet) :
    AloneTh cfg locks (σ'.th a.tid) (σ'.me a.tid) := by
  have hth := h.thread
  have lift : ∀ {th : Thread cfg.segs} {me : Attempt cfg.segs},
      σ'.th = (σ.upd a.tid th me).th → σ'.att = (σ.upd a.tid th me).att →
      AloneTh cfg locks th me → AloneTh cfg locks (σ'.th a.tid) (σ'.me a.tid) :=
    fun h1 h2 h3 => Sys.lift (P := AloneTh cfg locks) h3 h1 h2
  have hnv : (σ.th a.tid).pc ≠ .idle →
      (∀ version left, (σ.th a.tid).pc ≠ .releaseLocksWithNewClock version left) →
      (σ.me a.tid).newVersion = none := hth.newVersion_eq
  have htoCache : ∀ b ts, cfg.build.toCache b ts = none := fun b ts => by
    rw [Build.toCache, hv]
    rfl
  cases hr with
  | goto ha hc hgo =>
    subst ha
    exact lift rfl rfl (hth.go hth.records (hgo.alonePc h hg) hth.changed hth.toCache rfl
      (hgo.newVersion_eq hth))
  | new ptr hpc =>
    refine lift rfl rfl ⟨fun b ts hb => absurd hb (Tx.not_recordsAt rfl rfl), ?_, rfl, hth.toCache,
      hth.aborted, fun _ => .inl hpc⟩
    dsimp only
    rw [hpc]
    trivial
  | begin hpc =>
    exact lift rfl rfl ⟨hth.records, trivial, rfl, hth.toCache, rfl, by simp [Attempt.new]⟩
  | delete hpc | refuse hpc =>
    exact lift rfl rfl (hth.congr rfl rfl rfl hth.changed hth.toCache rfl rfl)
  | grant => exact lift rfl rfl (hth.congr rfl rfl rfl hth.changed hth.toCache rfl rfl)
  | addVersion => exact lift rfl rfl (hth.congr rfl rfl rfl hth.changed rfl rfl rfl)
  | load | reply | lost => exact hth
  | abort hpc hc ha =>
    subst ha
    refine absurd ?_ (h.not_abort hq hg hv rfl halone hs hpc)
    rw [Sys.abort, Sys.upd_th]
    rfl
  | deliver hk hm hdesc =>
    obtain rfl := delivers hg.ok.local_ok hg.ok.descs _ _ _ _ _ _ hk hm hdesc
    have hmsg := h.msg _ (List.mem_of_getElem? hk)
    simp only [AloneMsg, hm] at hmsg
    refine lift rfl rfl (hth.congr rfl rfl rfl ?_ hth.toCache rfl rfl)
    rw [hmsg, List.append_nil]
    exact hth.changed
  | @served t op tx r hpc hc hsv =>
    have hn := hnv (by rw [Act.tid, hpc]; simp) (by rw [Act.tid, hpc]; simp)
    have hrl : tx.rlChangedObjects = [] := (Tx.served_eq hsv).1.trans hth.changed
    refine lift rfl rfl
      (hth.go (fun b ts hb => hth.records b ts (hb.of_served hsv)) ?_ hrl hc rfl hn)
    dsimp only
    rw [hpc]
    trivial
  | @fetched t c op ts buf hpc =>
    have hn := hnv (by rw [Act.tid, hpc]; simp) (by rw [Act.tid, hpc]; simp)
    have hp := hth.pc
    rw [Act.tid, hpc] at hp
    refine lift rfl rfl (hth.go (fun b x hb => ?_) hp
      ((Tx.fetched_eq ts buf).1.trans hth.changed) (htoCache _ _) rfl hn)
    rcases hb.of_fetched with hb | ⟨rfl, rfl⟩
    · exact hth.records b x hb
    · exact hp
  | clockRaised hpc =>
    have hn := hnv (by rw [Act.tid, hpc]; simp) (by rw [Act.tid, hpc]; simp)
    have hp := hth.pc
    rw [Act.tid, hpc] at hp
    exact lift rfl rfl (hth.go hth.records hp hth.changed hth.toCache rfl hn)
  | @finish t c op ts buf hpc =>
    have hn := hnv (by rw [Act.tid, hpc]; simp) (by rw [Act.tid, hpc]; simp)
    have hp := hth.pc
    rw [Act.tid, hpc] at hp
    refine lift rfl rfl (hth.go (fun b x hb => ?_) trivial
      ((Tx.finished_eq ts _).1.trans hth.changed) hth.toCache rfl hn)
    rcases hb.of_finished with hb | ⟨rfl, rfl⟩
    · exact hth.records b x hb
    · exact hp
  | @finishValid t c op ts buf looked hpc =>
    have hn := hnv (by rw [Act.tid, hpc]; simp) (by rw [Act.tid, hpc]; simp)
    have hp := hth.pc
    rw [Act.tid, hpc] at hp
    refine lift rfl rfl (hth.go (fun b x hb => ?_) trivial
      ((Tx.finished_eq ts _).1.trans hth.changed) hth.toCache rfl hn)
    rcases hb.of_finished with hb | ⟨rfl, rfl⟩
    · exact hth.records b x hb
    · exact hp.1
  | @lockPoint t c o done hpc =>
    have hn := hnv (by rw [Act.tid, hpc]; simp) (by rw [Act.tid, hpc]; simp)
    refine lift rfl rfl (hth.go hth.records (fun p hp => ?_) hth.changed hth.toCache rfl hn)
    obtain ⟨hp, hw⟩ := List.mem_filter.1 hp
    obtain ⟨e, he, hts⟩ := of_mem_timestamps hp
    have hrec : (σ.th t).tx.RecordsAt p.1 p.2 := ⟨e, .inl he, hts⟩
    refine ⟨⟨hrec.isCell (hg.ok.local_ok t).tx, hth.records _ _ hrec⟩, fun hm => ?_⟩
    cases hvar : cfg.build.variant with
    | variant1 => exact hdis p.1 (mem_of_lookup he) hvar hm
    | variant2 =>
      rw [hvar] at hw
      obtain ⟨e', he'⟩ := exists_lookup hm
      simp [he'] at hw
  | batch hpc | send hpc | validated hpc | put _ _ hpc =>
    have hn := hnv (by rw [Act.tid, hpc]; simp) (by rw [Act.tid, hpc]; simp)
    exact lift rfl rfl (hth.go hth.records trivial hth.changed hth.toCache rfl hn)
  | released hpc | restore hpc =>
    have hp := hth.pc
    rw [Act.tid, hpc] at hp
    exact hp.elim
  | @invalid t c o b e left looked v hpc =>
    have hne := h.not_invalid hq hg hv rfl hs hpc o.ws
    dsimp only at hne
    rw [Act.tid, Sys.upd_th] at hne
    exact absurd rfl hne
  | issue hpc =>
    exact lift rfl rfl ⟨hth.records, trivial, hth.changed, hth.toCache, hth.aborted,
      fun _ => .inr ⟨_, _, rfl⟩⟩
  | release hpc =>
    exact lift rfl rfl ⟨hth.records, trivial, hth.changed, htoCache _ _, hth.aborted,
      fun _ => .inr ⟨_, _, rfl⟩⟩
  | committed hpc =>
    exact lift rfl rfl ⟨fun b ts hb => absurd hb (Tx.not_recordsAt rfl rfl), trivial, hth.changed,
      hth.toCache, hth.aborted, fun _ => .inl rfl⟩

/-! ## Every step -/

theorem AloneLocks.congr {now : Loc → Word} {me me' : Attempt cfg.segs}
    (h : AloneLocks cfg locks now me) (hheld : me'.held = me.held) (hw : me'.writes = me.writes)
    (hnv : me'.newVersion = me.newVersion) : AloneLocks cfg locks now me' where
  kept := by
    rw [hheld, hw, hnv]
    exact h.kept
  new := by
    rw [hheld, hw, hnv]
    exact h.new

/-- The lock words as long as there is no new version. -/
theorem AloneLocks.of_none {now : Loc → Word} {me : Attempt cfg.segs} (hn : me.newVersion = none)
    (h : ∀ ℓ, (∀ b ∈ me.held.map Prod.fst, cfg.segs.lockLoc b ≠ ℓ) → now ℓ = locks ℓ) :
    AloneLocks cfg locks now me where
  kept ℓ hℓ _ := h ℓ hℓ
  new v hv := by
    rw [hn] at hv
    cases hv

/-- A step of the transaction keeps what is known of the lock words. -/
theorem Rule.aloneLocks (hr : Rule cfg σ a σ') (h : σ.AloneOk cfg a.tid locks)
    (hg : σ.Good cfg) (hw : WritesOk (σ.th a.tid) (σ.me a.tid)) (halone : Alone cfg a.tid σ a σ') :
    AloneLocks cfg locks σ'.locks (σ'.me a.tid) := by
  have hl := h.locks
  have lift : ∀ {th : Thread cfg.segs} {me : Attempt cfg.segs},
      σ'.th = (σ.upd a.tid th me).th → σ'.att = (σ.upd a.tid th me).att →
      AloneLocks cfg locks σ'.locks me → AloneLocks cfg locks σ'.locks (σ'.me a.tid) :=
    fun h1 h2 h3 => Sys.lift (P := fun _ me => AloneLocks cfg locks σ'.locks me) h3 h1 h2
  have hnv : (σ.th a.tid).pc ≠ .idle →
      (∀ version left, (σ.th a.tid).pc ≠ .releaseLocksWithNewClock version left) →
      (σ.me a.tid).newVersion = none := h.thread.newVersion_eq
  cases hr with
  | goto ha =>
    subst ha
    exact lift rfl rfl hl
  | abort _ _ ha =>
    subst ha
    exact lift rfl rfl (hl.congr rfl rfl rfl)
  | deliver hk hm hdesc =>
    obtain rfl := delivers hg.ok.local_ok hg.ok.descs _ _ _ _ _ _ hk hm hdesc
    exact lift rfl rfl hl
  | load | reply | lost => exact hl
  | @begin t ptr hpc =>
    have hme : σ.me t = Attempt.new cfg.segs 0 := hg.att.first (halone rfl)
    rw [Act.tid, hme] at hl
    exact lift rfl rfl (.of_none rfl fun ℓ _ => hl.kept ℓ (by simp [Attempt.new]) (.inl rfl))
  | lockPoint hpc =>
    have hn := hnv (by rw [Act.tid, hpc]; simp) (by rw [Act.tid, hpc]; simp)
    exact lift rfl rfl (.of_none hn fun ℓ hℓ => hl.kept ℓ hℓ (.inl hn))
  | @grant t k p i old changed hk hm hi =>
    have hp := List.mem_of_getElem? hk
    have hn : (σ.me t).newVersion = none := h.newVersion_of_msg hg.ok hp
    obtain ⟨b, -, -, hobj, hlock, -⟩ := hg.ok.requested hp hm hi
    refine lift rfl rfl (.of_none hn fun ℓ hℓ => ?_)
    rw [List.map_append] at hℓ
    have hne : ℓ ≠ cfg.segs.lockLoc b :=
      (hℓ b (List.mem_append_right _ (by simp [hobj]))).symm
    dsimp only
    rw [hlock, Function.update_of_ne hne]
    exact hl.kept ℓ (fun b hb => hℓ b (List.mem_append_left _ hb)) (.inl hn)
  | restore hpc =>
    have hp := h.thread.pc
    rw [Act.tid, hpc] at hp
    exact hp.elim
  | @issue t c o hpc =>
    have hn := hnv (by rw [Act.tid, hpc]; simp) (by rw [Act.tid, hpc]; simp)
    refine lift rfl rfl ⟨fun ℓ hℓ _ => hl.kept ℓ hℓ (.inl hn), fun v _ b hb hnot => ?_⟩
    -- All locks are still held.
    have hloc := (hg.ok.local_ok t).pc
    simp only [PcOk, hpc] at hloc
    have hweq : (σ.me t).writes = (σ.th t).tx.writeSet := hw (.inr (by rw [Act.tid, hpc]; rfl))
    have hbw : b ∈ (σ.me t).writes := hb
    rw [hweq] at hbw
    exact absurd (hloc.2.held.mem_iff.2 (hloc.1.ws.mem_iff.2 (AList.mem_keys.1 hbw))) hnot
  | @release t c version b left hpc =>
    have hloc := (hg.ok.local_ok t).pc
    simp only [PcOk, hpc] at hloc
    obtain ⟨-, -, hmem, hv⟩ := hloc
    have hweq : (σ.me t).writes = (σ.th t).tx.writeSet := hw (.inr (by rw [Act.tid, hpc]; rfl))
    have hbw : b ∈ (σ.me t).writes := by
      rw [hweq]
      exact hmem b List.mem_cons_self
    have hcell : ∀ b' ∈ (σ.me t).writes, cfg.segs.IsCell b' := by
      intro b' hb'
      rw [hweq] at hb'
      exact (hg.ok.local_ok t).tx.isCell_of_mem hb'
    refine lift rfl rfl ⟨fun ℓ hℓ hno => ?_, fun v hv' b' hb' hnot => ?_⟩
    · have hℓb := (hno.resolve_left (by simp [hv])) b hbw
      have hkeep := hno.resolve_left (by simp [hv])
      refine (Function.update_of_ne hℓb.symm ..).trans (hl.kept ℓ (fun b' hb' => ?_) (.inr hkeep))
      rcases eq_or_ne b' b with rfl | hne
      · exact hℓb
      · obtain ⟨e, he, rfl⟩ := List.mem_map.1 hb'
        exact hℓ _ (List.mem_map_of_mem (List.mem_filter.2 ⟨he, by simpa using hne⟩))
    · have hvv : v = version := Option.some.inj (hv'.symm.trans hv)
      subst hvv
      rcases eq_or_ne b' b with rfl | hne
      · exact Function.update_self ..
      · have hloc : cfg.segs.lockLoc b' ≠ cfg.segs.lockLoc b := fun he =>
          hne (Segments.lockLoc_inj (hcell b' hb') (hcell b hbw) he)
        refine (Function.update_of_ne hloc ..).trans (hl.new v hv b' hb' fun hin => hnot ?_)
        obtain ⟨e, he, rfl⟩ := List.mem_map.1 hin
        exact List.mem_map_of_mem (List.mem_filter.2 ⟨he, by simpa using hne⟩)
  | _ => exact lift rfl rfl (hl.congr rfl rfl rfl)

/-- A step of the transaction or of one of its messages keeps what is known of them. -/
theorem Rule.aloneMsg (hr : Rule cfg σ a σ') (hs : step cfg σ a = some σ')
    (h : σ.AloneOk cfg a.tid locks) (hg : σ.Good cfg) :
    ∀ p ∈ σ'.net a.tid, AloneMsg p := by
  have hm := h.msg
  have new : ∀ {l}, σ'.net = Function.update σ.net a.tid l → (∀ q ∈ l, AloneMsg q) →
      ∀ q ∈ σ'.net a.tid, AloneMsg q := by
    intro l hnet hall
    rw [hnet, Function.update_self]
    exact hall
  have set : ∀ {k} {q : Packet}, AloneMsg q → ∀ p ∈ (σ.net a.tid).set k q, AloneMsg p := by
    intro k q hq p hp
    rcases List.mem_or_eq_of_mem_set hp with hp | rfl
    · exact hm p hp
    · exact hq
  cases hr with
  | send hpc hc hk =>
    refine new rfl fun p hp => ?_
    rcases List.mem_append.1 hp with hp | hp
    · exact hm p hp
    · rw [List.mem_singleton.1 hp]
      exact ⟨by simp, rfl⟩
  | @load t k p i changed hk hmsg hi =>
    have hold := hm p (List.mem_of_getElem? hk)
    simp only [AloneMsg, hmsg] at hold
    refine new rfl (set ⟨fun w hw => ?_, hold.2⟩)
    rw [← Option.some.inj hw]
    exact h.word_requested hg hk hmsg hi
  | @refuse t k p i old changed hk hmsg hi =>
    -- The record would have one more refusal.
    have hlen := congrArg List.length (h.refused_eq hg hs)
    have hnew : ((DstmP1.refuse cfg σ t k p i changed).me t).refused.length =
        (σ.me t).refused.length + 1 :=
      Sys.lift (P := fun _ me => me.refused.length = (σ.me t).refused.length + 1)
        List.length_append rfl rfl
    rw [Act.tid, hnew] at hlen
    omega
  | @grant t k p i old changed hk hmsg hi =>
    have hold := hm p (List.mem_of_getElem? hk)
    simp only [AloneMsg, hmsg] at hold
    exact new rfl (set ⟨by simp, hold.2⟩)
  | @reply t k p i old changed hk hmsg hi =>
    have hold := hm p (List.mem_of_getElem? hk)
    simp only [AloneMsg, hmsg] at hold
    exact new rfl (set hold.2)
  | deliver | lost => exact new rfl fun p hp => hm p (List.mem_of_mem_eraseIdx hp)
  | _ => exact hm

/-! ## Every step -/

/-- What holds while `t` runs alone is kept by every step. -/
theorem Sys.AloneOk.step (h : σ.AloneOk cfg t locks) (hq : Quiet locks clock)
    (hg : σ.Good cfg) (hv : cfg.build.cache = false) (hw : WritesOk (σ.th t) (σ.me t))
    (hdis : ∀ b ∈ (σ.th t).tx.readSet, cfg.build.variant = .variant1 →
      b ∉ (σ.th t).tx.writeSet)
    (hs : step cfg σ a = some σ') (halone : Alone cfg t σ a σ') :
    σ'.AloneOk cfg t locks := by
  have hr := step_rule hs
  have hsame := hr.sameBut (delivers hg.ok.local_ok hg.ok.descs)
  rcases eq_or_ne a.tid t with rfl | hne
  · exact ⟨halone.others hg.ok hs h.others, hr.aloneTh hs h hq hg hv halone hdis,
      hr.aloneMsg hs h hg, hr.aloneLocks h hg hw halone⟩
  · have hth := hsame.th t hne.symm
    have hme := hsame.me hne.symm
    refine ⟨halone.others hg.ok hs h.others, ?_, ?_, ?_⟩
    · rw [hth, hme]
      exact h.thread
    · rw [hsame.net t hne.symm]
      exact h.msg
    · rw [(hr.quiet hg.ok (h.others _ hne)).1, hme]
      exact h.locks

/-! ## Clocks -/

/-- The timestamp that is to go into a clock is smaller than `n`. -/
def Pc.Below {g : Segments} (n : ℕ) : Pc g → Prop
  | .readCell _ (.data version _ _) => ver version < n
  | .increaseClock _ ts _ _ => ver ts < n
  | _ => True

/-- Until the transaction makes its new version, the clocks leave room for it. -/
def Sys.RoomOk (cfg : Config) (t : Tid) (σ : Sys cfg.segs) : Prop :=
  (σ.me t).newVersion = none →
    (∀ n, (σ.clock n).toNat < 2 ^ 48 - 1) ∧ ∀ t', (σ.th t').pc.Below (2 ^ 48 - 1)

/-- A transaction keeps its new version. -/
theorem Rule.newVersion_none (hr : Rule cfg σ a σ') (hg : σ.Good cfg)
    (halone : Alone cfg a.tid σ a σ') (hn : (σ'.me a.tid).newVersion = none) :
    (σ.me a.tid).newVersion = none := by
  have lift : ∀ {th : Thread cfg.segs} {me : Attempt cfg.segs},
      σ'.th = (σ.upd a.tid th me).th → σ'.att = (σ.upd a.tid th me).att →
      (me.newVersion = none → (σ.me a.tid).newVersion = none) →
      (σ.me a.tid).newVersion = none := fun h1 h2 h3 =>
    Sys.lift (P := fun _ me => me.newVersion = none → (σ.me a.tid).newVersion = none) h3 h1 h2 hn
  cases hr with
  | goto ha | abort _ _ ha =>
    subst ha
    exact lift rfl rfl id
  | begin =>
    have hme : σ.me _ = Attempt.new cfg.segs 0 := hg.att.first (halone rfl)
    exact congrArg Attempt.newVersion hme
  | issue => exact lift rfl rfl fun h => by cases h
  | load | reply | lost => exact hn
  | deliver hk hm hdesc =>
    obtain rfl := delivers hg.ok.local_ok hg.ok.descs _ _ _ _ _ _ hk hm hdesc
    exact lift rfl rfl id
  | _ => exact lift rfl rfl id

/-- A cell whose lock word is unlocked has the word that it had. -/
theorem Sys.AloneOk.word_unlocked (h : σ.AloneOk cfg t locks) (hg : σ.Good cfg)
    (hn : (σ.me t).newVersion = none) {b : Word} (hc : cfg.segs.IsCell b)
    (hl : isLocked (σ.locks (cfg.segs.lockLoc b)) = false) :
    σ.locks (cfg.segs.lockLoc b) = locks (cfg.segs.lockLoc b) := by
  refine h.word_eq hg hn hc fun hh => ?_
  rw [hh.isLocked hg.own] at hl
  cases hl

/-- A thread that moves on has a small timestamp. -/
theorem Goes.below {pc : Pc cfg.segs} {u : Tid} (hgo : Goes cfg σ u pc)
    (h : σ.AloneOk cfg t locks) (hq : Quiet locks clock) (hg : σ.Good cfg)
    (hn : (σ.me t).newVersion = none) (hb : (σ.th u).pc.Below (2 ^ 48 - 1)) :
    pc.Below (2 ^ 48 - 1) := by
  cases hgo with
  | @readVersion op hpc hl =>
    have hb : cfg.segs.lockLoc op.access.block = cfg.segs.lockLoc op.access.addr :=
      op.access.inHeap.lockLoc_blockLb
    rw [← hb] at hl
    rw [Pc.Below, ← hb, h.word_unlocked hg hn op.access.isCell hl]
    exact hq.small _
  | readPiece _ _ hpc | clockRead hpc | clockRetry hpc =>
    rw [hpc] at hb
    exact hb
  | _ => trivial

/-- So has one that takes any other step. -/
theorem Rule.below (hr : Rule cfg σ a σ') (h : σ.AloneOk cfg t locks)
    (hq : Quiet locks clock) (hg : σ.Good cfg) (hn : (σ.me t).newVersion = none)
    (hb : (σ.th a.tid).pc.Below (2 ^ 48 - 1)) : (σ'.th a.tid).pc.Below (2 ^ 48 - 1) := by
  have lift : ∀ {th : Thread cfg.segs}, σ'.th = Function.update σ.th a.tid th →
      th.pc.Below (2 ^ 48 - 1) → (σ'.th a.tid).pc.Below (2 ^ 48 - 1) := by
    intro th hth hp
    rw [hth, Function.update_self]
    exact hp
  cases hr with
  | goto ha _ hgo =>
    subst ha
    exact lift rfl (hgo.below h hq hg hn hb)
  | abort _ _ ha =>
    subst ha
    exact lift rfl trivial
  | load | reply | lost => exact hb
  | deliver hk hm hdesc =>
    obtain rfl := delivers hg.ok.local_ok hg.ok.descs _ _ _ _ _ _ hk hm hdesc
    exact lift rfl hb
  | fetched hpc =>
    rw [Act.tid, hpc] at hb
    exact lift rfl hb
  | new | delete | addVersion | served | refuse | grant => exact lift rfl hb
  | _ => exact lift rfl trivial

/-- A step keeps the room for the new version. -/
theorem Sys.RoomOk.step (hroom : σ.RoomOk cfg t) (h : σ.AloneOk cfg t locks)
    (hq : Quiet locks clock) (hg : σ.Good cfg) (hr : Rule cfg σ a σ')
    (halone : Alone cfg t σ a σ') : σ'.RoomOk cfg t := by
  intro hn'
  have hsame := hr.sameBut (delivers hg.ok.local_ok hg.ok.descs)
  have hn : (σ.me t).newVersion = none := by
    rcases eq_or_ne a.tid t with rfl | hne
    · exact hr.newVersion_none hg halone hn'
    · rwa [hsame.me hne.symm] at hn'
  obtain ⟨hclock, hpcs⟩ := hroom hn
  refine ⟨fun n => ?_, fun t' => ?_⟩
  · cases hr with
    | @clockRaised u c op ts buf hpc =>
      have hb := hpcs u
      rw [hpc] at hb
      rcases eq_or_ne n (cfg.node u) with rfl | hne
      · dsimp only
        rw [Function.update_self, clock_raised]
        exact hb
      · dsimp only
        rw [Function.update_of_ne hne]
        exact hclock n
    | @issue u c o hpc =>
      rcases eq_or_ne u t with rfl | hne
      · -- The new version has been made.
        exact absurd hn' (Sys.lift (P := fun _ me => me.newVersion ≠ none) (by simp) rfl rfl)
      · have hin := h.others u hne
        rw [hpc] at hin
        cases hin
    | _ => exact hclock n
  · rcases eq_or_ne t' a.tid with rfl | ht
    · exact hr.below h hq hg hn (hpcs _)
    · rw [hsame.th t' ht]
      exact hpcs t'

/-- So no clock reaches `2^48`. -/
theorem Sys.RoomOk.clockBelow (hroom : σ.RoomOk cfg t) (h : σ.AloneOk cfg t locks)
    (hcl : σ.ClockOk cfg) (hr : Rule cfg σ a σ') : ClockBelow cfg (2 ^ 48) σ a σ' := by
  rcases hr.clock with he | ⟨u, c, op, ts, buf, rfl, -, he⟩ | ⟨u, c, o, rfl, hpc, he⟩
  · rw [ClockBelow, he]
    exact hcl.small _
  · rw [ClockBelow, he, Act.tid, Function.update_self, clock_raised]
    exact ver_lt ts
  · rcases eq_or_ne u t with rfl | hne
    · have hn : (σ.me u).newVersion = none :=
        h.thread.newVersion_eq (by rw [hpc]; simp) (by rw [hpc]; simp)
      have hlt := (hroom hn).1 (cfg.node u)
      rw [ClockBelow, he, Act.tid, Function.update_self, clock_next (hcl.small _)]
      omega
    · have hin := h.others u hne
      rw [hpc] at hin
      cases hin

/-! ## The start -/

theorem Sys.AloneOk.start (objs : Flat) (locks : Loc → Word) (clock : ℕ → Word) (t : Tid) :
    (Sys.start cfg.segs objs locks clock).AloneOk cfg t locks where
  others _ _ := rfl
  thread := ⟨fun _ _ h => absurd h (Tx.not_recordsAt rfl rfl), trivial, rfl, rfl, rfl,
    fun _ => .inl rfl⟩
  msg _ h := absurd h List.not_mem_nil
  locks := .of_none rfl fun _ _ => rfl

theorem Sys.RoomOk.start (objs : Flat) (hq : Quiet locks clock) (t : Tid) :
    (Sys.start cfg.segs objs locks clock).RoomOk cfg t :=
  fun _ => ⟨hq.clock, fun _ => trivial⟩

end

end DstmP1
