import DstmP1.Calls

/-!
# The log of commits

A transaction enters `log` when it has all its locks (`lockPoint`) and leaves it only when its
validation fails. The log and the records say at every point of the code how far a transaction
has come (`Sys.LogOk`), the order of the log respects the order in time (`Sys.TimeOk`), and a
transaction in the log replays on every memory that agrees with what it has read
(`Attempt.Serial`).
-/

namespace DstmP1

open Segments (Loc)

/-- How far a transaction has come. -/
inductive Phase where
  | outside
  | before
  | validating
  | writing

def Pc.phase {g : Segments} : Pc g → Phase
  | .idle => .outside
  | .validateAll _ _ _ => .validating
  | .commitWriteSetValues _ _ _ | .getNextClock _ _ | .releaseLocksWithNewClock _ _ => .writing
  | _ => .before

/-- Locks are asked for before the point of commit. -/
theorem Pc.phase_of_inBatch {g : Segments} {pc : Pc g} (h : pc.inBatch = true) :
    pc.phase = .before := by
  cases pc <;> first | rfl | cases h

/-- What the log and the record of a transaction say of it. -/
def PhaseOk {g : Segments} (logged : Prop) (a : Attempt g) : Phase → Prop
  | .outside => (logged ↔ a.validated = true) ∧ (a.validated = true ↔ a.returned ≠ none)
  | .before => ¬ logged ∧ a.validated = false ∧ a.returned = none
  | .validating => logged ∧ a.validated = false ∧ a.returned = none
  | .writing => logged ∧ a.validated = true ∧ a.returned = none

/-- A transaction in the log has read cells and writes cells that it has read; on every memory that
agrees with what it has read, its calls return what they have returned and change the cells that it
writes to its copies. -/
structure Attempt.Serial {g : Segments} (a : Attempt g) : Prop where
  seen : ∀ b ∈ a.seen, g.IsCell b
  writes : ∀ b ∈ a.writes, b ∈ a.seen
  runs : ∀ base, base.Agrees a.seen → ∃ m, replay base a.ops = some m ∧
    (∀ b e, a.writes.lookup b = some e → m.cell b = e.copy) ∧
    ∀ n p, m n p ≠ base n p → ∃ b ∈ a.writes, ∃ i : Fin cellSize, (n, p) = Segments.cellLoc b i

section
variable {cfg : Config} {σ σ' : Sys cfg.segs} {a : Act cfg.segs} {t : Tid} {u : Tid × ℕ}

/-- The log and the records. -/
structure Sys.LogOk (σ : Sys cfg.segs) : Prop where
  nodup : σ.log.Nodup
  cur : ∀ t, PhaseOk (σ.cur t ∈ σ.log) (σ.me t) (σ.th t).pc.phase
  other : ∀ u, u ≠ σ.cur u.1 → PhaseOk (u ∈ σ.log) (σ.att u) .outside

/-- A step that only moves on does not change the phase. -/
theorem Goes.phase {pc : Pc cfg.segs} (hg : Goes cfg σ t pc) : pc.phase = (σ.th t).pc.phase := by
  cases hg <;> simp_all [Pc.phase]

/-- What a step does to the log. -/
theorem Rule.log (hr : Rule cfg σ a σ') : σ'.log = σ.log ∨
    (∃ t c o done, a = .run t c ∧ (σ.th t).pc = .getLocks o done [] ∧
      (σ'.th t).pc.phase = .validating ∧ σ'.log = σ.log ++ [σ.cur t]) ∨
    ∃ t c o left looked, a = .run t c ∧ (σ.th t).pc = .validateAll o left looked ∧
      σ'.log = σ.log.erase (σ.cur t) := by
  cases hr with
  | lockPoint hpc =>
    refine .inr (.inl ⟨_, _, _, _, rfl, hpc, ?_, rfl⟩)
    rw [Sys.upd_th]
    rfl
  | invalid hpc => exact .inr (.inr ⟨_, _, _, _, _, rfl, hpc, rfl⟩)
  | _ => exact .inl rfl

/-- A step of `t` that changes the log is one of its current transaction. -/
theorem Rule.mem_log (hr : Rule cfg σ a σ') (hn : σ.log.Nodup) (hu : u ≠ σ.cur a.tid) :
    u ∈ σ'.log ↔ u ∈ σ.log := by
  rcases hr.log with he | ⟨t, c, o, done, rfl, -, -, he⟩ | ⟨t, c, o, left, looked, rfl, -, he⟩
  · rw [he]
  · rw [he, List.mem_append, List.mem_singleton]
    exact or_iff_left hu
  · rw [he, hn.mem_erase_iff]
    exact and_iff_right hu

/-- A step moves the log as it moves the phase of the thread. -/
theorem Rule.phaseOk (hr : Rule cfg σ a σ') (hg : σ.Good cfg) (h : σ.LogOk) :
    PhaseOk (σ'.cur a.tid ∈ σ'.log) (σ'.me a.tid) (σ'.th a.tid).pc.phase := by
  have lift : ∀ {th : Thread cfg.segs} {me : Attempt cfg.segs},
      σ'.th = (σ.upd a.tid th me).th → σ'.att = (σ.upd a.tid th me).att →
      PhaseOk ((a.tid, th.round) ∈ σ'.log) me th.pc.phase →
      PhaseOk (σ'.cur a.tid ∈ σ'.log) (σ'.me a.tid) (σ'.th a.tid).pc.phase :=
    fun hth hatt h => Sys.lift
      (P := fun th me => PhaseOk ((a.tid, th.round) ∈ σ'.log) me th.pc.phase) h hth hatt
  have hcur := h.cur a.tid
  cases hr with
  | goto ha hc hg =>
    subst ha
    refine lift rfl rfl ?_
    dsimp only
    rw [hg.phase]
    exact hcur
  | @begin t ptr hpc =>
    refine lift rfl rfl ⟨?_, rfl, rfl⟩
    have hnew : (t, (σ.th t).round + 1) ≠ σ.cur t := fun he => by
      simpa [Sys.cur] using congrArg Prod.snd he
    have ho := (h.other _ hnew).1
    rw [hg.att.new _ (Nat.lt_succ_self _)] at ho
    exact fun hin => Bool.false_ne_true (ho.1 hin)
  | new ptr hpc | delete hpc => exact lift rfl rfl hcur
  | addVersion | refuse | grant => exact lift rfl rfl hcur
  | load | reply | lost => exact hcur
  | deliver hk hm hdesc =>
    obtain rfl := delivers hg.ok.local_ok hg.ok.descs _ _ _ _ _ _ hk hm hdesc
    exact lift rfl rfl hcur
  | @abort _ t v hpc hc ha =>
    subst ha
    have hb : (σ.th a.tid).pc.phase = .before := by
      cases hp : (σ.th a.tid).pc <;> rw [hp] at hpc <;> first | rfl | cases hpc
    rw [hb] at hcur
    obtain ⟨h1, h2, h3⟩ := hcur
    exact lift rfl rfl ⟨iff_of_false h1 (by simp [h2]), by simp [h2, h3]⟩
  | @released t c hpc =>
    simp only [Act.tid, hpc, Pc.phase] at hcur
    obtain ⟨h1, h2, h3⟩ := hcur
    exact lift rfl rfl ⟨iff_of_false h1 (by simp [h2]), by simp [h2, h3]⟩
  | @committed t c version hpc =>
    simp only [Act.tid, hpc, Pc.phase] at hcur
    obtain ⟨h1, h2, -⟩ := hcur
    exact lift rfl rfl ⟨iff_of_true h1 h2, by simp [h2]⟩
  | @lockPoint t c o done hpc =>
    simp only [Act.tid, hpc, Pc.phase] at hcur
    exact lift rfl rfl ⟨List.mem_append_right _ List.mem_cons_self, hcur.2⟩
  | @invalid t c o b e left looked v hpc =>
    simp only [Act.tid, hpc, Pc.phase] at hcur
    exact lift rfl rfl ⟨h.nodup.not_mem_erase, hcur.2⟩
  | @validated t c o looked hpc =>
    simp only [Act.tid, hpc, Pc.phase] at hcur
    exact lift rfl rfl ⟨hcur.1, rfl, hcur.2.2⟩
  | served hpc | fetched hpc | clockRaised hpc | finish hpc | finishValid hpc | batch hpc
  | send hpc | restore hpc | put _ _ hpc | issue hpc | release hpc =>
    simp only [Act.tid, hpc, Pc.phase] at hcur
    refine lift rfl rfl ?_
    first
      | exact hcur
      | dsimp only; rw [hpc]; exact hcur

theorem Sys.LogOk.init (objs : Flat) : (Sys.init cfg.segs objs).LogOk where
  nodup := List.nodup_nil
  cur _ := ⟨iff_of_false List.not_mem_nil Bool.false_ne_true,
    iff_of_false Bool.false_ne_true fun h => h rfl⟩
  other _ _ := ⟨iff_of_false List.not_mem_nil Bool.false_ne_true,
    iff_of_false Bool.false_ne_true fun h => h rfl⟩

/-- One step keeps the log: a transaction enters it once, at its point of commit. -/
theorem Sys.LogOk.step (h : σ.LogOk) (hg : σ.Good cfg) (hr : Rule cfg σ a σ') : σ'.LogOk where
  nodup := by
    rcases hr.log with he | ⟨t, c, o, done, rfl, hpc, -, he⟩ | ⟨t, c, o, left, looked, rfl, -, he⟩
    · exact he ▸ h.nodup
    · have hcur := h.cur t
      rw [hpc] at hcur
      rw [he, List.nodup_append]
      refine ⟨h.nodup, List.pairwise_singleton _ _, ?_⟩
      rintro u hu _ hx rfl
      exact hcur.1 (List.mem_singleton.1 hx ▸ hu)
    · exact he ▸ h.nodup.erase _
  cur t := by
    have hb := hr.sameBut (delivers hg.ok.local_ok hg.ok.descs)
    rcases eq_or_ne t a.tid with rfl | ht
    · exact hr.phaseOk hg h
    · have hcur := h.cur t
      have hne : σ.cur t ≠ σ.cur a.tid := fun he => ht (congrArg Prod.fst he)
      rw [hb.th t ht, hb.me ht, Sys.cur, hb.th t ht]
      rwa [← hr.mem_log h.nodup hne] at hcur
  other u hu := by
    rw [hr.att_ne hu]
    have hmem : u ∈ σ'.log ↔ u ∈ σ.log := by
      rcases eq_or_ne u (σ.cur a.tid) with he | hne
      · rcases hr.log with hl | ⟨t, c, o, done, rfl, hpc, -, -⟩ |
          ⟨t, c, o, left, looked, rfl, hpc, -⟩
        · rw [hl]
        -- The transaction is still the current one.
        all_goals
          have hround := (hr.round t).resolve_right fun hi => by rw [hpc] at hi; cases hi.1
          refine absurd ?_ hu
          rw [he, Sys.cur, Sys.cur, Act.tid]
          dsimp only
          rw [hround]
      · exact hr.mem_log h.nodup hne
    rw [hmem]
    rcases eq_or_ne u (σ.cur u.1) with hcur | hcur
    · rcases hr.round u.1 with hround | ⟨hpc, -⟩
      · exact absurd (by rw [Sys.cur, hround]; exact hcur) hu
      · have hc := h.cur u.1
        rw [hpc, Sys.me, ← hcur] at hc
        exact hc
    · exact h.other u hcur

/-- A transaction that does not have all its locks is not in the log. -/
theorem Sys.LogOk.not_mem (h : σ.LogOk) (hpc : (σ.th t).pc.phase = .before) : σ.cur t ∉ σ.log := by
  have hcur := h.cur t
  rw [hpc] at hcur
  exact hcur.1

/-- The log as a run leaves it. -/
theorem reach_logOk {objs : Flat} {ok : Sys cfg.segs → Act cfg.segs → Sys cfg.segs → Prop}
    (h : (cfg.lts objs).Reach ok σ) : σ.LogOk :=
  h.induct (fun _ h0 => h0 ▸ .init objs)
    fun _ _ _ hr ih hs _ => ih.step (reach_good hr) (step_rule hs)

/-! ## The records of the log -/

/-- What a transaction has read, called and written, and when it has begun. -/
structure SameRecord {g : Segments} (a b : Attempt g) : Prop where
  seen : b.seen = a.seen
  ops : b.ops = a.ops
  writes : b.writes = a.writes
  began : b.began = a.began

/-- Nobody changes what a transaction in the log has done. -/
theorem Rule.sameRecord (hr : Rule cfg σ a σ') (hg : σ.Good cfg) (h : σ.LogOk)
    (hu : u ∈ σ.log) : SameRecord (σ.att u) (σ'.att u) := by
  have hset : ∀ {s : Sys cfg.segs} {t th me}, σ'.att = (s.upd t th me).att → s.att = σ.att →
      ((t, th.round) ∈ σ.log → SameRecord (σ.att (t, th.round)) me) →
      SameRecord (σ.att u) (σ'.att u) := by
    intro s t th me hatt h0 hme
    rw [hatt]
    rcases eq_or_ne u (t, th.round) with rfl | hne
    · rw [Sys.upd_att]
      exact hme hu
    · rw [Sys.upd_att_ne hne, h0]
      exact ⟨rfl, rfl, rfl, rfl⟩
  have hbefore : ∀ {t me}, (σ.th t).pc.phase = .before → (t, (σ.th t).round) ∈ σ.log →
      SameRecord (σ.att (t, (σ.th t).round)) me := fun hpc hin => absurd hin (h.not_mem hpc)
  cases hr with
  | load | reply | lost => exact ⟨rfl, rfl, rfl, rfl⟩
  | @begin t ptr hpc =>
    refine hset rfl rfl fun hin => ?_
    have hnew : (t, (σ.th t).round + 1) ≠ σ.cur t := fun he => by
      simpa [Sys.cur] using congrArg Prod.snd he
    have ho := (h.other _ hnew).1.1 hin
    rw [hg.att.new _ (Nat.lt_succ_self _)] at ho
    cases ho
  | served hpc | fetched hpc | finish hpc | finishValid hpc | lockPoint hpc =>
    exact hset rfl rfl (hbefore (by rw [hpc]; rfl))
  | deliver => exact hset rfl rfl fun _ => ⟨rfl, rfl, rfl, rfl⟩
  | _ => exact hset (s := σ) rfl rfl fun _ => ⟨rfl, rfl, rfl, rfl⟩

/-- Records that agree so far are those of the same serial execution. -/
theorem SameRecord.serial {g : Segments} {a b : Attempt g} (h : SameRecord a b) (ha : a.Serial) :
    b.Serial := by
  obtain ⟨hs, ho, hw, -⟩ := h
  refine ⟨hs ▸ ha.seen, ?_, ?_⟩
  · rw [hw, hs]
    exact ha.writes
  · rw [hs, ho, hw]
    exact ha.runs

/-- What a transaction has read are cells. -/
theorem TxnOk.isCell {th : Thread cfg.segs} {me : Attempt cfg.segs} (h : TxnOk th me)
    (htx : th.tx.Ok cfg.segs) {b : Word} (hb : b ∈ me.seen) : cfg.segs.IsCell b := by
  obtain ⟨⟨ts, c⟩, he⟩ := exists_lookup hb
  obtain ⟨e, he | he, -⟩ := (h.cells b ts).2 ⟨c, he⟩
  · exact (htx.read b e he).1
  · exact (htx.write b e he).1

/-- A transaction that enters the log. -/
theorem TxnOk.serial {th : Thread cfg.segs} {me : Attempt cfg.segs} (h : TxnOk th me)
    (htx : th.tx.Ok cfg.segs) : Attempt.Serial { me with writes := th.tx.writeSet } where
  seen _ hb := h.isCell htx hb
  writes b hb := by
    obtain ⟨e, he⟩ := exists_lookup hb
    obtain ⟨c, hc⟩ := (h.cells b e.ts).1 ⟨e, .inr he, rfl⟩
    exact mem_of_lookup hc
  runs base ha := by
    obtain ⟨m, hm, ht, -⟩ := h.runs base ha
    exact ⟨m, hm, fun b e he => (ht.write b e he).2.symm, ht.frame⟩

/-- While a transaction is in the log, its record has its write set. -/
def WritesOk {g : Segments} (th : Thread g) (me : Attempt g) : Prop :=
  th.pc.phase = .validating ∨ th.pc.phase = .writing → me.writes = th.tx.writeSet

/-- A step of a thread keeps what its record says about its writes. -/
theorem Rule.writesOk (hr : Rule cfg σ a σ') (hok : σ.Ok cfg)
    (h : WritesOk (σ.th a.tid) (σ.me a.tid)) : WritesOk (σ'.th a.tid) (σ'.me a.tid) := by
  have lift : ∀ {th : Thread cfg.segs} {me : Attempt cfg.segs},
      σ'.th = (σ.upd a.tid th me).th → σ'.att = (σ.upd a.tid th me).att →
      WritesOk th me → WritesOk (σ'.th a.tid) (σ'.me a.tid) :=
    fun hth hatt h => Sys.lift (P := WritesOk) h hth hatt
  cases hr with
  | goto ha hc hg =>
    subst ha
    refine lift rfl rfl fun hp => h ?_
    dsimp only at hp
    rwa [hg.phase] at hp
  | lockPoint => exact lift rfl rfl fun _ => rfl
  | load | reply | lost => exact h
  | deliver hk hm hdesc =>
    obtain rfl := delivers hok.local_ok hok.descs _ _ _ _ _ _ hk hm hdesc
    exact lift rfl rfl h
  | abort _ _ ha =>
    subst ha
    exact lift rfl rfl fun hp => by rcases hp with hp | hp <;> cases hp
  | begin | fetched | clockRaised | finish | finishValid | batch | send | released | restore
  | invalid | committed =>
    exact lift rfl rfl fun hp => by rcases hp with hp | hp <;> cases hp
  | new _ hpc | served hpc =>
    refine lift rfl rfl fun hp => ?_
    dsimp only at hp
    rw [hpc] at hp
    rcases hp with hp | hp <;> cases hp
  | delete | addVersion | refuse | grant => exact lift rfl rfl h
  | validated hpc | put _ _ hpc | issue hpc | release hpc =>
    exact lift rfl rfl fun _ => h (by simp [Act.tid, hpc, Pc.phase])

/-! ## Time -/

/-- Transactions have begun and returned in the past, and none has returned before another began
that stands before it in the log. -/
structure Sys.TimeOk (σ : Sys cfg.segs) : Prop where
  begun : ∀ t, (σ.th t).pc ≠ .idle → (σ.me t).began < σ.now
  logged : ∀ u ∈ σ.log, (σ.att u).began < σ.now
  returned : ∀ u r, (σ.att u).returned = some r → r < σ.now
  order : σ.log.Pairwise fun u v => ∀ r, (σ.att v).returned = some r → (σ.att u).began < r

/-- Time does not run backwards. -/
theorem Rule.now_le (hr : Rule cfg σ a σ') : σ.now ≤ σ'.now := by
  cases hr with
  | begin | committed => exact Nat.le_succ _
  | _ => exact le_rfl

/-- A transaction that is under way has begun before now. -/
theorem Rule.begun (hr : Rule cfg σ a σ') (hok : σ.Ok cfg)
    (h : (σ.th a.tid).pc ≠ .idle → (σ.me a.tid).began < σ.now) :
    (σ'.th a.tid).pc ≠ .idle → (σ'.me a.tid).began < σ'.now := by
  have lift : ∀ {th : Thread cfg.segs} {me : Attempt cfg.segs},
      σ'.th = (σ.upd a.tid th me).th → σ'.att = (σ.upd a.tid th me).att →
      (th.pc ≠ .idle → me.began < σ'.now) →
      (σ'.th a.tid).pc ≠ .idle → (σ'.me a.tid).began < σ'.now :=
    fun hth hatt h => Sys.lift (P := fun th me => th.pc ≠ .idle → me.began < σ'.now) h hth hatt
  cases hr with
  | goto ha hc hg =>
    subst ha
    exact lift rfl rfl fun _ => h hg.not_idle.1
  | begin => exact lift rfl rfl fun _ => Nat.lt_succ_self _
  | load | reply | lost => exact h
  | deliver hk hm hdesc =>
    obtain rfl := delivers hok.local_ok hok.descs _ _ _ _ _ _ hk hm hdesc
    exact lift rfl rfl h
  | abort _ _ ha =>
    subst ha
    exact lift rfl rfl fun hne => absurd rfl hne
  | released | committed => exact lift rfl rfl fun hne => absurd rfl hne
  | new _ hpc | delete hpc => exact lift rfl rfl fun hne => absurd hpc hne
  | addVersion | refuse | grant => exact lift rfl rfl h
  | served hpc | fetched hpc | clockRaised hpc | finish hpc | finishValid hpc | lockPoint hpc
  | batch hpc | send hpc | restore hpc | validated hpc | invalid hpc | put _ _ hpc | issue hpc
  | release hpc =>
    exact lift rfl rfl fun _ => h (by rw [Act.tid, hpc]; simp)

/-- A step in which a transaction returns. -/
theorem Rule.returned (hr : Rule cfg σ a σ') {r : ℕ} (h : (σ'.att u).returned = some r) :
    (σ.att u).returned = some r ∨ r = σ.now ∧ σ'.now = σ.now + 1 := by
  have hset : ∀ {s : Sys cfg.segs} {t th me}, σ'.att = (s.upd t th me).att → s.att = σ.att →
      (me.returned = some r → (σ.att (t, th.round)).returned = some r ∨
        r = σ.now ∧ σ'.now = σ.now + 1) →
      (σ.att u).returned = some r ∨ r = σ.now ∧ σ'.now = σ.now + 1 := by
    intro s t th me hatt h0 hme
    rw [hatt] at h
    rcases eq_or_ne u (t, th.round) with rfl | hne
    · rw [Sys.upd_att] at h
      exact hme h
    · rw [Sys.upd_att_ne hne, h0] at h
      exact .inl h
  cases hr with
  | load | reply | lost => exact .inl h
  | begin => exact hset rfl rfl fun he => by cases he
  | committed =>
    refine hset rfl rfl fun he => .inr ⟨?_, rfl⟩
    exact (Option.some.inj he).symm
  | deliver => exact hset rfl rfl .inl
  | _ => exact hset (s := σ) rfl rfl .inl

theorem Sys.TimeOk.init (objs : Flat) : (Sys.init cfg.segs objs).TimeOk where
  begun _ h := absurd rfl h
  logged _ h := absurd h List.not_mem_nil
  returned _ _ h := by cases h
  order := List.Pairwise.nil

/-- One step keeps the order of time. -/
theorem Sys.TimeOk.step (h : σ.TimeOk) (hl : σ.LogOk) (hg : σ.Good cfg)
    (hr : Rule cfg σ a σ') : σ'.TimeOk := by
  have hb := hr.sameBut (delivers hg.ok.local_ok hg.ok.descs)
  have hnow := hr.now_le
  have hbegan : ∀ u ∈ σ.log, (σ'.att u).began = (σ.att u).began :=
    fun u hu => (hr.sameRecord hg hl hu).began
  have hpair : σ.log.Pairwise fun u v => ∀ r, (σ'.att v).returned = some r →
      (σ'.att u).began < r := by
    refine h.order.imp_of_mem fun {u v} hu _ hp r hret => ?_
    rw [hbegan u hu]
    rcases hr.returned hret with hold | ⟨rfl, -⟩
    · exact hp r hold
    · exact h.logged u hu
  refine ⟨fun t => ?_, fun u hu => ?_, fun u r hret => ?_, ?_⟩
  · rcases eq_or_ne t a.tid with rfl | ht
    · exact hr.begun hg.ok (h.begun _)
    · rw [hb.th t ht, hb.me ht]
      exact fun hne => (h.begun t hne).trans_le hnow
  · have hold : u ∈ σ.log → (σ'.att u).began < σ'.now := fun hu => by
      rw [hbegan u hu]
      exact (h.logged u hu).trans_le hnow
    rcases hr.log with he | ⟨t, c, o, done, rfl, hpc, hph, he⟩ | ⟨t, c, o, left, looked, rfl, -, he⟩
    · exact hold (he ▸ hu)
    · rw [he, List.mem_append, List.mem_singleton] at hu
      rcases hu with hu | rfl
      · exact hold hu
      · have hround := (hr.round t).resolve_right fun hi => by rw [hpc] at hi; cases hi.1
        have hne : (σ'.th t).pc ≠ .idle := fun hi => by rw [hi] at hph; cases hph
        have hlt := hr.begun hg.ok (h.begun _) hne
        rwa [Sys.me, Sys.cur, Act.tid, hround] at hlt
    · exact hold (List.mem_of_mem_erase (he ▸ hu))
  · rcases hr.returned hret with hold | ⟨rfl, he⟩
    · exact (h.returned u r hold).trans_le hnow
    · rw [he]
      exact Nat.lt_succ_self _
  · rcases hr.log with he | ⟨t, c, o, done, rfl, hpc, -, he⟩ | ⟨t, c, o, left, looked, rfl, -, he⟩
    · rw [he]
      exact hpair
    · rw [he, List.pairwise_append]
      refine ⟨hpair, List.pairwise_singleton _ _, fun u hu v hv r hret => ?_⟩
      rw [hbegan u hu]
      rcases hr.returned hret with hold | ⟨rfl, -⟩
      · -- It has just entered the log, so it has not returned.
        have hcur := h.returned v r hold
        rw [List.mem_singleton.1 hv] at hold
        have hphase := hl.cur t
        rw [hpc] at hphase
        rw [show (σ.att (σ.cur t)).returned = none from hphase.2.2] at hold
        cases hold
      · exact h.logged u hu
    · rw [he]
      exact hpair.sublist List.erase_sublist

end

end DstmP1
