import DstmP1.Alone
import Mathlib.Data.Prod.Lex
import Mathlib.Order.WellFounded

/-!
# Calls return and commits complete

A transaction that runs alone never waits for anybody else: as long as it is inside a call or
inside `commit`, a step of its code or of one of its messages is possible that leaves less to do
(`Sys.Ready.progress`). So every call and every `commit` comes to its end by such steps
(`completes`), whatever has happened before, and any calls can be made and committed
(`exists_returned`).
-/

namespace DstmP1

open Segments (Loc)

/-! ## Steps of the code -/

/-- A step of the code of `t` or of a message of `t`. -/
def Act.Own {g : Segments} (t : Tid) : Act g → Prop
  | .run t' _ | .handle t' _ | .deliver t' _ => t' = t
  | _ => False

/-- `t` takes a step of its own. -/
def Sys.Next (cfg : Config) (t : Tid) (σ σ' : Sys cfg.segs) : Prop :=
  ∃ a, Act.Own t a ∧ step cfg σ a = some σ'

/-- The code of a transaction is in a call or between two calls, or else in `commit`. -/
theorem Pc.calling_iff {g : Segments} {pc : Pc g} :
    pc.calling = true ↔ pc.committing = false ∧ pc ≠ .idle := by
  cases pc <;> simp [Pc.calling, Pc.committing]

/-- The calls so far, with the one that is going on. -/
def calls {g : Segments} (th : Thread g) (me : Attempt g) : List (Op g) :=
  me.ops.map Prod.fst ++ th.pc.call.toList

/-! ## What is left to do -/

/-- What is left of a clock access whose clock is `clock`. -/
def clockTodo (clock : Word) : Option Word → ℕ
  | none => 1
  | some cur => if clock = cur then 0 else 2

/-- What is left of a request or a reply. -/
def Packet.todo (p : Packet) : ℕ :=
  match p.msg with
  | .request i none _ => 2 * (p.buf.count - i) + 3
  | .request i (some _) _ => 2 * (p.buf.count - i) + 2
  | .reply _ _ => 1

/-- What is left of a call or of `commit`: the phases that are left, the entries left in this phase,
and the steps left with the current one. -/
def Pc.todo {g : Segments} (clock : Word) (net : List Packet) : Pc g → ℕ ×ₗ ℕ ×ₗ ℕ
  | .idle | .active | .releaseLocks _ => toLex (0, toLex (0, 0))
  | .readCell _ .version => toLex (7, toLex (0, 0))
  | .readCell _ (.data _ left _) => toLex (6, toLex (0, left.length))
  | .increaseClock _ _ _ cur => toLex (5, toLex (0, clockTodo clock cur))
  | .validateStart _ _ _ => toLex (4, toLex (0, 0))
  | .validate _ _ _ left _ => toLex (3, toLex (0, left.length))
  | .getLocks _ _ rest => toLex (7, toLex (rest.length, 0))
  | .requestLocks _ _ _ rest unsent _ => toLex (7, toLex (rest.length,
      2 + (unsent.map fun q => 2 * q.2.count + 4).sum + (net.map Packet.todo).sum))
  | .waitLocks _ _ _ rest _ => toLex (7, toLex (rest.length, 1 + (net.map Packet.todo).sum))
  | .validateAll _ left _ => toLex (6, toLex (0, left.length))
  | .commitWriteSetValues _ puts left => toLex (5, toLex (puts.length, left.length))
  | .getNextClock _ cur => toLex (4, toLex (0, clockTodo clock cur))
  | .releaseLocksWithNewClock _ left => toLex (3, toLex (0, left.length))

/-- What is left to do for `t`. -/
def Sys.todo (cfg : Config) (t : Tid) (σ : Sys cfg.segs) : ℕ ×ₗ ℕ ×ₗ ℕ :=
  (σ.th t).pc.todo (σ.clock (cfg.node t)) (σ.net t)

section
variable {a b c a' b' c' : ℕ}

/-- Fewer phases are left. -/
theorem todo_lt_phase (h : a < a') : toLex (a, toLex (b, c)) < toLex (a', toLex (b', c')) :=
  Prod.Lex.toLex_lt_toLex.2 (.inl h)

/-- Fewer entries are left in the same phase. -/
theorem todo_lt_entry (h : b < b') : toLex (a, toLex (b, c)) < toLex (a, toLex (b', c')) :=
  Prod.Lex.toLex_lt_toLex.2 (.inr ⟨rfl, Prod.Lex.toLex_lt_toLex.2 (.inl h)⟩)

/-- Fewer steps are left with the same entry. -/
theorem todo_lt_step (h : c < c') : toLex (a, toLex (b, c)) < toLex (a, toLex (b, c')) :=
  Prod.Lex.toLex_lt_toLex.2 (.inr ⟨rfl, Prod.Lex.toLex_lt_toLex.2 (.inr ⟨rfl, h⟩)⟩)

end

section
variable {cfg : Config} {σ σ' : Sys cfg.segs} {a : Act cfg.segs} {t : Tid}
  {locks : Loc → Word} {clock : ℕ → Word}

/-! ## A step that leaves less -/

/-- What is needed of a transaction that runs alone for it to go on. -/
structure Sys.Ready (cfg : Config) (t : Tid) (locks : Loc → Word) (σ : Sys cfg.segs) :
    Prop where
  good : σ.Good cfg
  alone : σ.AloneOk cfg t locks
  this : (σ.th t).pc ≠ .idle → (σ.th t).this ≠ none

/-- A piece that begins with the first byte left leaves fewer. -/
theorem length_pieceRest_lt (k : ℕ) (left : List ℕ) :
    (pieceRest k 1 (k :: left)).length < (k :: left).length := by
  refine List.length_filter_lt_length_iff_exists.2 ⟨k, List.mem_cons_self, ?_⟩
  simp

theorem Sys.todo_goto (pc : Pc cfg.segs) :
    (σ.goto t pc).todo cfg t = pc.todo (σ.clock (cfg.node t)) (σ.net t) := by
  rw [Sys.todo, Sys.goto, Sys.upd_th]
  rfl

theorem Sys.todo_upd {th : Thread cfg.segs} (h : σ'.th = Function.update σ.th t th) :
    σ'.todo cfg t = th.pc.todo (σ'.clock (cfg.node t)) (σ'.net t) := by
  rw [Sys.todo, h, Function.update_self]

/-- The maps can be iterated. -/
theorem Tx.exists_orders (tx : Tx) : ∃ o : Tx.Orders, o.Of tx :=
  ⟨⟨tx.readSet.keys, tx.writeSet.keys, tx.writeSetValues.keys⟩, .refl _, .refl _, .refl _⟩

/-- The code of a call can take a step that leaves less to do. -/
theorem Sys.Ready.progress_call (h : σ.Ready cfg t locks) (hq : Quiet locks clock)
    (hv : cfg.build.cache = false) (hcall : (σ.th t).pc.calling = true)
    (ha : (σ.th t).pc ≠ .active) : ∃ c σ', stepRun cfg σ t c = some σ' ∧
      σ'.todo cfg t < σ.todo cfg t := by
  have hlocks := h.alone.locks_eq h.good.ok hcall
  have hp := h.alone.thread.pc
  have hfin : ∀ {op ts buf tx}, (σ.finish t cfg.build.variant op ts buf tx).todo cfg t =
      toLex (0, toLex (0, 0)) := by
    intros
    rw [Sys.todo, Sys.finish, Sys.upd_th]
    rfl
  have htodo : σ.todo cfg t = (σ.th t).pc.todo (σ.clock (cfg.node t)) (σ.net t) := rfl
  cases hpc : (σ.th t).pc with
  | readCell op pc =>
    rw [hpc] at htodo hp
    have hb : cfg.segs.lockLoc op.access.block = cfg.segs.lockLoc op.access.addr :=
      op.access.inHeap.lockLoc_blockLb
    have hl : isLocked (σ.locks (cfg.segs.lockLoc op.access.addr)) = false := by
      rw [hlocks]
      exact isLocked_eq_false.2 (hq.unlocked _)
    cases pc with
    | version =>
      refine ⟨⟨0, 0, ⟨[], [], []⟩, 0⟩, σ.goto t (.readCell op
        (.data (σ.locks (cfg.segs.lockLoc op.access.addr))
          (List.range (Tx.cellArgs cfg.build.variant op).len) fun _ => 0)), ?_, ?_⟩
      · rw [stepRun, hpc]
        simp only [stepReadCell, CellArgs.readVersion, hl]
        rfl
      · rw [Sys.todo_goto, htodo]
        exact todo_lt_phase (by decide)
    | data version left buf =>
      cases left with
      | cons k left =>
        refine ⟨⟨k, 1, ⟨[], [], []⟩, 0⟩, _, by rw [stepRun, hpc], ?_⟩
        rw [stepReadCell, Sys.todo_goto, htodo]
        exact todo_lt_step (length_pieceRest_lt k left)
      | nil =>
        have he : isTimestampsEquivalent version
            (σ.locks (cfg.segs.lockLoc op.access.addr)) = true := by
          rw [hlocks, hp, hb]
          exact isTimestampsEquivalent_refl _
        refine ⟨⟨0, 0, ⟨[], [], []⟩, 0⟩, _, by rw [stepRun, hpc], ?_⟩
        rw [stepReadCell, CellArgs.readVersion2, if_neg (by rw [hl]; simp), if_pos he]
        dsimp only
        rw [Sys.todo, Sys.upd_th, htodo]
        exact todo_lt_phase (by decide)
  | increaseClock op ts buf cur =>
    rw [hpc] at htodo
    cases cur with
    | none =>
      refine ⟨⟨0, 0, ⟨[], [], []⟩, 0⟩, _, by rw [stepRun, hpc], ?_⟩
      rw [stepIncreaseClock, htodo]
      split
      · rw [Sys.todo_goto]
        exact todo_lt_step (by simp [clockTodo])
      · rw [Sys.todo_goto]
        exact todo_lt_phase (by decide)
    | some cur =>
      refine ⟨⟨0, 0, ⟨[], [], []⟩, 0⟩, _, by rw [stepRun, hpc], ?_⟩
      rw [stepIncreaseClock, htodo]
      split
      · rw [Sys.todo_upd rfl]
        exact todo_lt_phase (by decide)
      · next hne =>
        rw [Sys.todo_goto]
        exact todo_lt_step (by simp [clockTodo, hne])
  | validateStart op ts buf =>
    rw [hpc] at htodo
    have hcf := h.alone.thread.conflict_eq hpc
    rcases Bool.eq_false_or_eq_true ((σ.th t).tx.needsValidation ts) with hneed | hneed
    · obtain ⟨o, ho⟩ := (σ.th t).tx.exists_orders
      refine ⟨⟨0, 0, o, 0⟩, σ.goto t (.validate op ts buf
        ((σ.th t).tx.staleEntries cfg.build.variant o ts) false), ?_, ?_⟩
      · rw [stepRun, hpc]
        simp [stepValidateStart, hcf, hneed, ho]
      · rw [Sys.todo_goto, htodo]
        exact todo_lt_phase (by decide)
    · refine ⟨⟨0, 0, ⟨[], [], []⟩, 0⟩, σ.finish t cfg.build.variant op ts buf (σ.th t).tx, ?_, ?_⟩
      · rw [stepRun, hpc]
        simp [stepValidateStart, hcf, hneed]
      · rw [hfin, htodo]
        exact todo_lt_phase (by decide)
  | validate op ts buf left looked =>
    rw [hpc] at htodo hp
    refine ⟨⟨0, 0, ⟨[], [], []⟩, 0⟩, _, by rw [stepRun, hpc], ?_⟩
    cases left with
    | nil =>
      rw [stepValidate, hfin, htodo]
      exact todo_lt_phase (by decide)
    | cons p left =>
      obtain ⟨hc, he⟩ := hp.2 p List.mem_cons_self
      have hch : Tx.changed (σ.getVersion (cfg.segs.getObjectLockAddr p.1)) p.2 = false := by
        rw [Sys.getVersion_eq hc, hlocks, he]
        exact Tx.changed_self (hq.unlocked _)
      rw [stepValidate, hv, Bool.false_and, if_neg (by simp)]
      dsimp only
      rw [if_neg (by rw [hch]; simp), Sys.todo_goto, htodo]
      exact todo_lt_step (by simp)
  | active => exact absurd hpc ha
  | _ =>
    rw [hpc] at hcall
    cases hcall

/-- A step of a handler leaves less of the message. -/
theorem stepRequest_todo {p : Packet} {net : List Packet} (hnet : σ.net t = p :: net) {i : ℕ}
    {old : Option Word} {changed : List Word} (hm : p.msg = .request i old changed)
    (hi : i < p.buf.count) : ((stepRequest cfg σ t 0 p i changed old).th t).pc = (σ.th t).pc ∧
      (stepRequest cfg σ t 0 p i changed old).clock = σ.clock ∧ ∃ m,
      (stepRequest cfg σ t 0 p i changed old).net t = { p with msg := m } :: net ∧
      Packet.todo { p with msg := m } < p.todo := by
  have hset : ∀ {σ₁ : Sys cfg.segs} {m : Msg}, σ₁.net = Function.update σ.net t
      ((σ.net t).set 0 { p with msg := m }) → σ₁.net t = { p with msg := m } :: net := by
    intro σ₁ m h
    rw [h, Function.update_self, hnet, List.set_cons_zero]
  have hupd : ∀ {σ₁ : Sys cfg.segs}, σ₁.th = Function.update σ.th t (σ.th t) →
      (σ₁.th t).pc = (σ.th t).pc := by
    intro σ₁ h
    rw [h, Function.update_self]
  cases old with
  | none =>
    rw [stepRequest]
    split
    · refine ⟨hupd rfl, rfl, _, hset rfl, ?_⟩
      simp only [Packet.todo, hm]
      omega
    · refine ⟨rfl, rfl, _, hset rfl, ?_⟩
      simp only [Packet.todo, hm]
      omega
  | some old =>
    rw [stepRequest]
    dsimp only
    split
    · refine ⟨hupd rfl, rfl, _, hset rfl, ?_⟩
      simp only [Packet.todo, hm]
      omega
    · refine ⟨hupd rfl, rfl, _, hset rfl, ?_⟩
      simp only [Packet.todo, hm]
      omega

/-- A step of a message leaves less of it. -/
theorem Sys.Ready.progress_msg (h : σ.Ready cfg t locks) {p : Packet} {net : List Packet}
    (hnet : σ.net t = p :: net) : ∃ a σ', Act.Own t a ∧ step cfg σ a = some σ' ∧
      (σ'.th t).pc = (σ.th t).pc ∧ σ'.clock = σ.clock ∧
      ((σ'.net t).map Packet.todo).sum < ((σ.net t).map Packet.todo).sum := by
  have hk : (σ.net t)[0]? = some p := by rw [hnet]; rfl
  cases hm : p.msg with
  | request i old changed =>
    rcases Nat.lt_or_ge i p.buf.count with hi | hi
    · obtain ⟨hpc, hclock, m, hnet', hlt⟩ := stepRequest_todo hnet hm hi
      refine ⟨.handle t 0, stepRequest cfg σ t 0 p i changed old, rfl, ?_, hpc, hclock, ?_⟩
      · simp [step, stepHandle, hk, hm, hi]
      · rw [hnet', hnet]
        simpa using hlt
    · refine ⟨.handle t 0, σ.setMsg t 0 p (.reply p.buf.tx changed), rfl, ?_, rfl, rfl, ?_⟩
      · simp [step, stepHandle, hk, hm, Nat.not_lt.2 hi]
      · rw [Sys.setMsg_net, hnet]
        cases old <;> simp [Packet.todo, hm]
  | reply tx changed =>
    have hdesc := (h.good.ok.local_ok t).desc h.good.ok.descs (List.mem_of_getElem? hk) hm
    refine ⟨.deliver t 0, ({ σ with net := Function.update σ.net t ((σ.net t).eraseIdx 0) }.upd t
      { σ.th t with tx := { (σ.th t).tx with
          rlNodes := (σ.th t).tx.rlNodes + 1
          rlChangedObjects := (σ.th t).tx.rlChangedObjects ++ changed } } (σ.me t)), rfl, ?_, ?_,
      rfl, ?_⟩
    · simp only [step, stepDeliver, hk, hm, hdesc]
    · rw [Sys.upd_th]
    · rw [Sys.upd]
      dsimp only
      rw [Function.update_self, hnet]
      simp [Packet.todo, hm]

/-- The code of `commit` or one of its messages can take a step that leaves less to do. -/
theorem Sys.Ready.progress_commit (h : σ.Ready cfg t locks) (hq : Quiet locks clock)
    (hv : cfg.build.cache = false) (hcom : (σ.th t).pc.committing = true) :
    ∃ a σ', Act.Own t a ∧ step cfg σ a = some σ' ∧ σ'.todo cfg t < σ.todo cfg t := by
  have htodo : σ.todo cfg t = (σ.th t).pc.todo (σ.clock (cfg.node t)) (σ.net t) := rfl
  have hloc := (h.good.ok.local_ok t).pc
  have hrun : ∀ {c σ'}, stepRun cfg σ t c = some σ' → σ'.todo cfg t < σ.todo cfg t →
      ∃ a σ', Act.Own t a ∧ step cfg σ a = some σ' ∧ σ'.todo cfg t < σ.todo cfg t := by
    intro c σ' hs hlt
    refine ⟨.run t c, σ', rfl, ?_, hlt⟩
    simp [step, h.alone.thread.toCache, hs]
  cases hpc : (σ.th t).pc with
  | getLocks o done rest =>
    rw [hpc] at htodo
    have hs : stepRun cfg σ t ⟨0, 0, ⟨[], [], []⟩, 0⟩ = stepGetLocks cfg σ t o done rest := by
      rw [stepRun, hpc]
    cases rest with
    | nil =>
      refine hrun (hs.trans rfl) ?_
      rw [Sys.todo_upd rfl, htodo]
      exact todo_lt_phase (by decide)
    | cons b rest =>
      obtain ⟨this, hthis⟩ := Option.ne_none_iff_exists'.1 (h.this (by rw [hpc]; simp))
      refine hrun (hs.trans (by rw [stepGetLocks, hthis, Option.map_some])) ?_
      rw [Sys.todo_upd rfl, htodo]
      obtain ⟨batch, he, hne, -⟩ := fillBatch_spec this (σ.th t).tx.writeSet (b :: rest)
        filled_empty fun _ => by rw [slice_eq_nil.2 (by simp)]; decide
      have hlen := congrArg List.length he
      rw [List.length_append] at hlen
      have hpos := List.length_pos_iff.2 (hne (by simp))
      exact todo_lt_entry (by omega)
  | requestLocks o done batch rest unsent requests =>
    rw [hpc] at htodo
    have hs : stepRun cfg σ t ⟨0, 0, ⟨[], [], []⟩, 0⟩ =
        stepRequestLocks cfg σ t ⟨0, 0, ⟨[], [], []⟩, 0⟩ o done batch rest requests unsent := by
      rw [stepRun, hpc]
    cases unsent with
    | nil =>
      refine hrun (hs.trans rfl) ?_
      rw [Sys.todo_goto, htodo]
      exact todo_lt_step (by simp)
    | cons q unsent =>
      refine hrun (hs.trans rfl) ?_
      rw [Sys.todo_upd rfl, htodo]
      refine todo_lt_step ?_
      simp only [List.eraseIdx_zero, List.tail_cons, Function.update_self, List.map_append,
        List.map_cons, List.map_nil, List.sum_append, List.sum_cons, List.sum_nil, Packet.todo]
      omega
  | waitLocks o done batch rest requests =>
    have hs : stepRun cfg σ t ⟨0, 0, ⟨[], [], []⟩, 0⟩ =
        stepWaitLocks cfg σ t o done batch rest requests := by
      rw [stepRun, hpc]
    simp only [PcOk, hpc] at hloc
    obtain ⟨-, -, this, -, hb⟩ := hloc
    rcases Nat.lt_or_ge (σ.th t).tx.rlNodes requests with hlt | hle
    · -- A message is under way.
      have hnum := hb.number
      rw [List.length_nil] at hnum
      obtain ⟨p, net, hnet⟩ := List.exists_cons_of_length_pos (l := σ.net t) (by omega)
      obtain ⟨a, σ', hown, hstep, hpc', hclock, hsum⟩ := h.progress_msg hnet
      refine ⟨a, σ', hown, hstep, ?_⟩
      rw [Sys.todo, hpc', htodo, hpc]
      exact todo_lt_step (by omega)
    · have hgo : stepWaitLocks cfg σ t o done batch rest requests =
          some (σ.goto t (.getLocks o (done ++ batch) rest)) := by
        rw [stepWaitLocks, if_neg (Nat.not_lt.2 hle), h.alone.thread.changed]
        rfl
      refine hrun (hs.trans hgo) ?_
      rw [Sys.todo_goto, htodo, hpc]
      exact todo_lt_step (by omega)
  | releaseLocks left =>
    have hp := h.alone.thread.pc
    rw [hpc] at hp
    exact hp.elim
  | validateAll o left looked =>
    rw [hpc] at htodo
    refine hrun (c := ⟨0, 0, ⟨[], [], []⟩, 0⟩) (by rw [stepRun, hpc]) ?_
    cases left with
    | nil =>
      rw [stepValidateAll, Sys.todo_upd rfl, htodo]
      exact todo_lt_phase (by decide)
    | cons p left =>
      have hch := h.alone.changed_eq hq h.good hpc
      rw [stepValidateAll, hv, Bool.false_and, if_neg (by simp)]
      dsimp only
      rw [if_neg (by rw [hch]; simp), Sys.todo_goto, htodo]
      exact todo_lt_step (by simp)
  | commitWriteSetValues o puts left =>
    rw [hpc] at htodo
    refine hrun (c := ⟨left.headD 0, 1, ⟨[], [], []⟩, 0⟩) (by rw [stepRun, hpc]) ?_
    cases puts with
    | nil =>
      rw [stepCommitWriteSetValues, Sys.todo_goto, htodo]
      exact todo_lt_phase (by decide)
    | cons p puts =>
      cases left with
      | nil =>
        rw [stepCommitWriteSetValues, Sys.todo_goto, htodo]
        exact todo_lt_entry (by simp)
      | cons k left =>
        rw [stepCommitWriteSetValues, Sys.todo_upd rfl, htodo]
        exact todo_lt_step (length_pieceRest_lt k left)
  | getNextClock o cur =>
    rw [hpc] at htodo
    refine hrun (c := ⟨0, 0, ⟨[], [], []⟩, 0⟩) (by rw [stepRun, hpc]) ?_
    cases cur with
    | none =>
      rw [stepGetNextClock, Sys.todo_goto, htodo]
      exact todo_lt_step (by simp [clockTodo])
    | some cur =>
      rw [stepGetNextClock, htodo]
      split
      · rw [Sys.todo_upd rfl]
        exact todo_lt_phase (by decide)
      · next hne =>
        rw [Sys.todo_goto]
        exact todo_lt_step (by simp [clockTodo, hne])
  | releaseLocksWithNewClock version left =>
    rw [hpc] at htodo
    refine hrun (c := ⟨0, 0, ⟨[], [], []⟩, 0⟩) (by rw [stepRun, hpc]) ?_
    cases left with
    | nil =>
      rw [stepReleaseLocksWithNewClock, Sys.todo_upd rfl, htodo]
      exact todo_lt_phase (by decide)
    | cons b left =>
      rw [stepReleaseLocksWithNewClock, Sys.todo_upd rfl, htodo]
      exact todo_lt_step (by simp)
  | _ =>
    rw [hpc] at hcom
    cases hcom

/-- Inside a call or inside `commit` a step is possible that leaves less to do. -/
theorem Sys.Ready.progress (h : σ.Ready cfg t locks) (hq : Quiet locks clock)
    (hv : cfg.build.cache = false) (hi : (σ.th t).pc ≠ .idle) (ha : (σ.th t).pc ≠ .active) :
    ∃ a σ', Act.Own t a ∧ step cfg σ a = some σ' ∧ σ'.todo cfg t < σ.todo cfg t := by
  cases hcom : (σ.th t).pc.committing with
  | true => exact h.progress_commit hq hv hcom
  | false =>
    obtain ⟨c, σ', hs, hlt⟩ := h.progress_call hq hv (Pc.calling_iff.2 ⟨hcom, hi⟩) ha
    exact ⟨.run t c, σ', rfl, by simp [step, h.alone.thread.toCache, hs], hlt⟩

/-! ## What a step of its own leaves alone -/

/-- A step inside `commit` stays inside until the transaction is over. -/
theorem Rule.committing (hr : Rule cfg σ a σ') (hok : σ.Ok cfg)
    (hpc : (σ.th a.tid).pc.committing = true) :
    (σ'.th a.tid).pc.committing = true ∨ (σ'.th a.tid).pc = .idle := by
  have lift : ∀ {th : Thread cfg.segs}, σ'.th = Function.update σ.th a.tid th →
      th.pc.committing = true ∨ th.pc = .idle →
      (σ'.th a.tid).pc.committing = true ∨ (σ'.th a.tid).pc = .idle := by
    intro th hth hp
    rwa [hth, Function.update_self]
  cases hr with
  | goto ha' _ hgo =>
    subst ha'
    refine lift rfl (.inl ?_)
    cases hgo with
    | fetch _ hp | readVersion hp | readPiece _ _ hp | retry hp | clockRead hp | clockKept hp
    | clockRetry hp | validate _ hp | looked hp | valid hp =>
      rw [hp] at hpc
      cases hpc
    | _ => rfl
  | abort _ _ ha' =>
    subst ha'
    exact lift rfl (.inr rfl)
  | load | reply | lost => exact .inl hpc
  | deliver hk hm hdesc =>
    obtain rfl := delivers hok.local_ok hok.descs _ _ _ _ _ _ hk hm hdesc
    exact lift rfl (.inl hpc)
  | begin hp | served hp | fetched hp | clockRaised hp | finish hp | finishValid hp =>
    rw [Act.tid, hp] at hpc
    cases hpc
  | released | committed => exact lift rfl (.inr rfl)
  | new | delete | addVersion | refuse | grant => exact lift rfl (.inl hpc)
  | _ => exact lift rfl (.inl rfl)

/-- A thread that moves on inside a call or `commit` goes on with its call. -/
theorem Goes.call_eq {pc : Pc cfg.segs} (hgo : Goes cfg σ t pc) (ha : (σ.th t).pc ≠ .active) :
    pc.call = (σ.th t).pc.call := by
  cases hgo with
  | fetch _ hp | commit _ hp => exact absurd hp ha
  | readVersion hp | readPiece _ _ hp | retry hp | clockRead hp | clockKept hp | clockRetry hp
  | validate _ hp | looked hp | valid hp | wait hp | granted hp | refused hp | skip hp
  | lookedAll hp | validAll hp | putNext hp | putAll hp | nextRead hp | nextRetry hp =>
    rw [hp]
    rfl

/-- A step inside a call or `commit` keeps the calls, unless the transaction aborts. -/
theorem Rule.calls_eq (hr : Rule cfg σ a σ') (hok : σ.Ok cfg) (hi : (σ.th a.tid).pc ≠ .idle)
    (ha : (σ.th a.tid).pc ≠ .active) (hab : (σ'.me a.tid).aborted = false) :
    calls (σ'.th a.tid) (σ'.me a.tid) = calls (σ.th a.tid) (σ.me a.tid) := by
  have lift : ∀ {th : Thread cfg.segs} {me : Attempt cfg.segs},
      σ'.th = (σ.upd a.tid th me).th → σ'.att = (σ.upd a.tid th me).att →
      (me.aborted = false → calls th me = calls (σ.th a.tid) (σ.me a.tid)) →
      calls (σ'.th a.tid) (σ'.me a.tid) = calls (σ.th a.tid) (σ.me a.tid) :=
    fun h1 h2 h3 => Sys.lift (P := fun th me => me.aborted = false →
      calls th me = calls (σ.th a.tid) (σ.me a.tid)) h3 h1 h2 hab
  cases hr with
  | goto ha' _ hgo =>
    subst ha'
    refine lift rfl rfl fun _ => ?_
    rw [calls, calls, hgo.call_eq ha]
  | abort _ _ ha' =>
    subst ha'
    exact lift rfl rfl fun h => by cases h
  | released => exact lift rfl rfl fun h => by cases h
  | load | reply | lost => rfl
  | deliver hk hm hdesc =>
    obtain rfl := delivers hok.local_ok hok.descs _ _ _ _ _ _ hk hm hdesc
    exact lift rfl rfl fun _ => rfl
  | new _ hp | begin hp | delete hp => exact absurd hp hi
  | served hp => exact absurd hp ha
  | addVersion | refuse | grant => exact lift rfl rfl fun _ => rfl
  | fetched hp | clockRaised hp | finish hp | finishValid hp | lockPoint hp | batch hp | send hp
  | restore hp | validated hp | invalid hp | put _ _ hp | issue hp | release hp | committed hp =>
    refine lift rfl rfl fun _ => ?_
    rw [Act.tid, calls, calls, hp]
    simp [Pc.call]

/-! ## Completion -/

/-- **Calls and commits complete**: from every state in which `t` runs alone, steps of its own lead
to a state between two calls or after the transaction. -/
theorem completes {P : Sys cfg.segs → Prop} (hready : ∀ σ, P σ → σ.Ready cfg t locks)
    (hstep : ∀ σ a σ', P σ → (σ.th t).pc ≠ .idle → (σ.th t).pc ≠ .active → Act.Own t a →
      step cfg σ a = some σ' → P σ')
    (hq : Quiet locks clock) (hv : cfg.build.cache = false) (h : P σ) :
    ∃ σ', Relation.ReflTransGen (Sys.Next cfg t) σ σ' ∧ P σ' ∧
      ((σ'.th t).pc = .idle ∨ (σ'.th t).pc = .active) := by
  induction hn : σ.todo cfg t using WellFoundedLT.induction generalizing σ with
  | ind n ih =>
    rcases Classical.em ((σ.th t).pc = .idle ∨ (σ.th t).pc = .active) with hend | hend
    · exact ⟨σ, .refl, h, hend⟩
    · obtain ⟨hi, ha⟩ := not_or.1 hend
      obtain ⟨a, σ₁, hown, hs, hlt⟩ := (hready σ h).progress hq hv hi ha
      obtain ⟨σ', hpath, h', hend'⟩ := ih _ (hn ▸ hlt) (hstep σ a σ₁ h hi ha hown hs) rfl
      exact ⟨σ', .head ⟨a, hown, hs⟩ hpath, h', hend'⟩

/-- The current transaction changes only when one begins. -/
theorem Rule.cur_eq (hr : Rule cfg σ a σ') (hb : ∀ u, a ≠ .begin u) (t : Tid) :
    σ'.cur t = σ.cur t := by
  have hcur : ∀ {u : Tid} {th : Thread cfg.segs}, σ'.th = Function.update σ.th u th →
      th.round = (σ.th u).round → σ'.cur t = σ.cur t := by
    intro u th hth hround
    rw [Sys.cur, Sys.cur, hth]
    rcases eq_or_ne t u with rfl | hne
    · rw [Function.update_self, hround]
    · rw [Function.update_of_ne hne]
  cases hr with
  | begin => exact absurd rfl (hb _)
  | load | reply | lost => rfl
  | _ => exact hcur rfl rfl

/-- A thread that runs a transaction has a descriptor. -/
theorem Rule.this (hr : Rule cfg σ a σ') (hok : σ.Ok cfg)
    (h : (σ.th a.tid).pc ≠ .idle → (σ.th a.tid).this ≠ none) :
    (σ'.th a.tid).pc ≠ .idle → (σ'.th a.tid).this ≠ none := by
  have lift : ∀ {th : Thread cfg.segs}, σ'.th = Function.update σ.th a.tid th →
      (th.pc ≠ .idle → th.this ≠ none) →
      (σ'.th a.tid).pc ≠ .idle → (σ'.th a.tid).this ≠ none := by
    intro th hth hp
    rwa [hth, Function.update_self]
  cases hr with
  | goto ha _ hgo =>
    subst ha
    exact lift rfl fun _ => h hgo.not_idle.1
  | abort _ _ ha =>
    subst ha
    exact lift rfl fun hp => absurd rfl hp
  | released | committed => exact lift rfl fun hp => absurd rfl hp
  | new => exact lift rfl fun _ => by simp
  | begin _ _ hthis => exact lift rfl fun _ => by simp [hthis]
  | delete hpc => exact lift rfl fun hp => absurd hpc hp
  | load | reply | lost => exact h
  | deliver hk hm hdesc =>
    obtain rfl := delivers hok.local_ok hok.descs _ _ _ _ _ _ hk hm hdesc
    exact lift rfl h
  | addVersion | refuse | grant => exact lift rfl h
  | served hpc => exact lift rfl h
  | fetched hpc | clockRaised hpc | finish hpc | finishValid hpc | lockPoint hpc | batch hpc
  | send hpc | restore hpc | validated hpc | invalid hpc | put _ _ hpc | issue hpc | release hpc =>
    exact lift rfl fun _ => h (by rw [Act.tid, hpc]; simp)

/-! ## Runs alone -/

/-- What holds of all runs in which `t` runs its transaction alone, without a version cache. -/
structure Sys.AloneRun (cfg : Config) (t : Tid) (R : List Word → Prop) (locks : Loc → Word)
    (base : Flat) (σ : Sys cfg.segs) : Prop where
  watched : σ.Watched cfg t R base
  alone : σ.AloneOk cfg t locks
  writes : WritesOk (σ.th t) (σ.me t)
  this : (σ.th t).pc ≠ .idle → (σ.th t).this ≠ none

section
variable {R : List Word → Prop} {base : Flat}

/-- In `VARIANT1` the two maps have no cell in common. -/
theorem Sys.Watched.disjoint (h : σ.Watched cfg t R base) (hv : cfg.build.variant = .variant1)
    {b : Word} (hb : b ∈ (σ.th t).tx.readSet) : b ∉ (σ.th t).tx.writeSet := by
  have hm := h.maps
  rw [hv] at hm
  obtain ⟨hrun, hag⟩ := hm
  rcases Classical.em ((σ.th t).pc = .idle) with hpc | hpc
  · rw [(hrun.idle hpc).1] at hb
    cases hb
  · obtain ⟨m, -, ht, -⟩ := (hrun.running hpc).runs base hag
    obtain ⟨e, he⟩ := exists_lookup hb
    exact (ht.read b e he).2.2

theorem Sys.AloneRun.start (base : Flat) (locks : Loc → Word) (clock : ℕ → Word) (t : Tid)
    (R : List Word → Prop) : (Sys.start cfg.segs base locks clock).AloneRun cfg t R locks base where
  watched := .start base locks clock t R
  alone := .start base locks clock t
  writes h := by rcases h with h | h <;> cases h
  this hp := absurd rfl hp

/-- A step keeps this. -/
theorem Sys.AloneRun.step (h : σ.AloneRun cfg t R locks base) (hq : Quiet locks clock)
    (hc : cfg.build.cache = false) (hs : step cfg σ a = some σ') (halone : AloneBy cfg t R σ a σ') :
    σ'.AloneRun cfg t R locks base := by
  have hr := step_rule hs
  have hg := h.watched.good
  have hsame := hr.sameBut (delivers hg.ok.local_ok hg.ok.descs)
  refine ⟨h.watched.step hs halone, h.alone.step hq hg hc h.writes
    (fun b hb hv => h.watched.disjoint hv hb) hs halone.1, ?_, ?_⟩
  · rcases eq_or_ne a.tid t with rfl | hne
    · exact hr.writesOk hg.ok h.writes
    · rw [hsame.th t hne.symm, hsame.me hne.symm]
      exact h.writes
  · rcases eq_or_ne a.tid t with rfl | hne
    · exact hr.this hg.ok h.this
    · rw [hsame.th t hne.symm]
      exact h.this

/-- It holds of all these runs. -/
theorem reach_aloneRun (hq : Quiet locks clock) (hc : cfg.build.cache = false)
    (h : (cfg.ltsFrom base locks clock).Reach (AloneBy cfg t R) σ) :
    σ.AloneRun cfg t R locks base :=
  h.induct (fun _ h0 => h0 ▸ .start base locks clock t R)
    fun _ _ _ _ ih hs ha => ih.step hq hc hs ha

/-! ## Any calls can be made -/

/-- A step of its own neither begins a transaction nor calls `commit`. -/
theorem Act.Own.tid (h : Act.Own t a) :
    a.tid = t ∧ (∀ o, a ≠ .commit a.tid o) ∧ ∀ u, a ≠ .begin u := by
  cases a with
  | run | handle | deliver => exact ⟨h, by simp, by simp⟩
  | _ => exact h.elim

/-- The order of the puts is chosen by `commit` only. -/
theorem AloneBy.of_alone (h : Alone cfg t σ a σ') (ha : ∀ o, a ≠ .commit t o) :
    AloneBy cfg t R σ a σ' :=
  ⟨h, fun o he => absurd he (ha o)⟩

theorem Act.Own.alone (h : Act.Own t a) : AloneBy cfg t R σ a σ' := by
  obtain ⟨rfl, ha, -⟩ := h.tid
  refine .of_alone ?_ ha
  cases a with
  | run | handle | deliver => trivial
  | _ => exact h.elim

/-- Steps of its own are steps of the run. -/
theorem reach_next (h : (cfg.ltsFrom base locks clock).Reach (AloneBy cfg t R) σ)
    (hp : Relation.ReflTransGen (Sys.Next cfg t) σ σ') :
    (cfg.ltsFrom base locks clock).Reach (AloneBy cfg t R) σ' := by
  induction hp with
  | refl => exact h
  | tail _ hs ih =>
    obtain ⟨a, hown, hs⟩ := hs
    exact ih.step hs hown.alone

theorem Sys.AloneRun.ready (h : σ.AloneRun cfg t R locks base) : σ.Ready cfg t locks :=
  ⟨h.watched.good, h.alone, h.this⟩

/-- A step of its own inside a call or `commit`. -/
theorem Sys.AloneRun.own (h : σ.AloneRun cfg t R locks base) (hq : Quiet locks clock)
    (hc : cfg.build.cache = false)
    (hi : (σ.th t).pc ≠ .idle) (ha : (σ.th t).pc ≠ .active) (hown : Act.Own t a)
    (hs : DstmP1.step cfg σ a = some σ') : σ'.AloneRun cfg t R locks base ∧ σ'.cur t = σ.cur t ∧
      calls (σ'.th t) (σ'.me t) = calls (σ.th t) (σ.me t) ∧
      ((σ.th t).pc.calling = true → (σ'.th t).pc.calling = true) ∧
      ((σ.th t).pc.committing = true → (σ'.th t).pc.committing = true ∨ (σ'.th t).pc = .idle) := by
  have halone : AloneBy cfg t R σ a σ' := hown.alone
  obtain ⟨rfl, hnc, hnb⟩ := hown.tid
  have hr := step_rule hs
  have hg := h.watched.good
  have h' := h.step hq hc hs halone
  refine ⟨h', hr.cur_eq hnb _, hr.calls_eq hg.ok hi ha h'.alone.thread.aborted, fun hcall => ?_,
    hr.committing hg.ok⟩
  exact Pc.calling_iff.2 ⟨hr.not_committing hg.ok hs hnc (Pc.calling_iff.1 hcall).1,
    h.alone.not_abort hq hg hc rfl halone.1 hs hcall⟩

/-- A call returns. -/
theorem Sys.AloneRun.call_returns (h : σ.AloneRun cfg t R locks base) (hq : Quiet locks clock)
    (hc : cfg.build.cache = false)
    (hpc : (σ.th t).pc.calling = true) :
    ∃ σ', Relation.ReflTransGen (Sys.Next cfg t) σ σ' ∧ (σ'.th t).pc = .active ∧
      (σ'.me t).ops.map Prod.fst = calls (σ.th t) (σ.me t) := by
  have hstep : ∀ τ a τ', (τ.AloneRun cfg t R locks base ∧ (τ.th t).pc.calling = true ∧
      calls (τ.th t) (τ.me t) = calls (σ.th t) (σ.me t)) → (τ.th t).pc ≠ .idle →
      (τ.th t).pc ≠ .active → Act.Own t a → DstmP1.step cfg τ a = some τ' →
      τ'.AloneRun cfg t R locks base ∧ (τ'.th t).pc.calling = true ∧
        calls (τ'.th t) (τ'.me t) = calls (σ.th t) (σ.me t) := by
    rintro τ a τ' ⟨h, hcall, hcalls⟩ hi ha hown hs
    obtain ⟨h', -, hcalls', hcall', -⟩ := h.own hq hc hi ha hown hs
    exact ⟨h', hcall' hcall, hcalls'.trans hcalls⟩
  obtain ⟨σ', hpath, ⟨-, hcall, hcalls⟩, hend⟩ :=
    completes (fun τ h => h.1.ready) hstep hq hc ⟨h, hpc, rfl⟩
  have hact := hend.resolve_left (Pc.calling_iff.1 hcall).2
  have hno : (σ'.th t).pc.call = none := by
    rw [hact]
    rfl
  refine ⟨σ', hpath, hact, ?_⟩
  rw [← hcalls, calls, hno, Option.toList_none, List.append_nil]

/-- A commit returns. -/
theorem Sys.AloneRun.commit_returns (h : σ.AloneRun cfg t R locks base) (hq : Quiet locks clock)
    (hc : cfg.build.cache = false)
    (hpc : (σ.th t).pc.committing = true) :
    ∃ σ', Relation.ReflTransGen (Sys.Next cfg t) σ σ' ∧ (σ'.me t).returned ≠ none ∧
      (σ'.me t).ops.map Prod.fst = calls (σ.th t) (σ.me t) := by
  have hstep : ∀ τ a τ', (τ.AloneRun cfg t R locks base ∧
      ((τ.th t).pc.committing = true ∨ (τ.th t).pc = .idle) ∧ τ.cur t = σ.cur t ∧
      calls (τ.th t) (τ.me t) = calls (σ.th t) (σ.me t)) → (τ.th t).pc ≠ .idle →
      (τ.th t).pc ≠ .active → Act.Own t a → DstmP1.step cfg τ a = some τ' →
      τ'.AloneRun cfg t R locks base ∧ ((τ'.th t).pc.committing = true ∨ (τ'.th t).pc = .idle) ∧
        τ'.cur t = σ.cur t ∧ calls (τ'.th t) (τ'.me t) = calls (σ.th t) (σ.me t) := by
    rintro τ a τ' ⟨h, hcom, hcur, hcalls⟩ hi ha hown hs
    obtain ⟨h', hcur', hcalls', -, hcom'⟩ := h.own hq hc hi ha hown hs
    exact ⟨h', hcom' (hcom.resolve_right hi), hcur'.trans hcur, hcalls'.trans hcalls⟩
  obtain ⟨σ', hpath, ⟨h', hcom, hcur, hcalls⟩, hend⟩ :=
    completes (fun τ h => h.1.ready) hstep hq hc ⟨h, .inl hpc, rfl, rfl⟩
  have hidle : (σ'.th t).pc = .idle := by
    rcases hcom with hcom | hidle
    · refine hend.resolve_right fun hact => ?_
      rw [hact] at hcom
      cases hcom
    · exact hidle
  have hno : (σ'.th t).pc.call = none := by
    rw [hidle]
    rfl
  refine ⟨σ', hpath, ?_, ?_⟩
  · -- The transaction has ended, and it has not aborted.
    have hround : (σ'.th t).round = (σ.th t).round := congrArg Prod.snd hcur
    have hbegun := h.watched.good.att.cur t
    have hended := h'.watched.good.att.cur t
    rw [EndedOk] at hbegun hended
    split at hbegun
    · rw [hbegun.1] at hpc
      cases hpc
    · next hne =>
      rw [if_neg (hround ▸ hne)] at hended
      refine (hended.2 hidle).resolve_right fun hab => ?_
      rw [h'.alone.thread.aborted] at hab
      cases hab
  · rw [← hcalls, calls, hno, Option.toList_none, List.append_nil]

/-- Any calls can be made one after the other. -/
theorem exists_active (base : Flat) (hq : Quiet locks clock) (hc : cfg.build.cache = false)
    (t : Tid) (R : List Word → Prop) (l : List (Op cfg.segs)) :
    ∃ σ, (cfg.ltsFrom base locks clock).Reach (AloneBy cfg t R) σ ∧ (σ.th t).pc = .active ∧
      (σ.me t).ops.map Prod.fst = l := by
  induction l using List.reverseRecOn with
  | nil =>
    obtain ⟨σ, h, hth⟩ : ∃ σ, (cfg.ltsFrom base locks clock).Reach (AloneBy cfg t R) σ ∧
        σ.th t = ⟨some 0, Tx.new, .idle, none, 0, 0⟩ :=
      ⟨_, (Lts.Reach.init rfl).step (a := .new t 0) rfl (.of_alone trivial (by simp)),
        Function.update_self ..⟩
    have hs : (cfg.ltsFrom base locks clock).step σ (.begin t) =
        some { σ.upd t { σ.th t with
            tx := (σ.th t).tx.begin, pc := .active, round := (σ.th t).round + 1 }
          (Attempt.new cfg.segs σ.now) with now := σ.now + 1 } := by
      simp only [Config.ltsFrom, step, hth]
    have hround : (σ.th t).round = 0 := by rw [hth]
    refine ⟨_, h.step hs (.of_alone (fun _ => hround) (by simp)), by simp [Sys.upd], ?_⟩
    exact congrArg (fun me => me.ops.map Prod.fst) (Sys.upd_me (σ := σ))
  | append_singleton l op ih =>
    obtain ⟨σ, h, hpc, hops⟩ := ih
    have hrun := reach_aloneRun hq hc h
    have hs : (cfg.ltsFrom base locks clock).step σ (.call t op) =
        some (stepCall cfg σ t op) := by
      simp only [Config.ltsFrom, step, hpc, hrun.alone.thread.toCache]
    have h' := h.step hs (.of_alone trivial (by simp))
    rw [stepCall] at h'
    split at h'
    · refine ⟨_, h', ?_, ?_⟩
      · rw [Sys.upd_th]
        exact hpc
      · rw [Sys.upd_me, List.map_append, hops]
        rfl
    · have hcall : (((σ.goto t (.readCell op .version)).th t).pc).calling = true := by
        rw [Sys.goto, Sys.upd_th]
        rfl
      obtain ⟨σ', hpath, hpc', hops'⟩ := (reach_aloneRun hq hc h').call_returns hq hc hcall
      refine ⟨σ', reach_next h' hpath, hpc', ?_⟩
      rw [hops', calls, Sys.goto, Sys.upd_th, Sys.upd_me, hops]
      rfl

/-- And then committed, with the values put in an order in `R`. -/
theorem exists_returned (base : Flat) (hq : Quiet locks clock) (hc : cfg.build.cache = false)
    (t : Tid) {l : List (Op cfg.segs)}
    (hR : ∀ vs : AList fun _ : Word => ValueEntry, (cfg.build.variant = .variant2 →
      vs = (valueMemory cfg.segs base).after ∅ l) → ∃ k : List Word, k.Perm vs.keys ∧ R k) :
    ∃ σ, (cfg.ltsFrom base locks clock).Reach (AloneBy cfg t R) σ ∧
      (σ.me t).ops.map Prod.fst = l ∧ (σ.me t).returned ≠ none := by
  obtain ⟨σ, h, hpc, hops⟩ := exists_active base hq hc t R l
  have hrun := reach_aloneRun hq hc h
  obtain ⟨o, ho, hin⟩ : ∃ o : Tx.Orders, o.Of (σ.th t).tx ∧ R o.vs := by
    obtain ⟨k, hk, hin⟩ := hR (σ.th t).tx.writeSetValues fun hv => by
      have hm := hrun.watched.maps
      rw [hv] at hm
      rw [← hops]
      exact (EntriesOk.running hm (by rw [hpc]; simp)).eq_after
    exact ⟨⟨_, _, k⟩, ⟨.refl _, .refl _, hk⟩, hin⟩
  have hs : (cfg.ltsFrom base locks clock).step σ (.commit t o) =
      some (σ.goto t (.getLocks o [] o.ws)) := by
    simp only [Config.ltsFrom, step, hpc, hrun.alone.thread.toCache, if_pos ho]
  have h' := h.step hs ⟨rfl, fun o' he => by
    cases he
    exact hin⟩
  have hcom : (((σ.goto t (.getLocks o [] o.ws)).th t).pc).committing = true := by
    rw [Sys.goto, Sys.upd_th]
    rfl
  obtain ⟨σ', hpath, hret, hops'⟩ := (reach_aloneRun hq hc h').commit_returns hq hc hcom
  refine ⟨σ', reach_next h' hpath, ?_, hret⟩
  rw [hops', calls, Sys.goto, Sys.upd_th, Sys.upd_me, hops]
  simp [Pc.call]

end

end

end DstmP1
