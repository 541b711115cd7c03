import DstmP1.Sequential

/-!
# No call waits for another thread

A call or a `commit` goes on by steps of its own: those of its code and of its lock requests at
their home nodes. Whatever the other threads have done and wherever they stand, one of these steps
is possible as long as the call or the `commit` has not come to its end, and each of them lowers a
measure (`Sys.Works.lowers`), so that after finitely many of them it has returned or aborted
(`reach_obstructionFree`). In particular no set of transactions blocks.

This is about builds without the version cache, whose functions wait for the mutex of their node
(`CacheMutex`), and about a thread that is not disturbed: the clocks and the lock words that other
threads change make it start over.
-/

namespace DstmP1

open Segments (Loc)

/-! ## Steps of its own -/

section
variable {g : Segments}

/-- A step of the code of `t` or of a message of `t`. -/
def Act.Works (t : Tid) : Act g → Prop
  | .run t' _ | .handle t' _ | .deliver t' _ => t' = t
  | _ => False

/-- The scheduler gives a transfer that is under way a piece without any of the bytes left. -/
def emptyPiece (σ : Sys g) : Act g → Bool
  | .run t c =>
    match (σ.th t).pc with
    | .readCell _ (.data _ left _) | .commitWriteSetValues _ (_ :: _) left =>
      !left.isEmpty && (pieceOf c.off c.n left).isEmpty
    | _ => false
  | _ => false

/-- `t` is inside a call or inside `commit`. -/
def Sys.Busy (σ : Sys g) (t : Tid) : Prop := (σ.th t).pc ≠ .idle ∧ (σ.th t).pc ≠ .active

/-- `t` takes a step of its own. -/
def Sys.Works (cfg : Config) (t : Tid) (σ σ' : Sys cfg.segs) : Prop :=
  ∃ a, Act.Works t a ∧ step cfg σ a = some σ' ∧ emptyPiece σ a = false

/-! ## What is left to do -/

/-- What is left when the lock words are `locks` and the clock of the node is `clock`: the phases,
the entries in this phase and the steps with the current one. A `readCell` that has seen another
version has to start over. -/
def Pc.work (locks : Loc → Word) (clock : Word) (net : List Packet) : Pc g → ℕ ×ₗ ℕ ×ₗ ℕ
  | .idle | .active => toLex (0, toLex (0, 0))
  | .readCell _ .version => toLex (8, toLex (0, 0))
  | .readCell op (.data version left _) =>
    toLex (if isTimestampsEquivalent version (locks (g.lockLoc op.access.addr)) then 7 else 9,
      toLex (0, left.length))
  | .increaseClock _ _ _ cur => toLex (6, toLex (0, clockTodo clock cur))
  | .validateStart _ _ _ => toLex (5, toLex (0, 0))
  | .validate _ _ _ left looked => toLex (4, toLex (0, 2 * left.length + if looked then 0 else 1))
  | .getLocks _ _ rest => toLex (8, toLex (rest.length, 0))
  | .requestLocks _ _ _ rest unsent _ => toLex (8, toLex (rest.length,
      2 + (unsent.map fun q => 2 * q.2.count + 4).sum + (net.map Packet.todo).sum))
  | .waitLocks _ _ _ rest _ => toLex (8, toLex (rest.length, 1 + (net.map Packet.todo).sum))
  | .validateAll _ left looked =>
    toLex (7, toLex (0, 2 * left.length + if looked then 0 else 1))
  | .commitWriteSetValues _ puts left => toLex (6, toLex (puts.length, left.length))
  | .getNextClock _ cur => toLex (5, toLex (0, clockTodo clock cur))
  | .releaseLocksWithNewClock _ left => toLex (4, toLex (0, left.length))
  | .releaseLocks left => toLex (3, toLex (0, left.length))

end

section
variable {cfg : Config} {σ σ' : Sys cfg.segs} {a : Act cfg.segs} {t : Tid} {c : Choice}

/-- What is left to do for the code of `t`. -/
def Sys.work (cfg : Config) (t : Tid) (σ : Sys cfg.segs) : ℕ ×ₗ ℕ ×ₗ ℕ :=
  (σ.th t).pc.work σ.locks (σ.clock (cfg.node t)) (σ.net t)

theorem Sys.work_goto (pc : Pc cfg.segs) :
    (σ.goto t pc).work cfg t = pc.work σ.locks (σ.clock (cfg.node t)) (σ.net t) := by
  rw [Sys.work, Sys.goto, Sys.upd_th]
  rfl

theorem Sys.work_upd {th : Thread cfg.segs} (h : σ'.th = Function.update σ.th t th) :
    σ'.work cfg t = th.pc.work σ'.locks (σ'.clock (cfg.node t)) (σ'.net t) := by
  rw [Sys.work, h, Function.update_self]

/-- A piece that is not empty leaves fewer bytes. -/
theorem length_pieceRest {off n : ℕ} {left : List ℕ} (h : (pieceOf off n left).isEmpty = false) :
    (pieceRest off n left).length < left.length := by
  rw [List.isEmpty_eq_false_iff_exists_mem] at h
  obtain ⟨k, hk⟩ := h
  obtain ⟨hmem, hin⟩ := List.mem_filter.1 hk
  exact List.length_filter_lt_length_iff_exists.2 ⟨k, hmem, by rw [hin]; simp⟩

/-! ## Steps of the code -/

/-- A step of the code of a call. -/
theorem stepRun_work_call (hs : stepRun cfg σ t c = some σ')
    (he : emptyPiece σ (.run t c) = false) (hcall : (σ.th t).pc.calling = true) :
    σ'.work cfg t < σ.work cfg t := by
  have hwork : σ.work cfg t =
    (σ.th t).pc.work σ.locks (σ.clock (cfg.node t)) (σ.net t) := rfl
  have hfin : ∀ {v op ts buf tx}, (σ.finish t v op ts buf tx).work cfg t =
      toLex (0, toLex (0, 0)) := by
    intros
    rw [Sys.work, Sys.finish, Sys.upd_th]
    rfl
  have habort : ∀ {v}, (σ.abort t v).work cfg t = toLex (0, toLex (0, 0)) := by
    intros
    rw [Sys.work, Sys.abort, Sys.upd_th]
    rfl
  cases hpc : (σ.th t).pc with
  | readCell op pc =>
    simp only [stepRun, hpc, Option.some.injEq] at hs
    rw [hwork, hpc, ← hs]
    cases pc with
    | version =>
      rw [stepReadCell, CellArgs.readVersion]
      split <;> rename_i h <;> split at h <;> cases h
      · rw [Sys.work_goto]
        simp only [Pc.work, isTimestampsEquivalent_refl]
        exact todo_lt_phase (by decide)
      · rw [habort]
        exact todo_lt_phase (by decide)
    | data version left buf =>
      cases left with
      | cons k left =>
        have hne : (pieceOf c.off c.n (k :: left)).isEmpty = false := by
          simpa [emptyPiece, hpc] using he
        rw [stepReadCell, Sys.work_goto]
        exact todo_lt_step (length_pieceRest hne)
      | nil =>
        rw [stepReadCell, CellArgs.readVersion2]
        split <;> rename_i h <;> split at h <;> (try split at h) <;> cases h
        · next hne =>
          rw [Sys.work_goto]
          simp only [Pc.work, hne]
          exact todo_lt_phase (by decide)
        · rw [habort]
          simp only [Pc.work]
          exact todo_lt_phase (by split <;> decide)
        · dsimp only
          rw [Sys.work_upd rfl]
          simp only [Pc.work]
          exact todo_lt_phase (by split <;> decide)
  | increaseClock op ts buf cur =>
    simp only [stepRun, hpc, Option.some.injEq] at hs
    rw [hwork, hpc, ← hs]
    cases cur with
    | none =>
      rw [stepIncreaseClock]
      split
      · rw [Sys.work_goto]
        exact todo_lt_step (by simp [clockTodo])
      · rw [Sys.work_goto]
        exact todo_lt_phase (by decide)
    | some cur =>
      rw [stepIncreaseClock]
      split
      · rw [Sys.work_upd rfl]
        exact todo_lt_phase (by decide)
      · next hne =>
        rw [Sys.work_goto]
        exact todo_lt_step (by simp [clockTodo, hne])
  | validateStart op ts buf =>
    simp only [stepRun, hpc, stepValidateStart] at hs
    rw [hwork, hpc]
    split at hs
    · rw [← Option.some.inj hs, habort]
      exact todo_lt_phase (by decide)
    · split at hs
      · split at hs
        · rw [← Option.some.inj hs, Sys.work_goto]
          exact todo_lt_phase (by decide)
        · cases hs
      · rw [← Option.some.inj hs, hfin]
        exact todo_lt_phase (by decide)
  | validate op ts buf left looked =>
    simp only [stepRun, hpc, Option.some.injEq] at hs
    rw [hwork, hpc, ← hs]
    cases left with
    | nil =>
      rw [stepValidate, hfin]
      exact todo_lt_phase (by decide)
    | cons p left =>
      rw [stepValidate]
      split
      · next hlook =>
        split
        · rw [habort]
          exact todo_lt_phase (by decide)
        · rw [Sys.work_goto]
          simp only [Pc.work]
          exact todo_lt_step (by simp_all)
      · dsimp only
        split
        · rw [habort]
          exact todo_lt_phase (by decide)
        · rw [Sys.work_goto]
          simp only [Pc.work]
          exact todo_lt_step (by simp; omega)
  | active =>
    rw [stepRun, hpc] at hs
    cases hs
  | _ =>
    rw [hpc] at hcall
    cases hcall

/-- A step of the code of `commit`. -/
theorem stepRun_work_commit (hs : stepRun cfg σ t c = some σ')
    (he : emptyPiece σ (.run t c) = false) (hcom : (σ.th t).pc.committing = true) :
    σ'.work cfg t < σ.work cfg t := by
  have hwork : σ.work cfg t =
    (σ.th t).pc.work σ.locks (σ.clock (cfg.node t)) (σ.net t) := rfl
  cases hpc : (σ.th t).pc with
  | getLocks o done rest =>
    simp only [stepRun, hpc] at hs
    rw [hwork, hpc]
    cases rest with
    | nil =>
      rw [stepGetLocks, Option.some.injEq] at hs
      rw [← hs, Sys.work_upd rfl]
      exact todo_lt_phase (by decide)
    | cons b rest =>
      rw [stepGetLocks] at hs
      obtain ⟨this, -, rfl⟩ := Option.map_eq_some_iff.1 hs
      rw [Sys.work_upd rfl]
      obtain ⟨batch, he, hne, -⟩ := fillBatch_spec this (σ.th t).tx.writeSet (b :: rest)
        filled_empty fun _ => by rw [slice_eq_nil.2 (by simp)]; decide
      have hlen := congrArg List.length he
      rw [List.length_append] at hlen
      have hpos := List.length_pos_iff.2 (hne (by simp))
      exact todo_lt_entry (by omega)
  | requestLocks o done batch rest unsent requests =>
    simp only [stepRun, hpc] at hs
    rw [hwork, hpc]
    cases unsent with
    | nil =>
      rw [stepRequestLocks, Option.some.injEq] at hs
      rw [← hs, Sys.work_goto]
      exact todo_lt_step (by simp)
    | cons q unsent =>
      rw [stepRequestLocks] at hs
      obtain ⟨q', hq, rfl⟩ := Option.map_eq_some_iff.1 hs
      rw [Sys.work_upd rfl]
      refine todo_lt_step ?_
      have hsum := ((perm_eraseIdx hq).map fun q => 2 * q.2.count + 4).sum_eq
      rw [hsum]
      simp only [Function.update_self, List.map_append, List.map_cons, List.map_nil,
        List.sum_append, List.sum_cons, List.sum_nil, Packet.todo]
      omega
  | waitLocks o done batch rest requests =>
    simp only [stepRun, hpc, stepWaitLocks] at hs
    rw [hwork, hpc]
    split at hs
    · cases hs
    · split at hs
      · rw [← Option.some.inj hs, Sys.work_goto]
        exact todo_lt_step (by omega)
      · rw [← Option.some.inj hs, Sys.work_goto]
        exact todo_lt_phase (by decide)
  | releaseLocks left =>
    simp only [stepRun, hpc, Option.some.injEq] at hs
    rw [hwork, hpc, ← hs]
    cases left with
    | nil =>
      rw [stepReleaseLocks, Sys.work_upd rfl]
      exact todo_lt_phase (by decide)
    | cons b left =>
      rw [stepReleaseLocks]
      split
      · rw [Sys.work_goto]
        exact todo_lt_step (by simp)
      · dsimp only
        rw [Sys.work_upd rfl]
        exact todo_lt_step (by simp)
  | validateAll o left looked =>
    simp only [stepRun, hpc, Option.some.injEq] at hs
    rw [hwork, hpc, ← hs]
    cases left with
    | nil =>
      rw [stepValidateAll, Sys.work_upd rfl]
      exact todo_lt_phase (by decide)
    | cons p left =>
      rw [stepValidateAll]
      split
      · next hlook =>
        split
        · rw [Sys.work_upd rfl]
          exact todo_lt_phase (by decide)
        · rw [Sys.work_goto]
          simp only [Pc.work]
          exact todo_lt_step (by simp_all)
      · dsimp only
        split
        · rw [Sys.work_upd rfl]
          exact todo_lt_phase (by decide)
        · rw [Sys.work_goto]
          simp only [Pc.work]
          exact todo_lt_step (by simp; omega)
  | commitWriteSetValues o puts left =>
    simp only [stepRun, hpc, Option.some.injEq] at hs
    rw [hwork, hpc, ← hs]
    cases puts with
    | nil =>
      rw [stepCommitWriteSetValues, Sys.work_goto]
      exact todo_lt_phase (by decide)
    | cons p puts =>
      cases left with
      | nil =>
        rw [stepCommitWriteSetValues, Sys.work_goto]
        exact todo_lt_entry (by simp)
      | cons k left =>
        have hne : (pieceOf c.off c.n (k :: left)).isEmpty = false := by
          simpa [emptyPiece, hpc] using he
        rw [stepCommitWriteSetValues, Sys.work_upd rfl]
        exact todo_lt_step (length_pieceRest hne)
  | getNextClock o cur =>
    simp only [stepRun, hpc, Option.some.injEq] at hs
    rw [hwork, hpc, ← hs]
    cases cur with
    | none =>
      rw [stepGetNextClock, Sys.work_goto]
      exact todo_lt_step (by simp [clockTodo])
    | some cur =>
      rw [stepGetNextClock]
      split
      · rw [Sys.work_upd rfl]
        exact todo_lt_phase (by decide)
      · next hne =>
        rw [Sys.work_goto]
        exact todo_lt_step (by simp [clockTodo, hne])
  | releaseLocksWithNewClock version left =>
    simp only [stepRun, hpc, Option.some.injEq] at hs
    rw [hwork, hpc, ← hs]
    cases left with
    | nil =>
      rw [stepReleaseLocksWithNewClock, Sys.work_upd rfl]
      exact todo_lt_phase (by decide)
    | cons b left =>
      rw [stepReleaseLocksWithNewClock, Sys.work_upd rfl]
      exact todo_lt_step (by simp)
  | _ =>
    rw [hpc] at hcom
    cases hcom

/-! ## Steps of the messages -/

/-- While requests are under way, what is left of them counts. -/
theorem Pc.work_inBatch {g : Segments} {pc : Pc g} (h : pc.inBatch = true)
    {locks locks' : Loc → Word} {clock clock' : Word} {net net' : List Packet}
    (hsum : (net'.map Packet.todo).sum < (net.map Packet.todo).sum) :
    pc.work locks' clock' net' < pc.work locks clock net := by
  cases pc with
  | requestLocks | waitLocks => exact todo_lt_step (by omega)
  | _ => cases h

/-- A message of which less is left. -/
theorem sum_set_lt {net : List Packet} {k : ℕ} {p q : Packet} (hk : net[k]? = some p)
    (h : q.todo < p.todo) :
    ((net.set k q).map Packet.todo).sum < (net.map Packet.todo).sum := by
  rw [((perm_set hk q).map Packet.todo).sum_eq, ((perm_eraseIdx hk).map Packet.todo).sum_eq]
  simpa using h

theorem sum_eraseIdx_lt {net : List Packet} {k : ℕ} {p : Packet} (hk : net[k]? = some p)
    (h : 0 < p.todo) :
    ((net.eraseIdx k).map Packet.todo).sum < (net.map Packet.todo).sum := by
  rw [((perm_eraseIdx hk).map Packet.todo).sum_eq]
  simpa using h

/-- A message of `t` takes a step that leaves less of it. -/
theorem Sys.work_msg (hok : σ.Ok cfg) {th : Thread cfg.segs} {k : ℕ} {p : Packet}
    {net : List Packet} (hk : (σ.net t)[k]? = some p) (hth : σ'.th = Function.update σ.th t th)
    (hpc : th.pc = (σ.th t).pc) (hnet : σ'.net = Function.update σ.net t net)
    (hsum : (net.map Packet.todo).sum < ((σ.net t).map Packet.todo).sum) :
    σ'.work cfg t < σ.work cfg t := by
  rw [Sys.work_upd hth, hnet, Function.update_self, hpc]
  exact Pc.work_inBatch (hok.inBatch (List.mem_of_getElem? hk)).1 hsum

theorem stepHandle_work {k : ℕ} (hs : stepHandle cfg σ t k = some σ') (hok : σ.Ok cfg) :
    σ'.work cfg t < σ.work cfg t := by
  have hsame : σ.th = Function.update σ.th t (σ.th t) := (Function.update_eq_self _ _).symm
  rw [stepHandle] at hs
  split at hs
  · cases hs
  · next p hk =>
    split at hs
    · cases hs
    · next i old changed hm =>
      have hrefuse : i < p.buf.count → (refuse cfg σ t k p i changed).work cfg t <
          σ.work cfg t := by
        refine fun hi => Sys.work_msg hok hk rfl rfl rfl (sum_set_lt hk ?_)
        cases old <;> (simp only [Packet.todo, hm]; omega)
      split at hs
      · next hi =>
        cases old with
        | none =>
          simp only [stepRequest, Option.some.injEq] at hs
          split at hs
          · exact hs ▸ hrefuse hi
          · rw [← hs]
            refine Sys.work_msg hok hk hsame rfl rfl (sum_set_lt hk ?_)
            simp only [Packet.todo, hm]
            omega
        | some old =>
          simp only [stepRequest, Option.some.injEq] at hs
          split at hs
          · rw [← hs]
            refine Sys.work_msg hok hk rfl rfl rfl (sum_set_lt hk ?_)
            simp only [Packet.todo, hm]
            omega
          · exact hs ▸ hrefuse hi
      · rw [← Option.some.inj hs]
        refine Sys.work_msg hok hk hsame rfl rfl (sum_set_lt hk ?_)
        cases old <;> simp [Packet.todo, hm]

theorem stepDeliver_work {k : ℕ} (hs : stepDeliver cfg σ t k = some σ') (hok : σ.Ok cfg) :
    σ'.work cfg t < σ.work cfg t := by
  rw [stepDeliver] at hs
  split at hs
  · cases hs
  · next p hk =>
    split at hs
    · cases hs
    · next tx changed hm =>
      have hlt := sum_eraseIdx_lt hk (show 0 < p.todo by simp [Packet.todo, hm])
      dsimp only at hs
      rw [(hok.local_ok t).desc hok.descs (List.mem_of_getElem? hk) hm, Option.some.injEq] at hs
      rw [← hs]
      exact Sys.work_msg hok hk rfl rfl rfl hlt

/-! ## Every step of its own -/

/-- Every step of its own leaves less to do. -/
theorem Sys.Works.lowers (h : σ.Works cfg t σ') (hok : σ.Ok cfg) :
    σ'.work cfg t < σ.work cfg t := by
  obtain ⟨a, ha, hs, he⟩ := h
  cases a with
  | run t' c =>
    obtain rfl : t' = t := ha
    have hrun := step_run hs
    cases hcom : (σ.th t').pc.committing with
    | true => exact stepRun_work_commit hrun he hcom
    | false =>
      refine stepRun_work_call hrun he (Pc.calling_iff.2 ⟨hcom, fun hpc => ?_⟩)
      rw [stepRun, hpc] at hrun
      cases hrun
  | handle t' k =>
    obtain rfl : t' = t := ha
    exact stepHandle_work hs hok
  | deliver t' k =>
    obtain rfl : t' = t := ha
    exact stepDeliver_work hs hok
  | new | begin | call | commit | rollback | delete | addVersion => exact ha.elim

/-! ## A step is possible -/

/-- The code of a call or of `commit` can take a step, unless it waits for a message. -/
theorem exists_stepRun (hthis : (σ.th t).this ≠ none) (hi : (σ.th t).pc ≠ .idle)
    (ha : (σ.th t).pc ≠ .active) : (∃ o done batch rest requests,
      (σ.th t).pc = .waitLocks o done batch rest requests ∧ (σ.th t).tx.rlNodes < requests) ∨
    ∃ c σ', stepRun cfg σ t c = some σ' ∧ emptyPiece σ (.run t c) = false := by
  cases hpc : (σ.th t).pc with
  | idle => exact absurd hpc hi
  | active => exact absurd hpc ha
  | readCell op pc =>
    right
    cases pc with
    | version => exact ⟨⟨0, 0, ⟨[], [], []⟩, 0⟩, _, by rw [stepRun, hpc], by rw [emptyPiece, hpc]⟩
    | data version left buf =>
      refine ⟨⟨left.headD 0, 1, ⟨[], [], []⟩, 0⟩, _, by rw [stepRun, hpc], ?_⟩
      cases left <;> simp [emptyPiece, hpc, pieceOf]
  | validateStart op ts buf =>
    right
    obtain ⟨o, ho⟩ := (σ.th t).tx.exists_orders
    have hsome : (stepRun cfg σ t ⟨0, 0, o, 0⟩).isSome := by
      simp only [stepRun, hpc, stepValidateStart, ho, if_true]
      split
      · rfl
      · split <;> rfl
    obtain ⟨σ', hs⟩ := Option.isSome_iff_exists.1 hsome
    exact ⟨_, σ', hs, by rw [emptyPiece, hpc]⟩
  | getLocks o done rest =>
    right
    obtain ⟨this, hthis⟩ := Option.ne_none_iff_exists'.1 hthis
    have hsome : (stepRun cfg σ t ⟨0, 0, ⟨[], [], []⟩, 0⟩).isSome := by
      rw [stepRun, hpc]
      cases rest with
      | nil => rfl
      | cons b rest => simp only [stepGetLocks, hthis, Option.map_some, Option.isSome_some]
    obtain ⟨σ', hs⟩ := Option.isSome_iff_exists.1 hsome
    exact ⟨_, σ', hs, by rw [emptyPiece, hpc]⟩
  | requestLocks o done batch rest unsent requests =>
    right
    have hsome : (stepRun cfg σ t ⟨0, 0, ⟨[], [], []⟩, 0⟩).isSome := by
      rw [stepRun, hpc]
      cases unsent <;> rfl
    obtain ⟨σ', hs⟩ := Option.isSome_iff_exists.1 hsome
    exact ⟨_, σ', hs, by rw [emptyPiece, hpc]⟩
  | waitLocks o done batch rest requests =>
    rcases Nat.lt_or_ge (σ.th t).tx.rlNodes requests with hlt | hle
    · exact .inl ⟨o, done, batch, rest, requests, rfl, hlt⟩
    · right
      have hsome : (stepRun cfg σ t ⟨0, 0, ⟨[], [], []⟩, 0⟩).isSome := by
        simp only [stepRun, hpc, stepWaitLocks, if_neg (Nat.not_lt.2 hle)]
        split <;> rfl
      obtain ⟨σ', hs⟩ := Option.isSome_iff_exists.1 hsome
      exact ⟨_, σ', hs, by rw [emptyPiece, hpc]⟩
  | commitWriteSetValues o puts left =>
    right
    refine ⟨⟨left.headD 0, 1, ⟨[], [], []⟩, 0⟩, _, by rw [stepRun, hpc], ?_⟩
    cases puts <;> cases left <;> simp [emptyPiece, hpc, pieceOf]
  | increaseClock | validate | releaseLocks | validateAll | getNextClock
  | releaseLocksWithNewClock =>
    exact .inr ⟨⟨0, 0, ⟨[], [], []⟩, 0⟩, _, by rw [stepRun, hpc], by rw [emptyPiece, hpc]⟩

/-- A message under way can take a step. -/
theorem exists_msgStep {p : Packet} {net : List Packet} (hnet : σ.net t = p :: net) :
    ∃ σ', σ.Works cfg t σ' := by
  have hk : (σ.net t)[0]? = some p := by rw [hnet]; rfl
  cases hm : p.msg with
  | request i old changed =>
    have hsome : (stepHandle cfg σ t 0).isSome := by
      simp only [stepHandle, hk, hm]
      split <;> rfl
    obtain ⟨σ', hs⟩ := Option.isSome_iff_exists.1 hsome
    exact ⟨σ', .handle t 0, rfl, hs, rfl⟩
  | reply tx changed =>
    have hsome : (stepDeliver cfg σ t 0).isSome := by
      simp only [stepDeliver, hk, hm]
      split <;> rfl
    obtain ⟨σ', hs⟩ := Option.isSome_iff_exists.1 hsome
    exact ⟨σ', .deliver t 0, rfl, hs, rfl⟩

/-- Inside a call or `commit` a step of its own is possible, and outside none. -/
theorem Sys.busy_iff (hok : σ.Ok cfg) (hthis : (σ.th t).pc ≠ .idle → (σ.th t).this ≠ none)
    (hc : (σ.th t).toCache = none) : σ.Busy t ↔ ∃ σ', σ.Works cfg t σ' := by
  constructor
  · rintro ⟨hi, ha⟩
    have hrun := exists_stepRun (hthis hi) hi ha
    rcases hrun with ⟨o, done, batch, rest, requests, hpc, hlt⟩ | ⟨c, σ', hs, he⟩
    · have hl := (hok.local_ok t).pc
      simp only [PcOk, hpc] at hl
      obtain ⟨-, -, this, -, hb⟩ := hl
      have hnum := hb.number
      rw [List.length_nil] at hnum
      obtain ⟨p, net, hnet⟩ := List.exists_cons_of_length_pos (l := σ.net t) (by omega)
      exact exists_msgStep hnet
    · exact ⟨σ', .run t c, rfl, by simp [step, hc, hs], he⟩
  · rintro ⟨σ', a, ha, hs, -⟩
    by_contra hb
    have hpc : (σ.th t).pc = .idle ∨ (σ.th t).pc = .active := by
      rw [Sys.Busy] at hb
      tauto
    have hnet : σ.net t = [] := by
      have hl := (hok.local_ok t).pc
      rcases hpc with hpc | hpc <;> (simp only [PcOk, hpc] at hl; exact hl.net)
    cases a with
    | run t' c =>
      obtain rfl : t' = t := ha
      have hs := step_run hs
      rcases hpc with hpc | hpc <;> (rw [stepRun, hpc] at hs; cases hs)
    | handle t' k =>
      obtain rfl : t' = t := ha
      simp [step, stepHandle, hnet] at hs
    | deliver t' k =>
      obtain rfl : t' = t := ha
      simp [step, stepDeliver, hnet] at hs
    | new | begin | call | commit | rollback | delete | addVersion => exact ha

/-! ## Every run -/

/-- A thread inside a transaction has a descriptor. -/
theorem reach_this {objs : Flat} (h : cfg.Reach objs σ) :
    ∀ t, (σ.th t).pc ≠ .idle → (σ.th t).this ≠ none := by
  refine h.induct (I := fun σ => ∀ t, (σ.th t).pc ≠ .idle → (σ.th t).this ≠ none)
    (fun σ₀ h0 t hne => ?_) fun σ a σ' hr ih hs _ t => ?_
  · rw [show σ₀ = _ from h0] at hne
    exact absurd rfl hne
  · have hok := (reach_good hr).ok
    have hrule := step_rule hs
    rcases eq_or_ne t a.tid with rfl | hne
    · exact hrule.this hok (ih _)
    · rw [(hrule.sameBut (delivers hok.local_ok hok.descs)).th t hne]
      exact ih t

/-- Without the version cache there is nothing to add to it. -/
theorem Rule.toCache_none (hr : Rule cfg σ a σ') (hok : σ.Ok cfg)
    (hcache : cfg.build.cache = false) (h : ∀ t, (σ.th t).toCache = none) (t : Tid) :
    (σ'.th t).toCache = none := by
  have hnone : ∀ b ts, cfg.build.toCache b ts = none := fun b ts => by
    rw [Build.toCache, hcache]
    rfl
  have lift : ∀ {th : Thread cfg.segs}, σ'.th = Function.update σ.th a.tid th →
      th.toCache = none → (σ'.th t).toCache = none := by
    intro th he hth
    rw [he]
    rcases eq_or_ne t a.tid with rfl | hne
    · rwa [Function.update_self]
    · rw [Function.update_of_ne hne]
      exact h t
  cases hr with
  | goto ha =>
    subst ha
    exact lift rfl (h _)
  | abort _ _ ha hv =>
    subst ha
    refine lift rfl ?_
    cases hv with
    | none => rfl
    | stale => exact hnone _ _
  | invalid _ _ hv =>
    refine lift rfl ?_
    cases hv with
    | none => rfl
    | stale => exact hnone _ _
  | fetched | release => exact lift rfl (hnone _ _)
  | addVersion | released => exact lift rfl rfl
  | load | reply | lost => exact h t
  | deliver hk hm hdesc =>
    obtain rfl := delivers hok.local_ok hok.descs _ _ _ _ _ _ hk hm hdesc
    exact lift rfl (h _)
  | _ => exact lift rfl (h _)

theorem reach_toCache_none {objs : Flat} (hcache : cfg.build.cache = false)
    (h : cfg.Reach objs σ) : ∀ t, (σ.th t).toCache = none := by
  refine h.induct (I := fun σ => ∀ t, (σ.th t).toCache = none) (fun σ₀ h0 t => ?_)
    fun σ a σ' hr ih hs _ => (step_rule hs).toCache_none (reach_good hr).ok hcache ih
  rw [show σ₀ = _ from h0]
  rfl

/-- **Calls and commits wait for nobody**: without the version cache, in every state that the
system can reach, a thread inside a call or inside `commit` can take a step of its own, and it has
only finitely many to take, so that steps of its own bring the call or the `commit` to its end. -/
theorem reach_obstructionFree {objs : Flat} (hcache : cfg.build.cache = false)
    (h : cfg.Reach objs σ) (t : Tid) :
    (σ.Busy t ↔ ∃ σ', σ.Works cfg t σ') ∧ Acc (fun τ' τ => τ.Works cfg t τ') σ ∧
      ∃ σ', Relation.ReflTransGen (Sys.Works cfg t) σ σ' ∧ ¬σ'.Busy t := by
  have hkeep : ∀ τ τ', cfg.Reach objs τ → τ.Works cfg t τ' → cfg.Reach objs τ' := by
    rintro τ τ' hr ⟨a, -, hs, -⟩
    exact hr.step hs trivial
  have hacc : Acc (fun τ' τ => τ.Works cfg t τ') σ :=
    acc_of_measure (P := cfg.Reach objs) (Sys.work cfg t) hkeep
      (fun τ τ' hr hw => hw.lowers (reach_good hr).ok) h
  refine ⟨Sys.busy_iff (reach_good h).ok (reach_this h t) (reach_toCache_none hcache h t), hacc, ?_⟩
  obtain ⟨σ', hrun, hend⟩ := exists_final hacc
  have hr : cfg.Reach objs σ' := by
    clear hend
    induction hrun with
    | refl => exact h
    | tail _ hw ih => exact hkeep _ _ ih hw
  refine ⟨σ', hrun, fun hb => ?_⟩
  obtain ⟨σ'', hw⟩ :=
    (Sys.busy_iff (reach_good hr).ok (reach_this hr t) (reach_toCache_none hcache hr t)).1 hb
  exact hend σ'' hw

end

/-- The thread waits for the replies to its requests. -/
def Pc.waiting {g : Segments} : Pc g → Bool
  | .waitLocks _ _ _ _ _ => true
  | _ => false

/-- Node `t` writes `cellX`, commits and sends its lock request. -/
def requestX (build : Build) (t : Tid) : List (Act (small build).segs) :=
  List.flatten [[.new t 16, .begin t, .call t (.write cellX (smallValue 1))], runs build t 5,
    [.commit t ⟨[], [cellX.block], []⟩], runs build t 3]

/-- Node 1 waits for the lock of `cellX`, which node 2 has been granted. -/
theorem obstructionFree_two : ∃ σ, (small ⟨.variant1, false⟩).Reach (fun _ _ => 0) σ ∧
    (σ.th 1).pc.waiting = true ∧ heldBy σ 2 = [cellX.block] ∧
    (σ.Busy 1 ↔ ∃ σ', σ.Works (small ⟨.variant1, false⟩) 1 σ') ∧
    Acc (fun τ' τ => τ.Works (small ⟨.variant1, false⟩) 1 τ') σ ∧
    ∃ σ', Relation.ReflTransGen (Sys.Works (small ⟨.variant1, false⟩) 1) σ σ' ∧ ¬σ'.Busy 1 := by
  have hrun : (Small ⟨.variant1, false⟩
      (List.flatten [requestX _ 1, requestX _ 2, [.handle 2 0, .handle 2 0]])).map
      (fun σ => ((σ.th 1).pc.waiting, heldBy σ 2)) = some (true, [cellX.block]) := by
    decide +kernel
  obtain ⟨σ, h, ho⟩ := Lts.Reach.of_run rfl hrun
  obtain ⟨hwait, hheld⟩ := Prod.mk.inj ho
  exact ⟨σ, h, hwait, hheld, reach_obstructionFree rfl h 1⟩

end DstmP1
