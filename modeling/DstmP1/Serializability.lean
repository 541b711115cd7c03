import DstmP1.Simulation

/-!
# Strict serializability

The transactions that have committed are, in the order in which they got their last locks, a serial
execution on flat memory with the values that their calls have returned, and this order respects
the order in time (`reach_serializable`). A transaction that has passed validation counts as
committed before `commit` has returned: it cannot fail any more, and others may have read what it
has written. All of this holds of runs in which no lock is granted whose word is not the version
recorded. With such a grant two transactions can both overwrite the same value
(`serializable_fails`).
-/

namespace DstmP1

open Segments (Loc)
open Optimistic (State Step Inv)
open Relation (ReflGen)

section
variable {g : Segments}

/-- The calls of the transactions `l`, one transaction after the other. -/
def Sys.opsOf (σ : Sys g) (l : List (Tid × ℕ)) : List (Op g × List Byte) :=
  l.flatMap fun u => (σ.att u).ops

/-- `l` are the transactions that have committed, and those that have passed validation in
`commit`, in an order that respects the order in time; running them one after the other, from the
memory `objs` on, returns what their calls have returned and, while nobody is inside `commit`, ends
with the memory as it is. -/
structure Sys.SerialOrder (σ : Sys g) (objs : Flat) (l : List (Tid × ℕ)) : Prop where
  nodup : l.Nodup
  committed : ∀ u, (σ.att u).returned ≠ none → u ∈ l
  only : ∀ u ∈ l, (σ.att u).returned ≠ none ∨ u = σ.cur u.1 ∧ (σ.th u.1).pc.writing = true
  order : l.Pairwise fun u v => ∀ r, (σ.att v).returned = some r → (σ.att u).began < r
  runs : ∃ m, replay objs (σ.opsOf l) = some m ∧
    ((∀ t, (σ.th t).pc.committing = false) → σ.objs = m)

end

section
variable {cfg : Config} {σ σ' : Sys cfg.segs} {a : Act cfg.segs} {s : Protocol cfg.segs}
  {objs : Flat} {u : Tid × ℕ}

/-! ## The log and the records -/

theorem Pc.phase_eq_writing {g : Segments} {pc : Pc g} :
    pc.phase = .writing ↔ pc.writing = true := by
  cases pc <;> simp [Pc.phase, Pc.writing]

/-- A transaction past validation is in the log. -/
theorem Sys.LogOk.mem_of_writing (h : σ.LogOk) {t : Tid} (hw : (σ.th t).pc.writing = true) :
    σ.cur t ∈ σ.log := by
  have hc := h.cur t
  rw [Pc.phase_eq_writing.2 hw] at hc
  exact hc.1

/-- Where a transaction stands that is in the log and final. -/
theorem Sys.LogOk.only (h : σ.LogOk) (hu : u ∈ σ.log) (hv : (σ.att u).validated = true) :
    (σ.att u).returned ≠ none ∨ u = σ.cur u.1 ∧ (σ.th u.1).pc.writing = true := by
  rcases eq_or_ne u (σ.cur u.1) with hcur | hne
  · have hc := h.cur u.1
    rw [Sys.me, ← hcur] at hc
    cases hp : (σ.th u.1).pc.phase with
    | outside =>
      rw [hp] at hc
      exact .inl (hc.2.1 hv)
    | before =>
      rw [hp] at hc
      exact absurd hu hc.1
    | validating =>
      rw [hp] at hc
      have hf := hc.2.1
      rw [hv] at hf
      cases hf
    | writing => exact .inr ⟨hcur, Pc.phase_eq_writing.1 hp⟩
  · exact .inl ((h.other u hne).2.1 hv)

/-- A final transaction is in the log. -/
theorem Sys.LogOk.mem_of_validated (h : σ.LogOk) (hv : (σ.att u).validated = true) :
    u ∈ σ.log := by
  rcases eq_or_ne u (σ.cur u.1) with hcur | hne
  · have hc := h.cur u.1
    rw [Sys.me, ← hcur] at hc
    cases hp : (σ.th u.1).pc.phase with
    | outside =>
      rw [hp] at hc
      exact hc.1.2 hv
    | before | validating =>
      rw [hp] at hc
      have hf := hc.2.1
      rw [hv] at hf
      cases hf
    | writing =>
      rw [hp] at hc
      exact hc.1
  · exact (h.other u hne).1.2 hv

/-- A transaction that has returned is final. -/
theorem Sys.LogOk.validated (h : σ.LogOk) (hr : (σ.att u).returned ≠ none) :
    (σ.att u).validated = true := by
  rcases eq_or_ne u (σ.cur u.1) with hcur | hne
  · have hc := h.cur u.1
    rw [Sys.me, ← hcur] at hc
    cases hp : (σ.th u.1).pc.phase with
    | outside =>
      rw [hp] at hc
      exact hc.2.2 hr
    | before | validating | writing =>
      rw [hp] at hc
      exact absurd hc.2.2 hr
  · exact (h.other u hne).2.2 hr

/-- What a transaction has done stays fixed from the lock point on. -/
theorem Rule.serial (hr : Rule cfg σ a σ') (hi : σ.TxnsOk cfg)
    (h : ∀ u ∈ σ.log, (σ.att u).Serial) : ∀ u ∈ σ'.log, (σ'.att u).Serial := by
  intro u hu
  rcases Classical.em (u ∈ σ.log) with hold | hnew
  · exact (hr.sameRecord hi.good hi.log hold).serial (h u hold)
  · cases hr with
    | @lockPoint t c o done hpc =>
      rcases List.mem_append.1 hu with hu | hu
      · exact absurd hu hnew
      · have hrun := (hi.runs t).running (show (σ.th t).pc ≠ .idle by rw [hpc]; simp)
        rw [List.mem_singleton.1 hu]
        have hatt := Function.update_self (β := fun _ => Attempt cfg.segs) (σ.cur t)
          { σ.me t with writes := (σ.th t).tx.writeSet } σ.att
        exact (congrArg Attempt.Serial hatt).mpr (hrun.serial (hi.good.ok.local_ok t).tx)
    | invalid => exact absurd (List.mem_of_mem_erase hu) hnew
    | _ => exact absurd hu hnew

/-! ## The serial run -/

/-- The transactions of the log that have passed validation. -/
def Sys.finals {g : Segments} (σ : Sys g) : List (Tid × ℕ) :=
  σ.log.filter fun u => (σ.att u).validated

/-- They are the final transactions of the protocol, in the same order. -/
theorem Sys.Refines.finals_eq (h : σ.Refines s) (hl : σ.LogOk) (hn : s.log.Nodup) :
    s.log.filter (fun u => s.final u) = σ.finals := by
  have hf : (fun u => s.final u) = fun u => (σ.att u).validated :=
    funext fun u => (h.att u).final
  rw [hf, Sys.finals]
  have hsub := h.log.filter fun u => (σ.att u).validated
  refine (hsub.eq_of_length (List.Perm.length_eq ?_)).symm
  refine (List.perm_ext_iff_of_nodup (hl.nodup.filter _) (hn.filter _)).2 fun u => ?_
  rw [List.mem_filter, List.mem_filter]
  refine ⟨fun hu => ⟨h.log.subset hu.1, hu.2⟩, fun hu => ⟨hl.mem_of_validated hu.2, hu.2⟩⟩

/-- The memory outside the cells. -/
def Flat.SameOutside (g : Segments) (m m' : Flat) : Prop :=
  ∀ n p, (∀ b, g.IsCell b → ∀ i : Fin cellSize, (n, p) ≠ Segments.cellLoc b i) → m n p = m' n p

/-- A transaction runs on a memory that agrees with what it has read: it writes its copies. -/
theorem Attempt.Serial.run {g : Segments} {a : Attempt g} (h : a.Serial) {m : Flat}
    (ha : m.Agrees a.seen) : ∃ m', replay m a.ops = some m' ∧
      (∀ b, g.IsCell b → m'.cell b = ((a.writes.lookup b).map Entry.copy).getD (m.cell b)) ∧
      Flat.SameOutside g m' m := by
  obtain ⟨m', hm, hw, hframe⟩ := h.runs m ha
  have hcell : ∀ b ∈ a.writes, g.IsCell b := fun b hb => h.seen b (h.writes b hb)
  refine ⟨m', hm, fun b hb => ?_, fun n p hout => ?_⟩
  · cases he : a.writes.lookup b with
    | some e => exact hw b e he
    | none =>
      funext i
      by_contra hne
      rw [Option.map_none, Option.getD_none, Flat.cell_apply, Flat.cell_apply] at hne
      obtain ⟨b', hb', j, hj⟩ := hframe _ _ hne
      have heq := (Segments.cellLoc_inj hb (hcell b' hb') i.isLt j.isLt hj).1
      exact AList.lookup_eq_none.1 he (heq ▸ hb')
  · by_contra hne
    obtain ⟨b, hb, i, hi⟩ := hframe n p hne
    exact hout b (hcell b hb) i hi

/-- The final transactions run one after the other, and the cells are then those of the protocol. -/
theorem Sys.Refines.replay (h : σ.Refines s)
    (hinv : Inv ver (fun b : {b : Word // cfg.segs.IsCell b} => objs.cell b.1) s)
    (hl : σ.LogOk) (hser : ∀ u ∈ σ.log, (σ.att u).Serial) (l : List (Tid × ℕ)) :
    ∀ l', σ.finals = l ++ l' → ∃ m, replay objs (σ.opsOf l) = some m ∧
      (∀ b : {b : Word // cfg.segs.IsCell b},
        m.cell b.1 = s.mem (fun b => objs.cell b.1) l b) ∧
      Flat.SameOutside cfg.segs m objs := by
  induction l using List.reverseRecOn with
  | nil => exact fun _ _ => ⟨objs, rfl, fun _ => rfl, fun _ _ _ => rfl⟩
  | append_singleton l u ih =>
    intro l' hfin
    rw [List.append_assoc, List.singleton_append] at hfin
    obtain ⟨m, hm, hcells, hout⟩ := ih (u :: l') hfin
    have hu : u ∈ σ.finals := by
      rw [hfin]
      simp
    obtain ⟨hlog, hval⟩ := List.mem_filter.1 hu
    have hrec := h.att u
    have hsu := hser u hlog
    -- What the transaction has read is what those before it have written.
    have hagree : m.Agrees (σ.att u).seen := by
      intro b e he
      have hb : cfg.segs.IsCell b := hsu.seen b (mem_of_lookup he)
      have hr : s.reads u ⟨b, hb⟩ = some (e.ts, e.copy) := by
        rw [hrec.reads, he]
        rfl
      exact (hcells ⟨b, hb⟩).trans
        (hinv.serial_finals ((h.finals_eq hl hinv.nodup).trans hfin) hr)
    obtain ⟨m', hm', hw, hout'⟩ := hsu.run hagree
    refine ⟨m', ?_, fun b => ?_, fun n p hc => (hout' n p hc).trans (hout n p hc)⟩
    · rw [Sys.opsOf, List.flatMap_append, replay_append]
      rw [Sys.opsOf] at hm
      rw [hm, Option.bind_some, List.flatMap_singleton]
      exact hm'
    · rw [hw b.1 b.2, hcells, State.mem_concat, State.written_of_final (hrec.final.trans hval),
        hrec.writes hlog]

/-! ## Every run -/

/-- What holds of all runs without stale grants. -/
structure Sys.SerialOk (cfg : Config) (objs : Flat) (σ : Sys cfg.segs) : Prop where
  txns : σ.TxnsOk cfg
  time : σ.TimeOk
  frame : σ.FrameOk objs
  serial : ∀ u ∈ σ.log, (σ.att u).Serial
  sim : ∃ s, σ.Refines s ∧ Inv ver (fun b : {b : Word // cfg.segs.IsCell b} => objs.cell b.1) s

theorem Protocol.start_inv {g : Segments} (objs : Flat) :
    Inv ver (fun b : {b : Word // g.IsCell b} => objs.cell b.1) (Protocol.start objs) :=
  Inv.start (s := Protocol.start objs) rfl (fun _ => rfl) (fun _ _ => id) fun _ _ => rfl

theorem Sys.SerialOk.init (objs : Flat) : (Sys.init cfg.segs objs).SerialOk cfg objs where
  txns := .init objs
  time := .init objs
  frame _ _ _ := rfl
  serial _ hu := absurd hu List.not_mem_nil
  sim := ⟨.start objs, .init objs, Protocol.start_inv objs⟩

theorem Sys.SerialOk.step (h : σ.SerialOk cfg objs) (hv : cfg.build.variant = .variant1)
    (hr : Rule cfg σ a σ') (hs : NoStaleGrant cfg σ a σ') (hb : ClockBelow cfg (2 ^ 48) σ a σ') :
    σ'.SerialOk cfg objs where
  txns := h.txns.step hv hr hb
  time := h.time.step h.txns.log h.txns.good hr
  frame := h.frame.step h.txns.good hr
  serial := hr.serial h.txns h.serial
  sim := by
    obtain ⟨s, href, hinv⟩ := h.sim
    obtain ⟨s', hstep, href'⟩ := hr.simulates hv hs h.txns hinv href
    cases hstep with
    | refl => exact ⟨s, href', hinv⟩
    | single hstep => exact ⟨s', href', hinv.step hstep⟩

/-- While nobody is inside `commit`, memory is what the final transactions have made of it. -/
theorem Sys.SerialOk.objs_eq (h : σ.SerialOk cfg objs) (href : σ.Refines s)
    (hinv : Inv ver (fun b : {b : Word // cfg.segs.IsCell b} => objs.cell b.1) s)
    (hidle : ∀ t, (σ.th t).pc.committing = false) {m : Flat}
    (hcells : ∀ b : {b : Word // cfg.segs.IsCell b},
      m.cell b.1 = s.mem (fun b => objs.cell b.1) σ.finals b)
    (hout : Flat.SameOutside cfg.segs m objs) : σ.objs = m := by
  have hg := h.txns.good
  have hfree : ∀ w b, ¬ s.holds w b := by
    intro w b hw
    have hh : σ.Holds w b.1 := ((href.att w).held b).1 hw
    have hin := (hh.inside hg.ok hg.att).2.1
    rw [hidle] at hin
    cases hin
  have hcell : ∀ b, cfg.segs.IsCell b → σ.objs.cell b = m.cell b := by
    intro b hb
    rw [← href.data ⟨b, hb⟩, hinv.data_eq (State.not_dirty fun w => hfree w _), hcells ⟨b, hb⟩,
      ← href.finals_eq h.txns.log hinv.nodup, State.mem_finals]
  funext n p
  rcases Classical.em (∃ b, cfg.segs.IsCell b ∧
    ∃ i : Fin cellSize, (n, p) = Segments.cellLoc b i) with ⟨b, hb, i, hi⟩ | hno
  · have hi' := congrFun (hcell b hb) i
    rw [Flat.cell_apply, Flat.cell_apply, ← hi] at hi'
    exact hi'
  · have hno' : ∀ b, cfg.segs.IsCell b → ∀ i : Fin cellSize, (n, p) ≠ Segments.cellLoc b i :=
      fun b hb i hi => hno ⟨b, hb, i, hi⟩
    rw [h.frame n p hno', hout n p hno']

/-- The final transactions, in the order of the log, are a serial order. -/
theorem Sys.SerialOk.serialOrder (hok : σ.SerialOk cfg objs) : ∃ l, σ.SerialOrder objs l := by
  have hlog := hok.txns.log
  obtain ⟨s, href, hinv⟩ := hok.sim
  obtain ⟨m, hm, hcells, hout⟩ := href.replay hinv hlog hok.serial σ.finals [] (by simp)
  refine ⟨σ.finals, hlog.nodup.filter _, fun u hu => ?_, fun u hu => ?_, ?_, m, hm, fun hidle =>
    hok.objs_eq href hinv hidle hcells hout⟩
  · have hval := hlog.validated hu
    exact List.mem_filter.2 ⟨hlog.mem_of_validated hval, hval⟩
  · obtain ⟨hin, hval⟩ := List.mem_filter.1 hu
    exact hlog.only hin hval
  · exact hok.time.order.sublist List.filter_sublist

/-- **Strict serializability**: in every state of every run in which no clock reaches `2^48` and no
lock is granted whose word is not the version recorded, the committed transactions have a serial
order that respects the order in time, gives their calls the values they have returned and, while
nobody is inside `commit`, ends with the object memory as it is. -/
theorem reach_serializable (hv : cfg.build.variant = .variant1)
    (h : (cfg.lts objs).Reach (fun σ a σ' =>
      NoStaleGrant cfg σ a σ' ∧ ClockBelow cfg (2 ^ 48) σ a σ') σ) :
    ∃ l, σ.SerialOrder objs l := by
  have hok : σ.SerialOk cfg objs := h.induct (fun _ h0 => h0 ▸ .init objs)
    fun _ _ _ _ ih hs hc => ih.step hv (step_rule hs) hc.1 hc.2
  exact hok.serialOrder

end

/-! ## Concrete runs -/

/-- `n` steps of the code of `t` while its read set has the cell `cellX`. -/
def runsReading (build : Build) (t : Tid) (n : ℕ) : List (Act (small build).segs) :=
  List.replicate n (.run t ⟨0, 64, ⟨[cellX.block], [], []⟩, 0⟩)

/-- The commit of `t`, which has written `cellX` only. -/
def commitX (build : Build) (t : Tid) : List (Act (small build).segs) :=
  List.flatten [[.commit t ⟨[], [cellX.block], []⟩], runs build t 3,
    [.handle t 0, .handle t 0, .handle t 0, .deliver t 0], runs build t 10]

/-- Node 1 commits `cellX`. -/
def writeX (build : Build) : List (Act (small build).segs) :=
  List.flatten [[.new 1 16, .begin 1, .call 1 (.write cellX (smallValue 1))], runs build 1 5,
    commitX build 1]

/-- Node `t` reads `cellX`. -/
def readX (build : Build) (t : Tid) : List (Act (small build).segs) :=
  List.flatten [[.new t 16, .begin t, .call t (.read cellX)], runsReading build t 7]

/-- Node `t` writes `n` into the cell that it has read, and commits it. -/
def overwriteX (build : Build) (t : Tid) (n : Byte) : List (Act (small build).segs) :=
  .call t (.write cellX (smallValue n)) :: commitX build t

/-- What has been committed, and whether some serial order gives the values that were read. -/
def serialObs {g : Segments} (σ : Sys g) : List (Tid × ℕ) × Bool × Bool :=
  (σ.log, σ.log.all fun u => (σ.att u).returned.isSome,
    σ.log.permutations'.any fun l => (replay (fun _ _ => 0) (σ.opsOf l)).isSome)

/-- An update is lost: nodes 0 and 2 have both read the value of node 1. Node 0 overwrites it, and
the version it installs is the smaller word, so node 2 is granted the lock and overwrites it
again. -/
theorem serializable_fails : ∃ σ, ((small ⟨.variant1, false⟩).lts fun _ _ => 0).Reach
      (ClockBelow (small ⟨.variant1, false⟩) (2 ^ 48)) σ ∧
    ¬ ∃ l, σ.SerialOrder (fun _ _ => 0) l := by
  have hrun : (((small ⟨.variant1, false⟩).lts fun _ _ => 0).runIf
      (ClockBelow (small ⟨.variant1, false⟩) (2 ^ 48)) (Sys.init _ fun _ _ => 0)
      (List.flatten [writeX _, readX _ 2, readX _ 0, overwriteX _ 0 2, overwriteX _ 2 3])).map
      serialObs = some ([(1, 1), (0, 1), (2, 1)], true, false) := by
    decide +kernel
  obtain ⟨σ, h, ho⟩ := Lts.Reach.of_runIf rfl hrun
  have hlog := reach_logOk h
  obtain ⟨-, hall, hany⟩ : _ ∧ _ ∧ _ := by simpa only [serialObs, Prod.mk.injEq] using ho
  refine ⟨σ, h, fun ⟨l, hl⟩ => ?_⟩
  have hperm : l.Perm σ.log := by
    refine (List.perm_ext_iff_of_nodup hl.nodup hlog.nodup).2 fun u => ⟨fun hu => ?_, fun hu => ?_⟩
    · rcases hl.only u hu with hr | ⟨hcur, hw⟩
      · exact hlog.mem_of_validated (hlog.validated hr)
      · rw [hcur]
        exact hlog.mem_of_writing hw
    · exact hl.committed u (Option.isSome_iff_ne_none.1 (List.all_eq_true.1 hall u hu))
  obtain ⟨m, hm, -⟩ := hl.runs
  have hnone := List.any_eq_false.1 hany l (List.mem_permutations'.2 hperm)
  rw [hm] at hnone
  exact hnone rfl

/-- Node 2 reads and overwrites what node 1 has committed. -/
theorem serializable_two : ∃ σ l, (small ⟨.variant1, false⟩).Reach (fun _ _ => 0) σ ∧
    σ.SerialOrder (fun _ _ => 0) l ∧ (1, 1) ∈ l ∧ (2, 1) ∈ l := by
  have hrun : (((small ⟨.variant1, false⟩).lts fun _ _ => 0).runIf (fun σ a σ' =>
      NoStaleGrant (small ⟨.variant1, false⟩) σ a σ' ∧
        ClockBelow (small ⟨.variant1, false⟩) (2 ^ 48) σ a σ') (Sys.init _ fun _ _ => 0)
      (List.flatten [writeX _, readX _ 2, overwriteX _ 2 3])).map
      (fun σ => ((σ.att (1, 1)).returned.isSome, (σ.att (2, 1)).returned.isSome)) =
      some (true, true) := by
    decide +kernel
  obtain ⟨σ, h, ho⟩ := Lts.Reach.of_runIf rfl hrun
  obtain ⟨h1, h2⟩ := Prod.mk.inj ho
  obtain ⟨l, hl⟩ := reach_serializable rfl h
  exact ⟨σ, l, h.mono fun _ _ _ _ => trivial, hl,
    hl.committed _ (Option.isSome_iff_ne_none.1 h1),
    hl.committed _ (Option.isSome_iff_ne_none.1 h2)⟩

end DstmP1
