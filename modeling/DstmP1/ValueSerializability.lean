import DstmP1.ValueSimulation

/-!
# Transactions that keep values are strictly serializable

In every run of a `VARIANT2` system without stale grants in which no clock reaches `2^48`, no two
nodes have one node field and all calls fit what their transactions have written, the committed
transactions have a serial order (`reach_serializable_values`), as in `VARIANT1`. A call that does
not fit finds bytes in `write_set_values` that it has never written (`serializable_values_fails`).
-/

namespace DstmP1

open Optimistic (State Step Inv)
open Relation (ReflGen)

section
variable {cfg : Config} {σ σ' : Sys cfg.segs} {a : Act cfg.segs} {s : Protocol cfg.segs}
  {objs : Flat} {u : Tid × ℕ}

/-! ## The serial run -/

/-- The final transactions of the log are those of the protocol, in the same order. -/
theorem Sys.Follows.finals_eq (h : σ.Follows s) (hl : σ.LogOk) (hn : s.log.Nodup) :
    s.log.filter (fun u => s.final u) = σ.finals := by
  have hf : (fun u => s.final u) = fun u => (σ.att u).validated :=
    funext fun u => (h.att u).final
  rw [hf, Sys.finals]
  have hsub := h.log.filter fun u => (σ.att u).validated
  refine (hsub.eq_of_length (List.Perm.length_eq ?_)).symm
  refine (List.perm_ext_iff_of_nodup (hl.nodup.filter _) (hn.filter _)).2 fun u => ?_
  rw [List.mem_filter, List.mem_filter]
  refine ⟨fun hu => ⟨h.log.subset hu.1, hu.2⟩, fun hu => ⟨hl.mem_of_validated hu.2, hu.2⟩⟩

/-- The final transactions run one after the other, and the cells are then those of the protocol. -/
theorem Sys.Follows.replay (h : σ.Follows s)
    (hinv : Inv ver (fun b : {b : Word // cfg.segs.IsCell b} => objs.cell b.1) s)
    (hl : σ.LogOk) (l : List (Tid × ℕ)) :
    ∀ l', σ.finals = l ++ l' → ∃ m, replay objs (σ.opsOf l) = some m ∧
      (∀ b : {b : Word // cfg.segs.IsCell b},
        m.cell b.1 = s.mem (fun b => objs.cell b.1) l b) ∧
      Flat.SameOutside cfg.segs m objs := by
  induction l using List.reverseRecOn with
  | nil => exact fun _ _ => ⟨objs, rfl, fun _ => rfl, fun _ _ _ => rfl⟩
  | append_singleton l u ih =>
    intro l' hfin
    rw [List.append_assoc, List.singleton_append] at hfin
    obtain ⟨m, hm, hcells, hout⟩ := ih (u :: l') hfin
    have hu : u ∈ σ.finals := by
      rw [hfin]
      simp
    obtain ⟨hlog, hval⟩ := List.mem_filter.1 hu
    have hrec := h.att u
    -- What the transaction has read is what those before it have written.
    have hhas : m.Has (s.reads u) := fun b x v hr =>
      (hcells b).trans (hinv.serial_finals ((h.finals_eq hl hinv.nodup).trans hfin) hr)
    obtain ⟨m', hm', hw, hout'⟩ := hrec.runs hlog m hhas
    refine ⟨m', ?_, fun b => ?_, fun n p hc => (hout' n p hc).trans (hout n p hc)⟩
    · rw [Sys.opsOf, List.flatMap_append, replay_append]
      rw [Sys.opsOf] at hm
      rw [hm, Option.bind_some, List.flatMap_singleton]
      exact hm'
    · rw [hw b, hcells, State.mem_concat, State.written_of_final (hrec.final.trans hval)]

/-! ## Every run -/

/-- What holds of all runs without stale grants whose calls fit. -/
structure Sys.ValuesOk (cfg : Config) (objs : Flat) (σ : Sys cfg.segs) : Prop where
  reads : σ.ReadsOk cfg
  time : σ.TimeOk
  frame : σ.FrameOk objs
  sim : ∃ s, σ.Follows s ∧ Inv ver (fun b : {b : Word // cfg.segs.IsCell b} => objs.cell b.1) s

theorem Sys.ValuesOk.init (objs : Flat) : (Sys.init cfg.segs objs).ValuesOk cfg objs where
  reads := .init objs
  time := .init objs
  frame _ _ _ := rfl
  sim := ⟨.start objs, .init objs, Protocol.start_inv objs⟩

theorem Sys.ValuesOk.step (h : σ.ValuesOk cfg objs) (hv : cfg.build.variant = .variant2)
    (hn : ∀ t, cfg.node t < 2 ^ 15) (ha : step cfg σ a = some σ') (hs : NoStaleGrant cfg σ a σ')
    (hb : ClockBelow cfg (2 ^ 48) σ a σ') (hfit : FittingCall cfg σ a σ') :
    σ'.ValuesOk cfg objs where
  reads := h.reads.step hv hn (step_rule ha) hs hb
  time := h.time.step h.reads.log h.reads.good (step_rule ha)
  frame := h.frame.step h.reads.good (step_rule ha)
  sim := by
    obtain ⟨s, hsim, hinv⟩ := h.sim
    obtain ⟨s', hstep, hsim'⟩ := step_follows ha hv hs hfit h.reads hinv hsim
    cases hstep with
    | refl => exact ⟨s, hsim', hinv⟩
    | single hstep => exact ⟨s', hsim', hinv.step hstep⟩

/-- While nobody is inside `commit`, memory is what the final transactions have made of it. -/
theorem Sys.ValuesOk.objs_eq (h : σ.ValuesOk cfg objs) (hsim : σ.Follows s)
    (hinv : Inv ver (fun b : {b : Word // cfg.segs.IsCell b} => objs.cell b.1) s)
    (hidle : ∀ t, (σ.th t).pc.committing = false) {m : Flat}
    (hcells : ∀ b : {b : Word // cfg.segs.IsCell b},
      m.cell b.1 = s.mem (fun b => objs.cell b.1) σ.finals b)
    (hout : Flat.SameOutside cfg.segs m objs) : σ.objs = m := by
  have hg := h.reads.good
  have hfree : ∀ w b, ¬ s.holds w b := by
    intro w b hw
    have hh : σ.Holds w b.1 := ((hsim.att w).held b).1 hw
    have hin := (hh.inside hg.ok hg.att).2.1
    rw [hidle] at hin
    cases hin
  have hcell : ∀ b, cfg.segs.IsCell b → σ.objs.cell b = m.cell b := by
    intro b hb
    rw [← hsim.data ⟨b, hb⟩, hinv.data_eq (State.not_dirty fun w => hfree w _), hcells ⟨b, hb⟩,
      ← hsim.finals_eq h.reads.log hinv.nodup, State.mem_finals]
  funext n p
  rcases Classical.em (∃ b, cfg.segs.IsCell b ∧
    ∃ i : Fin cellSize, (n, p) = Segments.cellLoc b i) with ⟨b, hb, i, hi⟩ | hno
  · have hi' := congrFun (hcell b hb) i
    rw [Flat.cell_apply, Flat.cell_apply, ← hi] at hi'
    exact hi'
  · have hno' : ∀ b, cfg.segs.IsCell b → ∀ i : Fin cellSize, (n, p) ≠ Segments.cellLoc b i :=
      fun b hb i hi => hno ⟨b, hb, i, hi⟩
    rw [h.frame n p hno', hout n p hno']

/-- **Strict serializability of `VARIANT2`**: in every state of every run in which no clock reaches
`2^48`, no lock is granted whose word is not the version recorded and every call fits what its
transaction has written, the committed transactions have a serial order that respects the order in
time, gives their calls the values they have returned and, while nobody is inside `commit`, ends
with the object memory as it is. -/
theorem reach_serializable_values (hv : cfg.build.variant = .variant2)
    (hn : cfg.segs.nodes ≤ 2 ^ 15)
    (h : (cfg.lts objs).Reach (fun σ a σ' => NoStaleGrant cfg σ a σ' ∧
      ClockBelow cfg (2 ^ 48) σ a σ' ∧ FittingCall cfg σ a σ') σ) :
    ∃ l, σ.SerialOrder objs l := by
  have hnodes : ∀ t, cfg.node t < 2 ^ 15 := fun t => (cfg.node_lt t).trans_le hn
  have hok : σ.ValuesOk cfg objs := h.induct (fun _ h0 => h0 ▸ .init objs)
    fun _ _ _ _ ih hs hc => ih.step hv hnodes hs hc.1 hc.2.1 hc.2.2
  have hlog := hok.reads.log
  obtain ⟨s, hsim, hinv⟩ := hok.sim
  obtain ⟨m, hm, hcells, hout⟩ := hsim.replay hinv hlog σ.finals [] (by simp)
  refine ⟨σ.finals, hlog.nodup.filter _, fun u hu => ?_, fun u hu => ?_, ?_, m, hm, fun hidle =>
    hok.objs_eq hsim hinv hidle hcells hout⟩
  · have hval := hlog.validated hu
    exact List.mem_filter.2 ⟨hlog.mem_of_validated hval, hval⟩
  · obtain ⟨hin, hval⟩ := List.mem_filter.1 hu
    exact hlog.only hin hval
  · exact hok.time.order.sublist List.filter_sublist

/-- When all transactions of the log have returned, a serial order is one of the log. -/
theorem Sys.SerialOrder.perm {l : List (Tid × ℕ)} (h : σ.SerialOrder objs l) (hl : σ.LogOk)
    (hall : ∀ u ∈ σ.log, (σ.att u).returned ≠ none) : l.Perm σ.log := by
  refine (List.perm_ext_iff_of_nodup h.nodup hl.nodup).2 fun u => ⟨fun hu => ?_, fun hu => ?_⟩
  · rcases h.only u hu with hr | ⟨hcur, hw⟩
    · exact hl.mem_of_validated (hl.validated hr)
    · rw [hcur]
      exact hl.mem_of_writing hw
  · exact h.committed u (hall u hu)

end

/-! ## Concrete runs -/

/-- The commit of `t`, which has read the cells `rs` and written values at the address of `cellX`
only. -/
def commitValuesX (build : Build) (t : Tid) (rs : List Word) : List (Act (small build).segs) :=
  List.flatten [[.commit t ⟨rs, [cellX.block], [cellX.addr]⟩], runs build t 3,
    [.handle t 0, .handle t 0, .handle t 0, .deliver t 0], runs build t 10]

/-- A transaction reads eight bytes where it has written four: what it has never written is zero in
`write_set_values` and one in memory. -/
theorem serializable_values_fails : ∃ σ, ((small ⟨.variant2, false⟩).lts fun _ _ => 1).Reach
      (fun σ a σ' => NoStaleGrant (small ⟨.variant2, false⟩) σ a σ' ∧
        ClockBelow (small ⟨.variant2, false⟩) (2 ^ 48) σ a σ') σ ∧
    ¬ ∃ l, σ.SerialOrder (fun _ _ => 1) l := by
  have hrun : (((small ⟨.variant2, false⟩).lts fun _ _ => 1).runIf (fun σ a σ' =>
      NoStaleGrant (small ⟨.variant2, false⟩) σ a σ' ∧
        ClockBelow (small ⟨.variant2, false⟩) (2 ^ 48) σ a σ') (Sys.init _ fun _ _ => 1)
      (List.flatten [[.new 1 16, .begin 1, .call 1 (.write lowX ⟨[0, 0, 0, 0], rfl⟩)],
        runs _ 1 5, [.call 1 (.read cellX)], commitValuesX _ 1 []])).map
      (fun σ => (σ.log, (σ.att (1, 1)).returned.isSome,
        (replay (fun _ _ => 1) (σ.opsOf [(1, 1)])).isSome)) = some ([(1, 1)], true, false) := by
    decide +kernel
  obtain ⟨σ, h, ho⟩ := Lts.Reach.of_runIf rfl hrun
  obtain ⟨hlog, hret, hno⟩ : _ ∧ _ ∧ _ := by simpa only [Prod.mk.injEq] using ho
  refine ⟨σ, h, fun ⟨l, hl⟩ => ?_⟩
  have hperm := hl.perm (reach_logOk h) fun u hu => by
    rw [hlog, List.mem_singleton] at hu
    rw [hu]
    exact Option.isSome_iff_ne_none.1 hret
  rw [hlog, List.perm_singleton] at hperm
  obtain ⟨m, hm, -⟩ := hl.runs
  rw [hperm] at hm
  rw [hm] at hno
  cases hno

/-- Node 2 reads what node 1 has committed, reads it again and overwrites it. -/
theorem serializable_values_two : ∃ σ l, (small ⟨.variant2, false⟩).Reach (fun _ _ => 0) σ ∧
    σ.SerialOrder (fun _ _ => 0) l ∧ (1, 1) ∈ l ∧ (2, 1) ∈ l := by
  have hrun : (((small ⟨.variant2, false⟩).lts fun _ _ => 0).runIf (fun σ a σ' =>
      NoStaleGrant (small ⟨.variant2, false⟩) σ a σ' ∧
        ClockBelow (small ⟨.variant2, false⟩) (2 ^ 48) σ a σ' ∧
        FittingCall (small ⟨.variant2, false⟩) σ a σ') (Sys.init _ fun _ _ => 0)
      (List.flatten [[.new 1 16, .begin 1, .call 1 (.write cellX (smallValue 1))], runs _ 1 5,
        commitValuesX _ 1 [], [.new 2 16, .begin 2, .call 2 (.read cellX)], runs _ 2 7,
        [.call 2 (.read cellX)], runs _ 2 5, [.call 2 (.write cellX (smallValue 3))],
        commitValuesX _ 2 [cellX.block]])).map
      (fun σ => ((σ.att (1, 1)).returned.isSome, (σ.att (2, 1)).returned.isSome)) =
      some (true, true) := by
    decide +kernel
  obtain ⟨σ, h, ho⟩ := Lts.Reach.of_runIf rfl hrun
  obtain ⟨h1, h2⟩ := Prod.mk.inj ho
  obtain ⟨l, hl⟩ := reach_serializable_values rfl (by decide) h
  exact ⟨σ, l, h.mono fun _ _ _ _ => trivial, hl,
    hl.committed _ (Option.isSome_iff_ne_none.1 h1),
    hl.committed _ (Option.isSome_iff_ne_none.1 h2)⟩

end DstmP1
