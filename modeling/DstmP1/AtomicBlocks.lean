import DstmP1.Runtime
import DstmP1.Sequential

/-!
# Atomic blocks are atomic

`Runtime.Serial` is what `__tm_atomic` promises: the blocks that are finished, with those whose
commit can no longer fail, have run one after the other, each from its beginning to its end, on
flat memory, in an order in which a block that was finished before another one was entered comes
first. What every block of a program keeps, when it runs alone, is therefore kept by all runs of
the program on the distributed system (`Runtime.reach_preserves`). Both hold of blocks that read no
local they assign before they have assigned it, and of runs in which no lock is granted whose word
is not the version recorded.
-/

namespace DstmP1

open Atomic
open Segments (Loc)

section
variable {cfg : Config} {A B R : Type*} {code : Blocks A B (Op cfg.segs) (List Byte) R}
  {ρ : Runtime cfg.segs A B R} {objs : Flat} {locks : Loc → Word} {clock : ℕ → Word}

/-- The thread is about to return from the commit of the last run of a block. -/
structure Runtime.Committed (ρ : Runtime cfg.segs A B R) (d : Finished A R) : Prop where
  cur : d.tx = ρ.sys.cur d.tx.1
  place : (ρ.strand d.tx.1).place = .committing d.block d.result
  entered : d.entered = (ρ.strand d.tx.1).entered
  final : (ρ.sys.th d.tx.1).pc.writing = true ∨ (ρ.sys.att d.tx).returned ≠ none

/-- The blocks `l` have run one after the other. -/
structure Runtime.Serial (code : Blocks A B (Op cfg.segs) (List Byte) R)
    (ρ : Runtime cfg.segs A B R) (objs : Flat) (l : List (Finished A R)) : Prop where
  nodup : (l.map Finished.tx).Nodup
  finished : ∀ d ∈ ρ.finished, d ∈ l
  committed : ∀ d, ρ.Committed d → d ∈ l
  only : ∀ d ∈ l, d ∈ ρ.finished ∨ ρ.Committed d
  /-- A block that comes later was not finished when this one was entered. -/
  order : l.Pairwise fun d e => e ∉ ρ.finished.take d.entered
  runs : ∃ m,
    Runs code.toProgram (flatMemory cfg.segs) objs (l.map fun d => (d.block, d.result)) m ∧
    ((∀ t, (ρ.sys.th t).pc.committing = false) → ρ.sys.objs = m)

/-- The condition on the steps of the library under which commits are serial. -/
def Serializable (cfg : Config) (σ : Sys cfg.segs) (a : Act cfg.segs) (σ' : Sys cfg.segs) : Prop :=
  NoStaleGrant cfg σ a σ' ∧ ClockBelow cfg (2 ^ 48) σ a σ'

instance (cfg : Config) (σ σ' : Sys cfg.segs) (a : Act cfg.segs) :
    Decidable (Serializable cfg σ a σ') :=
  inferInstanceAs (Decidable (_ ∧ _))

/-- Elements with a property can be chosen all along a list. -/
theorem exists_map_eq {α β : Type*} {f : α → β} {P : α → Prop} {l : List β}
    (h : ∀ b ∈ l, ∃ a, f a = b ∧ P a) : ∃ l' : List α, l'.map f = l ∧ ∀ a ∈ l', P a := by
  induction l with
  | nil => exact ⟨[], rfl, fun a ha => absurd ha List.not_mem_nil⟩
  | cons b l ih =>
    obtain ⟨a, rfl, ha⟩ := h b List.mem_cons_self
    obtain ⟨l', rfl, hl⟩ := ih fun b hb => h b (List.mem_cons_of_mem _ hb)
    refine ⟨a :: l', rfl, fun a' ha' => ?_⟩
    rcases List.mem_cons.1 ha' with rfl | ha'
    · exact ha
    · exact hl a' ha'

theorem Pc.stage_of_writing {g : Segments} {pc : Pc g} (h : pc.writing = true) :
    pc.stage = .committing := by
  cases pc <;> first | rfl | cases h

/-- A transaction that is final is a run of a block. -/
theorem Runtime.Ok.block (h : ρ.Ok code) (hg : ρ.sys.Good cfg) {u : Tid × ℕ}
    (hu : (ρ.sys.att u).returned ≠ none ∨
      u = ρ.sys.cur u.1 ∧ (ρ.sys.th u.1).pc.writing = true) :
    ∃ d : Finished A R, d.tx = u ∧ (d ∈ ρ.finished ∨ ρ.Committed d) ∧
      ∃ c, code.next c = .done d.result ∧
        Does code.next (code.start d.block) (ρ.sys.att d.tx).ops c := by
  by_cases hin : u ∈ ρ.finished.map Finished.tx
  · obtain ⟨d, hd, rfl⟩ := List.mem_map.1 hin
    exact ⟨d, rfl, .inl hd, (h.finished d hd).2⟩
  · have hcur : u = ρ.sys.cur u.1 := by
      rcases hu with hu | hu
      · exact ((h.covered u hu).resolve_left hin).1
      · exact hu.1
    have hp := (h.strands u.1).place
    rw [Sys.me, ← hcur] at hp
    have hidle : (ρ.sys.th u.1).pc = .idle → (ρ.sys.att u).returned ≠ none := fun hpc =>
      hu.resolve_right fun hw => by
        rw [hpc] at hw
        cases hw.2
    have hbusy : (ρ.sys.th u.1).pc ≠ .idle → (ρ.sys.th u.1).pc.writing = true := fun hpc =>
      (hu.resolve_left fun hr => hr (by
        have hn := (hg.att.running hpc).1
        rwa [Sys.me, ← hcur] at hn)).2
    cases hpl : (ρ.strand u.1).place with
    | outside =>
      rw [hpl] at hp
      have hrun := ((h.covered u (hidle hp)).resolve_left hin).2
      rw [hpl] at hrun
      cases hrun
    | saved b now =>
      rw [hpl] at hp
      have hrun := ((h.covered u (hidle hp.1)).resolve_left hin).2
      rw [hpl] at hrun
      cases hrun
    | inside b c =>
      rw [hpl] at hp
      have hw := hbusy (by rw [hp.1]; simp)
      rw [hp.1] at hw
      cases hw
    | calling b op k =>
      rw [hpl] at hp
      rcases hp with ⟨hpc, -, hn⟩ | ⟨c, l, -, -, ⟨hs, -⟩ | ⟨hpc, -⟩⟩
      · exact absurd hn (hidle hpc)
      · have hw := hbusy fun hpc => by
          rw [hpc] at hs
          cases hs
        rw [Pc.stage_of_writing hw] at hs
        cases hs
      · have hw := hbusy (by rw [hpc]; simp)
        rw [hpc] at hw
        cases hw
    | committing b r =>
      rw [hpl] at hp
      rcases hp with ⟨hpc, -, hn⟩ | ⟨c, hc, hd, -⟩
      · exact absurd hn (hidle hpc)
      · exact ⟨⟨u, b, r, (ρ.strand u.1).entered⟩, rfl, .inr ⟨hcur, hpl, rfl, hu.symm.imp_left
          And.right⟩, c, hc, hd⟩

/-- The thread of a finished block is not inside the transaction that was its last run. -/
theorem Runtime.Ok.not_committed (h : ρ.Ok code) {d e : Finished A R} (he : e ∈ ρ.finished)
    (hd : ρ.Committed d) (heq : e.tx = d.tx) : False := by
  have hf := h.fresh e he (heq ▸ hd.cur)
  rw [heq, hd.place] at hf
  cases hf

/-- A thread is about to return from one commit. -/
theorem Runtime.Committed.unique {d e : Finished A R} (hd : ρ.Committed d) (he : ρ.Committed e)
    (heq : e.tx = d.tx) : e = d := by
  obtain ⟨tx, b, r, n⟩ := d
  obtain ⟨tx', b', r', n'⟩ := e
  obtain rfl : tx' = tx := heq
  have hplace := hd.place.symm.trans he.place
  have hentered : n = n' := hd.entered.trans he.entered.symm
  cases hplace
  subst hentered
  rfl

/-- The calls of final transactions, replayed in their order, are runs of their blocks. -/
theorem runs_of_replay {σ : Sys cfg.segs} {l : List (Finished A R)} {m m' : Flat}
    (hl : ∀ d ∈ l, ∃ c, code.next c = .done d.result ∧
      Does code.next (code.start d.block) (σ.att d.tx).ops c)
    (hm : replay m (σ.opsOf (l.map Finished.tx)) = some m') :
    Runs code.toProgram (flatMemory cfg.segs) m (l.map fun d => (d.block, d.result)) m' := by
  induction l generalizing m with
  | nil =>
    cases hm
    exact .nil
  | cons d l ih =>
    rw [List.map_cons, Sys.opsOf, List.flatMap_cons, replay_append] at hm
    obtain ⟨m₁, hd, hm⟩ := Option.bind_eq_some_iff.1 hm
    obtain ⟨c, hc, hdoes⟩ := hl d List.mem_cons_self
    exact .cons (hdoes.exec hc (gives_of_replay hd))
      (ih (fun d hd => hl d (List.mem_cons_of_mem _ hd)) hm)

/-- The blocks of the transactions that are final have run one after the other. -/
theorem Runtime.Ok.serial (hrt : ρ.Ok code) (hok : ρ.sys.SerialOk cfg objs) :
    ∃ l, ρ.Serial code objs l := by
  have hlog := hok.txns.log
  obtain ⟨s, href, hinv⟩ := hok.sim
  obtain ⟨m, hm, hcells, hout⟩ := href.replay hinv hlog hok.serial ρ.sys.finals [] (by simp)
  obtain ⟨l, hl, hblock⟩ := exists_map_eq (f := Finished.tx)
    (P := fun d : Finished A R => (d ∈ ρ.finished ∨ ρ.Committed d) ∧
      ∃ c, code.next c = .done d.result ∧
        Does code.next (code.start d.block) (ρ.sys.att d.tx).ops c) fun u hu => by
      obtain ⟨hin, hval⟩ := List.mem_filter.1 hu
      exact hrt.block hok.txns.good (hlog.only hin hval)
  have hnodup : (l.map Finished.tx).Nodup := hl ▸ hlog.nodup.filter _
  have hmem : ∀ d ∈ ρ.finished, d ∈ l := by
    intro d hd
    have hval := hlog.validated (hrt.finished d hd).1
    have hin : d.tx ∈ l.map Finished.tx :=
      hl ▸ List.mem_filter.2 ⟨hlog.mem_of_validated hval, hval⟩
    obtain ⟨e, he, hde⟩ := List.mem_map.1 hin
    rcases (hblock e he).1 with hfin | hc
    · rwa [← List.inj_on_of_nodup_map hrt.nodup hfin hd hde]
    · exact (hrt.not_committed hd hc hde.symm).elim
  have hcom : ∀ d, ρ.Committed d → d ∈ l := by
    intro d hd
    have hin : d.tx ∈ l.map Finished.tx := by
      rw [hl]
      rcases hd.final with hw | hret
      · have hlog' := hlog.mem_of_writing hw
        rw [← hd.cur] at hlog'
        have hcur := hlog.cur d.tx.1
        rw [Pc.phase_eq_writing.2 hw, Sys.me, ← hd.cur] at hcur
        exact List.mem_filter.2 ⟨hlog', hcur.2.1⟩
      · have hval := hlog.validated hret
        exact List.mem_filter.2 ⟨hlog.mem_of_validated hval, hval⟩
    obtain ⟨e, he, hde⟩ := List.mem_map.1 hin
    rcases (hblock e he).1 with hfin | hc
    · exact (hrt.not_committed hfin hd hde).elim
    · rwa [← hd.unique hc hde]
  refine ⟨l, hnodup, hmem, hcom, fun d hd => (hblock d hd).1, ?_, m,
    runs_of_replay (fun d hd => (hblock d hd).2) (hl ▸ hm), fun hidle =>
      hok.objs_eq href hinv hidle hcells hout⟩
  have horder : (l.map Finished.tx).Pairwise fun u v =>
      ∀ r, (ρ.sys.att v).returned = some r → (ρ.sys.att u).began < r :=
    hl ▸ hok.time.order.sublist List.filter_sublist
  refine (List.pairwise_map.1 horder).imp_of_mem fun {d e} hd _ hde he => ?_
  obtain ⟨r, hr⟩ := Option.ne_none_iff_exists'.1 (hrt.finished e (List.mem_of_mem_take he)).1
  have hlt : r < (ρ.sys.att d.tx).began := by
    rcases (hblock d hd).1 with hfin | hc
    · exact hrt.before d hfin e he r hr
    · have hrun := hrt.running d.tx.1 (by rw [hc.place]; rfl) e (hc.entered ▸ he) r hr
      rwa [Sys.me, ← hc.cur] at hrun
  exact absurd (hde r hr) (by omega)

/-- The protocol with the lock words to begin with. -/
def Protocol.startFrom {g : Segments} (objs : Flat) (locks : Loc → Word) : Protocol g :=
  { Protocol.start objs with label := fun b => locks (g.lockLoc b.1) }

theorem Sys.Refines.start (objs : Flat) (locks : Loc → Word) (clock : ℕ → Word) :
    (Sys.start cfg.segs objs locks clock).Refines (.startFrom objs locks) where
  data _ := rfl
  label _ _ := rfl
  log := List.Sublist.refl _
  att _ := ⟨fun _ => iff_of_false id List.not_mem_nil, fun _ => rfl, rfl, fun _ _ => rfl,
    fun _ _ _ => rfl⟩
  thread t := by
    have hpc : ((Sys.start cfg.segs objs locks clock).th t).pc = .idle := rfl
    refine ⟨fun _ hv => absurd hv List.not_mem_nil, ?_, ?_, ?_, ?_⟩ <;>
      simp [hpc, Pc.early, Pc.calling]

theorem Sys.SerialOk.start (objs : Flat) (hq : Quiet locks clock) :
    (Sys.start cfg.segs objs locks clock).SerialOk cfg objs where
  txns := .start objs hq
  time := ⟨(Sys.TimeOk.init objs).begun, (Sys.TimeOk.init objs).logged,
    (Sys.TimeOk.init objs).returned, List.Pairwise.nil⟩
  frame _ _ _ := rfl
  serial _ hu := absurd hu List.not_mem_nil
  sim := ⟨.startFrom objs locks, .start objs locks clock,
    Optimistic.Inv.start (s := Protocol.startFrom objs locks) rfl (fun _ => rfl) (fun _ _ => id)
      fun _ _ => rfl⟩

/-- The system below keeps its serial order. -/
theorem Runtime.reach_serialOk (hv : cfg.build.variant = .variant1) (hq : Quiet locks clock)
    (h : (Runtime.lts cfg code objs locks clock).Reach
      (Runtime.Lift cfg code (Serializable cfg)) ρ) : ρ.sys.SerialOk cfg objs :=
  (Runtime.reach_sys h).induct (fun _ h0 => h0 ▸ .start objs hq)
    fun _ _ _ _ ih hs hc => ih.step hv (step_rule hs) hc.1 hc.2

/-- **Atomic blocks are atomic**: blocks that read no local before they have assigned it, if they
assign it at all, have run one after the other, in every state of every run that begins with no
lock held, in which no clock reaches `2^48` and no lock is granted whose word is not the version
recorded. -/
theorem Runtime.reach_serial (hv : cfg.build.variant = .variant1) (hcode : code.Restartable)
    (hq : Quiet locks clock)
    (h : (Runtime.lts cfg code objs locks clock).Reach
      (Runtime.Lift cfg code (Serializable cfg)) ρ) : ∃ l, ρ.Serial code objs l :=
  (Runtime.reach_ok hcode h).serial (Runtime.reach_serialOk hv hq h)

/-- **What blocks keep, programs keep**: if every block, run alone, keeps `I` and ends with a result
that satisfies `Q`, then so do the blocks of all threads, and memory satisfies `I` whenever nobody
is inside `commit`. -/
theorem Runtime.reach_preserves (hv : cfg.build.variant = .variant1) (hcode : code.Restartable)
    (hq : Quiet locks clock) {I : Flat → Prop} {Q : A → R → Prop} (hI : I objs)
    (hQ : ∀ a m r m', I m →
      Exec code.next (flatMemory cfg.segs) (code.start a) m r m' → I m' ∧ Q a r)
    (h : (Runtime.lts cfg code objs locks clock).Reach
      (Runtime.Lift cfg code (Serializable cfg)) ρ) :
    (∀ d ∈ ρ.finished, Q d.block d.result) ∧
      ((∀ t, (ρ.sys.th t).pc.committing = false) → I ρ.sys.objs) := by
  obtain ⟨l, hl⟩ := (Runtime.reach_ok hcode h).serial (Runtime.reach_serialOk hv hq h)
  obtain ⟨m, hm, hobjs⟩ := hl.runs
  obtain ⟨hIm, hres⟩ := hm.preserves hI hQ
  refine ⟨fun d hd => ?_, fun hidle => hobjs hidle ▸ hIm⟩
  exact hres _ (List.mem_map.2 ⟨d, hl.finished d hd, rfl⟩)

end

/-! ## Threads that take turns -/

/-- What thread `t` does next, or a handler for it, when `b t` is its block, the locals that it
assigns are as in `j t` after a jump, pieces of cells are whole and maps are iterated as they are
listed. -/
def Runtime.turn (cfg : Config) {A B R : Type*} (code : Blocks A B (Op cfg.segs) (List Byte) R)
    (b j : Tid → A) (ρ : Runtime cfg.segs A B R) (t : Tid) : Event cfg.segs A :=
  let tx := (ρ.sys.th t).tx
  let o : Tx.Orders := ⟨tx.readSet.keys, tx.writeSet.keys, tx.writeSetValues.keys⟩
  let run : Event cfg.segs A :=
    match ρ.sys.net t, (ρ.sys.th t).toCache with
    | [], none => .lib (.run t ⟨0, 64, o, 0⟩)
    | [], some _ => .lib (.addVersion t)
    | p :: _, _ =>
      match p.msg with
      | .request _ _ _ => .lib (.handle t 0)
      | .reply _ _ => .lib (.deliver t 0)
  match (ρ.strand t).key, (ρ.strand t).place, (ρ.sys.th t).pc with
  | none, _, _ => .newTx t (BitVec.ofNat 64 (16 * (t + 1)))
  | _, .outside, _ => .save t (b t)
  | _, .saved _ _, _ => .begin t
  | _, .inside _ c, _ =>
    match code.next c with
    | .done _ => .commit t o
    | _ => .call t
  | _, .calling _ _ _, .active => .ret t
  | _, .calling _ _ _, .idle => .restart t (j t)
  | _, .committing _ _, .idle => if (ρ.sys.me t).aborted then .restart t (j t) else .finish t
  | _, _, _ => run

/-- `old = x; x = old + 1` on the first value of node 0, with the local `old`, which is also the
result. -/
def countX (build : Build) : Prog (Op (small build).segs) (List Byte) Byte :=
  .call (.read cellX) fun v => .call (.write cellX (smallValue (v.headD 0 + 1))) fun _ =>
    .done (v.headD 0)

/-- Every block is `countX`, entered with any value of the local. -/
def countProgram (build : Build) : Blocks Byte (Prog (Op (small build).segs) (List Byte) Byte)
    (Op (small build).segs) (List Byte) Byte where
  start _ := countX build
  next := Prog.next
  again _ j := j

/-- The blocks assign nothing they read. -/
theorem countProgram_restartable (build : Build) : (countProgram build).Restartable :=
  fun _ _ => rfl

/-- The runs of the program on the small system. -/
def countLts (build : Build) : Lts (Runtime (small build).segs Byte
    (Prog (Op (small build).segs) (List Byte) Byte) Byte) (Event (small build).segs Byte) :=
  Runtime.lts (small build) (countProgram build) (fun _ _ => 0) (fun _ => 0) fun _ => 0

theorem quiet_zero : Quiet (fun _ => 0) fun _ => 0 where
  unlocked _ := by decide
  small _ := by decide
  clock _ := by decide

/-- Thread 0 reads, thread 1 runs its block, thread 0 is refused the lock and starts over. -/
def countTurns : List Tid :=
  List.flatten [List.replicate 11 0, List.replicate 31 1, List.replicate 44 0]

/-- The finished blocks, as transactions with their results. -/
def countObs {g : Segments} {A B R : Type*} (ρ : Runtime g A B R) : List ((Tid × ℕ) × R) :=
  ρ.finished.map fun d => (d.tx, d.result)

/-- Two threads count up, one after the other. -/
theorem count_reach : ∃ ρ, (countLts ⟨.variant1, false⟩).Reach
      (Runtime.Lift _ (countProgram ⟨.variant1, false⟩) (Serializable _)) ρ ∧
    countObs ρ = [((1, 1), 0), ((0, 2), 1)] := by
  have hrun : ((countLts ⟨.variant1, false⟩).runBy
      (Runtime.Lift _ (countProgram ⟨.variant1, false⟩) (Serializable _))
      (Runtime.turn _ (countProgram ⟨.variant1, false⟩) (fun _ => 0) fun _ => 255)
      (Runtime.start _ _ _ _ (fun _ _ => 0) (fun _ => 0) fun _ => 0) countTurns).map countObs =
      some [((1, 1), 0), ((0, 2), 1)] := by
    decide +kernel
  exact Lts.Reach.of_runBy rfl hrun

/-- The two blocks have run one after the other. -/
theorem count_serial : ∃ ρ l, countObs ρ = [((1, 1), 0), ((0, 2), 1)] ∧
    @Runtime.Serial (small ⟨.variant1, false⟩) _ _ _ (countProgram _) ρ (fun _ _ => 0) l := by
  obtain ⟨ρ, h, ho⟩ := count_reach
  obtain ⟨l, hl⟩ := Runtime.reach_serial rfl (countProgram_restartable _) quiet_zero h
  exact ⟨ρ, l, ho, hl⟩

/-- Every block counts on in the local `size` that it was entered with, as `set_size` of the intset
test does. -/
def sizeProgram (build : Build) : Blocks Byte (Prog (Op (small build).segs) (List Byte) Byte)
    (Op (small build).segs) (List Byte) Byte where
  start size := .call (.read cellX) fun v =>
    .call (.write cellX (smallValue (v.headD 0 + 1))) fun _ => .done (size + 1)
  next := Prog.next
  again _ j := j

/-- The blocks with the values of `size` before and after. -/
def sizeObs {g : Segments} {B : Type*} (ρ : Runtime g Byte B Byte) : List (Byte × Byte) :=
  ρ.finished.map fun d => (d.block, d.result)

/-- Such blocks need not have run one after the other: both are entered with `size` 0, but thread 0
has counted once before it starts over, and ends with 2. -/
theorem size_not_serial : ∃ ρ, (Runtime.lts (small ⟨.variant1, false⟩)
      (sizeProgram ⟨.variant1, false⟩) (fun _ _ => 0) (fun _ => 0) fun _ => 0).Reach
      (Runtime.Lift _ (sizeProgram ⟨.variant1, false⟩) (Serializable _)) ρ ∧
    ¬ ∃ l, ρ.Serial (sizeProgram ⟨.variant1, false⟩) (fun _ _ => 0) l := by
  have hrun : ((Runtime.lts (small ⟨.variant1, false⟩) (sizeProgram ⟨.variant1, false⟩)
      (fun _ _ => 0) (fun _ => 0) fun _ => 0).runBy
      (Runtime.Lift _ (sizeProgram ⟨.variant1, false⟩) (Serializable _))
      (Runtime.turn _ (sizeProgram ⟨.variant1, false⟩) (fun _ => 0) fun _ => 1)
      (Runtime.start _ _ _ _ (fun _ _ => 0) (fun _ => 0) fun _ => 0) countTurns).map sizeObs =
      some [(0, 1), (0, 2)] := by
    decide +kernel
  obtain ⟨ρ, h, ho⟩ := Lts.Reach.of_runBy rfl hrun
  refine ⟨ρ, h, fun ⟨l, hl⟩ => ?_⟩
  obtain ⟨d, hd, hobs⟩ : ∃ d ∈ ρ.finished, (d.block, d.result) = (0, 2) :=
    List.mem_map.1 (show (0, 2) ∈ sizeObs ρ by rw [ho]; decide)
  obtain ⟨m, hm, -⟩ := hl.runs
  have hres := (hm.preserves (I := fun _ => True) (Q := fun size r => r = size + 1) trivial
    fun size m r m' _ hx => ⟨trivial, Prog.wp_exec (Q := fun r _ => r = size + 1)
      (show ((sizeProgram ⟨.variant1, false⟩).start size).wp _ _ m from rfl) hx⟩).2 _
    (List.mem_map.2 ⟨d, hl.finished d hd, rfl⟩)
  obtain ⟨hb, hr⟩ := Prod.mk.inj hobs
  dsimp only at hres
  rw [hb, hr] at hres
  cases hres

end DstmP1
