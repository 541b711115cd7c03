import DstmP1.Alone
import DstmP1.Lib.Atomic

/-!
# The runtime of atomic blocks

The compiler turns `__tm_atomic { ... }` into calls of the functions of `dstm_p1-ls.cpp`:
`tanger_stm_save_restore_stack` at the checkpoint, `_ITM_beginTransaction`, a `tanger_stm_load` or
`tanger_stm_store` for every access, `_ITM_commitTransaction` at the end. They find the
descriptor of the thread under the key `TX_DATA_THREADKEY`, and create one if there is none; `abort`
jumps back to the checkpoint with the same descriptor, and `_ITM_commitTransaction` deletes it.
`Runtime` puts this on top of the system, for any program of atomic blocks (`code`): the calls of
each thread are those of its block.

`tanger_stm_save_restore_stack` saves no stack and `siglongjmp` restores none, so the locals that a
block has assigned are not given back: after the jump they may have any values (`restart`). The
results about programs are for blocks that read none of them before they have assigned it
(`Blocks.Restartable`). The code that calls these functions comes from the compiler, and that the
jump gets back to the checkpoint, although the function that has saved it has returned, is taken for
granted.

`Runtime.Ok` says how the two fit together: the key holds the thread's own descriptor, the current
transaction has made exactly the calls of the block since its checkpoint, and every transaction that
has returned is one run of one block.
-/

namespace DstmP1

open Atomic
open Segments (Loc)

/-! ## States -/

/-- Where the code of a thread stands; `b` is its block with the locals it was entered with. -/
inductive ProgramPoint (g : Segments) (A B R : Type*) where
  /-- Outside atomic blocks. -/
  | outside
  /-- At the checkpoint, which has just been saved or been jumped to; `now` is the block with the
  locals as they are now. -/
  | saved (b now : A)
  /-- In the block, at `c`. -/
  | inside (b : A) (c : B)
  /-- In `read` or `write`, called with `op`. -/
  | calling (b : A) (op : Op g) (k : List Byte → B)
  /-- In `commit`, with the result `r`. -/
  | committing (b : A) (r : R)

/-- The code of the thread is its own, not that of the library. -/
def ProgramPoint.own {g : Segments} {A B R : Type*} : ProgramPoint g A B R → Bool
  | .outside | .saved _ _ | .inside _ _ => true
  | _ => false

/-- A thread: its value of `TX_DATA_THREADKEY`, where it stands, and how many blocks had been
finished when it entered the one it is in. -/
structure Strand (g : Segments) (A B R : Type*) where
  key : Option Word
  place : ProgramPoint g A B R
  entered : ℕ

/-- A block that is finished, and the transaction that was its last run. -/
structure Finished (A R : Type*) where
  tx : Tid × ℕ
  block : A
  result : R
  entered : ℕ

structure Runtime (g : Segments) (A B R : Type*) where
  sys : Sys g
  strand : Tid → Strand g A B R
  /-- The blocks that have been finished, in this order. -/
  finished : List (Finished A R)

/-- No thread has entered a block yet, on any objects, lock words and clocks. -/
def Runtime.start (g : Segments) (A B R : Type*) (objs : Flat) (locks : Loc → Word)
    (clock : ℕ → Word) : Runtime g A B R :=
  ⟨Sys.start g objs locks clock, fun _ => ⟨none, .outside, 0⟩, []⟩

inductive Event (g : Segments) (A : Type*) where
  /-- There is no descriptor under the key: a new one at `ptr` is put there. -/
  | newTx (t : Tid) (ptr : Word)
  /-- `tanger_stm_save_restore_stack`, at the beginning of the block `b`. -/
  | save (t : Tid) (b : A)
  /-- `_ITM_beginTransaction`. -/
  | begin (t : Tid)
  /-- `tanger_stm_load` or `tanger_stm_store` calls `read` or `write`. -/
  | call (t : Tid)
  /-- The call returns. -/
  | ret (t : Tid)
  /-- `_ITM_commitTransaction` calls `commit`. -/
  | commit (t : Tid) (o : Tx.Orders)
  /-- `siglongjmp` in `abort`; the locals that the block assigns are then as in `j`. -/
  | restart (t : Tid) (j : A)
  /-- `commit` returns to `_ITM_commitTransaction`. -/
  | finish (t : Tid)
  /-- A step of the library or of a handler. -/
  | lib (a : Act g)

/-- The steps that are inside a call of the library, or of a handler. -/
def Act.inner {g : Segments} : Act g → Bool
  | .run _ _ | .addVersion _ | .handle _ _ | .deliver _ _ => true
  | _ => false

/-! ## Steps -/

section
variable (cfg : Config) {A B R : Type*} (code : Blocks A B (Op cfg.segs) (List Byte) R)

/-- The library and thread `t` go on as `σ` and `s`. -/
def Runtime.put (ρ : Runtime cfg.segs A B R) (t : Tid) (σ : Sys cfg.segs)
    (s : Strand cfg.segs A B R) : Runtime cfg.segs A B R :=
  { ρ with sys := σ, strand := Function.update ρ.strand t s }

/-- One step of the runtime. -/
def Runtime.step (ρ : Runtime cfg.segs A B R) : Event cfg.segs A → Option (Runtime cfg.segs A B R)
  | .newTx t ptr =>
    match (ρ.strand t).key, (ρ.strand t).place.own with
    | none, true => (DstmP1.step cfg ρ.sys (.new t ptr)).map fun σ =>
        ρ.put cfg t σ { ρ.strand t with key := some ptr }
    | _, _ => none
  | .save t b =>
    match (ρ.strand t).key, (ρ.strand t).place with
    | some _, .outside => some (ρ.put cfg t ρ.sys
        { ρ.strand t with place := .saved b b, entered := ρ.finished.length })
    | _, _ => none
  | .begin t =>
    match (ρ.strand t).key, (ρ.strand t).place with
    | some _, .saved b now => (DstmP1.step cfg ρ.sys (.begin t)).map fun σ =>
        ρ.put cfg t σ { ρ.strand t with place := .inside b (code.start now) }
    | _, _ => none
  | .call t =>
    match (ρ.strand t).key, (ρ.strand t).place with
    | some _, .inside b c =>
      match code.next c with
      | .call op k => (DstmP1.step cfg ρ.sys (.call t op)).map fun σ =>
          ρ.put cfg t σ { ρ.strand t with place := .calling b op k }
      | _ => none
    | _, _ => none
  | .ret t =>
    match (ρ.strand t).place, (ρ.sys.th t).pc, (ρ.sys.me t).ops.getLast? with
    | .calling b _ k, .active, some x => some (ρ.put cfg t ρ.sys
        { ρ.strand t with place := .inside b (k x.2) })
    | _, _, _ => none
  | .commit t o =>
    match (ρ.strand t).key, (ρ.strand t).place with
    | some _, .inside b c =>
      match code.next c with
      | .done r => (DstmP1.step cfg ρ.sys (.commit t o)).map fun σ =>
          ρ.put cfg t σ { ρ.strand t with place := .committing b r }
      | _ => none
    | _, _ => none
  | .restart t j =>
    match (ρ.strand t).place, (ρ.sys.th t).pc, (ρ.sys.me t).aborted with
    | .calling b _ _, .idle, true | .committing b _, .idle, true => some (ρ.put cfg t ρ.sys
        { ρ.strand t with place := .saved b (code.again b j) })
    | _, _, _ => none
  | .finish t =>
    match (ρ.strand t).place, (ρ.sys.th t).pc, (ρ.sys.me t).returned with
    | .committing b r, .idle, some _ => (DstmP1.step cfg ρ.sys (.delete t)).map fun σ =>
        { ρ.put cfg t σ { ρ.strand t with key := none, place := .outside } with
          finished := ρ.finished ++ [⟨ρ.sys.cur t, b, r, (ρ.strand t).entered⟩] }
    | _, _, _ => none
  | .lib a =>
    if a.inner then (DstmP1.step cfg ρ.sys a).map fun σ => { ρ with sys := σ } else none

/-- The step of the system that an event is, if it is one. -/
def Runtime.act (ρ : Runtime cfg.segs A B R) : Event cfg.segs A → Option (Act cfg.segs)
  | .newTx t ptr => some (.new t ptr)
  | .begin t => some (.begin t)
  | .call t =>
    match (ρ.strand t).place with
    | .inside _ c =>
      match code.next c with
      | .call op _ => some (.call t op)
      | _ => none
    | _ => none
  | .commit t o => some (.commit t o)
  | .finish t => some (.delete t)
  | .lib a => some a
  | _ => none

/-- A condition on the steps of the system, for events. -/
def Runtime.Lift (ok : Sys cfg.segs → Act cfg.segs → Sys cfg.segs → Prop)
    (ρ : Runtime cfg.segs A B R) (e : Event cfg.segs A) (ρ' : Runtime cfg.segs A B R) : Prop :=
  ∀ a ∈ ρ.act cfg code e, ok ρ.sys a ρ'.sys

instance {ok : Sys cfg.segs → Act cfg.segs → Sys cfg.segs → Prop}
    [∀ σ a σ', Decidable (ok σ a σ')] (ρ : Runtime cfg.segs A B R) (e : Event cfg.segs A)
    (ρ' : Runtime cfg.segs A B R) : Decidable (Runtime.Lift cfg code ok ρ e ρ') :=
  inferInstanceAs (Decidable (∀ a ∈ ρ.act cfg code e, ok ρ.sys a ρ'.sys))

/-- The runs of the program, on any objects, lock words and clocks to begin with. -/
def Runtime.lts (objs : Flat) (locks : Loc → Word) (clock : ℕ → Word) :
    Lts (Runtime cfg.segs A B R) (Event cfg.segs A) where
  init ρ := ρ = Runtime.start cfg.segs A B R objs locks clock
  step := Runtime.step cfg code

end

/-! ## What the library does to a call -/

/-- `begin` makes the next transaction of the thread the current one. -/
theorem step_begin {cfg : Config} {σ σ' : Sys cfg.segs} {t : Tid}
    (h : step cfg σ (.begin t) = some σ') : (σ'.th t).pc = .active ∧
      (σ'.th t).this = (σ.th t).this ∧ (σ'.th t).round = (σ.th t).round + 1 ∧
      σ'.me t = Attempt.new cfg.segs σ.now ∧
      ∀ u ≠ (t, (σ.th t).round + 1), σ'.att u = σ.att u := by
  simp only [step] at h
  split at h <;> cases h
  refine ⟨?_, ?_, ?_, Sys.upd_me, fun u hu => Sys.upd_att_ne hu⟩ <;>
    simp only [Sys.upd_th]

/-- `delete` takes the descriptor away and changes nothing else. -/
theorem step_delete {cfg : Config} {σ σ' : Sys cfg.segs} {t : Tid}
    (h : step cfg σ (.delete t) = some σ') : σ'.att = σ.att ∧ (∀ t' ≠ t, σ'.th t' = σ.th t') ∧
      (σ'.th t).this = none ∧ (σ'.th t).pc = (σ.th t).pc ∧
      (σ'.th t).round = (σ.th t).round := by
  simp only [step] at h
  split at h <;> cases h
  refine ⟨Function.update_eq_self _ _, fun t' ht => Function.update_of_ne ht .., ?_, ?_, ?_⟩ <;>
    simp only [Sys.upd_th]

/-- What holds of the records in every run, whatever the lock words and the clocks are. -/
theorem reach_records {cfg : Config} {σ : Sys cfg.segs} {objs : Flat} {locks : Loc → Word}
    {clock : ℕ → Word} {ok : Sys cfg.segs → Act cfg.segs → Sys cfg.segs → Prop}
    (h : (cfg.ltsFrom objs locks clock).Reach ok σ) : σ.Good cfg ∧ σ.LogOk ∧ σ.TimeOk := by
  refine h.induct (I := fun σ => σ.Good cfg ∧ σ.LogOk ∧ σ.TimeOk) (fun σ h0 => ?_)
    fun σ a σ' _ ih hs _ => ?_
  · have hlog : (Sys.init cfg.segs objs).LogOk := .init objs
    have htime : (Sys.init cfg.segs objs).TimeOk := .init objs
    rw [show σ = _ from h0]
    exact ⟨.start objs locks clock, ⟨hlog.nodup, hlog.cur, hlog.other⟩,
      htime.begun, htime.logged, htime.returned, htime.order⟩
  · obtain ⟨hg, hlog, htime⟩ := ih
    have hrule := step_rule hs
    exact ⟨hg.step hrule, hlog.step hg hrule, htime.step hlog hg hrule⟩

/-- How far the library is in a call, as its caller sees it. -/
inductive Stage (g : Segments) where
  | idle
  | active
  | calling (op : Op g)
  | committing

def Pc.stage {g : Segments} : Pc g → Stage g
  | .idle => .idle
  | .active => .active
  | .readCell op _ | .increaseClock op _ _ _ | .validateStart op _ _ | .validate op _ _ _ _ =>
    .calling op
  | _ => .committing

/-- What a step inside the library does to its thread: the call goes on, returns, aborts, or the
commit returns. -/
inductive Inner {g : Segments} (th th' : Thread g) (me me' : Attempt g) : Prop where
  | goes : th'.pc.stage = th.pc.stage → me'.ops = me.ops → me'.aborted = me.aborted →
      me'.returned = me.returned → Inner th th' me me'
  | returns {op : Op g} (v : List Byte) : th.pc.stage = .calling op → th'.pc = .active →
      me'.ops = me.ops ++ [(op, v)] → Inner th th' me me'
  | aborts : th.pc ≠ .idle → th.pc ≠ .active → th'.pc = .idle → me'.aborted = true →
      me'.returned = none → Inner th th' me me'
  | commits : th.pc.stage = .committing → th'.pc = .idle → me'.ops = me.ops →
      me'.returned ≠ none → me'.aborted = false → Inner th th' me me'

section
variable {cfg : Config} {σ σ' : Sys cfg.segs} {a : Act cfg.segs} {t : Tid} {u : Tid × ℕ}

theorem Goes.stage {pc : Pc cfg.segs} (hg : Goes cfg σ t pc) (hpc : (σ.th t).pc ≠ .active) :
    pc.stage = (σ.th t).pc.stage := by
  cases hg <;> simp_all [Pc.stage]

/-- A thread outside the calls of the library can only add a version to its cache there. -/
theorem step_resting (h : step cfg σ a = some σ') (ha : a.inner = true) (hok : σ.Ok cfg)
    (hpc : (σ.th a.tid).pc = .idle ∨ (σ.th a.tid).pc = .active) :
    σ'.th a.tid = { σ.th a.tid with toCache := none } ∧ σ'.me a.tid = σ.me a.tid := by
  have hnet : σ.net a.tid = [] := by
    have hl := (hok.local_ok a.tid).pc
    rcases hpc with hpc | hpc <;> simp only [PcOk, hpc] at hl <;> exact hl.net
  cases a with
  | run t c =>
    have hrun := step_run h
    simp only [Act.tid] at hpc
    rcases hpc with hpc | hpc <;> rw [stepRun, hpc] at hrun <;> cases hrun
  | addVersion t =>
    obtain ⟨e, he, rfl⟩ := Option.map_eq_some_iff.1 h
    exact Sys.lift (P := fun th me => th = { σ.th t with toCache := none } ∧ me = σ.me t)
      ⟨rfl, rfl⟩ rfl rfl
  | handle t k | deliver t k =>
    simp only [Act.tid] at hnet
    simp [step, stepHandle, stepDeliver, hnet] at h
  | _ => cases ha

/-- A thread that calls `read` or `write` with `op` does so in the step `call`. -/
theorem step_fetch (hs : step cfg σ a = some σ') (hok : σ.Ok cfg) {op : Op cfg.segs}
    (hpc : (σ.th a.tid).pc = .active) (hpc' : (σ'.th a.tid).pc = .readCell op .version) :
    a = .call a.tid op := by
  by_cases ha : a.inner = true
  · rw [(step_resting hs ha hok (.inr hpc)).1, hpc] at hpc'
    cases hpc'
  · cases a with
    | call t op' =>
      simp only [step, Act.tid] at hs hpc
      rw [hpc] at hs
      split at hs
      · cases hs
        rw [stepCall] at hpc'
        split at hpc'
        · simp only [Act.tid, Sys.upd_th] at hpc'
          rw [hpc] at hpc'
          cases hpc'
        · simp only [Act.tid, Sys.goto, Sys.upd_th] at hpc'
          cases hpc'
          rfl
      · cases hs
    | new t ptr | begin t | delete t =>
      simp only [step, Act.tid] at hs hpc
      rw [hpc] at hs
      cases hs
    | commit t o =>
      simp only [step, Act.tid] at hs hpc
      rw [hpc] at hs
      split at hs
      · split at hs <;> cases hs
        simp only [Act.tid, Sys.goto, Sys.upd_th] at hpc'
        cases hpc'
      · cases hs
    | rollback t =>
      simp only [step, Act.tid] at hs hpc
      rw [hpc] at hs
      split at hs
      · cases hs
        simp only [Act.tid, Sys.abort, Sys.upd_th] at hpc'
        cases hpc'
      · cases hs
    | run | addVersion | handle | deliver => exact absurd rfl ha

/-- What a step inside the library does to the call of its thread. -/
theorem step_inner (h : step cfg σ a = some σ') (ha : a.inner = true) (hg : σ.Good cfg) :
    Inner (σ.th a.tid) (σ'.th a.tid) (σ.me a.tid) (σ'.me a.tid) := by
  have hok := hg.ok
  by_cases hrest : (σ.th a.tid).pc = .idle ∨ (σ.th a.tid).pc = .active
  · obtain ⟨hth, hme⟩ := step_resting h ha hok hrest
    rw [hth, hme]
    exact .goes rfl rfl rfl rfl
  · obtain ⟨hidle, hactive⟩ := not_or.1 hrest
    have lift : ∀ {th : Thread cfg.segs} {me : Attempt cfg.segs},
        σ'.th = (σ.upd a.tid th me).th → σ'.att = (σ.upd a.tid th me).att →
        Inner (σ.th a.tid) th (σ.me a.tid) me →
        Inner (σ.th a.tid) (σ'.th a.tid) (σ.me a.tid) (σ'.me a.tid) :=
      fun hth hatt h => Sys.lift (P := fun th me => Inner _ th _ me) h hth hatt
    have hnone := hg.att.running hidle
    cases step_rule h with
    | goto ht hc hgo =>
      subst ht
      exact lift rfl rfl (.goes (hgo.stage hactive) rfl rfl rfl)
    | load | reply | lost => exact .goes rfl rfl rfl rfl
    | deliver hk hm hdesc =>
      obtain rfl := delivers hok.local_ok hok.descs _ _ _ _ _ _ hk hm hdesc
      exact lift rfl rfl (.goes rfl rfl rfl rfl)
    | abort _ _ ht =>
      subst ht
      exact lift rfl rfl (.aborts hidle hactive rfl rfl hnone.1)
    | released => exact lift rfl rfl (.aborts hidle hactive rfl rfl hnone.1)
    | committed hpc =>
      exact lift rfl rfl (.commits (by rw [Act.tid, hpc]; rfl) rfl rfl (Option.some_ne_none _)
        hnone.2)
    | finish hpc | finishValid hpc =>
      exact lift rfl rfl (.returns _ (by rw [Act.tid, hpc]; rfl) rfl rfl)
    | new | begin | delete | served => cases ha
    | addVersion | refuse | grant => exact lift rfl rfl (.goes rfl rfl rfl rfl)
    | fetched hpc | clockRaised hpc | lockPoint hpc | batch hpc | send hpc | restore hpc
    | validated hpc | invalid hpc | put _ _ hpc | issue hpc | release hpc =>
      exact lift rfl rfl (.goes (by rw [Act.tid, hpc]; rfl) rfl rfl rfl)

/-- A step inside the library keeps the descriptors and the transactions that have begun. -/
theorem step_inner_same (h : step cfg σ a = some σ') (ha : a.inner = true) (hok : σ.Ok cfg) :
    (σ'.th a.tid).this = (σ.th a.tid).this ∧ (σ'.th a.tid).round = (σ.th a.tid).round ∧
      (σ'.me a.tid).began = (σ.me a.tid).began := by
  have lift : ∀ {th : Thread cfg.segs} {me : Attempt cfg.segs},
      σ'.th = (σ.upd a.tid th me).th → σ'.att = (σ.upd a.tid th me).att →
      th.this = (σ.th a.tid).this ∧ th.round = (σ.th a.tid).round ∧
        me.began = (σ.me a.tid).began →
      (σ'.th a.tid).this = (σ.th a.tid).this ∧ (σ'.th a.tid).round = (σ.th a.tid).round ∧
        (σ'.me a.tid).began = (σ.me a.tid).began :=
    fun hth hatt h => Sys.lift (P := fun th me => th.this = (σ.th a.tid).this ∧
      th.round = (σ.th a.tid).round ∧ me.began = (σ.me a.tid).began) h hth hatt
  cases step_rule h with
  | goto ht | abort _ _ ht =>
    subst ht
    exact lift rfl rfl ⟨rfl, rfl, rfl⟩
  | load | reply | lost => exact ⟨rfl, rfl, rfl⟩
  | deliver hk hm hdesc =>
    obtain rfl := delivers hok.local_ok hok.descs _ _ _ _ _ _ hk hm hdesc
    exact lift rfl rfl ⟨rfl, rfl, rfl⟩
  | new | begin | delete => cases ha
  | _ => exact lift rfl rfl ⟨rfl, rfl, rfl⟩

/-- A thread outside its transactions leaves the record of the last one alone. -/
theorem Rule.me_idle (hr : Rule cfg σ a σ') (hok : σ.Ok cfg) (hpc : (σ.th a.tid).pc = .idle)
    (hround : (σ'.th a.tid).round = (σ.th a.tid).round) : σ'.me a.tid = σ.me a.tid := by
  have lift : ∀ {th : Thread cfg.segs} {me : Attempt cfg.segs},
      σ'.th = (σ.upd a.tid th me).th → σ'.att = (σ.upd a.tid th me).att →
      me = σ.me a.tid → σ'.me a.tid = σ.me a.tid :=
    fun hth hatt h => Sys.lift (P := fun _ me => me = σ.me a.tid) h hth hatt
  have hnet : σ.net a.tid = [] := by
    have hl := (hok.local_ok a.tid).pc
    simp only [PcOk, hpc] at hl
    exact hl.net
  cases hr with
  | goto ht _ hg =>
    subst ht
    exact absurd hpc hg.not_idle.1
  | new | delete | addVersion => exact lift rfl rfl rfl
  | begin =>
    simp only [Act.tid, Sys.upd_th] at hround
    exact absurd hround (Nat.succ_ne_self _)
  | abort hcall _ ht =>
    subst ht
    rw [hpc] at hcall
    cases hcall
  | load hk | refuse hk | grant hk | reply hk | deliver hk | lost hk =>
    simp only [Act.tid] at hnet
    rw [hnet] at hk
    cases hk
  | served hpc' | fetched hpc' | clockRaised hpc' | finish hpc' | finishValid hpc' | lockPoint hpc'
  | batch hpc' | send hpc' | released hpc' | restore hpc' | validated hpc' | invalid hpc'
  | put _ _ hpc' | issue hpc' | release hpc' | committed hpc' =>
    rw [Act.tid, hpc'] at hpc
    cases hpc

/-- Nobody changes the record of a transaction that has returned. -/
theorem Rule.att_returned (hr : Rule cfg σ a σ') (hg : σ.Good cfg)
    (hu : (σ.att u).returned ≠ none) : σ'.att u = σ.att u := by
  by_cases hcur : u = σ'.cur u.1
  · rcases hr.round u.1 with hround | ⟨-, hround, -⟩
    · have hold : u = σ.cur u.1 := by rwa [Sys.cur, hround] at hcur
      have hpc : (σ.th u.1).pc = .idle := by
        by_contra hne
        rw [hold] at hu
        exact hu (hg.att.running hne).1
      by_cases ht : u.1 = a.tid
      · have hme := hr.me_idle hg.ok (ht ▸ hpc) (ht ▸ hround)
        rw [Sys.me, Sys.me, ← ht, ← hcur, ← hold] at hme
        exact hme
      · exact (hr.sameBut (delivers hg.ok.local_ok hg.ok.descs)).att u ht
    · rw [Sys.cur, hround] at hcur
      have hnew := hg.att.new u (by rw [hcur]; exact Nat.lt_succ_self _)
      rw [hnew] at hu
      exact absurd rfl hu
  · exact hr.att_ne hcur

end

/-! ## Threads and their blocks -/

/-- The thread is inside a transaction of its block. -/
def ProgramPoint.running {g : Segments} {A B R : Type*} : ProgramPoint g A B R → Bool
  | .inside _ _ | .calling _ _ _ | .committing _ _ => true
  | _ => false

section
variable {g : Segments} {A B R : Type*} (code : Blocks A B (Op g) (List Byte) R)

/-- The current transaction of a thread has made the calls of its block since the checkpoint. -/
def ProgramPoint.Ok (th : Thread g) (me : Attempt g) : ProgramPoint g A B R → Prop
  | .outside => th.pc = .idle
  | .saved b now => th.pc = .idle ∧ code.start now = code.start b
  | .inside b c => th.pc = .active ∧ Does code.next (code.start b) me.ops c
  | .calling b op k => th.pc = .idle ∧ me.aborted = true ∧ me.returned = none ∨
      ∃ c l, code.next c = .call op k ∧ Does code.next (code.start b) l c ∧
        (th.pc.stage = .calling op ∧ me.ops = l ∨ th.pc = .active ∧ ∃ v, me.ops = l ++ [(op, v)])
  | .committing b r => th.pc = .idle ∧ me.aborted = true ∧ me.returned = none ∨
      ∃ c, code.next c = .done r ∧ Does code.next (code.start b) me.ops c ∧
        (th.pc.stage = .committing ∨ th.pc = .idle ∧ me.returned ≠ none ∧ me.aborted = false)

/-- The key holds the descriptor of the thread, and the transaction is one of the block. -/
structure Strand.Ok (th : Thread g) (me : Attempt g) (s : Strand g A B R) : Prop where
  key : s.key = th.this
  place : s.place.Ok code th me

/-- A thread that goes on as `s`, after a step of the library for it. -/
structure Strand.Follows (s₀ s : Strand g A B R) (th₀ : Thread g) (me₀ : Attempt g) (th : Thread g)
    (me : Attempt g) : Prop where
  ok : s.Ok code th me
  entered : s.entered = s₀.entered
  round : th.round = th₀.round
  began : me.began = me₀.began
  /-- What returns is the transaction of a block that is still running. -/
  returned : me.returned ≠ none → s.place.running = false → me₀.returned ≠ none
  running : s.place.running = true → s₀.place.running = true
  keeps : s₀.place.running = true → me₀.returned ≠ none → s.place.running = true

/-- What holds of the threads, of the blocks that are finished and of the order in which blocks are
entered and finished. -/
structure Runtime.Ok (ρ : Runtime g A B R) : Prop where
  strands : ∀ t, (ρ.strand t).Ok code (ρ.sys.th t) (ρ.sys.me t)
  /-- A finished block has run in a transaction that has returned. -/
  finished : ∀ d ∈ ρ.finished, (ρ.sys.att d.tx).returned ≠ none ∧
    ∃ c, code.next c = .done d.result ∧ Does code.next (code.start d.block) (ρ.sys.att d.tx).ops c
  fresh : ∀ d ∈ ρ.finished, d.tx = ρ.sys.cur d.tx.1 → (ρ.strand d.tx.1).place.running = false
  nodup : (ρ.finished.map Finished.tx).Nodup
  /-- A transaction that has returned belongs to a finished block, or to one whose thread is about
  to leave it. -/
  covered : ∀ u, (ρ.sys.att u).returned ≠ none → u ∈ ρ.finished.map Finished.tx ∨
    u = ρ.sys.cur u.1 ∧ (ρ.strand u.1).place.running = true
  entered : (∀ t, (ρ.strand t).entered ≤ ρ.finished.length) ∧
    ∀ d ∈ ρ.finished, d.entered ≤ ρ.finished.length
  /-- The transactions of blocks finished earlier have returned before this one has begun. -/
  before : ∀ d ∈ ρ.finished, ∀ f ∈ ρ.finished.take d.entered, ∀ r,
    (ρ.sys.att f.tx).returned = some r → r < (ρ.sys.att d.tx).began
  running : ∀ t, (ρ.strand t).place.running = true →
    ∀ f ∈ ρ.finished.take (ρ.strand t).entered, ∀ r,
      (ρ.sys.att f.tx).returned = some r → r < (ρ.sys.me t).began

variable {code} {th th' : Thread g} {me me' : Attempt g} {p : ProgramPoint g A B R}

theorem Pc.stage_eq_idle {pc : Pc g} : pc.stage = .idle ↔ pc = .idle := by
  cases pc <;> simp [Pc.stage]

theorem Pc.stage_eq_active {pc : Pc g} : pc.stage = .active ↔ pc = .active := by
  cases pc <;> simp [Pc.stage]

/-- A thread outside its transactions stays there. -/
theorem Inner.idle (hi : Inner th th' me me') (h : th.pc = .idle) : th'.pc = .idle := by
  cases hi with
  | goes hs => exact Pc.stage_eq_idle.1 (hs.trans (Pc.stage_eq_idle.2 h))
  | returns v hs | commits hs =>
    rw [h] at hs
    cases hs
  | aborts hne => exact absurd h hne

/-- A step inside the library. -/
theorem ProgramPoint.Ok.inner (h : p.Ok code th me) (hi : Inner th th' me me') :
    p.Ok code th' me' := by
  cases p with
  | outside => exact hi.idle h
  | saved b now => exact ⟨hi.idle h.1, h.2⟩
  | inside b c =>
    obtain ⟨hpc, hd⟩ := h
    cases hi with
    | goes hs ho =>
      exact ⟨Pc.stage_eq_active.1 (hs.trans (Pc.stage_eq_active.2 hpc)), ho ▸ hd⟩
    | returns v hs | commits hs =>
      rw [hpc] at hs
      cases hs
    | aborts _ hne => exact absurd hpc hne
  | calling b op k =>
    rcases h with ⟨hpc, ha, hr⟩ | ⟨c, l, hc, hd, hs⟩
    · cases hi with
      | goes hs ho ha' hr' =>
        exact .inl ⟨Pc.stage_eq_idle.1 (hs.trans (Pc.stage_eq_idle.2 hpc)), ha' ▸ ha, hr' ▸ hr⟩
      | returns v hs | commits hs =>
        rw [hpc] at hs
        cases hs
      | aborts hne => exact absurd hpc hne
    · cases hi with
      | goes hs' ho =>
        refine .inr ⟨c, l, hc, hd, ?_⟩
        rcases hs with ⟨hs, rfl⟩ | ⟨hpc, v, hv⟩
        · exact .inl ⟨hs'.trans hs, ho⟩
        · exact .inr ⟨Pc.stage_eq_active.1 (hs'.trans (Pc.stage_eq_active.2 hpc)), v, ho.trans hv⟩
      | returns v hs' hpc' ho =>
        refine .inr ⟨c, l, hc, hd, ?_⟩
        rcases hs with ⟨hs, rfl⟩ | ⟨hpc, -⟩
        · rw [hs] at hs'
          cases hs'
          exact .inr ⟨hpc', v, ho⟩
        · rw [hpc] at hs'
          cases hs'
      | aborts _ _ hpc' ha hr => exact .inl ⟨hpc', ha, hr⟩
      | commits hs' =>
        rcases hs with ⟨hs, -⟩ | ⟨hpc, -⟩
        · rw [hs] at hs'
          cases hs'
        · rw [hpc] at hs'
          cases hs'
  | committing b r =>
    rcases h with ⟨hpc, ha, hr⟩ | ⟨c, hc, hd, hs⟩
    · cases hi with
      | goes hs ho ha' hr' =>
        exact .inl ⟨Pc.stage_eq_idle.1 (hs.trans (Pc.stage_eq_idle.2 hpc)), ha' ▸ ha, hr' ▸ hr⟩
      | returns v hs | commits hs =>
        rw [hpc] at hs
        cases hs
      | aborts hne => exact absurd hpc hne
    · cases hi with
      | goes hs' ho ha' hr' =>
        refine .inr ⟨c, hc, ho ▸ hd, ?_⟩
        rcases hs with hs | ⟨hpc, hr, ha⟩
        · exact .inl (hs'.trans hs)
        · exact .inr ⟨Pc.stage_eq_idle.1 (hs'.trans (Pc.stage_eq_idle.2 hpc)), hr' ▸ hr, ha' ▸ ha⟩
      | returns v hs' =>
        rcases hs with hs | ⟨hpc, -⟩
        · rw [hs] at hs'
          cases hs'
        · rw [hpc] at hs'
          cases hs'
      | aborts _ _ hpc' ha hr => exact .inl ⟨hpc', ha, hr⟩
      | commits hs' hpc' ho hr ha => exact .inr ⟨c, hc, ho ▸ hd, .inr ⟨hpc', hr, ha⟩⟩

end

/-! ## Every step -/

section
variable {cfg : Config} {A B R : Type*} {code : Blocks A B (Op cfg.segs) (List Byte) R}
  {ρ ρ' : Runtime cfg.segs A B R} {σ' : Sys cfg.segs} {t : Tid} {s : Strand cfg.segs A B R}
  {a : Act cfg.segs}

theorem Runtime.Ok.start (objs : Flat) (locks : Loc → Word) (clock : ℕ → Word) :
    (Runtime.start cfg.segs A B R objs locks clock).Ok code where
  strands _ := ⟨rfl, rfl⟩
  finished _ h := absurd h List.not_mem_nil
  fresh _ h := absurd h List.not_mem_nil
  nodup := List.nodup_nil
  covered _ h := absurd rfl h
  entered := ⟨fun _ => Nat.le_refl _, fun _ h => absurd h List.not_mem_nil⟩
  before _ h := absurd h List.not_mem_nil
  running _ h := by cases h

/-- Thread `t` goes on, and no block is finished. -/
theorem Runtime.Ok.put (h : ρ.Ok code)
    (hth : ∀ t' ≠ t, σ'.th t' = ρ.sys.th t') (hme : ∀ t' ≠ t, σ'.me t' = ρ.sys.me t')
    (hatt : ∀ u, (ρ.sys.att u).returned ≠ none → σ'.att u = ρ.sys.att u)
    (hret : ∀ u, (σ'.att u).returned ≠ none →
      (ρ.sys.att u).returned ≠ none ∨ u = σ'.cur t ∧ s.place.running = true)
    (hkeep : (ρ.strand t).place.running = true → (ρ.sys.me t).returned ≠ none →
      σ'.cur t = ρ.sys.cur t ∧ s.place.running = true)
    (hs : s.Ok code (σ'.th t) (σ'.me t)) (hle : s.entered ≤ ρ.finished.length)
    (hfresh : s.place.running = true → ∀ d ∈ ρ.finished, d.tx ≠ σ'.cur t)
    (hrun : s.place.running = true → ∀ f ∈ ρ.finished.take s.entered, ∀ r,
      (ρ.sys.att f.tx).returned = some r → r < (σ'.me t).began) :
    (ρ.put cfg t σ' s).Ok code := by
  have hstrand : ∀ t' ≠ t, (ρ.put cfg t σ' s).strand t' = ρ.strand t' :=
    fun t' ht => Function.update_of_ne ht ..
  have hself : (ρ.put cfg t σ' s).strand t = s := Function.update_self ..
  have hcur : ∀ t' ≠ t, σ'.cur t' = ρ.sys.cur t' :=
    fun t' ht => by rw [Sys.cur, Sys.cur, hth t' ht]
  have hfin : ∀ d ∈ ρ.finished, σ'.att d.tx = ρ.sys.att d.tx :=
    fun d hd => hatt d.tx (h.finished d hd).1
  refine ⟨fun t' => ?_, fun d hd => ?_, fun d hd hc => ?_, h.nodup, fun u hu => ?_,
    ⟨fun t' => ?_, h.entered.2⟩, fun d hd f hf r hr => ?_, fun t' hp f hf r hr => ?_⟩
  · rcases eq_or_ne t' t with rfl | ht
    · rw [hself]
      exact hs
    · rw [hstrand t' ht]
      have hold := h.strands t'
      rwa [← hth t' ht, ← hme t' ht] at hold
  · have hold := h.finished d hd
    rwa [← hfin d hd] at hold
  · rcases eq_or_ne d.tx.1 t with ht | ht
    · rw [ht, hself]
      by_contra hp
      exact hfresh (by simpa using hp) d hd (ht ▸ hc)
    · rw [hstrand _ ht]
      exact h.fresh d hd (hc.trans (hcur _ ht))
  · rcases hret u hu with hold | ⟨hc, hp⟩
    · rcases h.covered u hold with hin | ⟨hc, hp⟩
      · exact .inl hin
      · refine .inr ?_
        rcases eq_or_ne u.1 t with ht | ht
        · rw [ht] at hc hp ⊢
          obtain ⟨hc', hp'⟩ := hkeep hp (by rw [Sys.me, ← hc]; exact hold)
          exact ⟨hc.trans hc'.symm, by rw [hself]; exact hp'⟩
        · exact ⟨hc.trans (hcur _ ht).symm, by rw [hstrand _ ht]; exact hp⟩
    · have ht : u.1 = t := congrArg Prod.fst hc
      refine .inr ⟨?_, ?_⟩
      · rw [ht]
        exact hc
      · rw [ht, hself]
        exact hp
  · rcases eq_or_ne t' t with rfl | ht
    · rw [hself]
      exact hle
    · rw [hstrand t' ht]
      exact h.entered.1 t'
  · have hf' := List.mem_of_mem_take hf
    have hold := h.before d hd f hf r
    rw [← hfin d hd, ← hfin f hf'] at hold
    exact hold hr
  · have hr' : (ρ.sys.att f.tx).returned = some r := hfin f (List.mem_of_mem_take hf) ▸ hr
    rcases eq_or_ne t' t with rfl | ht
    · rw [hself] at hp hf
      exact hrun hp f hf r hr'
    · rw [hstrand t' ht] at hp hf
      rw [show (ρ.put cfg t σ' s).sys = σ' from rfl, hme t' ht]
      exact h.running t' hp f hf r hr'

/-- The thread moves on by itself, outside the library. -/
theorem Runtime.Ok.move (h : ρ.Ok code)
    (hs : s.Ok code (ρ.sys.th t) (ρ.sys.me t)) (hle : s.entered ≤ ρ.finished.length)
    (hp : s.place.running = true →
      (ρ.strand t).place.running = true ∧ s.entered = (ρ.strand t).entered)
    (hk : (ρ.strand t).place.running = true → (ρ.sys.me t).returned ≠ none →
      s.place.running = true) : (ρ.put cfg t ρ.sys s).Ok code := by
  refine h.put (fun _ _ => rfl) (fun _ _ => rfl) (fun _ _ => rfl) (fun _ hu => .inl hu)
    (fun hrun hr => ⟨rfl, hk hrun hr⟩) hs hle (fun hrun d hd hc => ?_) fun hrun => ?_
  · have ht : d.tx.1 = t := congrArg Prod.fst hc
    have hf := h.fresh d hd (by rw [ht]; exact hc)
    rw [ht, (hp hrun).1] at hf
    cases hf
  · rw [(hp hrun).2]
    exact h.running t (hp hrun).1

/-- The library takes a step of thread `t`. -/
theorem Runtime.Ok.lib (h : ρ.Ok code) (hg : ρ.sys.Good cfg)
    (hstep : DstmP1.step cfg ρ.sys a = some σ') (hs : Strand.Follows code (ρ.strand a.tid) s
      (ρ.sys.th a.tid) (ρ.sys.me a.tid) (σ'.th a.tid) (σ'.me a.tid)) :
    (ρ.put cfg a.tid σ' s).Ok code := by
  have hr := step_rule hstep
  have hb := hr.sameBut (delivers hg.ok.local_ok hg.ok.descs)
  have hcur : σ'.cur a.tid = ρ.sys.cur a.tid := by rw [Sys.cur, Sys.cur, hs.round]
  refine h.put hb.th (fun t' ht => hb.me ht) (fun u hu => hr.att_returned hg hu) (fun u hu => ?_)
    (fun hrun hr => ⟨hcur, hs.keeps hrun hr⟩) hs.ok (hs.entered ▸ h.entered.1 _)
    (fun hrun d hd hc => ?_) fun hrun f hf r hfr => ?_
  · by_cases hcu : u = σ'.cur u.1
    · by_cases ht : u.1 = a.tid
      · rw [ht] at hcu
        by_cases hrun : s.place.running = true
        · exact .inr ⟨hcu, hrun⟩
        · have hold := hs.returned (by rw [Sys.me, ← hcu]; exact hu) (by simpa using hrun)
          rw [Sys.me, ← hcur, ← hcu] at hold
          exact .inl hold
      · rw [hb.att u ht] at hu
        exact .inl hu
    · rw [hr.att_ne hcu] at hu
      exact .inl hu
  · rw [hcur] at hc
    have ht : d.tx.1 = a.tid := congrArg Prod.fst hc
    have hf := h.fresh d hd (by rw [ht]; exact hc)
    rw [ht, hs.running hrun] at hf
    cases hf
  · rw [hs.began]
    rw [hs.entered] at hf
    exact h.running _ (hs.running hrun) f hf r hfr

/-- The same with the new thread and record given. -/
theorem Runtime.Ok.upd (h : ρ.Ok code) (hg : ρ.sys.Good cfg)
    (hstep : DstmP1.step cfg ρ.sys a = some σ') {th : Thread cfg.segs} {me : Attempt cfg.segs}
    (hth : σ'.th = (ρ.sys.upd a.tid th me).th) (hatt : σ'.att = (ρ.sys.upd a.tid th me).att)
    (hs : Strand.Follows code (ρ.strand a.tid) s (ρ.sys.th a.tid) (ρ.sys.me a.tid) th me) :
    (ρ.put cfg a.tid σ' s).Ok code :=
  h.lib hg hstep (Sys.lift hs hth hatt)

/-- An event is a step of the system, or the system stays as it is. -/
theorem Runtime.step_sys {e : Event cfg.segs A} (h : ρ.step cfg code e = some ρ') :
    match ρ.act cfg code e with
    | some a => DstmP1.step cfg ρ.sys a = some ρ'.sys
    | none => ρ'.sys = ρ.sys := by
  cases e with
  | newTx t ptr =>
    simp only [Runtime.step] at h
    split at h
    · obtain ⟨σ, hs, rfl⟩ := Option.map_eq_some_iff.1 h
      exact hs
    · cases h
  | save t b =>
    simp only [Runtime.step] at h
    split at h <;> cases h
    rfl
  | begin t =>
    simp only [Runtime.step] at h
    split at h
    · obtain ⟨σ, hs, rfl⟩ := Option.map_eq_some_iff.1 h
      exact hs
    · cases h
  | call t =>
    simp only [Runtime.step] at h
    split at h
    · next hk hp =>
      split at h
      · next op k hc =>
        obtain ⟨σ, hs, rfl⟩ := Option.map_eq_some_iff.1 h
        simp only [Runtime.act, hp, hc]
        exact hs
      · cases h
    · cases h
  | ret t =>
    simp only [Runtime.step] at h
    split at h <;> cases h
    rfl
  | commit t o =>
    simp only [Runtime.step] at h
    split at h
    · split at h
      · obtain ⟨σ, hs, rfl⟩ := Option.map_eq_some_iff.1 h
        exact hs
      · cases h
    · cases h
  | restart t j =>
    simp only [Runtime.step] at h
    split at h <;> cases h <;> rfl
  | finish t =>
    simp only [Runtime.step] at h
    split at h
    · obtain ⟨σ, hs, rfl⟩ := Option.map_eq_some_iff.1 h
      exact hs
    · cases h
  | lib a =>
    simp only [Runtime.step] at h
    split at h
    · obtain ⟨σ, hs, rfl⟩ := Option.map_eq_some_iff.1 h
      exact hs
    · cases h

/-- The runs of the runtime are runs of the system. -/
theorem Runtime.reach_sys {objs : Flat} {locks : Loc → Word} {clock : ℕ → Word}
    {ok : Sys cfg.segs → Act cfg.segs → Sys cfg.segs → Prop}
    (h : (Runtime.lts cfg code objs locks clock).Reach (Runtime.Lift cfg code ok) ρ) :
    (cfg.ltsFrom objs locks clock).Reach ok ρ.sys := by
  refine h.induct (I := fun ρ => (cfg.ltsFrom objs locks clock).Reach ok ρ.sys) (fun ρ h0 => ?_)
    fun ρ e ρ' _ ih hs hok => ?_
  · rw [show ρ = _ from h0]
    exact .init rfl
  · have hstep := Runtime.step_sys hs
    cases hact : ρ.act cfg code e with
    | none =>
      rw [hact] at hstep
      dsimp only at hstep
      rw [hstep]
      exact ih
    | some a =>
      rw [hact] at hstep
      exact ih.step hstep (hok a hact)

/-- A new descriptor. -/
theorem Runtime.Ok.newTx (h : ρ.Ok code) (hg : ρ.sys.Good cfg) {ptr : Word}
    (hs : ρ.step cfg code (.newTx t ptr) = some ρ') : ρ'.Ok code := by
  simp only [Runtime.step] at hs
  split at hs
  · next hkey hown =>
    obtain ⟨σ, hstep, rfl⟩ := Option.map_eq_some_iff.1 hs
    have hp := (h.strands t).place
    have hstep' := hstep
    simp only [DstmP1.step] at hstep
    split at hstep <;> cases hstep
    next hpc _ _ _ =>
    refine h.upd hg hstep' rfl rfl
      ⟨⟨rfl, ?_⟩, rfl, rfl, rfl, fun hr _ => hr, fun hr => hr, fun hr _ => hr⟩
    cases hpl : (ρ.strand t).place with
    | outside => exact hpc
    | saved b now =>
      rw [hpl] at hp
      exact ⟨hpc, hp.2⟩
    | inside b c =>
      rw [hpl] at hp
      rw [hp.1] at hpc
      cases hpc
    | calling b op k | committing b r =>
      rw [hpl] at hown
      cases hown
  · cases hs

/-- The checkpoint of a block. -/
theorem Runtime.Ok.save (h : ρ.Ok code) {b : A}
    (hs : ρ.step cfg code (.save t b) = some ρ') : ρ'.Ok code := by
  simp only [Runtime.step] at hs
  split at hs
  · next hkey hpl =>
    cases hs
    have hst := h.strands t
    have hp := hst.place
    rw [hpl] at hp
    refine h.move ⟨hst.key, hp, rfl⟩ (Nat.le_refl _) (fun hr => by cases hr) fun hr _ => ?_
    rw [hpl] at hr
    cases hr
  · cases hs

/-- A transaction begins. -/
theorem Runtime.Ok.begin (h : ρ.Ok code) (hg : ρ.sys.Good cfg) (htime : ρ.sys.TimeOk)
    (hs : ρ.step cfg code (.begin t) = some ρ') : ρ'.Ok code := by
  simp only [Runtime.step] at hs
  split at hs
  · next w b now hkey hpl =>
    obtain ⟨σ, hstep, rfl⟩ := Option.map_eq_some_iff.1 hs
    have hstart := (h.strands t).place
    rw [hpl] at hstart
    have hr := step_rule hstep
    have hb := hr.sameBut (delivers hg.ok.local_ok hg.ok.descs)
    have hnew := hg.att.new (t, (ρ.sys.th t).round + 1) (Nat.lt_succ_self _)
    have hkey := (h.strands t).key
    obtain ⟨hpc, hthis, hround, hme, hatt⟩ := step_begin hstep
    have hcur : σ.cur t = (t, (ρ.sys.th t).round + 1) := by rw [Sys.cur, hround]
    refine h.put hb.th (fun t' ht => hb.me ht) (fun u hu => hr.att_returned hg hu)
      (fun u hu => ?_) (fun hrun => ?_) ⟨hkey.trans hthis.symm, hpc, ?_⟩ (h.entered.1 t)
      (fun _ d hd hc => ?_) fun _ f hf r hfr => ?_
    · rcases eq_or_ne u (t, (ρ.sys.th t).round + 1) with rfl | hne
      · rw [← hcur, ← Sys.me, hme] at hu
        exact absurd rfl hu
      · rw [hatt u hne] at hu
        exact .inl hu
    · rw [hpl] at hrun
      cases hrun
    · rw [hme, hstart.2]
      exact .nil
    · have hret := (h.finished d hd).1
      rw [hc, hcur, hnew] at hret
      exact hret rfl
    · rw [hme]
      exact htime.returned f.tx r hfr
  · cases hs

/-- `read` or `write` is called. -/
theorem Runtime.Ok.call (h : ρ.Ok code) (hg : ρ.sys.Good cfg)
    (hs : ρ.step cfg code (.call t) = some ρ') : ρ'.Ok code := by
  simp only [Runtime.step] at hs
  split at hs
  · next w b c hkey hpl =>
    split at hs
    · next op k hc =>
      obtain ⟨σ, hstep, rfl⟩ := Option.map_eq_some_iff.1 hs
      have hst := h.strands t
      have hp := hst.place
      rw [hpl] at hp
      have hnone := (hg.att.running (t := t) (by rw [hp.1]; simp)).1
      have hfol : ∀ {th : Thread cfg.segs} {me : Attempt cfg.segs},
          th.this = (ρ.sys.th t).this → th.round = (ρ.sys.th t).round →
          me.began = (ρ.sys.me t).began → (th.pc.stage = .calling op ∧
            me.ops = (ρ.sys.me t).ops ∨
              th.pc = .active ∧ ∃ v, me.ops = (ρ.sys.me t).ops ++ [(op, v)]) →
          Strand.Follows code (ρ.strand t) { ρ.strand t with place := .calling b op k }
            (ρ.sys.th t) (ρ.sys.me t) th me := fun hthis hround hbegan hops =>
        ⟨⟨hst.key.trans hthis.symm, .inr ⟨c, _, hc, hp.2, hops⟩⟩, rfl, hround, hbegan,
          (fun _ hr => by cases hr), (fun _ => by rw [hpl]; rfl), fun _ _ => rfl⟩
      have hstep' := hstep
      simp only [DstmP1.step] at hstep
      split at hstep <;> cases hstep
      next hpc _ =>
      rw [stepCall] at hstep' ⊢
      split
      · next tx r hsv =>
        rw [hsv] at hstep'
        exact h.upd hg hstep' rfl rfl (hfol rfl rfl rfl (.inr ⟨hpc, r, rfl⟩))
      · next hsv =>
        rw [hsv] at hstep'
        exact h.upd hg hstep' rfl rfl (hfol rfl rfl rfl (.inl ⟨rfl, rfl⟩))
    · cases hs
  · cases hs

/-- A call returns to the block. -/
theorem Runtime.Ok.ret (h : ρ.Ok code) (hs : ρ.step cfg code (.ret t) = some ρ') :
    ρ'.Ok code := by
  simp only [Runtime.step] at hs
  split at hs
  · next b op k x hpl hpc hx =>
    cases hs
    have hst := h.strands t
    have hp := hst.place
    rw [hpl] at hp
    refine h.move ⟨hst.key, hpc, ?_⟩ (h.entered.1 t) (fun _ => ⟨by rw [hpl]; rfl, rfl⟩)
      fun _ _ => rfl
    rcases hp with ⟨hi, -⟩ | ⟨c, l, hc, hd, ⟨hs, -⟩ | ⟨-, v, hv⟩⟩
    · rw [hpc] at hi
      cases hi
    · rw [hpc] at hs
      cases hs
    · rw [hv, List.getLast?_concat] at hx
      cases hx
      rw [hv]
      exact hd.concat hc v
  · cases hs

/-- `commit` is called. -/
theorem Runtime.Ok.commit (h : ρ.Ok code) (hg : ρ.sys.Good cfg) {o : Tx.Orders}
    (hs : ρ.step cfg code (.commit t o) = some ρ') : ρ'.Ok code := by
  simp only [Runtime.step] at hs
  split at hs
  · next w b c hkey hpl =>
    split at hs
    · next r hc =>
      obtain ⟨σ, hstep, rfl⟩ := Option.map_eq_some_iff.1 hs
      have hst := h.strands t
      have hp := hst.place
      rw [hpl] at hp
      have hstep' := hstep
      simp only [DstmP1.step] at hstep
      split at hstep
      · split at hstep <;> cases hstep
        exact h.upd hg hstep' rfl rfl ⟨⟨hst.key, .inr ⟨c, hc, hp.2, .inl rfl⟩⟩, rfl, rfl, rfl,
          (fun _ hr => by cases hr), (fun _ => by rw [Act.tid, hpl]; rfl), fun _ _ => rfl⟩
      · cases hstep
    · cases hs
  · cases hs

/-- `abort` jumps back to the checkpoint. -/
theorem Runtime.Ok.restart (h : ρ.Ok code) (hcode : code.Restartable) {j : A}
    (hs : ρ.step cfg code (.restart t j) = some ρ') : ρ'.Ok code := by
  have hst := h.strands t
  have hp := hst.place
  simp only [Runtime.step] at hs
  split at hs
  · next b op k hpl hpc ha =>
    cases hs
    rw [hpl] at hp
    refine h.move ⟨hst.key, hpc, hcode b j⟩ (h.entered.1 t) (fun hr => by cases hr)
      fun _ hret => ?_
    rcases hp with ⟨-, -, hr⟩ | ⟨c, l, hc, hd, ⟨hs, -⟩ | ⟨hact, -⟩⟩
    · exact absurd hr hret
    · rw [hpc] at hs
      cases hs
    · rw [hpc] at hact
      cases hact
  · next b r hpl hpc ha =>
    cases hs
    rw [hpl] at hp
    refine h.move ⟨hst.key, hpc, hcode b j⟩ (h.entered.1 t) (fun hr => by cases hr)
      fun _ hret => ?_
    rcases hp with ⟨-, -, hr⟩ | ⟨c, hc, hd, hs | ⟨-, -, hn⟩⟩
    · exact absurd hr hret
    · rw [hpc] at hs
      cases hs
    · rw [ha] at hn
      cases hn
  · cases hs

/-- A block is finished, and its descriptor deleted. -/
theorem Runtime.Ok.finish (h : ρ.Ok code) (hs : ρ.step cfg code (.finish t) = some ρ') :
    ρ'.Ok code := by
  simp only [Runtime.step] at hs
  split at hs
  · next b r n hpl hpc hret =>
    obtain ⟨σ, hstep, rfl⟩ := Option.map_eq_some_iff.1 hs
    have hp := (h.strands t).place
    rw [hpl] at hp
    obtain ⟨c, hc, hd⟩ : ∃ c, code.next c = .done r ∧
        Does code.next (code.start b) (ρ.sys.me t).ops c := by
      rcases hp with ⟨-, -, hn⟩ | ⟨c, hc, hd, -⟩
      · rw [hret] at hn
        cases hn
      · exact ⟨c, hc, hd⟩
    have hrun : (ρ.strand t).place.running = true := by rw [hpl]; rfl
    -- Nothing changes but the descriptor of the thread.
    obtain ⟨hatt, hth, hthis, hidle, hround⟩ := step_delete hstep
    have hcur : ∀ t', σ.cur t' = ρ.sys.cur t' := fun t' => by
      rcases eq_or_ne t' t with rfl | ht
      · rw [Sys.cur, Sys.cur, hround]
      · rw [Sys.cur, Sys.cur, hth t' ht]
    have hme : ∀ t', σ.me t' = ρ.sys.me t' := fun t' => by rw [Sys.me, Sys.me, hcur, hatt]
    have hnew : ∀ d ∈ ρ.finished, d.tx ≠ ρ.sys.cur t := by
      intro d hd he
      have ht : d.tx.1 = t := congrArg Prod.fst he
      have hf := h.fresh d hd (by rw [ht]; exact he)
      rw [ht, hrun] at hf
      cases hf
    have hself : ∀ s, Function.update ρ.strand t s t = s := fun s => Function.update_self ..
    have hother : ∀ s, ∀ t' ≠ t, Function.update ρ.strand t s t' = ρ.strand t' :=
      fun s t' ht => Function.update_of_ne ht ..
    have htake : ∀ {n}, n ≤ ρ.finished.length → ∀ l, (ρ.finished ++ l).take n =
        ρ.finished.take n := fun hn l => List.take_append_of_le_length hn
    refine ⟨fun t' => ?_, fun d hd => ?_, fun d hd he => ?_, ?_, fun u hu => ?_,
      ⟨fun t' => ?_, fun d hd => ?_⟩, fun d hd f hf => ?_, fun t' hrun' f hf => ?_⟩ <;>
      simp only [Runtime.put] at *
    · rcases eq_or_ne t' t with rfl | ht
      · rw [hself]
        exact ⟨hthis.symm, hidle.trans hpc⟩
      · rw [hother _ t' ht, hth t' ht, hme]
        exact h.strands t'
    · rw [hatt]
      rcases List.mem_append.1 hd with hd | hd
      · exact h.finished d hd
      · rw [List.mem_singleton.1 hd]
        exact ⟨by rw [← Sys.me, hret]; exact Option.some_ne_none _, c, hc, ‹_›⟩
    · rcases eq_or_ne d.tx.1 t with ht | ht
      · rw [ht, hself]
        rfl
      · rw [hother _ _ ht]
        rw [hcur] at he
        rcases List.mem_append.1 hd with hd | hd
        · exact h.fresh d hd he
        · rw [List.mem_singleton.1 hd] at ht
          exact absurd rfl ht
    · rw [List.map_append, List.nodup_append]
      refine ⟨h.nodup, List.nodup_singleton _, fun u hu v hv => ?_⟩
      obtain ⟨d, hd, rfl⟩ := List.mem_map.1 hu
      rw [List.mem_singleton.1 hv]
      exact hnew d hd
    · rw [hatt] at hu
      rw [List.map_append, List.mem_append, hcur]
      rcases h.covered u hu with hin | ⟨he, hp⟩
      · exact .inl (.inl hin)
      · rcases eq_or_ne u.1 t with ht | ht
        · rw [ht] at he
          exact .inl (.inr (List.mem_singleton.2 he))
        · rw [hother _ _ ht]
          exact .inr ⟨he, hp⟩
    · rw [List.length_append]
      rcases eq_or_ne t' t with rfl | ht
      · rw [hself]
        exact (h.entered.1 t').trans (Nat.le_add_right _ _)
      · rw [hother _ _ ht]
        exact (h.entered.1 t').trans (Nat.le_add_right _ _)
    · rw [List.length_append]
      rcases List.mem_append.1 hd with hd | hd
      · exact (h.entered.2 d hd).trans (Nat.le_add_right _ _)
      · rw [List.mem_singleton.1 hd]
        exact (h.entered.1 t).trans (Nat.le_add_right _ _)
    · rw [hatt]
      rcases List.mem_append.1 hd with hd | hd
      · rw [htake (h.entered.2 d hd)] at hf
        exact h.before d hd f hf
      · rw [List.mem_singleton.1 hd] at hf ⊢
        rw [htake (h.entered.1 t)] at hf
        exact h.running t hrun f hf
    · rcases eq_or_ne t' t with rfl | ht
      · rw [hself] at hrun'
        cases hrun'
      · rw [hother _ _ ht] at hrun' hf
        rw [htake (h.entered.1 t')] at hf
        rw [hatt, hme]
        exact h.running t' hrun' f hf
  · cases hs

/-- The library or a handler takes a step. -/
theorem Runtime.Ok.inner (h : ρ.Ok code) (hg : ρ.sys.Good cfg)
    (hs : ρ.step cfg code (.lib a) = some ρ') : ρ'.Ok code := by
  simp only [Runtime.step] at hs
  split at hs
  · next ha =>
    obtain ⟨σ, hstep, rfl⟩ := Option.map_eq_some_iff.1 hs
    have hst := h.strands a.tid
    have hi := step_inner hstep ha hg
    obtain ⟨hthis, hround, hbegan⟩ := step_inner_same hstep ha hg.ok
    have hok := hst.place.inner hi
    have hput : ({ ρ with sys := σ } : Runtime cfg.segs A B R) =
        ρ.put cfg a.tid σ (ρ.strand a.tid) := by
      rw [Runtime.put, Function.update_eq_self]
    rw [hput]
    refine h.lib hg hstep ⟨⟨hst.key.trans hthis.symm, hok⟩, rfl, hround, hbegan,
      fun hr hp => ?_, fun hr => hr, fun hr _ => hr⟩
    -- Outside its blocks a thread is not inside a transaction.
    have hpc : (ρ.sys.th a.tid).pc = .idle := by
      have hpl := hst.place
      cases hplace : (ρ.strand a.tid).place with
      | outside =>
        rw [hplace] at hpl
        exact hpl
      | saved b now =>
        rw [hplace] at hpl
        exact hpl.1
      | inside b c | calling b op k | committing b r =>
        rw [hplace] at hp
        cases hp
    have hme := (step_rule hstep).me_idle hg.ok hpc hround
    rw [hme] at hr
    exact hr
  · cases hs

theorem Runtime.Ok.step (h : ρ.Ok code) (hcode : code.Restartable) (hg : ρ.sys.Good cfg)
    (htime : ρ.sys.TimeOk) {e : Event cfg.segs A} (hs : ρ.step cfg code e = some ρ') :
    ρ'.Ok code := by
  cases e with
  | newTx t ptr => exact h.newTx hg hs
  | save t b => exact h.save hs
  | begin t => exact h.begin hg htime hs
  | call t => exact h.call hg hs
  | ret t => exact h.ret hs
  | commit t o => exact h.commit hg hs
  | restart t j => exact h.restart hcode hs
  | finish t => exact h.finish hs
  | lib a => exact h.inner hg hs

/-- The runtime and the system fit together in every run. -/
theorem Runtime.reach_ok {objs : Flat} {locks : Loc → Word} {clock : ℕ → Word}
    {ok : Sys cfg.segs → Act cfg.segs → Sys cfg.segs → Prop} (hcode : code.Restartable)
    (h : (Runtime.lts cfg code objs locks clock).Reach (Runtime.Lift cfg code ok) ρ) :
    ρ.Ok code := by
  refine h.induct (fun ρ h0 => ?_) fun ρ e ρ' hr ih hs _ => ?_
  · rw [show ρ = _ from h0]
    exact .start objs locks clock
  · obtain ⟨hg, -, htime⟩ := reach_records (Runtime.reach_sys hr)
    exact ih.step hcode hg htime hs

end

end DstmP1
