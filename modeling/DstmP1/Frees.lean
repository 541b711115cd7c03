import DstmP1.Heap
import DstmP1.Ownership

/-!
# Freeing inside a transaction

The resolver of indirect calls returns `dstm_free` itself, so a transaction body that calls it
clears memory at once, or when a message is handled on the node of the block; `abort` empties the
read set and the write set and does not know of it. `FreeSys` is the system with these calls.

`kept u` is what the objects would hold if transaction `u` had called no `dstm_free`. `Undone` and
`Hidden` are what a transaction that frees may expect: once it has aborted, its blocks hold what
they would hold without its calls, and until it has committed no other transaction reads anything
else. `reach_freesUndone` proves both of runs in which `dstm_free` clears for a transaction that
has not committed only what is zero already. A step that clears more shows in memory, and the
transaction may abort next.
-/

namespace DstmP1

open Segments (Loc)

/-! ## The system with `dstm_free` -/

structure FreeSys (g : Segments) where
  sys : Sys g
  /-- The `dstm_free` requests under way, each with the transaction that called it, if it was
  called inside one, and the pointer. -/
  requests : List (Option (Tid × ℕ) × Word)
  /-- The blocks each transaction has freed. -/
  freed : Tid × ℕ → List Word
  /-- The object bytes as they would be without the calls of a transaction. -/
  kept : Tid × ℕ → Flat

inductive FreeAct (g : Segments) where
  | sys (a : Act g)
  /-- `dstm_free(ptr)` is called by thread `t`, inside or outside a transaction. -/
  | free (t : Tid) (ptr : Word)
  /-- The `j`-th request is handled. -/
  | handle (j : ℕ)

/-- What a step of the system does to object bytes. -/
def putsOf (cfg : Config) (σ : Sys cfg.segs) : Act cfg.segs → Flat → Flat
  | .run t c, m =>
    match (σ.th t).pc with
    | .commitWriteSetValues _ (p :: _) (k :: left) => m.put p.1 p.2 (pieceOf c.off c.n (k :: left))
    | _ => m
  | _, m => m

namespace FreeSys

def init (g : Segments) (objs : Flat) : FreeSys g :=
  ⟨Sys.init g objs, [], fun _ => [], fun _ => objs⟩

section
variable {g : Segments} (σ : FreeSys g)

/-- The transaction that thread `t` is inside. -/
def inside (t : Tid) : Option (Tid × ℕ) :=
  match (σ.sys.th t).pc with
  | .idle => none
  | _ => some (σ.sys.cur t)

/-- `memset` clears the first unit of `ptr` for `o`. -/
def clear (o : Option (Tid × ℕ)) (ptr : Word) : FreeSys g :=
  { σ with
    sys := { σ.sys with objs := σ.sys.objs.clear ptr }
    kept := fun u => if o = some u then σ.kept u else (σ.kept u).clear ptr }

/-- The call is noted for the transaction that makes it. -/
def note (o : Option (Tid × ℕ)) (ptr : Word) : FreeSys g :=
  { σ with freed := fun u => if o = some u then σ.freed u ++ [ptr] else σ.freed u }

end

section
variable (cfg : Config) (σ : FreeSys cfg.segs)

/-- `dstm_free`, called for `o` on node `node`. -/
def dstmFree (node : ℕ) (o : Option (Tid × ℕ)) (ptr : Word) : FreeSys cfg.segs :=
  if nodeFromAddress ptr = node then (σ.note o ptr).clear o ptr
  else { σ.note o ptr with requests := σ.requests ++ [(o, ptr)] }

/-- A transaction body calls `dstm_free` between two other calls. -/
def step : FreeAct cfg.segs → Option (FreeSys cfg.segs)
  | .sys a => (DstmP1.step cfg σ.sys a).map fun s =>
      { σ with sys := s, kept := fun u => putsOf cfg σ.sys a (σ.kept u) }
  | .free t ptr =>
    match (σ.sys.th t).pc, (σ.sys.th t).toCache with
    | .active, none | .idle, none => some (σ.dstmFree cfg (cfg.node t) (σ.inside t) ptr)
    | _, _ => none
  | .handle j =>
    (σ.requests[j]?).map fun r => { σ with requests := σ.requests.eraseIdx j }.clear r.1 r.2

def lts (objs : Flat) : Lts (FreeSys cfg.segs) (FreeAct cfg.segs) where
  init σ := σ = init cfg.segs objs
  step := step cfg

end

/-! ## Undone and hidden frees -/

section
variable {g : Segments} (σ : FreeSys g)

/-- The transaction has not committed. -/
def Open (u : Tid × ℕ) : Prop := (σ.sys.att u).returned = none

/-- The blocks that the transaction has freed hold what they would hold if it had not. -/
def Intact (u : Tid × ℕ) : Prop :=
  ∀ ptr ∈ σ.freed u, ∀ k,
    σ.sys.objs (Segments.cellLoc ptr k).1 (Segments.cellLoc ptr k).2 =
      σ.kept u (Segments.cellLoc ptr k).1 (Segments.cellLoc ptr k).2

/-- The frees of aborted transactions are undone. -/
def Undone : Prop := ∀ u, (σ.sys.att u).aborted = true → σ.Intact u

end

section
variable (cfg : Config) (σ : FreeSys cfg.segs)

/-- What a transaction reads next of a cell is what it would read if no other transaction that
has not committed had freed anything. -/
def Hidden : Prop :=
  ∀ t op version left buf, (σ.sys.th t).pc = .readCell op (.data version left buf) →
    ∀ u, u ≠ σ.sys.cur t → σ.Open u → ∀ off n,
      (Tx.cellArgs cfg.build.variant op).readPiece
          (σ.sys.objs (nodeFromAddress op.access.addr)) off n left buf =
        (Tx.cellArgs cfg.build.variant op).readPiece
          (σ.kept u (nodeFromAddress op.access.addr)) off n left buf

/-! ## The condition -/

/-- The block that a step clears, with the transaction it does it for. -/
def clears : FreeAct cfg.segs → Option (Option (Tid × ℕ) × Word)
  | .sys _ => none
  | .free t ptr => if nodeFromAddress ptr = cfg.node t then some (σ.inside t, ptr) else none
  | .handle j => σ.requests[j]?

/-- The first unit of the block is zero. -/
def zero (ptr : Word) : Bool :=
  (List.range (1 <<< MAU_SIZE)).all fun k =>
    σ.sys.objs (Segments.cellLoc ptr k).1 (Segments.cellLoc ptr k).2 == 0

/-- The call was made inside a transaction that has not committed. -/
def early (o : Option (Tid × ℕ)) : Bool := o.any fun u => (σ.sys.att u).returned.isNone

/-- A step that clears a block for a transaction that has not committed finds it zero. -/
def Quiet (a : FreeAct cfg.segs) (_ : FreeSys cfg.segs) : Prop :=
  (σ.clears cfg a).all (fun r => !σ.early cfg r.1 || σ.zero cfg r.2) = true

instance (a : FreeAct cfg.segs) (σ' : FreeSys cfg.segs) : Decidable (σ.Quiet cfg a σ') :=
  inferInstanceAs (Decidable (_ = true))

end

end FreeSys

/-! ## Steps of the system -/

section
variable {cfg : Config} {σ σ' : Sys cfg.segs} {a : Act cfg.segs} {t : Tid}

/-- Object bytes change by the puts of a commit only. -/
theorem step_objs (hs : step cfg σ a = some σ') : σ'.objs = putsOf cfg σ a σ.objs := by
  cases a with
  | run t c =>
    cases hpc : (σ.th t).pc with
    | commitWriteSetValues o puts left =>
      have hs := step_run hs
      rw [stepRun, hpc, Option.some.injEq] at hs
      rw [← hs, putsOf, hpc]
      cases puts with
      | nil => rfl
      | cons p puts => cases left <;> rfl
    | _ =>
      rw [putsOf, hpc]
      rcases (step_rule hs).objs with he | ⟨t', o, p, puts, left, off, n, rfl, hpc', -⟩
      · exact he
      · rw [Act.tid, hpc] at hpc'
        cases hpc'
  | _ => cases step_rule hs <;> rfl

/-- A thread that is not idle is inside a transaction that has not ended. -/
theorem Sys.AttOk.not_ended (ha : σ.AttOk) (hpc : (σ.th t).pc ≠ .idle) : ¬ (σ.me t).Ended := by
  have h := ha.cur t
  rw [EndedOk] at h
  split at h
  · exact absurd h.1 hpc
  · exact fun he => hpc (h.1 he)

/-- A record before and after a step: it ends in one way, or it does not change in this respect. -/
def Attempt.Ends {g : Segments} (me me' : Attempt g) : Prop :=
  me'.returned = me.returned ∧ me'.aborted = me.aborted ∨
    ¬ me.Ended ∧ (me'.returned = none ∨ me'.aborted = false)

/-- A step ends a transaction only if it has not ended before, and in one way. -/
theorem Rule.ends (hr : Rule cfg σ a σ') (ha : σ.AttOk) (u : Tid × ℕ) :
    (σ.att u).Ends (σ'.att u) := by
  have lift : ∀ {t : Tid} {th : Thread cfg.segs} {me : Attempt cfg.segs},
      σ'.att = (σ.upd t th me).att → (σ.att (t, th.round)).Ends me →
      (σ.att u).Ends (σ'.att u) := by
    intro t th me hatt hme
    rw [hatt]
    rcases eq_or_ne u (t, th.round) with rfl | hu
    · rwa [Sys.upd_att]
    · rw [Sys.upd_att_ne hu]
      exact .inl ⟨rfl, rfl⟩
  have hopen : ∀ {t : Tid}, (σ.th t).pc ≠ .idle →
      ¬ (σ.me t).Ended ∧ (σ.me t).returned = none ∧ (σ.me t).aborted = false := by
    intro t hpc
    have he := ha.not_ended hpc
    obtain ⟨hret, hab⟩ := not_or.1 he
    exact ⟨he, not_not.1 hret, Bool.eq_false_iff.2 hab⟩
  cases hr with
  | load | reply | lost => exact .inl ⟨rfl, rfl⟩
  | @begin t =>
    -- the record of a transaction that begins is new before it as well
    refine lift rfl ?_
    rw [ha.new _ (Nat.lt_succ_self _)]
    exact .inl ⟨rfl, rfl⟩
  | @abort _ t _ hpc =>
    obtain ⟨he, hret, -⟩ := hopen (t := t) fun h => by rw [h] at hpc; cases hpc
    exact lift rfl (.inr ⟨he, .inl hret⟩)
  | released hpc =>
    obtain ⟨he, hret, -⟩ := hopen (by rw [hpc]; exact nofun)
    exact lift rfl (.inr ⟨he, .inl hret⟩)
  | committed hpc =>
    obtain ⟨he, -, hab⟩ := hopen (by rw [hpc]; exact nofun)
    exact lift rfl (.inr ⟨he, .inr hab⟩)
  | _ => exact lift rfl (.inl ⟨rfl, rfl⟩)

/-- Object bytes do not matter to the other invariants. -/
theorem Sys.Good.setObjs (hg : σ.Good cfg) (m : Flat) : Sys.Good cfg { σ with objs := m } where
  ok := ⟨hg.ok.local_ok, hg.ok.descs, hg.ok.no_fault⟩
  att := ⟨hg.att.cur, hg.att.past, hg.att.new⟩
  own := ⟨hg.own.word, hg.own.excl⟩
  refused := hg.refused

end

/-! ## Runs -/

namespace FreeSys

section
variable {cfg : Config} {σ σ' : FreeSys cfg.segs} {a : FreeAct cfg.segs}

/-- What every run keeps: a transaction does not both abort and commit, and a request is for a
block that its transaction has freed. -/
structure Inv (cfg : Config) (σ : FreeSys cfg.segs) : Prop where
  good : σ.sys.Good cfg
  one_end : ∀ u, (σ.sys.att u).aborted = true → σ.Open u
  requests : ∀ r ∈ σ.requests, ∀ u, r.1 = some u → r.2 ∈ σ.freed u

/-- Memory shows nothing of the frees of a transaction that has not committed. -/
def Clean (σ : FreeSys cfg.segs) : Prop := ∀ u, σ.Open u → σ.kept u = σ.sys.objs

theorem Inv.init (objs : Flat) : Inv cfg (FreeSys.init cfg.segs objs) where
  good := .init objs
  one_end _ h := by cases h
  requests _ h := by cases h

theorem clean_init (objs : Flat) : Clean (FreeSys.init cfg.segs objs) := fun _ _ => rfl

/-! ### What a step does -/

theorem step_cases (hs : step cfg σ a = some σ') :
    (∃ b s, a = .sys b ∧ DstmP1.step cfg σ.sys b = some s ∧
      σ' = { σ with sys := s, kept := fun u => putsOf cfg σ.sys b (σ.kept u) }) ∨
    (∃ t ptr, a = .free t ptr ∧ σ' = σ.dstmFree cfg (cfg.node t) (σ.inside t) ptr) ∨
    ∃ j r, a = .handle j ∧ σ.requests[j]? = some r ∧
      σ' = { σ with requests := σ.requests.eraseIdx j }.clear r.1 r.2 := by
  cases a with
  | sys b =>
    obtain ⟨s, hb, he⟩ := Option.map_eq_some_iff.1 hs
    exact .inl ⟨b, s, rfl, hb, he.symm⟩
  | free t ptr =>
    simp only [step] at hs
    split at hs <;> cases hs <;> exact .inr (.inl ⟨t, ptr, rfl, rfl⟩)
  | handle j =>
    obtain ⟨r, hr, he⟩ := Option.map_eq_some_iff.1 hs
    exact .inr (.inr ⟨j, r, rfl, hr, he.symm⟩)

/-- A call does not touch threads and records. -/
theorem dstmFree_sys (cfg : Config) (σ : FreeSys cfg.segs) (node : ℕ) (o : Option (Tid × ℕ))
    (ptr : Word) :
    ∃ m, (σ.dstmFree cfg node o ptr).sys = { σ.sys with objs := m } := by
  rw [dstmFree]
  split
  · exact ⟨_, rfl⟩
  · exact ⟨_, rfl⟩

/-- A call is noted, whether it clears at once or sends a request. -/
theorem dstmFree_freed (node : ℕ) (o : Option (Tid × ℕ)) (ptr : Word) :
    (σ.dstmFree cfg node o ptr).freed = (σ.note o ptr).freed := by
  rw [dstmFree]
  split <;> rfl

theorem mem_note_self {u : Tid × ℕ} {ptr : Word} : ptr ∈ (σ.note (some u) ptr).freed u := by
  rw [note]
  dsimp only
  rw [if_pos rfl]
  exact List.mem_append_right _ List.mem_cons_self

theorem mem_note {o : Option (Tid × ℕ)} {u : Tid × ℕ} {ptr p : Word} (hp : p ∈ σ.freed u) :
    p ∈ (σ.note o ptr).freed u := by
  rw [note]
  dsimp only
  split
  · exact List.mem_append_left _ hp
  · exact hp

/-- The blocks a transaction has freed stay noted, and so do those of the requests. -/
theorem Inv.step (hi : Inv cfg σ) (hs : FreeSys.step cfg σ a = some σ') : Inv cfg σ' := by
  rcases step_cases hs with ⟨b, s, rfl, hb, rfl⟩ | ⟨t, ptr, rfl, rfl⟩ | ⟨j, r, rfl, hr, rfl⟩
  · have hrule := step_rule hb
    refine ⟨hi.good.step hrule, fun u hab => ?_, hi.requests⟩
    rcases hrule.ends hi.good.att u with ⟨hret, hab'⟩ | ⟨-, hret | hab'⟩
    · exact hret.trans (hi.one_end u (hab'.symm.trans hab))
    · exact hret
    · rw [hab] at hab'
      cases hab'
  · obtain ⟨m, hm⟩ := dstmFree_sys cfg σ (cfg.node t) (σ.inside t) ptr
    refine ⟨?_, fun u hab => ?_, fun r hr u hu => ?_⟩
    · rw [hm]
      exact hi.good.setObjs m
    · rw [Open, hm]
      rw [hm] at hab
      exact hi.one_end u hab
    · rw [dstmFree_freed]
      have hreq : r ∈ σ.requests ∨ r = (σ.inside t, ptr) := by
        rw [dstmFree] at hr
        split at hr
        · exact .inl hr
        · rcases List.mem_append.1 hr with hr | hr
          · exact .inl hr
          · exact .inr (List.mem_singleton.1 hr)
      rcases hreq with hr | rfl
      · exact mem_note (hi.requests r hr u hu)
      · rw [show σ.inside t = some u from hu]
        exact mem_note_self
  · exact ⟨hi.good.setObjs _, hi.one_end,
      fun r' hr' u hu => hi.requests r' (List.mem_of_mem_eraseIdx hr') u hu⟩

/-! ### The condition keeps memory clean -/

theorem early_eq_true {o : Option (Tid × ℕ)} :
    σ.early cfg o = true ↔ ∃ u, o = some u ∧ σ.Open u := by
  cases o with
  | none => exact ⟨nofun, nofun⟩
  | some u =>
    rw [early, Option.any_some, Option.isNone_iff_eq_none]
    exact ⟨fun h => ⟨u, rfl, h⟩, fun ⟨v, hv, h⟩ => Option.some.inj hv ▸ h⟩

/-- The bytes that clearing a block makes zero. -/
theorem clear_cellLoc (m : Flat) (ptr : Word) {k : ℕ} (hk : k < 1 <<< MAU_SIZE) :
    m.clear ptr (Segments.cellLoc ptr k).1 (Segments.cellLoc ptr k).2 = 0 := by
  have hk8 : k < 8 := hk
  rw [Flat.clear, Segments.cellLoc, if_pos]
  refine ⟨rfl, ?_⟩
  rw [BitVec.add_comm, BitVec.add_sub_cancel, BitVec.toNat_ofNat]
  exact lt_of_le_of_lt (Nat.mod_le _ _) hk

/-- Clearing a unit that is zero changes nothing. -/
theorem clear_of_zero {ptr : Word} (hz : σ.zero cfg ptr = true) :
    σ.sys.objs.clear ptr = σ.sys.objs := by
  funext n p
  rw [Flat.clear]
  split
  · next hp =>
    have h0 := List.all_eq_true.1 hz _ (List.mem_range.2 hp.2)
    rw [beq_iff_eq, Segments.cellLoc, BitVec.ofNat_toNat, BitVec.setWidth_eq, BitVec.add_comm,
      BitVec.sub_add_cancel, ← hp.1] at h0
    exact h0.symm
  · rfl

/-- A block is cleared for `o`. -/
theorem Clean.clear (hc : Clean σ) {o : Option (Tid × ℕ)} {ptr : Word}
    (hq : σ.early cfg o = true → σ.zero cfg ptr = true) : Clean (σ.clear o ptr) := by
  intro u hu
  show (if o = some u then σ.kept u else (σ.kept u).clear ptr) = σ.sys.objs.clear ptr
  rw [hc u hu]
  split
  · next ho => exact (clear_of_zero (hq (early_eq_true.2 ⟨u, ho, hu⟩))).symm
  · rfl

theorem Clean.step (hc : Clean σ) (hi : Inv cfg σ) (hs : FreeSys.step cfg σ a = some σ')
    (hq : σ.Quiet cfg a σ') : Clean σ' := by
  have hquiet : ∀ {o ptr}, σ.clears cfg a = some (o, ptr) → σ.early cfg o = true →
      σ.zero cfg ptr = true := by
    intro o ptr hcl he
    rw [Quiet, hcl, Option.all_some, he] at hq
    exact hq
  rcases step_cases hs with ⟨b, s, rfl, hb, rfl⟩ | ⟨t, ptr, rfl, rfl⟩ | ⟨j, r, rfl, hr, rfl⟩
  · intro u hu
    have hopen : σ.Open u := by
      rcases (step_rule hb).ends hi.good.att u with ⟨hret, -⟩ | ⟨he, -⟩
      · exact hret.symm.trans hu
      · exact not_not.1 (not_or.1 he).1
    show putsOf cfg σ.sys b (σ.kept u) = s.objs
    rw [hc u hopen, step_objs hb]
  · rw [dstmFree]
    split
    · next hn =>
      have hcl : σ.clears cfg (.free t ptr) = some (σ.inside t, ptr) := if_pos hn
      exact Clean.clear (σ := σ.note _ ptr) hc (hquiet hcl)
    · exact hc
  · exact Clean.clear (σ := { σ with requests := σ.requests.eraseIdx j }) hc (hquiet hr)

/-! ### A step that clears too early -/

/-- A block is cleared for `u` that holds something else. -/
theorem Clean.not_intact (hc : Clean σ) {u : Tid × ℕ} {ptr : Word} (hu : σ.Open u)
    (hz : σ.zero cfg ptr = false) (hp : ptr ∈ σ.freed u) :
    ¬ (σ.clear (some u) ptr).Intact u := by
  intro hint
  obtain ⟨k, hk, h0⟩ := List.all_eq_false.1 hz
  refine h0 (beq_iff_eq.2 ?_)
  have hk := List.mem_range.1 hk
  have he : σ.sys.objs.clear ptr (Segments.cellLoc ptr k).1 (Segments.cellLoc ptr k).2 =
      (if some u = some u then σ.kept u else (σ.kept u).clear ptr) (Segments.cellLoc ptr k).1
        (Segments.cellLoc ptr k).2 := hint ptr hp k
  rw [if_pos rfl, clear_cellLoc _ _ hk, hc u hu] at he
  exact he.symm

/-- What a step that does not meet the condition leaves behind. -/
theorem Clean.not_intact_of_step (hc : Clean σ) (hi : Inv cfg σ)
    (hs : FreeSys.step cfg σ a = some σ') (hq : ¬ σ.Quiet cfg a σ') :
    ∃ u, σ'.Open u ∧ ¬ σ'.Intact u := by
  obtain ⟨o, ptr, hcl, he, hz⟩ : ∃ o ptr, σ.clears cfg a = some (o, ptr) ∧
      σ.early cfg o = true ∧ σ.zero cfg ptr = false := by
    rw [Quiet] at hq
    cases hcl : σ.clears cfg a with
    | none =>
      rw [hcl] at hq
      exact absurd rfl hq
    | some r =>
      rw [hcl, Option.all_some, Bool.or_eq_true, Bool.not_eq_true', not_or, Bool.not_eq_false,
        Bool.not_eq_true] at hq
      exact ⟨r.1, r.2, rfl, hq⟩
  obtain ⟨u, rfl, hu⟩ := early_eq_true.1 he
  rcases step_cases hs with ⟨b, s, rfl, hb, rfl⟩ | ⟨t, p, rfl, rfl⟩ | ⟨j, r, rfl, hr, rfl⟩
  · cases hcl
  · rw [clears] at hcl
    split at hcl
    · next hn =>
      obtain ⟨hin, rfl⟩ := Prod.mk.inj (Option.some.inj hcl)
      rw [dstmFree, if_pos hn, hin]
      exact ⟨u, hu, Clean.not_intact (σ := σ.note (some u) p) hc hu hz mem_note_self⟩
    · cases hcl
  · obtain rfl : r = (some u, ptr) := Option.some.inj (hr.symm.trans hcl)
    have hp := hi.requests _ (List.mem_of_getElem? hr) u rfl
    exact ⟨u, hu, Clean.not_intact (σ := { σ with requests := σ.requests.eraseIdx j }) hc hu hz hp⟩

/-- A transaction that is between two calls may abort, which leaves its blocks as they are. -/
theorem rollback_intact (cfg : Config) {σ : FreeSys cfg.segs} {t : Tid}
    (hpc : (σ.sys.th t).pc = .active)
    (hcache : (σ.sys.th t).toCache = none) :
    ∃ σ', FreeSys.step cfg σ (.sys (.rollback t)) = some σ' ∧
      (σ'.sys.att (σ.sys.cur t)).aborted = true ∧
      (σ'.Intact (σ.sys.cur t) ↔ σ.Intact (σ.sys.cur t)) := by
  have hme : (σ.sys.abort t none).att (σ.sys.cur t) = { σ.sys.me t with aborted := true } :=
    Sys.upd_att
  refine ⟨{ σ with sys := σ.sys.abort t none }, ?_, ?_, Iff.rfl⟩
  · simp only [FreeSys.step, DstmP1.step, hpc, hcache, Option.map_some]
    rfl
  · dsimp only
    rw [hme]

/-- **Frees are undone and hidden** in every run in which `dstm_free` clears a block for a
transaction that has not committed only if its first unit is zero: once a transaction has
aborted, the blocks it has freed hold what they would hold if it had not, and until it has
committed no other transaction reads anything else. A step of such a run that does not meet the
condition leaves a block of a transaction that has not committed changed; if the transaction is
between two calls, it may abort next, and then its free is not undone. -/
theorem reach_freesUndone {objs : Flat} (h : (lts cfg objs).Reach (Quiet cfg) σ) :
    σ.Undone ∧ σ.Hidden cfg ∧
    ∀ a σ', FreeSys.step cfg σ a = some σ' → ¬ σ.Quiet cfg a σ' →
      ∃ u, σ'.Open u ∧ ¬ σ'.Intact u ∧
        (u = σ'.sys.cur u.1 → (σ'.sys.th u.1).pc = .active → (σ'.sys.th u.1).toCache = none →
          ∃ σ'', FreeSys.step cfg σ' (.sys (.rollback u.1)) = some σ'' ∧ ¬ σ''.Undone) := by
  have hinv : Inv cfg σ ∧ Clean σ := by
    refine h.induct (I := fun s => Inv cfg s ∧ Clean s) ?_ ?_
    · rintro _ rfl
      exact ⟨.init objs, clean_init objs⟩
    · intro s a s' _ ih hs hq
      exact ⟨ih.1.step hs, ih.2.step ih.1 hs hq⟩
  obtain ⟨hi, hc⟩ := hinv
  refine ⟨fun u hab ptr hp k => ?_, fun t op version left buf hpc u hu ho off n => ?_,
    fun a σ' hs hq => ?_⟩
  · rw [hc u (hi.one_end u hab)]
  · rw [hc u ho]
  · obtain ⟨u, hu, hint⟩ := hc.not_intact_of_step hi hs hq
    refine ⟨u, hu, hint, fun hcur hpc hcache => ?_⟩
    obtain ⟨σ'', hs'', hab, hiff⟩ := rollback_intact cfg hpc hcache
    rw [← hcur] at hab hiff
    exact ⟨σ'', hs'', fun hun => hint (hiff.1 (hun u hab))⟩

end

/-- The runs of `FreeSys` for a list of actions of the system. -/
def acts (l : List (Act (small ⟨.variant1, false⟩).segs)) :
    List (FreeAct (small ⟨.variant1, false⟩).segs) := l.map .sys

/-- A transaction frees a block of its own node and one of another node, both zero, and aborts;
the request is handled afterwards. -/
theorem freesUndone_zero : ∃ σ,
    (lts (small ⟨.variant1, false⟩) fun _ _ => 0).Reach (Quiet _) σ ∧
    (σ.sys.att (0, 1)).aborted = true ∧ σ.freed (0, 1) = [cellX.addr, cellY.addr] ∧
    σ.Intact (0, 1) := by
  have hrun : ((lts (small ⟨.variant1, false⟩) fun _ _ => 0).runIf (Quiet _)
      (FreeSys.init _ fun _ _ => 0) (acts [.new 0 16, .begin 0] ++
        [.free 0 cellX.addr, .free 0 cellY.addr, .sys (.rollback 0), .handle 0])).map
      (fun σ => ((σ.sys.att (0, 1)).aborted, σ.freed (0, 1))) =
      some (true, [cellX.addr, cellY.addr]) := by decide +kernel
  obtain ⟨σ, h, ho⟩ := Lts.Reach.of_runIf rfl hrun
  obtain ⟨hab, hfreed⟩ := Prod.mk.inj ho
  exact ⟨σ, h, hab, hfreed, (reach_freesUndone h).1 _ hab⟩

/-- The first byte that a thread would read next of its cell, and what it would be if transaction
`u` had freed nothing. -/
def nextByte (cfg : Config) (σ : FreeSys cfg.segs) (t : Tid) (u : Tid × ℕ) : Option (Byte × Byte) :=
  match (σ.sys.th t).pc with
  | .readCell op (.data _ left buf) => some
    (((Tx.cellArgs cfg.build.variant op).readPiece
      (σ.sys.objs (nodeFromAddress op.access.addr)) 0 64 left buf).2 0,
    ((Tx.cellArgs cfg.build.variant op).readPiece
      (σ.kept u (nodeFromAddress op.access.addr)) 0 64 left buf).2 0)
  | _ => none

/-- A thread writes 1 to the first block of its node and commits, and frees the block in its next
transaction. -/
def writeThenFree : List (FreeAct (small ⟨.variant1, false⟩).segs) :=
  acts (List.flatten [[.new 0 16, .begin 0, .call 0 (.write cellX (smallValue 1))], runs _ 0 5,
    [.commit 0 ⟨[], [cellX.block], []⟩], runs _ 0 3,
    [.handle 0 0, .handle 0 0, .handle 0 0, .deliver 0 0], runs _ 0 10, [.begin 0]]) ++
  [.free 0 cellX.addr]

/-- **Frees are neither undone nor hidden** after `writeThenFree`: another thread reads 0 there,
and so does everybody when the transaction has aborted. -/
theorem freesUndone_fails : (Heap.init.serve smallSegs 0 false 64).1 = some cellX.addr ∧
    (∃ σ, (lts (small ⟨.variant1, false⟩) fun _ _ => 0).Reach (fun _ _ _ => True) σ ∧
      ¬ σ.Hidden _) ∧
    ∃ σ, (lts (small ⟨.variant1, false⟩) fun _ _ => 0).Reach (fun _ _ _ => True) σ ∧
      ¬ σ.Undone := by
  have hread : ((lts (small ⟨.variant1, false⟩) fun _ _ => 0).run (FreeSys.init _ fun _ _ => 0)
      (writeThenFree ++ acts [.new 1 16, .begin 1, .call 1 (.read cellX),
        .run 1 ⟨0, 64, ⟨[], [], []⟩, 0⟩])).map
      (fun σ => (nextByte _ σ 1 (0, 2), σ.sys.cur 1, (σ.sys.att (0, 2)).returned)) =
      some (some (0, 1), (1, 1), none) := by decide +kernel
  have habort : ((lts (small ⟨.variant1, false⟩) fun _ _ => 0).run (FreeSys.init _ fun _ _ => 0)
      (writeThenFree ++ acts [.rollback 0])).map
      (fun σ => ((σ.sys.att (0, 2)).aborted, σ.freed (0, 2), σ.sys.objs 0 0x200040,
        σ.kept (0, 2) 0 0x200040)) = some (true, [cellX.addr], 0, 1) := by decide +kernel
  refine ⟨by decide +kernel, ?_, ?_⟩
  · obtain ⟨σ, h, ho⟩ := Lts.Reach.of_run rfl hread
    obtain ⟨hbyte, ho⟩ := Prod.mk.inj ho
    obtain ⟨hcur, hopen⟩ := Prod.mk.inj ho
    refine ⟨σ, h, fun hhid => ?_⟩
    rw [nextByte] at hbyte
    split at hbyte
    · next op version left buf hpc =>
      obtain ⟨h0, h1⟩ := Prod.mk.inj (Option.some.inj hbyte)
      rw [hhid 1 op version left buf hpc (0, 2) (by rw [hcur]; exact nofun) hopen 0 64, h1] at h0
      cases h0
    · cases hbyte
  · obtain ⟨σ, h, ho⟩ := Lts.Reach.of_run rfl habort
    simp only [Prod.mk.injEq] at ho
    obtain ⟨hab, hfreed, h0, h1⟩ := ho
    refine ⟨σ, h, fun hun => ?_⟩
    have he : σ.sys.objs 0 0x200040 = σ.kept (0, 2) 0 0x200040 :=
      hun (0, 2) hab cellX.addr (hfreed ▸ List.mem_cons_self) 0
    rw [h0, h1] at he
    cases he

end FreeSys

end DstmP1
