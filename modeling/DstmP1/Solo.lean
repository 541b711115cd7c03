import DstmP1.Overlaps
import DstmP1.Puts

/-!
# One transaction and the objects

Thread `t` runs one transaction while nobody else commits (`Alone`), with or without a version
cache, from any lock words and clocks. Nobody else changes the objects then, so its reads find them
as they were to begin with: in `VARIANT1` its calls are those of flat memory, in `VARIANT2` those of
`valueMemory`, and when `commit` has returned the objects are what its puts have made of them
(`reach_watched`).
-/

namespace DstmP1

open Atomic
open Segments (Loc)

/-! ## The runs -/

/-- The system before the transaction, with any objects, lock words and clocks. -/
def Sys.start (g : Segments) (objs : Flat) (locks : Loc → Word) (clock : ℕ → Word) : Sys g :=
  { Sys.init g objs with
    locks := locks
    clock := clock }

/-- The runs from there. -/
def Config.ltsFrom (cfg : Config) (objs : Flat) (locks : Loc → Word) (clock : ℕ → Word) :
    Lts (Sys cfg.segs) (Act cfg.segs) where
  init σ := σ = Sys.start cfg.segs objs locks clock
  step := step cfg

/-- `t` begins one transaction and does not give it up, and nobody else commits. -/
def Alone (cfg : Config) (t : Tid) (σ : Sys cfg.segs) (a : Act cfg.segs) (_ : Sys cfg.segs) :
    Prop :=
  match a with
  | .begin t' => t' = t → (σ.th t).round = 0
  | .commit t' _ => t' = t
  | .rollback t' => t' ≠ t
  | _ => True

instance (cfg : Config) (t : Tid) (σ σ' : Sys cfg.segs) (a : Act cfg.segs) :
    Decidable (Alone cfg t σ a σ') :=
  match a with
  | .begin t' => inferInstanceAs (Decidable (t' = t → (σ.th t).round = 0))
  | .commit t' _ => inferInstanceAs (Decidable (t' = t))
  | .rollback t' => inferInstanceAs (Decidable (t' ≠ t))
  | .new _ _ | .call _ _ | .delete _ | .run _ _ | .addVersion _ | .handle _ _ | .deliver _ _ =>
    inferInstanceAs (Decidable True)

/-- The same when `commit` puts the values written in an order in `R`. -/
def AloneBy (cfg : Config) (t : Tid) (R : List Word → Prop) (σ : Sys cfg.segs) (a : Act cfg.segs)
    (σ' : Sys cfg.segs) : Prop :=
  Alone cfg t σ a σ' ∧ ∀ o, a = .commit t o → R o.vs

/-! ## What holds of them -/

section
variable {g : Segments}

/-- The call that is going on. -/
def Pc.call : Pc g → Option (Op g)
  | .readCell op _ | .increaseClock op _ _ _ | .validateStart op _ _ | .validate op _ _ _ _ =>
    some op
  | _ => none

/-- What the call that is going on has read, when `base` are the objects. -/
def Reading (v : Variant) (base : Flat) : Pc g → Prop
  | .readCell op (.data _ left buf) =>
    (Tx.cellArgs v op).Filled left buf (base.cell op.access.block)
  | .increaseClock op _ buf _ | .validateStart op _ buf | .validate op _ buf _ _ =>
    (Tx.cellArgs v op).Filled [] buf (base.cell op.access.block)
  | _ => True

/-- The entries of a `VARIANT2` transaction are those that its calls have made, and a call that is
going on has found none at its address. -/
structure EntriesOk (base : Flat) (th : Thread g) (me : Attempt g) : Prop where
  idle : th.pc = .idle → th.tx.writeSetValues = ∅
  running : th.pc ≠ .idle → (valueMemory g base).Gives ∅ me.ops th.tx.writeSetValues
  call : ∀ op, th.pc.call = some op → th.tx.writeSetValues.lookup op.access.addr = none

/-- The maps are those that the calls have made. -/
def MapsOk (v : Variant) (base : Flat) (th : Thread g) (me : Attempt g) : Prop :=
  match v with
  | .variant1 => RunOk th me ∧ base.Agrees me.seen
  | .variant2 => EntriesOk base th me

/-- The calls have returned what they return on `base`. -/
def Sound (v : Variant) (base : Flat) (ops : List (Op g × List Byte)) : Prop :=
  match v with
  | .variant1 => ∃ m, replay base ops = some m
  | .variant2 => ∃ vs, (valueMemory g base).Gives ∅ ops vs

/-- The objects are what the calls and a commit have made of `base`. -/
def Leaves (v : Variant) (R : List Word → Prop) (base : Flat) (ops : List (Op g × List Byte))
    (objs : Flat) : Prop :=
  match v with
  | .variant1 => replay base ops = some objs
  | .variant2 => ∃ vs k, (valueMemory g base).Gives ∅ ops vs ∧ k.Perm vs.keys ∧ R k ∧
      objs = base.putAll (entryPuts vs k)

/-- An order chosen for the puts is in `R`. -/
def Pc.OrderIn (R : List Word → Prop) : Pc g → Prop
  | .getLocks o _ _ | .requestLocks o _ _ _ _ _ | .waitLocks o _ _ _ _ | .validateAll o _ _ =>
    R o.vs
  | _ => True

/-- The objects when what is still to be put has been put. -/
def Pc.settled (objs : Flat) : Pc g → Flat
  | .commitWriteSetValues _ (p :: puts) left => (objs.put p.1 p.2 left).putAll puts
  | _ => objs

/-- The objects are `base` until the transaction puts its values. -/
structure ObjsOk (v : Variant) (R : List Word → Prop) (base objs : Flat) (th : Thread g)
    (me : Attempt g) : Prop where
  before : th.pc.writing = false → me.returned = none → objs = base
  written : th.pc.writing = true ∨ me.returned ≠ none →
    Leaves v R base me.ops (th.pc.settled objs)

end

/-- What holds of all runs in which `t` runs its transaction while nobody else commits. -/
structure Sys.Watched (cfg : Config) (t : Tid) (R : List Word → Prop) (base : Flat)
    (σ : Sys cfg.segs) : Prop where
  good : σ.Good cfg
  others : ∀ t' ≠ t, (σ.th t').pc.committing = false
  reading : Reading cfg.build.variant base (σ.th t).pc
  maps : MapsOk cfg.build.variant base (σ.th t) (σ.me t)
  sound : Sound cfg.build.variant base (σ.me t).ops
  order : (σ.th t).pc.OrderIn R
  objs : ObjsOk cfg.build.variant R base σ.objs (σ.th t) (σ.me t)

/-! ## What is put -/

section
variable {g : Segments} {m objs base : Flat} {addr : Word} {v : List Byte} {off n : ℕ}
  {left : List ℕ} {puts : List (Word × List Byte)} {o : Tx.Orders}

/-- All bytes of a value are put. -/
theorem Flat.put_range (m : Flat) (addr : Word) (v : List Byte) :
    m.put addr v (List.range v.length) = m.store addr v := by
  funext n q
  simp only [Flat.put, Flat.store, List.mem_range]
  by_cases hn : n = nodeFromAddress addr
  · by_cases hlt : (q - addrFromAddress addr).toNat < v.length
    · rw [if_pos ⟨hn, hlt⟩, if_pos hn]
    · rw [if_neg fun h => hlt h.2, if_pos hn, List.getD_eq_default _ _ (Nat.not_lt.1 hlt)]
  · rw [if_neg fun h => hn h.1, if_neg hn]

theorem Flat.put_nil (m : Flat) (addr : Word) (v : List Byte) : m.put addr v [] = m := by
  funext n q
  exact if_neg fun h => absurd h.2 List.not_mem_nil

/-- A piece and what it leaves are all. -/
theorem Flat.put_pieces (m : Flat) (addr : Word) (v : List Byte) (off n : ℕ) (left : List ℕ) :
    (m.put addr v (pieceOf off n left)).put addr v (pieceRest off n left) = m.put addr v left := by
  funext k q
  simp only [Flat.put, pieceOf, pieceRest, List.mem_filter, List.getD_eq_getElem?_getD]
  generalize (q - addrFromAddress addr).toNat = i
  by_cases hk : k = nodeFromAddress addr <;> by_cases hi : i ∈ left <;>
    cases decide (off ≤ i) && decide (i < off + n) <;> simp [hk, hi]

/-- Before the first byte of the next value all of them are still to be put. -/
theorem Pc.settled_start (o : Tx.Orders) (puts : List (Word × List Byte)) (objs : Flat) :
    (Pc.commitWriteSetValues (g := g) o puts (firstBytes puts)).settled objs =
      objs.putAll puts := by
  cases puts with
  | nil => rfl
  | cons p puts => rw [Pc.settled, firstBytes, Flat.put_range, Flat.putAll_cons]

/-- The puts of a `VARIANT1` commit make the memory that the descriptor tracks. -/
theorem Tx.Tracks.putAll_eq {tx : Tx} (h : tx.Tracks g base m) (ho : o.Of tx) :
    base.putAll (tx.commitValues .variant1 o) = m := by
  refine Flat.putAll_eq (fun p hp ℓ y hy => ?_) fun ℓ hne => ?_
  · obtain ⟨e, he, hv⟩ := Tx.mem_commitValues hp
    obtain ⟨hn, hy⟩ := byteIn_eq_some.1 hy
    obtain ⟨hlt, rfl⟩ := List.getElem?_eq_some_iff.1 hy
    simp only [hv, List.getElem_ofFn, (h.write _ e he).2, Flat.cell_apply, Segments.cellLoc]
    rw [← hn, BitVec.ofNat_toNat, BitVec.setWidth_eq, BitVec.add_comm, BitVec.sub_add_cancel]
  · obtain ⟨b, hb, i, hi⟩ := h.frame _ _ fun he => hne he.symm
    obtain ⟨p, hp, rfl⟩ := List.mem_map.1 (ho.mem_commitValues hb)
    obtain ⟨e, -, hv⟩ := Tx.mem_commitValues hp
    have hi64 : i.val < 64 := i.isLt
    refine ⟨p, hp, byteIn_isSome_iff.2 ?_⟩
    obtain ⟨hn, hq⟩ := Prod.mk.inj hi
    refine ⟨hn, ?_⟩
    rw [hq, hv, List.length_ofFn, BitVec.add_comm, BitVec.add_sub_cancel, BitVec.toNat_ofNat,
      Nat.mod_eq_of_lt (by omega)]
    exact i.isLt

end

/-! ## Calls -/

section
variable {g : Segments} {v : Variant} {R : List Word → Prop} {base objs : Flat} {tx tx' : Tx}
  {op : Op g} {r : List Byte} {th th' : Thread g} {me me' : Attempt g} {o : Tx.Orders}

/-- A call that the maps serve returns what the entries have. -/
theorem Tx.served_values (hs : tx.served .variant2 op = some (tx', r)) (base : Flat) :
    r = op.found base tx.writeSetValues ∧ tx'.writeSetValues = op.enter tx.writeSetValues := by
  cases op with
  | read a =>
    obtain ⟨rfl, e, he, rfl⟩ := Tx.served_read hs
    rw [Op.found, Access.find, he]
    exact ⟨rfl, rfl⟩
  | write a value =>
    simp only [Tx.served] at hs
    split at hs
    · next e he =>
      cases hs
      rw [Op.enter, he]
      exact ⟨rfl, rfl⟩
    · next hn =>
      obtain ⟨d, -, hp⟩ := Option.map_eq_some_iff.1 hs
      cases hp
      rw [Op.enter, hn]
      exact ⟨rfl, rfl⟩

/-- So does a call that has read its value, which has no entry. -/
theorem Tx.finished_values (hn : tx.writeSetValues.lookup op.access.addr = none) (ts : Word)
    {buf : ℕ → Byte} (hf : (Tx.cellArgs .variant2 op).Filled [] buf (base.cell op.access.block)) :
    (tx.finished .variant2 op ts ((Tx.cellArgs .variant2 op).value buf)).2 =
        op.found base tx.writeSetValues ∧
      (tx.finished .variant2 op ts ((Tx.cellArgs .variant2 op).value buf)).1.writeSetValues =
        op.enter tx.writeSetValues := by
  cases op with
  | read a =>
    refine ⟨?_, rfl⟩
    have hn : tx.writeSetValues.lookup a.addr = none := hn
    rw [Op.found, Access.find, hn, Tx.finished, CellArgs.filled_value _ hf]
    exact (a.valueIn_eq _ _).trans (Flat.load_eq a base).symm
  | write a value =>
    have hn : tx.writeSetValues.lookup a.addr = none := hn
    rw [Op.enter, hn]
    exact ⟨rfl, rfl⟩

/-- The fields that count. -/
theorem EntriesOk.congr (h : EntriesOk base th me) (hpc : th'.pc = .idle ↔ th.pc = .idle)
    (hcall : ∀ op, th'.pc.call = some op →
      th.pc.call = some op ∨ th.tx.writeSetValues.lookup op.access.addr = none)
    (hv : th'.tx.writeSetValues = th.tx.writeSetValues) (ho : me'.ops = me.ops) :
    EntriesOk base th' me' where
  idle hp := hv.trans (h.idle (hpc.1 hp))
  running hp := by
    rw [hv, ho]
    exact h.running fun hi => hp (hpc.2 hi)
  call op hc := by
    rw [hv]
    exact (hcall op hc).elim (h.call op) id

/-- A transaction that is over. -/
theorem EntriesOk.of_idle (hpc : th.pc = .idle) (hv : th.tx.writeSetValues = ∅) :
    EntriesOk base th me where
  idle _ := hv
  running hp := absurd hpc hp
  call op hc := by
    rw [hpc] at hc
    cases hc

/-- A call returns. -/
theorem EntriesOk.returns (h : EntriesOk base th me) (hne : th.pc ≠ .idle) (hpc : th'.pc = .active)
    (hr : r = op.found base th.tx.writeSetValues)
    (hv : th'.tx.writeSetValues = op.enter th.tx.writeSetValues) :
    EntriesOk base th' { me with ops := me.ops ++ [(op, r)] } where
  idle hp := by
    rw [hpc] at hp
    cases hp
  running _ := by
    rw [hr, hv]
    exact (h.running hne).concat op
  call op hc := by
    rw [hpc] at hc
    cases hc

/-- The calls of a running transaction have returned what they return on `base`. -/
theorem MapsOk.sound (h : MapsOk v base th me) (hpc : th.pc ≠ .idle) : Sound v base me.ops := by
  cases v with
  | variant1 =>
    obtain ⟨m, hm, -⟩ := (h.1.running hpc).runs base h.2
    exact ⟨m, hm⟩
  | variant2 => exact ⟨_, EntriesOk.running h hpc⟩

/-- The puts of a commit leave what the calls have done. -/
theorem MapsOk.leaves (h : MapsOk v base th me) (hpc : th.pc ≠ .idle) (ho : o.Of th.tx)
    (hR : R o.vs) : Leaves v R base me.ops (base.putAll (th.tx.commitValues v o)) := by
  cases v with
  | variant1 =>
    obtain ⟨m, hm, ht, -⟩ := (h.1.running hpc).runs base h.2
    rw [ht.putAll_eq ho]
    exact hm
  | variant2 => exact ⟨_, o.vs, EntriesOk.running h hpc, ho.vs, hR, rfl⟩

/-- Before the puts. -/
theorem ObjsOk.of_before (ho : objs = base) (hw : th.pc.writing = false)
    (hr : me.returned = none) : ObjsOk v R base objs th me where
  before _ _ := ho
  written h := by
    rw [hw, hr] at h
    exact absurd h (by simp)

/-- The fields that count. -/
theorem ObjsOk.congr {objs' : Flat} (h : ObjsOk v R base objs th me)
    (hw : th'.pc.writing = th.pc.writing) (hset : th'.pc.settled objs' = th.pc.settled objs)
    (hobjs : th.pc.writing = false → objs' = objs) (hr : me'.returned = me.returned)
    (ho : me'.ops = me.ops) : ObjsOk v R base objs' th' me' where
  before hf hn := (hobjs (hw ▸ hf)).trans (h.before (hw ▸ hf) (hr ▸ hn))
  written hp := by
    rw [ho, hset]
    rw [hw, hr] at hp
    exact h.written hp

end

/-! ## Steps of the transaction -/

section
variable {cfg : Config} {σ σ' : Sys cfg.segs} {a : Act cfg.segs} {t : Tid} {v : Variant}
  {R : List Word → Prop} {base : Flat} {locks : Loc → Word} {clock : ℕ → Word}

theorem Pc.not_writing_of_calling {g : Segments} {pc : Pc g} (h : pc.calling = true) :
    pc.writing = false := by
  cases pc <;> first | rfl | cases h

/-- A transaction that begins is the first of its thread. -/
theorem Sys.AttOk.first (h : σ.AttOk) (hr : (σ.th t).round = 0) :
    σ.me t = Attempt.new cfg.segs 0 := by
  have hc := h.cur t
  rw [EndedOk, if_pos hr] at hc
  exact hc.2

/-- A thread that moves on reads the objects as they are. -/
theorem Goes.reading {pc : Pc cfg.segs} (hgo : Goes cfg σ t pc)
    (h : Reading cfg.build.variant base (σ.th t).pc)
    (hobjs : (σ.th t).pc.writing = false → σ.objs = base) :
    Reading cfg.build.variant base pc := by
  cases hgo with
  | readVersion => exact CellArgs.filled_range _ _
  | @readPiece op version left buf off n hpc =>
    rw [hpc] at h
    refine CellArgs.filled_readPiece _ _ off n h ?_
    rw [hobjs (by rw [hpc]; rfl), Flat.cell, op.access.node_block, op.access.addrFromAddress_block]
    rfl
  | clockRead hpc | clockKept hpc | clockRetry hpc | validate _ hpc | looked hpc | valid hpc =>
    rw [hpc] at h
    exact h
  | _ => trivial

/-- What the calls of the transaction read are the objects. -/
theorem Rule.reading (hr : Rule cfg σ a σ') (hg : σ.Good cfg)
    (h : Reading cfg.build.variant base (σ.th a.tid).pc)
    (hobjs : ObjsOk v R base σ.objs (σ.th a.tid) (σ.me a.tid)) :
    Reading cfg.build.variant base (σ'.th a.tid).pc := by
  have lift : ∀ {th : Thread cfg.segs}, σ'.th = Function.update σ.th a.tid th →
      Reading cfg.build.variant base th.pc →
      Reading cfg.build.variant base (σ'.th a.tid).pc := by
    intro th hth hp
    rwa [hth, Function.update_self]
  cases hr with
  | goto ha _ hgo =>
    subst ha
    exact lift rfl (hgo.reading h fun hw => hobjs.before hw (hg.att.running hgo.not_idle.1).1)
  | abort _ _ ha =>
    subst ha
    exact lift rfl trivial
  | load | reply | lost => exact h
  | deliver hk hm hdesc =>
    obtain rfl := delivers hg.ok.local_ok hg.ok.descs _ _ _ _ _ _ hk hm hdesc
    exact lift rfl h
  | new | delete | addVersion | served | refuse | grant => exact lift rfl h
  | fetched hpc | clockRaised hpc =>
    rw [Act.tid, hpc] at h
    exact lift rfl h
  | _ => exact lift rfl trivial

/-- The cells that a `VARIANT1` transaction has read are those of the objects. -/
theorem Rule.agrees (hr : Rule cfg σ a σ') (hok : σ.Ok cfg)
    (hread : Reading .variant1 base (σ.th a.tid).pc)
    (h : base.Agrees (σ.me a.tid).seen) : base.Agrees (σ'.me a.tid).seen := by
  have lift : ∀ {th : Thread cfg.segs} {me : Attempt cfg.segs},
      σ'.th = (σ.upd a.tid th me).th → σ'.att = (σ.upd a.tid th me).att →
      base.Agrees me.seen → base.Agrees (σ'.me a.tid).seen :=
    fun h1 h2 h3 => Sys.lift (P := fun _ me => base.Agrees me.seen) h3 h1 h2
  cases hr with
  | goto ha | abort _ _ ha =>
    subst ha
    exact lift rfl rfl h
  | begin => exact lift rfl rfl fun b e he => by cases he
  | load | reply | lost => exact h
  | deliver hk hm hdesc =>
    obtain rfl := delivers hok.local_ok hok.descs _ _ _ _ _ _ hk hm hdesc
    exact lift rfl rfl h
  | @fetched t c op ts buf hpc =>
    rw [Act.tid, hpc] at hread
    refine lift rfl rfl fun b e he => ?_
    rcases lookup_insert_cases he with ⟨rfl, rfl⟩ | he
    · exact (CellArgs.filled_copy _ rfl hread).symm
    · exact h b e he
  | _ => exact lift rfl rfl h

/-- A call that goes on has found no entry at its address. -/
theorem Goes.entriesOk {pc : Pc cfg.segs} (hgo : Goes cfg σ t pc)
    (hv : cfg.build.variant = .variant2) (h : EntriesOk base (σ.th t) (σ.me t)) :
    EntriesOk base { σ.th t with pc := pc } (σ.me t) := by
  refine h.congr (iff_of_false hgo.not_idle.2 hgo.not_idle.1) (fun op hc => ?_) rfl rfl
  cases hgo with
  | fetch op' _ hs =>
    cases hc
    rw [hv] at hs
    exact .inr (Tx.lookup_of_not_served hs)
  | readVersion hpc | readPiece _ _ hpc | retry hpc | clockRead hpc | clockKept hpc
  | clockRetry hpc | validate _ hpc | looked hpc | valid hpc =>
    rw [hpc]
    exact .inl hc
  | _ => cases hc

/-- The entries of a `VARIANT2` transaction are those that its calls make. -/
theorem Rule.entriesOk (hr : Rule cfg σ a σ') (hv : cfg.build.variant = .variant2)
    (hok : σ.Ok cfg) (hread : Reading .variant2 base (σ.th a.tid).pc)
    (h : EntriesOk base (σ.th a.tid) (σ.me a.tid)) :
    EntriesOk base (σ'.th a.tid) (σ'.me a.tid) := by
  have lift : ∀ {th : Thread cfg.segs} {me : Attempt cfg.segs},
      σ'.th = (σ.upd a.tid th me).th → σ'.att = (σ.upd a.tid th me).att →
      EntriesOk base th me → EntriesOk base (σ'.th a.tid) (σ'.me a.tid) :=
    fun h1 h2 h3 => Sys.lift (P := EntriesOk base) h3 h1 h2
  have same : ∀ {th : Thread cfg.segs} {me : Attempt cfg.segs},
      σ'.th = (σ.upd a.tid th me).th → σ'.att = (σ.upd a.tid th me).att →
      th.pc = (σ.th a.tid).pc → th.tx.writeSetValues = (σ.th a.tid).tx.writeSetValues →
      me.ops = (σ.me a.tid).ops → EntriesOk base (σ'.th a.tid) (σ'.me a.tid) :=
    fun h1 h2 hp hw ho => lift h1 h2 (h.congr (hp ▸ .rfl) (fun _ hc => .inl (hp ▸ hc)) hw ho)
  cases hr with
  | goto ha _ hgo =>
    subst ha
    exact lift rfl rfl (hgo.entriesOk hv h)
  | abort _ _ ha =>
    subst ha
    exact lift rfl rfl (.of_idle rfl rfl)
  | released | committed => exact lift rfl rfl (.of_idle rfl rfl)
  | new _ hpc => exact lift rfl rfl (.of_idle hpc rfl)
  | @begin t ptr hpc =>
    have hempty : (σ.th t).tx.writeSetValues = ∅ := h.idle hpc
    refine lift rfl rfl ⟨(fun hp => by cases hp), fun _ => ?_, fun op hc => by cases hc⟩
    dsimp only [Tx.begin, Attempt.new]
    rw [hempty]
    exact .nil
  | load | reply | lost => exact h
  | deliver hk hm hdesc =>
    obtain rfl := delivers hok.local_ok hok.descs _ _ _ _ _ _ hk hm hdesc
    exact same rfl rfl rfl rfl rfl
  | delete | addVersion | refuse | grant => exact same rfl rfl rfl rfl rfl
  | @served t op tx r hpc _ hs =>
    rw [hv] at hs
    obtain ⟨hres, hvals⟩ := Tx.served_values hs base
    exact lift rfl rfl (h.returns (by rw [Act.tid, hpc]; simp) hpc hres hvals)
  | @fetched t c op ts buf hpc =>
    rw [hv] at *
    refine lift rfl rfl (h.congr (iff_of_false (by simp) (by rw [Act.tid, hpc]; simp))
      (fun op' hc => .inl ?_) rfl rfl)
    rw [Act.tid, hpc]
    exact hc
  | clockRaised hpc =>
    refine lift rfl rfl (h.congr (iff_of_false (by simp) (by rw [Act.tid, hpc]; simp))
      (fun op' hc => .inl ?_) rfl rfl)
    rw [Act.tid, hpc]
    exact hc
  | @finish t c op ts buf hpc =>
    rw [Act.tid, hpc] at hread
    have hn := h.call op (by rw [Act.tid, hpc]; rfl)
    obtain ⟨hres, hvals⟩ := Tx.finished_values hn ts hread
    refine lift rfl rfl ?_
    rw [hv]
    exact h.returns (by rw [Act.tid, hpc]; simp) rfl hres hvals
  | @finishValid t c op ts buf looked hpc =>
    rw [Act.tid, hpc] at hread
    have hn : ((σ.th t).tx.setVC ts).writeSetValues.lookup op.access.addr = none :=
      h.call op (by rw [Act.tid, hpc]; rfl)
    obtain ⟨hres, hvals⟩ := Tx.finished_values hn ts hread
    refine lift rfl rfl ?_
    rw [hv]
    exact h.returns (by rw [Act.tid, hpc]; simp) rfl hres hvals
  | lockPoint hpc | batch hpc | send hpc | restore hpc | validated hpc | invalid hpc | put _ _ hpc
  | issue hpc | release hpc =>
    exact lift rfl rfl (h.congr (iff_of_false (by simp) (by rw [Act.tid, hpc]; simp))
      (fun op hc => by cases hc) rfl rfl)

/-- The calls change only inside the transaction. -/
theorem Rule.ops_eq (hr : Rule cfg σ a σ') (hok : σ.Ok cfg) (hpc : (σ'.th a.tid).pc = .idle) :
    (σ'.me a.tid).ops = (σ.me a.tid).ops := by
  have lift : ∀ {th : Thread cfg.segs} {me : Attempt cfg.segs},
      σ'.th = (σ.upd a.tid th me).th → σ'.att = (σ.upd a.tid th me).att →
      (th.pc = .idle → me.ops = (σ.me a.tid).ops) → (σ'.me a.tid).ops = (σ.me a.tid).ops :=
    fun h1 h2 h3 => Sys.lift (P := fun th me => th.pc = .idle → me.ops = (σ.me a.tid).ops)
      h3 h1 h2 hpc
  cases hr with
  | goto ha | abort _ _ ha =>
    subst ha
    exact lift rfl rfl fun _ => rfl
  | load | reply | lost => rfl
  | deliver hk hm hdesc =>
    obtain rfl := delivers hok.local_ok hok.descs _ _ _ _ _ _ hk hm hdesc
    exact lift rfl rfl fun _ => rfl
  | begin | finish | finishValid => exact lift rfl rfl fun hp => by cases hp
  | served hact =>
    refine lift rfl rfl fun hp => ?_
    dsimp only at hp
    rw [hact] at hp
    cases hp
  | _ => exact lift rfl rfl fun _ => rfl

/-- The order of the puts is chosen by `commit`. -/
theorem Rule.orderIn (hr : Rule cfg σ a σ') (hok : σ.Ok cfg) (hs : step cfg σ a = some σ')
    (halone : AloneBy cfg a.tid R σ a σ') (h : (σ.th a.tid).pc.OrderIn R) :
    (σ'.th a.tid).pc.OrderIn R := by
  rcases Classical.em ((σ.th a.tid).pc = .active) with ha | ha
  · have hnet : σ.net a.tid = [] := ((hok.local_ok _).pc.calling (by rw [ha]; rfl)).net
    rcases step_active hs ha hnet with ⟨op, -, rfl⟩ | ⟨o, he, rfl⟩ | ⟨-, rfl⟩ | ⟨-, hpc⟩
    · rw [stepCall]
      split
      · rw [Sys.upd_th]
        exact h
      · rw [Sys.goto, Sys.upd_th]
        trivial
    · rw [Sys.goto, Sys.upd_th]
      exact halone.2 o he
    · rw [Sys.abort, Sys.upd_th]
      trivial
    · rw [hpc]
      trivial
  · have lift : ∀ {th : Thread cfg.segs}, σ'.th = Function.update σ.th a.tid th →
        th.pc.OrderIn R → (σ'.th a.tid).pc.OrderIn R := by
      intro th hth hp
      rwa [hth, Function.update_self]
    cases hr with
    | goto ha' _ hgo =>
      subst ha'
      refine lift rfl ?_
      cases hgo with
      | commit o hpc => exact absurd hpc ha
      | wait hpc | granted hpc | lookedAll hpc | validAll hpc =>
        rw [hpc] at h
        exact h
      | _ => trivial
    | abort _ _ ha' =>
      subst ha'
      exact lift rfl trivial
    | load | reply | lost => exact h
    | deliver hk hm hdesc =>
      obtain rfl := delivers hok.local_ok hok.descs _ _ _ _ _ _ hk hm hdesc
      exact lift rfl h
    | new | delete | addVersion | served | refuse | grant => exact lift rfl h
    | lockPoint hpc | batch hpc | send hpc =>
      rw [Act.tid, hpc] at h
      exact lift rfl h
    | _ => exact lift rfl trivial

/-- A thread that moves on puts nothing. -/
theorem Goes.settled_eq {pc : Pc cfg.segs} (hgo : Goes cfg σ t pc) (objs : Flat) :
    pc.settled objs = (σ.th t).pc.settled objs := by
  cases hgo with
  | putNext hpc =>
    rw [hpc, Pc.settled_start, Pc.settled, Flat.put_nil]
  | fetch _ hpc | readVersion hpc | readPiece _ _ hpc | retry hpc | clockRead hpc | clockKept hpc
  | clockRetry hpc | validate _ hpc | looked hpc | valid hpc | commit _ hpc | wait hpc
  | granted hpc | refused hpc | skip hpc | lookedAll hpc | validAll hpc | putAll hpc
  | nextRead hpc | nextRetry hpc =>
    rw [hpc]
    rfl

/-- The transaction changes no object before its puts, and these make what the calls have done. -/
theorem Rule.objsOk (hr : Rule cfg σ a σ') (hg : σ.Good cfg) (halone : Alone cfg a.tid σ a σ')
    (hmaps : MapsOk cfg.build.variant base (σ.th a.tid) (σ.me a.tid))
    (horder : (σ.th a.tid).pc.OrderIn R)
    (h : ObjsOk cfg.build.variant R base σ.objs (σ.th a.tid) (σ.me a.tid)) :
    ObjsOk cfg.build.variant R base σ'.objs (σ'.th a.tid) (σ'.me a.tid) := by
  have lift : ∀ {th : Thread cfg.segs} {me : Attempt cfg.segs},
      σ'.th = (σ.upd a.tid th me).th → σ'.att = (σ.upd a.tid th me).att →
      ObjsOk cfg.build.variant R base σ'.objs th me →
      ObjsOk cfg.build.variant R base σ'.objs (σ'.th a.tid) (σ'.me a.tid) :=
    fun h1 h2 h3 => Sys.lift (P := ObjsOk cfg.build.variant R base σ'.objs) h3 h1 h2
  -- A step inside the transaction that is not past validation.
  have early : ∀ {th : Thread cfg.segs} {me : Attempt cfg.segs},
      (σ.th a.tid).pc ≠ .idle → (σ.th a.tid).pc.writing = false → th.pc.writing = false →
      me.returned = (σ.me a.tid).returned → ObjsOk cfg.build.variant R base σ.objs th me := by
    intro th me hne hw hw' hr
    have hret := (hg.att.running hne).1
    exact .of_before (h.before hw hret) hw' (hr.trans hret)
  cases hr with
  | goto ha _ hgo =>
    subst ha
    exact lift rfl rfl (h.congr hgo.writing_eq (hgo.settled_eq _) (fun _ => rfl) rfl rfl)
  | abort hpc _ ha =>
    subst ha
    refine lift rfl rfl (early (fun hi => ?_) (Pc.not_writing_of_calling hpc) rfl rfl)
    rw [hi] at hpc
    cases hpc
  | load | reply | lost => exact h
  | deliver hk hm hdesc =>
    obtain rfl := delivers hg.ok.local_ok hg.ok.descs _ _ _ _ _ _ hk hm hdesc
    exact lift rfl rfl (h.congr rfl rfl (fun _ => rfl) rfl rfl)
  | new | delete | addVersion | refuse | grant =>
    exact lift rfl rfl (h.congr rfl rfl (fun _ => rfl) rfl rfl)
  | @begin t ptr hpc =>
    have hme : σ.me t = Attempt.new cfg.segs 0 := hg.att.first (halone rfl)
    refine lift rfl rfl (.of_before (h.before ?_ ?_) rfl rfl)
    · rw [Act.tid, hpc]
      rfl
    · rw [Act.tid, hme]
      rfl
  | served hpc =>
    refine lift rfl rfl (early ?_ ?_ ?_ rfl)
    · rw [Act.tid, hpc]
      simp
    · rw [Act.tid, hpc]
      rfl
    · dsimp only
      rw [hpc]
      rfl
  | fetched hpc | clockRaised hpc | finish hpc | finishValid hpc | lockPoint hpc | batch hpc
  | send hpc | released hpc | restore hpc | invalid hpc =>
    exact lift rfl rfl
      (early (by rw [Act.tid, hpc]; simp) (by rw [Act.tid, hpc]; rfl) rfl rfl)
  | @validated t c o looked hpc =>
    have hne : (σ.th t).pc ≠ .idle := by rw [hpc]; simp
    have hloc := (hg.ok.local_ok t).pc
    simp only [PcOk, hpc] at hloc
    have hobjs : σ.objs = base :=
      h.before (by rw [Act.tid, hpc]; rfl) (hg.att.running hne).1
    have hset := Pc.settled_start (g := cfg.segs) o
      ((σ.th t).tx.commitValues cfg.build.variant o) σ.objs
    rw [Act.tid, hpc] at horder
    refine lift rfl rfl ⟨(fun hw => by cases hw), fun _ => ?_⟩
    refine (congrArg (Leaves _ R base _) hset).mpr ?_
    rw [hobjs]
    exact hmaps.leaves hne hloc.1 horder
  | put off n hpc =>
    refine lift rfl rfl (h.congr ?_ ?_ (fun hw => ?_) rfl rfl)
    · rw [Act.tid, hpc]
      rfl
    · dsimp only
      rw [Act.tid, hpc, Pc.settled, Pc.settled, Flat.put_pieces]
    · rw [Act.tid, hpc] at hw
      cases hw
  | issue hpc | release hpc =>
    refine lift rfl rfl (h.congr ?_ ?_ (fun _ => rfl) rfl rfl)
    · rw [Act.tid, hpc]
      rfl
    · rw [Act.tid, hpc]
      rfl
  | @committed t c version hpc =>
    have hleft := h.written (.inl (by rw [Act.tid, hpc]; rfl))
    rw [Act.tid, hpc] at hleft
    exact lift rfl rfl ⟨(fun _ hr => by cases hr), fun _ => hleft⟩

/-! ## Steps of others -/

/-- A thread outside `commit` changes no lock word and no object, and has no message under way. -/
theorem Rule.quiet (hr : Rule cfg σ a σ') (hok : σ.Ok cfg)
    (hpc : (σ.th a.tid).pc.committing = false) : σ'.locks = σ.locks ∧ σ'.objs = σ.objs := by
  cases hr with
  | restore hp | release hp | put _ _ hp =>
    rw [Act.tid, hp] at hpc
    cases hpc
  | grant hk =>
    have hin := (hok.inBatch (List.mem_of_getElem? hk)).1
    rw [Act.tid, Pc.committing_of_inBatch hin] at hpc
    cases hpc
  | _ => exact ⟨rfl, rfl⟩

/-- A thread outside `commit` stays there unless it calls it. -/
theorem Rule.not_committing (hr : Rule cfg σ a σ') (hok : σ.Ok cfg) (hs : step cfg σ a = some σ')
    (hc : ∀ o, a ≠ .commit a.tid o) (hpc : (σ.th a.tid).pc.committing = false) :
    (σ'.th a.tid).pc.committing = false := by
  rcases Classical.em ((σ.th a.tid).pc = .active) with ha | ha
  · have hnet : σ.net a.tid = [] := ((hok.local_ok _).pc.calling (by rw [ha]; rfl)).net
    rcases step_active hs ha hnet with ⟨op, -, rfl⟩ | ⟨o, he, -⟩ | ⟨-, rfl⟩ | ⟨-, hpc'⟩
    · rw [stepCall]
      split
      · rw [Sys.upd_th]
        exact hpc
      · rw [Sys.goto, Sys.upd_th]
        rfl
    · exact absurd he (hc o)
    · rw [Sys.abort, Sys.upd_th]
      rfl
    · rw [hpc']
      rfl
  · have lift : ∀ {th : Thread cfg.segs}, σ'.th = Function.update σ.th a.tid th →
        th.pc.committing = false → (σ'.th a.tid).pc.committing = false := by
      intro th hth hp
      rw [hth, Function.update_self]
      exact hp
    cases hr with
    | goto ha' _ hgo =>
      subst ha'
      refine lift rfl ?_
      cases hgo with
      | commit o hp => exact absurd hp ha
      | wait hp | granted hp | refused hp | skip hp | lookedAll hp | validAll hp | putNext hp
      | putAll hp | nextRead hp | nextRetry hp =>
        rw [hp] at hpc
        cases hpc
      | _ => rfl
    | abort _ _ ha' =>
      subst ha'
      exact lift rfl rfl
    | load | reply | lost => exact hpc
    | deliver hk hm hdesc =>
      obtain rfl := delivers hok.local_ok hok.descs _ _ _ _ _ _ hk hm hdesc
      exact lift rfl hpc
    | lockPoint hp | batch hp | send hp | restore hp | validated hp | invalid hp | put _ _ hp
    | issue hp | release hp =>
      rw [Act.tid, hp] at hpc
      cases hpc
    | begin | fetched | clockRaised | finish | finishValid | released | committed =>
      exact lift rfl rfl
    | new | delete | addVersion | served | refuse | grant => exact lift rfl hpc

/-- Nobody else enters `commit`. -/
theorem Alone.others (halone : Alone cfg t σ a σ') (hok : σ.Ok cfg) (hs : step cfg σ a = some σ')
    (h : ∀ t' ≠ t, (σ.th t').pc.committing = false) (t' : Tid) (ht : t' ≠ t) :
    (σ'.th t').pc.committing = false := by
  have hr := step_rule hs
  rcases eq_or_ne t' a.tid with rfl | hne
  · refine hr.not_committing hok hs (fun o he => ?_) (h _ ht)
    rw [he] at halone
    exact ht halone
  · rw [(hr.sameBut (delivers hok.local_ok hok.descs)).th t' hne]
    exact h t' ht

/-! ## Every run -/

theorem Sys.Good.start (objs : Flat) (locks : Loc → Word) (clock : ℕ → Word) :
    (Sys.start cfg.segs objs locks clock).Good cfg where
  ok := ⟨(Sys.Ok.init objs).local_ok, (Sys.Ok.init objs).descs, rfl⟩
  att := ⟨(Sys.AttOk.init objs).cur, (Sys.AttOk.init objs).past, (Sys.AttOk.init objs).new⟩
  own := ⟨fun _ _ h => absurd h List.not_mem_nil, fun _ _ _ h => absurd h List.not_mem_nil⟩
  refused _ _ h := absurd h List.not_mem_nil

theorem Sys.Watched.start (base : Flat) (locks : Loc → Word) (clock : ℕ → Word) (t : Tid)
    (R : List Word → Prop) : (Sys.start cfg.segs base locks clock).Watched cfg t R base where
  good := .start base locks clock
  others _ _ := rfl
  reading := trivial
  maps := by
    unfold MapsOk
    split
    · exact ⟨.of_idle rfl rfl rfl, fun b e he => by cases he⟩
    · exact .of_idle rfl rfl
  sound := by
    unfold Sound
    split
    · exact ⟨base, rfl⟩
    · exact ⟨∅, .nil⟩
  order := trivial
  objs := .of_before rfl rfl rfl

/-- Every step keeps this, whoever takes it. -/
theorem Sys.Watched.step (h : σ.Watched cfg t R base) (hs : step cfg σ a = some σ')
    (halone : AloneBy cfg t R σ a σ') : σ'.Watched cfg t R base := by
  have hr := step_rule hs
  have hg := h.good
  have hsame := hr.sameBut (delivers hg.ok.local_ok hg.ok.descs)
  rcases eq_or_ne a.tid t with rfl | hne
  · have hmaps : MapsOk cfg.build.variant base (σ'.th a.tid) (σ'.me a.tid) := by
      have hm := h.maps
      have hread := h.reading
      cases hv : cfg.build.variant with
      | variant1 =>
        rw [hv] at hm hread
        exact ⟨hr.runOk hv hg.ok hm.1, hr.agrees hg.ok hread hm.2⟩
      | variant2 =>
        rw [hv] at hm hread
        exact hr.entriesOk hv hg.ok hread hm
    refine ⟨hg.step hr, halone.1.others hg.ok hs h.others, hr.reading hg h.reading h.objs, hmaps,
      ?_, hr.orderIn hg.ok hs halone h.order, hr.objsOk hg halone.1 h.maps h.order h.objs⟩
    rcases Classical.em ((σ'.th a.tid).pc = .idle) with hpc | hpc
    · rw [hr.ops_eq hg.ok hpc]
      exact h.sound
    · exact hmaps.sound hpc
  · have hth := hsame.th t hne.symm
    have hme := hsame.me hne.symm
    refine ⟨hg.step hr, halone.1.others hg.ok hs h.others, ?_, ?_, ?_, ?_, ?_⟩
    · rw [hth]
      exact h.reading
    · rw [hth, hme]
      exact h.maps
    · rw [hme]
      exact h.sound
    · rw [hth]
      exact h.order
    · rw [(hr.quiet hg.ok (h.others _ hne)).2, hth, hme]
      exact h.objs

/-- **The calls of a transaction** that runs while nobody else commits are those of a memory, and
what its commit leaves are its puts. -/
theorem reach_watched (h : (cfg.ltsFrom base locks clock).Reach (AloneBy cfg t R) σ) :
    σ.Watched cfg t R base :=
  h.induct (fun _ h0 => h0 ▸ .start base locks clock t R) fun _ _ _ _ ih hs ha => ih.step hs ha

/-- A transaction whose commit has returned is over. -/
theorem Sys.Watched.idle (h : σ.Watched cfg t R base) (hr : (σ.me t).returned ≠ none) :
    (σ.th t).pc = .idle := by
  by_contra hne
  exact hr (h.good.att.running hne).1

/-- Then the objects are what its calls and its puts have made of them. -/
theorem Sys.Watched.leaves (h : σ.Watched cfg t R base) (hr : (σ.me t).returned ≠ none) :
    Leaves cfg.build.variant R base (σ.me t).ops σ.objs := by
  have hleft := h.objs.written (.inr hr)
  rwa [h.idle hr] at hleft

end

end DstmP1
