import DstmP1.Calls
import DstmP1.Clocks
import DstmP1.WriteValues

/-!
# Cells that are read again

A `VARIANT2` transaction reads a cell once for every value it wants of it, and each time enters the
timestamp it finds. `validate` has to notice that a cell has been written in between. It looks at
no entry when the node of the new timestamp has been seen at this version (`VC`); but then the
write was over before this version was seen, and the entry was found out of date at that time.

`Fresh` says what this rests on: the versions that a node installs in a cell after the one recorded
are greater than the version of this node that has been seen. It holds for all entries of the read
set, in runs without stale grants in which no two nodes have one node field
(`RereadStep.threads`), so a call that returns has found the version recorded before
(`RereadOk.not_lt`, `RereadOk.not_lt_valid`).
-/

namespace DstmP1

open Segments (Loc)

/-- The versions of the node `n` that the cell `b` gets after `r` are greater than `w`. -/
structure Fresh (cfg : Config) (σ : Sys cfg.segs) (b r : Word) (n w : ℕ) : Prop where
  word : ver r < ver (σ.locks (cfg.segs.lockLoc b)) →
    nodeOfTs (σ.locks (cfg.segs.lockLoc b)) = n → w < ver (σ.locks (cfg.segs.lockLoc b))
  pending : ∀ t v left, (σ.th t).pc = .releaseLocksWithNewClock v left → b ∈ left →
    nodeOfTs v = n → w < ver v

section
variable {cfg : Config} {σ σ' : Sys cfg.segs} {a : Act cfg.segs} {t : Tid} {b r : Word} {n w : ℕ}

/-! ## Words -/

/-- The timestamp in a lock word changes only when a new version is installed. -/
theorem Rule.word (hr : Rule cfg σ a σ') (hg : σ.Good cfg) (hs : NoStaleGrant cfg σ a σ')
    (hb : cfg.segs.IsCell b) :
    ver (σ'.locks (cfg.segs.lockLoc b)) = ver (σ.locks (cfg.segs.lockLoc b)) ∧
        nodeOfTs (σ'.locks (cfg.segs.lockLoc b)) = nodeOfTs (σ.locks (cfg.segs.lockLoc b)) ∨
      ∃ t v left, (σ.th t).pc = .releaseLocksWithNewClock v (b :: left) ∧
        σ'.locks (cfg.segs.lockLoc b) = v := by
  have hupd : ∀ {b₀ x : Word}, cfg.segs.IsCell b₀ →
      σ'.locks = Function.update σ.locks (cfg.segs.lockLoc b₀) x →
      b ≠ b₀ → σ'.locks (cfg.segs.lockLoc b) = σ.locks (cfg.segs.lockLoc b) := by
    intro b₀ x hc hl hne
    rw [hl, Function.update_of_ne fun he => hne (Segments.lockLoc_inj hb hc he)]
  cases hr with
  | @restore t c b₀ left hpc hc hb₀ =>
    have hh := PutsLock.holds hg.ok (.restore hpc hb₀)
    obtain ⟨-, -, hbw, hcell⟩ := hh.inside hg.ok hg.att
    rcases eq_or_ne b b₀ with rfl | hne
    · have hu := (hg.ok.local_ok t).tx.unlocked_entryTs hbw
      have hl : (σ.putLock t b (entryTs (σ.th t).tx.writeSet b) { σ.th t with
          pc := .releaseLocks left } { σ.me t with
          restored := (σ.me t).restored ++ [(b, entryTs (σ.th t).tx.writeSet b)] }).locks
          (cfg.segs.lockLoc b) = entryTs (σ.th t).tx.writeSet b := Function.update_self ..
      have hw : σ.locks (cfg.segs.lockLoc b) = lockValNew (entryTs (σ.th t).tx.writeSet b) :=
        hg.own.word _ b hh
      left
      rw [hl, hw, lockValNew, ver_or_lockBit, nodeOfTs_or_lockBit hu]
      exact ⟨rfl, rfl⟩
    · have heq := hupd hcell rfl hne
      exact .inl ⟨congrArg ver heq, congrArg nodeOfTs heq⟩
  | @release t c version b₀ left hpc hc =>
    have hh := PutsLock.holds hg.ok (.release hpc)
    obtain ⟨-, -, -, hcell⟩ := hh.inside hg.ok hg.att
    rcases eq_or_ne b b₀ with rfl | hne
    · exact .inr ⟨t, version, left, hpc, Function.update_self ..⟩
    · have heq := hupd hcell rfl hne
      exact .inl ⟨congrArg ver heq, congrArg nodeOfTs heq⟩
  | @grant t k p i old changed hk hm hlt ho =>
    have hw := hg.granted hs hk hm hlt ho
    obtain ⟨b₀, hbm, -, hobj, hlock, hver, -⟩ :=
      hg.ok.requested (List.mem_of_getElem? hk) hm hlt
    have htx := (hg.ok.local_ok t).tx
    have hcell := htx.isCell_of_mem hbm
    rw [hobj] at hw
    rw [hlock] at ho
    rcases eq_or_ne b b₀ with rfl | hne
    · have hl : Function.update σ.locks (lockOf cfg.segs p.node (p.buf.objAddr i))
          (lockValNew (p.buf.version i)) (cfg.segs.lockLoc b) = lockValNew (p.buf.version i) := by
        rw [hlock, Function.update_self]
      left
      dsimp only
      rw [hl, ho, hw, hver, lockValNew, ver_or_lockBit,
        nodeOfTs_or_lockBit (htx.unlocked_entryTs hbm)]
      exact ⟨rfl, rfl⟩
    · have heq := hupd (x := lockValNew (p.buf.version i)) hcell
        (congrArg (fun ℓ => Function.update σ.locks ℓ _) hlock) hne
      exact .inl ⟨congrArg ver heq, congrArg nodeOfTs heq⟩
  | _ => exact .inl ⟨rfl, rfl⟩

/-- A version that is about to be installed is greater than the one it replaces. -/
theorem Sys.Good.word_lt (hg : σ.Good cfg) (hcl : σ.ClockOk cfg) {v : Word} {left : List Word}
    (hpc : (σ.th t).pc = .releaseLocksWithNewClock v left) (hb : b ∈ left) :
    ver (σ.locks (cfg.segs.lockLoc b)) < ver v := by
  have hl := (hg.ok.local_ok t).pc
  simp only [PcOk, hpc] at hl
  have hbw := hl.2.2.1 b hb
  have hh : σ.Holds (σ.cur t) b := hl.1.held.mem_iff.2 hb
  have hp := (hcl.thread t).pc
  rw [hpc] at hp
  have hw := hg.own.word _ b hh
  rw [hw, lockValNew, ver_or_lockBit]
  exact hp _ (Tx.records_entryTs hbw)

/-- Versions grow. -/
theorem Rule.word_le (hr : Rule cfg σ a σ') (hg : σ.Good cfg) (hcl : σ.ClockOk cfg)
    (hs : NoStaleGrant cfg σ a σ') (hb : cfg.segs.IsCell b) :
    ver (σ.locks (cfg.segs.lockLoc b)) ≤ ver (σ'.locks (cfg.segs.lockLoc b)) := by
  rcases hr.word hg hs hb with ⟨hv, -⟩ | ⟨t, v, left, hpc, hv⟩
  · exact hv.ge
  · rw [hv]
    exact Nat.le_of_lt (hg.word_lt hcl hpc List.mem_cons_self)

/-- A thread that installs a version did so before, or it has just been issued one. -/
theorem Rule.installs (hr : Rule cfg σ a σ') (hok : σ.Ok cfg) {v : Word} {left : List Word}
    (hpc : (σ'.th t).pc = .releaseLocksWithNewClock v left) :
    (∃ l, (σ.th t).pc = .releaseLocksWithNewClock v l ∧ left ⊆ l) ∨
      t = a.tid ∧ v = newVersion (cfg.node t) (σ.clock (cfg.node t) + 1) ∧
        σ'.clock (cfg.node t) = σ.clock (cfg.node t) + 1 := by
  rcases eq_or_ne t a.tid with rfl | ht
  · have lift : ∀ {th : Thread cfg.segs}, σ'.th = Function.update σ.th a.tid th →
        th.pc = .releaseLocksWithNewClock v left := by
      intro th he
      rwa [he, Function.update_self] at hpc
    have same : ∀ {th : Thread cfg.segs}, σ'.th = Function.update σ.th a.tid th →
        th.pc = (σ.th a.tid).pc →
        ∃ l, (σ.th a.tid).pc = .releaseLocksWithNewClock v l ∧ left ⊆ l :=
      fun he hp => ⟨left, hp.symm.trans (lift he), List.Subset.refl _⟩
    cases hr with
    | goto ha hc hgo =>
      subst ha
      have hp := lift rfl
      cases hgo <;> cases hp
    | @issue t c o h =>
      have hp := lift rfl
      cases hp
      exact .inr ⟨rfl, rfl, Function.update_self ..⟩
    | @release t c version b left' h =>
      have hp := lift rfl
      cases hp
      exact .inl ⟨_, h, List.subset_cons_self _ _⟩
    | load | reply | lost => exact .inl ⟨left, hpc, List.Subset.refl _⟩
    | deliver hk hm hdesc =>
      obtain rfl := delivers hok.local_ok hok.descs _ _ _ _ _ _ hk hm hdesc
      exact .inl (same rfl rfl)
    | new | delete | addVersion | served | refuse | grant => exact .inl (same rfl rfl)
    | abort _ _ ha =>
      subst ha
      have hp := lift rfl
      cases hp
    | _ =>
      have hp := lift rfl
      cases hp
  · rw [(hr.sameBut (delivers hok.local_ok hok.descs)).th t ht] at hpc
    exact .inl ⟨left, hpc, List.Subset.refl _⟩

/-! ## Fresh versions -/

/-- A version of a node that has been seen stays behind those to come. -/
theorem Fresh.step (h : Fresh cfg σ b r n w) (hr : Rule cfg σ a σ') (hg : σ.Good cfg)
    (hcl : σ.ClockOk cfg) (hs : NoStaleGrant cfg σ a σ') (hn : ∀ t, cfg.node t < 2 ^ 15)
    (hb : cfg.segs.IsCell b) (hclock : ClockBelow cfg (2 ^ 48) σ a σ')
    (hw : w ≤ (σ.clock n).toNat) : Fresh cfg σ' b r n w where
  word := by
    rcases hr.word hg hs hb with ⟨hv, hnode⟩ | ⟨t, v, left, hpc, hv⟩
    · rw [hv, hnode]
      exact h.word
    · rw [hv]
      exact fun _ hnode => h.pending t v _ hpc List.mem_cons_self hnode
  pending t v left hpc hbl hnode := by
    rcases hr.installs hg.ok hpc with ⟨l, hl, hsub⟩ | ⟨rfl, rfl, hnext⟩
    · exact h.pending t v l hl (hsub hbl) hnode
    · -- The node is that of the thread, and its clock is past what has been seen of it.
      rw [ClockBelow, hnext] at hclock
      rw [nodeOfTs_newVersion hclock, Nat.mod_eq_of_lt (hn _)] at hnode
      rw [ver_newVersion hclock, clock_next (hcl.small _), hnode]
      exact Nat.lt_succ_of_le hw

/-- A cell that is free and has not been written since. -/
theorem Fresh.of_free (hg : σ.Good cfg) (hl : isLocked (σ.locks (cfg.segs.lockLoc b)) = false)
    (hle : ver (σ.locks (cfg.segs.lockLoc b)) ≤ ver r) (n w : ℕ) : Fresh cfg σ b r n w where
  word hlt := absurd hlt (Nat.not_lt.2 hle)
  pending t v left hpc hb := by
    have hp := (hg.ok.local_ok t).pc
    simp only [PcOk, hpc] at hp
    have hh : σ.Holds (σ.cur t) b := hp.1.held.mem_iff.2 hb
    rw [hh.isLocked hg.own] at hl
    cases hl

/-- Versions after `r` are greater than `r`. -/
theorem Fresh.of_le (hg : σ.Good cfg) (hcl : σ.ClockOk cfg)
    (hle : ver r ≤ ver (σ.locks (cfg.segs.lockLoc b))) (hw : w ≤ ver r) :
    Fresh cfg σ b r n w where
  word hlt _ := hw.trans_lt hlt
  pending _ _ _ hpc hb _ := (hw.trans hle).trans_lt (hg.word_lt hcl hpc hb)

/-! ## Entries -/

/-- The cell `b`, which has been read at `r`, gets no version that has been seen of its node. -/
structure EntryOk (cfg : Config) (σ : Sys cfg.segs) (VC : ℕ → Word) (b r : Word) : Prop where
  le : ver r ≤ ver (σ.locks (cfg.segs.lockLoc b))
  fresh : ∀ n, Fresh cfg σ b r n (VC n).toNat

/-- What a call knows of its cell, and of the entries that it has validated. -/
def CallRereads (cfg : Config) (σ : Sys cfg.segs) (tx : Tx) : Pc cfg.segs → Prop
  | .increaseClock op ts _ _ | .validateStart op ts _ =>
    EntryOk cfg σ tx.VC op.access.block ts ∧
      ∀ e, tx.readSet.lookup op.access.block = some e → ver e.ts < ver ts →
        (tx.VC (nodeOfTs ts)).toNat < ver ts
  | .validate op ts _ left _ =>
    EntryOk cfg σ tx.VC op.access.block ts ∧ tx.conflict .variant2 op ts = false ∧
      (∀ p ∈ left, ∃ e, tx.readSet.lookup p.1 = some e ∧ e.ts = p.2) ∧
      (∀ b e, tx.readSet.lookup b = some e → ver e.ts < ver ts →
        b ∈ left.map Prod.fst ∨ Fresh cfg σ b e.ts (nodeOfTs ts) (ver ts)) ∧
      ∀ e, tx.readSet.lookup op.access.block = some e → ver e.ts < ver ts →
        op.access.block ∈ left.map Prod.fst
  | _ => True

/-- What holds of the read set of a thread at every point of its code. -/
structure RereadOk (cfg : Config) (σ : Sys cfg.segs) (th : Thread cfg.segs) : Prop where
  idle : th.pc = .idle → th.tx.readSet = ∅
  entries : ∀ b e, th.tx.readSet.lookup b = some e → EntryOk cfg σ th.tx.VC b e.ts
  call : CallRereads cfg σ th.tx th.pc

/-- What the steps of the library have to keep, and what is known of the state before. -/
structure RereadStep (cfg : Config) (σ : Sys cfg.segs) (a : Act cfg.segs) (σ' : Sys cfg.segs) :
    Prop where
  rule : Rule cfg σ a σ'
  good : σ.Good cfg
  clock : σ.ClockOk cfg
  stamp : σ.StampOk cfg
  grant : NoStaleGrant cfg σ a σ'
  below : ClockBelow cfg (2 ^ 48) σ a σ'
  nodes : ∀ t, cfg.node t < 2 ^ 15

variable {VC : ℕ → Word} {th th' : Thread cfg.segs}

theorem EntryOk.step (h : EntryOk cfg σ VC b r) (hs : RereadStep cfg σ a σ')
    (hb : cfg.segs.IsCell b) (hvc : ∀ n, (VC n).toNat ≤ (σ.clock n).toNat) :
    EntryOk cfg σ' VC b r where
  le := h.le.trans (hs.rule.word_le hs.good hs.clock hs.grant hb)
  fresh n := (h.fresh n).step hs.rule hs.good hs.clock hs.grant hs.nodes hb hs.below (hvc n)

/-- A step of any thread, as a thread sees it that stays where it is. -/
theorem RereadOk.frame (h : RereadOk cfg σ (σ.th t)) (hs : RereadStep cfg σ a σ') :
    RereadOk cfg σ' (σ.th t) where
  idle := h.idle
  entries b e he := (h.entries b e he).step hs ((hs.good.ok.local_ok t).tx.read b e he).1
    (hs.stamp.thread t).vc
  call := by
    have hcall := h.call
    have hvc := (hs.stamp.thread t).vc
    have hstamp : ∀ ts, (σ.th t).pc.Carries ts → Stamp σ.clock ts := fun ts hts =>
      (hs.stamp.thread t).stamp ts (.inr (.inl hts))
    cases hpc : (σ.th t).pc with
    | increaseClock op ts buf cur | validateStart op ts buf =>
      rw [hpc] at hcall
      exact ⟨hcall.1.step hs op.access.isCell hvc, hcall.2⟩
    | validate op ts buf left looked =>
      rw [hpc] at hcall hstamp
      obtain ⟨hop, hconf, hleft, hfresh, hsame⟩ := hcall
      refine ⟨hop.step hs op.access.isCell hvc, hconf, hleft, fun b e he hlt => ?_, hsame⟩
      exact (hfresh b e he hlt).imp_right fun hf => hf.step hs.rule hs.good hs.clock hs.grant
        hs.nodes ((hs.good.ok.local_ok t).tx.read b e he).1 hs.below (hstamp ts rfl)
    | _ => trivial

/-- A thread whose read set and versions seen stay as they are. -/
theorem RereadOk.go (h : RereadOk cfg σ th) (hr : th'.tx.readSet = th.tx.readSet)
    (hvc : th'.tx.VC = th.tx.VC) (hi : th'.pc = .idle → th.tx.readSet = ∅)
    (hc : CallRereads cfg σ th'.tx th'.pc) : RereadOk cfg σ th' where
  idle hpc := hr.trans (hi hpc)
  entries := by
    rw [hr, hvc]
    exact h.entries
  call := hc

/-- A thread that has read nothing. -/
theorem RereadOk.of_empty (hr : th.tx.readSet = ∅) (hc : CallRereads cfg σ th.tx th.pc) :
    RereadOk cfg σ th where
  idle _ := hr
  entries b e he := by
    rw [hr] at he
    cases he
  call := hc

/-! ## Steps -/

/-- A call that goes on. -/
theorem Goes.callRereads {pc : Pc cfg.segs} (hgo : Goes cfg σ t pc)
    (hv : cfg.build.variant = .variant2) (hg : σ'.Good cfg) (hlocks : σ'.locks = σ.locks)
    (htx : (σ.th t).tx.Ok cfg.segs) (h : RereadOk cfg σ' (σ.th t)) :
    CallRereads cfg σ' (σ.th t).tx pc := by
  have hcall := h.call
  cases hgo with
  | clockRead hpc | clockKept hpc | clockRetry hpc =>
    rw [hpc] at hcall
    exact hcall
  | @validate op ts buf o hpc hconf hneed ho =>
    rw [hpc] at hcall
    rw [hv] at hconf ⊢
    have hstale : ∀ b e, (σ.th t).tx.readSet.lookup b = some e → ver e.ts < ver ts →
        b ∈ ((σ.th t).tx.staleEntries .variant2 o ts).map Prod.fst := fun b e he hlt =>
      List.mem_map.2 ⟨(b, e.ts), List.mem_filter.2 ⟨List.mem_append_left _
        (mem_timestamps he ho.rs), isTimestampGreater_iff.2 hlt⟩, rfl⟩
    refine ⟨hcall.1, hconf, fun p hp => ?_, fun b e he hlt => .inl (hstale b e he hlt),
      fun e he hlt => hstale _ e he hlt⟩
    rcases List.mem_append.1 (List.mem_filter.1 hp).1 with hp | hp
    · exact of_mem_timestamps hp
    · cases hp
  | looked hpc =>
    rw [hpc] at hcall
    exact hcall
  | @valid op ts buf b x left looked hpc hch =>
    rw [hpc] at hcall
    obtain ⟨hop, hconf, hleft, hfresh, hsame⟩ := hcall
    obtain ⟨d, hd, hx⟩ := hleft (b, x) List.mem_cons_self
    obtain ⟨hl, hle⟩ := Bool.or_eq_false_iff.1 hch
    rw [Sys.getVersion_eq (htx.read b d hd).1, ← hlocks] at hl hle
    have hle := isTimestampGreater_eq_false.1 hle
    refine ⟨hop, hconf, fun p hp => hleft p (List.mem_cons_of_mem _ hp), fun b' e he hlt => ?_,
      fun e he hlt => ?_⟩
    · rcases hfresh b' e he hlt with hin | hf
      · rcases List.mem_cons.1 hin with rfl | hin
        · -- The entry that has been checked is that of a free cell.
          rw [hd, Option.some.injEq] at he
          subst he
          exact .inr (.of_free hg hl (hx ▸ hle) _ _)
        · exact .inl hin
      · exact .inr hf
    · rcases List.mem_cons.1 (hsame e he hlt) with heq | hin
      · -- The cell of the call itself has a greater version.
        obtain rfl : op.access.block = b := heq
        rw [hd, Option.some.injEq] at he
        subst he
        rw [hx] at hlt
        exact absurd (hop.le.trans hle) (Nat.not_le.2 hlt)
      · exact hin
  | _ => trivial

/-- The maps serve a call without reading. -/
theorem Tx.readSet_served {tx tx' : Tx} {op : Op cfg.segs} {x : List Byte}
    (hs : tx.served .variant2 op = some (tx', x)) : tx'.readSet = tx.readSet := by
  cases op with
  | read a =>
    rw [(Tx.served_read hs).1]
  | write a value =>
    simp only [Tx.served] at hs
    split at hs
    · cases hs
      rfl
    · obtain ⟨d, -, hp⟩ := Option.map_eq_some_iff.1 hs
      cases hp
      rfl

/-- A call has read its cell. -/
theorem RereadOk.fetched (h : RereadOk cfg σ th) (hg : σ.Good cfg) {v : Variant}
    (hv : v = .variant2) {op : Op cfg.segs} {ts : Word} {buf : ℕ → Byte}
    (hl : isLocked (σ.locks (cfg.segs.lockLoc op.access.addr)) = false)
    (he : isTimestampsEquivalent ts (σ.locks (cfg.segs.lockLoc op.access.addr)) = true)
    (c : Option (Word × Word)) :
    RereadOk cfg σ { th with
      tx := th.tx.fetched v op ts buf
      pc := .increaseClock op ts buf none
      toCache := c } := by
  subst hv
  refine h.go rfl rfl (fun hi => by cases hi) ?_
  have hb : cfg.segs.lockLoc op.access.block = cfg.segs.lockLoc op.access.addr :=
    op.access.inHeap.lockLoc_blockLb
  rw [← hb] at hl he
  obtain ⟨hnode, hver⟩ := isTimestampsEquivalent_iff.1 he
  refine ⟨⟨hver.le, fun n => .of_free hg hl hver.ge n _⟩, fun e he hlt => ?_⟩
  rw [hver] at hlt ⊢
  exact ((h.entries _ e he).fresh _).word hlt (congrArg BitVec.toNat hnode.symm)

/-- A call returns that has read its cell. -/
theorem RereadOk.finish {v : Variant} (hv : v = .variant2) {op : Op cfg.segs} {ts : Word}
    {value : List Byte} {tx : Tx} (hr : tx.readSet = th.tx.readSet)
    (hold : ∀ b e, th.tx.readSet.lookup b = some e → EntryOk cfg σ tx.VC b e.ts)
    (hnew : EntryOk cfg σ tx.VC op.access.block ts) :
    RereadOk cfg σ { th with tx := (tx.finished v op ts value).1, pc := .active } where
  idle hpc := by cases hpc
  entries b e he := by
    subst hv
    cases op with
    | read a =>
      rcases lookup_insert_cases he with ⟨rfl, rfl⟩ | he
      · exact hnew
      · exact hold b e (hr ▸ he)
    | write a new => exact hold b e (hr ▸ he)
  call := trivial

/-- The node of a new timestamp has been seen at its version, and the entries with smaller versions
have been validated. -/
theorem EntryOk.setVC (h : EntryOk cfg σ VC b r) (hg : σ.Good cfg) (hcl : σ.ClockOk cfg)
    {ts : Word} (hf : ver r < ver ts → Fresh cfg σ b r (nodeOfTs ts) (ver ts)) :
    EntryOk cfg σ (Function.update VC (nodeOfTs ts) (versionTs ts)) b r where
  le := h.le
  fresh m := by
    rcases eq_or_ne m (nodeOfTs ts) with rfl | hm
    · rw [Function.update_self, versionTs_toNat_ver]
      by_cases hlt : ver r < ver ts
      · exact hf hlt
      · exact .of_le hg hcl h.le (Nat.not_lt.1 hlt)
    · rw [Function.update_of_ne hm]
      exact h.fresh m

/-- A step keeps what its thread knows of its read set. -/
theorem RereadStep.thread (hs : RereadStep cfg σ a σ') (hv : cfg.build.variant = .variant2)
    (hg : σ'.Good cfg) (hcl : σ'.ClockOk cfg) (h : RereadOk cfg σ (σ.th a.tid)) :
    RereadOk cfg σ' (σ'.th a.tid) := by
  have hok := hs.good.ok
  have h' := h.frame hs
  have lift : ∀ {th : Thread cfg.segs} {me : Attempt cfg.segs},
      σ'.th = (σ.upd a.tid th me).th → σ'.att = (σ.upd a.tid th me).att →
      RereadOk cfg σ' th → RereadOk cfg σ' (σ'.th a.tid) :=
    fun hth hatt h => Sys.lift (P := fun th _ => RereadOk cfg σ' th) h hth hatt
  have hcall := h'.call
  cases hs.rule with
  | goto ha hc hgo =>
    subst ha
    exact lift rfl rfl (h'.go rfl rfl (fun hi => absurd hi hgo.not_idle.2)
      (hgo.callRereads hv hg rfl (hok.local_ok _).tx h'))
  | new ptr hpc => exact lift rfl rfl (.of_empty rfl (by dsimp only; rw [hpc]; trivial))
  | begin hpc => exact lift rfl rfl (.of_empty (h'.idle hpc) trivial)
  | delete | addVersion | refuse | grant => exact lift rfl rfl (h'.go rfl rfl h'.idle hcall)
  | load | reply | lost => exact h'
  | deliver hk hm hdesc =>
    obtain rfl := delivers hok.local_ok hok.descs _ _ _ _ _ _ hk hm hdesc
    exact lift rfl rfl (h'.go rfl rfl h'.idle hcall)
  | served hpc hc hser =>
    rw [hv] at hser
    refine lift rfl rfl (h'.go (Tx.readSet_served hser) (Tx.served_eq hser).2 h'.idle ?_)
    dsimp only
    rw [hpc]
    trivial
  | abort _ _ ha =>
    subst ha
    exact lift rfl rfl (.of_empty rfl trivial)
  | released | committed => exact lift rfl rfl (.of_empty rfl trivial)
  | @fetched t c op ts buf hpc hc hl he =>
    exact lift rfl rfl (h'.fetched hg hv hl he _)
  | clockRaised hpc =>
    rw [Act.tid, hpc] at hcall
    exact lift rfl rfl (h'.go rfl rfl (fun hi => by cases hi) hcall)
  | @finish t c op ts buf hpc =>
    rw [Act.tid, hpc] at hcall
    exact lift rfl rfl (.finish hv rfl h'.entries hcall.1)
  | @finishValid t c op ts buf looked hpc =>
    rw [Act.tid, hpc] at hcall
    obtain ⟨hop, -, -, hfresh, -⟩ := hcall
    refine lift rfl rfl (.finish hv rfl (fun b e he => ?_) ?_)
    · exact (h'.entries b e he).setVC hg hcl fun hlt =>
        (hfresh b e he hlt).resolve_left List.not_mem_nil
    · exact hop.setVC hg hcl fun hlt => absurd hlt (lt_irrefl _)
  | _ => exact lift rfl rfl (h'.go rfl rfl (fun hi => by cases hi) trivial)

theorem RereadOk.init (objs : Flat) (t : Tid) :
    RereadOk cfg (Sys.init cfg.segs objs) ((Sys.init cfg.segs objs).th t) :=
  .of_empty rfl trivial

/-- A step of any thread. -/
theorem RereadStep.threads (hs : RereadStep cfg σ a σ') (hv : cfg.build.variant = .variant2)
    (h : ∀ t, RereadOk cfg σ (σ.th t)) (t : Tid) : RereadOk cfg σ' (σ'.th t) := by
  have hg := hs.good.step hs.rule
  rcases eq_or_ne t a.tid with rfl | ht
  · exact hs.thread hv hg (hs.clock.step hs.good.ok hs.rule hs.below) (h _)
  · rw [(hs.rule.sameBut (delivers hs.good.ok.local_ok hs.good.ok.descs)).th t ht]
    exact (h t).frame hs

/-! ## Calls that return -/

/-- A cell that is read again without validation has not got a greater version. -/
theorem RereadOk.not_lt (h : RereadOk cfg σ th) {op : Op cfg.segs} {ts : Word} {buf : ℕ → Byte}
    (hpc : th.pc = .validateStart op ts buf) (hn : th.tx.needsValidation ts = false) {e : Entry}
    (he : th.tx.readSet.lookup op.access.block = some e) : ¬ ver e.ts < ver ts := by
  intro hlt
  have hcall := h.call
  rw [hpc] at hcall
  have hseen := of_decide_eq_false hn
  rw [BitVec.lt_def, versionTs_toNat_ver] at hseen
  exact hseen (hcall.2 e he hlt)

/-- Neither has one whose entries have been validated. -/
theorem RereadOk.not_lt_valid (h : RereadOk cfg σ th) {op : Op cfg.segs} {ts : Word}
    {buf : ℕ → Byte} {looked : Bool} (hpc : th.pc = .validate op ts buf [] looked) {e : Entry}
    (he : th.tx.readSet.lookup op.access.block = some e) : ¬ ver e.ts < ver ts := by
  intro hlt
  have hcall := h.call
  rw [hpc] at hcall
  exact List.not_mem_nil (hcall.2.2.2.2 e he hlt)

/-- A cell that has been written before is read at the version it was read at then. -/
theorem Tx.equivalent_of_conflict {tx : Tx} {op : Op cfg.segs} {ts : Word} {e : Entry}
    (hc : tx.conflict .variant2 op ts = false)
    (he : tx.writeSet.lookup op.access.block = some e) :
    isTimestampsEquivalent e.ts ts = true := by
  simpa [Tx.conflict, he] using hc

end

end DstmP1
