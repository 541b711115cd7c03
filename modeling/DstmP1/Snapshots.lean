import DstmP1.Serializability

/-!
# What a live transaction has read

A call that has read a cell has `validate` look at the entries recorded before, so that a
transaction between two calls has read cells that once existed together. `validate` leaves out the
entries whose version is not smaller than the new one, and all of them when the node of the new
timestamp has been seen at this version. The versions of different nodes are hardly related, and a
node that has seen nothing installs small ones: after a cell that a transaction has read has
changed, such a version may stand in a cell that it reads next, and it goes on with cells that never
existed together (`snapshot_fails`).

This is all that can go wrong. As long as no commit installs a version that comes too late for a
transaction in this way (`lateCommit`), a cell that has changed since the last instant of what the
transaction has read has a version for which `validate` looks at an entry that has changed
(`SnapOk`), so what a transaction between two calls has read is memory at some instant since it
began (`trace_snapshot`).
-/

namespace DstmP1

open Segments (Loc)
open Optimistic (State Step Inv)
open Relation (ReflGen)

section
variable {g : Segments}

/-- The cells that a transaction has recorded, with their timestamps. -/
def Tx.entries (tx : Tx) : List (Word × Word) :=
  timestamps tx.readSet tx.readSet.keys ++ timestamps tx.writeSet tx.writeSet.keys

/-- `version` is greater than `ts` and than what has been recorded with its node. -/
def Tx.outruns (tx : Tx) (version ts : Word) : Bool :=
  isTimestampGreater version ts && tx.entries.all fun e =>
    nodeOfTs e.2 != nodeOfTs version || isTimestampGreater version e.2

/-- The step stores the new version of a commit in the lock word of a cell that the transaction of
`t` has not recorded. Some cell that it has recorded does not pass the check of `validate` any more,
and the new version is not greater than the one recorded for this cell, or than one recorded with
the node of the commit. -/
def lateCommit (cfg : Config) (t : Tid) (σ : Sys cfg.segs) : Act cfg.segs → Bool
  | .run u _ =>
    match (σ.th u).pc with
    | .releaseLocksWithNewClock version (b :: _) =>
      (σ.th t).pc.calling && ((σ.th t).tx.entries.all fun e => e.1 != b) &&
        (σ.th t).tx.entries.any fun e =>
          Tx.changed (σ.getVersion (cfg.segs.getObjectLockAddr e.1)) e.2 &&
            !(σ.th t).tx.outruns version e.2
    | _ => false
  | _ => false

/-- At the instant `σ₁` the cell `b` had the timestamp and the bytes of the entry `e`. The lock bit
is not part of a timestamp. -/
structure Sys.HadAt (σ₁ : Sys g) (b : Word) (e : Entry) : Prop where
  ts : isTimestampsEquivalent (σ₁.locks (g.lockLoc b)) e.ts = true
  copy : σ₁.objs.cell b = e.copy

/-- At the instant `σ₁` of its current transaction, all cells that `t` has recorded had the
timestamps recorded, and the calls so far return on the memory of this instant what they have
returned. -/
structure Sys.Snapshot (σ₁ σ : Sys g) (t : Tid) : Prop where
  cur : σ₁.cur t = σ.cur t
  timestamps : ∀ b ts, (σ.th t).tx.RecordsAt b ts →
    isTimestampsEquivalent (σ₁.locks (g.lockLoc b)) ts = true
  values : ∃ m, replay σ₁.objs (σ.me t).ops = some m

theorem Tx.mem_entries {tx : Tx} {b x : Word} : (b, x) ∈ tx.entries ↔ tx.RecordsAt b x := by
  rw [entries, List.mem_append]
  constructor
  · rintro (h | h)
    · obtain ⟨e, he, hx⟩ := of_mem_timestamps h
      exact ⟨e, .inl he, hx⟩
    · obtain ⟨e, he, hx⟩ := of_mem_timestamps h
      exact ⟨e, .inr he, hx⟩
  · rintro ⟨e, he | he, rfl⟩
    · exact .inl (mem_timestamps he (List.Perm.refl _))
    · exact .inr (mem_timestamps he (List.Perm.refl _))

theorem Tx.outruns_iff {tx : Tx} {version ts : Word} : tx.outruns version ts = true ↔
    ver ts < ver version ∧ ∀ b x, tx.RecordsAt b x → nodeOfTs x = nodeOfTs version →
      ver x < ver version := by
  rw [outruns, Bool.and_eq_true, isTimestampGreater_iff, List.all_eq_true]
  refine and_congr_right fun _ => ⟨fun h b x hr hn => ?_, fun h e he => ?_⟩
  · have hx := h _ (mem_entries.2 hr)
    rw [Bool.or_eq_true, bne_iff_ne, isTimestampGreater_iff] at hx
    exact hx.resolve_left fun hne => hne hn
  · rw [Bool.or_eq_true, bne_iff_ne, isTimestampGreater_iff, ← imp_iff_not_or]
    exact h e.1 e.2 (mem_entries.1 he)

/-! ## Versions that are gone -/

/-- The cell `b` has lost the version `x` for good. -/
def Gone (s : Protocol g) (b : {b : Word // g.IsCell b}) (x : Word) : Prop :=
  (s.vcell b).Known (s.Used ver b) x fun _ => False

variable {σ₁ : Sys g} {s s' : Protocol g} {w : Tid × ℕ} {b : {b : Word // g.IsCell b}} {x : Word}

theorem Gone.step (h : Gone s b x) (hs : ReflGen (Step ver w) s s') : Gone s' b x := by
  cases hs with
  | refl => exact h
  | single hs => exact VCell.Known.step h (hs.vcell b) fun _ => hs.used

/-- A version that has been used is there, clean, or gone. -/
theorem gone_or_current (hu : s.Used ver b x) : Gone s b x ∨ s.label b = x ∧ ¬ s.Dirty b := by
  rcases Classical.em (s.label b = x ∧ ¬ s.Dirty b) with hc | hc
  · exact .inr hc
  · exact .inl ⟨hu, fun hl hd => hc ⟨hl, hd⟩⟩

/-- `validate` looks at an entry that is gone when a cell with the label `x` has been read. -/
def Late (s : Protocol g) (seen : CellMap) (x : Word) : Prop :=
  (∃ (b : {b : Word // g.IsCell b}) (e : Entry), seen.lookup b.1 = some e ∧ Gone s b e.ts ∧
    ver e.ts < ver x) ∧
  ∀ b e, seen.lookup b = some e → nodeOfTs e.ts = nodeOfTs x → ver e.ts < ver x

theorem Late.step {seen : CellMap} (h : Late s seen x) (hs : ReflGen (Step ver w) s s') :
    Late s' seen x := by
  obtain ⟨⟨b, e, he, hg, hlt⟩, hall⟩ := h
  exact ⟨⟨b, e, he, hg.step hs, hlt⟩, hall⟩

/-! ## What a call knows of an instant -/

/-- The timestamp of the cell that the call has read. -/
def Pc.pending : Pc g → Option Word
  | .increaseClock _ ts _ _ | .validateStart _ ts _ | .validate _ ts _ _ _ => some ts
  | _ => none

/-- The call is bound to abort: `validate` will look at an entry that is gone. -/
def Doomed (s : Protocol g) (tx : Tx) (seen : CellMap) : Pc g → Prop
  | .increaseClock _ ts _ _ | .validateStart _ ts _ =>
    tx.needsValidation ts = true ∧ ∃ (b : {b : Word // g.IsCell b}) (e : Entry),
      seen.lookup b.1 = some e ∧ Gone s b e.ts ∧ ver e.ts < ver ts
  | .validate _ _ _ left _ => ∃ (b : {b : Word // g.IsCell b}) (x : Word), (b.1, x) ∈ left ∧
      Gone s b x
  | _ => False

/-- At `σ₁` the cells `seen` had the versions read, and so had all others the present ones, unless
these are such that a call that reads them is bound to abort. -/
structure Snap (σ₁ : Sys g) (s : Protocol g) (seen : CellMap) : Prop where
  had : ∀ b e, seen.lookup b = some e → σ₁.HadAt b e
  other : ∀ b : {b : Word // g.IsCell b}, b.1 ∉ seen → ¬ s.Dirty b →
    σ₁.HadAt b.1 ⟨s.label b, s.data b⟩ ∨ Late s seen (s.label b)

/-- What is known of a transaction that has read the cells `seen`: `VC` and the call under way
come from these. -/
structure SnapOk (σ₁ : Sys g) (s : Protocol g) (th : Thread g) (seen : CellMap) : Prop where
  vc : ∀ n, th.tx.VC n = 0 ∨ ∃ b e, seen.lookup b = some e ∧ nodeOfTs e.ts = n ∧
    versionTs e.ts = th.tx.VC n
  pending : ∀ ts, th.pc.pending = some ts → ∃ b e, seen.lookup b = some e ∧ e.ts = ts
  snap : Doomed s th.tx seen th.pc ∨ Snap σ₁ s seen

variable {th th' : Thread g} {seen : CellMap} {pc pc' : Pc g} {tx : Tx}

theorem Doomed.step (h : Doomed s tx seen pc) (hs : ReflGen (Step ver w) s s') :
    Doomed s' tx seen pc := by
  cases pc with
  | increaseClock | validateStart =>
    obtain ⟨hn, b, e, he, hg, hlt⟩ := h
    exact ⟨hn, b, e, he, hg.step hs, hlt⟩
  | validate =>
    obtain ⟨b, x, hx, hg⟩ := h
    exact ⟨b, x, hx, hg.step hs⟩
  | _ => exact h.elim

/-- A step that installs no version in another cell, or one that comes in time. -/
theorem Snap.step (h : Snap σ₁ s seen) (hs : ReflGen (Step ver w) s s')
    (hl : ∀ b : {b : Word // g.IsCell b}, b.1 ∉ seen → s'.label b ≠ s.label b →
      Late s' seen (s'.label b)) : Snap σ₁ s' seen where
  had := h.had
  other b hb hd := by
    rcases eq_or_ne (s'.label b) (s.label b) with he | hne
    · have hvc : VCell.Step (s.Used ver b) (s.vcell b) (s'.vcell b) := by
        cases hs with
        | refl => exact .refl _
        | single hs => exact hs.vcell b
      obtain ⟨hclean, hdata⟩ := hvc.kept he hd
      rw [he, show s'.data b = s.data b from hdata]
      exact (h.other b hb hclean).imp_right fun hlate => hlate.step hs
    · exact .inr (hl b hb hne)

theorem SnapOk.step (h : SnapOk σ₁ s th seen) (hs : ReflGen (Step ver w) s s')
    (hl : ∀ b : {b : Word // g.IsCell b}, b.1 ∉ seen → s'.label b ≠ s.label b →
      Late s' seen (s'.label b)) : SnapOk σ₁ s' th seen where
  vc := h.vc
  pending := h.pending
  snap := h.snap.imp (fun hd => hd.step hs) fun hsnap => hsnap.step hs hl

/-- Within a call the maps stay, and what makes it abort. -/
theorem SnapOk.go (h : SnapOk σ₁ s th seen) (hvc : th'.tx.VC = th.tx.VC)
    (hp : ∀ ts, th'.pc.pending = some ts → th.pc.pending = some ts)
    (hd : Doomed s th.tx seen th.pc → Doomed s th'.tx seen th'.pc) : SnapOk σ₁ s th' seen where
  vc := hvc ▸ h.vc
  pending ts hts := h.pending ts (hp ts hts)
  snap := h.snap.imp_left hd

/-- A transaction that begins. -/
theorem SnapOk.empty (hvc : th.tx.VC = fun _ => 0) (hp : th.pc.pending = none)
    (h : Snap σ₁ s ∅) : SnapOk σ₁ s th ∅ where
  vc n := .inl (by rw [hvc])
  pending ts hts := by
    rw [hp] at hts
    cases hts
  snap := .inr h

end

section
variable {cfg : Config} {σ σ' σ₁ : Sys cfg.segs} {a : Act cfg.segs} {t : Tid}
  {s s' : Protocol cfg.segs} {objs : Flat}
  {m₀ : {b : Word // cfg.segs.IsCell b} → Cell}

/-- An entry that is gone does not pass the check of `validate`. -/
theorem Gone.changed {b : {b : Word // cfg.segs.IsCell b}} {x : Word} (h : Gone s b x)
    (href : σ.Refines s) (hown : σ.OwnOk cfg) :
    Tx.changed (σ.getVersion (cfg.segs.getObjectLockAddr b.1)) x = true := by
  by_contra hch
  obtain ⟨hl, hle⟩ := Bool.or_eq_false_iff.1 (Bool.eq_false_iff.2 hch)
  rw [Sys.getVersion_eq b.2] at hl hle
  obtain ⟨hfree, hlabel⟩ := href.unlocked hown hl
  -- A version that has been left is smaller than the present one.
  have hx : s.label b = x := by
    refine (h.used.resolve_right fun hlt => ?_).symm
    rw [hlabel] at hlt
    exact absurd (isTimestampGreater_eq_false.1 hle) (Nat.not_le.2 hlt)
  exact h.use hx (State.not_dirty hfree)

theorem isTimestampsEquivalent_lockValNew {ts : Word} (h : Unlocked ts) :
    isTimestampsEquivalent (lockValNew ts) ts = true := by
  refine isTimestampsEquivalent_iff.2 ⟨?_, ver_or_lockBit ts⟩
  exact BitVec.eq_of_toNat_eq (nodeOfTs_or_lockBit h)

/-- The lock word of a cell has the timestamp of its label, also while somebody holds it. -/
theorem Sys.Refines.word_label (h : σ.Refines s) (hinv : Inv ver m₀ s) (hi : σ.TxnsOk cfg)
    (b : {b : Word // cfg.segs.IsCell b}) :
    isTimestampsEquivalent (σ.locks (cfg.segs.lockLoc b.1)) (s.label b) = true := by
  rcases Classical.em (∃ u, σ.Holds u b.1) with ⟨u, hu⟩ | hfree
  · obtain ⟨hcur, hcom, hbw, -⟩ := hu.inside hi.good.ok hi.good.att
    have hrun := (hi.runs u.1).running fun hpc => by
      rw [hpc] at hcom
      cases hcom
    obtain ⟨v, hv⟩ := h.recorded hrun (Tx.recordsAt_entryTs hbw)
    obtain ⟨v', hv'⟩ := hinv.held u b (((h.att u).held b).2 hu)
    rw [← hcur, hv', Option.some.injEq, Prod.mk.injEq] at hv
    rw [hi.good.own.word u b.1 hu, hv.1]
    exact isTimestampsEquivalent_lockValNew ((hi.good.ok.local_ok u.1).tx.unlocked_entryTs hbw)
  · rw [h.label b fun u hu => hfree ⟨u, hu⟩]
    exact isTimestampsEquivalent_refl _

/-- A cell that a live transaction has read, and that is clean at the version read, has this
version and these bytes now. -/
theorem Sys.Refines.known (h : σ.Refines s) (hinv : Inv ver m₀ s) (hi : σ.TxnsOk cfg)
    (hpc : (σ.th t).pc.calling = true) {b : {b : Word // cfg.segs.IsCell b}} {e : Entry}
    (he : (σ.me t).seen.lookup b.1 = some e) :
    (s.vcell b).Known (s.Used ver b) e.ts fun _ => σ.HadAt b.1 e := by
  have hearly : (σ.th t).pc.early = true := by
    cases hp : (σ.th t).pc <;> rw [hp] at hpc <;> first | rfl | cases hpc
  have hnot : σ.cur t ∉ s.log := (h.thread t).early hearly
  have hnf : s.final (σ.cur t) = false := by
    by_contra hf
    exact hnot (hinv.logged _ (Bool.not_eq_false _ ▸ hf))
  have hr : s.reads (σ.cur t) b = some (e.ts, e.copy) := by
    rw [(h.att _).reads, show (σ.att (σ.cur t)).seen.lookup b.1 = _ from he]
    rfl
  refine ⟨hinv.used _ _ _ _ hr, fun hl hd => ⟨?_, ?_⟩⟩
  · have hw := h.word_label hinv hi b
    rwa [show s.label b = e.ts from hl] at hw
  · rw [← h.data b, hinv.data_eq hd, ← State.before_of_not_mem hnot]
    exact hinv.known _ _ _ _ hnf hr hl.symm hd

/-- All cells have their present versions now. -/
theorem Sys.Refines.hadAt (h : σ.Refines s) (hinv : Inv ver m₀ s) (hi : σ.TxnsOk cfg)
    (b : {b : Word // cfg.segs.IsCell b}) : σ.HadAt b.1 ⟨s.label b, s.data b⟩ :=
  ⟨h.word_label hinv hi b, (h.data b).symm⟩

/-- The present state is an instant of a live transaction that has lost nothing. -/
theorem Sys.Refines.snap_now (h : σ.Refines s) (hinv : Inv ver m₀ s) (hi : σ.TxnsOk cfg)
    (hpc : (σ.th t).pc.calling = true)
    (hc : ∀ (b : {b : Word // cfg.segs.IsCell b}) (e : Entry), (σ.me t).seen.lookup b.1 = some e →
      s.label b = e.ts ∧ ¬ s.Dirty b) : Snap σ s (σ.me t).seen where
  had b e he := by
    have hrun := (hi.runs t).running fun hidle => by
      rw [hidle] at hpc
      cases hpc
    have hb := hrun.isCell (hi.good.ok.local_ok t).tx (mem_of_lookup he)
    obtain ⟨hl, hd⟩ := hc ⟨b, hb⟩ e he
    exact (h.known hinv hi hpc (b := ⟨b, hb⟩) he).use hl hd
  other b _ _ := .inl (h.hadAt hinv hi b)

/-! ## What a step of the thread makes of it -/

/-- `validate` looks at the entries when the version is greater than those recorded with its
node. -/
theorem SnapOk.needsValidation {th : Thread cfg.segs} {seen : CellMap} {x : Word}
    (h : SnapOk σ₁ s th seen) (hx : 0 < ver x)
    (hall : ∀ b e, seen.lookup b = some e → nodeOfTs e.ts = nodeOfTs x → ver e.ts < ver x) :
    th.tx.needsValidation x = true := by
  rw [Tx.needsValidation, decide_eq_true_iff, BitVec.lt_def, versionTs_toNat_ver]
  rcases h.vc (nodeOfTs x) with h0 | ⟨b, e, he, hn, hv⟩
  · rw [h0]
    exact hx
  · rw [← hv, versionTs_toNat_ver]
    exact hall b e he hn

/-- A cell has been read: it had its version at the instant, or `validate` will look at an entry
that is gone. -/
theorem Sys.Refines.snap_fetched (h : σ.Refines s) (hi : σ.TxnsOk cfg) {op : Op cfg.segs}
    {ts : Word} {buf : ℕ → Byte} (hpc : (σ.th t).pc = .readCell op (.data ts [] buf))
    (hl : isLocked (σ.locks (cfg.segs.lockLoc op.access.addr)) = false)
    (he : isTimestampsEquivalent ts (σ.locks (cfg.segs.lockLoc op.access.addr)) = true)
    (hs : SnapOk σ₁ s (σ.th t) (σ.me t).seen) :
    SnapOk σ₁ s { σ.th t with
        tx := (σ.th t).tx.fetched cfg.build.variant op ts buf
        pc := .increaseClock op ts buf none
        toCache := cfg.build.toCache op.access.block ts }
      ((σ.me t).seen.insert op.access.block ⟨ts, fun i => buf i⟩) := by
  obtain ⟨hfree, hts, hcopy⟩ := h.fetch_eq hi hpc hl he
  have hrun := (hi.runs t).running (show (σ.th t).pc ≠ .idle by rw [hpc]; simp)
  have hnot : op.cell.1 ∉ (σ.me t).seen := by
    intro hin
    obtain ⟨e, hin⟩ := exists_lookup hin
    obtain ⟨e', hr | hr, -⟩ := (hrun.cells op.cell.1 e.ts).2 ⟨e.copy, hin⟩
    · exact (Tx.Tracks.not_mem (hrun.new op _ hpc)).2 (mem_of_lookup hr)
    · exact (Tx.Tracks.not_mem (hrun.new op _ hpc)).1 (mem_of_lookup hr)
  have hkeep : ∀ {b e}, (σ.me t).seen.lookup b = some e →
      ((σ.me t).seen.insert op.access.block ⟨ts, fun i => buf i⟩).lookup b = some e := by
    intro b e hb
    have hne : b ≠ op.access.block := by
      rintro rfl
      exact hnot (mem_of_lookup hb)
    rw [AList.lookup_insert_ne hne, hb]
  have hvc : ((σ.th t).tx.fetched cfg.build.variant op ts buf).VC = (σ.th t).tx.VC :=
    (Tx.fetched_eq ts buf).2
  have hneed : ∀ {x}, Late s (σ.me t).seen x → nodeOfTs ts = nodeOfTs x → ver x ≤ ver ts →
      Doomed s ((σ.th t).tx.fetched cfg.build.variant op ts buf)
        ((σ.me t).seen.insert op.access.block ⟨ts, fun i => buf i⟩)
        (.increaseClock op ts buf none) := by
    rintro x ⟨⟨b, e, hb, hg, hlt⟩, hall⟩ hn hle
    refine ⟨?_, b, e, hkeep hb, hg, hlt.trans_le hle⟩
    rw [Tx.needsValidation, hvc]
    exact hs.needsValidation (by omega) fun c e' hc hn' =>
      (hall c e' hc (hn'.trans hn)).trans_le hle
  refine ⟨fun n => ?_, fun x hx => ?_, ?_⟩
  · rw [hvc]
    refine (hs.vc n).imp_right ?_
    rintro ⟨b, e, hb, hn, hx⟩
    exact ⟨b, e, hkeep hb, hn, hx⟩
  · cases hx
    exact ⟨_, _, AList.lookup_insert _, rfl⟩
  · have hsnap : Snap σ₁ s (σ.me t).seen := hs.snap.resolve_left fun hd => by
      rw [hpc] at hd
      exact hd
    rcases hsnap.other op.cell hnot (State.not_dirty hfree) with hhad | hlate
    · by_cases hbad : ∃ b : {b : Word // cfg.segs.IsCell b}, Late s (σ.me t).seen (s.label b) ∧
        nodeOfTs ts = nodeOfTs (s.label b) ∧ ver (s.label b) ≤ ver ts
      · obtain ⟨b, hlate, hn, hle⟩ := hbad
        exact .inl (hneed hlate hn hle)
      · refine .inr ⟨fun b e hb => ?_, fun b hb hd => ?_⟩
        · rcases lookup_insert_cases hb with ⟨rfl, rfl⟩ | hb
          · rw [hts, ← hcopy] at hhad
            exact hhad
          · exact hsnap.had b e hb
        · have hb' : b.1 ∉ (σ.me t).seen := fun hin => hb ((AList.mem_insert _).2 (.inr hin))
          refine (hsnap.other b hb' hd).imp_right fun hlate => ?_
          obtain ⟨⟨c, e, hc, hg, hlt⟩, hall⟩ := hlate
          refine ⟨⟨c, e, hkeep hc, hg, hlt⟩, fun d e' hd' hn => ?_⟩
          rcases lookup_insert_cases hd' with ⟨rfl, rfl⟩ | hd'
          · by_contra hge
            exact hbad ⟨b, ⟨⟨c, e, hc, hg, hlt⟩, hall⟩, hn, Nat.not_lt.1 hge⟩
          · exact hall d e' hd' hn
    · rw [hts] at hlate
      exact .inl (hneed hlate rfl le_rfl)

/-- An entry with a smaller version is one that `validate` looks at. -/
theorem Tx.RecordsAt.stale {tx : Tx} {b x ts : Word} {o : Tx.Orders} (h : tx.RecordsAt b x)
    (ho : o.Of tx) (hg : isTimestampGreater ts x = true) :
    (b, x) ∈ tx.staleEntries .variant1 o ts := by
  refine List.mem_filter.2 ⟨?_, hg⟩
  obtain ⟨e, he | he, rfl⟩ := h
  · exact List.mem_append_left _ (mem_timestamps he ho.rs)
  · exact List.mem_append_right _ (mem_timestamps he ho.ws)

/-- A thread that only moves on within a call. -/
theorem Goes.snapOk {pc : Pc cfg.segs} (hg : Goes cfg σ t pc) (hv : cfg.build.variant = .variant1)
    (href : σ.Refines s) (hi : σ.TxnsOk cfg) (hcall : pc.calling = true) :
    (σ.th t).pc.calling = true ∧ ∀ σ₁, SnapOk σ₁ s (σ.th t) (σ.me t).seen →
      SnapOk σ₁ s { σ.th t with pc := pc } (σ.me t).seen := by
  cases hg with
  | fetch op hpc | readVersion hpc | readPiece _ _ hpc | retry hpc | clockRead hpc | clockKept hpc
  | clockRetry hpc | looked hpc =>
    refine ⟨by rw [hpc]; rfl, fun σ₁ h => h.go rfl ?_ ?_⟩
    · rw [hpc]
      exact fun _ => id
    · rw [hpc]
      exact id
  | @validate op ts buf o hpc hcf hneed ho =>
    have hrun := (hi.runs t).running (show (σ.th t).pc ≠ .idle by rw [hpc]; simp)
    refine ⟨by rw [hpc]; rfl, fun σ₁ h => h.go rfl ?_ ?_⟩
    · rw [hpc]
      exact fun _ => id
    · rw [hpc, hv]
      rintro ⟨-, b, e, he, hgone, hlt⟩
      have hrec := (hrun.cells b.1 e.ts).2 ⟨e.copy, he⟩
      exact ⟨b, e.ts, hrec.stale ho (isTimestampGreater_iff.2 hlt), hgone⟩
  | @valid op ts buf b x left looked hpc hch =>
    refine ⟨by rw [hpc]; rfl, fun σ₁ h => h.go rfl ?_ ?_⟩
    · rw [hpc]
      exact fun _ => id
    · rw [hpc]
      rintro ⟨c, y, hc, hgone⟩
      rcases List.mem_cons.1 hc with he | hc
      · cases he
        rw [hgone.changed href hi.good.own] at hch
        cases hch
      · exact ⟨c, y, hc, hgone⟩
  | _ => cases hcall

/-- The call returns. -/
theorem SnapOk.finish {th : Thread cfg.segs} {seen : CellMap} {op : Op cfg.segs} {ts : Word}
    {value : List Byte} {v : Variant} (h : SnapOk σ₁ s th seen)
    (hn : th.tx.needsValidation ts = false) (hpc : ∃ buf, th.pc = .validateStart op ts buf) :
    SnapOk σ₁ s { th with tx := (th.tx.finished v op ts value).1, pc := .active } seen := by
  obtain ⟨buf, hpc⟩ := hpc
  refine h.go (Tx.finished_eq ts value).2 (fun _ hx => by cases hx) ?_
  rw [hpc]
  rintro ⟨hn', -⟩
  rw [hn] at hn'
  cases hn'

/-- The call returns and has validated the entries. -/
theorem SnapOk.finishValid {th : Thread cfg.segs} {seen : CellMap} {op : Op cfg.segs} {ts : Word}
    {value : List Byte} {v : Variant} (h : SnapOk σ₁ s th seen)
    (hpc : ∃ buf looked, th.pc = .validate op ts buf [] looked) :
    SnapOk σ₁ s { th with tx := ((th.tx.setVC ts).finished v op ts value).1, pc := .active }
      seen := by
  obtain ⟨buf, looked, hpc⟩ := hpc
  refine ⟨fun n => ?_, (fun _ hx => by cases hx), .inr (h.snap.resolve_left ?_)⟩
  · have hvc : ((th.tx.setVC ts).finished v op ts value).1.VC =
        Function.update th.tx.VC (nodeOfTs ts) (versionTs ts) := (Tx.finished_eq ts value).2
    rw [hvc]
    rcases eq_or_ne n (nodeOfTs ts) with rfl | hne
    · obtain ⟨b, e, he, rfl⟩ := h.pending ts (by rw [hpc]; rfl)
      exact .inr ⟨b, e, he, rfl, by rw [Function.update_self]⟩
    · rw [Function.update_of_ne hne]
      exact h.vc n
  · rw [hpc]
    rintro ⟨b, x, hx, -⟩
    exact List.not_mem_nil hx

/-- Some state of `states` is an instant of the current transaction of `t` for what it has read. -/
def Sys.Snapped (states : List (Sys cfg.segs)) (σ : Sys cfg.segs) (s : Protocol cfg.segs)
    (t : Tid) : Prop :=
  ∃ σ₁ ∈ states, σ₁.cur t = σ.cur t ∧ SnapOk σ₁ s (σ.th t) (σ.me t).seen

/-- A step of a thread that is between `begin` and `commit` then. -/
theorem Rule.snapped (hr : Rule cfg σ a σ') (hv : cfg.build.variant = .variant1)
    (href : σ.Refines s) (hinv : Inv ver m₀ s) (hi : σ.TxnsOk cfg)
    {states : List (Sys cfg.segs)}
    (h : (σ.th a.tid).pc.calling = true → σ.Snapped states s a.tid)
    (hcall : (σ'.th a.tid).pc.calling = true) : σ'.Snapped (σ' :: states) s a.tid := by
  have keep : ∀ {th : Thread cfg.segs} {me : Attempt cfg.segs},
      σ'.th = (σ.upd a.tid th me).th → σ'.att = (σ.upd a.tid th me).att →
      th.round = (σ.th a.tid).round →
      (th.pc.calling = true → (σ.th a.tid).pc.calling = true ∧
        ∀ σ₁, SnapOk σ₁ s (σ.th a.tid) (σ.me a.tid).seen → SnapOk σ₁ s th me.seen) →
      σ'.Snapped (σ' :: states) s a.tid := by
    intro th me hth hatt hround hstep
    rw [hth, Sys.upd_th] at hcall
    obtain ⟨hbefore, hsnap⟩ := hstep hcall
    obtain ⟨σ₁, hmem, hcur, h₁⟩ := h hbefore
    have hc : σ'.cur a.tid = σ.cur a.tid := by rw [Sys.cur, Sys.cur, hth, Sys.upd_th, hround]
    refine ⟨σ₁, List.mem_cons_of_mem _ hmem, hcur.trans hc.symm, ?_⟩
    have hme : σ'.me a.tid = me := by
      rw [Sys.me, hc, hatt, Sys.cur, ← hround, Sys.upd_att]
    rw [hth, Sys.upd_th, hme]
    exact hsnap σ₁ h₁
  have hsame : σ.th = Function.update σ.th a.tid (σ.th a.tid) ∧
      σ.att = Function.update σ.att (a.tid, (σ.th a.tid).round) (σ.me a.tid) :=
    ⟨(Function.update_eq_self _ _).symm, (Function.update_eq_self _ _).symm⟩
  have same : ∀ {th : Thread cfg.segs}, th.pc = (σ.th a.tid).pc →
      th.tx.VC = (σ.th a.tid).tx.VC → (th.pc.calling = true → (σ.th a.tid).pc.calling = true ∧
        ∀ σ₁, SnapOk σ₁ s (σ.th a.tid) (σ.me a.tid).seen →
          SnapOk σ₁ s th (σ.me a.tid).seen) := by
    intro th hpc hvc hc
    refine ⟨hpc ▸ hc, fun σ₁ h₁ => h₁.go hvc (by rw [hpc]; exact fun _ => id) fun hd => ?_⟩
    rw [hpc]
    cases hp : (σ.th a.tid).pc with
    | increaseClock | validateStart =>
      rw [hp] at hd
      obtain ⟨hn, hd⟩ := hd
      refine ⟨?_, hd⟩
      rw [Tx.needsValidation, hvc]
      exact hn
    | _ =>
      rw [hp] at hd
      exact hd
  cases hr with
  | goto ha hc hg =>
    subst ha
    exact keep rfl rfl rfl (hg.snapOk hv href hi)
  | begin =>
    refine ⟨_, List.mem_cons_self, rfl, Sys.lift (P := fun th me => SnapOk _ s th me.seen)
      (.empty rfl rfl ⟨(fun _ _ he => by cases he), fun b _ _ => .inl ?_⟩) rfl rfl⟩
    have hhad := href.hadAt hinv hi b
    exact ⟨hhad.ts, hhad.copy⟩
  | load | reply | lost => exact keep hsame.1 hsame.2 rfl (same rfl rfl)
  | deliver hk hmsg hdesc =>
    obtain rfl := delivers hi.good.ok.local_ok hi.good.ok.descs _ _ _ _ _ _ hk hmsg hdesc
    exact keep rfl rfl rfl (same rfl rfl)
  | new ptr hpc => exact keep rfl rfl rfl fun hc => by rw [hpc] at hc; cases hc
  | delete | addVersion | refuse | grant => exact keep rfl rfl rfl (same rfl rfl)
  | served hpc hc hser => exact keep rfl rfl rfl (same rfl (Tx.served_eq hser).2)
  | abort hpc hc ha =>
    subst ha
    exact keep rfl rfl rfl fun hc => by cases hc
  | released | committed | batch | send | lockPoint | restore | validated | invalid | put | issue
  | release => exact keep rfl rfl rfl fun hc => by cases hc
  | clockRaised hpc =>
    refine keep rfl rfl rfl fun _ => ?_
    rw [Act.tid, hpc]
    refine ⟨rfl, fun σ₁ h => h.go rfl ?_ ?_⟩ <;> rw [hpc]
    · exact fun _ => id
    · exact id
  | finish hpc hc hcf hneed =>
    exact keep rfl rfl rfl fun _ => ⟨by rw [Act.tid, hpc]; rfl, fun σ₁ h => h.finish hneed ⟨_, hpc⟩⟩
  | finishValid hpc =>
    exact keep rfl rfl rfl fun _ => ⟨by rw [Act.tid, hpc]; rfl, fun σ₁ h =>
      h.finishValid ⟨_, _, hpc⟩⟩
  | fetched hpc hc hl he =>
    exact keep rfl rfl rfl fun _ => ⟨by rw [Act.tid, hpc]; rfl, fun σ₁ h =>
      href.snap_fetched hi hpc hl he h⟩

/-! ## What a step of another thread makes of it -/

/-- While new versions are stored the code takes a step, or a version goes to the cache. -/
theorem step_release (hok : σ.Ok cfg) (hs : step cfg σ a = some σ') {version b : Word}
    {left : List Word}
    (hpc : (σ.th a.tid).pc = .releaseLocksWithNewClock version (b :: left)) :
    (∃ c, a = .run a.tid c) ∧ (σ'.th a.tid).pc = .releaseLocksWithNewClock version left ∨
      σ'.att = σ.att := by
  have hnet : σ.net a.tid = [] := by
    have hl := (hok.local_ok a.tid).pc
    simp only [PcOk, hpc] at hl
    exact hl.1.net
  cases hc : (σ.th a.tid).toCache with
  | none =>
    obtain ⟨c, ha, hrun⟩ := step_eq_run hs (by rw [hpc]; simp) (by rw [hpc]; simp) hnet hc
    rw [stepRun, hpc] at hrun
    cases hrun
    refine .inl ⟨⟨c, ha⟩, ?_⟩
    simp only [stepReleaseLocksWithNewClock, Sys.putLock, Sys.upd_th]
  | some e =>
    cases a with
    | addVersion t =>
      obtain ⟨e, -, rfl⟩ := Option.map_eq_some_iff.1 hs
      exact .inr (Function.update_eq_self _ _)
    | run t c =>
      simp only [Act.tid] at hc
      simp [step, hc] at hs
    | handle t k | deliver t k =>
      simp only [Act.tid] at hnet
      simp [step, stepHandle, stepDeliver, hnet] at hs
    | new t | begin t | delete t | call t | commit t | rollback t =>
      simp only [Act.tid] at hpc
      simp [step, hpc] at hs

/-- A label changes only when `releaseLocksWithNewClock` stores a new version. -/
theorem Sys.Refines.label_step (href : σ.Refines s) (href' : σ'.Refines s')
    (hi : σ.TxnsOk cfg) (hstep : step cfg σ a = some σ')
    (hs : ReflGen (Step ver (σ.cur a.tid)) s s') : s'.label = s.label ∨
    ∃ c version left, ∃ b : {b : Word // cfg.segs.IsCell b}, a = .run a.tid c ∧
      (σ.th a.tid).pc = .releaseLocksWithNewClock version (b.1 :: left) ∧
      (σ'.th a.tid).pc = .releaseLocksWithNewClock version left ∧
      s'.label = Function.update s.label b version ∧ ∀ c, s'.Dirty c → s.Dirty c := by
  cases hs with
  | refl => exact .inl rfl
  | single hs =>
    cases hs with
    | @release b l hf hh hw hlt =>
      have hheld : σ.Holds (σ.cur a.tid) b.1 := ((href.att _).held b).1 hh
      have hleft : ¬ σ'.Holds (σ.cur a.tid) b.1 := fun h' =>
        (((href'.att _).held b).2 h').2 ⟨rfl, rfl⟩
      obtain ⟨-, hcom, -, -⟩ := hheld.inside hi.good.ok hi.good.att
      have hcom : (σ.th a.tid).pc.committing = true := hcom
      cases (step_rule hstep).lockStep hi.good.ok hi.good.att with
      | keep _ hk =>
        rw [Sys.Holds, hk] at hleft
        exact absurd hheld hleft
      | grant _ _ _ _ hk => exact absurd ((holds_grant hk _ _).2 (.inl hheld)) hleft
      | @giveBack t c w hc hput hlocks hk =>
        have heq : σ.cur a.tid = σ.cur t ∧ b.1 = c := by
          by_contra hne
          exact hleft ((holds_giveBack hk _ _).2 ⟨hheld, hne⟩)
        obtain rfl : a.tid = t := congrArg Prod.fst heq.1
        obtain rfl := heq.2
        cases hput with
        | restore hpc =>
          -- A transaction that gives up is not final.
          have hcur := hi.log.cur a.tid
          rw [hpc] at hcur
          have hval := (href.att (σ.cur a.tid)).final.symm.trans hf
          rw [← Sys.me, hcur.2.1] at hval
          cases hval
        | @release version left hpc =>
          obtain ⟨⟨c, ha⟩, hpc'⟩ := (step_release hi.good.ok hstep hpc).resolve_right fun hatt =>
            hleft (by rw [Sys.Holds, hatt]; exact hheld)
          -- Nobody holds the cell any more, so its label is its word.
          have hfree : ∀ u, ¬ σ'.Holds u b.1 := fun u hu => by
            obtain ⟨hu, hne⟩ := (holds_giveBack hk u b.1).1 hu
            exact hne ⟨hi.good.own.excl u (σ.cur a.tid) b.1 hu hheld, rfl⟩
          have hl : σ'.locks (cfg.segs.lockLoc b.1) = l :=
            (href'.label b hfree).trans (Function.update_self ..)
          rw [hlocks, Function.update_self] at hl
          subst hl
          exact .inr ⟨c, w, left, b, ha, hpc, hpc', rfl,
            fun _ hd => hd.imp fun _ hu => ⟨hu.1, hu.2.1⟩⟩
    | _ => exact .inl rfl

/-- A version that does not come late shows a transaction that it has lost a cell. -/
theorem Sys.Refines.late_of_release (href : σ.Refines s) (hi : σ.TxnsOk cfg) {u : Tid}
    {c : Choice} {version : Word} {left : List Word} {b d : {b : Word // cfg.segs.IsCell b}}
    {e : Entry} (hpc : (σ.th u).pc = .releaseLocksWithNewClock version (b.1 :: left))
    (hm : lateCommit cfg t σ (.run u c) = false) (hcall : (σ.th t).pc.calling = true)
    (hb : b.1 ∉ (σ.me t).seen) (hd : (σ.me t).seen.lookup d.1 = some e) (hg : Gone s d e.ts) :
    Late s (σ.me t).seen version := by
  have hrun := (hi.runs t).running fun hidle => by
    rw [hidle] at hcall
    cases hcall
  have hall : (σ.th t).tx.entries.all (fun e => e.1 != b.1) = true := by
    refine List.all_eq_true.2 fun x hx => bne_iff_ne.2 fun hxb => hb ?_
    obtain ⟨copy, hc⟩ := (hrun.cells _ _).1 (Tx.mem_entries.1 hx)
    exact hxb ▸ mem_of_lookup hc
  simp only [lateCommit, hpc, hcall, hall, Bool.true_and] at hm
  have hin := Tx.mem_entries.2 ((hrun.cells d.1 e.ts).2 ⟨e.copy, hd⟩)
  have hout := List.any_eq_false.1 hm _ hin
  simp only [hg.changed href hi.good.own, Bool.true_and, Bool.not_eq_true',
    Bool.not_eq_false] at hout
  obtain ⟨hlt, hrest⟩ := Tx.outruns_iff.1 hout
  exact ⟨⟨d, e, hd, hg, hlt⟩, fun b' e' he' hn =>
    hrest b' e'.ts ((hrun.cells _ _).2 ⟨e'.copy, he'⟩) hn⟩

/-- A step of another thread that does not come late. -/
theorem Sys.Refines.snapped_other (href : σ.Refines s) (href' : σ'.Refines s')
    (hinv : Inv ver m₀ s) (hinv' : Inv ver m₀ s') (hi : σ.TxnsOk cfg) (hi' : σ'.TxnsOk cfg)
    (hstep : step cfg σ a = some σ') (hs : ReflGen (Step ver (σ.cur a.tid)) s s')
    (hm : lateCommit cfg t σ a = false) (ht : t ≠ a.tid) {states : List (Sys cfg.segs)}
    (hcall : (σ'.th t).pc.calling = true)
    (h : (σ.th t).pc.calling = true → σ.Snapped states s t) :
    σ'.Snapped (σ' :: states) s' t := by
  have hsame := (step_rule hstep).sameBut (delivers hi.good.ok.local_ok hi.good.ok.descs)
  have hcur : σ'.cur t = σ.cur t := by rw [Sys.cur, Sys.cur, hsame.th t ht]
  have hth := hsame.th t ht
  have hme := hsame.me ht
  rw [hth] at hcall
  obtain ⟨σ₁, hmem, hcur₁, h₁⟩ := h hcall
  have stay : (∀ b : {b : Word // cfg.segs.IsCell b}, b.1 ∉ (σ.me t).seen →
      s'.label b ≠ s.label b → Late s' (σ.me t).seen (s'.label b)) →
      σ'.Snapped (σ' :: states) s' t := by
    intro hl
    refine ⟨σ₁, List.mem_cons_of_mem _ hmem, hcur₁.trans hcur.symm, ?_⟩
    rw [hth, hme]
    exact h₁.step hs hl
  rcases href.label_step href' hi hstep hs with
    hlab | ⟨c, version, left, b, ha, hpc, -, hlab, hdirty⟩
  · exact stay fun b _ hne => absurd (congrFun hlab b) hne
  · have hother : ∀ d ≠ b, s'.label d = s.label d := fun d hd => by
      rw [hlab, Function.update_of_ne hd]
    rw [ha] at hm
    by_cases hb : b.1 ∈ (σ.me t).seen
    · refine stay fun d hd hne => absurd (hother d ?_) hne
      rintro rfl
      exact hd hb
    · rcases Classical.em (∃ (d : {b : Word // cfg.segs.IsCell b}) (e : Entry),
        (σ.me t).seen.lookup d.1 = some e ∧ Gone s d e.ts) with ⟨d, e, hd, hg⟩ | hnone
      · have hlate := href.late_of_release hi hpc hm hcall hb hd hg
        refine stay fun d' hd' hne => ?_
        have hdb : d' = b := by
          by_contra hdb
          exact hne (hother d' hdb)
        rw [hdb, hlab, Function.update_self]
        exact hlate.step hs
      · -- Nothing is lost yet, so the next state is an instant too.
        have hcurrent : ∀ (d : {b : Word // cfg.segs.IsCell b}) (e : Entry),
            (σ.me t).seen.lookup d.1 = some e → s'.label d = e.ts ∧ ¬ s'.Dirty d := by
          intro d e hd
          have hr : s.reads (σ.cur t) d = some (e.ts, e.copy) := by
            rw [(href.att _).reads, show (σ.att (σ.cur t)).seen.lookup d.1 = _ from hd]
            rfl
          obtain ⟨hl, hclean⟩ := (gone_or_current (hinv.used _ _ _ _ hr)).resolve_left fun hg =>
            hnone ⟨d, e, hd, hg⟩
          have hdb : d ≠ b := by
            rintro rfl
            exact hb (mem_of_lookup hd)
          exact ⟨(hother d hdb).trans hl, fun hd => hclean (hdirty d hd)⟩
        have hnow := href'.snap_now hinv' hi' (t := t) (hth ▸ hcall) (hme ▸ hcurrent)
        refine ⟨σ', List.mem_cons_self, rfl, ?_⟩
        rw [hth, hme]
        exact ⟨h₁.vc, h₁.pending, .inr (hme ▸ hnow)⟩

/-! ## Every run -/

variable {h : List (Sys cfg.segs × Act cfg.segs)}

/-- In a run that meets the conditions a transaction that is live has such an instant. -/
theorem trace_snapped (hv : cfg.build.variant = .variant1) (ht : (cfg.lts objs).Trace h σ)
    (hb : ∀ x ∈ h, SmallStep cfg x = true)
    (hs : ∀ x ∈ h, staleGrant cfg x.1 x.2 = false)
    (hm : ∀ x ∈ h, lateCommit cfg t x.1 x.2 = false) :
    σ.TxnsOk cfg ∧ ∃ s, σ.Refines s ∧
      Inv ver (fun b : {b : Word // cfg.segs.IsCell b} => objs.cell b.1) s ∧
      ((σ.th t).pc.calling = true → σ.Snapped (σ :: h.map Prod.fst) s t) := by
  induction ht with
  | init hi =>
    subst hi
    refine ⟨.init objs, .start objs, .init objs, Protocol.start_inv objs, ?_⟩
    intro hc
    cases hc
  | @step h σ σ' a ht hstep ih =>
    obtain ⟨hi, s, href, hinv, hsnap⟩ := ih (fun x hx => hb x (List.mem_cons_of_mem _ hx))
      (fun x hx => hs x (List.mem_cons_of_mem _ hx)) fun x hx => hm x (List.mem_cons_of_mem _ hx)
    have hsmall := hb _ List.mem_cons_self
    rw [SmallStep, show step cfg σ a = some σ' from hstep, Option.all_some,
      decide_eq_true_iff] at hsmall
    have hr := step_rule hstep
    obtain ⟨s', hsim, href'⟩ := hr.simulates hv (hs _ List.mem_cons_self) hi hinv href
    have hi' := hi.step hv hr hsmall
    have hinv' : Inv ver (fun b : {b : Word // cfg.segs.IsCell b} => objs.cell b.1) s' := by
      cases hsim with
      | refl => exact hinv
      | single hsim => exact hinv.step hsim
    refine ⟨hi', s', href', hinv', fun hc => ?_⟩
    by_cases hta : t = a.tid
    · subst hta
      obtain ⟨σ₁, hmem, hcur, h₁⟩ := hr.snapped hv href hinv hi hsnap hc
      refine ⟨σ₁, hmem, hcur, h₁.step hsim fun b _ hne => ?_⟩
      rcases href.label_step href' hi hstep hsim with hl | ⟨c, version, left, d, -, -, hpc, -⟩
      · exact absurd (congrFun hl b) hne
      · rw [hpc] at hc
        cases hc
    · exact href.snapped_other href' hinv hinv' hi hi' hstep hsim (hm _ List.mem_cons_self) hta hc
        hsnap

/-- **Consistent snapshots**: in a run in which no clock reaches `2^48`, no lock is granted whose
word is not the version recorded, and no commit installs a version that comes too late for the
transaction of `t`, this transaction, between two calls, has an instant since it began at which all
cells it has recorded had the timestamps recorded, and the memory of this instant gives its calls
the values they have returned. -/
theorem trace_snapshot (hv : cfg.build.variant = .variant1) (ht : (cfg.lts objs).Trace h σ)
    (hb : ∀ x ∈ h, SmallStep cfg x = true)
    (hs : ∀ x ∈ h, staleGrant cfg x.1 x.2 = false)
    (hm : ∀ x ∈ h, lateCommit cfg t x.1 x.2 = false) (hpc : (σ.th t).pc = .active) :
    ∃ σ₁ ∈ σ :: h.map Prod.fst, σ₁.Snapshot σ t := by
  obtain ⟨hi, s, -, -, hsnap⟩ := trace_snapped hv ht hb hs hm
  obtain ⟨σ₁, hmem, hcur, h₁⟩ := hsnap (by rw [hpc]; rfl)
  have hhad := (h₁.snap.resolve_left fun hd => by rw [hpc] at hd; exact hd).had
  have hrun := (hi.runs t).running (by rw [hpc]; simp)
  refine ⟨σ₁, hmem, hcur, fun b ts hr => ?_, ?_⟩
  · obtain ⟨c, hc⟩ := (hrun.cells b ts).1 hr
    exact (hhad b _ hc).ts
  · obtain ⟨m, hm, -⟩ := hrun.runs σ₁.objs fun b e he => (hhad b e he).copy
    exact ⟨m, hm⟩

end

/-! ## Concrete runs -/

/-- Node 0 writes `cellX`, whose version it has installed itself, and commits. -/
def writeXAgain (build : Build) : List (Act (small build).segs) :=
  List.flatten [[.begin 0, .call 0 (.write cellX (smallValue 1))],
    runsWith build 0 [cellX.block] 6, commitX build 0]

/-- Node 1, which has seen nothing, commits `cellY`. -/
def writeY (build : Build) : List (Act (small build).segs) :=
  List.flatten [[.new 1 16, .begin 1, .call 1 (.write cellY (smallValue 7))], runs build 1 5,
    [.commit 1 ⟨[], [cellY.block], []⟩], runs build 1 3,
    [.handle 1 0, .handle 1 0, .handle 1 0, .deliver 1 0], runs build 1 10]

/-- Node 0 commits `cellX` twice and node 2 reads it. -/
def readAfterTwo (build : Build) : List (Act (small build).segs) :=
  List.flatten [[.new 0 16, .begin 0, .call 0 (.write cellX (smallValue 1))], runs build 0 5,
    commitX build 0, writeXAgain build, readX build 2]

/-- Node 2 reads `cellY` as well, in `n` steps. -/
def readYToo (build : Build) (n : ℕ) : List (Act (small build).segs) :=
  .call 2 (.read cellY) ::
    List.replicate n (.run 2 ⟨0, 64, ⟨[cellX.block, cellY.block], [], []⟩, 0⟩)

/-- Whether the clocks stay small and no grant is stale; the timestamps that node 2 has recorded;
whether it is between two calls; and whether some instant of the run has both the timestamps `x`
and `y`. -/
def snapshotObs (build : Build) (x y : Word)
    (r : List (Sys (small build).segs × Act (small build).segs) × Sys (small build).segs) :
    Bool × List (Option Word) × Bool × Bool :=
  (r.1.all fun z => SmallStep (small build) z && !staleGrant (small build) z.1 z.2,
    [cellX.block, cellY.block].map fun b => ((r.2.th 2).tx.readSet.lookup b).map Entry.ts,
    match (r.2.th 2).pc with
    | .active => true
    | _ => false,
    (r.2 :: r.1.map Prod.fst).any fun σ₁ =>
      isTimestampsEquivalent (σ₁.locks ((small build).segs.lockLoc cellX.block)) x &&
      isTimestampsEquivalent (σ₁.locks ((small build).segs.lockLoc cellY.block)) y)

section
variable {build : Build} {x y : Word} {b : Bool}
  {r : List (Sys (small build).segs × Act (small build).segs) × Sys (small build).segs}

/-- What the observation of a run says. -/
theorem snapshotObs_eq (ho : snapshotObs build x y r = (true, [some x, some y], true, b)) :
    (∀ z ∈ r.1, SmallStep (small build) z = true ∧ staleGrant (small build) z.1 z.2 = false) ∧
    (r.2.th 2).tx.RecordsAt cellX.block x ∧ (r.2.th 2).tx.RecordsAt cellY.block y ∧
    (r.2.th 2).pc = .active := by
  simp only [snapshotObs, Prod.mk.injEq, List.map_cons, List.map_nil, List.cons.injEq,
    Option.map_eq_some_iff] at ho
  obtain ⟨hall, ⟨⟨e, he, rfl⟩, ⟨e', he', rfl⟩, -⟩, hpc, -⟩ := ho
  refine ⟨fun z hz => ?_, ⟨e, .inl he, rfl⟩, ⟨e', .inl he', rfl⟩, ?_⟩
  · simpa using List.all_eq_true.1 hall z hz
  · split at hpc
    · assumption
    · cases hpc

end

/-- Node 2 has read version 2 of node 0. Then node 0 installs version 3, and after that node 1,
which has seen nothing, version 1 of another cell. Node 2 reads this cell, and `validate` does not
look at the cell read before: its version is not smaller. No lock grant of the run is stale. -/
theorem snapshot_fails : ∃ h σ, ((small ⟨.variant1, false⟩).lts fun _ _ => 0).Trace h σ ∧
    (∀ z ∈ h, SmallStep (small ⟨.variant1, false⟩) z = true ∧
      staleGrant (small ⟨.variant1, false⟩) z.1 z.2 = false) ∧
    (σ.th 2).pc = .active ∧ ¬ ∃ σ₁ ∈ σ :: h.map Prod.fst, σ₁.Snapshot σ 2 := by
  have hrun : (((small ⟨.variant1, false⟩).lts fun _ _ => 0).runHist [] (Sys.init _ fun _ _ => 0)
      (List.flatten [readAfterTwo _, writeXAgain _, writeY _, readYToo _ 6])).map
      (snapshotObs _ (newVersion 0 2) (newVersion 1 1)) =
      some (true, [some (newVersion 0 2), some (newVersion 1 1)], true, false) := by
    decide +kernel
  obtain ⟨h, σ, ht, ho⟩ := Lts.Trace.of_runHist rfl hrun
  obtain ⟨hall, hx, hy, hpc⟩ := snapshotObs_eq ho
  refine ⟨h, σ, ht, hall, hpc, ?_⟩
  rintro ⟨σ₁, hmem, hsnap⟩
  have hnone := List.any_eq_false.1 (Prod.mk.inj (Prod.mk.inj (Prod.mk.inj ho).2).2).2 σ₁ hmem
  rw [hsnap.timestamps _ _ hx, hsnap.timestamps _ _ hy] at hnone
  exact hnone rfl

/-- Node 2 reads a cell that nobody has written and then one that node 1 has committed; `validate`
looks at the first and finds it unchanged. -/
theorem snapshot_two : ∃ h σ, ((small ⟨.variant1, false⟩).lts fun _ _ => 0).Trace h σ ∧
    (σ.th 2).tx.RecordsAt cellX.block 0 ∧
    (σ.th 2).tx.RecordsAt cellY.block (newVersion 1 1) ∧
    ∃ σ₁ ∈ σ :: h.map Prod.fst, σ₁.Snapshot σ 2 := by
  have hrun : (((small ⟨.variant1, false⟩).lts fun _ _ => 0).runHist [] (Sys.init _ fun _ _ => 0)
      (List.flatten [[.new 2 16, .begin 2, .call 2 (.read cellX)], runsReading _ 2 5, writeY _,
        readYToo _ 8])).map (fun r => (snapshotObs _ 0 (newVersion 1 1) r,
          r.1.all fun z => !lateCommit (small ⟨.variant1, false⟩) 2 z.1 z.2)) =
      some ((true, [some 0, some (newVersion 1 1)], true, true), true) := by
    decide +kernel
  obtain ⟨h, σ, ht, ho⟩ := Lts.Trace.of_runHist rfl hrun
  obtain ⟨ho, hmiss⟩ := Prod.mk.inj ho
  obtain ⟨hall, hx, hy, hpc⟩ := snapshotObs_eq ho
  refine ⟨h, σ, ht, hx, hy, trace_snapshot rfl ht (fun z hz => (hall z hz).1)
    (fun z hz => (hall z hz).2) (fun z hz => ?_) hpc⟩
  simpa using List.all_eq_true.1 hmiss z hz

end DstmP1
