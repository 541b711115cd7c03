import DstmP1.ValueRelation

/-!
# Transactions that keep values follow the protocol

Every step of a `VARIANT2` system is a step of the protocol of `Optimistic` or none
(`step_follows`), as long as the lock handler swaps a lock word only when it is the version that the
request carries, no two nodes have one node field, and calls fit what their transactions have
written.
-/

namespace DstmP1

open Segments (Loc)
open Optimistic (State Step Inv Frame)
open Relation (ReflGen)

section
variable {cfg : Config} {σ σ' : Sys cfg.segs} {a : Act cfg.segs} {t : Tid}
  {s s' : Protocol cfg.segs} {th : Thread cfg.segs} {me : Attempt cfg.segs}
  {m₀ : {b : Word // cfg.segs.IsCell b} → Cell}

/-! ## Calls -/

/-- A transaction that is not in the log yet. -/
theorem Sys.Follows.not_final (h : σ.Follows s) (hl : σ.LogOk)
    (hpc : (σ.th t).pc.phase = .before) : s.final (σ.cur t) = false := by
  have hcur := hl.cur t
  rw [hpc] at hcur
  exact (h.att _).final.trans hcur.2.1

/-- The bytes that `readCell` returns are those of a free cell at its version. -/
theorem Sys.Follows.fetch_eq (h : σ.Follows s) (hi : σ.ReadsOk cfg) {op : Op cfg.segs} {ts : Word}
    {buf : ℕ → Byte} (hpc : (σ.th t).pc = .readCell op (.data ts [] buf))
    (hl : isLocked (σ.locks (cfg.segs.lockLoc op.access.addr)) = false)
    (he : isTimestampsEquivalent ts (σ.locks (cfg.segs.lockLoc op.access.addr)) = true) :
    (∀ u, ¬ s.holds u op.cell) ∧ s.label op.cell = ts ∧
      (Tx.cellArgs .variant2 op).Filled [] buf (s.data op.cell) := by
  have hb : cfg.segs.lockLoc op.cell.1 = cfg.segs.lockLoc op.access.addr :=
    op.access.inHeap.lockLoc_blockLb
  rw [← hb] at hl he
  obtain ⟨hfree, hlabel⟩ := h.unlocked hi.good.own hl
  have hu : Unlocked ts := by
    have hp := (hi.good.ok.local_ok t).pc
    simp only [PcOk, hpc] at hp
    exact hp.2
  have hts : s.label op.cell = ts :=
    hlabel.trans (hu.eq_of_equivalent (isLocked_eq_false.1 hl) he).symm
  exact ⟨hfree, hts, ((h.thread t).reading op ts [] buf hpc).use hts (State.not_dirty hfree)⟩

/-- `readCell` returns bytes of a cell. The protocol reads the cell if it has not done so yet. -/
theorem Sys.Follows.fetched (h : σ.Follows s) (hinv : Inv ver m₀ s) (hi : σ.ReadsOk cfg)
    {op : Op cfg.segs} {ts : Word} {buf : ℕ → Byte} {c : Option (Word × Word)} {v : Variant}
    (hv : v = .variant2)
    (hpc : (σ.th t).pc = .readCell op (.data ts [] buf))
    (hl : isLocked (σ.locks (cfg.segs.lockLoc op.access.addr)) = false)
    (he : isTimestampsEquivalent ts (σ.locks (cfg.segs.lockLoc op.access.addr)) = true)
    (hth : σ'.th = (σ.upd t th me).th) (hatt : σ'.att = (σ.upd t th me).att)
    (hlocks : σ'.locks = σ.locks) (hobjs : σ'.objs = σ.objs) (hlog : σ'.log = σ.log)
    (hth' : th = { σ.th t with
      tx := (σ.th t).tx.fetched v op ts buf, pc := .increaseClock op ts buf none, toCache := c })
    (hheld : me.held = (σ.me t).held) (hval : me.validated = (σ.me t).validated)
    (hops : me.ops = (σ.me t).ops) :
    ∃ s', ReflGen (Step ver (σ.cur t)) s s' ∧ σ'.Follows s' := by
  obtain ⟨hfree, hts, hd⟩ := h.fetch_eq hi hpc hl he
  have hnot : σ.cur t ∉ s.log := (h.thread t).early (by rw [hpc]; rfl)
  have hrun := (h.run t).running (show (σ.th t).pc ≠ .idle by rw [hpc]; simp)
  have hrec := h.att (σ.cur t)
  subst hth' hv
  cases hr : s.reads (σ.cur t) op.cell with
  | none =>
    have hs : Step ver (σ.cur t) s _ := .read hnot hfree
    refine ⟨_, .single hs, h.next hinv (.single hs) hth hatt rfl (fun u _ => by rw [hlog])
      (hlog ▸ h.log) (fun b => by rw [hobjs]; exact h.data b)
      (h.label_keep hatt rfl hlocks hheld) ?_ (.of_running (by simp) ?_) ?_⟩
    · rw [hlog]
      refine ⟨fun b => ?_, hrec.final.trans hval.symm, fun _ hu => absurd hu hnot,
        fun hin => absurd (h.log.subset hin) hnot⟩
      rw [hheld]
      exact hrec.held b
    · dsimp only
      rw [Function.update_self, hts]
      exact hrun.fetched hpc hr hd hops c
    · exact .enter (h.thread t).past (fun _ => hnot) rfl (by simp [Pc.phase])
  | some p =>
    obtain ⟨l, v⟩ := p
    refine ⟨s, .refl, h.stay hinv hth hatt rfl hlocks hobjs hlog hheld hval (fun _ => hops)
      (.of_running (by simp) (hrun.reread hpc hr ?_ hops c))
      (.enter (h.thread t).past (fun _ => hnot) rfl (by simp [Pc.phase]))⟩
    rcases hinv.used _ _ l v hr with rfl | hlt
    · -- The version has been read before, and the cell has the same data.
      have hmem := hinv.known _ _ _ v (h.not_final hi.log (by rw [hpc]; rfl)) hr rfl
        (State.not_dirty hfree)
      rw [State.before_of_not_mem hnot, ← hinv.data_eq (State.not_dirty hfree)] at hmem
      exact .inl ⟨hts, hmem ▸ hd⟩
    · exact .inr (hts ▸ hlt)

/-- A call that returns has read its cell at the version that the protocol has read. -/
theorem Sys.Follows.got (h : σ.Follows s) {op : Op cfg.segs} {ts : Word} {buf : ℕ → Byte}
    (hgot : (σ.th t).pc.got = some (op, ts, buf)) (hne : (σ.th t).pc ≠ .idle)
    (hc : (σ.th t).tx.conflict .variant2 op ts = false)
    (hr : ∀ e, (σ.th t).tx.readSet.lookup op.access.block = some e → ¬ ver e.ts < ver ts) :
    ∃ v, s.reads (σ.cur t) op.cell = some (ts, v) ∧
      (Tx.cellArgs .variant2 op).Filled [] buf v := by
  refine (((h.run t).running hne).got op ts buf hgot).resolve_right ?_
  rintro ⟨l, ⟨e, he | he, rfl⟩, hlt⟩
  · exact hr e he hlt
  · obtain ⟨-, heq⟩ := isTimestampsEquivalent_iff.1 (Tx.equivalent_of_conflict hc he)
    exact hlt.ne heq

/-- A call returns. -/
theorem Sys.Follows.finish (h : σ.Follows s) (hinv : Inv ver m₀ s)
    {op : Op cfg.segs} {ts : Word} {buf : ℕ → Byte} {tx : Tx} {v : Variant} (hv : v = .variant2)
    (hgot : (σ.th t).pc.got = some (op, ts, buf))
    (hc : (σ.th t).tx.conflict .variant2 op ts = false)
    (hreads : ∀ e, (σ.th t).tx.readSet.lookup op.access.block = some e → ¬ ver e.ts < ver ts)
    (hr : tx.readSet = (σ.th t).tx.readSet) (hw : tx.writeSet = (σ.th t).tx.writeSet)
    (hvs : tx.writeSetValues = (σ.th t).tx.writeSetValues) :
    ∃ s', ReflGen (Step ver (σ.cur t)) s s' ∧ (σ.finish t v op ts buf tx).Follows s' := by
  subst hv
  have hne : (σ.th t).pc ≠ .idle := by
    intro hidle
    rw [hidle] at hgot
    cases hgot
  have hcalling : (σ.th t).pc.early = true := by
    cases hpc : (σ.th t).pc <;> rw [hpc] at hgot <;> first | rfl | cases hgot
  have hnot : σ.cur t ∉ s.log := (h.thread t).early hcalling
  obtain ⟨v, hv, hd⟩ := h.got hgot hne hc hreads
  refine ⟨s, .refl, h.stay hinv rfl rfl rfl rfl rfl rfl rfl rfl
    (fun hin => absurd (h.log.subset hin) hnot) (.of_running (by simp) ?_)
    (.enter (h.thread t).past (fun _ => hnot) rfl (by simp [Pc.phase]))⟩
  exact ((h.run t).running hne).finished hgot hv hd tx hr hw hvs

/-! ## Locks and validation -/

/-- A lock is granted whose word is the version recorded: the protocol locks the cell. -/
theorem Sys.Follows.grant (h : σ.Follows s) (hinv : Inv ver m₀ s) (hi : σ.ReadsOk cfg)
    {b w v : Word} (hpc : (σ.th t).pc.inBatch = true) (hb : b ∈ (σ.th t).tx.writeSet)
    (hw : σ.locks (cfg.segs.lockLoc b) = entryTs (σ.th t).tx.writeSet b)
    (hth : σ'.th = (σ.upd t (σ.th t) me).th) (hatt : σ'.att = (σ.upd t (σ.th t) me).att)
    (hlocks : σ'.locks = Function.update σ.locks (cfg.segs.lockLoc b) w)
    (hobjs : σ'.objs = σ.objs) (hlog : σ'.log = σ.log)
    (hheld : me.held = (σ.me t).held ++ [(b, v)]) (hval : me.validated = (σ.me t).validated)
    (hops : me.ops = (σ.me t).ops) :
    ∃ s', ReflGen (Step ver (σ.cur t)) s s' ∧ σ'.Follows s' := by
  have htx := (hi.good.ok.local_ok t).tx
  have hc := htx.isCell_of_mem hb
  have hearly := Pc.early_of_inBatch hpc
  have hnot : σ.cur t ∉ s.log := (h.thread t).early hearly
  have hrun := (h.run t).running (Pc.not_idle_of_inBatch hpc)
  obtain ⟨hfree, hlabel⟩ := h.unlocked hi.good.own (b := ⟨b, hc⟩)
    (by rw [hw]; exact isLocked_eq_false.2 (htx.unlocked_entryTs hb))
  obtain ⟨d, hd⟩ := hrun.entryTs hc hb
  have hs : Step ver (σ.cur t) s _ := .lock hnot hfree (hd.trans (by rw [hlabel, hw]))
  have hown : σ'.Holds (σ.cur t) b := by
    rw [Sys.holds_cur hatt rfl, hheld]
    simp
  refine ⟨_, .single hs, h.next hinv (.single hs) hth hatt rfl (fun u _ => by rw [hlog])
    (hlog ▸ h.log) (fun c => by rw [hobjs]; exact h.data c) (fun c hf => ?_) ?_
    ((h.run t).congr rfl rfl rfl rfl hops) ?_⟩
  · have hcb : c.1 ≠ b := by
      intro he
      exact hf _ (he ▸ hown)
    rw [hlocks, Function.update_of_ne fun he => hcb (Segments.lockLoc_inj c.2 hc he)]
    refine h.label c fun u hu => hf u ?_
    rcases eq_or_ne u (σ.cur t) with rfl | hne
    · rw [Sys.holds_cur hatt rfl, hheld, List.map_append]
      exact List.mem_append_left _ hu
    · exact (Sys.holds_ne hatt rfl hne _).2 hu
  · have hrec := h.att (σ.cur t)
    rw [hlog]
    refine ⟨fun c => ?_, hrec.final.trans hval.symm, fun _ hu => absurd hu hnot,
      fun hin => absurd (h.log.subset hin) hnot⟩
    rw [hheld, List.map_append, List.mem_append]
    refine or_congr (hrec.held c) ?_
    simp [Subtype.ext_iff]
  · refine .enter (h.thread t).past (fun _ => hnot) (Pc.plain_of_inBatch hpc) ?_
    rw [Pc.phase_of_early hearly]
    simp

/-- What a transaction writes that enters the log. -/
theorem ValueTxn.runs_writesOf {g : Segments}
    {reads : {b : Word // g.IsCell b} → Option (Word × Cell)} {th : Thread g} {me : Attempt g}
    (h : ValueTxn reads th me) (htx : th.tx.Ok g) (base : Flat) (hb : base.Has reads) :
    ∃ m, replay base me.ops = some m ∧
      (∀ b, m.cell b.1 = (th.tx.writesOf reads b).getD (base.cell b.1)) ∧
      Flat.SameOutside g m base := by
  refine ⟨th.tx.overlay base, h.runs base hb, fun b => ?_, fun n p hout => ?_⟩
  · rw [Tx.cell_overlay, Tx.writesOf]
    split
    · next hbw =>
      obtain ⟨e, he⟩ := exists_lookup hbw
      obtain ⟨v, hv⟩ := h.recorded b e.ts ⟨e, .inr he, rfl⟩
      rw [hv, hb b _ v hv]
      rfl
    · next hbw =>
      funext i
      rw [Tx.overlayCell]
      cases hy : th.tx.byteAt (Segments.cellLoc b.1 i).1 (Segments.cellLoc b.1 i).2 with
      | none => rfl
      | some y => exact absurd (htx.mem_of_byteAt h.values b.2 hy) hbw
  · rw [Tx.overlay]
    cases hy : th.tx.byteAt n p with
    | none => rfl
    | some y =>
      obtain ⟨b, hbw, i, hi⟩ := htx.exists_of_byteAt h.values hy
      exact absurd hi (hout b (htx.isCell_of_mem hbw) i)

/-- All locks have been granted: the transaction enters the log of the protocol. -/
theorem Sys.Follows.lockPoint (h : σ.Follows s) (hinv : Inv ver m₀ s) (hi : σ.ReadsOk cfg)
    {o : Tx.Orders} {done : List Word} {v : Variant} (hv : v = .variant2)
    (hpc : (σ.th t).pc = .getLocks o done [])
    (hth : σ'.th = (σ.upd t th me).th) (hatt : σ'.att = (σ.upd t th me).att)
    (hlocks : σ'.locks = σ.locks) (hobjs : σ'.objs = σ.objs) (hlog : σ'.log = σ.log ++ [σ.cur t])
    (hth' : th = { σ.th t with
      pc := .validateAll o ((σ.th t).tx.allEntries v o) false })
    (hheld : me.held = (σ.me t).held) (hval : me.validated = (σ.me t).validated)
    (hops : me.ops = (σ.me t).ops) :
    ∃ s', ReflGen (Step ver (σ.cur t)) s s' ∧ σ'.Follows s' := by
  have hp := (hi.good.ok.local_ok t).pc
  simp only [PcOk, hpc, List.append_nil] at hp
  obtain ⟨ho, hws, hl⟩ := hp
  have hrun := (h.run t).running (show (σ.th t).pc ≠ .idle by rw [hpc]; simp)
  have hnot : σ.cur t ∉ s.log := (h.thread t).early (by rw [hpc]; rfl)
  have hrec := h.att (σ.cur t)
  subst hth' hv
  have hown : ∀ b, (σ.th t).tx.writesOf (s.reads (σ.cur t)) b ≠ none → s.holds (σ.cur t) b := by
    intro b hb
    rw [Tx.writesOf] at hb
    split at hb
    · next hbw =>
      exact (hrec.held b).2 (hl.held.mem_iff.2 (hws ▸ ho.ws.mem_iff.2 (AList.mem_keys.1 hbw)))
    · exact absurd rfl hb
  have hs : Step ver (σ.cur t) s _ := .point hnot hown
  refine ⟨_, .single hs, h.next hinv (.single hs) hth hatt rfl (fun u hu => ?_) ?_
    (fun c => by rw [hobjs]; exact h.data c) (h.label_keep hatt rfl hlocks hheld) ?_
    (.of_running (by simp) (hrun.congr rfl rfl rfl hops (by rw [hpc]; rfl) ?_)) ?_⟩
  · rw [hlog, List.mem_append, List.mem_singleton]
    exact or_iff_left hu
  · rw [hlog]
    exact h.log.append_right _
  · refine ⟨fun b => ?_, hrec.final.trans hval.symm, fun hn => absurd ?_ hn, fun _ base hb => ?_⟩
    · rw [hheld]
      exact hrec.held b
    · rw [hlog]
      simp
    · dsimp only
      rw [Function.update_self, hops]
      exact hrun.runs_writesOf (hi.good.ok.local_ok t).tx base hb
  · intro op hc
    cases hc
  · refine ⟨fun v hv he => ?_, by simp [Pc.early, Pc.calling], by simp, ?_, ?_, fun _ => ?_,
      by simp [Pc.phase]⟩
    · rcases List.mem_append.1 hv with hv | hv
      · exact (h.thread t).past v hv he
      · rw [List.mem_singleton.1 hv]
    · rintro _ _ _ ⟨⟩ p hp
      obtain ⟨e, he, hts⟩ := of_mem_timestamps (List.mem_filter.1 hp).1
      exact ⟨e, .inl he, hts⟩
    · rintro _ _ _ ⟨⟩ b hb hn
      dsimp only at hb hn ⊢
      rw [Function.update_self, Tx.writesOf]
      split
      · obtain ⟨r, hr⟩ := Option.ne_none_iff_exists'.1 hb
        rw [hr]
        simp
      · next hbw =>
        -- What has been read and is not written is in the read set.
        rcases hrun.known b hb with hbr | hbw' | ⟨op, ts, buf, hg, -⟩
        · obtain ⟨e, he⟩ := exists_lookup hbr
          refine absurd (List.mem_map.2 ⟨(b.1, e.ts), List.mem_filter.2 ⟨?_, ?_⟩, rfl⟩) hn
          · exact mem_timestamps he ho.rs
          · rw [AList.lookup_eq_none.2 hbw]
            rfl
        · exact absurd hbw' hbw
        · rw [hpc] at hg
          cases hg
    · exact Function.update_self ..

/-- `validateAll` finds a cell unchanged: the protocol checks it. -/
theorem Sys.Follows.validAll (h : σ.Follows s) (hinv : Inv ver m₀ s) (hi : σ.ReadsOk cfg)
    {o : Tx.Orders} {b e : Word} {left : List (Word × Word)} {looked : Bool}
    (hpc : (σ.th t).pc = .validateAll o ((b, e) :: left) looked)
    (hch : Tx.changed (σ.getVersion (cfg.segs.getObjectLockAddr b)) e = false) :
    ∃ s', ReflGen (Step ver (σ.cur t)) s s' ∧
      (σ.goto t (.validateAll o left false)).Follows s' := by
  have hthr := h.thread t
  have hrec := h.att (σ.cur t)
  have hrun := (h.run t).running (show (σ.th t).pc ≠ .idle by rw [hpc]; simp)
  have hrecorded : (σ.th t).tx.RecordsAt b e := hthr.entries _ _ _ hpc (b, e) List.mem_cons_self
  have hcell : cfg.segs.IsCell b := by
    obtain ⟨d, hd | hd, -⟩ := hrecorded
    · exact ((hi.good.ok.local_ok t).tx.read b d hd).1
    · exact ((hi.good.ok.local_ok t).tx.write b d hd).1
  obtain ⟨hl, hle⟩ := Bool.or_eq_false_iff.1 hch
  rw [Sys.getVersion_eq hcell] at hl hle
  obtain ⟨hfree, hlabel⟩ := h.unlocked hi.good.own (b := ⟨b, hcell⟩) hl
  have hin : σ.cur t ∈ s.log := by
    have hcur := hi.log.cur t
    rw [hpc] at hcur
    exact h.log.subset hcur.1
  obtain ⟨c, hread⟩ := hrun.recorded ⟨b, hcell⟩ e hrecorded
  have hs : Step ver (σ.cur t) s _ := .check hin hfree hread
    (by rw [hlabel]; exact isTimestampGreater_eq_false.1 hle)
  refine ⟨_, .single hs, h.next hinv (.single hs) rfl rfl rfl (fun u _ => .rfl) h.log h.data
    (h.label_keep rfl rfl rfl rfl) ⟨hrec.held, hrec.final, hrec.failed, hrec.runs⟩
    (.of_running (by simp) (hrun.congr rfl rfl rfl rfl (by rw [hpc]; rfl) ?_)) ?_⟩
  · intro op hc
    cases hc
  · refine ⟨hthr.past, by simp [Pc.early, Pc.calling], by simp, ?_, ?_,
      fun _ => hthr.wrote (.inl (by rw [hpc]; rfl)), by simp [Pc.phase]⟩
    · rintro _ _ _ ⟨⟩ p hp
      exact hthr.entries _ _ _ hpc p (List.mem_cons_of_mem _ hp)
    · rintro _ _ _ ⟨⟩ d hd hn
      rcases eq_or_ne d ⟨b, hcell⟩ with rfl | hne
      · exact .inl (.inr ⟨rfl, rfl⟩)
      · refine (hthr.checked _ _ _ hpc d hd fun hm => ?_).imp_left .inl
        rcases List.mem_cons.1 hm with he | hm
        · exact hne (Subtype.ext he)
        · exact hn hm

/-- Before the first put all bytes of all values are still to be put. -/
theorem Pc.unputAt_start {g : Segments} {o : Tx.Orders} {puts : List (Word × List Byte)}
    {p : Word × List Byte} {n : ℕ} {q : Word} (hp : p ∈ puts) (hb : byteIn p.1 p.2 n q ≠ none) :
    (Pc.commitWriteSetValues (g := g) o puts (firstBytes puts)).UnputAt n q := by
  cases puts with
  | nil => cases hp
  | cons p' puts =>
    rcases List.mem_cons.1 hp with rfl | hp
    · obtain ⟨y, hy⟩ := Option.ne_none_iff_exists'.1 hb
      exact .inl ⟨hb, List.mem_range.2 (List.getElem?_eq_some_iff.1 (byteIn_eq_some.1 hy).2).1⟩
    · exact .inr ⟨p, hp, hb⟩

/-- `commitWriteSetValues` puts every byte that has been written. -/
theorem Tx.Orders.Of.exists_commitValues {tx : Tx} {o : Tx.Orders} (ho : o.Of tx) {n : ℕ}
    {q : Word} {y : Byte} (hy : tx.byteAt n q = some y) :
    ∃ p ∈ tx.commitValues .variant2 o, byteIn p.1 p.2 n q = some y := by
  obtain ⟨p, e, he, hb⟩ := Tx.exists_of_byteAt hy
  refine ⟨(p, Tx.valueOf e), List.mem_filterMap.2 ⟨p, ?_, ?_⟩, hb⟩
  · exact ho.vs.mem_iff.2 (AList.mem_keys.1 (mem_of_lookup he))
  · rw [he]
    rfl

/-- A cell that a transaction holds past its lock point is one that it writes. -/
theorem Sys.Follows.writes_eq (h : σ.Follows s) (hi : σ.ReadsOk cfg)
    {b : {b : Word // cfg.segs.IsCell b}} (hb : s.holds (σ.cur t) b)
    (hpc : (σ.th t).pc.phase = .validating ∨ (σ.th t).pc.phase = .writing) {l : Word} {v : Cell}
    (hr : s.reads (σ.cur t) b = some (l, v)) :
    s.writes (σ.cur t) b = some ((σ.th t).tx.overlayCell b.1 v) := by
  obtain ⟨hbw, -⟩ := (hi.good.ok.local_ok t).held_mem (((h.att _).held b).1 hb)
  rw [(h.thread t).wrote hpc, Tx.writesOf, if_pos hbw, hr]
  rfl

/-- `validateAll` succeeds: the transaction is final. -/
theorem Sys.Follows.validated (h : σ.Follows s) (hinv : Inv ver m₀ s) (hi : σ.ReadsOk cfg)
    {o : Tx.Orders} {looked : Bool} {v : Variant} (hv : v = .variant2)
    (hpc : (σ.th t).pc = .validateAll o [] looked) (hth : σ'.th = (σ.upd t th me).th)
    (hatt : σ'.att = (σ.upd t th me).att)
    (hlocks : σ'.locks = σ.locks) (hobjs : σ'.objs = σ.objs) (hlog : σ'.log = σ.log)
    (hth' : th = { σ.th t with
      pc := .commitWriteSetValues o ((σ.th t).tx.commitValues v o)
        (firstBytes ((σ.th t).tx.commitValues v o)) })
    (hme : me = { σ.me t with validated := true }) :
    ∃ s', ReflGen (Step ver (σ.cur t)) s s' ∧ σ'.Follows s' := by
  have hthr := h.thread t
  have hrec := h.att (σ.cur t)
  have hcur := hi.log.cur t
  rw [hpc] at hcur
  obtain ⟨hin, hval, -⟩ := hcur
  have hnf : s.final (σ.cur t) = false := hrec.final.trans hval
  have hp := (hi.good.ok.local_ok t).pc
  simp only [PcOk, hpc] at hp
  have hrun := (h.run t).running (show (σ.th t).pc ≠ .idle by rw [hpc]; simp)
  subst hth' hme hv
  have hlocked : ∀ b, s.holds (σ.cur t) b → s.writes (σ.cur t) b ≠ none := by
    intro b hb
    obtain ⟨v, hv⟩ := hinv.held _ b hb
    rw [h.writes_eq hi hb (.inl (by rw [hpc]; rfl)) hv]
    simp
  have hs : Step ver (σ.cur t) s _ := .finalize (h.log.subset hin) hnf hlocked
    fun b hb => hthr.checked _ _ _ hpc b hb List.not_mem_nil
  refine ⟨_, .single hs, h.next hinv (.single hs) hth hatt rfl (fun u _ => by rw [hlog])
    (hlog ▸ h.log) (fun c => by rw [hobjs]; exact h.data c)
    (h.label_keep hatt rfl hlocks rfl) ?_
    (.of_running (by simp) (hrun.congr rfl rfl rfl rfl (by rw [hpc]; rfl) ?_)) ?_⟩
  · rw [hlog]
    exact ⟨hrec.held, Function.update_self .., hrec.failed, hrec.runs⟩
  · intro op hc
    cases hc
  · refine .writing hthr.past rfl (hthr.wrote (.inl (by rw [hpc]; rfl))) fun b l v hb hr i hn => ?_
    -- A byte that is not to be put has not been written, and the cell is as it was read.
    dsimp only at hb hr ⊢
    rw [hinv.data_eq_read (h.log.subset hin) hnf (hlocked b hb) hr, Tx.overlayCell]
    cases hy : (σ.th t).tx.byteAt (Segments.cellLoc b.1 i).1 (Segments.cellLoc b.1 i).2 with
    | none => rfl
    | some y =>
      obtain ⟨p, hpm, hy⟩ := hp.1.exists_commitValues hy
      exact absurd (Pc.unputAt_start hpm (by rw [hy]; simp)) hn

/-! ## Past validation -/

/-- What is put is the value of an entry, which lies in one cell of the write set. -/
theorem Tx.Ok.exists_of_commitValues {g : Segments} {tx : Tx} (h : tx.Ok g) {o : Tx.Orders}
    {p : Word × List Byte} (hp : p ∈ tx.commitValues .variant2 o) :
    ∃ e, tx.writeSetValues.lookup p.1 = some e ∧ p.2 = Tx.valueOf e ∧
      ∃ a : Access g, a.addr = p.1 ∧ a.block ∈ tx.writeSet ∧ p.2.length ≤ a.width.bytes := by
  obtain ⟨q, -, hq⟩ := List.mem_filterMap.1 hp
  obtain ⟨e, he, rfl⟩ := Option.map_eq_some_iff.1 hq
  obtain ⟨a, ha, hs, hm⟩ := h.values q e he
  refine ⟨e, he, rfl, a, ha, hm, ?_⟩
  rw [hs]
  exact List.length_take_le _ _

/-- A put of bytes of a value changes its cell only. -/
theorem Flat.cell_put_of_ne {g : Segments} (m : Flat) (a : Access g) {v : List Byte} {ks : List ℕ}
    (hks : ∀ k ∈ ks, k < a.width.bytes) {b : Word} (hb : g.IsCell b) (hne : b ≠ a.block) :
    (m.put a.addr v ks).cell b = m.cell b := by
  funext i
  by_contra hch
  rw [Flat.cell_apply, Flat.cell_apply] at hch
  obtain ⟨k, hk, he⟩ := Flat.put_ne hch
  have hlt := hks k hk
  have hoff := a.offset_add_le
  rw [a.addr_add hlt, ← a.node_block] at he
  exact hne (Segments.cellLoc_inj hb a.isCell i.isLt (by omega) he).1

/-- A byte of a cell after a piece of a value has been put. -/
theorem Tx.ValuesOk.put {g : Segments} {tx : Tx} (hv : tx.ValuesOk g) {m : Flat} {o : Tx.Orders}
    {p : Word × List Byte} {puts : List (Word × List Byte)} {left : List ℕ} {off n : ℕ}
    {e : ValueEntry} (he : tx.writeSetValues.lookup p.1 = some e) (hp : p.2 = Tx.valueOf e)
    (hl : ∀ k ∈ left, k < p.2.length) {b : Word} {v : Cell} {i : Fin cellSize}
    (h : ¬ (Pc.commitWriteSetValues (g := g) o (p :: puts) left).UnputAt
        (Segments.cellLoc b i).1 (Segments.cellLoc b i).2 → m.cell b i = tx.overlayCell b v i)
    (hn : ¬ (Pc.commitWriteSetValues (g := g) o (p :: puts) (pieceRest off n left)).UnputAt
        (Segments.cellLoc b i).1 (Segments.cellLoc b i).2) :
    (m.put p.1 p.2 (pieceOf off n left)).cell b i = tx.overlayCell b v i := by
  rw [Flat.cell_apply, Flat.put]
  split
  · next hk =>
    have hlt := hl _ (List.mem_filter.1 hk.2).1
    have hy : byteIn p.1 (Tx.valueOf e) (Segments.cellLoc b i).1 (Segments.cellLoc b i).2 =
        some p.2[((Segments.cellLoc b i).2 - addrFromAddress p.1).toNat] := by
      rw [byteIn_eq_some, ← hp]
      exact ⟨hk.1, List.getElem?_eq_getElem hlt⟩
    rw [Tx.overlayCell, hv.byteAt he hy, List.getD_eq_getElem _ _ hlt]
    rfl
  · next hk =>
    refine h fun hu => hn ?_
    rcases hu with ⟨hb, hin⟩ | hu
    · -- The byte is left, so it is not in the rest only if it is in the piece.
      refine .inl ⟨hb, List.mem_filter.2 ⟨hin, ?_⟩⟩
      obtain ⟨y, hy⟩ := Option.ne_none_iff_exists'.1 hb
      rw [Bool.not_eq_true']
      by_contra hr
      exact hk ⟨(byteIn_eq_some.1 hy).1, List.mem_filter.2 ⟨hin, Bool.not_eq_false _ ▸ hr⟩⟩
    · exact .inr hu

/-- A piece of a value is put. -/
theorem Sys.Follows.put (h : σ.Follows s) (hinv : Inv ver m₀ s) (hi : σ.ReadsOk cfg)
    (hv : cfg.build.variant = .variant2) {o : Tx.Orders} {p : Word × List Byte}
    {puts : List (Word × List Byte)} {left : List ℕ} {off n : ℕ}
    (hpc : (σ.th t).pc = .commitWriteSetValues o (p :: puts) left)
    (hth : σ'.th = (σ.upd t th me).th) (hatt : σ'.att = (σ.upd t th me).att)
    (hlocks : σ'.locks = σ.locks) (hobjs : σ'.objs = σ.objs.put p.1 p.2 (pieceOf off n left))
    (hlog : σ'.log = σ.log)
    (hth' : th = { σ.th t with pc := .commitWriteSetValues o (p :: puts) (pieceRest off n left) })
    (hme : me = { σ.me t with dirty := true }) :
    ∃ s', ReflGen (Step ver (σ.cur t)) s s' ∧ σ'.Follows s' := by
  have hthr := h.thread t
  have hrec := h.att (σ.cur t)
  have htx := (hi.good.ok.local_ok t).tx
  have hl := (hi.good.ok.local_ok t).pc
  simp only [PcOk, hpc, hv] at hl
  obtain ⟨ho, hlocked, hsuf, hleft⟩ := hl
  have hleft : ∀ k ∈ left, k < p.2.length := fun k hk => List.mem_range.1 (hleft hk)
  obtain ⟨e, he, hpe, x, hx, hxw, hlen⟩ :=
    htx.exists_of_commitValues (hsuf.subset List.mem_cons_self)
  have hrun := (h.run t).running (show (σ.th t).pc ≠ .idle by rw [hpc]; simp)
  have hcur := hi.log.cur t
  rw [hpc] at hcur
  have hown : s.holds (σ.cur t) ⟨x.block, x.isCell⟩ :=
    (hrec.held _).2 (hlocked.held.mem_iff.2 (ho.ws.mem_iff.2 (AList.mem_keys.1 hxw)))
  have hs : Step ver (σ.cur t) s _ :=
    .put (σ'.objs.cell x.block) (hrec.final.trans hcur.2.1) hown
  have hdata : ∀ c, Function.update s.data ⟨x.block, x.isCell⟩ (σ'.objs.cell x.block) c =
      σ'.objs.cell c.1 := by
    intro c
    rcases eq_or_ne c ⟨x.block, x.isCell⟩ with rfl | hne
    · rw [Function.update_self]
    · have hcp : c.1 ≠ x.block := fun he => hne (Subtype.ext he)
      rw [Function.update_of_ne hne, h.data, hobjs, ← hx, Flat.cell_put_of_ne _ x _ c.2 hcp]
      exact fun k hk => (hleft k (List.mem_filter.1 hk).1).trans_le hlen
  subst hth' hme
  refine ⟨_, .single hs, h.next hinv (.single hs) hth hatt rfl (fun u _ => by rw [hlog])
    (hlog ▸ h.log) hdata (h.label_keep hatt rfl hlocks rfl) ?_
    (.of_running (by simp) (hrun.congr rfl rfl rfl rfl (by rw [hpc]; rfl) ?_)) ?_⟩
  · rw [hlog]
    exact ⟨hrec.held, hrec.final, hrec.failed, hrec.runs⟩
  · intro op hc
    cases hc
  · refine .writing hthr.past rfl (hthr.wrote (.inr (by rw [hpc]; rfl))) fun b l v hb hr i hn => ?_
    refine (congrFun (hdata b) i).trans ?_
    rw [hobjs]
    refine hrun.values.put he hpe hleft (fun hu => ?_) hn
    have hold := hthr.put (by rw [hpc]; rfl) b l v hb hr i
    rw [hpc] at hold
    rw [← h.data]
    exact hold hu

/-- Lock words and locks after a lock has been given back. -/
theorem Sys.Follows.label_giveBack (h : σ.Follows s) {b w : Word} (hc : cfg.segs.IsCell b)
    (hatt : σ'.att = (σ.upd t th me).att) (hround : th.round = (σ.th t).round)
    (hlocks : σ'.locks = Function.update σ.locks (cfg.segs.lockLoc b) w)
    (hheld : me.held = (σ.me t).held.filter fun e => e.1 ≠ b)
    {c : {b : Word // cfg.segs.IsCell b}} (hcb : c ≠ ⟨b, hc⟩)
    (hf : ∀ u, ¬ σ'.Holds u c.1) : σ'.locks (cfg.segs.lockLoc c.1) = s.label c := by
  have hne : c.1 ≠ b := fun he => hcb (Subtype.ext he)
  rw [hlocks, Function.update_of_ne fun he => hne (Segments.lockLoc_inj c.2 hc he)]
  refine h.label c fun u hu => hf u ?_
  rcases eq_or_ne u (σ.cur t) with rfl | hu'
  · rw [Sys.holds_cur hatt hround, hheld]
    obtain ⟨e, he, hec⟩ := List.mem_map.1 hu
    refine List.mem_map.2 ⟨e, List.mem_filter.2 ⟨he, ?_⟩, hec⟩
    simpa [hec] using hne
  · exact (Sys.holds_ne hatt hround hu' _).2 hu

/-- Who holds which lock after a lock has been given back. -/
theorem ValueRecord.giveBack {u : Tid × ℕ} {p : Prop} (h : ValueRecord s u p me)
    {me' : Attempt cfg.segs} {b : {b : Word // cfg.segs.IsCell b}}
    {label : {b : Word // cfg.segs.IsCell b} → Word}
    (hheld : me'.held = me.held.filter fun e => e.1 ≠ b.1) (hval : me'.validated = me.validated)
    (hops : me'.ops = me.ops) :
    ValueRecord { s with
      label := label
      holds := fun w c => s.holds w c ∧ ¬ (w = u ∧ c = b) } u p me' where
  held c := by
    rw [hheld]
    refine (and_congr_left fun _ => h.held c).trans ?_
    simp only [List.mem_map, List.mem_filter, decide_eq_true_eq, true_and, Subtype.ext_iff]
    constructor
    · rintro ⟨⟨e, he, hec⟩, hne⟩
      exact ⟨e, ⟨he, hec ▸ hne⟩, hec⟩
    · rintro ⟨e, ⟨he, hne⟩, hec⟩
      exact ⟨⟨e, he, hec⟩, hec ▸ hne⟩
  final := by rw [hval, ← h.final]
  failed hp hu c := h.failed hp hu c
  runs hp := by
    rw [hops]
    exact h.runs hp

/-- The lock of a cell that has been written is given back with the new version. -/
theorem Sys.Follows.release (h : σ.Follows s) (hinv : Inv ver m₀ s) (hi : σ.ReadsOk cfg)
    {version b : Word} {left : List Word}
    (hpc : (σ.th t).pc = .releaseLocksWithNewClock version (b :: left))
    (hth : σ'.th = (σ.upd t th me).th) (hatt : σ'.att = (σ.upd t th me).att)
    (hlocks : σ'.locks = Function.update σ.locks (cfg.segs.lockLoc b) version)
    (hobjs : σ'.objs = σ.objs) (hlog : σ'.log = σ.log) {c : Option (Word × Word)}
    (hth' : th = { σ.th t with pc := .releaseLocksWithNewClock version left, toCache := c })
    (hme : me = { σ.me t with held := (σ.me t).held.filter fun e => e.1 ≠ b }) :
    ∃ s', ReflGen (Step ver (σ.cur t)) s s' ∧ σ'.Follows s' := by
  have hthr := h.thread t
  have hrec := h.att (σ.cur t)
  have hh := PutsLock.holds hi.good.ok (.release hpc)
  obtain ⟨-, -, hbw, hc⟩ := hh.inside hi.good.ok hi.good.att
  have hrun := (h.run t).running (show (σ.th t).pc ≠ .idle by rw [hpc]; simp)
  have hcur := hi.log.cur t
  rw [hpc] at hcur
  have hown : s.holds (σ.cur t) ⟨b, hc⟩ := (hrec.held _).2 hh
  obtain ⟨v, hv⟩ := hrun.entryTs hc hbw
  have hwrites : s.writes (σ.cur t) ⟨b, hc⟩ = some (s.data ⟨b, hc⟩) := by
    rw [h.writes_eq hi hown (.inr (by rw [hpc]; rfl)) hv]
    refine congrArg some (funext fun i => (hthr.put (by rw [hpc]; rfl) _ _ v hown hv i ?_).symm)
    rw [hpc]
    exact id
  -- The label is the version recorded, and the new version is greater.
  have hlt : ver (s.label ⟨b, hc⟩) < ver version := by
    obtain ⟨v', hv'⟩ := hinv.held _ _ hown
    rw [hv, Option.some.injEq, Prod.mk.injEq] at hv'
    have hp := (hi.clock.thread t).pc
    rw [hpc] at hp
    rw [← hv'.1]
    exact hp _ (Tx.records_entryTs hbw)
  have hs : Step ver (σ.cur t) s _ := .release (hrec.final.trans hcur.2.1) hown hwrites hlt
  subst hth' hme
  refine ⟨_, .single hs, h.next hinv (.single hs) hth hatt rfl (fun u _ => by rw [hlog])
    (hlog ▸ h.log) (fun c => by rw [hobjs]; exact h.data c) (fun c hf => ?_) ?_
    (.of_running (by simp) (hrun.congr rfl rfl rfl rfl (by rw [hpc]; rfl) ?_)) ?_⟩
  · dsimp only
    rcases eq_or_ne c ⟨b, hc⟩ with rfl | hne
    · rw [hlocks, Function.update_self, Function.update_self]
    · rw [Function.update_of_ne hne]
      exact h.label_giveBack hc hatt rfl hlocks rfl hne hf
  · rw [hlog]
    exact hrec.giveBack (b := ⟨b, hc⟩) rfl rfl rfl
  · intro op hc
    cases hc
  · refine .writing hthr.past rfl (hthr.wrote (.inr (by rw [hpc]; rfl))) fun b l v hb hr i _ => ?_
    refine hthr.put (by rw [hpc]; rfl) b l v hb.1 hr i ?_
    rw [hpc]
    exact id

/-- The lock of a cell that has not been written is given back with the version recorded. -/
theorem Sys.Follows.restore (h : σ.Follows s) (hinv : Inv ver m₀ s) (hi : σ.ReadsOk cfg)
    {b : Word} {left : List Word} (hpc : (σ.th t).pc = .releaseLocks (b :: left))
    (hb : b ∉ (σ.th t).tx.rlChangedObjects)
    (hth : σ'.th = (σ.upd t th me).th) (hatt : σ'.att = (σ.upd t th me).att)
    (hlocks : σ'.locks =
      Function.update σ.locks (cfg.segs.lockLoc b) (entryTs (σ.th t).tx.writeSet b))
    (hobjs : σ'.objs = σ.objs) (hlog : σ'.log = σ.log)
    (hth' : th = { σ.th t with pc := .releaseLocks left })
    (hheld : me.held = (σ.me t).held.filter fun e => e.1 ≠ b)
    (hval : me.validated = (σ.me t).validated) (hops : me.ops = (σ.me t).ops) :
    ∃ s', ReflGen (Step ver (σ.cur t)) s s' ∧ σ'.Follows s' := by
  have hrec := h.att (σ.cur t)
  have hh := PutsLock.holds hi.good.ok (.restore hpc hb)
  obtain ⟨-, -, hbw, hc⟩ := hh.inside hi.good.ok hi.good.att
  have hrun := (h.run t).running (show (σ.th t).pc ≠ .idle by rw [hpc]; simp)
  have hcur := hi.log.cur t
  rw [hpc] at hcur
  obtain ⟨hout, hfin, -⟩ := hcur
  have hown : s.holds (σ.cur t) ⟨b, hc⟩ := (hrec.held _).2 hh
  have hlabel : entryTs (σ.th t).tx.writeSet b = s.label ⟨b, hc⟩ := by
    obtain ⟨v, hv⟩ := hinv.held _ _ hown
    obtain ⟨v', hv'⟩ := hrun.entryTs hc hbw
    rw [hv, Option.some.injEq, Prod.mk.injEq] at hv'
    exact hv'.1.symm
  have hs : Step ver (σ.cur t) s _ := .restore (hrec.final.trans hfin)
    (fun hin => hrec.failed hout hin _) hown
  subst hth'
  refine ⟨_, .single hs, h.next hinv (.single hs) hth hatt rfl (fun u _ => by rw [hlog])
    (hlog ▸ h.log) (fun c => by rw [hobjs]; exact h.data c) (fun c hf => ?_) ?_
    (.of_running (by simp) (hrun.congr rfl rfl rfl hops (by rw [hpc]; rfl) ?_)) ?_⟩
  · rcases eq_or_ne c ⟨b, hc⟩ with rfl | hne
    · rw [hlocks, Function.update_self, hlabel]
    · exact h.label_giveBack hc hatt rfl hlocks hheld hne hf
  · rw [hlog]
    exact hrec.giveBack (b := ⟨b, hc⟩) hheld hval hops
  · intro op hc
    cases hc
  · exact .enter (h.thread t).past (fun he => by cases he) rfl (by simp [Pc.phase])

/-- The validation in `commit` fails. -/
theorem Sys.Follows.invalid (h : σ.Follows s) (hinv : Inv ver m₀ s) (hi : σ.ReadsOk cfg)
    {o : Tx.Orders} {left : List (Word × Word)} {looked : Bool} {ws : List Word}
    (hpc : (σ.th t).pc = .validateAll o left looked)
    (hth : σ'.th = (σ.upd t th (σ.me t)).th) (hatt : σ'.att = (σ.upd t th (σ.me t)).att)
    (hlocks : σ'.locks = σ.locks) (hobjs : σ'.objs = σ.objs)
    (hlog : σ'.log = σ.log.erase (σ.cur t)) {c : Option (Word × Word)}
    (hth' : th = { σ.th t with pc := .releaseLocks ws, toCache := c }) :
    ∃ s', ReflGen (Step ver (σ.cur t)) s s' ∧ σ'.Follows s' := by
  have hrec := h.att (σ.cur t)
  have hrun := (h.run t).running (show (σ.th t).pc ≠ .idle by rw [hpc]; simp)
  have hcur := hi.log.cur t
  rw [hpc] at hcur
  have hs : Step ver (σ.cur t) s _ := .fail (h.log.subset hcur.1) (hrec.final.trans hcur.2.1)
  subst hth'
  refine ⟨_, .single hs, h.next hinv (.single hs) hth hatt rfl (fun u hu => ?_) ?_
    (fun c => by rw [hobjs]; exact h.data c) (h.label_keep hatt rfl hlocks rfl) ?_
    (.of_running (by simp) (hrun.congr rfl rfl rfl rfl (by rw [hpc]; rfl) ?_)) ?_⟩
  · rw [hlog]
    exact List.mem_erase_of_ne hu
  · rw [hlog]
    exact List.erase_sublist.trans h.log
  · refine ⟨hrec.held, hrec.final, fun _ _ b => ?_, fun hin => ?_⟩
    · dsimp only
      rw [Function.update_self]
    · rw [hlog] at hin
      exact absurd hin hi.log.nodup.not_mem_erase
  · intro op hc
    cases hc
  · exact .enter (h.thread t).past (fun he => by cases he) rfl (by simp [Pc.phase])

/-! ## Every step -/

theorem Goes.got {pc : Pc cfg.segs} (hg : Goes cfg σ t pc) : pc.got = (σ.th t).pc.got := by
  cases hg <;> simp_all [Pc.got]

/-- A call that goes on, or one that begins. -/
theorem Goes.call_or_fetch {pc : Pc cfg.segs} (hg : Goes cfg σ t pc) : pc.call = (σ.th t).pc.call ∨
    ∃ op, pc = .readCell op .version ∧ (σ.th t).pc = .active ∧
      (σ.th t).tx.served cfg.build.variant op = none := by
  cases hg with
  | fetch op hpc hs => exact .inr ⟨op, rfl, hpc, hs⟩
  | _ => exact .inl (by simp_all [Pc.call])

/-- A thread that goes on past validation leaves no byte out. -/
theorem Goes.unputAt {pc : Pc cfg.segs} (hg : Goes cfg σ t pc) (hpc : pc.phase = .writing)
    {n : ℕ} {q : Word} (hu : (σ.th t).pc.UnputAt n q) : pc.UnputAt n q := by
  cases hg with
  | putNext hp =>
    rw [hp] at hu
    rcases hu with ⟨-, hk⟩ | ⟨p, hp, hb⟩
    · cases hk
    · exact Pc.unputAt_start hp hb
  | putAll hp | nextRead hp | nextRetry hp =>
    rw [hp] at hu
    exact hu.elim
  | _ => cases hpc

/-- A thread that only moves on: the protocol sees no more of it than what `validateAll` checks. -/
theorem Goes.follows {pc : Pc cfg.segs} (hg : Goes cfg σ t pc) (hv : cfg.build.variant = .variant2)
    (hi : σ.ReadsOk cfg) (hinv : Inv ver m₀ s) (h : σ.Follows s)
    (hfit : ∀ op, pc = .readCell op .version → (σ.th t).pc = .active →
      (σ.th t).tx.Fits op.access) :
    ∃ s', ReflGen (Step ver (σ.cur t)) s s' ∧ (σ.goto t pc).Follows s' := by
  have hthr := h.thread t
  have hearly : pc.early = true → σ.cur t ∉ s.log := fun he => hthr.early (hg.early he)
  have hrun := (h.run t).running hg.not_idle.1
  have hcall : ∀ op, pc.call = some op →
      (σ.th t).tx.writeSetValues.lookup op.access.addr = none ∧ (σ.th t).tx.Fits op.access := by
    intro op hc
    rcases hg.call_or_fetch with he | ⟨op', rfl, hpc, hs⟩
    · exact hrun.calls op (he ▸ hc)
    · cases hc
      rw [hv] at hs
      exact ⟨Tx.lookup_of_not_served hs, hfit op rfl hpc⟩
  have stay : ValueThread s (σ.cur t) { σ.th t with pc := pc } →
      ∃ s', ReflGen (Step ver (σ.cur t)) s s' ∧ (σ.goto t pc).Follows s' := fun hs =>
    ⟨s, .refl, h.stay hinv rfl rfl rfl rfl rfl rfl rfl rfl (fun _ => rfl)
      (.of_running hg.not_idle.2 (hrun.congr rfl rfl rfl rfl hg.got hcall)) hs⟩
  have writing : pc.phase = .writing → ∃ s', ReflGen (Step ver (σ.cur t)) s s' ∧
      (σ.goto t pc).Follows s' := by
    intro hp
    have hp' : (σ.th t).pc.phase = .writing := hg.phase ▸ hp
    exact stay (.writing hthr.past hp (hthr.wrote (.inr hp')) fun b l v hb hr i hn =>
      hthr.put hp' b l v hb hr i fun hu => hn (hg.unputAt hp hu))
  have hg' := hg
  cases hg with
  | validAll hpc hch => exact h.validAll hinv hi hpc hch
  | @readVersion op hpc hl =>
    have hb : cfg.segs.lockLoc op.cell.1 = cfg.segs.lockLoc op.access.addr :=
      op.access.inHeap.lockLoc_blockLb
    rw [← hb] at hl
    obtain ⟨-, hlabel⟩ := h.unlocked hi.good.own hl
    refine stay ⟨hthr.past, hearly, ?_, by simp, by simp, by simp [Pc.phase], by simp [Pc.phase]⟩
    rintro _ _ _ _ ⟨⟩
    rw [← hb, ← hlabel, hv]
    exact VCell.Known.start (.inl rfl) (CellArgs.filled_range _ _)
  | @readPiece op version left buf off n hpc =>
    refine stay ⟨hthr.past, hearly, ?_, by simp, by simp, by simp [Pc.phase], by simp [Pc.phase]⟩
    rintro _ _ _ _ ⟨⟩
    have hk := hthr.reading op version left buf hpc
    have hmem : (σ.objs (nodeFromAddress op.access.addr)).cell
        (Tx.cellArgs .variant2 op).lowBound = s.data op.cell := by
      rw [h.data, Flat.cell, show nodeFromAddress op.cell.1 = _ from op.access.node_block,
        show addrFromAddress op.cell.1 = _ from op.access.addrFromAddress_block]
      rfl
    -- A piece that is read while the cell is at another version does no harm.
    rw [hv]
    exact (hk.see (Q := fun d => _ = d) hmem).mono fun d hd =>
      CellArgs.filled_readPiece _ _ off n hd.1 hd.2
  | @lookedAll o left hpc =>
    refine stay ⟨hthr.past, by simp [Pc.early, Pc.calling], by simp, ?_, ?_,
      fun _ => hthr.wrote (.inl (by rw [hpc]; rfl)), by simp [Pc.phase]⟩
    · rintro _ _ _ ⟨⟩
      exact hthr.entries _ _ _ hpc
    · rintro _ _ _ ⟨⟩
      exact hthr.checked _ _ _ hpc
  | putNext | putAll | nextRead | nextRetry => exact writing rfl
  | _ => exact stay (.enter hthr.past hearly rfl (by simp [Pc.phase]))

/-- A transaction begins. -/
theorem Sys.Follows.begin (h : σ.Follows s) (hi : σ.ReadsOk cfg) {now : ℕ}
    (hpc : (σ.th t).pc = .idle) (hth : σ'.th = (σ.upd t th (Attempt.new cfg.segs now)).th)
    (hatt : σ'.att = (σ.upd t th (Attempt.new cfg.segs now)).att) (hlocks : σ'.locks = σ.locks)
    (hobjs : σ'.objs = σ.objs) (hlog : σ'.log = σ.log)
    (hth' : th = { σ.th t with
      tx := (σ.th t).tx.begin, pc := .active, round := (σ.th t).round + 1 }) : σ'.Follows s := by
  have hround : th.round = (σ.th t).round + 1 := by rw [hth']
  have hnew := hi.good.att.new (t, th.round) (hround ▸ Nat.lt_succ_self _)
  have hne : ∀ {t'}, t' ≠ t → σ.cur t' ≠ (t, th.round) := fun ht he => ht (congrArg Prod.fst he)
  have hrec : ∀ u, ValueRecord s u (u ∈ σ.log) (σ'.att u) := by
    intro u
    rw [hatt]
    rcases eq_or_ne u (t, th.round) with rfl | hu
    · rw [Sys.upd_att]
      have hold := h.att (t, th.round)
      rw [hnew] at hold
      exact hold.congr rfl rfl fun _ => rfl
    · rw [Sys.upd_att_ne hu]
      exact h.att u
  refine ⟨fun b => by rw [hobjs, h.data], fun b hf => ?_, hlog ▸ h.log, fun t' n b hn => ?_,
    fun u => by rw [hlog]; exact hrec u, fun t' => ?_, fun t' => ?_⟩
  · rw [hlocks]
    exact h.label b fun u hu => hf u (((hrec u).held b).1 (((h.att u).held b).2 hu))
  · rcases eq_or_ne t' t with rfl | ht
    · rw [hth, Sys.upd_th, hround] at hn
      exact h.unread t' n b ((Nat.lt_succ_self _).trans hn)
    · rw [hth, Sys.upd_th_ne ht] at hn
      exact h.unread t' n b hn
  · rcases eq_or_ne t' t with rfl | ht
    · obtain ⟨hr, hw, hv⟩ := (h.run t').idle hpc
      rw [Sys.me, Sys.cur, hth, Sys.upd_th, hatt, Sys.upd_att]
      subst hth'
      refine .of_running (by simp) (.begin ?_ ?_ ?_ rfl (fun b => ?_) now)
      · exact hr
      · exact hw
      · exact hv
      · exact h.unread t' _ b (Nat.lt_succ_self _)
    · have hc : σ'.cur t' = σ.cur t' := by rw [Sys.cur, Sys.cur, hth, Sys.upd_th_ne ht]
      rw [Sys.me, hc, hth, Sys.upd_th_ne ht, hatt, Sys.upd_att_ne (hne ht)]
      exact h.run t'
  · rcases eq_or_ne t' t with rfl | ht
    · have hpast : ∀ v ∈ s.log, v.1 = t' → v.2 ≤ (σ.th t').round := (h.thread t').past
      rw [Sys.cur, hth, Sys.upd_th]
      refine .enter (fun v hv he => ?_) (fun _ hin => ?_) (by rw [hth']; rfl)
        (by rw [hth']; simp [Pc.phase])
      · exact (hpast v hv he).trans (hround ▸ Nat.le_succ _)
      · have hle := hpast _ hin rfl
        dsimp only at hle
        rw [hround] at hle
        exact Nat.not_succ_le_self _ hle
    · have hc : σ'.cur t' = σ.cur t' := by rw [Sys.cur, Sys.cur, hth, Sys.upd_th_ne ht]
      rw [hc, hth, Sys.upd_th_ne ht]
      exact h.thread t'

/-- The call that begins. -/
def Act.called {g : Segments} : Act g → Option (Op g)
  | .call _ op => some op
  | _ => none

/-- A call of `read` or `write` fits what its transaction has written. -/
def FittingCall (cfg : Config) (σ : Sys cfg.segs) (a : Act cfg.segs) (_ : Sys cfg.segs) : Prop :=
  ∀ op ∈ a.called, (σ.th a.tid).tx.Fits op.access

instance (cfg : Config) (σ σ' : Sys cfg.segs) (a : Act cfg.segs) :
    Decidable (FittingCall cfg σ a σ') :=
  inferInstanceAs (Decidable (∀ op ∈ a.called, (σ.th a.tid).tx.Fits op.access))

/-- **The system follows the protocol**: a step whose grant, if it is one, replaces the version
recorded and whose call, if it is one, fits is a step of the protocol or one that the protocol does
not see. -/
theorem step_follows (hs : step cfg σ a = some σ') (hv : cfg.build.variant = .variant2)
    (hns : NoStaleGrant cfg σ a σ') (hfit : FittingCall cfg σ a σ') (hi : σ.ReadsOk cfg)
    (hinv : Inv ver m₀ s) (h : σ.Follows s) :
    ∃ s', ReflGen (Step ver (σ.cur a.tid)) s s' ∧ σ'.Follows s' := by
  have hok := hi.good.ok
  have hthr := h.thread a.tid
  have hrun := h.run a.tid
  have stay : ∀ {th : Thread cfg.segs} {me : Attempt cfg.segs},
      σ'.th = (σ.upd a.tid th me).th → σ'.att = (σ.upd a.tid th me).att →
      th.round = (σ.th a.tid).round → σ'.locks = σ.locks → σ'.objs = σ.objs →
      σ'.log = σ.log → me.held = (σ.me a.tid).held → me.validated = (σ.me a.tid).validated →
      (σ.cur a.tid ∈ σ.log → me.ops = (σ.me a.tid).ops) →
      ValueRun (s.reads (σ.cur a.tid)) th me → ValueThread s (σ.cur a.tid) th →
      ∃ s', ReflGen (Step ver (σ.cur a.tid)) s s' ∧ σ'.Follows s' :=
    fun h1 h2 h3 h4 h5 h6 h7 h8 h9 h10 h11 =>
      ⟨s, .refl, h.stay hinv h1 h2 h3 h4 h5 h6 h7 h8 h9 h10 h11⟩
  have hsame : σ.th = Function.update σ.th a.tid (σ.th a.tid) ∧
      σ.att = Function.update σ.att (a.tid, (σ.th a.tid).round) (σ.me a.tid) :=
    ⟨(Function.update_eq_self _ _).symm, (Function.update_eq_self _ _).symm⟩
  cases step_rule hs with
  | goto ha hc hg =>
    subst ha
    refine hg.follows hv hi hinv h fun op he hpc => ?_
    subst he
    have ha := step_fetch hs hok hpc (by rw [Sys.goto, Sys.upd_th])
    rw [ha] at hfit
    exact hfit op rfl
  | begin hpc => exact ⟨s, .refl, h.begin hi hpc rfl rfl rfl rfl rfl rfl⟩
  | load | reply | lost =>
    exact stay hsame.1 hsame.2 rfl rfl rfl rfl rfl rfl (fun _ => rfl) hrun hthr
  | deliver hk hm hdesc =>
    obtain rfl := delivers hok.local_ok hok.descs _ _ _ _ _ _ hk hm hdesc
    exact stay rfl rfl rfl rfl rfl rfl rfl rfl (fun _ => rfl) (hrun.congr rfl rfl rfl rfl rfl)
      (hthr.congr rfl rfl rfl rfl)
  | new ptr hpc =>
    exact stay rfl rfl rfl rfl rfl rfl rfl rfl (fun _ => rfl) (.of_idle hpc rfl rfl rfl)
      (.enter hthr.past (fun he => by simp [hpc, Pc.early, Pc.calling] at he)
        (by simp only [hpc]; rfl) (by simp only [hpc]; simp [Pc.phase]))
  | delete | addVersion | refuse =>
    exact stay rfl rfl rfl rfl rfl rfl rfl rfl (fun _ => rfl) (hrun.congr rfl rfl rfl rfl rfl)
      (hthr.congr rfl rfl rfl rfl)
  | @served t op tx r hpc hc hser =>
    rw [hv] at hser
    have hnot : σ.cur t ∉ s.log := hthr.early (by rw [Act.tid, hpc]; rfl)
    have hne : (σ.th t).pc ≠ .idle := by rw [hpc]; simp
    refine stay rfl rfl rfl rfl rfl rfl rfl rfl (fun hin => absurd (h.log.subset hin) hnot)
      (.of_running hne ((hrun.running hne).served (hfit op rfl) hser hpc))
      (.enter hthr.past (fun _ => hnot) ?_ ?_)
    · dsimp only
      rw [hpc]
      rfl
    · dsimp only
      rw [hpc]
      simp [Pc.phase]
  | abort hpc hc ha =>
    subst ha
    exact stay rfl rfl rfl rfl rfl rfl rfl rfl (fun _ => rfl) (.of_idle rfl rfl rfl rfl)
      (.enter hthr.past (fun h => by cases h) rfl (by simp [Thread.abort, Pc.phase]))
  | released | committed =>
    exact stay rfl rfl rfl rfl rfl rfl rfl rfl (fun _ => rfl) (.of_idle rfl rfl rfl rfl)
      (.enter hthr.past (fun h => by cases h) rfl (by simp [Thread.abort, Pc.phase]))
  | clockRaised hpc | batch hpc | send hpc =>
    exact stay rfl rfl rfl rfl rfl rfl rfl rfl (fun _ => rfl)
      (hrun.go (by rw [Act.tid, hpc]; simp) (by simp) rfl rfl rfl rfl (by rw [Act.tid, hpc]; rfl)
        (by rw [Act.tid, hpc]; rfl))
      (.enter hthr.past (fun _ => hthr.early (by rw [Act.tid, hpc]; rfl)) rfl (by simp [Pc.phase]))
  | issue hpc =>
    refine stay rfl rfl rfl rfl rfl rfl rfl rfl (fun _ => rfl)
      (hrun.go (by rw [Act.tid, hpc]; simp) (by simp) rfl rfl rfl rfl (by rw [Act.tid, hpc]; rfl)
        (by rw [Act.tid, hpc]; rfl))
      (.writing hthr.past rfl (hthr.wrote (.inr (by rw [Act.tid, hpc]; rfl)))
        fun b l v hb hr i hn => hthr.put (by rw [Act.tid, hpc]; rfl) b l v hb hr i ?_)
    rw [Act.tid, hpc]
    exact id
  | fetched hpc hc hl he =>
    exact h.fetched hinv hi hv hpc hl he rfl rfl rfl rfl rfl rfl rfl rfl rfl
  | finish hpc hc hcf hn =>
    rw [hv] at hcf
    exact h.finish hinv hv (by rw [Act.tid, hpc]; rfl) hcf
      (fun e he => (hi.rereads _).not_lt hpc hn he) rfl rfl rfl
  | @finishValid t c op ts buf looked hpc =>
    have hcall := (hi.rereads t).call
    rw [hpc] at hcall
    exact h.finish hinv hv (by rw [Act.tid, hpc]; rfl) hcall.2.1
      (fun e he => (hi.rereads _).not_lt_valid hpc he) rfl rfl rfl
  | lockPoint hpc => exact h.lockPoint hinv hi hv hpc rfl rfl rfl rfl rfl rfl rfl rfl rfl
  | validated hpc => exact h.validated hinv hi hv hpc rfl rfl rfl rfl rfl rfl rfl
  | invalid hpc => exact h.invalid hinv hi hpc rfl rfl rfl rfl rfl rfl
  | put off n hpc => exact h.put hinv hi hv hpc rfl rfl rfl rfl rfl rfl rfl
  | release hpc => exact h.release hinv hi hpc rfl rfl rfl rfl rfl rfl rfl
  | restore hpc hc hb => exact h.restore hinv hi hpc hb rfl rfl rfl rfl rfl rfl rfl rfl rfl
  | @grant t k p i old changed hk hm hlt ho =>
    have hp := List.mem_of_getElem? hk
    have hw := hi.good.granted hns hk hm hlt ho
    obtain ⟨b, hbm, -, hobj, hlock, -, -⟩ := hok.requested hp hm hlt
    rw [hobj] at hw
    rw [hlock] at ho
    refine h.grant (w := lockValNew (p.buf.version i)) (v := old) hinv hi (hok.inBatch hp).1 hbm
      (ho.trans hw) rfl rfl ?_ rfl rfl ?_ rfl rfl
    · exact congrArg (fun ℓ => Function.update σ.locks ℓ _) hlock
    · exact congrArg (fun b => (σ.me t).held ++ [(b, old)]) hobj

end

end DstmP1
