import DstmP1.Completion

/-!
# A transaction alone is a sequential program

One `VARIANT1` transaction runs while nobody else commits, from any object memory and any unlocked
lock words. It does not abort, its calls return what they return on flat memory, and when `commit`
has returned this flat memory is the object memory and the cells written carry one new version
(`alone_sequential`).
-/

namespace DstmP1

open Segments (Loc)

/-- The call writes. -/
def Op.isWrite {g : Segments} : Op g → Bool
  | .read _ => false
  | .write _ _ => true

/-- One of the calls writes to the cell `b`. -/
def Wrote {g : Segments} (calls : List (Op g)) (b : Word) : Prop :=
  ∃ op ∈ calls, op.isWrite = true ∧ op.access.block = b

section
variable {cfg : Config} {σ σ' : Sys cfg.segs} {a : Act cfg.segs} {t : Tid}
  {locks : Loc → Word} {clock : ℕ → Word} {objs : Flat}

/-! ## The start -/

theorem Sys.TxnsOk.start (objs : Flat) (hq : Quiet locks clock) :
    (Sys.start cfg.segs objs locks clock).TxnsOk cfg where
  good := .start objs locks clock
  clock := ⟨fun n => (hq.clock n).trans (by decide),
    fun _ => ⟨fun _ h => absurd h Tx.not_records_new, trivial⟩⟩
  log := ⟨List.nodup_nil, (Sys.LogOk.init objs).cur, (Sys.LogOk.init objs).other⟩
  puts _ h := by cases h
  runs _ := .of_idle rfl rfl rfl
  writes _ h := by rcases h with h | h <;> cases h

/-! ## The write set -/

section
variable {g : Segments} {tx tx' : Tx} {op : Op g} {b ts : Word} {l : List (Op g)}

theorem Wrote.mono {l' : List (Op g)} (h : Wrote l b) (hl : l ⊆ l') : Wrote l' b := by
  obtain ⟨op, hop, hw⟩ := h
  exact ⟨op, hl hop, hw⟩

theorem wrote_concat :
    Wrote (l ++ [op]) b ↔ Wrote l b ∨ op.isWrite = true ∧ op.access.block = b := by
  simp only [Wrote, List.mem_append, List.mem_singleton, or_and_right, exists_or, exists_eq_left]

/-- A call that the maps serve puts the cell it writes to into the write set. -/
theorem Tx.mem_served {r : List Byte} (hs : tx.served .variant1 op = some (tx', r)) :
    b ∈ tx'.writeSet ↔ b ∈ tx.writeSet ∨ op.isWrite = true ∧ op.access.block = b := by
  cases op with
  | read a =>
    have he : tx' = tx := by
      simp only [served] at hs
      split at hs
      · cases hs
        rfl
      · obtain ⟨e, -, hp⟩ := Option.map_eq_some_iff.1 hs
        cases hp
        rfl
    simp [he, Op.isWrite]
  | write a value =>
    simp only [served] at hs
    split at hs
    · cases hs
      simp [Op.isWrite, Op.access, AList.mem_insert, or_comm, eq_comm]
    · obtain ⟨e, -, hp⟩ := Option.map_eq_some_iff.1 hs
      cases hp
      simp [Op.isWrite, Op.access, AList.mem_insert, or_comm, eq_comm]

/-- So does one that has read the cell. -/
theorem Tx.mem_fetched {buf : ℕ → Byte} : b ∈ (tx.fetched .variant1 op ts buf).writeSet ↔
    b ∈ tx.writeSet ∨ op.isWrite = true ∧ op.access.block = b := by
  cases op with
  | read a => simp [Tx.fetched, Op.isWrite]
  | write a value =>
    simp [Tx.fetched, Op.isWrite, Op.access, AList.mem_insert, or_comm, eq_comm]

theorem Tx.mem_finished {value : List Byte} :
    b ∈ (tx.finished .variant1 op ts value).1.writeSet ↔ b ∈ tx.writeSet := by
  cases op with
  | read a => rfl
  | write a new =>
    rw [Tx.finished]
    split
    · next e he =>
      rw [AList.mem_insert, or_iff_right_of_imp]
      rintro rfl
      exact mem_of_lookup he
    · rfl

end

/-! ## The record of the transaction -/

/-- The write set of the transaction are the cells that it has written to, its new version is newer
than what it has replaced, and it has returned with one. -/
structure SoloOk (cfg : Config) (locks : Loc → Word) (th : Thread cfg.segs)
    (me : Attempt cfg.segs) : Prop where
  written : th.pc ≠ .idle → ∀ b ∈ th.tx.writeSet, Wrote (calls th me) b
  writes : th.pc ≠ .idle → ∀ b, Wrote (me.ops.map Prod.fst) b → b ∈ th.tx.writeSet
  version : ∀ v, me.newVersion = some v →
    Unlocked v ∧ ∀ b ∈ me.writes, ver (locks (cfg.segs.lockLoc b)) < ver v
  returned : me.returned ≠ none →
    me.newVersion ≠ none ∧ ∀ b, b ∈ me.writes ↔ Wrote (me.ops.map Prod.fst) b

section
variable {th th' : Thread cfg.segs} {me me' : Attempt cfg.segs}

/-- The fields that count. -/
theorem SoloOk.congr (h : SoloOk cfg locks th me) (hpc : th'.pc ≠ .idle → th.pc ≠ .idle)
    (hcall : th.pc.call.toList ⊆ th'.pc.call.toList)
    (hws : th'.pc ≠ .idle → th'.tx.writeSet = th.tx.writeSet)
    (ho : me'.ops = me.ops) (hw : me'.writes = me.writes) (hn : me'.newVersion = me.newVersion)
    (hr : me'.returned = me.returned) : SoloOk cfg locks th' me' where
  written hp b hb := by
    rw [hws hp] at hb
    refine (h.written (hpc hp) b hb).mono ?_
    rw [calls, calls, ho]
    exact List.append_subset.2 ⟨List.subset_append_left _ _,
      fun op hop => List.mem_append_right _ (hcall hop)⟩
  writes hp b hb := by
    rw [hws hp]
    exact h.writes (hpc hp) b (ho ▸ hb)
  version := by
    rw [hn, hw]
    exact h.version
  returned := by
    rw [hr, hn, hw, ho]
    exact h.returned

/-- A call returns. -/
theorem SoloOk.returns (h : SoloOk cfg locks th me) {op : Op cfg.segs} {r : List Byte}
    (hne : th.pc ≠ .idle) (hret : me.returned = none) (hcall : th.pc.call.toList ⊆ [op])
    (hpc : th'.pc = .active) (hws : ∀ b, b ∈ th'.tx.writeSet ↔
      b ∈ th.tx.writeSet ∨ op.isWrite = true ∧ op.access.block = b) :
    SoloOk cfg locks th' { me with ops := me.ops ++ [(op, r)] } where
  written _ b hb := by
    rw [calls, hpc, List.map_append]
    rcases (hws b).1 hb with hb | hb
    · refine (h.written hne b hb).mono fun x hx => ?_
      rcases List.mem_append.1 hx with hx | hx
      · exact List.mem_append_left _ (List.mem_append_left _ hx)
      · exact List.mem_append_left _ (List.mem_append_right _ (hcall hx))
    · exact (wrote_concat.2 (.inr hb)).mono (List.subset_append_left _ _)
  writes _ b hb := by
    rw [List.map_append] at hb
    exact (hws b).2 ((wrote_concat.1 hb).imp_left (h.writes hne b))
  version := h.version
  returned hr := absurd hret hr

/-- A call that writes has its cell in the write set. -/
theorem TxnOk.mem_finished (h : TxnOk th me) (hag : objs.Agrees me.seen) {tx : Tx}
    {op : Op cfg.segs} {ts : Word} {buf : ℕ → Byte} {value : List Byte} {b : Word}
    (hcall : ∀ m, CallOk th.tx m th.pc → CallOk th.tx m (.validateStart op ts buf))
    (hws : tx.writeSet = th.tx.writeSet) : b ∈ (tx.finished .variant1 op ts value).1.writeSet ↔
      b ∈ th.tx.writeSet ∨ op.isWrite = true ∧ op.access.block = b := by
  rw [Tx.mem_finished, hws, or_iff_left_of_imp]
  rintro ⟨hwr, rfl⟩
  obtain ⟨m, -, -, hm⟩ := h.runs objs hag
  have hm := hcall m hm
  cases op with
  | read => cases hwr
  | write => exact hm.1

end

/-- A thread that moves on goes on with its call. -/
theorem Goes.call {pc : Pc cfg.segs} (hgo : Goes cfg σ t pc) :
    (σ.th t).pc.call.toList ⊆ pc.call.toList := by
  rcases eq_or_ne (σ.th t).pc .active with ha | ha
  · rw [ha]
    exact List.nil_subset _
  · rw [hgo.call_eq ha]
    exact List.Subset.refl _

/-- A step of the transaction keeps its record in order. -/
theorem Rule.soloOk (hr : Rule cfg σ a σ') (hv : cfg.build.variant = .variant1)
    (hi : σ.TxnsOk cfg) (hcl : σ'.ClockOk cfg)
    (h : σ.AloneOk cfg a.tid locks) (hag : objs.Agrees (σ.me a.tid).seen)
    (hs : SoloOk cfg locks (σ.th a.tid) (σ.me a.tid)) :
    SoloOk cfg locks (σ'.th a.tid) (σ'.me a.tid) := by
  have hg := hi.good
  have lift : ∀ {th : Thread cfg.segs} {me : Attempt cfg.segs},
      σ'.th = (σ.upd a.tid th me).th → σ'.att = (σ.upd a.tid th me).att →
      SoloOk cfg locks th me → SoloOk cfg locks (σ'.th a.tid) (σ'.me a.tid) :=
    fun h1 h2 h3 => Sys.lift (P := SoloOk cfg locks) h3 h1 h2
  have hclock : ∀ {th : Thread cfg.segs}, σ'.th = Function.update σ.th a.tid th →
      PcClock (σ'.clock (cfg.node a.tid)) th.tx th.pc := by
    intro th hth
    have hp := (hcl.thread a.tid).pc
    rwa [hth, Function.update_self] at hp
  cases hr with
  | goto ha hc hgo =>
    subst ha
    exact lift rfl rfl
      (hs.congr (fun _ => hgo.not_idle.1) hgo.call (fun _ => rfl) rfl rfl rfl rfl)
  | abort hpc hc ha =>
    subst ha
    exact lift rfl rfl ⟨fun hp => absurd rfl hp, fun hp => absurd rfl hp, hs.version, hs.returned⟩
  | load | reply | lost => exact hs
  | deliver hk hm hdesc =>
    obtain rfl := delivers hg.ok.local_ok hg.ok.descs _ _ _ _ _ _ hk hm hdesc
    exact lift rfl rfl (hs.congr id (fun _ => id) (fun _ => rfl) rfl rfl rfl rfl)
  | new ptr hpc =>
    exact lift rfl rfl (hs.congr id (fun _ => id) (fun hp => absurd hpc hp) rfl rfl rfl rfl)
  | delete | addVersion | refuse | grant =>
    exact lift rfl rfl (hs.congr id (fun _ => id) (fun _ => rfl) rfl rfl rfl rfl)
  | @begin t ptr hpc =>
    have hempty := ((hi.runs t).idle hpc).2
    refine lift rfl rfl ⟨fun _ b hb => ?_, fun _ b hb => ?_, fun v hv => ?_,
      fun hr => absurd rfl hr⟩
    · have hb' : b ∈ (σ.th t).tx.writeSet := hb
      rw [hempty] at hb'
      cases hb'
    · obtain ⟨op, hop, -⟩ := hb
      cases hop
    · cases hv
  | @served t op tx r hpc hc hsv =>
    rw [hv] at hsv
    have hne : (σ.th t).pc ≠ .idle := by rw [hpc]; simp
    exact lift rfl rfl (hs.returns hne (hg.att.running hne).1 (by rw [Act.tid, hpc]; simp [Pc.call])
      hpc fun b => Tx.mem_served hsv)
  | @fetched t c op ts buf hpc =>
    have hne : (σ.th t).pc ≠ .idle := by rw [hpc]; simp
    have hret := (hg.att.running hne).1
    refine lift rfl rfl ⟨fun _ b hb => ?_, fun _ b hb => ?_, hs.version,
      fun hr => absurd hret hr⟩
    · dsimp only at hb
      rw [hv] at hb
      rcases Tx.mem_fetched.1 hb with hb | hb
      · have hw := hs.written hne b hb
        rw [calls, Act.tid, hpc] at hw
        exact hw
      · exact wrote_concat.2 (.inr hb)
    · dsimp only
      rw [hv]
      exact Tx.mem_fetched.2 (.inl (hs.writes hne b hb))
  | @clockRaised t c op ts buf hpc =>
    refine lift rfl rfl (hs.congr (fun _ => by rw [Act.tid, hpc]; simp) ?_ (fun _ => rfl) rfl rfl
      rfl rfl)
    rw [Act.tid, hpc]
    exact fun _ => id
  | @finish t c op ts buf hpc =>
    have hne : (σ.th t).pc ≠ .idle := by rw [hpc]; simp
    refine lift rfl rfl (hs.returns hne (hg.att.running hne).1 ?_ rfl fun b => ?_)
    · rw [Act.tid, hpc]
      exact fun _ => id
    · rw [hv]
      exact ((hi.runs t).running hne).mem_finished hag
        (fun m hm => by rw [hpc] at hm; exact hm) rfl
  | @finishValid t c op ts buf looked hpc =>
    have hne : (σ.th t).pc ≠ .idle := by rw [hpc]; simp
    refine lift rfl rfl (hs.returns hne (hg.att.running hne).1 ?_ rfl fun b => ?_)
    · rw [Act.tid, hpc]
      exact fun _ => id
    · rw [hv]
      exact ((hi.runs t).running hne).mem_finished hag
        (fun m hm => by rw [hpc] at hm; exact hm) rfl
  | @lockPoint t c o done hpc =>
    have hne : (σ.th t).pc ≠ .idle := by rw [hpc]; simp
    have hn : (σ.me t).newVersion = none := h.thread.newVersion_eq hne (by rw [Act.tid, hpc]; simp)
    have hret := (hg.att.running hne).1
    have hcall : (σ.th t).pc.call = none := by rw [hpc]; rfl
    refine lift rfl rfl ⟨fun _ b hb => ?_, fun _ => hs.writes hne, fun v hv => ?_,
      fun hr => absurd hret hr⟩
    · have hw := hs.written hne b hb
      rwa [calls, Act.tid, hcall] at hw
    · have hv' : (σ.me t).newVersion = some v := hv
      rw [hn] at hv'
      cases hv'
  | @issue t c o hpc =>
    have hne : (σ.th t).pc ≠ .idle := by rw [hpc]; simp
    have hret := (hg.att.running hne).1
    have hp := hclock rfl
    have hsmall := hcl.small (cfg.node t)
    dsimp only at hsmall hp
    rw [Function.update_self] at hsmall
    refine lift rfl rfl ⟨fun _ b hb => ?_, fun _ => hs.writes hne, fun v hv => ?_,
      fun hr => absurd hret hr⟩
    · have hw := hs.written hne b hb
      rw [calls, Act.tid, hpc] at hw
      exact hw
    · obtain rfl := Option.some.inj hv
      refine ⟨unlocked_newVersion hsmall, fun b hb => ?_⟩
      have hweq : (σ.me t).writes = (σ.th t).tx.writeSet := hi.writes t (.inr (by rw [hpc]; rfl))
      have hbw : b ∈ (σ.th t).tx.writeSet := hweq ▸ hb
      have hts := h.thread.records b _ (Tx.recordsAt_entryTs hbw)
      rw [← hts]
      exact hp _ (Tx.records_entryTs hbw)
  | @committed t c version hpc =>
    have hne : (σ.th t).pc ≠ .idle := by rw [hpc]; simp
    have hloc := (hg.ok.local_ok t).pc
    simp only [PcOk, hpc] at hloc
    have hweq : (σ.me t).writes = (σ.th t).tx.writeSet := hi.writes t (.inr (by rw [hpc]; rfl))
    refine lift rfl rfl ⟨fun hp => absurd rfl hp, fun hp => absurd rfl hp, hs.version,
      fun _ => ⟨?_, fun b => ⟨fun hb => ?_, fun hb => ?_⟩⟩⟩
    · have hsome : (σ.me t).newVersion = some version := hloc.2.2.2
      simp [hsome]
    · have hw := hs.written hne b (hweq ▸ hb)
      rw [calls, Act.tid, hpc] at hw
      simpa [Pc.call] using hw
    · have hbw := hs.writes hne b hb
      exact hweq.symm ▸ hbw
  | released hpc =>
    exact lift rfl rfl (hs.congr (fun hp => absurd rfl hp) (by rw [Act.tid, hpc]; simp [Pc.call])
      (fun hp => absurd rfl hp) rfl rfl rfl rfl)
  | batch hpc | send hpc | restore hpc | validated hpc | invalid hpc | put _ _ hpc | release hpc =>
    exact lift rfl rfl (hs.congr (fun _ => by rw [Act.tid, hpc]; simp)
      (by rw [Act.tid, hpc]; simp [Pc.call]) (fun _ => rfl) rfl rfl rfl rfl)

/-! ## Every run -/

/-- What holds of all runs in which `t` runs its `VARIANT1` transaction alone. -/
structure Sys.SoloRun (cfg : Config) (t : Tid) (locks : Loc → Word) (objs : Flat)
    (σ : Sys cfg.segs) : Prop where
  run : σ.AloneRun cfg t (fun _ => True) locks objs
  txns : σ.TxnsOk cfg
  room : σ.RoomOk cfg t
  solo : SoloOk cfg locks (σ.th t) (σ.me t)

theorem Sys.SoloRun.start (objs : Flat) (hq : Quiet locks clock) (t : Tid) :
    (Sys.start cfg.segs objs locks clock).SoloRun cfg t locks objs where
  run := .start objs locks clock t _
  txns := .start objs hq
  room := .start objs hq t
  solo := {
    written := fun hp => absurd rfl hp
    writes := fun hp => absurd rfl hp
    version := fun _ hv => by cases hv
    returned := fun hr => absurd rfl hr }

/-- A step keeps all of this. -/
theorem Sys.SoloRun.step (h : σ.SoloRun cfg t locks objs) (hq : Quiet locks clock)
    (hv : cfg.build.variant = .variant1) (hc : cfg.build.cache = false)
    (hs : step cfg σ a = some σ') (halone : Alone cfg t σ a σ') :
    σ'.SoloRun cfg t locks objs := by
  have hr := step_rule hs
  have hg := h.txns.good
  have hsame := hr.sameBut (delivers hg.ok.local_ok hg.ok.descs)
  have htxns := h.txns.step hv hr (h.room.clockBelow h.run.alone h.txns.clock hr)
  refine ⟨h.run.step hq hc hs ⟨halone, fun _ _ => trivial⟩, htxns,
    h.room.step h.run.alone hq hg hr halone, ?_⟩
  rcases eq_or_ne a.tid t with rfl | hne
  · have hm := h.run.watched.maps
    rw [hv] at hm
    exact hr.soloOk hv h.txns htxns.clock h.run.alone hm.2 h.solo
  · rw [hsame.th t hne.symm, hsame.me hne.symm]
    exact h.solo

theorem reach_soloRun (hq : Quiet locks clock) (hv : cfg.build.variant = .variant1)
    (hc : cfg.build.cache = false) (h : (cfg.ltsFrom objs locks clock).Reach (Alone cfg t) σ) :
    σ.SoloRun cfg t locks objs :=
  h.induct (fun _ h0 => h0 ▸ .start objs hq t)
    fun _ _ _ _ ih hs ha => ih.step hq hv hc hs ha

/-! ## What the transaction has done -/

/-- The call writes the byte `p` of node `n`. -/
def Op.WritesTo {g : Segments} (n : ℕ) (p : Word) : Op g → Prop
  | .read _ => False
  | .write a _ =>
    n = nodeFromAddress a.addr ∧ (p - addrFromAddress a.addr).toNat < a.width.bytes

/-- Bytes that no call writes stay as they are. -/
theorem replay_eq {g : Segments} {l : List (Op g × List Byte)} {m m' : Flat} {n : ℕ} {p : Word}
    (h : replay m l = some m') (hno : ∀ op ∈ l.map Prod.fst, ¬ op.WritesTo n p) :
    m' n p = m n p := by
  induction l generalizing m with
  | nil =>
    cases h
    rfl
  | cons x l ih =>
    obtain ⟨op, r⟩ := x
    rw [replay] at h
    split at h
    · rw [ih h fun op hop => hno op (List.mem_cons_of_mem _ hop)]
      have hop := hno op List.mem_cons_self
      cases op with
      | read => rfl
      | write a value =>
        rw [Op.apply, Flat.store]
        split
        · next hn =>
          refine List.getD_eq_default _ _ (Nat.le_of_not_lt fun hlt => hop ⟨hn, ?_⟩)
          rwa [value.2] at hlt
        · rfl
    · cases h

/-- A transaction that has returned is outside, with no lock left. -/
theorem Sys.SoloRun.held_nil (h : σ.SoloRun cfg t locks objs) (hr : (σ.me t).returned ≠ none) :
    (σ.me t).held = [] := by
  have hl := (h.txns.good.ok.local_ok t).pc
  simp only [PcOk, h.run.watched.idle hr] at hl
  exact List.map_eq_nil_iff.1 hl.held.eq_nil

/-- The calls return what they return on flat memory. -/
theorem Sys.SoloRun.replays (h : σ.SoloRun cfg t locks objs)
    (hv : cfg.build.variant = .variant1) : ∃ m, replay objs (σ.me t).ops = some m := by
  have hsound := h.run.watched.sound
  rwa [hv] at hsound

/-- When `commit` has returned, memory is what the calls have made of it. -/
theorem Sys.SoloRun.objs_eq (h : σ.SoloRun cfg t locks objs) (hv : cfg.build.variant = .variant1)
    (hr : (σ.me t).returned ≠ none) : replay objs (σ.me t).ops = some σ.objs := by
  have hleft := h.run.watched.leaves hr
  rwa [hv] at hleft

/-- Then the cells written have one new version, and all other lock words are as they were. -/
theorem Sys.SoloRun.locks_eq (h : σ.SoloRun cfg t locks objs) (hr : (σ.me t).returned ≠ none) :
    ∃ v, Unlocked v ∧ (∀ b, Wrote ((σ.me t).ops.map Prod.fst) b →
      σ.locks (cfg.segs.lockLoc b) = v ∧ ver (locks (cfg.segs.lockLoc b)) < ver v) ∧
      ∀ ℓ, (∀ b, Wrote ((σ.me t).ops.map Prod.fst) b → cfg.segs.lockLoc b ≠ ℓ) →
        σ.locks ℓ = locks ℓ := by
  obtain ⟨hsome, hwrites⟩ := h.solo.returned hr
  obtain ⟨v, hv⟩ := Option.ne_none_iff_exists'.1 hsome
  obtain ⟨hu, hver⟩ := h.solo.version v hv
  have hheld := h.held_nil hr
  refine ⟨v, hu, fun b hb => ?_, fun ℓ hℓ => ?_⟩
  · have hbw := (hwrites b).2 hb
    exact ⟨h.run.alone.locks.new v hv b hbw (by simp [hheld]), hver b hbw⟩
  · exact h.run.alone.locks.kept ℓ (by simp [hheld]) (.inr fun b hb => hℓ b ((hwrites b).1 hb))

/-! ## The sequential program -/

/-- The transaction of `t` has not aborted; its calls have returned what they return on flat memory;
and when `commit` has returned, the object memory is this flat memory, bytes that no call has
written are as they were, and so are all lock words but those of the cells written, which have one
new unlocked version. Calls and commits that have not returned yet do so by steps of `t` only. -/
structure Sys.Sequential (cfg : Config) (t : Tid) (locks : Loc → Word) (objs : Flat)
    (σ : Sys cfg.segs) : Prop where
  aborted : (σ.me t).aborted = false
  reads : ∃ m, replay objs (σ.me t).ops = some m
  memory : (σ.me t).returned ≠ none → replay objs (σ.me t).ops = some σ.objs
  unwritten : (σ.me t).returned ≠ none → ∀ n p,
    (∀ op ∈ (σ.me t).ops.map Prod.fst, ¬ op.WritesTo n p) → σ.objs n p = objs n p
  versions : (σ.me t).returned ≠ none → ∃ v, Unlocked v ∧
    (∀ b, Wrote ((σ.me t).ops.map Prod.fst) b →
      σ.locks (cfg.segs.lockLoc b) = v ∧ ver (locks (cfg.segs.lockLoc b)) < ver v) ∧
    ∀ ℓ, (∀ b, Wrote ((σ.me t).ops.map Prod.fst) b → cfg.segs.lockLoc b ≠ ℓ) → σ.locks ℓ = locks ℓ
  returns : (σ.th t).pc.calling = true → ∃ σ', Relation.ReflTransGen (Sys.Next cfg t) σ σ' ∧
    (σ'.th t).pc = .active ∧ (σ'.me t).ops.map Prod.fst = calls (σ.th t) (σ.me t)
  commits : (σ.th t).pc.committing = true → ∃ σ', Relation.ReflTransGen (Sys.Next cfg t) σ σ' ∧
    (σ'.me t).returned ≠ none ∧ (σ'.me t).ops.map Prod.fst = calls (σ.th t) (σ.me t)

/-- **A transaction alone is a sequential program**: whatever the objects, the unlocked lock words
and the clocks are to begin with, in every state of every run in which `t` runs one transaction
and nobody else commits, this transaction is one on flat memory; and any calls can be its calls. -/
theorem alone_sequential (hq : Quiet locks clock) (hv : cfg.build.variant = .variant1)
    (hc : cfg.build.cache = false) :
    (∀ σ, (cfg.ltsFrom objs locks clock).Reach (Alone cfg t) σ → σ.Sequential cfg t locks objs) ∧
    ∀ l : List (Op cfg.segs), ∃ σ, (cfg.ltsFrom objs locks clock).Reach (Alone cfg t) σ ∧
      (σ.me t).ops.map Prod.fst = l ∧ (σ.me t).returned ≠ none := by
  refine ⟨fun σ h => ?_, fun l => ?_⟩
  · have hsolo := reach_soloRun hq hv hc h
    exact {
      aborted := hsolo.run.alone.thread.aborted
      reads := hsolo.replays hv
      memory := hsolo.objs_eq hv
      unwritten := fun hr n p hno => replay_eq (hsolo.objs_eq hv hr) hno
      versions := hsolo.locks_eq
      returns := hsolo.run.call_returns hq hc
      commits := hsolo.run.commit_returns hq hc }
  · obtain ⟨σ, h, hops⟩ := exists_returned (R := fun _ => True) objs hq hc t (l := l)
      fun vs _ => ⟨vs.keys, .refl _, trivial⟩
    exact ⟨σ, h.mono fun _ _ _ ha => ha.1, hops⟩

end

/-- A transaction that reads a value, overwrites it, writes to another cell and reads the first
value again, when all cells carry a version of node 1 to begin with. -/
theorem sequential_two : ∃ σ, ((small ⟨.variant1, false⟩).ltsFrom (fun _ _ => 7)
      (fun _ => newVersion 1 5) fun _ => 3).Reach (Alone (small ⟨.variant1, false⟩) 0) σ ∧
    (σ.me 0).ops.map Prod.fst =
      [.read cellX, .write cellX (smallValue 1), .write cellY (smallValue 2), .read cellX] ∧
    σ.Sequential (small ⟨.variant1, false⟩) 0 (fun _ => newVersion 1 5) (fun _ _ => 7) ∧
    (σ.me 0).returned ≠ none := by
  have hq : Quiet (fun _ => newVersion 1 5) fun _ => 3 :=
    ⟨fun _ => isLocked_eq_false.1 (by decide), fun _ => by decide, fun _ => by decide⟩
  obtain ⟨hall, hex⟩ := @alone_sequential (small ⟨.variant1, false⟩) 0 (fun _ => newVersion 1 5)
    (fun _ => 3) (fun _ _ => 7) hq rfl rfl
  obtain ⟨σ, h, hops, hret⟩ := hex
    [.read cellX, .write cellX (smallValue 1), .write cellY (smallValue 2), .read cellX]
  exact ⟨σ, h, hops, hall σ h, hret⟩

end DstmP1
