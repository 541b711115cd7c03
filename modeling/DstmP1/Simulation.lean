import DstmP1.Clocks
import DstmP1.Lib.Optimistic
import DstmP1.Puts
import Mathlib.Logic.Relation

/-!
# The system follows the protocol of optimistic transactions

The cells are the keys of `Optimistic`, their versions the labels, and the records of the
transactions what these have read, hold and write. Every step of the system is a step of this
protocol or none (`Rule.simulates`), as long as the lock handler swaps a lock word only when it is
the version that the request carries. The protocol compares labels for equality when it locks a
cell, and this is the step that a stale grant does not follow.
-/

namespace DstmP1

open Segments (Loc)
open Optimistic (State Step Inv Frame)
open Relation (ReflGen)

/-- The protocol with the cells for its keys. -/
abbrev Protocol (g : Segments) := State (Tid × ℕ) {b : Word // g.IsCell b} Cell Word

/-- The code is in a transaction that does not have all its locks yet. -/
def Pc.early {g : Segments} : Pc g → Bool
  | .getLocks _ _ _ | .requestLocks _ _ _ _ _ _ | .waitLocks _ _ _ _ _ => true
  | pc => pc.calling

/-- The code neither reads a cell nor validates in `commit`. -/
def Pc.plain {g : Segments} : Pc g → Bool
  | .readCell _ (.data _ _ _) | .validateAll _ _ _ => false
  | _ => true

theorem Pc.plain_of_writing {g : Segments} {pc : Pc g} (h : pc.phase = .writing) :
    pc.plain = true := by
  cases pc <;> first | rfl | cases h

theorem Pc.early_of_inBatch {g : Segments} {pc : Pc g} (h : pc.inBatch = true) :
    pc.early = true := by
  cases pc <;> first | rfl | cases h

theorem Pc.phase_of_early {g : Segments} {pc : Pc g} (h : pc.early = true) :
    pc.phase = .before := by
  cases pc <;> first | rfl | cases h

theorem Pc.not_idle_of_inBatch {g : Segments} {pc : Pc g} (h : pc.inBatch = true) :
    pc ≠ .idle := by
  rintro rfl
  cases h

/-! ## The relation -/

section
variable {g : Segments}

/-- The record of a transaction says what the protocol knows of it. A transaction that has left the
log of the system has failed. -/
structure RecordOk (s : Protocol g) (u : Tid × ℕ) (logged : Prop) (a : Attempt g) : Prop where
  held : ∀ b, s.holds u b ↔ b.1 ∈ a.held.map Prod.fst
  reads : ∀ b, s.reads u b = (a.seen.lookup b.1).map fun e => (e.ts, e.copy)
  final : s.final u = a.validated
  writes : logged → ∀ b, s.writes u b = (a.writes.lookup b.1).map Entry.copy
  failed : ¬ logged → u ∈ s.log → ∀ b, s.writes u b = none

/-- The cell that a call reads. -/
def Op.cell (op : Op g) : {b : Word // g.IsCell b} := ⟨op.access.block, op.access.isCell⟩

/-- Where a thread stands in the protocol with its transaction `u`: before the lock point `u` is not
in the log; the bytes that `readCell` has so far are those of the version it has seen; and
`validateAll` has checked the cells that are not left. -/
structure ThreadSim (s : Protocol g) (u : Tid × ℕ) (th : Thread g) (me : Attempt g) : Prop where
  past : ∀ v ∈ s.log, v.1 = u.1 → v.2 ≤ u.2
  early : th.pc.early = true → u ∉ s.log
  reading : ∀ op version left buf, th.pc = .readCell op (.data version left buf) →
    (s.vcell op.cell).Known (s.Used ver op.cell) version
      ((Tx.cellArgs .variant1 op).Filled left buf)
  entries : ∀ o left looked, th.pc = .validateAll o left looked →
    ∀ p ∈ left, ∃ c, me.seen.lookup p.1 = some ⟨p.2, c⟩
  checked : ∀ o left looked, th.pc = .validateAll o left looked → ∀ b, b.1 ∈ me.seen →
    b.1 ∉ left.map Prod.fst → s.checked u b ∨ s.writes u b ≠ none

/-- The memory, the lock words, the records and the threads are those of the protocol in state
`s`. -/
structure Sys.Refines (σ : Sys g) (s : Protocol g) : Prop where
  data : ∀ b, s.data b = σ.objs.cell b.1
  label : ∀ b, (∀ u, ¬ σ.Holds u b.1) → σ.locks (g.lockLoc b.1) = s.label b
  log : σ.log.Sublist s.log
  att : ∀ u, RecordOk s u (u ∈ σ.log) (σ.att u)
  thread : ∀ t, ThreadSim s (σ.cur t) (σ.th t) (σ.me t)

/-- The protocol before the first step. -/
def Protocol.start (objs : Flat) : Protocol g where
  data b := objs.cell b.1
  label _ := 0
  holds _ _ := False
  reads _ _ := none
  writes _ _ := none
  checked _ _ := False
  final _ := false
  log := []

theorem Sys.Refines.init (objs : Flat) : (Sys.init g objs).Refines (.start objs) where
  data _ := rfl
  label _ _ := rfl
  log := List.Sublist.refl _
  att _ := ⟨fun _ => iff_of_false id List.not_mem_nil, fun _ => rfl, rfl, fun _ _ => rfl,
    fun _ _ _ => rfl⟩
  thread t := by
    have hpc : ((Sys.init g objs).th t).pc = .idle := rfl
    refine ⟨fun _ hv => absurd hv List.not_mem_nil, ?_, ?_, ?_, ?_⟩ <;>
      simp [hpc, Pc.early, Pc.calling]

end

/-! ## What a step leaves alone -/

section
variable {g : Segments} {s s' : Protocol g} {u w : Tid × ℕ} {th th' : Thread g}
  {me me' : Attempt g}

theorem RecordOk.frame {p : Prop} (h : RecordOk s u p me) (hf : Frame s s' u) :
    RecordOk s' u p me where
  held b := (hf.holds b).trans (h.held b)
  reads b := by rw [hf.reads, h.reads]
  final := hf.final.trans h.final
  writes hp b := by rw [hf.writes, h.writes hp]
  failed hp hu b := by rw [hf.writes, h.failed hp (hf.log.1 hu)]

/-- The fields of the record that the protocol knows of. -/
theorem RecordOk.congr {p : Prop} (h : RecordOk s u p me) (hheld : me'.held = me.held)
    (hseen : me'.seen = me.seen) (hval : me'.validated = me.validated)
    (hwrites : me'.writes = me.writes) : RecordOk s u p me' where
  held b := by rw [hheld, h.held]
  reads b := by rw [hseen, h.reads]
  final := by rw [hval, h.final]
  writes hp b := by rw [hwrites, h.writes hp]
  failed := h.failed

/-- The protocol takes a step while the thread stays where it is. -/
theorem ThreadSim.step (h : ThreadSim s u th me) (hs : Step ver w s s')
    (hlog : ∀ v ∈ s'.log, v.1 = u.1 → v ∈ s.log) (hc : ∀ b, s.checked u b → s'.checked u b)
    (hw : s'.writes u = s.writes u) : ThreadSim s' u th me where
  past v hv he := h.past v (hlog v hv he) he
  early hp hu := h.early hp (hlog u hu rfl)
  reading op version left buf hpc :=
    (h.reading op version left buf hpc).step (hs.vcell _) fun _ => hs.used
  entries := h.entries
  checked o left looked hpc b hb hn := by
    rw [hw]
    exact (h.checked o left looked hpc b hb hn).imp_left (hc b)

/-- A step of another thread. -/
theorem ThreadSim.frame (h : ThreadSim s u th me) (hs : ReflGen (Step ver w) s s')
    (hne : u.1 ≠ w.1) : ThreadSim s' u th me := by
  cases hs with
  | refl => exact h
  | single hs =>
    have hf := hs.frame (w := u) fun he => hne (congrArg Prod.fst he)
    refine h.step hs (fun v hv he => ?_) hf.checked hf.writes
    have hvw : v ≠ w := by
      rintro rfl
      exact hne he.symm
    exact (hs.frame hvw).log.1 hv

/-- A thread that stays where it is. -/
theorem ThreadSim.congr (h : ThreadSim s u th me) (hpc : th'.pc = th.pc)
    (hseen : me'.seen = me.seen) : ThreadSim s u th' me' where
  past := h.past
  early := hpc ▸ h.early
  reading := hpc ▸ h.reading
  entries := by
    rw [hpc, hseen]
    exact h.entries
  checked := by
    rw [hpc, hseen]
    exact h.checked

/-- A thread that neither reads nor validates. -/
theorem ThreadSim.go (h : ThreadSim s u th me) (he : th'.pc.early = true → u ∉ s.log)
    (hp : th'.pc.plain = true) : ThreadSim s u th' me' where
  past := h.past
  early := he
  reading op version left buf hpc := by
    rw [hpc] at hp
    cases hp
  entries o left looked hpc := by
    rw [hpc] at hp
    cases hp
  checked o left looked hpc := by
    rw [hpc] at hp
    cases hp

/-- A thread past validation. -/
theorem ThreadSim.writing (h : ThreadSim s u th me) (hpc : th'.pc.phase = .writing) :
    ThreadSim s u th' me' := by
  refine h.go (fun he => ?_) (Pc.plain_of_writing hpc)
  rw [Pc.phase_of_early he] at hpc
  cases hpc

end

section
variable {cfg : Config} {σ σ' : Sys cfg.segs} {a : Act cfg.segs} {t : Tid}
  {s s' : Protocol cfg.segs} {th : Thread cfg.segs} {me : Attempt cfg.segs}
  {m₀ : {b : Word // cfg.segs.IsCell b} → Cell}

/-- Who holds which lock, when a step has changed one record. -/
theorem Sys.holds_cur (hatt : σ'.att = (σ.upd t th me).att) (hround : th.round = (σ.th t).round)
    (b : Word) : σ'.Holds (σ.cur t) b ↔ b ∈ me.held.map Prod.fst := by
  have hcur : σ.cur t = (t, th.round) := by rw [Sys.cur, hround]
  rw [Sys.Holds, hatt, hcur, Sys.upd_att]

theorem Sys.holds_ne (hatt : σ'.att = (σ.upd t th me).att) (hround : th.round = (σ.th t).round)
    {u : Tid × ℕ} (hu : u ≠ σ.cur t) (b : Word) : σ'.Holds u b ↔ σ.Holds u b := by
  have hcur : σ.cur t = (t, th.round) := by rw [Sys.cur, hround]
  rw [Sys.Holds, Sys.Holds, hatt, Sys.upd_att_ne (hcur ▸ hu)]

/-- A step of the protocol that says what a step of the thread `t` does. -/
theorem Sys.Refines.next (h : σ.Refines s) (hs : ReflGen (Step ver (σ.cur t)) s s')
    (hth : σ'.th = (σ.upd t th me).th) (hatt : σ'.att = (σ.upd t th me).att)
    (hround : th.round = (σ.th t).round) (hlog : ∀ u ≠ σ.cur t, u ∈ σ'.log ↔ u ∈ σ.log)
    (hsub : σ'.log.Sublist s'.log) (hdata : ∀ b, s'.data b = σ'.objs.cell b.1)
    (hlabel : ∀ b, (∀ u, ¬ σ'.Holds u b.1) → σ'.locks (cfg.segs.lockLoc b.1) = s'.label b)
    (hrec : RecordOk s' (σ.cur t) (σ.cur t ∈ σ'.log) me)
    (hthr : ThreadSim s' (σ.cur t) th me) : σ'.Refines s' := by
  have hcur : σ.cur t = (t, th.round) := by rw [Sys.cur, hround]
  refine ⟨hdata, hlabel, hsub, fun u => ?_, fun t' => ?_⟩
  · rcases eq_or_ne u (σ.cur t) with rfl | hu
    · rw [hatt, hcur, Sys.upd_att, ← hcur]
      exact hrec
    · rw [hatt, Sys.upd_att_ne (hcur ▸ hu), hlog u hu]
      cases hs with
      | refl => exact h.att u
      | single hs => exact (h.att u).frame (hs.frame hu)
  · rcases eq_or_ne t' t with rfl | ht
    · rw [Sys.me, Sys.cur, hth, Sys.upd_th, hatt, Sys.upd_att, ← hcur]
      exact hthr
    · have hu : σ.cur t' ≠ (t, th.round) := fun he => ht (congrArg Prod.fst he)
      have hc : σ'.cur t' = σ.cur t' := by rw [Sys.cur, Sys.cur, hth, Sys.upd_th_ne ht]
      rw [Sys.me, hc, hth, Sys.upd_th_ne ht, hatt, Sys.upd_att_ne hu]
      exact (h.thread t').frame hs ht

/-- Lock words and locks stay as they are. -/
theorem Sys.Refines.label_keep (h : σ.Refines s) (hatt : σ'.att = (σ.upd t th me).att)
    (hround : th.round = (σ.th t).round) (hlocks : σ'.locks = σ.locks)
    (hheld : me.held = (σ.me t).held) (b : {b : Word // cfg.segs.IsCell b})
    (hf : ∀ u, ¬ σ'.Holds u b.1) : σ'.locks (cfg.segs.lockLoc b.1) = s.label b := by
  rw [hlocks]
  refine h.label b fun u hu => hf u ?_
  rcases eq_or_ne u (σ.cur t) with rfl | hne
  · rw [Sys.holds_cur hatt hround, hheld]
    exact hu
  · exact (Sys.holds_ne hatt hround hne _).2 hu

/-- A step that the protocol does not see. -/
theorem Sys.Refines.stay (h : σ.Refines s) (hth : σ'.th = (σ.upd t th me).th)
    (hatt : σ'.att = (σ.upd t th me).att) (hround : th.round = (σ.th t).round)
    (hlocks : σ'.locks = σ.locks) (hobjs : σ'.objs = σ.objs) (hlog : σ'.log = σ.log)
    (hheld : me.held = (σ.me t).held) (hseen : me.seen = (σ.me t).seen)
    (hval : me.validated = (σ.me t).validated) (hwrites : me.writes = (σ.me t).writes)
    (hthr : ThreadSim s (σ.cur t) th me) : σ'.Refines s := by
  refine h.next .refl hth hatt hround (fun u _ => by rw [hlog]) (hlog ▸ h.log)
    (fun b => by rw [hobjs, h.data]) (h.label_keep hatt hround hlocks hheld) ?_ hthr
  rw [hlog]
  exact (h.att _).congr hheld hseen hval hwrites

/-! ## What the relation says -/

/-- A cell whose lock word is unlocked is free and has this word for its label. -/
theorem Sys.Refines.unlocked (h : σ.Refines s) (hown : σ.OwnOk cfg)
    {b : {b : Word // cfg.segs.IsCell b}}
    (hl : isLocked (σ.locks (cfg.segs.lockLoc b.1)) = false) :
    (∀ u, ¬ s.holds u b) ∧ s.label b = σ.locks (cfg.segs.lockLoc b.1) := by
  have hfree : ∀ u, ¬ σ.Holds u b.1 := by
    intro u hu
    rw [hu.isLocked hown] at hl
    cases hl
  exact ⟨fun u hu => hfree u (((h.att u).held b).1 hu), (h.label b hfree).symm⟩

/-- A cell that a transaction has recorded is one that it has read with this timestamp. -/
theorem Sys.Refines.recorded (h : σ.Refines s) (hr : TxnOk (σ.th t) (σ.me t))
    {b : {b : Word // cfg.segs.IsCell b}} {ts : Word} (hts : (σ.th t).tx.RecordsAt b.1 ts) :
    ∃ v, s.reads (σ.cur t) b = some (ts, v) := by
  obtain ⟨c, hc⟩ := (hr.cells b.1 ts).1 hts
  refine ⟨c, ?_⟩
  rw [(h.att _).reads, show (σ.att (σ.cur t)).seen.lookup b.1 = _ from hc]
  rfl

theorem Tx.recordsAt_entryTs {tx : Tx} {b : Word} (hb : b ∈ tx.writeSet) :
    tx.RecordsAt b (entryTs tx.writeSet b) := by
  obtain ⟨e, he⟩ := exists_lookup hb
  refine ⟨e, .inr he, ?_⟩
  rw [entryTs, he]
  rfl

/-- What holds of the transactions and their threads in every run, as far as the protocol needs
it. -/
structure Sys.TxnsOk (cfg : Config) (σ : Sys cfg.segs) : Prop where
  good : σ.Good cfg
  clock : σ.ClockOk cfg
  log : σ.LogOk
  puts : σ.PutOk
  runs : ∀ t, RunOk (σ.th t) (σ.me t)
  writes : ∀ t, WritesOk (σ.th t) (σ.me t)

theorem Sys.TxnsOk.init (objs : Flat) : (Sys.init cfg.segs objs).TxnsOk cfg where
  good := .init objs
  clock := .init objs
  log := .init objs
  puts := .init objs
  runs _ := .of_idle rfl rfl rfl
  writes _ h := by rcases h with h | h <;> cases h

theorem Sys.TxnsOk.step (h : σ.TxnsOk cfg) (hv : cfg.build.variant = .variant1)
    (hr : Rule cfg σ a σ') (hb : ClockBelow cfg (2 ^ 48) σ a σ') : σ'.TxnsOk cfg where
  good := h.good.step hr
  clock := h.clock.step h.good.ok hr hb
  log := h.log.step h.good hr
  puts := h.puts.step h.good hv hr
  runs t := by
    rcases eq_or_ne t a.tid with rfl | ht
    · exact hr.runOk hv h.good.ok (h.runs _)
    · have hs := hr.sameBut (delivers h.good.ok.local_ok h.good.ok.descs)
      rw [hs.th t ht, hs.me ht]
      exact h.runs t
  writes t := by
    rcases eq_or_ne t a.tid with rfl | ht
    · exact hr.writesOk h.good.ok (h.writes _)
    · have hs := hr.sameBut (delivers h.good.ok.local_ok h.good.ok.descs)
      rw [hs.th t ht, hs.me ht]
      exact h.writes t

/-! ## Steps that the protocol sees -/

/-- What `readCell` returns is the cell as it is now: a free one. -/
theorem Sys.Refines.fetch_eq (h : σ.Refines s) (hi : σ.TxnsOk cfg) {op : Op cfg.segs} {ts : Word}
    {buf : ℕ → Byte} (hpc : (σ.th t).pc = .readCell op (.data ts [] buf))
    (hl : isLocked (σ.locks (cfg.segs.lockLoc op.access.addr)) = false)
    (he : isTimestampsEquivalent ts (σ.locks (cfg.segs.lockLoc op.access.addr)) = true) :
    (∀ u, ¬ s.holds u op.cell) ∧ s.label op.cell = ts ∧
      (fun i : Fin cellSize => buf i) = s.data op.cell := by
  have hb : cfg.segs.lockLoc op.cell.1 = cfg.segs.lockLoc op.access.addr :=
    op.access.inHeap.lockLoc_blockLb
  rw [← hb] at hl he
  obtain ⟨hfree, hlabel⟩ := h.unlocked hi.good.own hl
  have hu : Unlocked ts := by
    have hp := (hi.good.ok.local_ok t).pc
    simp only [PcOk, hpc] at hp
    exact hp.2
  have hts : s.label op.cell = ts :=
    hlabel.trans (hu.eq_of_equivalent (isLocked_eq_false.1 hl) he).symm
  -- The bytes read are those of the version, and the cell is clean at this version now.
  exact ⟨hfree, hts, CellArgs.filled_copy _ rfl
    (((h.thread t).reading op ts [] buf hpc).use hts (State.not_dirty hfree))⟩

/-- `readCell` returns a cell: the protocol reads it. -/
theorem Sys.Refines.fetched (h : σ.Refines s) (hi : σ.TxnsOk cfg) {op : Op cfg.segs} {ts : Word}
    {buf : ℕ → Byte} (hpc : (σ.th t).pc = .readCell op (.data ts [] buf))
    (hl : isLocked (σ.locks (cfg.segs.lockLoc op.access.addr)) = false)
    (he : isTimestampsEquivalent ts (σ.locks (cfg.segs.lockLoc op.access.addr)) = true)
    (hth : σ'.th = (σ.upd t th me).th) (hatt : σ'.att = (σ.upd t th me).att)
    (hround : th.round = (σ.th t).round) (hlocks : σ'.locks = σ.locks)
    (hobjs : σ'.objs = σ.objs) (hlog : σ'.log = σ.log)
    (hpc' : th.pc = .increaseClock op ts buf none)
    (hme : me = { σ.me t with
      seen := (σ.me t).seen.insert op.access.block ⟨ts, fun i => buf i⟩ }) :
    ∃ s', ReflGen (Step ver (σ.cur t)) s s' ∧ σ'.Refines s' := by
  obtain ⟨hfree, hts, hcopy⟩ := h.fetch_eq hi hpc hl he
  have hnot : σ.cur t ∉ s.log := (h.thread t).early (by rw [hpc]; rfl)
  have hs : Step ver (σ.cur t) s _ := .read hnot hfree
  subst hme
  refine ⟨_, .single hs, h.next (.single hs) hth hatt hround (fun u _ => by rw [hlog])
    (hlog ▸ h.log) (fun b => by rw [hobjs]; exact h.data b)
    (h.label_keep hatt hround hlocks rfl) ?_ ?_⟩
  · have hrec := h.att (σ.cur t)
    rw [hlog]
    refine ⟨hrec.held, fun b => ?_, hrec.final, hrec.writes, hrec.failed⟩
    dsimp only
    rw [Function.update_self]
    rcases eq_or_ne b op.cell with rfl | hne
    · rw [Function.update_self, hts, ← hcopy, show op.cell.1 = op.access.block from rfl,
        AList.lookup_insert]
      rfl
    · have hbb : b.1 ≠ op.access.block := fun hb => hne (Subtype.ext hb)
      rw [Function.update_of_ne hne, AList.lookup_insert_ne hbb]
      exact hrec.reads b
  · have hthr := (h.thread t).step hs (fun _ hv _ => hv) (fun _ hc => hc) rfl
    exact hthr.go (fun _ => hnot) (by rw [hpc']; rfl)

/-- A lock is granted whose word is the version recorded: the protocol locks the cell. -/
theorem Sys.Refines.grant (h : σ.Refines s) (hi : σ.TxnsOk cfg) {b w v : Word}
    (hpc : (σ.th t).pc.inBatch = true) (hb : b ∈ (σ.th t).tx.writeSet)
    (hw : σ.locks (cfg.segs.lockLoc b) = entryTs (σ.th t).tx.writeSet b)
    (hth : σ'.th = (σ.upd t (σ.th t) me).th) (hatt : σ'.att = (σ.upd t (σ.th t) me).att)
    (hlocks : σ'.locks = Function.update σ.locks (cfg.segs.lockLoc b) w)
    (hobjs : σ'.objs = σ.objs) (hlog : σ'.log = σ.log)
    (hheld : me.held = (σ.me t).held ++ [(b, v)]) (hseen : me.seen = (σ.me t).seen)
    (hval : me.validated = (σ.me t).validated) :
    ∃ s', ReflGen (Step ver (σ.cur t)) s s' ∧ σ'.Refines s' := by
  have htx := (hi.good.ok.local_ok t).tx
  have hc := htx.isCell_of_mem hb
  obtain ⟨hfree, hlabel⟩ := h.unlocked hi.good.own (b := ⟨b, hc⟩)
    (by rw [hw]; exact isLocked_eq_false.2 (htx.unlocked_entryTs hb))
  obtain ⟨d, hd⟩ := h.recorded ((hi.runs t).running (Pc.not_idle_of_inBatch hpc))
    (b := ⟨b, hc⟩) (Tx.recordsAt_entryTs hb)
  have hnot : σ.cur t ∉ s.log := (h.thread t).early (Pc.early_of_inBatch hpc)
  have hs : Step ver (σ.cur t) s _ := .lock hnot hfree (hd.trans (by rw [hlabel, hw]))
  have hown : σ'.Holds (σ.cur t) b := by
    rw [Sys.holds_cur hatt rfl, hheld]
    simp
  refine ⟨_, .single hs, h.next (.single hs) hth hatt rfl (fun u _ => by rw [hlog])
    (hlog ▸ h.log) (fun c => by rw [hobjs]; exact h.data c) (fun c hf => ?_) ?_ ?_⟩
  · have hcb : c.1 ≠ b := by
      intro he
      exact hf _ (he ▸ hown)
    rw [hlocks, Function.update_of_ne fun he => hcb (Segments.lockLoc_inj c.2 hc he)]
    refine h.label c fun u hu => hf u ?_
    rcases eq_or_ne u (σ.cur t) with rfl | hne
    · rw [Sys.holds_cur hatt rfl, hheld, List.map_append]
      exact List.mem_append_left _ hu
    · exact (Sys.holds_ne hatt rfl hne _).2 hu
  · have hrec := h.att (σ.cur t)
    rw [hlog]
    refine ⟨fun c => ?_, fun c => ?_, ?_, fun hin => absurd (h.log.subset hin) hnot,
      fun _ hu => absurd hu hnot⟩
    · rw [hheld, List.map_append, List.mem_append]
      refine or_congr (hrec.held c) ?_
      simp [Subtype.ext_iff]
    · rw [hseen]
      exact hrec.reads c
    · rw [hval]
      exact hrec.final
  · exact ((h.thread t).step hs (fun _ hv _ => hv) (fun _ hc => hc) rfl).congr rfl hseen

/-- All locks have been granted: the transaction enters the log of the protocol. -/
theorem Sys.Refines.lockPoint (h : σ.Refines s) (hi : σ.TxnsOk cfg) {o : Tx.Orders}
    {done : List Word} (hpc : (σ.th t).pc = .getLocks o done [])
    (hth : σ'.th = (σ.upd t th me).th) (hatt : σ'.att = (σ.upd t th me).att)
    (hround : th.round = (σ.th t).round) (hlocks : σ'.locks = σ.locks)
    (hobjs : σ'.objs = σ.objs) (hlog : σ'.log = σ.log ++ [σ.cur t])
    (hpc' : th.pc = .validateAll o ((σ.th t).tx.allEntries .variant1 o) false)
    (hme : me = { σ.me t with writes := (σ.th t).tx.writeSet }) :
    ∃ s', ReflGen (Step ver (σ.cur t)) s s' ∧ σ'.Refines s' := by
  have hp := (hi.good.ok.local_ok t).pc
  simp only [PcOk, hpc, List.append_nil] at hp
  obtain ⟨ho, hws, hl⟩ := hp
  have hrun := (hi.runs t).running (show (σ.th t).pc ≠ .idle by rw [hpc]; simp)
  have hnot : σ.cur t ∉ s.log := (h.thread t).early (by rw [hpc]; rfl)
  have hrec := h.att (σ.cur t)
  subst hme
  have hown : ∀ b : {b : Word // cfg.segs.IsCell b},
      ((σ.th t).tx.writeSet.lookup b.1).map Entry.copy ≠ none → s.holds (σ.cur t) b := by
    intro b hb
    obtain ⟨c, hc⟩ := Option.ne_none_iff_exists'.1 hb
    obtain ⟨e, he, -⟩ := Option.map_eq_some_iff.1 hc
    refine (hrec.held b).2 (hl.held.mem_iff.2 (hws ▸ ho.ws.mem_iff.2 ?_))
    exact AList.mem_keys.1 (mem_of_lookup he)
  have hs : Step ver (σ.cur t) s _ := .point hnot hown
  refine ⟨_, .single hs, h.next (.single hs) hth hatt hround (fun u hu => ?_) ?_
    (fun c => by rw [hobjs]; exact h.data c) (h.label_keep hatt hround hlocks rfl) ?_ ?_⟩
  · rw [hlog, List.mem_append, List.mem_singleton]
    exact or_iff_left hu
  · rw [hlog]
    exact h.log.append_right _
  · refine ⟨hrec.held, hrec.reads, hrec.final, fun _ b => ?_, fun hn => absurd ?_ hn⟩
    · dsimp only
      rw [Function.update_self]
    · rw [hlog]
      simp
  · refine ⟨fun v hv he => ?_, ?_, ?_, ?_, ?_⟩
    · rcases List.mem_append.1 hv with hv | hv
      · exact (h.thread t).past v hv he
      · rw [List.mem_singleton.1 hv]
    · simp [hpc', Pc.early, Pc.calling]
    · simp [hpc']
    · rw [hpc']
      rintro _ _ _ ⟨⟩ p hp
      obtain ⟨b, -, hb⟩ := List.mem_filterMap.1 (List.mem_filter.1 hp).1
      obtain ⟨e, he, rfl⟩ := Option.map_eq_some_iff.1 hb
      exact (hrun.cells b e.ts).1 ⟨e, .inl he, rfl⟩
    · rw [hpc']
      rintro _ _ _ ⟨⟩ b hb hn
      -- What has been read and is not written is in the read set.
      obtain ⟨⟨ts, c⟩, hc⟩ := exists_lookup hb
      obtain ⟨e, he | he, rfl⟩ := (hrun.cells b.1 ts).2 ⟨c, hc⟩
      · refine absurd (List.mem_map.2 ⟨(b.1, e.ts), List.mem_filter.2 ⟨?_, rfl⟩, rfl⟩) hn
        refine List.mem_filterMap.2 ⟨b.1, ho.rs.mem_iff.2 (AList.mem_keys.1 (mem_of_lookup he)), ?_⟩
        rw [he]
        rfl
      · refine .inr ?_
        dsimp only
        rw [Function.update_self, he]
        simp

/-- `validateAll` finds a cell unchanged: the protocol checks it. -/
theorem Sys.Refines.validAll (h : σ.Refines s) (hi : σ.TxnsOk cfg) {o : Tx.Orders} {b e : Word}
    {left : List (Word × Word)} {looked : Bool}
    (hpc : (σ.th t).pc = .validateAll o ((b, e) :: left) looked)
    (hch : Tx.changed (σ.getVersion (cfg.segs.getObjectLockAddr b)) e = false)
    (hth : σ'.th = (σ.upd t th (σ.me t)).th) (hatt : σ'.att = (σ.upd t th (σ.me t)).att)
    (hround : th.round = (σ.th t).round) (hlocks : σ'.locks = σ.locks)
    (hobjs : σ'.objs = σ.objs) (hlog : σ'.log = σ.log)
    (hpc' : th.pc = .validateAll o left false) :
    ∃ s', ReflGen (Step ver (σ.cur t)) s s' ∧ σ'.Refines s' := by
  have hthr := h.thread t
  have hrec := h.att (σ.cur t)
  have hrun := (hi.runs t).running (show (σ.th t).pc ≠ .idle by rw [hpc]; simp)
  obtain ⟨c, hc⟩ := hthr.entries _ _ _ hpc (b, e) List.mem_cons_self
  have hcell := hrun.isCell (hi.good.ok.local_ok t).tx (mem_of_lookup hc)
  obtain ⟨hl, hle⟩ := Bool.or_eq_false_iff.1 hch
  rw [Sys.getVersion_eq hcell] at hl hle
  obtain ⟨hfree, hlabel⟩ := h.unlocked hi.good.own (b := ⟨b, hcell⟩) hl
  have hin : σ.cur t ∈ s.log := by
    have hcur := hi.log.cur t
    rw [hpc] at hcur
    exact h.log.subset hcur.1
  have hread : s.reads (σ.cur t) ⟨b, hcell⟩ = some (e, c) := by
    rw [hrec.reads, show (σ.att (σ.cur t)).seen.lookup b = _ from hc]
    rfl
  have hs : Step ver (σ.cur t) s _ := .check hin hfree hread
    (by rw [hlabel]; exact isTimestampGreater_eq_false.1 hle)
  refine ⟨_, .single hs, h.next (.single hs) hth hatt hround (fun u _ => by rw [hlog])
    (hlog ▸ h.log) (fun c => by rw [hobjs]; exact h.data c)
    (h.label_keep hatt hround hlocks rfl) ?_ ?_⟩
  · rw [hlog]
    exact ⟨hrec.held, hrec.reads, hrec.final, hrec.writes, hrec.failed⟩
  · refine ⟨hthr.past, ?_, ?_, ?_, ?_⟩
    · simp [hpc', Pc.early, Pc.calling]
    · simp [hpc']
    · rw [hpc']
      rintro _ _ _ ⟨⟩ p hp
      exact hthr.entries _ _ _ hpc p (List.mem_cons_of_mem _ hp)
    · rw [hpc']
      rintro _ _ _ ⟨⟩ d hd hn
      rcases eq_or_ne d ⟨b, hcell⟩ with rfl | hne
      · exact .inl (.inr ⟨rfl, rfl⟩)
      · refine (hthr.checked _ _ _ hpc d hd fun hm => ?_).imp_left .inl
        rcases List.mem_cons.1 hm with he | hm
        · exact hne (Subtype.ext he)
        · exact hn hm

/-- `validateAll` succeeds: the transaction is final. -/
theorem Sys.Refines.validated (h : σ.Refines s) (hi : σ.TxnsOk cfg) {o : Tx.Orders}
    {looked : Bool} (hpc : (σ.th t).pc = .validateAll o [] looked)
    (hth : σ'.th = (σ.upd t th me).th) (hatt : σ'.att = (σ.upd t th me).att)
    (hround : th.round = (σ.th t).round) (hlocks : σ'.locks = σ.locks)
    (hobjs : σ'.objs = σ.objs) (hlog : σ'.log = σ.log) (hpc' : th.pc.phase = .writing)
    (hme : me = { σ.me t with validated := true }) :
    ∃ s', ReflGen (Step ver (σ.cur t)) s s' ∧ σ'.Refines s' := by
  have hthr := h.thread t
  have hrec := h.att (σ.cur t)
  have hcur := hi.log.cur t
  rw [hpc] at hcur
  obtain ⟨hin, hval, -⟩ := hcur
  have hwrites := hrec.writes hin
  subst hme
  have hlocked : ∀ b, s.holds (σ.cur t) b → s.writes (σ.cur t) b ≠ none := by
    intro b hb
    obtain ⟨hbw, -⟩ := (hi.good.ok.local_ok t).held_mem ((hrec.held b).1 hb)
    obtain ⟨e, he⟩ := exists_lookup hbw
    rw [hwrites, show (σ.att (σ.cur t)).writes = _ from hi.writes t (.inl (by rw [hpc]; rfl)), he]
    simp
  have hs : Step ver (σ.cur t) s _ := .finalize (h.log.subset hin) (hrec.final.trans hval) hlocked
    fun b hb => by
      refine hthr.checked _ _ _ hpc b ?_ List.not_mem_nil
      rw [hrec.reads] at hb
      obtain ⟨x, hx⟩ := Option.ne_none_iff_exists'.1 hb
      obtain ⟨e, he, -⟩ := Option.map_eq_some_iff.1 hx
      exact mem_of_lookup he
  refine ⟨_, .single hs, h.next (.single hs) hth hatt hround (fun u _ => by rw [hlog])
    (hlog ▸ h.log) (fun c => by rw [hobjs]; exact h.data c)
    (h.label_keep hatt hround hlocks rfl) ?_ ?_⟩
  · rw [hlog]
    exact ⟨hrec.held, hrec.reads, Function.update_self .., hrec.writes, hrec.failed⟩
  · exact (hthr.step hs (fun _ hv _ => hv) (fun _ hc => hc) rfl).writing hpc'

/-- A piece of a cell is put. -/
theorem Sys.Refines.put (h : σ.Refines s) (hi : σ.TxnsOk cfg)
    (hv : cfg.build.variant = .variant1) {o : Tx.Orders} {p : Word × List Byte}
    {puts : List (Word × List Byte)} {left : List ℕ} {off n : ℕ}
    (hpc : (σ.th t).pc = .commitWriteSetValues o (p :: puts) left)
    (hth : σ'.th = (σ.upd t th me).th) (hatt : σ'.att = (σ.upd t th me).att)
    (hround : th.round = (σ.th t).round) (hlocks : σ'.locks = σ.locks)
    (hobjs : σ'.objs = σ.objs.put p.1 p.2 (pieceOf off n left)) (hlog : σ'.log = σ.log)
    (hpc' : th.pc.phase = .writing) (hme : me = { σ.me t with dirty := true }) :
    ∃ s', ReflGen (Step ver (σ.cur t)) s s' ∧ σ'.Refines s' := by
  have hrec := h.att (σ.cur t)
  have hl := (hi.good.ok.local_ok t).pc
  simp only [PcOk, hpc] at hl
  obtain ⟨e, he, -, hlt⟩ := hi.good.ok.put hv hpc
  have hc := ((hi.good.ok.local_ok t).tx.write _ _ he).1
  have hcur := hi.log.cur t
  rw [hpc] at hcur
  have hown : s.holds (σ.cur t) ⟨p.1, hc⟩ :=
    (hrec.held _).2 (hl.2.1.held.mem_iff.2
      (hl.1.ws.mem_iff.2 (AList.mem_keys.1 (mem_of_lookup he))))
  have hs : Step ver (σ.cur t) s _ := .put (σ'.objs.cell p.1) (hrec.final.trans hcur.2.1) hown
  subst hme
  refine ⟨_, .single hs, h.next (.single hs) hth hatt hround (fun u _ => by rw [hlog])
    (hlog ▸ h.log) (fun c => ?_) (h.label_keep hatt hround hlocks rfl) ?_ ?_⟩
  · dsimp only
    rcases eq_or_ne c ⟨p.1, hc⟩ with rfl | hne
    · rw [Function.update_self]
    · have hcp : c.1 ≠ p.1 := fun he => hne (Subtype.ext he)
      rw [Function.update_of_ne hne, h.data, hobjs, Flat.cell_put_ne _ hc c.2 hcp]
      exact fun k hk => hlt k (List.mem_filter.1 hk).1
  · rw [hlog]
    exact ⟨hrec.held, hrec.reads, hrec.final, hrec.writes, hrec.failed⟩
  · exact ((h.thread t).step hs (fun _ hv _ => hv) (fun _ hc => hc) rfl).writing hpc'

/-- Lock words and locks after a lock has been given back. -/
theorem Sys.Refines.label_giveBack (h : σ.Refines s) {b w : Word} (hc : cfg.segs.IsCell b)
    (hatt : σ'.att = (σ.upd t th me).att) (hround : th.round = (σ.th t).round)
    (hlocks : σ'.locks = Function.update σ.locks (cfg.segs.lockLoc b) w)
    (hheld : me.held = (σ.me t).held.filter fun e => e.1 ≠ b)
    {c : {b : Word // cfg.segs.IsCell b}} (hcb : c ≠ ⟨b, hc⟩)
    (hf : ∀ u, ¬ σ'.Holds u c.1) : σ'.locks (cfg.segs.lockLoc c.1) = s.label c := by
  have hne : c.1 ≠ b := fun he => hcb (Subtype.ext he)
  rw [hlocks, Function.update_of_ne fun he => hne (Segments.lockLoc_inj c.2 hc he)]
  refine h.label c fun u hu => hf u ?_
  rcases eq_or_ne u (σ.cur t) with rfl | hu'
  · rw [Sys.holds_cur hatt hround, hheld]
    obtain ⟨e, he, hec⟩ := List.mem_map.1 hu
    refine List.mem_map.2 ⟨e, List.mem_filter.2 ⟨he, ?_⟩, hec⟩
    simpa [hec] using hne
  · exact (Sys.holds_ne hatt hround hu' _).2 hu

/-- Who holds which lock after a lock has been given back. -/
theorem RecordOk.giveBack {u : Tid × ℕ} {p : Prop} (h : RecordOk s u p me)
    {me' : Attempt cfg.segs} {b : {b : Word // cfg.segs.IsCell b}}
    {label : {b : Word // cfg.segs.IsCell b} → Word}
    (hheld : me'.held = me.held.filter fun e => e.1 ≠ b.1) (hseen : me'.seen = me.seen)
    (hval : me'.validated = me.validated) (hwrites : me'.writes = me.writes) :
    RecordOk { s with
      label := label
      holds := fun w c => s.holds w c ∧ ¬ (w = u ∧ c = b) } u p me' where
  held c := by
    rw [hheld]
    refine (and_congr_left fun _ => h.held c).trans ?_
    simp only [List.mem_map, List.mem_filter, decide_eq_true_eq, true_and, Subtype.ext_iff]
    constructor
    · rintro ⟨⟨e, he, hec⟩, hne⟩
      exact ⟨e, ⟨he, hec ▸ hne⟩, hec⟩
    · rintro ⟨e, ⟨he, hne⟩, hec⟩
      exact ⟨⟨e, he, hec⟩, hec ▸ hne⟩
  reads c := by rw [hseen, ← h.reads]
  final := by rw [hval, ← h.final]
  writes hp c := by rw [hwrites, ← h.writes hp]
  failed hp hu c := h.failed hp hu c

/-- The lock of a cell that has been written is given back with the new version. -/
theorem Sys.Refines.release (h : σ.Refines s) (hinv : Inv ver m₀ s) (hi : σ.TxnsOk cfg)
    {version b : Word} {left : List Word}
    (hpc : (σ.th t).pc = .releaseLocksWithNewClock version (b :: left))
    (hth : σ'.th = (σ.upd t th me).th) (hatt : σ'.att = (σ.upd t th me).att)
    (hround : th.round = (σ.th t).round)
    (hlocks : σ'.locks = Function.update σ.locks (cfg.segs.lockLoc b) version)
    (hobjs : σ'.objs = σ.objs) (hlog : σ'.log = σ.log) (hpc' : th.pc.phase = .writing)
    (hme : me = { σ.me t with held := (σ.me t).held.filter fun e => e.1 ≠ b }) :
    ∃ s', ReflGen (Step ver (σ.cur t)) s s' ∧ σ'.Refines s' := by
  have hrec := h.att (σ.cur t)
  have hh := PutsLock.holds hi.good.ok (.release hpc)
  obtain ⟨-, -, hbw, hc⟩ := hh.inside hi.good.ok hi.good.att
  obtain ⟨e, he⟩ : ∃ e, (σ.th t).tx.writeSet.lookup b = some e := exists_lookup hbw
  have hcur := hi.log.cur t
  rw [hpc] at hcur
  have hown : s.holds (σ.cur t) ⟨b, hc⟩ := (hrec.held _).2 hh
  have hwrites : s.writes (σ.cur t) ⟨b, hc⟩ = some (s.data ⟨b, hc⟩) := by
    have hd := hi.puts t (by rw [hpc]; rfl) b e hh he
    rw [hpc] at hd
    rw [hrec.writes hcur.1, show (σ.att (σ.cur t)).writes = _ from
      hi.writes t (.inr (by rw [hpc]; rfl)), he, h.data, show σ.objs.cell b = e.copy from
      funext fun i => hd i id]
    rfl
  -- The label is the version recorded, and the new version is greater.
  have hlt : ver (s.label ⟨b, hc⟩) < ver version := by
    obtain ⟨v, hv⟩ := hinv.held _ _ hown
    have hrun := (hi.runs t).running (show (σ.th t).pc ≠ .idle by rw [hpc]; simp)
    obtain ⟨v', hv'⟩ := h.recorded hrun (b := ⟨b, hc⟩) (Tx.recordsAt_entryTs hbw)
    rw [hv, Option.some.injEq, Prod.mk.injEq] at hv'
    have hp := (hi.clock.thread t).pc
    rw [hpc] at hp
    rw [hv'.1]
    exact hp _ (Tx.records_entryTs hbw)
  have hs : Step ver (σ.cur t) s _ := .release (hrec.final.trans hcur.2.1) hown hwrites hlt
  subst hme
  refine ⟨_, .single hs, h.next (.single hs) hth hatt hround (fun u _ => by rw [hlog])
    (hlog ▸ h.log) (fun c => by rw [hobjs]; exact h.data c) (fun c hf => ?_) ?_ ?_⟩
  · dsimp only
    rcases eq_or_ne c ⟨b, hc⟩ with rfl | hne
    · rw [hlocks, Function.update_self, Function.update_self]
    · rw [Function.update_of_ne hne]
      exact h.label_giveBack hc hatt hround hlocks rfl hne hf
  · rw [hlog]
    exact hrec.giveBack (b := ⟨b, hc⟩) rfl rfl rfl rfl
  · exact ((h.thread t).step hs (fun _ hv _ => hv) (fun _ hc => hc) rfl).writing hpc'

/-- The lock of a cell that has not been written is given back with the version recorded. -/
theorem Sys.Refines.restore (h : σ.Refines s) (hinv : Inv ver m₀ s) (hi : σ.TxnsOk cfg)
    {b : Word} {left : List Word} (hpc : (σ.th t).pc = .releaseLocks (b :: left))
    (hb : b ∉ (σ.th t).tx.rlChangedObjects)
    (hth : σ'.th = (σ.upd t th me).th) (hatt : σ'.att = (σ.upd t th me).att)
    (hround : th.round = (σ.th t).round)
    (hlocks : σ'.locks =
      Function.update σ.locks (cfg.segs.lockLoc b) (entryTs (σ.th t).tx.writeSet b))
    (hobjs : σ'.objs = σ.objs) (hlog : σ'.log = σ.log) (hpc' : th.pc = .releaseLocks left)
    (hheld : me.held = (σ.me t).held.filter fun e => e.1 ≠ b) (hseen : me.seen = (σ.me t).seen)
    (hval : me.validated = (σ.me t).validated) (hwrites : me.writes = (σ.me t).writes) :
    ∃ s', ReflGen (Step ver (σ.cur t)) s s' ∧ σ'.Refines s' := by
  have hrec := h.att (σ.cur t)
  have hh := PutsLock.holds hi.good.ok (.restore hpc hb)
  obtain ⟨-, -, hbw, hc⟩ := hh.inside hi.good.ok hi.good.att
  have hcur := hi.log.cur t
  rw [hpc] at hcur
  obtain ⟨hout, hfin, -⟩ := hcur
  have hown : s.holds (σ.cur t) ⟨b, hc⟩ := (hrec.held _).2 hh
  have hlabel : entryTs (σ.th t).tx.writeSet b = s.label ⟨b, hc⟩ := by
    obtain ⟨v, hv⟩ := hinv.held _ _ hown
    have hrun := (hi.runs t).running (show (σ.th t).pc ≠ .idle by rw [hpc]; simp)
    obtain ⟨v', hv'⟩ := h.recorded hrun (b := ⟨b, hc⟩) (Tx.recordsAt_entryTs hbw)
    rw [hv, Option.some.injEq, Prod.mk.injEq] at hv'
    exact hv'.1.symm
  have hs : Step ver (σ.cur t) s _ := .restore (hrec.final.trans hfin)
    (fun hin => hrec.failed hout hin _) hown
  refine ⟨_, .single hs, h.next (.single hs) hth hatt hround (fun u _ => by rw [hlog])
    (hlog ▸ h.log) (fun c => by rw [hobjs]; exact h.data c) (fun c hf => ?_) ?_ ?_⟩
  · rcases eq_or_ne c ⟨b, hc⟩ with rfl | hne
    · rw [hlocks, Function.update_self, hlabel]
    · exact h.label_giveBack hc hatt hround hlocks hheld hne hf
  · rw [hlog]
    exact hrec.giveBack (b := ⟨b, hc⟩) hheld hseen hval hwrites
  · have hthr := (h.thread t).step hs (fun _ hv _ => hv) (fun _ hc => hc) rfl
    exact hthr.go (by simp [hpc', Pc.early, Pc.calling]) (by rw [hpc']; rfl)

/-- The validation in `commit` fails. -/
theorem Sys.Refines.invalid (h : σ.Refines s) (hi : σ.TxnsOk cfg) {o : Tx.Orders}
    {left : List (Word × Word)} {looked : Bool} {ws : List Word}
    (hpc : (σ.th t).pc = .validateAll o left looked)
    (hth : σ'.th = (σ.upd t th (σ.me t)).th) (hatt : σ'.att = (σ.upd t th (σ.me t)).att)
    (hround : th.round = (σ.th t).round) (hlocks : σ'.locks = σ.locks)
    (hobjs : σ'.objs = σ.objs) (hlog : σ'.log = σ.log.erase (σ.cur t))
    (hpc' : th.pc = .releaseLocks ws) :
    ∃ s', ReflGen (Step ver (σ.cur t)) s s' ∧ σ'.Refines s' := by
  have hrec := h.att (σ.cur t)
  have hcur := hi.log.cur t
  rw [hpc] at hcur
  have hs : Step ver (σ.cur t) s _ := .fail (h.log.subset hcur.1) (hrec.final.trans hcur.2.1)
  refine ⟨_, .single hs, h.next (.single hs) hth hatt hround (fun u hu => ?_) ?_
    (fun c => by rw [hobjs]; exact h.data c) (h.label_keep hatt hround hlocks rfl) ?_ ?_⟩
  · rw [hlog]
    exact List.mem_erase_of_ne hu
  · rw [hlog]
    exact List.erase_sublist.trans h.log
  · refine ⟨hrec.held, hrec.reads, hrec.final, fun hin => ?_, fun _ _ b => ?_⟩
    · rw [hlog] at hin
      exact absurd hin hi.log.nodup.not_mem_erase
    · dsimp only
      rw [Function.update_self]
  · refine ⟨(h.thread t).past, ?_, ?_, ?_, ?_⟩ <;> simp [hpc', Pc.early, Pc.calling]

/-! ## Every step -/

theorem Goes.early {pc : Pc cfg.segs} (hg : Goes cfg σ t pc) (h : pc.early = true) :
    (σ.th t).pc.early = true := by
  cases hg <;> simp_all [Pc.early, Pc.calling]

/-- A thread that only moves on: the protocol sees no more of it than what `validateAll` checks. -/
theorem Goes.simulates {pc : Pc cfg.segs} (hg : Goes cfg σ t pc)
    (hv : cfg.build.variant = .variant1) (hi : σ.TxnsOk cfg) (h : σ.Refines s) :
    ∃ s', ReflGen (Step ver (σ.cur t)) s s' ∧ (σ.goto t pc).Refines s' := by
  have hthr := h.thread t
  have hearly : pc.early = true → σ.cur t ∉ s.log := fun he => hthr.early (hg.early he)
  have stay : ThreadSim s (σ.cur t) { σ.th t with pc := pc } (σ.me t) →
      ∃ s', ReflGen (Step ver (σ.cur t)) s s' ∧ (σ.goto t pc).Refines s' :=
    fun hs => ⟨s, .refl, h.stay rfl rfl rfl rfl rfl rfl rfl rfl rfl rfl hs⟩
  cases hg with
  | validAll hpc hch => exact h.validAll hi hpc hch rfl rfl rfl rfl rfl rfl rfl
  | @readVersion op hpc hl =>
    have hb : cfg.segs.lockLoc op.cell.1 = cfg.segs.lockLoc op.access.addr :=
      op.access.inHeap.lockLoc_blockLb
    rw [← hb] at hl
    obtain ⟨-, hlabel⟩ := h.unlocked hi.good.own hl
    refine stay ⟨hthr.past, hearly, ?_, by simp, by simp⟩
    rintro _ _ _ _ ⟨⟩
    rw [← hb, ← hlabel, hv]
    exact VCell.Known.start (.inl rfl) (CellArgs.filled_range _ _)
  | @readPiece op version left buf off n hpc =>
    refine stay ⟨hthr.past, hearly, ?_, by simp, by simp⟩
    rintro _ _ _ _ ⟨⟩
    have hk := hthr.reading op version left buf hpc
    have hmem : (σ.objs (nodeFromAddress op.access.addr)).cell
        (Tx.cellArgs .variant1 op).lowBound = s.data op.cell := by
      rw [h.data, Flat.cell, show nodeFromAddress op.cell.1 = _ from op.access.node_block,
        show addrFromAddress op.cell.1 = _ from op.access.addrFromAddress_block]
      rfl
    -- A piece that is read while the cell is at another version does no harm.
    rw [hv]
    exact (hk.see (Q := fun d => _ = d) hmem).mono fun d hd =>
      CellArgs.filled_readPiece _ _ off n hd.1 hd.2
  | @lookedAll o left hpc =>
    refine stay ⟨hthr.past, by simp [Pc.early, Pc.calling], by simp, ?_, ?_⟩
    · rintro _ _ _ ⟨⟩
      exact hthr.entries _ _ _ hpc
    · rintro _ _ _ ⟨⟩
      exact hthr.checked _ _ _ hpc
  | _ => exact stay (hthr.go hearly rfl)

/-- A transaction begins. -/
theorem Sys.Refines.begin (h : σ.Refines s) (hi : σ.TxnsOk cfg) {now : ℕ}
    (hth : σ'.th = (σ.upd t th (Attempt.new cfg.segs now)).th)
    (hatt : σ'.att = (σ.upd t th (Attempt.new cfg.segs now)).att)
    (hround : th.round = (σ.th t).round + 1) (hlocks : σ'.locks = σ.locks)
    (hobjs : σ'.objs = σ.objs) (hlog : σ'.log = σ.log) (hpc' : th.pc = .active) :
    σ'.Refines s := by
  have hnew := hi.good.att.new (t, th.round) (hround ▸ Nat.lt_succ_self _)
  have hrec : ∀ u, RecordOk s u (u ∈ σ.log) (σ'.att u) := by
    intro u
    rw [hatt]
    rcases eq_or_ne u (t, th.round) with rfl | hu
    · rw [Sys.upd_att]
      have hold := h.att (t, th.round)
      rw [hnew] at hold
      exact hold.congr rfl rfl rfl rfl
    · rw [Sys.upd_att_ne hu]
      exact h.att u
  refine ⟨fun b => by rw [hobjs, h.data], fun b hf => ?_, hlog ▸ h.log,
    fun u => by rw [hlog]; exact hrec u, fun t' => ?_⟩
  · rw [hlocks]
    exact h.label b fun u hu =>
      hf u (((hrec u).held b).1 (((h.att u).held b).2 hu))
  · rcases eq_or_ne t' t with rfl | ht
    · have hpast : ∀ v ∈ s.log, v.1 = t' → v.2 ≤ (σ.th t').round := (h.thread t').past
      rw [Sys.cur, hth, Sys.upd_th]
      refine ⟨fun v hv he => ?_, fun _ hin => ?_, ?_, ?_, ?_⟩
      · exact (hpast v hv he).trans (hround ▸ Nat.le_succ _)
      · have hle := hpast _ hin rfl
        dsimp only at hle
        rw [hround] at hle
        exact Nat.not_succ_le_self _ hle
      all_goals simp [hpc']
    · have hc : σ'.cur t' = σ.cur t' := by rw [Sys.cur, Sys.cur, hth, Sys.upd_th_ne ht]
      have hu : σ.cur t' ≠ (t, th.round) := fun he => ht (congrArg Prod.fst he)
      rw [Sys.me, hc, hth, Sys.upd_th_ne ht, hatt, Sys.upd_att_ne hu]
      exact h.thread t'

/-- **The system follows the protocol**: a step whose grant, if it is one, replaces the version
recorded is a step of the protocol or one that the protocol does not see. -/
theorem Rule.simulates (hr : Rule cfg σ a σ') (hv : cfg.build.variant = .variant1)
    (hns : NoStaleGrant cfg σ a σ') (hi : σ.TxnsOk cfg) (hinv : Inv ver m₀ s)
    (h : σ.Refines s) : ∃ s', ReflGen (Step ver (σ.cur a.tid)) s s' ∧ σ'.Refines s' := by
  have hthr := h.thread a.tid
  have stay : ∀ {th : Thread cfg.segs} {me : Attempt cfg.segs},
      σ'.th = (σ.upd a.tid th me).th → σ'.att = (σ.upd a.tid th me).att →
      th.round = (σ.th a.tid).round → σ'.locks = σ.locks → σ'.objs = σ.objs →
      σ'.log = σ.log → me.held = (σ.me a.tid).held → me.seen = (σ.me a.tid).seen →
      me.validated = (σ.me a.tid).validated → me.writes = (σ.me a.tid).writes →
      ThreadSim s (σ.cur a.tid) th me →
      ∃ s', ReflGen (Step ver (σ.cur a.tid)) s s' ∧ σ'.Refines s' :=
    fun h1 h2 h3 h4 h5 h6 h7 h8 h9 h10 h11 =>
      ⟨s, .refl, h.stay h1 h2 h3 h4 h5 h6 h7 h8 h9 h10 h11⟩
  have hsame : σ.th = Function.update σ.th a.tid (σ.th a.tid) ∧
      σ.att = Function.update σ.att (a.tid, (σ.th a.tid).round) (σ.me a.tid) :=
    ⟨(Function.update_eq_self _ _).symm, (Function.update_eq_self _ _).symm⟩
  cases hr with
  | goto ha hc hg =>
    subst ha
    exact hg.simulates hv hi h
  | begin => exact ⟨s, .refl, h.begin hi rfl rfl rfl rfl rfl rfl rfl⟩
  | load | reply | lost =>
    exact stay hsame.1 hsame.2 rfl rfl rfl rfl rfl rfl rfl rfl hthr
  | deliver hk hm hdesc =>
    obtain rfl := delivers hi.good.ok.local_ok hi.good.ok.descs _ _ _ _ _ _ hk hm hdesc
    exact stay rfl rfl rfl rfl rfl rfl rfl rfl rfl rfl (hthr.congr rfl rfl)
  | new | delete | addVersion | refuse =>
    exact stay rfl rfl rfl rfl rfl rfl rfl rfl rfl rfl (hthr.congr rfl rfl)
  | served => exact stay rfl rfl rfl rfl rfl rfl rfl rfl rfl rfl (hthr.congr rfl rfl)
  | abort hpc hc ha =>
    subst ha
    exact stay rfl rfl rfl rfl rfl rfl rfl rfl rfl rfl (hthr.go (fun h => by cases h) rfl)
  | released | committed =>
    exact stay rfl rfl rfl rfl rfl rfl rfl rfl rfl rfl (hthr.go (fun h => by cases h) rfl)
  | clockRaised hpc | finish hpc | finishValid hpc | batch hpc | send hpc =>
    exact stay rfl rfl rfl rfl rfl rfl rfl rfl rfl rfl
      (hthr.go (fun _ => hthr.early (by rw [Act.tid, hpc]; rfl)) rfl)
  | issue => exact stay rfl rfl rfl rfl rfl rfl rfl rfl rfl rfl (hthr.go (fun h => by cases h) rfl)
  | fetched hpc hc hl he => exact h.fetched hi hpc hl he rfl rfl rfl rfl rfl rfl rfl rfl
  | lockPoint hpc => exact h.lockPoint hi hpc rfl rfl rfl rfl rfl rfl (by rw [hv]; rfl) rfl
  | validated hpc => exact h.validated hi hpc rfl rfl rfl rfl rfl rfl rfl rfl
  | invalid hpc => exact h.invalid hi hpc rfl rfl rfl rfl rfl rfl rfl
  | put off n hpc => exact h.put hi hv hpc rfl rfl rfl rfl rfl rfl rfl rfl
  | release hpc => exact h.release hinv hi hpc rfl rfl rfl rfl rfl rfl rfl rfl
  | restore hpc hc hb => exact h.restore hinv hi hpc hb rfl rfl rfl rfl rfl rfl rfl rfl rfl rfl rfl
  | @grant t k p i old changed hk hm hlt ho =>
    have hp := List.mem_of_getElem? hk
    have hw := hi.good.granted hns hk hm hlt ho
    obtain ⟨b, hbm, -, hobj, hlock, -, -⟩ := hi.good.ok.requested hp hm hlt
    rw [hobj] at hw
    rw [hlock] at ho
    refine h.grant (w := lockValNew (p.buf.version i)) (v := old) hi (hi.good.ok.inBatch hp).1 hbm
      (ho.trans hw) rfl rfl ?_ rfl rfl ?_ rfl rfl
    · exact congrArg (fun ℓ => Function.update σ.locks ℓ _) hlock
    · exact congrArg (fun b => (σ.me t).held ++ [(b, old)]) hobj

end

end DstmP1
