import DstmP1.Completion
import DstmP1.Rereads
import DstmP1.Runtime

/-!
# What transactions that keep values have read and written

A `VARIANT2` transaction reads bytes of a cell, not the cell, and puts values, not cells. The
protocol of `Optimistic` with cells for its data is about it all the same (`Sys.Follows`): it has
read the cell that its bytes were read from, and what it writes is this cell with its values in it
(`Tx.writesOf`). A cell that is read again is not read again in the protocol; what the call has got
is then of the version read before or of a greater one (`ValueTxn`).
-/

namespace DstmP1

open Segments (Loc)
open Optimistic (State Step Inv Frame)
open Relation (ReflGen)

/-- What a call has read: its timestamp and its bytes. -/
def Pc.got {g : Segments} : Pc g → Option (Op g × Word × (ℕ → Byte))
  | .increaseClock op ts buf _ | .validateStart op ts buf | .validate op ts buf _ _ =>
    some (op, ts, buf)
  | _ => none

theorem Pc.call_of_got {g : Segments} {pc : Pc g} {op : Op g} {ts : Word} {buf : ℕ → Byte}
    (h : pc.got = some (op, ts, buf)) : pc.call = some op := by
  cases pc <;> cases h <;> rfl

/-- The byte at `q` of node `n` is still to be put. -/
def Pc.UnputAt {g : Segments} : Pc g → ℕ → Word → Prop
  | .commitWriteSetValues _ (p :: puts) left, n, q =>
    byteIn p.1 p.2 n q ≠ none ∧ (q - addrFromAddress p.1).toNat ∈ left ∨
      ∃ p' ∈ puts, byteIn p'.1 p'.2 n q ≠ none
  | _, _, _ => False

section
variable {g : Segments}

/-- The cell `c` at `b` with the values written. -/
def Tx.overlayCell (tx : Tx) (b : Word) (c : Cell) : Cell := fun i =>
  (tx.byteAt (Segments.cellLoc b i).1 (Segments.cellLoc b i).2).getD (c i)

theorem Tx.cell_overlay (tx : Tx) (m : Flat) (b : Word) :
    (tx.overlay m).cell b = tx.overlayCell b (m.cell b) := rfl

/-- The cells that a transaction is to write which has read `reads`. -/
def Tx.writesOf (tx : Tx) (reads : {b : Word // g.IsCell b} → Option (Word × Cell)) :
    {b : Word // g.IsCell b} → Option Cell := fun b =>
  if b.1 ∈ tx.writeSet then (reads b).map fun r => tx.overlayCell b.1 r.2 else none

/-- The memory has the cells as they were read. -/
def Flat.Has (m : Flat) (reads : {b : Word // g.IsCell b} → Option (Word × Cell)) : Prop :=
  ∀ b l v, reads b = some (l, v) → m.cell b.1 = v

theorem Pc.plain_of_inBatch {pc : Pc g} (h : pc.inBatch = true) : pc.plain = true := by
  cases pc <;> first | rfl | cases h

/-! ## The relation -/

/-- What the calls of a transaction amount to that has read `reads` in the protocol. -/
structure ValueTxn (reads : {b : Word // g.IsCell b} → Option (Word × Cell)) (th : Thread g)
    (me : Attempt g) : Prop where
  recorded : ∀ (b : {b : Word // g.IsCell b}) ts, th.tx.RecordsAt b.1 ts →
    ∃ v, reads b = some (ts, v)
  known : ∀ b, reads b ≠ none → b.1 ∈ th.tx.readSet ∨ b.1 ∈ th.tx.writeSet ∨
    ∃ op ts buf, th.pc.got = some (op, ts, buf) ∧ b = op.cell
  /-- The version read is the one recorded before, or a greater one. -/
  got : ∀ op ts buf, th.pc.got = some (op, ts, buf) →
    (∃ v, reads op.cell = some (ts, v) ∧ (Tx.cellArgs .variant2 op).Filled [] buf v) ∨
      ∃ l, th.tx.RecordsAt op.access.block l ∧ ver l < ver ts
  calls : ∀ op, th.pc.call = some op →
    th.tx.writeSetValues.lookup op.access.addr = none ∧ th.tx.Fits op.access
  values : th.tx.ValuesOk g
  runs : ∀ base : Flat, base.Has reads → replay base me.ops = some (th.tx.overlay base)

/-- A thread outside its transactions has empty maps. -/
structure ValueRun (reads : {b : Word // g.IsCell b} → Option (Word × Cell)) (th : Thread g)
    (me : Attempt g) : Prop where
  idle : th.pc = .idle → th.tx.readSet = ∅ ∧ th.tx.writeSet = ∅ ∧ th.tx.writeSetValues = ∅
  running : th.pc ≠ .idle → ValueTxn reads th me

/-- What the record of a transaction says of the protocol. -/
structure ValueRecord (s : Protocol g) (u : Tid × ℕ) (logged : Prop) (a : Attempt g) : Prop where
  held : ∀ b, s.holds u b ↔ b.1 ∈ a.held.map Prod.fst
  final : s.final u = a.validated
  failed : ¬ logged → u ∈ s.log → ∀ b, s.writes u b = none
  runs : logged → ∀ base : Flat, base.Has (s.reads u) → ∃ m, replay base a.ops = some m ∧
    (∀ b, m.cell b.1 = (s.writes u b).getD (base.cell b.1)) ∧ Flat.SameOutside g m base

/-- Where a thread stands in the protocol. -/
structure ValueThread (s : Protocol g) (u : Tid × ℕ) (th : Thread g) : Prop where
  past : ∀ v ∈ s.log, v.1 = u.1 → v.2 ≤ u.2
  early : th.pc.early = true → u ∉ s.log
  reading : ∀ op version left buf, th.pc = .readCell op (.data version left buf) →
    (s.vcell op.cell).Known (s.Used ver op.cell) version
      ((Tx.cellArgs .variant2 op).Filled left buf)
  entries : ∀ o left looked, th.pc = .validateAll o left looked →
    ∀ p ∈ left, th.tx.RecordsAt p.1 p.2
  checked : ∀ o left looked, th.pc = .validateAll o left looked → ∀ b, s.reads u b ≠ none →
    b.1 ∉ left.map Prod.fst → s.checked u b ∨ s.writes u b ≠ none
  wrote : th.pc.phase = .validating ∨ th.pc.phase = .writing →
    s.writes u = th.tx.writesOf (s.reads u)
  /-- Cells that are held have their new bytes, but for those that are still to be put. -/
  put : th.pc.phase = .writing → ∀ b l v, s.holds u b → s.reads u b = some (l, v) →
    ∀ i : Fin cellSize, ¬ th.pc.UnputAt (Segments.cellLoc b.1 i).1 (Segments.cellLoc b.1 i).2 →
      s.data b i = th.tx.overlayCell b.1 v i

/-- The memory, the lock words, the records and the threads are those of the protocol in state
`s`. -/
structure Sys.Follows (σ : Sys g) (s : Protocol g) : Prop where
  data : ∀ b, s.data b = σ.objs.cell b.1
  label : ∀ b, (∀ u, ¬ σ.Holds u b.1) → σ.locks (g.lockLoc b.1) = s.label b
  log : σ.log.Sublist s.log
  unread : ∀ t n b, (σ.th t).round < n → s.reads (t, n) b = none
  att : ∀ u, ValueRecord s u (u ∈ σ.log) (σ.att u)
  run : ∀ t, ValueRun (s.reads (σ.cur t)) (σ.th t) (σ.me t)
  thread : ∀ t, ValueThread s (σ.cur t) (σ.th t)

theorem Sys.Follows.init (objs : Flat) : (Sys.init g objs).Follows (.start objs) where
  data _ := rfl
  label _ _ := rfl
  log := List.Sublist.refl _
  unread _ _ _ _ := rfl
  att _ := ⟨fun _ => iff_of_false id List.not_mem_nil, rfl, fun _ h => absurd h List.not_mem_nil,
    fun h => absurd h List.not_mem_nil⟩
  run _ := ⟨fun _ => ⟨rfl, rfl, rfl⟩, fun h => absurd rfl h⟩
  thread t := by
    have hpc : ((Sys.init g objs).th t).pc = .idle := rfl
    refine ⟨fun _ hv => absurd hv List.not_mem_nil, ?_, ?_, ?_, ?_, ?_, ?_⟩ <;>
      simp [hpc, Pc.early, Pc.calling, Pc.phase]

end

/-! ## What a step leaves alone -/

section
variable {g : Segments} {s s' : Protocol g} {u w : Tid × ℕ} {th th' : Thread g}
  {me me' : Attempt g} {m₀ : {b : Word // g.IsCell b} → Cell}
  {reads : {b : Word // g.IsCell b} → Option (Word × Cell)}

/-- The three maps and the calls count, and what the code knows of its call. -/
theorem ValueTxn.congr (h : ValueTxn reads th me) (hr : th'.tx.readSet = th.tx.readSet)
    (hw : th'.tx.writeSet = th.tx.writeSet)
    (hv : th'.tx.writeSetValues = th.tx.writeSetValues) (hops : me'.ops = me.ops)
    (hgot : th'.pc.got = th.pc.got) (hcall : ∀ op, th'.pc.call = some op →
      th.tx.writeSetValues.lookup op.access.addr = none ∧ th.tx.Fits op.access) :
    ValueTxn reads th' me' where
  recorded b ts hb := h.recorded b ts ((Tx.recordsAt_congr hr hw).1 hb)
  known := by
    rw [hr, hw, hgot]
    exact h.known
  got op ts buf hg := (h.got op ts buf (hgot.symm.trans hg)).imp_right fun ⟨l, hl, hlt⟩ =>
    ⟨l, (Tx.recordsAt_congr hr hw).2 hl, hlt⟩
  calls op hc := by
    rw [hv]
    exact (hcall op hc).imp_right fun hf => hf.congr hv
  values := h.values.congr hv
  runs base hb := by
    rw [hops, h.runs base hb, Tx.overlay_congr hv]

theorem ValueRun.of_idle (hpc : th.pc = .idle) (hr : th.tx.readSet = ∅) (hw : th.tx.writeSet = ∅)
    (hv : th.tx.writeSetValues = ∅) : ValueRun reads th me :=
  ⟨fun _ => ⟨hr, hw, hv⟩, fun hne => absurd hpc hne⟩

theorem ValueRun.of_running (hpc : th.pc ≠ .idle) (h : ValueTxn reads th me) :
    ValueRun reads th me :=
  ⟨fun hi => absurd hi hpc, fun _ => h⟩

/-- A thread that stays where it is. -/
theorem ValueRun.congr (h : ValueRun reads th me) (hpc : th'.pc = th.pc)
    (hr : th'.tx.readSet = th.tx.readSet) (hw : th'.tx.writeSet = th.tx.writeSet)
    (hv : th'.tx.writeSetValues = th.tx.writeSetValues) (hops : me'.ops = me.ops) :
    ValueRun reads th' me' where
  idle hi := by
    rw [hr, hw, hv]
    exact h.idle (hpc ▸ hi)
  running hne :=
    have ht := h.running (hpc ▸ hne)
    ht.congr hr hw hv hops (congrArg Pc.got hpc) (hpc ▸ ht.calls)

/-- A thread that goes on with its call, or outside calls. -/
theorem ValueRun.go (h : ValueRun reads th me) (hne : th.pc ≠ .idle) (hne' : th'.pc ≠ .idle)
    (hr : th'.tx.readSet = th.tx.readSet) (hw : th'.tx.writeSet = th.tx.writeSet)
    (hv : th'.tx.writeSetValues = th.tx.writeSetValues) (hops : me'.ops = me.ops)
    (hgot : th'.pc.got = th.pc.got) (hcall : th'.pc.call = th.pc.call) :
    ValueRun reads th' me' :=
  have ht := h.running hne
  .of_running hne' (ht.congr hr hw hv hops hgot (hcall ▸ ht.calls))

/-- A transaction that begins. -/
theorem ValueTxn.begin (hr : th.tx.readSet = ∅) (hw : th.tx.writeSet = ∅)
    (hv : th.tx.writeSetValues = ∅) (hpc : th.pc = .active) (hn : ∀ b, reads b = none) (now : ℕ) :
    ValueTxn reads th (Attempt.new g now) where
  recorded _ _ hb := absurd hb (Tx.not_recordsAt hr hw)
  known b hb := absurd (hn b) hb
  got op ts buf hg := by
    rw [hpc] at hg
    cases hg
  calls op hc := by
    rw [hpc] at hc
    cases hc
  values := .empty hv
  runs base _ := by
    rw [Tx.overlay_empty hv]
    rfl

/-- The maps serve a call. -/
theorem ValueTxn.served (h : ValueTxn reads th me) {op : Op g} {tx : Tx} {r : List Byte}
    (hf : th.tx.Fits op.access) (hs : th.tx.served .variant2 op = some (tx, r))
    (hpc : th.pc = .active) :
    ValueTxn reads { th with tx := tx } { me with ops := me.ops ++ [(op, r)] } where
  recorded b ts hb := h.recorded b ts (h.values.recordsAt_of_served hf hs hb)
  known b hb := by
    rcases h.known b hb with hb | hb | ⟨op', ts, buf, hg, -⟩
    · exact (h.values.mem_of_served hf hs (.inl hb)).imp_right .inl
    · exact (h.values.mem_of_served hf hs (.inr hb)).imp_right .inl
    · rw [hpc] at hg
      cases hg
  got op ts buf hg := by
    dsimp only at hg
    rw [hpc] at hg
    cases hg
  calls op hc := by
    dsimp only at hc
    rw [hpc] at hc
    cases hc
  values := (h.values.served hf hs fun _ _ => 0).2.2
  runs base hb := by
    obtain ⟨rfl, ho, -⟩ := h.values.served hf hs base
    rw [replay_concat (h.runs base hb), ho]

/-- A call has read its cell for the first time. -/
theorem ValueTxn.fetched (h : ValueTxn reads th me) {op : Op g} {ts : Word} {buf : ℕ → Byte}
    {d : Cell} (hpc : th.pc = .readCell op (.data ts [] buf)) (hn : reads op.cell = none)
    (hd : (Tx.cellArgs .variant2 op).Filled [] buf d) (hops : me'.ops = me.ops)
    (c : Option (Word × Word)) :
    ValueTxn (Function.update reads op.cell (some (ts, d))) { th with
      pc := .increaseClock op ts buf none
      toCache := c } me' where
  recorded b x hb := by
    obtain ⟨v, hv⟩ := h.recorded b x hb
    refine ⟨v, ?_⟩
    rwa [Function.update_of_ne]
    rintro rfl
    rw [hn] at hv
    cases hv
  known b hb := by
    rcases eq_or_ne b op.cell with rfl | hne
    · exact .inr (.inr ⟨op, ts, buf, rfl, rfl⟩)
    · rw [Function.update_of_ne hne] at hb
      rcases h.known b hb with hb | hb | ⟨op', x, buf', hg, -⟩
      · exact .inl hb
      · exact .inr (.inl hb)
      · rw [hpc] at hg
        cases hg
  got op' x buf' hg := by
    cases hg
    exact .inl ⟨d, Function.update_self .., hd⟩
  calls op' hc := by
    cases hc
    exact h.calls op (by rw [hpc]; rfl)
  values := h.values
  runs base hb := by
    rw [hops]
    refine h.runs base fun b l v hr => hb b l v ?_
    rwa [Function.update_of_ne]
    rintro rfl
    rw [hn] at hr
    cases hr

/-- A call has read a cell again. -/
theorem ValueTxn.reread (h : ValueTxn reads th me) {op : Op g} {ts l : Word} {buf : ℕ → Byte}
    {v : Cell} (hpc : th.pc = .readCell op (.data ts [] buf)) (hl : reads op.cell = some (l, v))
    (hlv : l = ts ∧ (Tx.cellArgs .variant2 op).Filled [] buf v ∨ ver l < ver ts)
    (hops : me'.ops = me.ops) (c : Option (Word × Word)) :
    ValueTxn reads { th with
      pc := .increaseClock op ts buf none
      toCache := c } me' where
  recorded := h.recorded
  known b hb := by
    rcases h.known b hb with hb | hb | ⟨op', x, buf', hg, -⟩
    · exact .inl hb
    · exact .inr (.inl hb)
    · rw [hpc] at hg
      cases hg
  got op' x buf' hg := by
    cases hg
    rcases hlv with ⟨rfl, hd⟩ | hlt
    · exact .inl ⟨v, hl, hd⟩
    · -- The version read before is that of an entry.
      refine .inr ⟨l, ?_, hlt⟩
      have hrec : ∀ e, th.tx.readSet.lookup op.access.block = some e ∨
          th.tx.writeSet.lookup op.access.block = some e → th.tx.RecordsAt op.access.block l := by
        intro e he
        obtain ⟨w, hw⟩ := h.recorded op.cell e.ts ⟨e, he, rfl⟩
        rw [hl, Option.some.injEq, Prod.mk.injEq] at hw
        exact ⟨e, he, hw.1.symm⟩
      rcases h.known op.cell (by rw [hl]; simp) with hb | hb | ⟨op', x, buf', hg, -⟩
      · obtain ⟨e, he⟩ := exists_lookup hb
        exact hrec e (.inl he)
      · obtain ⟨e, he⟩ := exists_lookup hb
        exact hrec e (.inr he)
      · rw [hpc] at hg
        cases hg
  calls op' hc := by
    cases hc
    exact h.calls op (by rw [hpc]; rfl)
  values := h.values
  runs base hb := by
    rw [hops]
    exact h.runs base hb

/-- A call returns whose bytes are those of the version that the transaction has read. -/
theorem ValueTxn.finished (h : ValueTxn reads th me) {op : Op g} {ts : Word} {buf : ℕ → Byte}
    {v : Cell} (hgot : th.pc.got = some (op, ts, buf)) (hv : reads op.cell = some (ts, v))
    (hd : (Tx.cellArgs .variant2 op).Filled [] buf v) (tx : Tx)
    (hr : tx.readSet = th.tx.readSet) (hw : tx.writeSet = th.tx.writeSet)
    (hvs : tx.writeSetValues = th.tx.writeSetValues) :
    let r := tx.finished .variant2 op ts ((Tx.cellArgs .variant2 op).value buf)
    ValueTxn reads { th with tx := r.1, pc := .active }
      { me with ops := me.ops ++ [(op, r.2)] } := by
  obtain ⟨hnone, hfit⟩ := h.calls op (Pc.call_of_got hgot)
  have hval : ∀ base : Flat, base.Has reads → ∀ a, op = .read a →
      (Tx.cellArgs .variant2 op).value buf = base.load a.addr a.width.bytes := by
    rintro base hb a rfl
    rw [CellArgs.filled_value _ hd, ← hb _ _ _ hv, Flat.load_eq]
    exact a.valueIn_eq _ _
  have hold := h.values.congr hvs
  have hfit := hfit.congr hvs
  have hnone := (congrArg (AList.lookup op.access.addr) hvs).trans hnone
  refine ⟨fun b x hb => ?_, fun b hb => ?_, fun _ _ _ hg => (by cases hg),
    fun _ hc => (by cases hc), ?_, fun base hb => ?_⟩
  · rcases Tx.recordsAt_of_finished hb with hb | ⟨hbb, rfl⟩
    · exact h.recorded b x ((Tx.recordsAt_congr hr hw).1 hb)
    · obtain rfl : b = op.cell := Subtype.ext hbb
      exact ⟨v, hv⟩
  · refine (Tx.mem_of_finished ?_).imp_right .inl
    rw [hr, hw]
    rcases h.known b hb with hb | hb | ⟨op', x, buf', hg, rfl⟩
    · exact .inl hb
    · exact .inr (.inl hb)
    · rw [hgot] at hg
      cases hg
      exact .inr (.inr rfl)
  · exact hold.of_finished hfit _ _
  · obtain ⟨hres, hover⟩ := hold.finished hfit hnone (hval base hb)
    have hrun := h.runs base hb
    rw [← Tx.overlay_congr hvs] at hrun
    dsimp only
    rw [hover, hres]
    exact replay_concat hrun op

theorem ValueRecord.frame {p : Prop} (h : ValueRecord s u p me) (hf : Frame s s' u) :
    ValueRecord s' u p me where
  held b := (hf.holds b).trans (h.held b)
  final := hf.final.trans h.final
  failed hp hu b := by rw [hf.writes, h.failed hp (hf.log.1 hu)]
  runs hp := by
    rw [hf.reads, hf.writes]
    exact h.runs hp

/-- The fields of the record that the protocol knows of; the calls count from the lock point on. -/
theorem ValueRecord.congr {p : Prop} (h : ValueRecord s u p me) (hheld : me'.held = me.held)
    (hval : me'.validated = me.validated) (hops : p → me'.ops = me.ops) :
    ValueRecord s u p me' where
  held b := by rw [hheld, h.held]
  final := by rw [hval, h.final]
  failed := h.failed
  runs hp := by
    rw [hops hp]
    exact h.runs hp

/-- Nobody but its holder changes a cell that is held. -/
theorem data_eq_of_holds (hinv : Inv ver m₀ s) (hs : Step ver w s s') (hne : u ≠ w)
    {b : {b : Word // g.IsCell b}} (hh : s.holds u b) : s'.data b = s.data b := by
  cases hs with
  | @put c v _ hw =>
    have hbc : b ≠ c := by
      rintro rfl
      exact hne (hinv.excl u w b hh hw)
    exact Function.update_of_ne hbc ..
  | _ => rfl

/-- A step of another thread. -/
theorem ValueThread.frame (h : ValueThread s u th) (hinv : Inv ver m₀ s)
    (hs : ReflGen (Step ver w) s s') (hne : u.1 ≠ w.1) : ValueThread s' u th := by
  cases hs with
  | refl => exact h
  | single hs =>
    have huw : u ≠ w := fun he => hne (congrArg Prod.fst he)
    have hf := hs.frame huw
    refine ⟨fun v hv he => ?_, fun hp hu => h.early hp (hf.log.1 hu), ?_, h.entries, ?_, ?_, ?_⟩
    · have hvw : v ≠ w := by
        rintro rfl
        exact hne he.symm
      exact h.past v ((hs.frame hvw).log.1 hv) he
    · exact fun op version left buf hpc =>
        (h.reading op version left buf hpc).step (hs.vcell _) fun _ => hs.used
    · intro o left looked hpc b hb hn
      rw [hf.reads] at hb
      rw [hf.writes]
      exact (h.checked o left looked hpc b hb hn).imp_left (hf.checked b)
    · rw [hf.reads, hf.writes]
      exact h.wrote
    · intro hp b l v hh hr i hn
      rw [hf.reads] at hr
      have hh := (hf.holds b).1 hh
      rw [data_eq_of_holds hinv hs huw hh]
      exact h.put hp b l v hh hr i hn

/-- A thread that stays where it is. -/
theorem ValueThread.congr (h : ValueThread s u th) (hpc : th'.pc = th.pc)
    (hr : th'.tx.readSet = th.tx.readSet) (hw : th'.tx.writeSet = th.tx.writeSet)
    (hv : th'.tx.writeSetValues = th.tx.writeSetValues) : ValueThread s u th' := by
  have hrec : ∀ b ts, th'.tx.RecordsAt b ts ↔ th.tx.RecordsAt b ts := fun _ _ =>
    Tx.recordsAt_congr hr hw
  have hcell : th'.tx.overlayCell = th.tx.overlayCell := by
    funext b c i
    rw [Tx.overlayCell, Tx.byteAt, hv, Tx.overlayCell, Tx.byteAt]
  refine ⟨h.past, hpc ▸ h.early, hpc ▸ h.reading, ?_, hpc ▸ h.checked, ?_, ?_⟩
  · simp only [hpc, hrec]
    exact h.entries
  · have hwr : th'.tx.writesOf (s.reads u) = th.tx.writesOf (s.reads u) := by
      funext b
      rw [Tx.writesOf, Tx.writesOf, hw, hcell]
    rw [hpc, hwr]
    exact h.wrote
  · simp only [hpc, hcell]
    exact h.put

/-- A thread that neither reads nor validates nor writes. -/
theorem ValueThread.enter (hpast : ∀ v ∈ s.log, v.1 = u.1 → v.2 ≤ u.2)
    (he : th.pc.early = true → u ∉ s.log) (hp : th.pc.plain = true)
    (hph : th.pc.phase ≠ .writing) : ValueThread s u th where
  past := hpast
  early := he
  reading op version left buf hpc := by
    rw [hpc] at hp
    cases hp
  entries o left looked hpc := by
    rw [hpc] at hp
    cases hp
  checked o left looked hpc := by
    rw [hpc] at hp
    cases hp
  wrote h := by
    rcases h with h | h
    · cases hpc : th.pc <;> rw [hpc] at h hp <;> cases h
      cases hp
    · exact absurd h hph
  put h := absurd h hph

/-- A thread past validation. -/
theorem ValueThread.writing (hpast : ∀ v ∈ s.log, v.1 = u.1 → v.2 ≤ u.2)
    (hpc : th.pc.phase = .writing) (hw : s.writes u = th.tx.writesOf (s.reads u))
    (hput : ∀ b l v, s.holds u b → s.reads u b = some (l, v) →
      ∀ i : Fin cellSize, ¬ th.pc.UnputAt (Segments.cellLoc b.1 i).1 (Segments.cellLoc b.1 i).2 →
        s.data b i = th.tx.overlayCell b.1 v i) : ValueThread s u th where
  past := hpast
  early he := by
    rw [Pc.phase_of_early he] at hpc
    cases hpc
  reading op version left buf h := by
    rw [h] at hpc
    cases hpc
  entries o left looked h := by
    rw [h] at hpc
    cases hpc
  checked o left looked h := by
    rw [h] at hpc
    cases hpc
  wrote _ := hw
  put _ := hput

end

section
variable {cfg : Config} {σ σ' : Sys cfg.segs} {a : Act cfg.segs} {t : Tid}
  {s s' : Protocol cfg.segs} {th : Thread cfg.segs} {me : Attempt cfg.segs}
  {m₀ : {b : Word // cfg.segs.IsCell b} → Cell}

/-- A step of the protocol that says what a step of the thread `t` does. -/
theorem Sys.Follows.next (h : σ.Follows s) (hinv : Inv ver m₀ s)
    (hs : ReflGen (Step ver (σ.cur t)) s s') (hth : σ'.th = (σ.upd t th me).th)
    (hatt : σ'.att = (σ.upd t th me).att) (hround : th.round = (σ.th t).round)
    (hlog : ∀ u ≠ σ.cur t, u ∈ σ'.log ↔ u ∈ σ.log) (hsub : σ'.log.Sublist s'.log)
    (hdata : ∀ b, s'.data b = σ'.objs.cell b.1)
    (hlabel : ∀ b, (∀ u, ¬ σ'.Holds u b.1) → σ'.locks (cfg.segs.lockLoc b.1) = s'.label b)
    (hrec : ValueRecord s' (σ.cur t) (σ.cur t ∈ σ'.log) me)
    (hrun : ValueRun (s'.reads (σ.cur t)) th me) (hthr : ValueThread s' (σ.cur t) th) :
    σ'.Follows s' := by
  have hcur : σ.cur t = (t, th.round) := by rw [Sys.cur, hround]
  have hreads : ∀ u ≠ σ.cur t, s'.reads u = s.reads u := by
    intro u hu
    cases hs with
    | refl => rfl
    | single hs => exact (hs.frame hu).reads
  refine ⟨hdata, hlabel, hsub, fun t' n b hn => ?_, fun u => ?_, fun t' => ?_, fun t' => ?_⟩
  · rcases eq_or_ne t' t with rfl | ht
    · rw [hth, Sys.upd_th, hround] at hn
      rw [hreads _ fun he => hn.ne' (congrArg Prod.snd he)]
      exact h.unread t' n b hn
    · rw [hth, Sys.upd_th_ne ht] at hn
      rw [hreads _ fun he => ht (congrArg Prod.fst he)]
      exact h.unread t' n b hn
  · rcases eq_or_ne u (σ.cur t) with rfl | hu
    · rw [hatt, hcur, Sys.upd_att, ← hcur]
      exact hrec
    · rw [hatt, Sys.upd_att_ne (hcur ▸ hu), hlog u hu]
      cases hs with
      | refl => exact h.att u
      | single hs => exact (h.att u).frame (hs.frame hu)
  · rcases eq_or_ne t' t with rfl | ht
    · rw [Sys.me, Sys.cur, hth, Sys.upd_th, hatt, Sys.upd_att, ← hcur]
      exact hrun
    · have hu : σ.cur t' ≠ σ.cur t := fun he => ht (congrArg Prod.fst he)
      have hc : σ'.cur t' = σ.cur t' := by rw [Sys.cur, Sys.cur, hth, Sys.upd_th_ne ht]
      rw [Sys.me, hc, hth, Sys.upd_th_ne ht, hatt, Sys.upd_att_ne (hcur ▸ hu), hreads _ hu]
      exact h.run t'
  · rcases eq_or_ne t' t with rfl | ht
    · rw [Sys.cur, hth, Sys.upd_th, ← hcur]
      exact hthr
    · have hc : σ'.cur t' = σ.cur t' := by rw [Sys.cur, Sys.cur, hth, Sys.upd_th_ne ht]
      rw [hc, hth, Sys.upd_th_ne ht]
      exact (h.thread t').frame hinv hs ht

/-- Lock words and locks stay as they are. -/
theorem Sys.Follows.label_keep (h : σ.Follows s) (hatt : σ'.att = (σ.upd t th me).att)
    (hround : th.round = (σ.th t).round) (hlocks : σ'.locks = σ.locks)
    (hheld : me.held = (σ.me t).held) (b : {b : Word // cfg.segs.IsCell b})
    (hf : ∀ u, ¬ σ'.Holds u b.1) : σ'.locks (cfg.segs.lockLoc b.1) = s.label b := by
  rw [hlocks]
  refine h.label b fun u hu => hf u ?_
  rcases eq_or_ne u (σ.cur t) with rfl | hne
  · rw [Sys.holds_cur hatt hround, hheld]
    exact hu
  · exact (Sys.holds_ne hatt hround hne _).2 hu

/-- A step that the protocol does not see. -/
theorem Sys.Follows.stay (h : σ.Follows s) (hinv : Inv ver m₀ s)
    (hth : σ'.th = (σ.upd t th me).th) (hatt : σ'.att = (σ.upd t th me).att)
    (hround : th.round = (σ.th t).round) (hlocks : σ'.locks = σ.locks)
    (hobjs : σ'.objs = σ.objs) (hlog : σ'.log = σ.log) (hheld : me.held = (σ.me t).held)
    (hval : me.validated = (σ.me t).validated) (hops : σ.cur t ∈ σ.log → me.ops = (σ.me t).ops)
    (hrun : ValueRun (s.reads (σ.cur t)) th me) (hthr : ValueThread s (σ.cur t) th) :
    σ'.Follows s := by
  refine h.next hinv .refl hth hatt hround (fun u _ => by rw [hlog]) (hlog ▸ h.log)
    (fun b => by rw [hobjs, h.data]) (h.label_keep hatt hround hlocks hheld) ?_ hrun hthr
  rw [hlog]
  exact (h.att _).congr hheld hval hops

/-! ## What the relation says -/

/-- A cell whose lock word is unlocked is free and has this word for its label. -/
theorem Sys.Follows.unlocked (h : σ.Follows s) (hown : σ.OwnOk cfg)
    {b : {b : Word // cfg.segs.IsCell b}}
    (hl : isLocked (σ.locks (cfg.segs.lockLoc b.1)) = false) :
    (∀ u, ¬ s.holds u b) ∧ s.label b = σ.locks (cfg.segs.lockLoc b.1) := by
  have hfree : ∀ u, ¬ σ.Holds u b.1 := by
    intro u hu
    rw [hu.isLocked hown] at hl
    cases hl
  exact ⟨fun u hu => hfree u (((h.att u).held b).1 hu), (h.label b hfree).symm⟩

/-- A cell of the write set has been read at the version of its entry. -/
theorem ValueTxn.entryTs (h : ValueTxn (s.reads (σ.cur t)) (σ.th t) (σ.me t)) {b : Word}
    (hc : cfg.segs.IsCell b) (hb : b ∈ (σ.th t).tx.writeSet) :
    ∃ v, s.reads (σ.cur t) ⟨b, hc⟩ = some (entryTs (σ.th t).tx.writeSet b, v) :=
  h.recorded ⟨b, hc⟩ _ (Tx.recordsAt_entryTs hb)

/-- What holds of the transactions and their threads in every run, as far as the protocol needs
it. -/
structure Sys.ReadsOk (cfg : Config) (σ : Sys cfg.segs) : Prop where
  good : σ.Good cfg
  clock : σ.ClockOk cfg
  stamp : σ.StampOk cfg
  log : σ.LogOk
  rereads : ∀ t, RereadOk cfg σ (σ.th t)

theorem Sys.ReadsOk.init (objs : Flat) : (Sys.init cfg.segs objs).ReadsOk cfg where
  good := .init objs
  clock := .init objs
  stamp := .init objs
  log := .init objs
  rereads := .init objs

theorem Sys.ReadsOk.step (h : σ.ReadsOk cfg) (hv : cfg.build.variant = .variant2)
    (hn : ∀ t, cfg.node t < 2 ^ 15) (hr : Rule cfg σ a σ') (hs : NoStaleGrant cfg σ a σ')
    (hb : ClockBelow cfg (2 ^ 48) σ a σ') : σ'.ReadsOk cfg where
  good := h.good.step hr
  clock := h.clock.step h.good.ok hr hb
  stamp := h.stamp.step h.clock h.good hr hn hb
  log := h.log.step h.good hr
  rereads := RereadStep.threads ⟨hr, h.good, h.clock, h.stamp, hs, hb, hn⟩ hv h.rereads

end

end DstmP1
