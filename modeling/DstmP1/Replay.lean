import DstmP1.Lib.Atomic
import DstmP1.Transaction

/-!
# Transactions as programs on flat memory

`Op.result` and `Op.apply` are what a call returns and does when it runs on flat memory, `replay`
a sequence of calls with the values they returned; `flatMemory` is the same as a memory of
`Lib.Atomic`.

`Tx.Tracks tx base m` relates a `VARIANT1` descriptor to flat memory: `m` is the memory `base`
after the transaction's calls so far, the copies in the maps are cells of `m`, and `m` differs
from `base` in cells of the write set only. A call keeps this and returns what it returns on `m`:
`Tracks.served` when the maps serve it, `Tracks.finished` when it has read the cell.
-/

namespace DstmP1

section
variable {g : Segments}

/-! ## Serial execution -/

/-- What the call returns on the memory `m`. -/
def Op.result (m : Flat) : Op g → List Byte
  | .read a => m.load a.addr a.width.bytes
  | .write _ _ => []

/-- The memory after the call. -/
def Op.apply (m : Flat) : Op g → Flat
  | .read _ => m
  | .write a value => m.store a.addr value

/-- The memory after the calls `ops`, if each returns on flat memory what it is paired with. -/
def replay (m : Flat) : List (Op g × List Byte) → Option Flat
  | [] => some m
  | (op, r) :: ops => if op.result m = r then replay (op.apply m) ops else none

theorem replay_append (m : Flat) (l l' : List (Op g × List Byte)) :
    replay m (l ++ l') = (replay m l).bind fun m' => replay m' l' := by
  induction l generalizing m with
  | nil => rfl
  | cons x l ih =>
    obtain ⟨op, r⟩ := x
    rw [List.cons_append, replay, replay]
    split
    · exact ih _
    · rfl

/-- One more call. -/
theorem replay_concat {m m' : Flat} {l : List (Op g × List Byte)} (h : replay m l = some m')
    (op : Op g) : replay m (l ++ [(op, op.result m')]) = some (op.apply m') := by
  rw [replay_append, h, Option.bind_some, replay, if_pos rfl, replay]

/-- The memory of all nodes, for `read` and `write`. -/
def flatMemory (g : Segments) : Atomic.Memory Flat (Op g) (List Byte) where
  result := Op.result
  apply m op := op.apply m

/-- What a replay of calls gives is what the flat memory returns. -/
theorem gives_of_replay {m m' : Flat} {l : List (Op g × List Byte)}
    (h : replay m l = some m') : (flatMemory g).Gives m l m' := by
  induction l generalizing m with
  | nil =>
    cases h
    exact .nil
  | cons x l ih =>
    obtain ⟨op, r⟩ := x
    rw [replay] at h
    split at h
    · next hr =>
      subst hr
      exact @Atomic.Memory.Gives.cons _ _ _ (flatMemory g) _ _ _ _ (ih h)
    · cases h

/-! ## Descriptors and flat memory -/

/-- The copies in the maps are cells of `m`, which differs from `base` in cells of the write set
only. -/
structure Tx.Tracks (g : Segments) (tx : Tx) (base m : Flat) : Prop where
  read : ∀ b e, tx.readSet.lookup b = some e → g.IsCell b ∧ e.copy = m.cell b ∧ b ∉ tx.writeSet
  write : ∀ b e, tx.writeSet.lookup b = some e → g.IsCell b ∧ e.copy = m.cell b
  frame : ∀ n p, m n p ≠ base n p →
    ∃ b ∈ tx.writeSet, ∃ i : Fin cellSize, (n, p) = Segments.cellLoc b i

namespace Tx.Tracks

variable {tx tx' : Tx} {base m : Flat} {op : Op g} {r : List Byte}

/-- An empty descriptor tracks the memory as it is. -/
theorem empty (base : Flat) (hr : tx.readSet = ∅) (hw : tx.writeSet = ∅) :
    Tracks g tx base base where
  read b e h := by rw [hr] at h; cases h
  write b e h := by rw [hw] at h; cases h
  frame n p h := absurd rfl h

/-- Tracking is about the two maps only. -/
theorem congr (h : Tracks g tx base m) (hr : tx'.readSet = tx.readSet)
    (hw : tx'.writeSet = tx.writeSet) : Tracks g tx' base m where
  read b e := by rw [hr, hw]; exact h.read b e
  write b e := by rw [hw]; exact h.write b e
  frame n p := by rw [hw]; exact h.frame n p

theorem isCell_of_mem (h : Tracks g tx base m) {b : Word} (hb : b ∈ tx.writeSet) : g.IsCell b := by
  obtain ⟨e, he⟩ := exists_lookup hb
  exact (h.write b e he).1

/-- A cell outside the write set is as it was. -/
theorem cell_eq (h : Tracks g tx base m) {b : Word} (hb : g.IsCell b) (hn : b ∉ tx.writeSet) :
    m.cell b = base.cell b := by
  funext i
  by_contra hne
  rw [Flat.cell_apply, Flat.cell_apply] at hne
  obtain ⟨b', hb', j, hj⟩ := h.frame _ _ hne
  have := (Segments.cellLoc_inj hb (h.isCell_of_mem hb') i.isLt j.isLt hj).1
  exact hn (this ▸ hb')

/-- The value stored through an entry of the write set: the shared step of all writes. -/
theorem store (h : Tracks g tx base m) (a : Access g) (value : Value a.width) {ts : Word}
    {copy : Cell} (hc : copy = m.cell a.block)
    (hr : ∀ b e, tx'.readSet.lookup b = some e → tx.readSet.lookup b = some e ∧ b ≠ a.block)
    (hw : tx'.writeSet = tx.writeSet.insert a.block ⟨ts, copy.store a.offset value⟩) :
    Tracks g tx' base (m.store a.addr value) where
  read b e he := by
    obtain ⟨he, hne⟩ := hr b e he
    obtain ⟨hb, hcopy, hn⟩ := h.read b e he
    refine ⟨hb, ?_, ?_⟩
    · rw [hcopy, Flat.cell_store_ne a m value.2 hb hne]
    · rw [hw, AList.mem_insert]
      exact fun h => h.elim hne hn
  write b e he := by
    rw [hw] at he
    by_cases hbb : b = a.block
    · subst hbb
      rw [AList.lookup_insert, Option.some.injEq] at he
      subst he
      exact ⟨a.isCell, by rw [Flat.cell_store a m value.2, hc]⟩
    · rw [AList.lookup_insert_ne hbb] at he
      obtain ⟨hb, hcopy⟩ := h.write b e he
      exact ⟨hb, by rw [hcopy, Flat.cell_store_ne a m value.2 hb hbb]⟩
  frame n p hne := by
    rw [hw]
    by_cases hs : m.store a.addr value n p = m n p
    · rw [hs] at hne
      obtain ⟨b, hb, hp⟩ := h.frame n p hne
      exact ⟨b, AList.mem_insert _ |>.2 (.inr hb), hp⟩
    · exact ⟨a.block, AList.mem_insert _ |>.2 (.inl rfl), Flat.store_ne a m value.2 hs⟩

/-- A call that the maps serve returns what it returns on flat memory. -/
theorem served (h : Tracks g tx base m) (hs : tx.served .variant1 op = some (tx', r)) :
    r = op.result m ∧ Tracks g tx' base (op.apply m) := by
  cases op with
  | read a =>
    simp only [Tx.served] at hs
    split at hs
    · next e he =>
      cases hs
      exact ⟨by rw [Op.result, Flat.load_eq a m, (h.write _ e he).2], h⟩
    · obtain ⟨e, he, hp⟩ := Option.map_eq_some_iff.1 hs
      cases hp
      exact ⟨by rw [Op.result, Flat.load_eq a m, (h.read _ e he).2.1], h⟩
  | write a value =>
    simp only [Tx.served] at hs
    split at hs
    · next e he =>
      cases hs
      refine ⟨rfl, h.store a value (h.write _ e he).2 (fun b e' hb => ⟨hb, ?_⟩) rfl⟩
      rintro rfl
      exact (h.read _ _ hb).2.2 (mem_of_lookup he)
    · obtain ⟨e, he, hp⟩ := Option.map_eq_some_iff.1 hs
      cases hp
      refine ⟨rfl, h.store a value (h.read _ e he).2.1 (fun b e' hb => ?_) rfl⟩
      have hne : b ≠ a.block := by
        rintro rfl
        rw [AList.lookup_erase] at hb
        cases hb
      exact ⟨by rwa [AList.lookup_erase_ne hne] at hb, hne⟩

/-- A call that the maps do not serve is about a cell that is in neither of them. -/
theorem not_mem (hs : tx.served .variant1 op = none) :
    op.access.block ∉ tx.writeSet ∧ op.access.block ∉ tx.readSet := by
  cases op <;> simp only [Tx.served] at hs <;> split at hs <;> first
    | cases hs
    | exact ⟨AList.lookup_eq_none.1 ‹_›, AList.lookup_eq_none.1 (Option.map_eq_none_iff.1 hs)⟩

/-- The cell that was read is entered. -/
theorem fetched (h : Tracks g tx base m) (hs : tx.served .variant1 op = none) (ts : Word)
    {buf : ℕ → Byte} (hbuf : (fun i : Fin cellSize => buf i) = base.cell op.access.block) :
    Tracks g (tx.fetched .variant1 op ts buf) base m := by
  obtain ⟨hw, hr⟩ := not_mem hs
  have hcell := h.cell_eq op.access.isCell hw
  cases op with
  | read a =>
    refine ⟨fun b e he => ?_, h.write, h.frame⟩
    by_cases hb : b = a.block
    · subst hb
      simp only [Tx.fetched, AList.lookup_insert, Option.some.injEq] at he
      subst he
      exact ⟨a.isCell, hbuf.trans hcell.symm, hw⟩
    · simp only [Tx.fetched, AList.lookup_insert_ne hb] at he
      exact h.read b e he
  | write a value =>
    refine ⟨fun b e he => ?_, fun b e he => ?_, fun n p hne => ?_⟩
    · obtain ⟨hb, hcopy, hn⟩ := h.read b e he
      refine ⟨hb, hcopy, ?_⟩
      simp only [Tx.fetched, AList.mem_insert, not_or]
      refine ⟨?_, hn⟩
      rintro rfl
      exact hr (mem_of_lookup he)
    · by_cases hb : b = a.block
      · subst hb
        simp only [Tx.fetched, AList.lookup_insert, Option.some.injEq] at he
        subst he
        exact ⟨a.isCell, hbuf.trans hcell.symm⟩
      · simp only [Tx.fetched, AList.lookup_insert_ne hb] at he
        exact h.write b e he
    · obtain ⟨b, hb, hp⟩ := h.frame n p hne
      exact ⟨b, (AList.mem_insert _).2 (.inr hb), hp⟩

/-- A call that has entered its cell returns what it returns on flat memory. -/
theorem finished (h : Tracks g tx base m) (ts : Word) {value : List Byte}
    (hmem : match op with
      | .read a => value = m.load a.addr a.width.bytes
      | .write a _ => a.block ∈ tx.writeSet ∧ a.block ∉ tx.readSet) :
    (tx.finished .variant1 op ts value).2 = op.result m ∧
      Tracks g (tx.finished .variant1 op ts value).1 base (op.apply m) := by
  cases op with
  | read a => exact ⟨hmem, h⟩
  | write a new =>
    obtain ⟨e, he⟩ := exists_lookup hmem.1
    simp only [Tx.finished, he]
    refine ⟨rfl, h.store a new (h.write _ e he).2 (fun b e' hb => ⟨hb, ?_⟩) rfl⟩
    rintro rfl
    exact hmem.2 (mem_of_lookup hb)

end Tx.Tracks

/-! ## The values of `readCell` -/

/-- The bytes of the value in a cell, as `readCell` and as a copy of the cell have them. -/
theorem Access.valueIn_eq (a : Access g) (copy : Bool) (c : Cell) :
    (a.cellArgs copy).valueIn c = c.load a.offset a.width.bytes := by
  refine List.map_congr_left fun i hi => ?_
  have hi := List.mem_range.1 hi
  have h := a.offset_add_le
  have ho := a.offset_eq
  rw [cellSize_eq] at h
  refine congrArg c (Fin.ext ?_)
  show (a.addr.toNat + i) % 64 = (a.offset + i) % 64
  omega

end

end DstmP1
