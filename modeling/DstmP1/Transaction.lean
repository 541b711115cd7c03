import DstmP1.FlatMemory
import Mathlib.Data.List.AList

/-!
# Transactions

The descriptor `DSTMTransaction` (`dstm_transaction.h`) and those parts of `read`, `write` and
`commit` (`dstm_transaction_impl.h`, `dstm_transaction.cpp`) that touch nothing but the
descriptor. `VARIANT1` keeps whole-cell copies in `read_set` and `write_set`; `VARIANT2` keeps
timestamps there and one 16-byte entry for every written address in `write_set_values`.

A call of `read` or `write` is cut at its accesses to shared memory: either the maps serve it
(`Tx.served`), or the cell is read and entered (`Tx.fetched`), the transaction validates the
entries `Tx.staleEntries`, and the call ends (`Tx.finished`). The order in which a
`boost::unordered_map` is iterated is a parameter (`Orders`).
-/

namespace DstmP1

/-- Which of `VARIANT1` and `VARIANT2` the build defines. -/
inductive Variant where
  | variant1
  | variant2
  deriving DecidableEq

/-- The build options: the variant, and whether `CACHE` is defined. -/
structure Build where
  variant : Variant
  cache : Bool

/-! ## The descriptor -/

/-- An entry of `read_set` or `write_set`: the timestamp and, in `VARIANT1`, the copy of the cell
behind it. -/
structure Entry where
  ts : Word
  copy : Cell

/-- An entry of `write_set_values`: the size of the first value written, and the last value as
the `uint64_t` that was stored. -/
structure ValueEntry where
  size : ℕ
  value : List Byte

/-- `read_set_t` and `write_set_t`, by the base of the cell. -/
abbrev CellMap := AList fun _ : Word => Entry

theorem mem_of_lookup {α : Type*} {m : AList fun _ : Word => α} {b : Word} {e : α}
    (h : m.lookup b = some e) : b ∈ m := AList.lookup_isSome.1 (by rw [h]; rfl)

theorem exists_lookup {α : Type*} {m : AList fun _ : Word => α} {b : Word} (h : b ∈ m) :
    ∃ e, m.lookup b = some e := Option.isSome_iff_exists.1 (AList.lookup_isSome.2 h)

/-- An entry of a map after an insertion is the new one or an old one. -/
theorem lookup_insert_cases {α : Type*} {m : AList fun _ : Word => α} {b b' : Word} {e e' : α}
    (h : (m.insert b e).lookup b' = some e') : b' = b ∧ e' = e ∨ m.lookup b' = some e' := by
  by_cases hb : b' = b
  · subst hb
    rw [AList.lookup_insert, Option.some.injEq] at h
    exact .inl ⟨rfl, h.symm⟩
  · rw [AList.lookup_insert_ne hb] at h
    exact .inr h

/-- An entry that is still there after an erasure was there before. -/
theorem lookup_of_erase {α : Type*} {m : AList fun _ : Word => α} {b b' : Word} {e : α}
    (h : (m.erase b).lookup b' = some e) : m.lookup b' = some e := by
  by_cases hb : b' = b
  · subst hb
    rw [AList.lookup_erase] at h
    cases h
  · rwa [AList.lookup_erase_ne hb] at h

/-- The fields of `DSTMTransaction` that a transaction reads. -/
structure Tx where
  readSet : CellMap
  writeSet : CellMap
  writeSetValues : AList fun _ : Word => ValueEntry
  rlNodes : ℕ
  rlChangedObjects : List Word
  VC : ℕ → Word

/-- A new descriptor. -/
def Tx.new : Tx where
  readSet := ∅
  writeSet := ∅
  writeSetValues := ∅
  rlNodes := 0
  rlChangedObjects := []
  VC := fun _ => 0

namespace Tx

/-- `begin`. -/
def begin (tx : Tx) : Tx := { tx with rlChangedObjects := [], VC := fun _ => 0 }

/-- `clearWriteSet` and `clearReadSet`. -/
def clear (tx : Tx) : Tx := { tx with readSet := ∅, writeSet := ∅, writeSetValues := ∅ }

/-- `value` as the `uint64_t` that `VARIANT2` stores it as. -/
def zeroExtend (value : List Byte) : List Byte := value ++ List.replicate (8 - value.length) 0

section
variable {g : Segments}

/-- What a call does that finds what it needs in the maps: the descriptor it leaves and the value
it returns. `none` is a call that has to read the cell. -/
def served (v : Variant) (tx : Tx) : Op g → Option (Tx × List Byte)
  | .read a =>
    match v with
    | .variant1 =>
      match tx.writeSet.lookup a.block with
      | some e => some (tx, e.copy.load a.offset a.width.bytes)
      | none => (tx.readSet.lookup a.block).map fun e =>
          (tx, e.copy.load a.offset a.width.bytes)
    | .variant2 => (tx.writeSetValues.lookup a.addr).map fun e =>
        (tx, e.value.take a.width.bytes)
  | .write a value =>
    match v with
    | .variant1 =>
      match tx.writeSet.lookup a.block with
      | some e => some ({ tx with
          writeSet := tx.writeSet.insert a.block ⟨e.ts, e.copy.store a.offset value⟩ }, [])
      | none => (tx.readSet.lookup a.block).map fun e => ({ tx with
          writeSet := tx.writeSet.insert a.block ⟨e.ts, e.copy.store a.offset value⟩
          readSet := tx.readSet.erase a.block }, [])
    | .variant2 =>
      match tx.writeSetValues.lookup a.addr with
      | some e => some ({ tx with
          writeSetValues := tx.writeSetValues.insert a.addr ⟨e.size, zeroExtend value⟩ }, [])
      | none => (tx.readSet.lookup a.block).map fun e => ({ tx with
          writeSet := tx.writeSet.insert a.block e
          writeSetValues := tx.writeSetValues.insert a.addr
            ⟨a.width.bytes, zeroExtend value⟩ }, [])

/-- `readCell` is asked for a copy of the cell in `VARIANT1`, for the value in `VARIANT2`. -/
def cellArgs (v : Variant) (op : Op g) : CellArgs := op.access.cellArgs (v == .variant1)

/-- The cell has been read: `VARIANT1` has it in the map, where `readCell` was told to put it. -/
def fetched (v : Variant) (tx : Tx) (op : Op g) (ts : Word) (buf : ℕ → Byte) : Tx :=
  match v, op with
  | .variant1, .read a => { tx with readSet := tx.readSet.insert a.block ⟨ts, fun i => buf i⟩ }
  | .variant1, .write a _ =>
    { tx with writeSet := tx.writeSet.insert a.block ⟨ts, fun i => buf i⟩ }
  | .variant2, _ => tx

/-- `VARIANT2` aborts when the cell it has written to before has another timestamp now. -/
def conflict (v : Variant) (tx : Tx) (op : Op g) (ts : Word) : Bool :=
  match v, tx.writeSet.lookup op.access.block with
  | .variant2, some e => !isTimestampsEquivalent e.ts ts
  | _, _ => false

/-- The end of a call whose cell has been read and validated. -/
def finished (v : Variant) (tx : Tx) (op : Op g) (ts : Word) (value : List Byte) :
    Tx × List Byte :=
  match v, op with
  | .variant1, .read _ => (tx, value)
  | .variant1, .write a new =>
    match tx.writeSet.lookup a.block with
    | some e => ({ tx with
        writeSet := tx.writeSet.insert a.block ⟨e.ts, e.copy.store a.offset new⟩ }, [])
    | none => (tx, [])
  | .variant2, .read a => ({ tx with readSet := tx.readSet.insert a.block ⟨ts, fun _ => 0⟩ }, value)
  | .variant2, .write a new => ({ tx with
      writeSet := tx.writeSet.insert a.block ⟨ts, fun _ => 0⟩
      writeSetValues := tx.writeSetValues.insert a.addr ⟨a.width.bytes, zeroExtend new⟩ }, [])

end

/-! ## Iterations -/

/-- The orders in which the maps of a descriptor are iterated. -/
structure Orders where
  rs : List Word
  ws : List Word
  vs : List Word

/-- `o` lists the keys of the maps of `tx`. -/
structure Orders.Of (o : Orders) (tx : Tx) : Prop where
  rs : o.rs.Perm tx.readSet.keys
  ws : o.ws.Perm tx.writeSet.keys
  vs : o.vs.Perm tx.writeSetValues.keys

instance (o : Orders) (tx : Tx) : Decidable (o.Of tx) :=
  decidable_of_iff (o.rs.Perm tx.readSet.keys ∧ o.ws.Perm tx.writeSet.keys ∧
    o.vs.Perm tx.writeSetValues.keys) ⟨fun h => ⟨h.1, h.2.1, h.2.2⟩, fun h => ⟨h.1, h.2, h.3⟩⟩

/-- The entries of `m` with the keys `l`, as pairs of key and timestamp. -/
def timestamps (m : CellMap) (l : List Word) : List (Word × Word) :=
  l.filterMap fun b => (m.lookup b).map fun e => (b, e.ts)

/-- The entries `validate(ts)` looks at: those whose recorded version is smaller. -/
def staleEntries (v : Variant) (tx : Tx) (o : Orders) (ts : Word) : List (Word × Word) :=
  (timestamps tx.readSet o.rs ++
    match v with
    | .variant1 => timestamps tx.writeSet o.ws
    | .variant2 => []).filter fun e => isTimestampGreater ts e.2

/-- Whether `validate(ts)` looks at any entry at all. -/
def needsValidation (tx : Tx) (ts : Word) : Bool := decide (tx.VC (nodeOfTs ts) < versionTs ts)

/-- `VC[node] = tsn_new`. -/
def setVC (tx : Tx) (ts : Word) : Tx :=
  { tx with VC := Function.update tx.VC (nodeOfTs ts) (versionTs ts) }

/-- The entries `validateAll` looks at. -/
def allEntries (v : Variant) (tx : Tx) (o : Orders) : List (Word × Word) :=
  (timestamps tx.readSet o.rs).filter fun e =>
    match v with
    | .variant1 => true
    | .variant2 => (tx.writeSet.lookup e.1).isNone

/-- Whether the word `cur` fails the validation of an entry with the timestamp `ts`. -/
def changed (cur ts : Word) : Bool := isLocked cur || isTimestampGreater cur ts

/-- What `commitWriteSetValues` puts, as addresses and bytes. -/
def commitValues (v : Variant) (tx : Tx) (o : Orders) : List (Word × List Byte) :=
  match v with
  | .variant1 => o.ws.filterMap fun b => (tx.writeSet.lookup b).map fun e => (b, List.ofFn e.copy)
  | .variant2 => o.vs.filterMap fun a =>
      (tx.writeSetValues.lookup a).map fun e => (a, e.value.take e.size)

/-! ## What calls leave alone -/

section
variable {g : Segments} {v : Variant} {tx tx' : Tx} {op : Op g}

/-- A call changes nothing but the three maps. -/
theorem served_eq {r : List Byte} (hs : tx.served v op = some (tx', r)) :
    tx'.rlChangedObjects = tx.rlChangedObjects ∧ tx'.VC = tx.VC := by
  cases op <;> cases v <;> simp only [Tx.served] at hs <;> (try split at hs) <;> first
    | cases hs; exact ⟨rfl, rfl⟩
    | obtain ⟨e, -, hp⟩ := Option.map_eq_some_iff.1 hs
      cases hp
      exact ⟨rfl, rfl⟩

/-- The entry of a fetched cell changes neither the refusals nor `VC`. -/
theorem fetched_eq (ts : Word) (buf : ℕ → Byte) :
    (tx.fetched v op ts buf).rlChangedObjects = tx.rlChangedObjects ∧
      (tx.fetched v op ts buf).VC = tx.VC := by
  cases v <;> cases op <;> exact ⟨rfl, rfl⟩

/-- The end of a call changes neither the refusals nor `VC`. -/
theorem finished_eq (ts : Word) (value : List Byte) :
    (tx.finished v op ts value).1.rlChangedObjects = tx.rlChangedObjects ∧
      (tx.finished v op ts value).1.VC = tx.VC := by
  cases v <;> cases op
  · exact ⟨rfl, rfl⟩
  · dsimp only [Tx.finished]
    split <;> exact ⟨rfl, rfl⟩
  · exact ⟨rfl, rfl⟩
  · exact ⟨rfl, rfl⟩

end

/-! ## Well-formed descriptors -/

/-- The keys of the maps are cells, the timestamps are unlocked, and an entry of
`write_set_values` is for a value in a cell of the write set. -/
structure Ok (g : Segments) (tx : Tx) : Prop where
  read : ∀ b e, tx.readSet.lookup b = some e → g.IsCell b ∧ Unlocked e.ts
  write : ∀ b e, tx.writeSet.lookup b = some e → g.IsCell b ∧ Unlocked e.ts
  values : ∀ p e, tx.writeSetValues.lookup p = some e →
    ∃ a : Access g, a.addr = p ∧ a.width.bytes = e.size ∧ a.block ∈ tx.writeSet

namespace Ok

variable {g : Segments} {v : Variant} {tx tx' : Tx} {op : Op g} {ts : Word}

/-- A new descriptor has empty maps. -/
theorem new : Ok g Tx.new where
  read b e h := by cases h
  write b e h := by cases h
  values p e h := by cases h

/-- `clear` empties the maps. -/
theorem clear (tx : Tx) : Ok g tx.clear where
  read b e h := by cases h
  write b e h := by cases h
  values p e h := by cases h

/-- Only the three maps count. -/
theorem congr (h : Ok g tx) (hr : tx'.readSet = tx.readSet) (hw : tx'.writeSet = tx.writeSet)
    (hv : tx'.writeSetValues = tx.writeSetValues) : Ok g tx' where
  read := hr ▸ h.read
  write := hw ▸ h.write
  values := hv ▸ hw ▸ h.values

/-- A cell enters the read set. -/
theorem insertRead (h : Ok g tx) {b : Word} {e : Entry} (hb : g.IsCell b) (he : Unlocked e.ts) :
    Ok g { tx with readSet := tx.readSet.insert b e } where
  read b' e' h' := by
    rcases lookup_insert_cases h' with ⟨rfl, rfl⟩ | h'
    · exact ⟨hb, he⟩
    · exact h.read b' e' h'
  write := h.write
  values := h.values

/-- A cell enters the write set. -/
theorem insertWrite (h : Ok g tx) {b : Word} {e : Entry} (hb : g.IsCell b) (he : Unlocked e.ts) :
    Ok g { tx with writeSet := tx.writeSet.insert b e } where
  read := h.read
  write b' e' h' := by
    rcases lookup_insert_cases h' with ⟨rfl, rfl⟩ | h'
    · exact ⟨hb, he⟩
    · exact h.write b' e' h'
  values p e' h' := by
    obtain ⟨a, ha, hs, hm⟩ := h.values p e' h'
    exact ⟨a, ha, hs, (AList.mem_insert _).2 (.inr hm)⟩

/-- A value enters `write_set_values`. -/
theorem insertValue (h : Ok g tx) (a : Access g) {e : ValueEntry} (hs : a.width.bytes = e.size)
    (ha : a.block ∈ tx.writeSet) :
    Ok g { tx with writeSetValues := tx.writeSetValues.insert a.addr e } where
  read := h.read
  write := h.write
  values p e' h' := by
    rcases lookup_insert_cases h' with ⟨rfl, rfl⟩ | h'
    · exact ⟨a, rfl, hs, ha⟩
    · exact h.values p e' h'

/-- A cell leaves the read set. -/
theorem eraseRead (h : Ok g tx) (b : Word) : Ok g { tx with readSet := tx.readSet.erase b } where
  read b' e' h' := h.read b' e' (lookup_of_erase h')
  write := h.write
  values := h.values

/-- The maps stay well formed when they serve a call. -/
theorem served (h : Ok g tx) {r : List Byte} (hs : tx.served v op = some (tx', r)) : Ok g tx' := by
  cases op with
  | read a =>
    cases v <;> simp only [Tx.served] at hs
    · split at hs
      · cases hs
        exact h
      · obtain ⟨e, -, hp⟩ := Option.map_eq_some_iff.1 hs
        cases hp
        exact h
    · obtain ⟨e, -, hp⟩ := Option.map_eq_some_iff.1 hs
      cases hp
      exact h
  | write a value =>
    cases v <;> simp only [Tx.served] at hs <;> split at hs
    · next e he =>
      cases hs
      exact h.insertWrite a.isCell (h.write _ e he).2
    · obtain ⟨e, he, hp⟩ := Option.map_eq_some_iff.1 hs
      cases hp
      exact (h.insertWrite (e := ⟨e.ts, e.copy.store a.offset value⟩) a.isCell
        (h.read _ e he).2).eraseRead a.block
    · next e he =>
      cases hs
      obtain ⟨a', ha', hw, hm⟩ := h.values _ e he
      refine ⟨h.read, h.write, fun p e' h' => ?_⟩
      rcases lookup_insert_cases h' with ⟨rfl, rfl⟩ | h'
      · exact ⟨a', ha', hw, hm⟩
      · exact h.values p e' h'
    · obtain ⟨e, he, hp⟩ := Option.map_eq_some_iff.1 hs
      cases hp
      exact (h.insertWrite a.isCell (h.read _ e he).2).insertValue a rfl
        ((AList.mem_insert _).2 (.inl rfl))

/-- A fetched cell is recorded with its timestamp, which is unlocked. -/
theorem fetched (h : Ok g tx) (hts : Unlocked ts) (buf : ℕ → Byte) :
    Ok g (tx.fetched v op ts buf) := by
  cases v <;> cases op
  · exact h.insertRead (Access.isCell _) hts
  · exact h.insertWrite (Access.isCell _) hts
  · exact h
  · exact h

/-- A call that returns records the cell that it was made for. -/
theorem finished (h : Ok g tx) (hts : Unlocked ts) (value : List Byte) :
    Ok g (tx.finished v op ts value).1 := by
  cases v <;> cases op
  · exact h
  · simp only [Tx.finished]
    split
    · next e he => exact h.insertWrite (Access.isCell _) (h.write _ e he).2
    · exact h
  · exact h.insertRead (Access.isCell _) hts
  · exact (h.insertWrite (Access.isCell _) hts).insertValue _ rfl
      ((AList.mem_insert _).2 (.inl rfl))

end Ok

end Tx

end DstmP1
