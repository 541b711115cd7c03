import DstmP1.WriteValues

/-!
# Accesses that overlap

`VARIANT2` keeps one entry for every address written: the size of the first value written there and
the last value. What its calls return and what it puts are those of a memory of such entries,
`valueMemory`; `VARIANT1` is flat memory. The two agree on some calls if and only if every byte read
or put is the one that was written last (`sameBytes_iff`). They agree whatever the memory and the
values written are if and only if the accesses are `OneEntry`: for every value read and every value
put, the last write of each of its bytes is the last write at its address, and every byte written
belongs to the first value written at some address (`oneEntry_iff`).
-/

namespace DstmP1

open Atomic
open Segments (Loc)

/-! ## The entries as a memory -/

section
variable {g : Segments}

/-- What a call does to `write_set_values`. -/
def Op.enter (vs : AList fun _ : Word => ValueEntry) : Op g → AList fun _ : Word => ValueEntry
  | .read _ => vs
  | .write a value => vs.insert a.addr
      ⟨((vs.lookup a.addr).map ValueEntry.size).getD a.width.bytes, Tx.zeroExtend value⟩

/-- The value that a read finds: in the entry at its address, or else in the memory `m`. -/
def Access.find (a : Access g) (m : Flat) (vs : AList fun _ : Word => ValueEntry) : List Byte :=
  match vs.lookup a.addr with
  | some e => e.value.take a.width.bytes
  | none => m.load a.addr a.width.bytes

/-- What a call returns. -/
def Op.found (m : Flat) (vs : AList fun _ : Word => ValueEntry) : Op g → List Byte
  | .read a => a.find m vs
  | .write _ _ => []

/-- The entries of `write_set_values` over the memory `m`, for `read` and `write`. -/
def valueMemory (g : Segments) (m : Flat) :
    Atomic.Memory (AList fun _ : Word => ValueEntry) (Op g) (List Byte) where
  result vs op := op.found m vs
  apply vs op := op.enter vs

/-- What `commitWriteSetValues` puts for the entries with the addresses `l`. -/
def entryPuts (vs : AList fun _ : Word => ValueEntry) (l : List Word) : List (Word × List Byte) :=
  l.filterMap fun p => (vs.lookup p).map fun e => (p, Tx.valueOf e)

/-- The memory after `puts`, one after the other. -/
def Flat.putAll (m : Flat) (puts : List (Word × List Byte)) : Flat :=
  puts.foldl (fun m p => m.store p.1 p.2) m

end

/-! ## Accesses -/

/-- A call without its value. -/
structure Shape (g : Segments) where
  isWrite : Bool
  access : Access g

section
variable {g : Segments}

/-- The address of byte `i` of the value at `a`. -/
def Access.byte (a : Access g) (i : ℕ) : Loc :=
  (nodeFromAddress a.addr, addrFromAddress a.addr + BitVec.ofNat 64 i)

/-- The shape of a call. -/
def Op.shape : Op g → Shape g
  | .read a => ⟨false, a⟩
  | .write a _ => ⟨true, a⟩

namespace Shape

/-- It is a write of the byte at `ℓ`. -/
def touches (ℓ : Loc) (x : Shape g) : Bool :=
  x.isWrite && decide (ℓ.1 = nodeFromAddress x.access.addr ∧
    (ℓ.2 - addrFromAddress x.access.addr).toNat < x.access.width.bytes)

/-- It is a write at the address `p`. -/
def isAt (p : Word) (x : Shape g) : Bool := x.isWrite && decide (x.access.addr = p)

/-- The last write among `l` of the byte at `ℓ`. -/
def lastOf (l : List (Shape g)) (ℓ : Loc) : Option (Shape g) := l.reverse.find? (touches ℓ)

/-- The last write among `l` at the address `p`. -/
def lastAt (l : List (Shape g)) (p : Word) : Option (Shape g) := l.reverse.find? (isAt p)

/-- `x` is the first write at its address. -/
def First (l : List (Shape g)) (x : Shape g) : Prop := l.find? (isAt x.access.addr) = some x

end Shape

theorem Shape.touches_eq_true {ℓ : Loc} {x : Shape g} : x.touches ℓ = true ↔
    x.isWrite = true ∧ ℓ.1 = nodeFromAddress x.access.addr ∧
      (ℓ.2 - addrFromAddress x.access.addr).toNat < x.access.width.bytes := by
  rw [touches, Bool.and_eq_true, decide_eq_true_iff]

theorem Shape.isAt_eq_true {p : Word} {x : Shape g} :
    x.isAt p = true ↔ x.isWrite = true ∧ x.access.addr = p := by
  rw [isAt, Bool.and_eq_true, decide_eq_true_iff]

/-- After `l`, the last write of each byte of the value at `a` is the last write at its address, if
there is any of either. -/
def Access.Whole (l : List (Shape g)) (a : Access g) : Prop :=
  ∀ i < a.width.bytes, Shape.lastOf l (a.byte i) = Shape.lastAt l a.addr

/-- Every value read, and every value of the size of the first write at its address at the end, is
that of one write, and every byte written is one of the first value written at some address. -/
structure OneEntry (l : List (Shape g)) : Prop where
  reads : ∀ c x d, l = c ++ x :: d → x.isWrite = false → x.access.Whole c
  puts : ∀ x, Shape.First l x → x.access.Whole l
  covered : ∀ x ∈ l, x.isWrite = true → ∀ i < x.access.width.bytes,
    ∃ y, Shape.First l y ∧ y.touches (x.access.byte i) = true

/-! ## Calls -/

/-- The value that a call writes. -/
def Op.written : Op g → List Byte
  | .read _ => []
  | .write _ value => value

/-- The byte at `ℓ`, if the call writes it. -/
def Op.byteAt (ℓ : Loc) : Op g → Option Byte
  | .read _ => none
  | .write a value => byteIn a.addr value ℓ.1 ℓ.2

/-- The last write of the byte at `ℓ`, and the last write at the address `p`. -/
def lastWrite (c : List (Op g)) (ℓ : Loc) : Option (Op g) :=
  c.reverse.find? (Shape.touches ℓ ∘ Op.shape)

def lastEntry (c : List (Op g)) (p : Word) : Option (Op g) :=
  c.reverse.find? (Shape.isAt p ∘ Op.shape)

/-- The byte at `ℓ` after the calls `c`: that of its last write, or else the one in `base`. -/
def lastByte (base : Flat) (c : List (Op g)) (ℓ : Loc) : Byte :=
  ((lastWrite c ℓ).bind (Op.byteAt ℓ)).getD (base ℓ.1 ℓ.2)

/-- Byte `i` of the last value written at the address of `a`, which goes on with zeros, or else the
byte there in `base`. -/
def Access.entryByte (base : Flat) (c : List (Op g)) (a : Access g) (i : ℕ) : Byte :=
  ((lastEntry c a.addr).map fun op => op.written.getD i 0).getD (base (a.byte i).1 (a.byte i).2)

/-- The last value written at the address of `a` has all bytes as they were last written. -/
def Access.Same (base : Flat) (c : List (Op g)) (a : Access g) : Prop :=
  ∀ i < a.width.bytes, a.entryByte base c i = lastByte base c (a.byte i)

/-- Every value read, and every value of the size of the first write at its address at the end, has
all bytes as they were last written, and every byte that differs at the end is one of the first
value written at some address. -/
structure SameBytes (base : Flat) (c : List (Op g)) : Prop where
  reads : ∀ c₁ a d, c = c₁ ++ .read a :: d → a.Same base c₁
  puts : ∀ x, Shape.First (c.map Op.shape) x → x.access.Same base c
  covered : ∀ ℓ, lastByte base c ℓ ≠ base ℓ.1 ℓ.2 →
    ∃ x, Shape.First (c.map Op.shape) x ∧ x.touches ℓ = true

end

/-! ## Bytes -/

section
variable {g : Segments} {a : Access g} {ℓ : Loc} {i : ℕ}

/-- The bytes of a value by their distance from its address. -/
theorem Access.byte_sub (a : Access g) (hi : i < a.width.bytes) :
    ((a.byte i).2 - addrFromAddress a.addr).toNat = i := by
  have := a.width.bytes_le
  rw [byte, BitVec.add_comm, BitVec.add_sub_cancel, BitVec.toNat_ofNat]
  omega

theorem Access.byte_of_sub (hn : ℓ.1 = nodeFromAddress a.addr) :
    a.byte (ℓ.2 - addrFromAddress a.addr).toNat = ℓ := by
  refine Prod.ext hn.symm ?_
  rw [byte, BitVec.ofNat_toNat, BitVec.setWidth_eq, BitVec.add_comm, BitVec.sub_add_cancel]

/-- The byte `i` of a value that is loaded. -/
theorem Flat.getElem?_load (m : Flat) (hi : i < a.width.bytes) :
    (m.load a.addr a.width.bytes)[i]? = some (m (a.byte i).1 (a.byte i).2) := by
  rw [Flat.load, List.getElem?_map, List.getElem?_range hi]
  rfl

/-- A byte of a value that is loaded is one of memory. -/
theorem Flat.eq_of_byteIn_load {m : Flat} {y : Byte} {n : ℕ}
    (h : byteIn a.addr (m.load a.addr n) ℓ.1 ℓ.2 = some y) : y = m ℓ.1 ℓ.2 := by
  obtain ⟨hn, hy⟩ := byteIn_eq_some.1 h
  obtain ⟨hlt, rfl⟩ := List.getElem?_eq_some_iff.1 hy
  simp only [Flat.load, List.getElem_map, List.getElem_range]
  rw [← hn, BitVec.ofNat_toNat, BitVec.setWidth_eq, BitVec.add_comm, BitVec.sub_add_cancel]

/-- Whether a value has the byte at `ℓ`. -/
theorem byteIn_isSome_iff {p : Word} {v : List Byte} : (byteIn p v ℓ.1 ℓ.2).isSome ↔
    ℓ.1 = nodeFromAddress p ∧ (ℓ.2 - addrFromAddress p).toNat < v.length := by
  rw [byteIn]
  split
  · next hn => simp [hn]
  · next hn => simp [hn]

theorem Flat.putAll_cons (base : Flat) (p : Word × List Byte) (puts : List (Word × List Byte)) :
    base.putAll (p :: puts) = (base.store p.1 p.2).putAll puts := rfl

/-- The memory after puts that all have their bytes from `m`, and have all that differ. -/
theorem Flat.putAll_eq {base m : Flat} {puts : List (Word × List Byte)}
    (hm : ∀ p ∈ puts, ∀ (ℓ : Loc) y, byteIn p.1 p.2 ℓ.1 ℓ.2 = some y → y = m ℓ.1 ℓ.2)
    (hall : ∀ ℓ : Loc, base ℓ.1 ℓ.2 ≠ m ℓ.1 ℓ.2 → ∃ p ∈ puts, (byteIn p.1 p.2 ℓ.1 ℓ.2).isSome) :
    base.putAll puts = m := by
  induction puts generalizing base with
  | nil =>
    funext n q
    by_contra hne
    obtain ⟨p, hp, -⟩ := hall (n, q) hne
    cases hp
  | cons p puts ih =>
    rw [Flat.putAll_cons]
    refine ih (fun q hq => hm q (List.mem_cons_of_mem _ hq)) fun ℓ hne => ?_
    rw [Flat.store_apply] at hne
    cases hb : byteIn p.1 p.2 ℓ.1 ℓ.2 with
    | some y =>
      rw [hb, Option.getD_some] at hne
      exact absurd (hm p List.mem_cons_self ℓ y hb) hne
    | none =>
      rw [hb, Option.getD_none] at hne
      obtain ⟨q, hq, hs⟩ := hall ℓ hne
      rcases List.mem_cons.1 hq with rfl | hq
      · rw [hb] at hs
        cases hs
      · exact ⟨q, hq, hs⟩

/-- Bytes that are not put stay as they are. -/
theorem Flat.putAll_of_none {base : Flat} {puts : List (Word × List Byte)}
    (h : ∀ p ∈ puts, byteIn p.1 p.2 ℓ.1 ℓ.2 = none) : base.putAll puts ℓ.1 ℓ.2 = base ℓ.1 ℓ.2 := by
  induction puts generalizing base with
  | nil => rfl
  | cons p puts ih =>
    rw [Flat.putAll_cons, ih fun q hq => h q (List.mem_cons_of_mem _ hq), Flat.store_apply,
      h p List.mem_cons_self, Option.getD_none]

theorem Flat.putAll_concat (base : Flat) (puts : List (Word × List Byte)) (p : Word × List Byte) :
    base.putAll (puts ++ [p]) = (base.putAll puts).store p.1 p.2 := List.foldl_concat ..

end

/-! ## The last write -/

/-- Two searches in the images of a list that find the same find the same in the list. -/
theorem find?_eq_of_map {α β : Type*} {f : α → β} {p q : β → Bool} {l : List α}
    (h : (l.map f).find? p = (l.map f).find? q) : l.find? (p ∘ f) = l.find? (q ∘ f) := by
  induction l with
  | nil => rfl
  | cons x l ih =>
    rw [List.map_cons] at h
    cases hp : p (f x) <;> cases hq : q (f x)
    · rw [List.find?_cons_of_neg (by simp [hp]), List.find?_cons_of_neg (by simp [hq])] at h
      rw [List.find?_cons_of_neg (by simp [hp]), List.find?_cons_of_neg (by simp [hq]), ih h]
    · -- What the first search finds would satisfy `p`.
      have hx := List.find?_some (h.trans (List.find?_cons_of_pos hq))
      rw [hp] at hx
      cases hx
    · have hx := List.find?_some (h.symm.trans (List.find?_cons_of_pos hp))
      rw [hq] at hx
      cases hx
    · rw [List.find?_cons_of_pos (by simpa using hp), List.find?_cons_of_pos (by simpa using hq)]

section
variable {g : Segments} {a : Access g} {ℓ : Loc} {p : Word} {base : Flat} {c : List (Op g)}

/-- A write touches the bytes of its value. -/
theorem Op.touches_iff (op : Op g) : op.shape.touches ℓ = true ↔ (op.byteAt ℓ).isSome := by
  rw [Shape.touches_eq_true]
  cases op with
  | read a => simp [Op.shape, Op.byteAt]
  | write a value =>
    rw [Op.byteAt, byteIn_isSome_iff, value.2]
    exact and_iff_right rfl

theorem lastWrite_eq_some {op : Op g} (h : lastWrite c ℓ = some op) :
    op ∈ c ∧ (op.byteAt ℓ).isSome :=
  have ht : (Shape.touches ℓ ∘ Op.shape) op = true := List.find?_some h
  ⟨List.mem_reverse.1 (List.mem_of_find?_eq_some h), op.touches_iff.1 ht⟩

theorem lastEntry_eq_some {op : Op g} (h : lastEntry c p = some op) :
    op ∈ c ∧ op.shape.isAt p = true :=
  have ht : (Shape.isAt p ∘ Op.shape) op = true := List.find?_some h
  ⟨List.mem_reverse.1 (List.mem_of_find?_eq_some h), ht⟩

/-- A byte of flat memory is that of its last write. -/
theorem flat_after (base : Flat) (c : List (Op g)) (ℓ : Loc) :
    (flatMemory g).after base c ℓ.1 ℓ.2 = lastByte base c ℓ := by
  induction c using List.reverseRecOn with
  | nil => rfl
  | append_singleton c op ih =>
    rw [Memory.after_concat, lastByte, lastWrite, List.reverse_concat]
    cases ht : op.shape.touches ℓ with
    | false =>
      rw [List.find?_cons_of_neg (by simp [ht]), ← lastWrite, ← lastByte, ← ih]
      cases op with
      | read a => rfl
      | write a value =>
        have hb : byteIn a.addr value ℓ.1 ℓ.2 = none := by
          rw [← Option.not_isSome_iff_eq_none]
          intro hs
          have ht' := (Op.touches_iff (.write a value)).2 hs
          rw [ht] at ht'
          cases ht'
        exact (Flat.store_apply _ _ _ _ _).trans (by rw [hb, Option.getD_none])
    | true =>
      rw [List.find?_cons_of_pos (by simpa using ht), Option.bind_some]
      obtain ⟨y, hy⟩ := Option.isSome_iff_exists.1 ((Op.touches_iff op).1 ht)
      rw [hy, Option.getD_some]
      cases op with
      | read a => cases hy
      | write a value =>
        refine (Flat.store_apply _ _ _ _ _).trans ?_
        rw [show byteIn a.addr value ℓ.1 ℓ.2 = some y from hy, Option.getD_some]

/-- An entry has the size of the first value and the last value written at its address. -/
theorem values_after (base : Flat) (c : List (Op g)) (p : Word) :
    ((valueMemory g base).after ∅ c).lookup p =
      (lastEntry c p).bind fun op => (c.find? (Shape.isAt p ∘ Op.shape)).map fun op₁ =>
        ⟨op₁.access.width.bytes, Tx.zeroExtend op.written⟩ := by
  induction c using List.reverseRecOn with
  | nil => rfl
  | append_singleton c op ih =>
    rw [Memory.after_concat, lastEntry, List.reverse_concat, List.find?_append]
    cases ht : op.shape.isAt p with
    | false =>
      have hnone : [op].find? (Shape.isAt p ∘ Op.shape) = none := by simp [ht]
      rw [List.find?_cons_of_neg (by simp [ht]), ← lastEntry, hnone, Option.or_none, ← ih]
      cases op with
      | read a => rfl
      | write a value =>
        have hne : p ≠ a.addr := by
          rintro rfl
          simp [Op.shape, Shape.isAt] at ht
        exact AList.lookup_insert_ne hne
    | true =>
      rw [List.find?_cons_of_pos (by simpa using ht), Option.bind_some]
      have hone : [op].find? (Shape.isAt p ∘ Op.shape) = some op := by simp [ht]
      cases op with
      | read a => simp [Op.shape, Shape.isAt] at ht
      | write a value =>
        obtain rfl : a.addr = p := (Shape.isAt_eq_true.1 ht).2
        refine (AList.lookup_insert _).trans ?_
        rw [hone, ih]
        cases hf : c.find? (Shape.isAt a.addr ∘ Op.shape) with
        | none =>
          have hl : lastEntry c a.addr = none := by
            rw [lastEntry, List.find?_eq_none]
            exact fun x hx => List.find?_eq_none.1 hf x (List.mem_reverse.1 hx)
          rw [hl]
          rfl
        | some op₁ =>
          have hl : (lastEntry c a.addr).isSome := by
            rw [lastEntry, List.find?_isSome]
            exact ⟨op₁, List.mem_reverse.2 (List.mem_of_find?_eq_some hf), List.find?_some hf⟩
          obtain ⟨op, hop⟩ := Option.isSome_iff_exists.1 hl
          rw [hop]
          rfl

/-- Where nothing has been written there is no entry. -/
theorem lookup_of_lastEntry_none (base : Flat) (h : lastEntry c p = none) :
    ((valueMemory g base).after ∅ c).lookup p = none := by
  rw [values_after, h, Option.bind_none]

/-- The entry at an address that has been written. -/
theorem lookup_of_lastEntry (base : Flat) {op : Op g} (h : lastEntry c p = some op) :
    op.shape.isWrite = true ∧ op.access.addr = p ∧
      ∃ op₁ ∈ c, c.find? (Shape.isAt p ∘ Op.shape) = some op₁ ∧
        ((valueMemory g base).after ∅ c).lookup p =
          some ⟨op₁.access.width.bytes, Tx.zeroExtend op.written⟩ := by
  obtain ⟨hin, hat⟩ := lastEntry_eq_some h
  obtain ⟨hw, ha⟩ := Shape.isAt_eq_true.1 hat
  obtain ⟨op₁, hop⟩ : ∃ op₁, c.find? (Shape.isAt p ∘ Op.shape) = some op₁ :=
    Option.isSome_iff_exists.1 (List.find?_isSome.2 ⟨op, hin, hat⟩)
  refine ⟨hw, ?_, op₁, List.mem_of_find?_eq_some hop, hop, ?_⟩
  · cases op <;> exact ha
  · rw [values_after, h, Option.bind_some, hop, Option.map_some]

theorem length_zeroExtend {value : List Byte} (h : value.length ≤ 8) :
    (Tx.zeroExtend value).length = 8 := by
  rw [Tx.zeroExtend, List.length_append, List.length_replicate]
  omega

theorem Op.length_written (op : Op g) : op.written.length ≤ 8 := by
  cases op with
  | read => exact Nat.zero_le _
  | write a value => exact value.2.trans_le a.width.bytes_le

/-- An entry is read with zeros behind its value. -/
theorem getElem?_zeroExtend {value : List Byte} {i : ℕ} (hv : value.length ≤ 8) (hi : i < 8) :
    (Tx.zeroExtend value)[i]? = some (value.getD i 0) := by
  rw [Tx.zeroExtend, List.getD_eq_getElem?_getD]
  rcases Nat.lt_or_ge i value.length with hlt | hge
  · rw [List.getElem?_append_left hlt, List.getElem?_eq_getElem hlt, Option.getD_some]
  · rw [List.getElem?_append_right hge, List.getElem?_replicate_of_lt (by omega),
      List.getElem?_eq_none hge, Option.getD_none]

/-- A byte of the value that a read finds. -/
theorem Access.getElem?_find (base : Flat) (c : List (Op g)) (a : Access g) {i : ℕ}
    (hi : i < a.width.bytes) :
    (a.find base ((valueMemory g base).after ∅ c))[i]? = some (a.entryByte base c i) := by
  rw [find, entryByte]
  cases he : lastEntry c a.addr with
  | none =>
    rw [lookup_of_lastEntry_none base he]
    exact Flat.getElem?_load base hi
  | some op =>
    obtain ⟨-, -, op₁, -, -, hl⟩ := lookup_of_lastEntry base he
    rw [hl]
    exact (List.getElem?_take_of_lt hi).trans
      (getElem?_zeroExtend op.length_written (hi.trans_le a.width.bytes_le))

theorem Access.length_find (base : Flat) (c : List (Op g)) (a : Access g) :
    (a.find base ((valueMemory g base).after ∅ c)).length = a.width.bytes := by
  rw [find]
  cases he : lastEntry c a.addr with
  | none =>
    rw [lookup_of_lastEntry_none base he]
    exact Flat.length_load _ _ _
  | some op =>
    obtain ⟨-, -, op₁, -, -, hl⟩ := lookup_of_lastEntry base he
    rw [hl]
    exact (List.length_take ..).trans
      (by rw [length_zeroExtend op.length_written, Nat.min_eq_left a.width.bytes_le])

/-- A read finds what it finds in flat memory if and only if all its bytes are the last ones
written. -/
theorem Access.same_iff : a.Same base c ↔ a.find base ((valueMemory g base).after ∅ c) =
    ((flatMemory g).after base c).load a.addr a.width.bytes := by
  constructor
  · intro h
    refine List.ext_getElem? fun i => ?_
    rcases Nat.lt_or_ge i a.width.bytes with hi | hi
    · rw [a.getElem?_find base c hi, Flat.getElem?_load _ hi, flat_after, h i hi]
    · rw [List.getElem?_eq_none ((a.length_find base c).trans_le hi),
        List.getElem?_eq_none ((Flat.length_load _ _ _).trans_le hi)]
  · intro h i hi
    have hb := congrArg (fun v : List Byte => v[i]?) h
    simp only [a.getElem?_find base c hi, Flat.getElem?_load _ hi, flat_after] at hb
    exact Option.some.inj hb

/-- The last writes in a sequence of calls with the given accesses. -/
theorem Access.Whole.lastWrite_eq (h : a.Whole (c.map Op.shape)) {i : ℕ}
    (hi : i < a.width.bytes) : lastWrite c (a.byte i) = lastEntry c a.addr := by
  have hw := h i hi
  rw [Shape.lastOf, Shape.lastAt, ← List.map_reverse] at hw
  exact find?_eq_of_map hw

/-- A value that is that of one write has all bytes as they were last written. -/
theorem Access.Whole.same (h : a.Whole (c.map Op.shape)) (base : Flat) : a.Same base c := by
  intro i hi
  have hw := h.lastWrite_eq hi
  rw [lastByte, entryByte, hw]
  cases he : lastEntry c a.addr with
  | none => rfl
  | some op =>
    obtain ⟨-, ha, -⟩ := lookup_of_lastEntry base he
    obtain ⟨y, hy⟩ := Option.isSome_iff_exists.1 (lastWrite_eq_some (hw.trans he)).2
    rw [Option.bind_some, hy]
    cases op with
    | read => cases hy
    | write x value =>
      obtain ⟨-, hv⟩ := byteIn_eq_some.1 hy
      rw [show x.addr = a.addr from ha, a.byte_sub hi] at hv
      rw [Option.map_some, Op.written, List.getD_eq_getElem?_getD, hv]
      rfl

/-! ## What is put -/

theorem Shape.First.isWrite {l : List (Shape g)} {x : Shape g} (h : Shape.First l x) :
    x.isWrite = true :=
  (Shape.isAt_eq_true.1 (List.find?_some h)).1

/-- A search among the calls of a list is one among their shapes. -/
theorem Shape.first_iff {x : Shape g} : Shape.First (c.map Op.shape) x ↔
    ∃ op, c.find? (Shape.isAt x.access.addr ∘ Op.shape) = some op ∧ op.shape = x := by
  rw [First, List.find?_map, Option.map_eq_some_iff]

/-- The first write at an address has made an entry of its size. -/
theorem Shape.First.lookup {x : Shape g} (h : Shape.First (c.map Op.shape) x) (base : Flat) :
    ∃ op, lastEntry c x.access.addr = some op ∧
      ((valueMemory g base).after ∅ c).lookup x.access.addr =
        some ⟨x.access.width.bytes, Tx.zeroExtend op.written⟩ := by
  obtain ⟨op₁, hop, rfl⟩ := Shape.first_iff.1 h
  have hsome : (lastEntry c op₁.shape.access.addr).isSome :=
    List.find?_isSome.2
      ⟨op₁, List.mem_reverse.2 (List.mem_of_find?_eq_some hop), List.find?_some hop⟩
  obtain ⟨op, he⟩ := Option.isSome_iff_exists.1 hsome
  obtain ⟨-, -, op₂, -, hop₂, hl⟩ := lookup_of_lastEntry base he
  obtain rfl : op₁ = op₂ := Option.some.inj (hop.symm.trans hop₂)
  refine ⟨op, he, hl.trans ?_⟩
  cases op₁ <;> rfl

/-- Every entry has been made by the first write at its address. -/
theorem exists_first {e : ValueEntry} (h : ((valueMemory g base).after ∅ c).lookup p = some e) :
    ∃ x, Shape.First (c.map Op.shape) x ∧ x.access.addr = p := by
  obtain ⟨op, he⟩ : ∃ op, lastEntry c p = some op := by
    by_contra hne
    rw [lookup_of_lastEntry_none base (Option.eq_none_iff_forall_ne_some.2 fun op ho =>
      hne ⟨op, ho⟩)] at h
    cases h
  obtain ⟨-, -, op₁, -, hop, -⟩ := lookup_of_lastEntry base he
  have hat : (Shape.isAt p ∘ Op.shape) op₁ = true := List.find?_some hop
  obtain ⟨-, rfl⟩ := Shape.isAt_eq_true.1 hat
  exact ⟨op₁.shape, Shape.first_iff.2 ⟨op₁, hop, rfl⟩, rfl⟩

/-- What is put for an entry is its value. -/
theorem mem_entryPuts {vs : AList fun _ : Word => ValueEntry} {l : List Word}
    {q : Word × List Byte} : q ∈ entryPuts vs l ↔
      q.1 ∈ l ∧ ∃ e, vs.lookup q.1 = some e ∧ q.2 = Tx.valueOf e := by
  constructor
  · intro hq
    obtain ⟨p, hp, hq⟩ := List.mem_filterMap.1 hq
    obtain ⟨e, he, rfl⟩ := Option.map_eq_some_iff.1 hq
    exact ⟨hp, e, he, rfl⟩
  · rintro ⟨hp, e, he, hq⟩
    refine List.mem_filterMap.2 ⟨q.1, hp, ?_⟩
    rw [he, Option.map_some, ← hq]

/-- The value put for the first write at an address. -/
theorem Shape.First.value {x : Shape g} (h : Shape.First (c.map Op.shape) x) (base : Flat) :
    ∃ e, ((valueMemory g base).after ∅ c).lookup x.access.addr = some e ∧
      Tx.valueOf e = x.access.find base ((valueMemory g base).after ∅ c) ∧
      (Tx.valueOf e).length = x.access.width.bytes := by
  obtain ⟨op, -, hl⟩ := h.lookup base
  refine ⟨_, hl, ?_, ?_⟩
  · rw [Access.find, hl]
    rfl
  · rw [Tx.valueOf, List.length_take, length_zeroExtend op.length_written]
    exact Nat.min_eq_left x.access.width.bytes_le

/-- The first write at an address has its value put. -/
theorem Shape.First.mem_entryPuts {x : Shape g} (h : Shape.First (c.map Op.shape) x) {l : List Word}
    (hl : l.Perm ((valueMemory g base).after ∅ c).keys) :
    (x.access.addr, x.access.find base ((valueMemory g base).after ∅ c)) ∈
      entryPuts ((valueMemory g base).after ∅ c) l := by
  obtain ⟨e, he, hv, -⟩ := h.value base
  exact DstmP1.mem_entryPuts.2 ⟨hl.mem_iff.2 (AList.mem_keys.1 (mem_of_lookup he)), e, he, hv.symm⟩

/-- A value that has been stored is loaded. -/
theorem Flat.load_store (m : Flat) {v : List Byte} (hv : v.length = a.width.bytes) :
    (m.store a.addr v).load a.addr a.width.bytes = v := by
  refine List.ext_getElem? fun i => ?_
  rcases Nat.lt_or_ge i a.width.bytes with hi | hi
  · have hlt : i < v.length := by omega
    have hb := byteIn_add (p := a.addr) hlt (hv.trans_le a.width.bytes_le)
    rw [Flat.getElem?_load _ hi, Flat.store_apply, Access.byte, hb, Option.getD_some,
      List.getElem?_eq_getElem hlt]
  · rw [List.getElem?_eq_none ((Flat.length_load _ _ _).le.trans hi),
      List.getElem?_eq_none (hv.le.trans hi)]

/-- Where every value put has all bytes as they were last written, and every byte that differs is
put, the memory after the puts is flat memory. -/
theorem SameBytes.putAll_eq (h : SameBytes base c) {l : List Word}
    (hl : l.Perm ((valueMemory g base).after ∅ c).keys) :
    base.putAll (entryPuts ((valueMemory g base).after ∅ c) l) = (flatMemory g).after base c := by
  refine Flat.putAll_eq (fun q hq ℓ y hy => ?_) fun ℓ hne => ?_
  · obtain ⟨-, e, he, hv⟩ := mem_entryPuts.1 hq
    obtain ⟨x, hfirst, hp⟩ := exists_first he
    obtain ⟨e', he', hv', -⟩ := hfirst.value base
    rw [hp, he, Option.some.injEq] at he'
    rw [hv, he', hv', Access.same_iff.1 (h.puts x hfirst), ← hp] at hy
    exact Flat.eq_of_byteIn_load hy
  · rw [flat_after] at hne
    obtain ⟨x, hfirst, ht⟩ := h.covered ℓ hne.symm
    obtain ⟨-, hn, hlt⟩ := Shape.touches_eq_true.1 ht
    obtain ⟨e, -, hv, hlen⟩ := hfirst.value base
    refine ⟨_, hfirst.mem_entryPuts hl, byteIn_isSome_iff.2 ⟨hn, ?_⟩⟩
    rwa [← hv, hlen]

/-- **The entries do what flat memory does** on some calls if and only if all bytes read and put are
the last ones written. -/
theorem sameBytes_iff : SameBytes base c ↔
    (∀ c₁ op d, c = c₁ ++ op :: d → op.found base ((valueMemory g base).after ∅ c₁) =
      op.result ((flatMemory g).after base c₁)) ∧
    ∀ k : List Word, k.Perm ((valueMemory g base).after ∅ c).keys →
      base.putAll (entryPuts ((valueMemory g base).after ∅ c) k) = (flatMemory g).after base c := by
  constructor
  · refine fun h => ⟨fun c₁ op d hc => ?_, fun k hk => h.putAll_eq hk⟩
    cases op with
    | read a => exact Access.same_iff.1 (h.reads c₁ a d hc)
    | write => rfl
  · rintro ⟨hreads, hputs⟩
    refine ⟨fun c₁ a d hc => Access.same_iff.2 (hreads c₁ _ d hc), fun x hfirst => ?_,
      fun ℓ hne => ?_⟩
    · -- The entry at the address of `x` is put last.
      obtain ⟨e, he, hv, hlen⟩ := hfirst.value base
      have hput := hputs (_ ++ [x.access.addr])
        ((List.perm_append_singleton _ _).trans (List.perm_cons_erase
          (AList.mem_keys.1 (mem_of_lookup he))).symm)
      rw [entryPuts, List.filterMap_append, List.filterMap_cons, he, Option.map_some,
        List.filterMap_nil, Flat.putAll_concat] at hput
      rw [Access.same_iff, ← hput, ← hv]
      exact (Flat.load_store _ hlen).symm
    · by_contra hno
      refine hne ?_
      rw [← flat_after, ← hputs _ (.refl _)]
      refine Flat.putAll_of_none fun q hq => ?_
      obtain ⟨-, e, he, hv⟩ := mem_entryPuts.1 hq
      obtain ⟨y, hfirst, hp⟩ := exists_first he
      obtain ⟨e', he', -, hlen⟩ := hfirst.value base
      rw [hp, he, Option.some.injEq] at he'
      subst he'
      rw [← Option.not_isSome_iff_eq_none, byteIn_isSome_iff, hv, hlen, ← hp]
      exact fun hin => hno ⟨y, hfirst, Shape.touches_eq_true.2 ⟨hfirst.isWrite, hin⟩⟩

/-! ## Values that tell writes apart -/

/-- The call of the shape `x` that writes the byte `f x` all over. -/
def Shape.fill (f : Shape g → Byte) (x : Shape g) : Op g :=
  if x.isWrite then
    .write x.access ⟨List.replicate x.access.width.bytes (f x), List.length_replicate⟩
  else .read x.access

section
variable {f : Shape g → Byte} {x : Shape g} {l : List (Shape g)} {β : Byte}

theorem Shape.fill_shape (f : Shape g → Byte) (x : Shape g) : (x.fill f).shape = x := by
  obtain ⟨w, a⟩ := x
  cases w <;> rfl

theorem Shape.map_fill (f : Shape g → Byte) (l : List (Shape g)) :
    (l.map (fill f)).map Op.shape = l := by
  rw [List.map_map, show Op.shape ∘ fill f = id from funext (fill_shape f), List.map_id]

/-- The last write of a byte by such calls. -/
theorem lastWrite_fill : lastWrite (l.map (Shape.fill f)) ℓ = (Shape.lastOf l ℓ).map (Shape.fill f)
    := by
  rw [lastWrite, ← List.map_reverse, List.find?_map, Function.comp_assoc,
    show Op.shape ∘ Shape.fill f = id from funext (Shape.fill_shape f)]
  rfl

theorem lastEntry_fill : lastEntry (l.map (Shape.fill f)) p = (Shape.lastAt l p).map (Shape.fill f)
    := by
  rw [lastEntry, ← List.map_reverse, List.find?_map, Function.comp_assoc,
    show Op.shape ∘ Shape.fill f = id from funext (Shape.fill_shape f)]
  rfl

/-- The last byte written by such calls. -/
theorem lastByte_fill (h : Shape.lastOf l ℓ = some x) (base : Flat) :
    lastByte base (l.map (Shape.fill f)) ℓ = f x := by
  have hw : lastWrite (l.map (Shape.fill f)) ℓ = some (x.fill f) := by
    rw [lastWrite_fill, h, Option.map_some]
  obtain ⟨y, hy⟩ := Option.isSome_iff_exists.1 (lastWrite_eq_some hw).2
  rw [lastByte, hw, Option.bind_some, hy, Option.getD_some]
  rw [Shape.fill] at hy
  split at hy
  · obtain ⟨-, hy⟩ := byteIn_eq_some.1 hy
    exact List.eq_of_mem_replicate (List.mem_of_getElem? hy)
  · cases hy

/-- Where another value than one of ones is the last, or none on a memory of zeros, there is a zero
in the entry. -/
theorem entryByte_fill (h : ∀ z, Shape.lastAt l a.addr = some z → f z = 0)
    (hβ : Shape.lastAt l a.addr = none → β = 0) (i : ℕ) :
    a.entryByte (fun _ _ => β) (l.map (Shape.fill f)) i = 0 := by
  rw [Access.entryByte, lastEntry_fill]
  cases hl : Shape.lastAt l a.addr with
  | none => exact hβ hl
  | some z =>
    rw [Option.map_some, Option.map_some, Option.getD_some, Shape.fill]
    split
    · change (List.replicate z.access.width.bytes (f z)).getD i 0 = 0
      rw [h z hl, List.getD_eq_getElem?_getD, List.getElem?_replicate]
      split <;> rfl
    · rfl

/-- If all bytes of a value are as they were last written, whatever the memory and the values
written are, it is that of one write. -/
theorem Access.Whole.of_same (h : ∀ (β : Byte) (f : Shape g → Byte),
    a.Same (fun _ _ => β) (l.map (Shape.fill f))) : a.Whole l := by
  classical
  intro i hi
  by_contra hne
  cases hx : Shape.lastOf l (a.byte i) with
  | none =>
    -- On a memory of ones the entry has a zero.
    have hb := h 1 (fun _ => 0) i hi
    rw [entryByte_fill (fun _ _ => rfl) fun hl => absurd (hx.trans hl.symm) hne, lastByte,
      lastWrite_fill, hx] at hb
    cases hb
  | some x =>
    -- Only `x` writes ones, and it is not the last at this address.
    have hb := h 0 (fun z => if z = x then 1 else 0) i hi
    rw [entryByte_fill (fun z hz => if_neg fun he : z = x => hne (hx.trans (he ▸ hz.symm)))
      fun _ => rfl, lastByte_fill hx, if_pos rfl] at hb
    cases hb

end

/-! ## Whatever the values are -/

/-- **Entries and flat memory agree on some accesses**, whatever the memory and the values written
are, if and only if every value read and put is that of one write and every byte written is put. -/
theorem oneEntry_iff {l : List (Shape g)} :
    OneEntry l ↔ ∀ (base : Flat) (c : List (Op g)), c.map Op.shape = l → SameBytes base c := by
  constructor
  · rintro h base c rfl
    refine ⟨?_, fun x hx => (h.puts x hx).same base, fun ℓ hne => ?_⟩
    · rintro c₁ a d rfl
      rw [List.map_append, List.map_cons] at h
      exact (h.reads _ _ _ rfl rfl).same base
    · cases hw : lastWrite c ℓ with
      | none =>
        rw [lastByte, hw] at hne
        exact absurd rfl hne
      | some op =>
        obtain ⟨hin, hs⟩ := lastWrite_eq_some hw
        obtain ⟨hwr, hn, hlt⟩ := Shape.touches_eq_true.1 (op.touches_iff.2 hs)
        obtain ⟨x, hfirst, ht⟩ := h.covered _ (List.mem_map_of_mem hin) hwr _ hlt
        exact ⟨x, hfirst, Access.byte_of_sub hn ▸ ht⟩
  · intro h
    have hfill := fun β f => h (fun _ _ => β) (l.map (Shape.fill f)) (Shape.map_fill f l)
    refine ⟨?_, fun x hx => .of_same fun β f => ?_, fun x hx hw i hi => ?_⟩
    · rintro c x d rfl hw
      refine .of_same fun β f => (hfill β f).reads _ _ (d.map (Shape.fill f)) ?_
      rw [List.map_append, List.map_cons, Shape.fill, hw]
      rfl
    · refine (hfill β f).puts x ?_
      rwa [Shape.map_fill]
    · -- All writes write ones on a memory of zeros.
      have hin : Shape.lastOf l (x.access.byte i) ≠ none := by
        rw [Shape.lastOf, ne_eq, List.find?_eq_none, not_forall]
        refine ⟨x, not_forall.2 ⟨List.mem_reverse.2 hx, not_not.2 ?_⟩⟩
        rw [Shape.touches_eq_true, Access.byte_sub _ hi]
        exact ⟨hw, rfl, hi⟩
      obtain ⟨z, hz⟩ := Option.ne_none_iff_exists'.1 hin
      have hcov := (hfill 0 fun _ => 1).covered (x.access.byte i)
      rw [lastByte_fill hz, Shape.map_fill] at hcov
      exact hcov (by decide)

/-! ## Separate variables -/

/-- A write of another variable touches no byte of this one. -/
theorem Access.not_touches (a : Access g) {y : Shape g} {i : ℕ} (hi : i < a.width.bytes)
    (hd : Apart a.addr a.width.bytes y.access.addr y.access.width.bytes) :
    y.touches (a.byte i) = false := by
  have hbyte := byteIn_add (p := a.addr) (v := List.replicate a.width.bytes (0 : Byte)) (i := i)
    (by rwa [List.length_replicate]) (by rw [List.length_replicate]; exact a.width.bytes_le)
  have hnone : byteIn y.access.addr (List.replicate y.access.width.bytes 0) (a.byte i).1
      (a.byte i).2 = none :=
    byteIn_of_apart a.inHeap y.access.inHeap (by rw [List.length_replicate]; exact a.width.bytes_le)
      (by rw [List.length_replicate]; exact y.access.width.bytes_le)
      (by rwa [List.length_replicate, List.length_replicate]) hbyte
  by_contra ht
  have hin := (Shape.touches_eq_true.1 (Bool.eq_true_of_not_eq_false ht)).2
  rw [← List.length_replicate (n := y.access.width.bytes) (a := (0 : Byte)),
    ← byteIn_isSome_iff] at hin
  rw [hnone] at hin
  cases hin

/-- The value at `a` is that of one write if all writes are of the same variable or do not overlap
it. -/
theorem Access.Whole.of_apart {a : Access g} {l : List (Shape g)}
    (h : ∀ y ∈ l, y.isWrite = true → a = y.access ∨
      Apart a.addr a.width.bytes y.access.addr y.access.width.bytes) : a.Whole l := by
  intro i hi
  have hsame : ∀ y ∈ l.reverse, y.touches (a.byte i) = y.isAt a.addr := by
    intro y hy
    cases hw : y.isWrite with
    | false => rw [Shape.touches, Shape.isAt, hw, Bool.false_and, Bool.false_and]
    | true =>
      rcases h y (List.mem_reverse.1 hy) hw with rfl | hd
      · rw [Shape.touches_eq_true.2 ⟨hw, rfl, (y.access.byte_sub hi).trans_lt hi⟩,
          Shape.isAt_eq_true.2 ⟨hw, rfl⟩]
      · rw [a.not_touches hi hd, eq_comm, Bool.eq_false_iff, ne_eq, Shape.isAt_eq_true]
        rintro ⟨-, he⟩
        rw [he] at hd
        have hpos := y.access.width.bytes_pos
        unfold Apart at hd
        omega
  exact List.find?_congr hsame

/-- **Programs that access each variable with one width** are of this kind. -/
theorem OneEntry.of_apart {l : List (Shape g)} (h : ∀ x ∈ l, ∀ y ∈ l, y.isWrite = true →
      x.access = y.access ∨ Apart x.access.addr x.access.width.bytes y.access.addr
        y.access.width.bytes) : OneEntry l where
  reads c x d hl _ := by
    subst hl
    exact .of_apart fun y hy => h x (by simp) y (List.mem_append_left _ hy)
  puts x hx := .of_apart fun y hy => h x (List.mem_of_find?_eq_some hx) y hy
  covered x hx hw i hi := by
    obtain ⟨y, hy⟩ := Option.isSome_iff_exists.1 (List.find?_isSome.2
      ⟨x, hx, Shape.isAt_eq_true.2 ⟨hw, rfl⟩⟩ : (l.find? (Shape.isAt x.access.addr)).isSome)
    obtain ⟨hwy, ha⟩ := Shape.isAt_eq_true.1 (List.find?_some hy)
    have hxy : x.access = y.access := by
      refine (h x hx y (List.mem_of_find?_eq_some hy) hwy).resolve_right fun hd => ?_
      have hpos := y.access.width.bytes_pos
      have hpos' := x.access.width.bytes_pos
      rw [ha] at hd
      unfold Apart at hd
      omega
    refine ⟨y, ?_, Shape.touches_eq_true.2 ?_⟩
    · rwa [Shape.First, ← hxy]
    · rw [← hxy]
      exact ⟨hwy, rfl, (x.access.byte_sub hi).trans_lt hi⟩

end

end DstmP1
