import DstmP1.Calls

/-!
# Values that have been written

A `VARIANT2` transaction keeps no copies of cells: it has one entry in `write_set_values` for every
address it has written, and reads all other values from memory again. On a memory its entries are
an overlay, `Tx.overlay`. As long as an access has the width of the entry at its address and does
not overlap the others (`Tx.Fits`), calls do on this overlay what they do on memory
(`Tx.overlay_served`, `Tx.overlay_finished`). An entry keeps the size it was made with, and a read
looks its address up, so accesses that do not fit go wrong.
-/

namespace DstmP1

/-! ## Bytes -/

/-- The bytes from `p` to `p + n` and those from `q` to `q + k` do not overlap. -/
def Apart (p : Word) (n : ℕ) (q : Word) (k : ℕ) : Prop :=
  p.toNat + n ≤ q.toNat ∨ q.toNat + k ≤ p.toNat

instance (p q : Word) (n k : ℕ) : Decidable (Apart p n q k) :=
  inferInstanceAs (Decidable (_ ∨ _))

theorem Apart.symm {p q : Word} {n k : ℕ} (h : Apart p n q k) : Apart q k p n := Or.symm h

/-- The byte at the address `q` of node `n`, if it is one of the value `v` at `p`. -/
def byteIn (p : Word) (v : List Byte) (n : ℕ) (q : Word) : Option Byte :=
  if n = nodeFromAddress p then v[(q - addrFromAddress p).toNat]? else none

section
variable {p p' q : Word} {v v' : List Byte} {n : ℕ} {y y' : Byte}

theorem byteIn_eq_some : byteIn p v n q = some y ↔
    n = nodeFromAddress p ∧ v[(q - addrFromAddress p).toNat]? = some y := by
  rw [byteIn]
  split <;> simp_all

/-- A stored value, byte by byte. -/
theorem Flat.store_apply (m : Flat) (p : Word) (v : List Byte) (n : ℕ) (q : Word) :
    m.store p v n q = (byteIn p v n q).getD (m n q) := by
  rw [Flat.store, byteIn]
  split
  · rw [List.getD_eq_getElem?_getD]
  · rfl

/-- Whether a byte belongs to a value depends on the length of the value only. -/
theorem byteIn_eq_none_congr (hl : v'.length = v.length) (h : byteIn p v n q = none) :
    byteIn p v' n q = none := by
  rw [byteIn] at h ⊢
  split at h
  · next hn =>
    rw [if_pos hn, List.getElem?_eq_none_iff, hl]
    exact List.getElem?_eq_none_iff.1 h
  · next hn => rw [if_neg hn]

/-- The byte `i` of a value. -/
theorem byteIn_add {i : ℕ} (hi : i < v.length) (hv : v.length ≤ 8) :
    byteIn p v (nodeFromAddress p) (addrFromAddress p + BitVec.ofNat 64 i) = some v[i] := by
  have hsub : (addrFromAddress p + BitVec.ofNat 64 i - addrFromAddress p).toNat = i := by
    rw [BitVec.add_comm, BitVec.add_sub_cancel, BitVec.toNat_ofNat]
    omega
  rw [byteIn, if_pos rfl, hsub, List.getElem?_eq_getElem hi]

/-- Values that do not overlap have no byte in common. -/
theorem byteIn_of_apart {g : Segments} (hp : g.InHeap p) (hp' : g.InHeap p') (hl : v.length ≤ 8)
    (hl' : v'.length ≤ 8) (hd : Apart p v.length p' v'.length) (h : byteIn p v n q = some y) :
    byteIn p' v' n q = none := by
  by_contra hne
  obtain ⟨y', hy'⟩ := Option.ne_none_iff_exists'.1 hne
  obtain ⟨hn, hy⟩ := byteIn_eq_some.1 h
  obtain ⟨hn', hy'⟩ := byteIn_eq_some.1 hy'
  obtain ⟨hlt, -⟩ := List.getElem?_eq_some_iff.1 hy
  obtain ⟨hlt', -⟩ := List.getElem?_eq_some_iff.1 hy'
  have hu := hp.untagged
  have hu' := hp'.untagged
  rw [hn, nodeFromAddress_eq, nodeFromAddress_eq] at hn'
  rw [BitVec.toNat_sub, addrFromAddress_toNat] at hlt hlt'
  unfold Apart at hd
  unfold Unlocked at hu hu'
  have hq := q.isLt
  omega

end

/-! ## The overlay -/

namespace Tx

/-- What an entry of `write_set_values` puts. -/
def valueOf (e : ValueEntry) : List Byte := e.value.take e.size

/-- The byte at the address `q` of node `n`, if the transaction has written it. -/
def byteAt (tx : Tx) (n : ℕ) (q : Word) : Option Byte :=
  tx.writeSetValues.entries.findSome? fun e => byteIn e.1 (valueOf e.2) n q

/-- The memory `m` with the values written. -/
def overlay (tx : Tx) (m : Flat) : Flat := fun n q => (tx.byteAt n q).getD (m n q)

/-- The entry at the address of `a` has its width, and no other entry overlaps it. -/
def Fits {g : Segments} (tx : Tx) (a : Access g) : Prop :=
  ∀ e ∈ tx.writeSetValues.entries,
    e.1 = a.addr ∧ e.2.size = a.width.bytes ∨ Apart e.1 e.2.size a.addr a.width.bytes

instance {g : Segments} (tx : Tx) (a : Access g) : Decidable (tx.Fits a) :=
  inferInstanceAs (Decidable (∀ e ∈ _, _))

/-- The entries are values of their sizes, and no two of them overlap. -/
structure ValuesOk (g : Segments) (tx : Tx) : Prop where
  length : ∀ e ∈ tx.writeSetValues.entries, (valueOf e.2).length = e.2.size
  inHeap : ∀ e ∈ tx.writeSetValues.entries, g.InHeap e.1 ∧ 0 < e.2.size ∧ e.2.size ≤ 8
  apart : ∀ e ∈ tx.writeSetValues.entries, ∀ e' ∈ tx.writeSetValues.entries,
    e.1 = e'.1 ∨ Apart e.1 e.2.size e'.1 e'.2.size

section
variable {g : Segments} {tx tx' : Tx} {a : Access g} {n : ℕ} {q : Word} {y : Byte}

theorem overlay_congr (h : tx'.writeSetValues = tx.writeSetValues) : tx'.overlay = tx.overlay := by
  funext m n q
  rw [overlay, byteAt, h, overlay, byteAt]

theorem Fits.congr (hf : tx.Fits a) (h : tx'.writeSetValues = tx.writeSetValues) : tx'.Fits a := by
  rw [Fits, h]
  exact hf

theorem ValuesOk.congr (hv : ValuesOk g tx) (h : tx'.writeSetValues = tx.writeSetValues) :
    ValuesOk g tx' := by
  obtain ⟨h1, h2, h3⟩ := hv
  exact ⟨h ▸ h1, h ▸ h2, h ▸ h3⟩

/-- Nothing has been written. -/
theorem overlay_empty (h : tx.writeSetValues = ∅) (m : Flat) : tx.overlay m = m := by
  funext n q
  rw [overlay, byteAt, h]
  rfl

theorem ValuesOk.empty (h : tx.writeSetValues = ∅) : ValuesOk g tx := by
  constructor <;> simp [h]

/-- A byte that has been written is one of an entry. -/
theorem exists_of_byteAt (h : tx.byteAt n q = some y) :
    ∃ p e, tx.writeSetValues.lookup p = some e ∧ byteIn p (valueOf e) n q = some y := by
  obtain ⟨⟨p, e⟩, he, hy⟩ := List.exists_of_findSome?_eq_some h
  exact ⟨p, e, AList.mem_lookup_iff.2 he, hy⟩

/-- The bytes of an entry have been written. -/
theorem ValuesOk.byteAt (hv : ValuesOk g tx) {p : Word} {e : ValueEntry}
    (he : tx.writeSetValues.lookup p = some e) (hy : byteIn p (valueOf e) n q = some y) :
    tx.byteAt n q = some y := by
  have hin : (⟨p, e⟩ : Sigma fun _ : Word => ValueEntry) ∈ tx.writeSetValues.entries :=
    AList.mem_lookup_iff.1 he
  obtain ⟨y', hy'⟩ : ∃ y', tx.byteAt n q = some y' := by
    refine Option.isSome_iff_exists.1 (List.findSome?_isSome_iff.2 ⟨_, hin, ?_⟩)
    rw [hy]
    rfl
  obtain ⟨p', e', he', hb⟩ := exists_of_byteAt hy'
  have hin' : (⟨p', e'⟩ : Sigma fun _ : Word => ValueEntry) ∈ tx.writeSetValues.entries :=
    AList.mem_lookup_iff.1 he'
  rcases hv.apart _ hin _ hin' with heq | hd
  · obtain rfl : p = p' := heq
    rw [he, Option.some.injEq] at he'
    rw [hy', ← hb, ← he', hy]
  · -- Two entries that do not overlap have no byte in common.
    have h1 := hv.inHeap _ hin
    have h2 := hv.inHeap _ hin'
    have l1 := hv.length _ hin
    have l2 := hv.length _ hin'
    dsimp only at hd h1 h2 l1 l2
    rw [byteIn_of_apart h1.1 h2.1 (by omega) (by omega) (by rw [l1, l2]; exact hd) hy] at hb
    cases hb

/-- A value that has been written is loaded. -/
theorem ValuesOk.load_overlay (hv : ValuesOk g tx) {e : ValueEntry}
    (he : tx.writeSetValues.lookup a.addr = some e) (hs : e.size = a.width.bytes) (m : Flat) :
    (tx.overlay m).load a.addr a.width.bytes = valueOf e := by
  have hl : (valueOf e).length = a.width.bytes :=
    (hv.length _ (AList.mem_lookup_iff.1 he)).trans hs
  refine List.ext_getElem (by rw [Flat.length_load, hl]) fun i hi hi' => ?_
  have hb := hv.byteAt he (byteIn_add hi' (by have := a.width.bytes_le; omega))
  simp only [Flat.load, List.getElem_map, List.getElem_range]
  rw [overlay, hb, Option.getD_some]

/-- Any other value is loaded from memory. -/
theorem ValuesOk.load_overlay_of_fits (hv : ValuesOk g tx) (hf : tx.Fits a)
    (hn : tx.writeSetValues.lookup a.addr = none) (m : Flat) :
    (tx.overlay m).load a.addr a.width.bytes = m.load a.addr a.width.bytes := by
  refine List.map_congr_left fun i hi => ?_
  have hi := List.mem_range.1 hi
  have hnone : tx.byteAt (nodeFromAddress a.addr)
      (addrFromAddress a.addr + BitVec.ofNat 64 i) = none := by
    refine List.findSome?_eq_none_iff.2 fun e he => ?_
    have hval := a.width.bytes_le
    have hzero : (List.replicate a.width.bytes (0 : Byte)).length = a.width.bytes :=
      List.length_replicate
    have hmine := byteIn_add (p := a.addr) (v := List.replicate a.width.bytes 0)
      (by rw [hzero]; exact hi) (by rw [hzero]; exact hval)
    rcases hf e he with ⟨hp, -⟩ | hd
    · have hin : tx.writeSetValues.lookup e.1 = some e.2 := AList.mem_lookup_iff.2 he
      rw [hp, hn] at hin
      cases hin
    · have h1 := hv.inHeap e he
      have l1 := hv.length e he
      exact byteIn_of_apart a.inHeap h1.1 (by rw [hzero]; exact hval) (by omega)
        (by rw [hzero, l1]; exact hd.symm) hmine
  rw [overlay, hnone, Option.getD_none]

/-- The entries but for those at `p`. -/
theorem findSome?_kerase {l : List (Sigma fun _ : Word => ValueEntry)} {p : Word}
    {f : (Sigma fun _ : Word => ValueEntry) → Option Byte}
    (h : ∀ e ∈ l, e.1 = p → f e = none) : (l.kerase p).findSome? f = l.findSome? f := by
  induction l with
  | nil => rfl
  | cons e l ih =>
    rcases eq_or_ne p e.1 with rfl | hne
    · rw [List.kerase_cons_eq rfl, List.findSome?_cons, h e List.mem_cons_self rfl]
    · rw [List.kerase_cons_ne hne, List.findSome?_cons, List.findSome?_cons,
        ih fun e he => h e (List.mem_cons_of_mem _ he)]

/-- A value is written over the memory with the values written before. -/
theorem ValuesOk.overlay_insert (hv : ValuesOk g tx) (hf : tx.Fits a) {e : ValueEntry}
    (hs : (valueOf e).length = a.width.bytes)
    (ht : tx'.writeSetValues = tx.writeSetValues.insert a.addr e) (m : Flat) :
    tx'.overlay m = (tx.overlay m).store a.addr (valueOf e) := by
  funext n q
  rw [Flat.store_apply, overlay, Tx.byteAt, ht, AList.entries_insert, List.findSome?_cons]
  cases hb : byteIn a.addr (valueOf e) n q with
  | some y => rfl
  | none =>
    rw [Option.getD_none, overlay, Tx.byteAt, findSome?_kerase]
    intro e' he' hp
    rw [hp]
    rcases hf e' he' with ⟨-, hw⟩ | hd
    · exact byteIn_eq_none_congr (by rw [hs, hv.length e' he', hw]) hb
    · have hpos := (hv.inHeap e' he').2.1
      have := a.width.bytes_pos
      rw [hp] at hd
      unfold Apart at hd
      omega

/-- The entries after a write. -/
theorem ValuesOk.insert (hv : ValuesOk g tx) (hf : tx.Fits a) {e : ValueEntry}
    (hs : e.size = a.width.bytes) (hl : (valueOf e).length = a.width.bytes)
    (ht : tx'.writeSetValues = tx.writeSetValues.insert a.addr e) : ValuesOk g tx' := by
  have hcases : ∀ e' ∈ tx'.writeSetValues.entries,
      e' = ⟨a.addr, e⟩ ∨ e'.1 ≠ a.addr ∧ e' ∈ tx.writeSetValues.entries := by
    intro e' he'
    have hin : tx'.writeSetValues.lookup e'.1 = some e'.2 := AList.mem_lookup_iff.2 he'
    rw [ht] at hin
    rcases eq_or_ne e'.1 a.addr with hp | hne
    · rw [hp, AList.lookup_insert, Option.some.injEq] at hin
      exact .inl (Sigma.ext hp (heq_of_eq hin.symm))
    · rw [AList.lookup_insert_ne hne] at hin
      exact .inr ⟨hne, AList.mem_lookup_iff.1 hin⟩
  have hmine : ∀ e' ∈ tx.writeSetValues.entries, e'.1 ≠ a.addr →
      Apart e'.1 e'.2.size a.addr e.size := by
    intro e' he' hne
    rw [hs]
    exact (hf e' he').resolve_left fun h => hne h.1
  refine ⟨fun e' he' => ?_, fun e' he' => ?_, fun e₁ h₁ e₂ h₂ => ?_⟩
  · rcases hcases e' he' with rfl | ⟨-, he'⟩
    · exact hl.trans hs.symm
    · exact hv.length e' he'
  · rcases hcases e' he' with rfl | ⟨-, he'⟩
    · exact ⟨a.inHeap, hs ▸ a.width.bytes_pos, hs ▸ a.width.bytes_le⟩
    · exact hv.inHeap e' he'
  · rcases hcases e₁ h₁ with rfl | ⟨hne₁, h₁⟩ <;> rcases hcases e₂ h₂ with rfl | ⟨hne₂, h₂⟩
    · exact .inl rfl
    · exact .inr (hmine e₂ h₂ hne₂).symm
    · exact .inr (hmine e₁ h₁ hne₁)
    · exact hv.apart e₁ h₁ e₂ h₂

end

/-! ## Calls -/

section
variable {g : Segments} {tx tx' : Tx} {op : Op g} {r : List Byte} {b x : Word}

theorem valueOf_zeroExtend {value : List Byte} {n : ℕ} (h : value.length = n) :
    valueOf ⟨n, zeroExtend value⟩ = value := by
  rw [valueOf, zeroExtend, List.take_append_of_le_length h.ge, List.take_of_length_le h.le]

/-- The entry at the address of an access that fits has its width. -/
theorem ValuesOk.size_eq (hv : ValuesOk g tx) {a : Access g} (hf : tx.Fits a) {e : ValueEntry}
    (he : tx.writeSetValues.lookup a.addr = some e) : e.size = a.width.bytes := by
  have hin : (⟨a.addr, e⟩ : Sigma fun _ : Word => ValueEntry) ∈ tx.writeSetValues.entries :=
    AList.mem_lookup_iff.1 he
  rcases hf _ hin with ⟨-, hs⟩ | hd
  · exact hs
  · have hpos := (hv.inHeap _ hin).2.1
    have := a.width.bytes_pos
    unfold Apart at hd
    dsimp only at hd hpos
    omega

/-- A call that has to read its cell has not written its value. -/
theorem lookup_of_not_served (h : tx.served .variant2 op = none) :
    tx.writeSetValues.lookup op.access.addr = none := by
  cases op with
  | read a =>
    rw [served, Option.map_eq_none_iff] at h
    exact h
  | write a value =>
    simp only [served] at h
    split at h
    · cases h
    · assumption

/-- The maps serve a read with the value that has been written. -/
theorem served_read {a : Access g} (h : tx.served .variant2 (.read a) = some (tx', r)) :
    tx' = tx ∧ ∃ e, tx.writeSetValues.lookup a.addr = some e ∧
      r = e.value.take a.width.bytes := by
  obtain ⟨e, he, hp⟩ := Option.map_eq_some_iff.1 h
  cases hp
  exact ⟨rfl, e, he, rfl⟩

/-- The maps serve a write with an entry for its value, and with one for its cell if this has only
been read so far. -/
theorem ValuesOk.served_write (hv : ValuesOk g tx) {a : Access g} {value : Value a.width}
    (hf : tx.Fits a) (h : tx.served .variant2 (.write a value) = some (tx', r)) :
    r = [] ∧ tx'.readSet = tx.readSet ∧
      (∃ e, tx'.writeSetValues = tx.writeSetValues.insert a.addr e ∧ valueOf e = value ∧
        e.size = a.width.bytes) ∧
      (tx'.writeSet = tx.writeSet ∨ ∃ d, tx.readSet.lookup a.block = some d ∧
        tx'.writeSet = tx.writeSet.insert a.block d) := by
  simp only [Tx.served] at h
  split at h
  · next e he =>
    cases h
    have hs := hv.size_eq hf he
    exact ⟨rfl, rfl, ⟨_, rfl, valueOf_zeroExtend (value.2.trans hs.symm), hs⟩, .inl rfl⟩
  · obtain ⟨d, hd, hp⟩ := Option.map_eq_some_iff.1 h
    cases hp
    exact ⟨rfl, rfl, ⟨_, rfl, valueOf_zeroExtend value.2, rfl⟩, .inr ⟨d, hd, rfl⟩⟩

/-- A call that the maps serve returns what it returns on memory. -/
theorem ValuesOk.served (hv : ValuesOk g tx) (hf : tx.Fits op.access)
    (hs : tx.served .variant2 op = some (tx', r)) (m : Flat) :
    r = op.result (tx.overlay m) ∧ tx'.overlay m = op.apply (tx.overlay m) ∧ ValuesOk g tx' := by
  cases op with
  | read a =>
    obtain ⟨rfl, e, he, rfl⟩ := served_read hs
    have hsize : e.size = a.width.bytes := hv.size_eq hf he
    refine ⟨?_, rfl, hv⟩
    rw [Op.result, hv.load_overlay he hsize, valueOf, hsize]
  | write a value =>
    obtain ⟨hr, -, ⟨e, ht, hval, hsize⟩, -⟩ := hv.served_write hf hs
    have hl : (valueOf e).length = a.width.bytes := by rw [hval, value.2]
    refine ⟨hr, ?_, hv.insert hf hsize hl ht⟩
    rw [hv.overlay_insert hf hl ht, hval]
    rfl

/-- The entries when a call returns that has read its cell. -/
theorem ValuesOk.of_finished (hv : ValuesOk g tx) (hf : tx.Fits op.access) (ts : Word)
    (value : List Byte) : ValuesOk g (tx.finished .variant2 op ts value).1 := by
  cases op with
  | read a => exact hv.congr rfl
  | write a new =>
    have hl : (valueOf ⟨a.width.bytes, zeroExtend new⟩).length = a.width.bytes := by
      rw [valueOf_zeroExtend new.2, new.2]
    exact hv.insert hf rfl hl rfl

/-- A call that has read its value returns what it returns on memory. -/
theorem ValuesOk.finished (hv : ValuesOk g tx) (hf : tx.Fits op.access)
    (hn : tx.writeSetValues.lookup op.access.addr = none) {ts : Word} {value : List Byte}
    {m : Flat} (hval : ∀ a, op = .read a → value = m.load a.addr a.width.bytes) :
    (tx.finished .variant2 op ts value).2 = op.result (tx.overlay m) ∧
      (tx.finished .variant2 op ts value).1.overlay m = op.apply (tx.overlay m) := by
  cases op with
  | read a => exact ⟨(hval a rfl).trans (hv.load_overlay_of_fits hf hn m).symm, rfl⟩
  | write a new =>
    have hval := valueOf_zeroExtend new.2
    have hl : (valueOf ⟨a.width.bytes, zeroExtend new⟩).length = a.width.bytes := by
      rw [hval, new.2]
    have ht : (tx.finished .variant2 (.write a new) ts value).1.writeSetValues =
        tx.writeSetValues.insert a.addr ⟨a.width.bytes, zeroExtend new⟩ := rfl
    refine ⟨rfl, ?_⟩
    rw [hv.overlay_insert hf hl ht, hval]
    rfl

/-! ## Cells -/

/-- A byte that has been written is one of a cell of the write set. -/
theorem Ok.exists_of_byteAt (h : tx.Ok g) (hv : ValuesOk g tx) {n : ℕ} {q : Word} {y : Byte}
    (hy : tx.byteAt n q = some y) :
    ∃ b ∈ tx.writeSet, ∃ i : Fin cellSize, (n, q) = Segments.cellLoc b i := by
  obtain ⟨p, e, he, hb⟩ := Tx.exists_of_byteAt hy
  obtain ⟨a, rfl, hs, hm⟩ := h.values p e he
  have hl : (valueOf e).length = a.width.bytes :=
    (hv.length _ (AList.mem_lookup_iff.1 he)).trans hs.symm
  -- On a memory with other bytes a store of the value changes this one.
  have hne : Flat.store (fun _ _ => y + 1) a.addr (valueOf e) n q ≠ y + 1 := by
    rw [Flat.store_apply, hb, Option.getD_some]
    exact fun heq => by simp at heq
  obtain ⟨i, hi⟩ := Flat.store_ne a _ hl hne
  exact ⟨a.block, hm, i, hi⟩

/-- A cell with a byte that has been written is in the write set. -/
theorem Ok.mem_of_byteAt (h : tx.Ok g) (hv : ValuesOk g tx) (hc : g.IsCell b) {i : Fin cellSize}
    {y : Byte} (hy : tx.byteAt (Segments.cellLoc b i).1 (Segments.cellLoc b i).2 = some y) :
    b ∈ tx.writeSet := by
  obtain ⟨b', hb', j, hj⟩ := h.exists_of_byteAt hv hy
  obtain ⟨e, he⟩ := exists_lookup hb'
  rwa [(Segments.cellLoc_inj hc (h.write b' e he).1 i.isLt j.isLt hj).1]

/-! ## Timestamps -/

/-- The maps that serve a call hold no other timestamps than before. -/
theorem ValuesOk.recordsAt_of_served (hv : ValuesOk g tx) (hf : tx.Fits op.access)
    (hs : tx.served .variant2 op = some (tx', r)) (h : tx'.RecordsAt b x) : tx.RecordsAt b x := by
  cases op with
  | read a => rwa [(served_read hs).1] at h
  | write a value =>
    obtain ⟨-, hr, -, hw⟩ := hv.served_write hf hs
    obtain ⟨e, he, rfl⟩ := h
    rw [hr] at he
    rcases hw with hw | ⟨d, hd, hw⟩
    · exact ⟨e, hw ▸ he, rfl⟩
    · rcases he with he | he
      · exact ⟨e, .inl he, rfl⟩
      · rw [hw] at he
        rcases lookup_insert_cases he with ⟨rfl, rfl⟩ | he
        · exact ⟨e, .inl hd, rfl⟩
        · exact ⟨e, .inr he, rfl⟩

/-- They hold the same cells. -/
theorem ValuesOk.mem_of_served (hv : ValuesOk g tx) (hf : tx.Fits op.access)
    (hs : tx.served .variant2 op = some (tx', r)) (h : b ∈ tx.readSet ∨ b ∈ tx.writeSet) :
    b ∈ tx'.readSet ∨ b ∈ tx'.writeSet := by
  cases op with
  | read a => rwa [(served_read hs).1]
  | write a value =>
    obtain ⟨-, hr, -, hw⟩ := hv.served_write hf hs
    rw [hr]
    rcases hw with hw | ⟨d, hd, hw⟩
    · rwa [hw]
    · rw [hw]
      exact h.imp_right fun h => (AList.mem_insert _).2 (.inr h)

/-- A call that has read its cell records its timestamp. -/
theorem recordsAt_of_finished {ts : Word} {value : List Byte}
    (h : (tx.finished .variant2 op ts value).1.RecordsAt b x) :
    tx.RecordsAt b x ∨ b = op.access.block ∧ x = ts := by
  obtain ⟨e, he, rfl⟩ := h
  cases op with
  | read a =>
    rcases he with he | he
    · rcases lookup_insert_cases he with ⟨rfl, rfl⟩ | he
      · exact .inr ⟨rfl, rfl⟩
      · exact .inl ⟨e, .inl he, rfl⟩
    · exact .inl ⟨e, .inr he, rfl⟩
  | write a new =>
    rcases he with he | he
    · exact .inl ⟨e, .inl he, rfl⟩
    · rcases lookup_insert_cases he with ⟨rfl, rfl⟩ | he
      · exact .inr ⟨rfl, rfl⟩
      · exact .inl ⟨e, .inr he, rfl⟩

theorem mem_of_finished {ts : Word} {value : List Byte}
    (h : b ∈ tx.readSet ∨ b ∈ tx.writeSet ∨ b = op.access.block) :
    b ∈ (tx.finished .variant2 op ts value).1.readSet ∨
      b ∈ (tx.finished .variant2 op ts value).1.writeSet := by
  cases op with
  | read a =>
    rcases h with h | h | h
    · exact .inl ((AList.mem_insert _).2 (.inr h))
    · exact .inr h
    · exact .inl ((AList.mem_insert _).2 (.inl h))
  | write a new =>
    rcases h with h | h | h
    · exact .inl h
    · exact .inr ((AList.mem_insert _).2 (.inr h))
    · exact .inr ((AList.mem_insert _).2 (.inl h))

end

end Tx

end DstmP1
