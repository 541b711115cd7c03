import DstmP1.AtomicBlocks

/-!
# Variables of atomic blocks

The memory of the system is made of bytes, the blocks of a program work with `int`s, `long`s and
pointers. `load` and `store` are the accesses to them that the compiler puts into a block; they
have a meaning if the address is one of an object and the value is naturally aligned. `Vars` are
variables that do not overlap: each is what was stored last in it (`Vars.get_store`), so `wp` of a
block is about the values of its variables alone.
-/

namespace DstmP1

open Atomic

/-! ## Values after a store -/

namespace Cell

variable (c : Cell) {off n : ℕ} {v : List Byte}

/-- A load of what was stored in a cell. -/
theorem load_store_same (h : off + n ≤ cellSize) (hv : v.length = n) :
    (c.store off v).load off n = v := by
  refine List.ext_getElem (by rw [length_load, hv]) fun i hi hi' => ?_
  rw [length_load] at hi
  have hval : (Fin.ofNat cellSize (off + i)).val = off + i := Nat.mod_eq_of_lt (by omega)
  simp only [load, store, List.getElem_map, List.getElem_range, hval]
  rw [if_pos (Nat.le_add_right _ _), Nat.add_sub_cancel_left, List.getD_eq_getElem _ _ hi']

/-- A load of bytes of a cell that were not stored to. -/
theorem load_store_ne {off' n' : ℕ} (h : off' + n' ≤ cellSize)
    (hd : off + v.length ≤ off' ∨ off' + n' ≤ off) :
    (c.store off v).load off' n' = c.load off' n' := by
  refine List.map_congr_left fun i hi => ?_
  have hi := List.mem_range.1 hi
  have hval : (Fin.ofNat cellSize (off' + i)).val = off' + i := Nat.mod_eq_of_lt (by omega)
  simp only [store, hval]
  split
  · next hle => rw [List.getD_eq_default _ _ (by omega)]
  · rfl

end Cell

namespace Flat

variable {g : Segments} (a b : Access g) (m : Flat) {v : List Byte}

/-- A load at the address of a store of the same width. -/
theorem load_store_same (hv : v.length = a.width.bytes) :
    (m.store a.addr v).load a.addr a.width.bytes = v := by
  rw [load_eq, cell_store a m hv, Cell.load_store_same _ a.offset_add_le hv]

/-- Storing a value does not change one that does not overlap it. -/
theorem load_store_ne (hv : v.length = a.width.bytes)
    (h : a.addr.toNat + a.width.bytes ≤ b.addr.toNat ∨
      b.addr.toNat + b.width.bytes ≤ a.addr.toNat) :
    (m.store a.addr v).load b.addr b.width.bytes = m.load b.addr b.width.bytes := by
  rw [load_eq, load_eq]
  by_cases hb : b.block = a.block
  · have hblock : a.addr.toNat / 64 * 64 = b.addr.toNat / 64 * 64 := by
      rw [← blockLb_toNat, ← blockLb_toNat]
      exact congrArg BitVec.toNat hb.symm
    rw [hb, cell_store a m hv, Cell.load_store_ne _ b.offset_add_le]
    rw [a.offset_eq, b.offset_eq, hv]
    omega
  · rw [cell_store_ne a m hv b.isCell hb]

end Flat

/-! ## Numbers as bytes -/

/-- The number with the bytes `l`, the lowest first. -/
def natOfBytes : List Byte → ℕ
  | [] => 0
  | b :: l => b.toNat + 256 * natOfBytes l

/-- The lowest `k` bytes of `n`. -/
def bytesOfNat : ℕ → ℕ → List Byte
  | 0, _ => []
  | k + 1, n => BitVec.ofNat 8 n :: bytesOfNat k (n / 256)

@[simp] theorem length_bytesOfNat (k n : ℕ) : (bytesOfNat k n).length = k := by
  induction k generalizing n with
  | zero => rfl
  | succ k ih => rw [bytesOfNat, List.length_cons, ih]

/-- `k` bytes hold a number below `256 ^ k`. -/
theorem natOfBytes_bytesOfNat (k n : ℕ) : natOfBytes (bytesOfNat k n) = n % 256 ^ k := by
  induction k generalizing n with
  | zero => rw [bytesOfNat, natOfBytes, pow_zero, Nat.mod_one]
  | succ k ih =>
    have hmod : n % (256 * 256 ^ k) = n % 256 + 256 * (n / 256 % 256 ^ k) := Nat.mod_mul
    rw [bytesOfNat, natOfBytes, ih, BitVec.toNat_ofNat, pow_succ' 256 k, hmod]

/-- The bits of a value of type `T`. -/
@[reducible] def Width.bits : Width → ℕ
  | u32 => 32
  | u64 => 64

theorem Width.pow_bits (w : Width) : 256 ^ w.bytes = 2 ^ w.bits := by cases w <;> rfl

/-- A value of type `T` as a number. -/
abbrev Num (w : Width) := BitVec w.bits

namespace Num

variable {w : Width}

def ofBytes (w : Width) (l : List Byte) : Num w := BitVec.ofNat _ (natOfBytes l)

def bytes (x : Num w) : Value w := ⟨bytesOfNat w.bytes x.toNat, length_bytesOfNat ..⟩

/-- A number is read back from its bytes. -/
@[simp] theorem ofBytes_bytes (x : Num w) : ofBytes w x.bytes.val = x := by
  apply BitVec.eq_of_toNat_eq
  rw [ofBytes, bytes, natOfBytes_bytesOfNat, BitVec.toNat_ofNat, w.pow_bits, Nat.mod_mod,
    Nat.mod_eq_of_lt x.isLt]

end Num

/-! ## Variables -/

instance {g : Segments} {a : Word} : Decidable (g.InHeap a) :=
  decidable_of_iff (Unlocked a ∧ nodeFromAddress a < g.nodes ∧
      (g.objectsAddr (nodeFromAddress a)).toNat ≤ (addrFromAddress a).toNat ∧
      (addrFromAddress a).toNat <
        (g.objectsAddr (nodeFromAddress a)).toNat + OBJECTS_COUNT * cellSize)
    ⟨fun ⟨h₁, h₂, h₃, h₄⟩ => ⟨h₁, h₂, h₃, h₄⟩, fun h => ⟨h.untagged, h.node_lt, h.ge, h.lt⟩⟩

/-- Variables of objects that do not overlap. -/
structure Vars (g : Segments) (F : Type*) where
  addr : F → Word
  width : F → Width
  inHeap : ∀ f, g.InHeap (addr f)
  aligned : ∀ f, (addr f).toNat % (width f).bytes = 0
  apart : ∀ f f', f ≠ f' → (addr f).toNat + (width f).bytes ≤ (addr f').toNat ∨
    (addr f').toNat + (width f').bytes ≤ (addr f).toNat

namespace Vars

variable {g : Segments} {F : Type*} (V : Vars g F)

def access (f : F) : Access g := ⟨V.addr f, V.width f, V.inHeap f, V.aligned f⟩

/-- The value of a variable. -/
def get (m : Flat) (f : F) : Num (V.width f) :=
  .ofBytes _ (m.load (V.addr f) (V.width f).bytes)

/-- A variable has the value that was stored last in it. -/
theorem get_store [DecidableEq F] (m : Flat) (f : F) (x : Num (V.width f)) :
    V.get (m.store (V.addr f) x.bytes) = Function.update (V.get m) f x := by
  funext f'
  by_cases hf : f' = f
  · subst hf
    have hsame := Flat.load_store_same (V.access f') m x.bytes.2
    rw [Function.update_self, get]
    exact (congrArg _ hsame).trans (Num.ofBytes_bytes x)
  · rw [Function.update_of_ne hf, get, get]
    exact congrArg _ (Flat.load_store_ne (V.access f) (V.access f') m x.bytes.2
      (V.apart f f' (Ne.symm hf)))

end Vars

/-! ## Accesses of a block -/

abbrev Code (g : Segments) (R : Type*) := Prog (Op g) (List Byte) R

section
variable {g : Segments} {R : Type*}

/-- A value is loaded from `addr`. -/
def load (w : Width) (addr : Word) (k : Num w → Code g R) : Code g R :=
  if h : g.InHeap addr ∧ addr.toNat % w.bytes = 0 then
    .call (.read ⟨addr, w, h.1, h.2⟩) fun v => k (.ofBytes w v)
  else .fault

/-- `x` is stored at `addr`. -/
def store (w : Width) (addr : Word) (x : Num w) (k : Code g R) : Code g R :=
  if h : g.InHeap addr ∧ addr.toNat % w.bytes = 0 then
    .call (.write ⟨addr, w, h.1, h.2⟩ x.bytes) fun _ => k
  else .fault

variable {F : Type*} (V : Vars g F) {m : Flat} {f : F} {Q : R → Flat → Prop}

/-- A load at the address of a variable gives its value. -/
theorem Vars.wp_load {k : Num (V.width f) → Code g R} :
    (load (V.width f) (V.addr f) k).wp (flatMemory g) Q m ↔
      (k (V.get m f)).wp (flatMemory g) Q m := by
  rw [load, dif_pos ⟨V.inHeap f, V.aligned f⟩]
  exact Iff.rfl

/-- A store at the address of a variable sets its bytes. -/
theorem Vars.wp_store {x : Num (V.width f)} {k : Code g R} :
    (store (V.width f) (V.addr f) x k).wp (flatMemory g) Q m ↔
      k.wp (flatMemory g) Q (m.store (V.addr f) x.bytes) := by
  rw [store, dif_pos ⟨V.inHeap f, V.aligned f⟩]
  exact Iff.rfl

end

end DstmP1
