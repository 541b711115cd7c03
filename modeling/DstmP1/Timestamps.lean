import Mathlib.Data.BitVec
import Mathlib.Tactic

/-!
# Timestamps

A lock word is 64 bits: the lock bit (bit 63), the number of the node that installed the
version (bits 48 to 62) and the version number (bits 0 to 47). The accessors and the three
comparisons are those of `dstm_timestamps.h` and `dstm_timestamps.cpp`; the lock handler
compares whole words instead, so the module ends with what a comparison of whole words says
about the fields.

`ver` is the version number as a natural number, `Unlocked` the clear lock bit.
-/

namespace DstmP1

/-- `uint64_t` and `uintptr_t`. -/
abbrev Word := BitVec 64

/-! ## Fields -/

/-- `LOCKBIT_TS`. -/
def lockbitTs (x : Word) : Word := x >>> 63

/-- `NODE_TS`. -/
def nodeTs (x : Word) : Word := (x >>> 48) &&& 0x7fff

/-- `VERSION_TS`. -/
def versionTs (x : Word) : Word := x &&& 0xffffffffffff

/-- `TO_NODE_TS`. -/
def toNodeTs (x : Word) : Word := (x &&& 0x7fff) <<< 48

/-- `(uint64_t)1 << 63`. -/
def lockBit : Word := 1 <<< 63

/-- `LOCKBIT_TS(x)` as a condition. -/
def isLocked (x : Word) : Bool := lockbitTs x != 0

/-- `isTimestampsEquivalent`: the same node and version, the lock bit ignored. -/
def isTimestampsEquivalent (ts₁ ts₂ : Word) : Bool :=
  nodeTs ts₁ == nodeTs ts₂ && versionTs ts₁ == versionTs ts₂

/-- `isTimestampsEqual`: the same version. -/
def isTimestampsEqual (ts₁ ts₂ : Word) : Bool := versionTs ts₁ == versionTs ts₂

/-- `isTimestampGreater`: a greater version, node and lock bit ignored. -/
def isTimestampGreater (ts₁ ts₂ : Word) : Bool := decide (versionTs ts₂ < versionTs ts₁)

/-! ## Fields as natural numbers -/

/-- The lock bit is bit 63. -/
theorem lockbitTs_toNat (x : Word) : (lockbitTs x).toNat = x.toNat / 2 ^ 63 := by
  rw [lockbitTs, BitVec.toNat_ushiftRight, Nat.shiftRight_eq_div_pow]

/-- The node field is bits 48 to 62. -/
theorem nodeTs_toNat (x : Word) : (nodeTs x).toNat = x.toNat / 2 ^ 48 % 2 ^ 15 := by
  rw [nodeTs, BitVec.toNat_and, show (0x7fff : Word).toNat = 2 ^ 15 - 1 from rfl,
    Nat.and_two_pow_sub_one_eq_mod, BitVec.toNat_ushiftRight, Nat.shiftRight_eq_div_pow]

/-- The version field is the low 48 bits. -/
theorem versionTs_toNat (x : Word) : (versionTs x).toNat = x.toNat % 2 ^ 48 := by
  rw [versionTs, BitVec.toNat_and, show (0xffffffffffff : Word).toNat = 2 ^ 48 - 1 from rfl,
    Nat.and_two_pow_sub_one_eq_mod]

/-- A node number is cut to 15 bits. -/
theorem toNodeTs_toNat (x : Word) : (toNodeTs x).toNat = x.toNat % 2 ^ 15 * 2 ^ 48 := by
  rw [toNodeTs, BitVec.toNat_shiftLeft, BitVec.toNat_and,
    show (0x7fff : Word).toNat = 2 ^ 15 - 1 from rfl, Nat.and_two_pow_sub_one_eq_mod,
    Nat.shiftLeft_eq]
  omega

/-- The version number of a timestamp. -/
def ver (x : Word) : ℕ := x.toNat % 2 ^ 48

/-- The lock bit is clear. -/
def Unlocked (x : Word) : Prop := x.toNat < 2 ^ 63

instance (x : Word) : Decidable (Unlocked x) := inferInstanceAs (Decidable (_ < _))

theorem versionTs_toNat_ver (x : Word) : (versionTs x).toNat = ver x := versionTs_toNat x

/-- A word passes the test of the lock bit if bit 63 is clear. -/
theorem isLocked_eq_false {x : Word} : isLocked x = false ↔ Unlocked x := by
  have h := lockbitTs_toNat x
  have hlt := x.isLt
  rw [isLocked, bne_eq_false_iff_eq, Unlocked, ← BitVec.toNat_inj]
  rw [h, show (0 : Word).toNat = 0 from rfl]
  omega

theorem isLocked_eq_true {x : Word} : isLocked x = true ↔ ¬ Unlocked x := by
  rw [← isLocked_eq_false, Bool.not_eq_false]

/-- `isTimestampGreater` compares versions only. -/
theorem isTimestampGreater_iff {a b : Word} : isTimestampGreater a b = true ↔ ver b < ver a := by
  rw [isTimestampGreater, decide_eq_true_iff, BitVec.lt_def, versionTs_toNat, versionTs_toNat]
  rfl

theorem isTimestampGreater_eq_false {a b : Word} :
    isTimestampGreater a b = false ↔ ver a ≤ ver b := by
  rw [← Bool.not_eq_true, isTimestampGreater_iff, Nat.not_lt]

/-- `isTimestampsEquivalent` compares node and version, not the lock bit. -/
theorem isTimestampsEquivalent_iff {a b : Word} :
    isTimestampsEquivalent a b = true ↔ nodeTs a = nodeTs b ∧ ver a = ver b := by
  rw [isTimestampsEquivalent, Bool.and_eq_true, beq_iff_eq, beq_iff_eq, ← BitVec.toNat_inj
    (x := versionTs a), versionTs_toNat, versionTs_toNat]
  rfl

theorem isTimestampsEquivalent_refl (a : Word) : isTimestampsEquivalent a a = true :=
  isTimestampsEquivalent_iff.2 ⟨rfl, rfl⟩

theorem ver_lt (x : Word) : ver x < 2 ^ 48 := Nat.mod_lt _ (by decide)

@[simp] theorem ver_zero : ver 0 = 0 := rfl

/-- The node field as the number of a node. -/
def nodeOfTs (x : Word) : ℕ := (nodeTs x).toNat

theorem nodeOfTs_eq (x : Word) : nodeOfTs x = x.toNat / 2 ^ 48 % 2 ^ 15 := nodeTs_toNat x

/-- Two unlocked timestamps with the same node and version are the same word. -/
theorem Unlocked.eq_of_equivalent {a b : Word} (ha : Unlocked a) (hb : Unlocked b)
    (h : isTimestampsEquivalent a b = true) : a = b := by
  obtain ⟨hn, hv⟩ := isTimestampsEquivalent_iff.1 h
  have hn' := congrArg BitVec.toNat hn
  rw [nodeTs_toNat, nodeTs_toNat] at hn'
  unfold Unlocked ver at *
  apply BitVec.eq_of_toNat_eq
  omega

/-! ## The lock bit -/

/-- Setting the lock bit adds `2 ^ 63`. -/
theorem or_lockBit_toNat {x : Word} (h : Unlocked x) :
    (x ||| lockBit).toNat = x.toNat + 2 ^ 63 := by
  rw [BitVec.toNat_or, Nat.or_comm, show lockBit.toNat = 2 ^ 63 * 1 from rfl,
    ← Nat.two_pow_add_eq_or_of_lt h]
  omega

/-- Setting the lock bit locks the word. -/
theorem isLocked_or_lockBit (x : Word) : isLocked (x ||| lockBit) = true := by
  rw [isLocked_eq_true, Unlocked, Nat.not_lt, BitVec.toNat_or, show lockBit.toNat = 2 ^ 63 from rfl]
  exact Nat.right_le_or

/-- Setting the lock bit keeps the version. -/
@[simp] theorem ver_or_lockBit (x : Word) : ver (x ||| lockBit) = ver x := by
  have hb : lockBit &&& (0xffffffffffff : Word) = 0#64 := by decide
  have h : versionTs (x ||| lockBit) = versionTs x := by
    rw [versionTs, BitVec.and_or_distrib_right, hb, BitVec.or_zero, versionTs]
  have h' := congrArg BitVec.toNat h
  rwa [versionTs_toNat_ver, versionTs_toNat_ver] at h'

/-- Setting the lock bit keeps the node field. -/
@[simp] theorem nodeOfTs_or_lockBit {x : Word} (h : Unlocked x) :
    nodeOfTs (x ||| lockBit) = nodeOfTs x := by
  rw [nodeOfTs_eq, nodeOfTs_eq, or_lockBit_toNat h]
  unfold Unlocked at h
  omega

/-! ## Fresh timestamps -/

/-- `TO_NODE_TS(gasnet_mynode()) | new_clock`, the timestamp a commit installs. -/
def newVersion (node : ℕ) (clock : Word) : Word := toNodeTs (BitVec.ofNat 64 node) ||| clock

/-- The number of a new version: the node, cut to 15 bits, above the clock. -/
theorem newVersion_toNat (node : ℕ) {clock : Word} (h : clock.toNat < 2 ^ 48) :
    (newVersion node clock).toNat = node % 2 ^ 15 * 2 ^ 48 + clock.toNat := by
  rw [newVersion, BitVec.toNat_or, toNodeTs_toNat, BitVec.toNat_ofNat, Nat.mul_comm,
    ← Nat.two_pow_add_eq_or_of_lt h]
  omega

/-- A new version is unlocked, as long as the clock has 48 bits. -/
theorem unlocked_newVersion {node : ℕ} {clock : Word} (h : clock.toNat < 2 ^ 48) :
    Unlocked (newVersion node clock) := by
  have := newVersion_toNat node h
  unfold Unlocked
  omega

/-- A new version has the clock as its version. -/
theorem ver_newVersion {node : ℕ} {clock : Word} (h : clock.toNat < 2 ^ 48) :
    ver (newVersion node clock) = clock.toNat := by
  have := newVersion_toNat node h
  unfold ver
  omega

/-- A new version has the node, cut to 15 bits, in its node field. -/
theorem nodeOfTs_newVersion {node : ℕ} {clock : Word} (h : clock.toNat < 2 ^ 48) :
    nodeOfTs (newVersion node clock) = node % 2 ^ 15 := by
  have := newVersion_toNat node h
  rw [nodeOfTs_eq]
  omega

/-! ## Whole words compared -/

/-- A locked word is greater than every unlocked one: the handler never grants a held lock. -/
theorem Unlocked.lt_locked {a b : Word} (ha : Unlocked a) (hb : isLocked b = true) : a < b := by
  rw [isLocked_eq_true] at hb
  rw [BitVec.lt_def]
  unfold Unlocked at *
  omega

/-- On words of one node the whole-word comparison is the comparison of the versions. -/
theorem Unlocked.lt_iff_of_node {a b : Word} (ha : Unlocked a) (hb : Unlocked b)
    (h : nodeTs a = nodeTs b) : a < b ↔ ver a < ver b := by
  have h' := congrArg BitVec.toNat h
  rw [nodeTs_toNat, nodeTs_toNat] at h'
  rw [BitVec.lt_def]
  unfold Unlocked ver at *
  omega

/-- On words of two nodes the node field alone decides, whatever the versions: a word with a
smaller node field is smaller even when its version is the newer one. -/
theorem Unlocked.lt_iff_of_ne_node {a b : Word} (ha : Unlocked a) (hb : Unlocked b)
    (h : nodeOfTs a ≠ nodeOfTs b) : a < b ↔ nodeOfTs a < nodeOfTs b := by
  rw [BitVec.lt_def]
  rw [nodeOfTs_eq, nodeOfTs_eq] at h ⊢
  unfold Unlocked at *
  omega

example : (newVersion 0 2 : Word) < newVersion 1 1 := by decide

end DstmP1
