import DstmP1.BuddyRefines
import DstmP1.Lib.Loop

/-!
# Requests of any size

`buddy_alloc` takes an `int` and rounds it as a `uint32_t`; for a negative request, or one above
`2 ^ 30`, the rounded size is `0` or `-2 ^ 31` as an `int`. It passes the one comparison with the
length of the array, and no node has that length: as long as a cell is free, the search goes down
below the leaves (`ends_outside`). For the other requests every index is in the array, whatever the
marks are (`ends_of_allocLoop`), and the search is that of `Buddy.alloc`. So `buddy_alloc` is safe
exactly when the request is in range or no cell is free (`buddyAlloc_safe_iff`).

Here the search is written with the integers of the code, and every mark that is read or written is
looked for in the array. An index that the array does not have ends the call.
-/

namespace DstmP1

/-- How `buddy_alloc` ends: it returns, or it uses an index that the array does not have. -/
inductive AllocEnd where
  | returned (tree : ℕ → NodeMark) (r : ℤ)
  | outside (index : ℤ)

namespace Checked

/-! ## Accesses -/

/-- The array of a tree has `2 ^ (level + 1) - 1` marks. -/
def InArray (level : ℕ) (index : ℤ) : Prop := 0 ≤ index ∧ index ≤ 2 ^ (level + 1) - 2

instance (level : ℕ) (index : ℤ) : Decidable (InArray level index) :=
  inferInstanceAs (Decidable (_ ∧ _))

/-- `self->tree[index]` is read. -/
def readMark (level : ℕ) (tree : ℕ → NodeMark) (index : ℤ) : Except AllocEnd NodeMark :=
  if InArray level index then .ok (tree index.toNat) else .error (.outside index)

/-- `self->tree[index]` is written. -/
def writeMark (level : ℕ) (tree : ℕ → NodeMark) (index : ℤ) (mark : NodeMark) :
    Except AllocEnd (ℕ → NodeMark) :=
  if InArray level index then .ok (Function.update tree index.toNat mark)
  else .error (.outside index)

/-! ## The search -/

/-- The variables of `buddy_alloc`. -/
structure Search where
  tree : ℕ → NodeMark
  index : ℤ
  level : ℤ
  length : ℤ

/-- `_index_offset` -/
def indexOffset (index level : ℤ) (maxLevel : ℕ) : ℤ :=
  (index + 1 - 2 ^ level.toNat) * 2 ^ (maxLevel - level).toNat

/-- `_mark_parent` -/
def markParent (maxLevel : ℕ) (tree : ℕ → NodeMark) (index : ℤ) :
    Except AllocEnd (ℕ → NodeMark) :=
  let buddy := index - 1 + index % 2 * 2
  if _h : buddy > 0 then do
    let mark ← readMark maxLevel tree buddy
    if mark = .USED ∨ mark = .FULL then do
      let tree ← writeMark maxLevel tree ((index + 1) / 2 - 1) .FULL
      markParent maxLevel tree ((index + 1) / 2 - 1)
    else return tree
  else return tree
termination_by index.toNat
decreasing_by omega

/-- The inner loop of `buddy_alloc`. -/
def climb (s : Search) : Except AllocEnd Search :=
  let level := s.level - 1
  let length := s.length * 2
  let index := (s.index + 1) / 2 - 1
  if _h : index < 0 then throw (.returned s.tree (-1))
  else if index % 2 = 1 then return ⟨s.tree, index + 1, level, length⟩
  else climb ⟨s.tree, index, level, length⟩
termination_by s.index.toNat
decreasing_by omega

/-- What follows the `switch`. -/
def skip (s : Search) : Except AllocEnd Search :=
  if s.index % 2 = 1 then return { s with index := s.index + 1 } else climb s

/-- The outer loop of `buddy_alloc`. -/
def turn (maxLevel : ℕ) (size : ℤ) (s : Search) : Except AllocEnd Search :=
  if s.index ≥ 0 then do
    let mark ← readMark maxLevel s.tree s.index
    if size = s.length then
      if mark = .UNUSED then do
        let tree ← writeMark maxLevel s.tree s.index .USED
        let tree ← markParent maxLevel tree s.index
        throw (.returned tree (indexOffset s.index s.level maxLevel))
      else skip s
    else
      match mark with
      | .USED | .FULL => skip s
      | .UNUSED => do
        let tree ← writeMark maxLevel s.tree s.index .SPLIT
        let tree ← writeMark maxLevel tree (s.index * 2 + 1) .UNUSED
        let tree ← writeMark maxLevel tree (s.index * 2 + 2) .UNUSED
        return ⟨tree, s.index * 2 + 1, s.level + 1, s.length / 2⟩
      | .SPLIT => return ⟨s.tree, s.index * 2 + 1, s.level + 1, s.length / 2⟩
  else throw (.returned s.tree (-1))

/-- `size`, an `int` that `next_pow_of_2` has returned as a `uint32_t`. -/
def sizeOf (s : BitVec 32) : ℤ :=
  if s = 0 then 1 else (BitVec.ofNat 32 (nextPowOf2 s.toNat)).toInt

/-- The search starts at the root. -/
def start (self : Buddy) : Search := ⟨self.tree, 0, 0, 2 ^ self.level⟩

/-- `buddy_alloc`, in at most so many turns. -/
def alloc (turns : ℕ) (self : Buddy) (s : BitVec 32) : Option AllocEnd :=
  if sizeOf s > 2 ^ self.level then some (.returned self.tree (-1))
  else loop (turn self.level (sizeOf s)) turns (start self)

/-! ## What is claimed -/

/-- The request asks for no more units than there are. -/
def Fits (self : Buddy) (s : BitVec 32) : Prop := 0 ≤ s.toInt ∧ s.toInt ≤ 2 ^ self.level

instance (self : Buddy) (s : BitVec 32) : Decidable (Fits self s) :=
  inferInstanceAs (Decidable (_ ∧ _))

/-- The search ends, all indices are in the array, and when the request does not fit the result is
`-1` and the tree is as before. -/
def Safe (self : Buddy) (s : BitVec 32) : Prop :=
  ∃ turns tree r, alloc turns self s = some (.returned tree r) ∧
    (¬ Fits self s → r = -1 ∧ tree = self.tree)

/-- No cell is free. -/
def Full (self : Buddy) : Prop := self.tree 0 = .USED ∨ self.tree 0 = .FULL

/-- The request is a size that rounding keeps. -/
def InRange (s : BitVec 32) : Prop := 0 ≤ s.toInt ∧ s.toInt ≤ 2 ^ 30

/-! ## Indices in the array -/

variable {maxLevel k level length index : ℕ} {tree : ℕ → NodeMark} {size : ℤ}

theorem inArray_iff : InArray level (index : ℤ) ↔ index + 2 ≤ 2 ^ (level + 1) := by
  have hpow : ((2 ^ (level + 1) : ℕ) : ℤ) = 2 ^ (level + 1) := by push_cast; rfl
  rw [InArray, ← hpow]
  omega

theorem readMark_of_le (h : index + 2 ≤ 2 ^ (level + 1)) (tree : ℕ → NodeMark) :
    readMark level tree index = .ok (tree index) := by
  rw [readMark, if_pos (inArray_iff.2 h), Int.toNat_natCast]

theorem writeMark_of_le (h : index + 2 ≤ 2 ^ (level + 1)) (tree : ℕ → NodeMark) (mark : NodeMark) :
    writeMark level tree index mark = .ok (Function.update tree index mark) := by
  rw [writeMark, if_pos (inArray_iff.2 h), Int.toNat_natCast]

theorem writeMark_of_lt (h : 2 ^ (level + 1) < index + 2) (tree : ℕ → NodeMark) (mark : NodeMark) :
    writeMark level tree index mark = .error (.outside index) := by
  rw [writeMark, if_neg fun hin => absurd (inArray_iff.1 hin) (Nat.not_le.2 h)]

/-- The sibling of a node is in the array. -/
theorem sibling_le (h : index + 2 ≤ 2 ^ (maxLevel + 1)) :
    Buddy.sibling index + 2 ≤ 2 ^ (maxLevel + 1) := by
  rw [pow_succ] at h ⊢
  rw [Buddy.sibling]
  omega

theorem cast_sibling (h0 : index ≠ 0) :
    (index : ℤ) - 1 + index % 2 * 2 = (Buddy.sibling index : ℕ) := by
  rw [Buddy.sibling]
  omega

theorem cast_parent (h0 : index ≠ 0) :
    ((index : ℤ) + 1) / 2 - 1 = (Buddy.parent index : ℕ) := by
  rw [Buddy.parent]
  omega

/-- `_mark_parent` goes on as long as the sibling has no room. -/
theorem markParent_step (h0 : index ≠ 0) (h : index + 2 ≤ 2 ^ (maxLevel + 1))
    (tree : ℕ → NodeMark) : markParent maxLevel tree index =
      if tree (Buddy.sibling index) = .USED ∨ tree (Buddy.sibling index) = .FULL then
        markParent maxLevel (Function.update tree (Buddy.parent index) .FULL)
          (Buddy.parent index : ℕ)
      else .ok tree := by
  have hpar := Buddy.parent_lt h0
  rw [markParent, cast_sibling h0, cast_parent h0,
    dif_pos (by rw [Buddy.sibling]; omega), readMark_of_le (sibling_le h),
    writeMark_of_le (by omega)]
  rfl

/-- `_mark_parent` stays in the array. -/
theorem markParent_eq (h : index + 2 ≤ 2 ^ (maxLevel + 1)) (tree : ℕ → NodeMark) :
    markParent maxLevel tree index = .ok (Buddy.markParent tree index) := by
  induction tree, index using Buddy.markParent.induct with
  | case1 tree =>
    rw [markParent, Buddy.markParent]
    rfl
  | case2 tree index h0 hmark ih =>
    have hpar := Buddy.parent_lt h0
    rw [markParent_step h0 h, Buddy.markParent, dif_neg h0, if_pos hmark, if_pos hmark]
    exact ih (by omega)
  | case3 tree index h0 hmark =>
    rw [markParent_step h0 h, Buddy.markParent, dif_neg h0, if_neg hmark, if_neg hmark]

/-- A node of the layer `level`, whose length is a power of two, not shorter than a block. -/
structure Layer (maxLevel k index level length : ℕ) : Prop where
  lower : 2 ^ level ≤ index + 1
  upper : index + 2 ≤ 2 ^ (level + 1)
  le : k + level ≤ maxLevel
  length : length = 2 ^ (maxLevel - level)

/-- How the search goes on after a node without room, in the integers of the code. -/
def follow (tree : ℕ → NodeMark) : Option (ℕ × ℕ × ℕ) → Except AllocEnd Search
  | none => .error (.returned tree (-1))
  | some (index, level, length) => .ok ⟨tree, index, level, length⟩

namespace Layer

theorem root (hk : k ≤ maxLevel) : Layer maxLevel k 0 0 (2 ^ maxLevel) :=
  ⟨Nat.le_refl _, Nat.le_refl _, hk, rfl⟩

/-- Nodes of a layer are in the array. -/
theorem le_array (h : Layer maxLevel k index level length) : index + 2 ≤ 2 ^ (maxLevel + 1) := by
  have hle := h.le
  exact h.upper.trans (Nat.pow_le_pow_right Nat.two_pos (by omega))

/-- Left children have right siblings. -/
theorem right (h : Layer maxLevel k index level length) (hodd : index % 2 = 1) :
    Layer maxLevel k (index + 1) level length := by
  obtain ⟨hlower, hupper, hle, hlength⟩ := h
  refine ⟨by omega, ?_, hle, hlength⟩
  rw [pow_succ] at hupper ⊢
  omega

/-- The parent is in the layer above. -/
theorem parent (h : Layer maxLevel k index level length) (h0 : index ≠ 0) :
    1 ≤ level ∧ Layer maxLevel k (Buddy.parent index) (level - 1) (length * 2) := by
  obtain ⟨hlower, hupper, hle, hlength⟩ := h
  cases level with
  | zero =>
    rw [zero_add, pow_one] at hupper
    omega
  | succ level =>
    have hpow : 2 ^ (level + 1) = 2 ^ level * 2 := pow_succ ..
    refine ⟨Nat.le_add_left 1 level, ?_, ?_, by omega, ?_⟩
    · rw [Buddy.parent, Nat.add_sub_cancel]
      omega
    · rw [pow_succ] at hupper
      rw [Buddy.parent, Nat.add_sub_cancel]
      omega
    · rw [hlength, ← pow_succ, Nat.add_sub_cancel]
      congr 1
      omega

/-- The left child of a node that is longer than a block is in the layer below. -/
theorem left (h : Layer maxLevel k index level length) (hne : 2 ^ k ≠ length) :
    Layer maxLevel k (index * 2 + 1) (level + 1) (length / 2) := by
  obtain ⟨hlower, hupper, hle, hlength⟩ := h
  have hlt : k + level ≠ maxLevel := fun he => hne (by rw [hlength, ← he, Nat.add_sub_cancel])
  refine ⟨?_, ?_, by omega, ?_⟩
  · rw [pow_succ]
    omega
  · rw [pow_succ] at hupper ⊢
    rw [pow_succ]
    omega
  · rw [hlength, show maxLevel - level = maxLevel - (level + 1) + 1 by omega, pow_succ,
      Nat.mul_div_cancel _ Nat.two_pos]

end Layer

/-! ## The search stays in the array -/

/-- The climb is that of `Buddy.climb`, and ends in the layers above. -/
theorem climb_eq (tree : ℕ → NodeMark) (h : Layer maxLevel k index level length) :
    climb ⟨tree, index, level, length⟩ = follow tree (Buddy.climb index level length) ∧
      ∀ p, Buddy.climb index level length = some p → Layer maxLevel k p.1 p.2.1 p.2.2 := by
  induction index, level, length using Buddy.climb.induct with
  | case1 level length =>
    rw [climb, Buddy.climb, dif_pos rfl]
    refine ⟨rfl, fun p hp => ?_⟩
    cases hp
  | case2 index level length h0 hodd =>
    obtain ⟨h1, hup⟩ := h.parent h0
    have hcast : ((Buddy.parent index : ℕ) : ℤ) % 2 = 1 := by omega
    rw [climb, Buddy.climb, dif_neg h0, if_pos hodd]
    dsimp only
    rw [cast_parent h0, dif_neg (by omega), if_pos hcast]
    refine ⟨?_, fun p hp => ?_⟩
    · rw [follow, Nat.cast_succ, Nat.cast_mul, Int.ofNat_sub h1]
      rfl
    · cases hp
      exact hup.right hodd
  | case3 index level length h0 hodd ih =>
    obtain ⟨h1, hup⟩ := h.parent h0
    have hcast : ¬ ((Buddy.parent index : ℕ) : ℤ) % 2 = 1 := by omega
    rw [climb, Buddy.climb, dif_neg h0, if_neg hodd]
    dsimp only
    rw [cast_parent h0, dif_neg (by omega), if_neg hcast]
    have hgo := ih hup
    rw [Nat.cast_mul, Int.ofNat_sub h1] at hgo
    exact hgo

/-- From a node without room the search goes on in a layer, or returns. -/
theorem skip_eq (tree : ℕ → NodeMark) (h : Layer maxLevel k index level length) :
    skip ⟨tree, index, level, length⟩ = follow tree (Buddy.skip index level length) ∧
      ∀ p, Buddy.skip index level length = some p → Layer maxLevel k p.1 p.2.1 p.2.2 := by
  rw [skip, Buddy.skip]
  dsimp only
  rcases Nat.mod_two_eq_zero_or_one index with heven | hodd
  · rw [if_neg (by omega), if_neg (by omega)]
    exact climb_eq tree h
  · rw [if_pos (by omega), if_pos hodd]
    refine ⟨rfl, fun p hp => ?_⟩
    cases hp
    exact h.right hodd

/-- An offset in the integers of the code. -/
theorem indexOffset_eq (h : Layer maxLevel k index level length) :
    indexOffset index level maxLevel = (Buddy.indexOffset index level maxLevel : ℕ) := by
  have hlower := h.lower
  have hle := h.le
  rw [indexOffset, Buddy.indexOffset, Int.toNat_natCast, ← Int.ofNat_sub (by omega),
    Int.toNat_natCast, Nat.cast_mul, Int.ofNat_sub hlower]
  push_cast
  rfl

/-! ## Turns -/

/-- A node of the length that is looked for is taken. -/
theorem turn_take (h : index + 2 ≤ 2 ^ (maxLevel + 1)) (hmark : tree index = .UNUSED)
    (level : ℤ) (length : ℤ) : turn maxLevel length ⟨tree, index, level, length⟩ =
      .error (.returned (Buddy.markParent (Function.update tree index .USED) index)
        (indexOffset index level maxLevel)) := by
  rw [turn]
  dsimp only
  rw [if_pos (Int.natCast_nonneg index), readMark_of_le h, writeMark_of_le h]
  show (if length = length then _ else _) = _
  rw [if_pos rfl, if_pos hmark]
  show (markParent maxLevel _ _ >>= _) = _
  rw [markParent_eq h]
  rfl

/-- A node of that length that is not free is passed over. -/
theorem turn_pass (h : index + 2 ≤ 2 ^ (maxLevel + 1)) (hmark : tree index ≠ .UNUSED)
    (level : ℤ) (length : ℤ) : turn maxLevel length ⟨tree, index, level, length⟩ =
      skip ⟨tree, index, level, length⟩ := by
  rw [turn]
  dsimp only
  rw [if_pos (Int.natCast_nonneg index), readMark_of_le h]
  show (if length = length then _ else _) = _
  rw [if_pos rfl, if_neg hmark]

/-- A longer node without a free cell is passed over. -/
theorem turn_full (h : index + 2 ≤ 2 ^ (maxLevel + 1)) (hmark : tree index = .USED ∨
    tree index = .FULL) (level : ℤ) {length : ℤ} (hne : size ≠ length) :
    turn maxLevel size ⟨tree, index, level, length⟩ = skip ⟨tree, index, level, length⟩ := by
  rw [turn]
  dsimp only
  rw [if_pos (Int.natCast_nonneg index), readMark_of_le h]
  show (if size = length then _ else _) = _
  rw [if_neg hne]
  rcases hmark with hmark | hmark
  · rw [hmark]
  · rw [hmark]

/-- The search goes down from a node that is split. -/
theorem turn_split (h : index + 2 ≤ 2 ^ (maxLevel + 1)) (hmark : tree index = .SPLIT)
    (level : ℤ) {length : ℤ} (hne : size ≠ length) :
    turn maxLevel size ⟨tree, index, level, length⟩ =
      .ok ⟨tree, (index * 2 + 1 : ℕ), level + 1, length / 2⟩ := by
  rw [turn]
  dsimp only
  rw [if_pos (Int.natCast_nonneg index), readMark_of_le h]
  show (if size = length then _ else _) = _
  rw [if_neg hne, hmark, Nat.cast_succ, Nat.cast_mul]
  rfl

/-- An unused node that is longer is split, and its children have to be in the array. -/
theorem turn_unused (h : index + 2 ≤ 2 ^ (maxLevel + 1)) (hmark : tree index = .UNUSED)
    (level : ℤ) {length : ℤ} (hne : size ≠ length) :
    turn maxLevel size ⟨tree, index, level, length⟩ =
      if index * 2 + 4 ≤ 2 ^ (maxLevel + 1) then
        .ok ⟨Buddy.splitNode tree index, (index * 2 + 1 : ℕ), level + 1, length / 2⟩
      else .error (.outside (index * 2 + 1 : ℕ)) := by
  have hl : (index : ℤ) * 2 + 1 = (index * 2 + 1 : ℕ) := by push_cast; rfl
  have hr : (index : ℤ) * 2 + 2 = (index * 2 + 2 : ℕ) := by push_cast; rfl
  have hpow : 2 ^ (maxLevel + 1) = 2 ^ maxLevel * 2 := pow_succ ..
  rw [turn]
  dsimp only
  rw [if_pos (Int.natCast_nonneg index), readMark_of_le h, hl, hr]
  show (if size = length then _ else _) = _
  rw [if_neg hne, hmark]
  show (writeMark maxLevel tree index .SPLIT >>= _) = _
  rw [writeMark_of_le h]
  show (writeMark maxLevel _ (index * 2 + 1 : ℕ) .UNUSED >>= _) = _
  rcases Nat.lt_or_ge (2 ^ (maxLevel + 1)) (index * 2 + 4) with hlt | hge
  · rw [if_neg (Nat.not_le.2 hlt), writeMark_of_lt (by omega)]
    rfl
  · rw [if_pos hge, writeMark_of_le (by omega)]
    show (writeMark maxLevel _ (index * 2 + 2 : ℕ) .UNUSED >>= _) = _
    rw [writeMark_of_le (by omega)]
    rfl

/-! ## Requests in range -/

/-- **For a length that nodes have, the search stays in the array**, and is that of
`Buddy.allocLoop`. -/
theorem ends_of_allocLoop {fuel : ℕ} {p : (ℕ → NodeMark) × ℤ}
    (h : Layer maxLevel k index level length)
    (hrun : Buddy.allocLoop maxLevel (2 ^ k) fuel tree index level length = some p) :
    Ends (turn maxLevel (2 ^ k : ℕ)) ⟨tree, index, level, length⟩ (.returned p.1 p.2) := by
  induction fuel generalizing tree index level length with
  | zero => cases hrun
  | succ fuel ih =>
    have hin := h.le_array
    -- a node without room, of either kind
    have hskip : turn maxLevel (2 ^ k : ℕ) ⟨tree, index, level, length⟩ =
        skip ⟨tree, index, level, length⟩ →
        Buddy.resume maxLevel (2 ^ k) fuel tree (Buddy.skip index level length) = some p →
        Ends (turn maxLevel (2 ^ k : ℕ)) ⟨tree, index, level, length⟩ (.returned p.1 p.2) := by
      intro hturn hres
      obtain ⟨hgo, hlayer⟩ := skip_eq tree h
      rw [hgo] at hturn
      cases hs : Buddy.skip index level length with
      | none =>
        rw [hs] at hturn hres
        cases hres
        exact ends_of_error hturn
      | some q =>
        rw [hs] at hturn hres
        exact ends_of_ok hturn (ih (hlayer q hs) hres)
    have hlength := h.length
    have hle := h.le
    obtain ⟨n, hn⟩ : ∃ n, n = maxLevel - level := ⟨_, rfl⟩
    rw [← hn] at hlength
    rcases Nat.lt_or_eq_of_le (show k ≤ n by omega) with hlt | heq
    · have hne : ((2 ^ k : ℕ) : ℤ) ≠ (length : ℕ) := by
        rw [hlength, Ne, Nat.cast_inj]
        exact (Nat.pow_lt_pow_right Nat.one_lt_two hlt).ne
      have hleft := h.left (hlength ▸ (Nat.pow_lt_pow_right Nat.one_lt_two hlt).ne)
      obtain ⟨n, rfl⟩ := Nat.exists_eq_add_of_le' (Nat.one_le_of_lt hlt)
      have hhalf : length / 2 = 2 ^ n := by
        rw [hlength, pow_succ, Nat.mul_div_cancel _ Nat.two_pos]
      rw [hlength] at hrun
      cases hmark : tree index with
      | UNUSED =>
        have hchildren := (hleft.right (by omega)).le_array
        have hturn := turn_unused hin hmark level hne
        rw [if_pos hchildren] at hturn
        rw [Buddy.allocLoop_unused hlt hmark, ← hhalf] at hrun
        exact ends_of_ok hturn (ih hleft hrun)
      | USED =>
        rw [Buddy.allocLoop_full hlt (.inl hmark), ← hlength] at hrun
        exact hskip (turn_full hin (.inl hmark) level hne) hrun
      | SPLIT =>
        rw [Buddy.allocLoop_split hlt hmark, ← hhalf] at hrun
        exact ends_of_ok (turn_split hin hmark level hne) (ih hleft hrun)
      | FULL =>
        rw [Buddy.allocLoop_full hlt (.inr hmark), ← hlength] at hrun
        exact hskip (turn_full hin (.inr hmark) level hne) hrun
    · rw [← heq] at hlength
      subst hlength
      rw [Buddy.allocLoop_eq] at hrun
      split at hrun
      · rename_i hmark
        cases hrun
        have hturn := turn_take hin hmark level (2 ^ k : ℕ)
        rw [indexOffset_eq h] at hturn
        exact ends_of_error hturn
      · rename_i hmark
        exact hskip (turn_pass hin hmark level (2 ^ k : ℕ)) hrun

/-! ## Requests out of range -/

/-- A negative request, or one above `2 ^ 30`, is rounded to zero or to `2 ^ 31`. -/
theorem nextPowOf2_large {x : ℕ} (h : 2 ^ 30 < x) (hx : x < 2 ^ 32) :
    nextPowOf2 x = 0 ∨ nextPowOf2 x = 2 ^ 31 := by
  have h0 : x ≠ 0 := by omega
  rw [nextPowOf2]
  split
  · rename_i hp
    obtain ⟨j, rfl⟩ := (isPowOf2_iff (Nat.pos_of_ne_zero h0) hx).1 hp
    have hj : 30 < j := (Nat.pow_lt_pow_iff_right Nat.one_lt_two).1 h
    have hj' : j < 32 := (Nat.pow_lt_pow_iff_right Nat.one_lt_two).1 hx
    obtain rfl : j = 31 := by omega
    exact .inr rfl
  · rw [smear_all h0 hx, Nat.sub_add_cancel (Nat.two_pow_pos _)]
    have hlog : 30 ≤ Nat.log 2 x := Nat.le_log_of_pow_le Nat.one_lt_two h.le
    have hlog' : Nat.log 2 x < 32 := Nat.log_lt_of_lt_pow h0 hx
    rcases Nat.lt_or_ge (Nat.log 2 x) 31 with hlt | hge
    · obtain hl : Nat.log 2 x = 30 := by omega
      rw [hl]
      exact .inr rfl
    · obtain hl : Nat.log 2 x = 31 := by omega
      rw [hl]
      exact .inl rfl

theorem inRange_iff {s : BitVec 32} : InRange s ↔ s.toNat ≤ 2 ^ 30 := by
  have hlt := s.isLt
  rw [InRange, BitVec.toInt_eq_toNat_cond]
  split
  · omega
  · omega

/-- As an `int` the size is then not positive. -/
theorem sizeOf_large {s : BitVec 32} (h : ¬ InRange s) : sizeOf s ≤ 0 := by
  rw [inRange_iff] at h
  have h0 : s ≠ 0 := by
    rintro rfl
    exact h (Nat.zero_le _)
  rw [sizeOf, if_neg h0]
  rcases nextPowOf2_large (Nat.not_le.1 h) s.isLt with hz | hz
  · rw [hz]
    decide
  · rw [hz]
    decide

/-- The size of a request in range is the length of its block. -/
theorem sizeOf_inRange {s : BitVec 32} (h : InRange s) : sizeOf s = (blockLength s.toNat : ℕ) := by
  rw [inRange_iff] at h
  have hle : blockLength s.toNat ≤ 2 ^ 30 :=
    Nat.pow_le_pow_right Nat.two_pos ((Nat.clog_le_iff_le_pow Nat.one_lt_two).2 h)
  rcases eq_or_ne s 0 with rfl | h0
  · rw [sizeOf, if_pos rfl, ← sizeOf_request h]
    rfl
  · have hnat : s.toNat ≠ 0 := fun hz => h0 (BitVec.eq_of_toNat_eq hz)
    rw [sizeOf, if_neg h0, nextPowOf2_eq hnat h, BitVec.toInt_eq_toNat_cond, BitVec.toNat_ofNat,
      Nat.mod_eq_of_lt (by omega), if_pos (by omega)]

/-- **For a size that is not positive the search leaves the array** as long as a cell is free. -/
theorem ends_outside (hsize : size ≤ 0) {n : ℕ} {t : BuddyTree n} (hrep : Buddy.Rep tree index t)
    (hfull : t.full = false) (h : Layer maxLevel 0 index level (2 ^ n))
    (hn : level + n = maxLevel) :
    ∃ i, Ends (turn maxLevel size) ⟨tree, index, level, (2 ^ n : ℕ)⟩ (.outside i) := by
  have hin := h.le_array
  induction n generalizing tree index level with
  | zero =>
    have hne : size ≠ (2 ^ 0 : ℕ) := by
      rw [pow_zero]
      omega
    cases t with
    | free =>
      -- a free leaf has no children to split into
      have hlower := h.lower
      have hpow : 2 ^ (maxLevel + 1) = 2 ^ maxLevel * 2 := pow_succ ..
      have hturn := turn_unused hin (Buddy.rep_free.1 hrep) level hne
      rw [if_neg (by rw [← hn] at hpow ⊢; rw [Nat.add_zero] at hpow ⊢; omega)] at hturn
      exact ⟨_, ends_of_error hturn⟩
    | used => cases hfull
  | succ n ih =>
    have hpos : 0 < 2 ^ (n + 1) := Nat.two_pow_pos _
    have hne : size ≠ (2 ^ (n + 1) : ℕ) := by omega
    have hhalf : 2 ^ (n + 1) / 2 = 2 ^ n := by rw [pow_succ, Nat.mul_div_cancel _ Nat.two_pos]
    have hcast : ((2 ^ (n + 1) : ℕ) : ℤ) / 2 = (2 ^ n : ℕ) := by
      rw [← hhalf, Int.natCast_ediv]
      rfl
    have hleft := h.left (Nat.one_lt_two_pow (Nat.succ_ne_zero n)).ne
    rw [hhalf] at hleft
    have hright := hleft.right (by omega)
    cases t with
    | free =>
      have hturn := turn_unused hin (Buddy.rep_free.1 hrep) level hne
      rw [if_pos hright.le_array, hcast] at hturn
      obtain ⟨-, hrl, -, -⟩ := Buddy.rep_splitNode (n := n) tree index
      obtain ⟨i, hi⟩ := ih hrl (by rw [BuddyTree.full]) hleft (by omega) hleft.le_array
      exact ⟨i, ends_of_ok hturn hi⟩
    | used => cases hfull
    | node l r =>
      obtain ⟨hmark, hrl, hrr⟩ := Buddy.rep_node.1 hrep
      rw [BuddyTree.full] at hfull
      rw [hfull, if_neg Bool.false_ne_true] at hmark
      have hturn := turn_split hin hmark level hne
      rw [hcast] at hturn
      cases hl : l.full with
      | false =>
        obtain ⟨i, hi⟩ := ih hrl hl hleft (by omega) hleft.le_array
        exact ⟨i, ends_of_ok hturn hi⟩
      | true =>
        -- the left half is passed over
        rw [hl, Bool.true_and] at hfull
        obtain ⟨i, hi⟩ := ih hrr hfull hright (by omega) hright.le_array
        have hne' : size ≠ (2 ^ n : ℕ) := by
          have hpos := Nat.two_pow_pos n
          omega
        have hpass := turn_full hleft.le_array (hrl.full.1 hl) (level + 1 : ℕ) hne'
        rw [(skip_eq tree hleft).1, Buddy.skip_left, follow] at hpass
        exact ⟨i, ends_of_ok hturn (ends_of_ok hpass hi)⟩

/-! ## Calls -/

variable {self : Buddy} {live : Finset (ℕ × ℕ)} {s : BitVec 32} {turns : ℕ} {e : AllocEnd}

/-- A call ends as its search does. -/
theorem alloc_of_ends (h : ¬ sizeOf s > 2 ^ self.level)
    (he : Ends (turn self.level (sizeOf s)) (start self) e) :
    ∃ turns, alloc turns self s = some e := by
  obtain ⟨turns, hturns⟩ := he
  exact ⟨turns, by rw [alloc, if_neg h, hturns]⟩

/-- A call ends in one way, however many turns it may take. -/
theorem alloc_unique {turns' : ℕ} {e' : AllocEnd} (h : alloc turns self s = some e)
    (h' : alloc turns' self s = some e') : e = e' := by
  rw [alloc] at h h'
  split at h
  · rename_i hlt
    rw [if_pos hlt] at h'
    exact Option.some.inj (h.symm.trans h')
  · rename_i hge
    rw [if_neg hge] at h'
    exact Ends.unique ⟨_, h⟩ ⟨_, h'⟩

/-- A request in range is what `Buddy.alloc` says it is. -/
theorem alloc_inRange (hs : InRange s) {self' : Buddy} {r : ℤ}
    (h : self.alloc s.toNat = some (self', r)) : self'.level = self.level ∧
      ∃ turns, alloc turns self s = some (.returned self'.tree r) := by
  have hsize := sizeOf_inRange hs
  rw [Buddy.alloc, sizeOf_request (inRange_iff.1 hs)] at h
  split at h
  · rename_i hlt
    cases h
    refine ⟨rfl, 0, ?_⟩
    rw [alloc, if_pos]
    rw [hsize]
    exact_mod_cast hlt
  · rename_i hge
    obtain ⟨p, hp, he⟩ := Option.map_eq_some_iff.1 h
    cases he
    have hk : Nat.clog 2 s.toNat ≤ self.level :=
      (Nat.pow_le_pow_iff_right Nat.one_lt_two).1 (Nat.not_lt.1 hge)
    have hends := ends_of_allocLoop (Layer.root hk) hp
    refine ⟨rfl, alloc_of_ends ?_ ?_⟩
    · rw [hsize]
      exact_mod_cast hge
    · rw [hsize, start]
      exact_mod_cast hends

/-- A request that is rounded to a size above zero is not longer than its block. -/
theorem fits_of_le (hs : InRange s) (h : blockLength s.toNat ≤ 2 ^ self.level) : Fits self s := by
  have hle : s.toNat ≤ blockLength s.toNat := Nat.le_pow_clog Nat.one_lt_two s.toNat
  have hpow : ((2 ^ self.level : ℕ) : ℤ) = 2 ^ self.level := by push_cast; rfl
  have hrange := inRange_iff.1 hs
  refine ⟨hs.1, ?_⟩
  rw [BitVec.toInt_eq_toNat_cond, if_pos (by omega), ← hpow]
  omega

/-- When no cell is free, a request out of range is refused at the root. -/
theorem alloc_full (hs : ¬ InRange s) (hfull : Full self) :
    alloc 1 self s = some (.returned self.tree (-1)) := by
  have hsize := sizeOf_large hs
  have hpos := Nat.two_pow_pos self.level
  have hcast : ((2 ^ self.level : ℕ) : ℤ) = 2 ^ self.level := Nat.cast_pow 2 self.level
  have hroot : Layer self.level 0 0 0 (2 ^ self.level) := Layer.root (Nat.zero_le _)
  have hturn := turn_full hroot.le_array hfull (0 : ℕ)
    (show sizeOf s ≠ ((2 ^ self.level : ℕ) : ℤ) by omega)
  rw [(skip_eq self.tree hroot).1, Buddy.skip, if_neg (by decide), Buddy.climb, dif_pos rfl,
    follow, hcast] at hturn
  rw [alloc, if_neg (by omega)]
  exact loop_of_error hturn 0

/-- While a cell is free, a request out of range leaves the array. -/
theorem alloc_outside {level : ℕ} (h : Stands level (self, live)) (hs : ¬ InRange s)
    (hfull : ¬ Full self) : ∃ turns i, alloc turns self s = some (.outside i) := by
  obtain ⟨hlevel, t, -, hrep, -⟩ := h
  dsimp only at hlevel hrep
  subst hlevel
  have hsize := sizeOf_large hs
  have hpos := Nat.two_pow_pos self.level
  have hcast : ((2 ^ self.level : ℕ) : ℤ) = 2 ^ self.level := Nat.cast_pow 2 self.level
  have hf : t.full = false := by
    rw [← Bool.not_eq_true, hrep.full]
    exact hfull
  obtain ⟨i, hi⟩ := ends_outside hsize hrep hf (Layer.root (Nat.zero_le _)) (Nat.zero_add _)
  rw [hcast] at hi
  obtain ⟨turns, hturns⟩ := alloc_of_ends (by omega) hi
  exact ⟨turns, i, hturns⟩

/-- A call is safe exactly when the request is in range or no cell is free. -/
theorem safe_iff {level : ℕ} (h : Stands level (self, live)) :
    Safe self s ↔ InRange s ∨ Full self := by
  constructor
  · rintro ⟨turns, tree, r, hrun, -⟩
    by_contra hno
    rw [not_or] at hno
    obtain ⟨turns', i, hout⟩ := alloc_outside h hno.1 hno.2
    cases alloc_unique hrun hout
  · intro hcase
    by_cases hs : InRange s
    · obtain ⟨self', r, halloc, -⟩ := h.alloc (inRange_iff.1 hs)
      obtain ⟨-, turns, hrun⟩ := alloc_inRange hs halloc
      refine ⟨turns, self'.tree, r, hrun, fun hfits => ?_⟩
      have hlt : 2 ^ self.level < blockLength s.toNat :=
        Nat.not_le.1 fun hle => hfits (fits_of_le hs hle)
      rw [Buddy.alloc, sizeOf_request (inRange_iff.1 hs), if_pos hlt] at halloc
      cases halloc
      exact ⟨rfl, rfl⟩
    · exact ⟨1, self.tree, -1, alloc_full hs (hcase.resolve_left hs), fun _ => ⟨rfl, rfl⟩⟩

end Checked

/-! ## Runs -/

/-- The calls of the allocator, with any `int`. -/
inductive BuddyCall where
  | alloc (s : BitVec 32)
  | free (offset : ℕ)
  | size (offset : ℕ)

/-- A call that returns, and what it does to the live blocks. -/
def callStep : Buddy × Finset (ℕ × ℕ) → BuddyCall → Option (Buddy × Finset (ℕ × ℕ))
  | (self, live), .alloc s =>
    match Checked.alloc (2 ^ (self.level + 1)) self s with
    | some (.returned tree r) => some ({ self with tree := tree },
        if r = -1 then live else insert (r.toNat, blockLength s.toNat) live)
    | _ => none
  | σ, .free o => buddyStep σ (.free o)
  | σ, .size o => buddyStep σ (.size o)

def callLts (level : ℕ) : Lts (Buddy × Finset (ℕ × ℕ)) BuddyCall where
  init := fun σ => σ = (buddyNew level, ∅)
  step := callStep

section
variable {level : ℕ} {σ σ' : Buddy × Finset (ℕ × ℕ)} {s : BitVec 32}

/-- Every call that returns keeps the array and the live blocks together. -/
theorem Stands.callStep (h : Stands level σ) {a : BuddyCall} (ha : DstmP1.callStep σ a = some σ') :
    Stands level σ' := by
  obtain ⟨self, live⟩ := σ
  cases a with
  | free o => exact h.step (a := .free o) ha
  | size o => exact h.step (a := .size o) ha
  | alloc s =>
    simp only [DstmP1.callStep] at ha
    split at ha
    · rename_i tree r hrun
      cases ha
      by_cases hs : Checked.InRange s
      · obtain ⟨self', r', halloc, hcase⟩ := h.alloc (Checked.inRange_iff.1 hs)
        obtain ⟨hlevel, turns, hrun'⟩ := Checked.alloc_inRange hs halloc
        cases Checked.alloc_unique hrun hrun'
        have hself : { self with tree := self'.tree } = self' := by
          cases self'
          cases hlevel
          rfl
        rw [hself]
        rcases hcase with ⟨o, rfl, -, hst⟩ | ⟨rfl, -, hst⟩
        · rw [if_neg (by omega)]
          exact hst
        · rw [if_pos rfl]
          exact hst
      · by_cases hfull : Checked.Full self
        · cases Checked.alloc_unique hrun (Checked.alloc_full hs hfull)
          rw [if_pos rfl]
          exact h
        · obtain ⟨turns, i, hout⟩ := Checked.alloc_outside h hs hfull
          cases Checked.alloc_unique hrun hout
    · cases ha

theorem reach_call_stands (h : (callLts level).Reach (fun _ _ _ => True) σ) : Stands level σ := by
  refine h.induct ?_ ?_
  · rintro σ₀ rfl
    exact stands_new level
  · exact fun σ₀ a σ₁ _ ih ha _ => ih.callStep ha

/-! ## Main result -/

/-- **Which requests are safe.** After any calls that have returned, the next request is safe
exactly when it is in range or no cell is free. -/
theorem buddyAlloc_safe_iff (h : (callLts level).Reach (fun _ _ _ => True) σ) (s : BitVec 32) :
    Checked.Safe σ.1 s ↔ Checked.InRange s ∨ Checked.Full σ.1 :=
  Checked.safe_iff (reach_call_stands h)

/-- On the one block of two cells every further request is safe, a negative one too. -/
theorem buddyAlloc_safe_full : ∃ σ, (callLts 1).Reach (fun _ _ _ => True) σ ∧
    Checked.Safe σ.1 (-1) := by
  have hrun : ((callLts 1).run (buddyNew 1, ∅) [.alloc 2]).map (fun σ => σ.1.tree 0) =
      some .USED := by
    decide +kernel
  obtain ⟨σ, h, ho⟩ := Lts.Reach.of_run rfl hrun
  exact ⟨σ, h, (buddyAlloc_safe_iff h (-1)).2 (.inr (.inl ho))⟩

/-- **A request that does not fit is not refused.** For `2 ^ 30 + 1` units the walk splits an unused
tree down to its first leaf, and then marks the children that the leaf has not got. -/
theorem buddyAlloc_unsafe : ∃ σ, (callLts 24).Reach (fun _ _ _ => True) σ ∧
    ¬ Checked.Fits σ.1 0x40000001 ∧
    Checked.alloc 25 σ.1 0x40000001 = some (.outside (2 ^ 25 - 1)) ∧
    ¬ Checked.Safe σ.1 0x40000001 := by
  have hrun : Checked.alloc 25 (buddyNew 24) 0x40000001 = some (.outside (2 ^ 25 - 1)) := rfl
  refine ⟨(buddyNew 24, ∅), .init rfl, ?_, hrun, ?_⟩
  · decide
  · rintro ⟨turns, tree, r, hret, -⟩
    cases Checked.alloc_unique hrun hret

end

end DstmP1
