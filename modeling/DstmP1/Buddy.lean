import DstmP1.Lib.BuddyTree
import DstmP1.Lib.Lts
import Mathlib.Data.Nat.Log
import Mathlib.Logic.Function.Basic

/-!
# The buddy allocator

`buddy.cpp` keeps a binary tree of marks in an array, the children of `index` at `index * 2 + 1` and
`index * 2 + 2`. `buddy_alloc` searches it depth first from left to right, splitting an unused node
on its way; `_mark_parent` and `_combine` then carry the change up to the root. What is below an
unused node is stale. For a `level` up to `BUDDY_LEVEL` all numbers are small, so they are natural
numbers here, and the parent of node 0, which the code computes as `-1`, is none.

The search is given as many steps as the array has nodes, the walks down as many as it has levels;
a walk that ran out, like an assertion that fails, would have no result.
-/

namespace DstmP1

/-! ## Marks -/

inductive NodeMark where
  | UNUSED
  | USED
  | SPLIT
  | FULL
  deriving DecidableEq

/-- `struct buddy`. -/
structure Buddy where
  level : ℕ
  tree : ℕ → NodeMark

/-- `buddy_new`. -/
def buddyNew (level : ℕ) : Buddy where
  level := level
  tree := fun _ => .UNUSED

/-! ## Sizes -/

/-- `is_pow_of_2`, of a `uint32_t`. -/
def isPowOf2 (x : ℕ) : Bool := x &&& ((x + (2 ^ 32 - 1)) % 2 ^ 32) == 0

/-- `x |= x >> shift`. -/
def smear (shift x : ℕ) : ℕ := x ||| x >>> shift

/-- `next_pow_of_2`. -/
def nextPowOf2 (x : ℕ) : ℕ :=
  if isPowOf2 x then x
  else (smear 16 (smear 8 (smear 4 (smear 2 (smear 1 x)))) + 1) % 2 ^ 32

namespace Buddy

/-! ## The walks up -/

/-- `(index + 1) / 2 - 1`, which for node 0 is `-1` in the code. -/
def parent (index : ℕ) : ℕ := (index + 1) / 2 - 1

/-- `index - 1 + (index & 1) * 2`, which for node 0 is `-1` in the code. -/
def sibling (index : ℕ) : ℕ := index - 1 + index % 2 * 2

theorem parent_lt {index : ℕ} (h : index ≠ 0) : parent index < index := by
  rw [parent]
  omega

/-- `_index_offset` -/
def indexOffset (index level maxLevel : ℕ) : ℕ :=
  (index + 1 - 2 ^ level) * 2 ^ (maxLevel - level)

/-- `_mark_parent` -/
def markParent (tree : ℕ → NodeMark) (index : ℕ) : ℕ → NodeMark :=
  if _h : index = 0 then tree
  else if tree (sibling index) = .USED ∨ tree (sibling index) = .FULL then
    markParent (Function.update tree (parent index) .FULL) (parent index)
  else tree
termination_by index
decreasing_by exact parent_lt _h

/-- The second loop of `_combine`. -/
def unfull (tree : ℕ → NodeMark) (index : ℕ) : ℕ → NodeMark :=
  if _h : index = 0 then tree
  else if tree (parent index) = .FULL then
    unfull (Function.update tree (parent index) .SPLIT) (parent index)
  else tree
termination_by index
decreasing_by exact parent_lt _h

/-- `_combine` -/
def combine (tree : ℕ → NodeMark) (index : ℕ) : ℕ → NodeMark :=
  if _h : index = 0 then Function.update tree index .UNUSED
  else if tree (sibling index) ≠ .UNUSED then unfull (Function.update tree index .UNUSED) index
  else combine tree (parent index)
termination_by index
decreasing_by exact parent_lt _h

/-- The inner loop of `buddy_alloc`: to the right sibling of the nearest left child above. -/
def climb (index level length : ℕ) : Option (ℕ × ℕ × ℕ) :=
  if _h : index = 0 then none
  else if parent index % 2 = 1 then some (parent index + 1, level - 1, length * 2)
  else climb (parent index) (level - 1) (length * 2)
termination_by index
decreasing_by exact parent_lt _h

/-- Where the search goes from a node in which it has found no room. -/
def skip (index level length : ℕ) : Option (ℕ × ℕ × ℕ) :=
  if index % 2 = 1 then some (index + 1, level, length) else climb index level length

/-! ## Operations -/

/-- The outer loop of `buddy_alloc`. -/
def allocLoop (maxLevel size : ℕ) :
    ℕ → (ℕ → NodeMark) → (index level length : ℕ) → Option ((ℕ → NodeMark) × ℤ)
  | 0, _, _, _, _ => none
  | fuel + 1, tree, index, level, length =>
    let next := match skip index level length with
      | none => some (tree, -1)
      | some (index, level, length) => allocLoop maxLevel size fuel tree index level length
    if size = length then
      if tree index = .UNUSED then
        some (markParent (Function.update tree index .USED) index,
          (indexOffset index level maxLevel : ℤ))
      else next
    else
      match tree index with
      | .USED | .FULL => next
      | .UNUSED =>
        let tree := Function.update (Function.update (Function.update tree index .SPLIT)
          (index * 2 + 1) .UNUSED) (index * 2 + 2) .UNUSED
        allocLoop maxLevel size fuel tree (index * 2 + 1) (level + 1) (length / 2)
      | .SPLIT => allocLoop maxLevel size fuel tree (index * 2 + 1) (level + 1) (length / 2)

/-- `buddy_alloc` -/
def alloc (self : Buddy) (s : ℕ) : Option (Buddy × ℤ) :=
  let size := if s = 0 then 1 else nextPowOf2 s
  let length := 2 ^ self.level
  if length < size then some (self, -1)
  else
    (allocLoop self.level size (2 ^ (self.level + 1)) self.tree 0 0 length).map fun p =>
      ({ self with tree := p.1 }, p.2)

/-- The walk down of `buddy_free` and `buddy_size`: the used node at `offset`, and its length. -/
def find (tree : ℕ → NodeMark) (offset : ℕ) :
    ℕ → (left length index : ℕ) → Option (ℕ × ℕ)
  | 0, _, _, _ => none
  | fuel + 1, left, length, index =>
    match tree index with
    | .USED => if offset = left then some (index, length) else none
    | .UNUSED => none
    | _ =>
      let length := length / 2
      if offset < left + length then find tree offset fuel left length (index * 2 + 1)
      else find tree offset fuel (left + length) length (index * 2 + 2)

/-- `buddy_free` -/
def free (self : Buddy) (offset : ℕ) : Option Buddy :=
  if offset < 2 ^ self.level then
    (find self.tree offset (self.level + 1) 0 (2 ^ self.level) 0).map fun p =>
      { self with tree := combine self.tree p.1 }
  else none

/-- `buddy_size` -/
def size (self : Buddy) (offset : ℕ) : Option ℕ :=
  if offset < 2 ^ self.level then
    (find self.tree offset (self.level + 1) 0 (2 ^ self.level) 0).map Prod.snd
  else none

end Buddy

end DstmP1
