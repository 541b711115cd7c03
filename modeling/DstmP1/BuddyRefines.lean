import DstmP1.Buddy
import Mathlib.Order.Bounds.Basic

/-!
# The buddy allocator refines its set of live blocks

The array of marks stands for a buddy tree (`Rep`): the marks along the splits are those of the
tree, and whatever lies below an unused or used node does not matter. The search does on the array
what taking a block does on the tree (`allocLoop_none`, `allocLoop_some`), the walks up repair the
marks of the nodes above, and so each operation of the allocator is the operation of the tree. What
it means for the live blocks is known of the trees.
-/

namespace DstmP1

/-! ## Sizes -/

/-- The bit trick of `is_pow_of_2` tells the powers of two. -/
theorem isPowOf2_iff {x : ℕ} (h0 : 0 < x) (hx : x < 2 ^ 32) :
    isPowOf2 x = true ↔ x.isPowerOfTwo := by
  have he : (x + (2 ^ 32 - 1)) % 2 ^ 32 = x - 1 := by
    rw [show x + (2 ^ 32 - 1) = x - 1 + 2 ^ 32 by omega, Nat.add_mod_right]
    exact Nat.mod_eq_of_lt (by omega)
  rw [isPowOf2, he, beq_iff_eq]
  exact Nat.and_sub_one_eq_zero_iff_isPowerOfTwo (by omega)

/-- A bit of a smeared number is set when one of the bits above it was, within the distance that
has been smeared. -/
theorem testBit_smear {x y w : ℕ}
    (h : ∀ i, y.testBit i = true ↔ ∃ j < w, x.testBit (i + j) = true) (i : ℕ) :
    (smear w y).testBit i = true ↔ ∃ j < w + w, x.testBit (i + j) = true := by
  rw [smear, Nat.testBit_or, Bool.or_eq_true, Nat.testBit_shiftRight, h, h]
  constructor
  · rintro (⟨j, hj, hb⟩ | ⟨j, hj, hb⟩)
    · exact ⟨j, by omega, hb⟩
    · exact ⟨w + j, by omega, by rwa [show i + (w + j) = w + i + j by omega]⟩
  · rintro ⟨j, hj, hb⟩
    rcases Nat.lt_or_ge j w with hlt | hge
    · exact .inl ⟨j, hlt, hb⟩
    · exact .inr ⟨j - w, by omega, by rwa [show w + i + (j - w) = i + j by omega]⟩

/-- All bits below the highest are set. -/
theorem smear_all {x : ℕ} (h0 : x ≠ 0) (hx : x < 2 ^ 32) :
    smear 16 (smear 8 (smear 4 (smear 2 (smear 1 x)))) = 2 ^ (Nat.log 2 x + 1) - 1 := by
  have h1 : ∀ i, x.testBit i = true ↔ ∃ j < 1, x.testBit (i + j) = true := fun i =>
    ⟨fun h => ⟨0, Nat.one_pos, h⟩, fun ⟨j, hj, h⟩ => by rwa [Nat.lt_one_iff.1 hj] at h⟩
  have h32 := testBit_smear (testBit_smear (testBit_smear (testBit_smear (testBit_smear h1))))
  refine Nat.eq_of_testBit_eq fun i => ?_
  rw [Bool.eq_iff_iff, h32, Nat.testBit_two_pow_sub_one, decide_eq_true_iff]
  have hlog : x < 2 ^ (Nat.log 2 x + 1) := Nat.lt_pow_succ_log_self Nat.one_lt_two x
  constructor
  · rintro ⟨j, -, hb⟩
    by_contra hge
    have hlt : x < 2 ^ (i + j) :=
      hlog.trans_le (Nat.pow_le_pow_right Nat.two_pos (by omega))
    rw [Nat.testBit_lt_two_pow hlt] at hb
    cases hb
  · intro hi
    have hle : Nat.log 2 x < 32 := Nat.log_lt_of_lt_pow h0 hx
    refine ⟨Nat.log 2 x - i, by omega, ?_⟩
    rw [show i + (Nat.log 2 x - i) = Nat.log 2 x by omega, ← Nat.log2_eq_log_two]
    exact Nat.testBit_log2 h0

/-- The length of the block for a request: the least power of two that is not less. -/
def blockLength (s : ℕ) : ℕ := 2 ^ Nat.clog 2 s

/-- The bit trick of `next_pow_of_2` gives the next power of two. -/
theorem nextPowOf2_eq {s : ℕ} (h0 : s ≠ 0) (hs : s ≤ 2 ^ 30) : nextPowOf2 s = blockLength s := by
  have hs32 : s < 2 ^ 32 := hs.trans_lt (Nat.pow_lt_pow_right Nat.one_lt_two (by omega))
  rw [nextPowOf2, blockLength]
  split
  · rename_i hp
    obtain ⟨j, rfl⟩ := (isPowOf2_iff (Nat.pos_of_ne_zero h0) hs32).1 hp
    rw [Nat.clog_pow 2 j Nat.one_lt_two]
  · rename_i hp
    rw [isPowOf2_iff (Nat.pos_of_ne_zero h0) hs32] at hp
    have hclog : Nat.clog 2 s = Nat.log 2 s + 1 := by
      refine Nat.le_antisymm ?_ ?_
      · exact Nat.clog_le_of_le_pow (Nat.lt_pow_succ_log_self Nat.one_lt_two s).le
      · by_contra hlt
        have hle : s ≤ 2 ^ Nat.log 2 s :=
          (Nat.clog_le_iff_le_pow Nat.one_lt_two).1 (by omega)
        exact hp ⟨_, Nat.le_antisymm hle (Nat.pow_log_le_self 2 h0)⟩
    have hpos : 0 < 2 ^ (Nat.log 2 s + 1) := Nat.two_pow_pos _
    have hlog : Nat.log 2 s < 31 :=
      Nat.log_lt_of_lt_pow h0 (hs.trans_lt (Nat.pow_lt_pow_right Nat.one_lt_two (by omega)))
    rw [smear_all h0 hs32, Nat.sub_add_cancel hpos, hclog]
    exact Nat.mod_eq_of_lt (Nat.pow_lt_pow_right Nat.one_lt_two (by omega))

/-! ## Nodes below a node -/

/-- The nodes of the subtree of `i`. -/
inductive Below (i : ℕ) : ℕ → Prop where
  | refl : Below i i
  | left {j : ℕ} : Below i j → Below i (j * 2 + 1)
  | right {j : ℕ} : Below i j → Below i (j * 2 + 2)

namespace Below

variable {i j : ℕ}

theorem le (h : Below i j) : i ≤ j := by
  induction h with
  | refl => exact Nat.le_refl i
  | left _ ih => omega
  | right _ ih => omega

theorem trans {k : ℕ} (h : Below i j) (h' : Below j k) : Below i k := by
  induction h' with
  | refl => exact h
  | left _ ih => exact ih.left
  | right _ ih => exact ih.right

theorem of_left (h : Below (i * 2 + 1) j) : Below i j := (refl.left).trans h

theorem of_right (h : Below (i * 2 + 2) j) : Below i j := (refl.right).trans h

theorem ne_of_left (h : Below (i * 2 + 1) j) : j ≠ i := by
  have hle := h.le
  omega

theorem ne_of_right (h : Below (i * 2 + 2) j) : j ≠ i := by
  have hle := h.le
  omega

/-- The subtrees of the two children are apart. -/
theorem not_right (h : Below (i * 2 + 1) j) : ¬ Below (i * 2 + 2) j := by
  induction h with
  | refl =>
    intro h
    have hle := h.le
    omega
  | @left j h ih =>
    intro h'
    generalize hk : j * 2 + 1 = k at h'
    cases h' with
    | refl => omega
    | @left j' h'' =>
      obtain rfl : j = j' := by omega
      exact ih h''
    | right => omega
  | @right j h ih =>
    intro h'
    generalize hk : j * 2 + 2 = k at h'
    cases h' with
    | refl =>
      have hle := h.le
      omega
    | left => omega
    | @right j' h'' =>
      obtain rfl : j = j' := by omega
      exact ih h''

end Below

namespace Buddy

open NodeMark

/-! ## What the array stands for -/

/-- The marks of the subtree of `index` are those of `t`. -/
def Rep (tree : ℕ → NodeMark) : {n : ℕ} → ℕ → BuddyTree n → Prop
  | _, index, .free => tree index = UNUSED
  | _, index, .used => tree index = USED
  | _, index, .node l r => tree index = (if l.full && r.full then FULL else SPLIT) ∧
    Rep tree (index * 2 + 1) l ∧ Rep tree (index * 2 + 2) r

variable {tree tree' : ℕ → NodeMark} {n : ℕ} {index : ℕ} {t : BuddyTree n}

@[simp]
theorem rep_free : Rep tree index (.free : BuddyTree n) ↔ tree index = UNUSED := by rw [Rep]

@[simp]
theorem rep_used : Rep tree index (.used : BuddyTree n) ↔ tree index = USED := by rw [Rep]

theorem rep_node {l r : BuddyTree n} : Rep tree index (.node l r) ↔
    tree index = (if l.full && r.full then FULL else SPLIT) ∧
      Rep tree (index * 2 + 1) l ∧ Rep tree (index * 2 + 2) r := by rw [Rep]

/-- The marks below a node are all that counts. -/
theorem Rep.congr (h : Rep tree index t) (he : ∀ j, Below index j → tree' j = tree j) :
    Rep tree' index t := by
  induction t generalizing index with
  | free => exact rep_free.2 ((he _ .refl).trans (rep_free.1 h))
  | used => exact rep_used.2 ((he _ .refl).trans (rep_used.1 h))
  | node l r ihl ihr =>
    obtain ⟨h0, hl, hr⟩ := rep_node.1 h
    exact rep_node.2 ⟨(he _ .refl).trans h0, ihl hl fun j hj => he j hj.of_left,
      ihr hr fun j hj => he j hj.of_right⟩

/-- The mark of a node says whether a cell of its range is free. -/
theorem Rep.full (h : Rep tree index t) :
    t.full = true ↔ tree index = USED ∨ tree index = FULL := by
  cases t with
  | free =>
    simp [BuddyTree.full, rep_free.1 h]
  | used =>
    simp [BuddyTree.full, rep_used.1 h]
  | node l r =>
    rw [(rep_node.1 h).1, BuddyTree.full]
    cases l.full && r.full with
    | true => simp
    | false => simp

/-- The mark of a node says whether its range is free as a whole. -/
theorem Rep.isFree (h : Rep tree index t) : t.isFree = true ↔ tree index = UNUSED := by
  cases t with
  | free =>
    simp [BuddyTree.isFree, rep_free.1 h]
  | used =>
    simp [BuddyTree.isFree, rep_used.1 h]
  | node l r =>
    rw [(rep_node.1 h).1]
    cases l.full && r.full with
    | true => simp [BuddyTree.isFree]
    | false => simp [BuddyTree.isFree]

theorem sibling_left (i : ℕ) : sibling (i * 2 + 1) = i * 2 + 2 := by
  rw [sibling]
  omega

theorem sibling_right (i : ℕ) : sibling (i * 2 + 2) = i * 2 + 1 := by
  rw [sibling]
  omega

theorem parent_left (i : ℕ) : parent (i * 2 + 1) = i := by
  rw [parent]
  omega

theorem parent_right (i : ℕ) : parent (i * 2 + 2) = i := by
  rw [parent]
  omega

/-! ## The search -/

/-- The search goes on, or ends at the root. -/
def resume (maxLevel size fuel : ℕ) (tree : ℕ → NodeMark) :
    Option (ℕ × ℕ × ℕ) → Option ((ℕ → NodeMark) × ℤ)
  | none => some (tree, -1)
  | some (index, level, length) => allocLoop maxLevel size fuel tree index level length

variable {maxLevel k level : ℕ}

/-- The search in a node of the length it looks for. -/
theorem allocLoop_eq (fuel : ℕ) : allocLoop maxLevel (2 ^ n) (fuel + 1) tree index level (2 ^ n) =
    if tree index = UNUSED then
      some (markParent (Function.update tree index USED) index,
        (indexOffset index level maxLevel : ℤ))
    else resume maxLevel (2 ^ n) fuel tree (skip index level (2 ^ n)) := by
  rw [allocLoop, if_pos rfl]
  rfl

/-- The search in a longer node that has no room. -/
theorem allocLoop_full (hk : k < n) (h : tree index = USED ∨ tree index = FULL) (fuel : ℕ) :
    allocLoop maxLevel (2 ^ k) (fuel + 1) tree index level (2 ^ n) =
      resume maxLevel (2 ^ k) fuel tree (skip index level (2 ^ n)) := by
  rw [allocLoop, if_neg (Nat.pow_lt_pow_right Nat.one_lt_two hk).ne]
  rcases h with h | h
  · rw [h]
    rfl
  · rw [h]
    rfl

/-- The search goes down from a node that is split. -/
theorem allocLoop_split (hk : k < n + 1) (h : tree index = SPLIT) (fuel : ℕ) :
    allocLoop maxLevel (2 ^ k) (fuel + 1) tree index level (2 ^ (n + 1)) =
      allocLoop maxLevel (2 ^ k) fuel tree (index * 2 + 1) (level + 1) (2 ^ n) := by
  rw [allocLoop, if_neg (Nat.pow_lt_pow_right Nat.one_lt_two hk).ne, h, pow_succ,
    Nat.mul_div_cancel _ Nat.two_pos]

/-- An unused node is split first. -/
def splitNode (tree : ℕ → NodeMark) (index : ℕ) : ℕ → NodeMark :=
  Function.update (Function.update (Function.update tree index SPLIT)
    (index * 2 + 1) UNUSED) (index * 2 + 2) UNUSED

/-- The walk splits an unused node that is too large and goes left. -/
theorem allocLoop_unused (hk : k < n + 1) (h : tree index = UNUSED) (fuel : ℕ) :
    allocLoop maxLevel (2 ^ k) (fuel + 1) tree index level (2 ^ (n + 1)) =
      allocLoop maxLevel (2 ^ k) fuel (splitNode tree index) (index * 2 + 1) (level + 1)
        (2 ^ n) := by
  rw [allocLoop, if_neg (Nat.pow_lt_pow_right Nat.one_lt_two hk).ne, h, pow_succ,
    Nat.mul_div_cancel _ Nat.two_pos]
  rfl

/-- From a left child the search goes to the right one. -/
theorem skip_left (i level length : ℕ) :
    skip (i * 2 + 1) level length = some (i * 2 + 2, level, length) := by
  rw [skip, if_pos (by omega)]

/-- From a right child it goes where it goes from the parent. -/
theorem skip_right (i level length : ℕ) :
    skip (i * 2 + 2) (level + 1) length = skip i level (length * 2) := by
  rw [skip, if_neg (by omega), climb, dif_neg (by omega), parent_right, skip,
    Nat.add_sub_cancel]

/-- A node without room for a smaller block is in use. -/
theorem Rep.ne_unused (h : Rep tree index t) (hk : k ≤ n)
    (hnone : BuddyTree.alloc k n t = none) : tree index ≠ UNUSED := by
  intro hu
  obtain rfl := BuddyTree.eq_free_of_isFree (h.isFree.2 hu)
  exact BuddyTree.alloc_free hk hnone

/-- **A subtree without a place is passed over.** -/
theorem allocLoop_none (maxLevel level : ℕ) (hk : k ≤ n) (h : Rep tree index t)
    (hnone : BuddyTree.alloc k n t = none) : ∃ c < 2 ^ (n + 1), ∀ fuel,
      allocLoop maxLevel (2 ^ k) (fuel + c) tree index level (2 ^ n) =
        resume maxLevel (2 ^ k) fuel tree (skip index level (2 ^ n)) := by
  induction n generalizing index level with
  | zero =>
    obtain rfl : k = 0 := Nat.le_zero.1 hk
    refine ⟨1, Nat.one_lt_two, fun fuel => ?_⟩
    rw [allocLoop_eq, if_neg (h.ne_unused hk hnone)]
  | succ n ih =>
    have hlt : 1 < 2 ^ (n + 1 + 1) := Nat.one_lt_two_pow (Nat.succ_ne_zero _)
    rcases Nat.lt_or_eq_of_le hk with hlt' | rfl
    · cases t with
      | free => exact absurd (rep_free.1 h) (h.ne_unused hk hnone)
      | used => exact ⟨1, hlt, allocLoop_full hlt' (.inl (rep_used.1 h))⟩
      | node l r =>
        obtain ⟨hmark, hl, hr⟩ := rep_node.1 h
        cases hf : l.full && r.full with
        | true =>
          rw [hf, if_pos rfl] at hmark
          exact ⟨1, hlt, allocLoop_full hlt' (.inr hmark)⟩
        | false =>
          -- the search goes through both halves
          rw [hf, if_neg Bool.false_ne_true] at hmark
          have hkn : k ≤ n := by omega
          rw [BuddyTree.alloc_split hkn rfl] at hnone
          split at hnone
          · cases hnone
          · rename_i hl0
            rw [Option.map_eq_none_iff] at hnone
            obtain ⟨c1, hc1, h1⟩ := ih (level + 1) hkn hl hl0
            obtain ⟨c2, hc2, h2⟩ := ih (level + 1) hkn hr hnone
            refine ⟨c2 + c1 + 1, ?_, fun fuel => ?_⟩
            · rw [pow_succ]
              omega
            · rw [← Nat.add_assoc, ← Nat.add_assoc, allocLoop_split hlt' hmark, h1, skip_left,
                resume, h2, skip_right, ← pow_succ]
    · refine ⟨1, hlt, fun fuel => ?_⟩
      rw [allocLoop_eq, if_neg (h.ne_unused hk hnone)]

/-! ## Taking a block -/

/-- `_mark_parent` from a node whose range has no free cell, if it has none. -/
def markUp (full : Bool) (tree : ℕ → NodeMark) (index : ℕ) : ℕ → NodeMark :=
  if full then markParent tree index else tree

/-- The mark of a node when the walk up from one of its children has passed it. -/
theorem markUp_child {i child sib : ℕ} (h0 : child ≠ 0) (hs : sibling child = sib)
    (hp : parent child = i) {full full' : Bool}
    (hfull : full' = true ↔ tree sib = USED ∨ tree sib = FULL) :
    markUp full tree child = markUp (full && full')
      (if full && full' then Function.update tree i FULL else tree) i := by
  cases full with
  | false => rfl
  | true =>
    rw [markUp, if_pos rfl, markParent, dif_neg h0, hs, hp, Bool.true_and]
    cases full' with
    | true =>
      rw [if_pos (hfull.1 rfl)]
      rfl
    | false =>
      rw [if_neg fun h => Bool.noConfusion (hfull.2 h)]
      rfl

/-- The marks of a node whose children are done and that was split. -/
theorem rep_mark {l r : BuddyTree n} (h : tree index = SPLIT) (hl : Rep tree (index * 2 + 1) l)
    (hr : Rep tree (index * 2 + 2) r) :
    Rep (if l.full && r.full then Function.update tree index FULL else tree) index
      (.node l r) := by
  cases hf : l.full && r.full with
  | false =>
    rw [if_neg Bool.false_ne_true]
    exact rep_node.2 ⟨by rw [hf, if_neg Bool.false_ne_true, h], hl, hr⟩
  | true =>
    rw [if_pos rfl]
    refine rep_node.2 ⟨by rw [hf, if_pos rfl, Function.update_self], ?_, ?_⟩
    · exact hl.congr fun j hj => Function.update_of_ne hj.ne_of_left _ _
    · exact hr.congr fun j hj => Function.update_of_ne hj.ne_of_right _ _

/-- A left child begins where its parent does. -/
theorem indexOffset_left (i level maxLevel : ℕ) (h : level < maxLevel) :
    indexOffset (i * 2 + 1) (level + 1) maxLevel = indexOffset i level maxLevel := by
  obtain ⟨d, rfl⟩ := Nat.exists_eq_add_of_lt h
  rw [indexOffset, indexOffset, show level + d + 1 - (level + 1) = d by omega,
    show level + d + 1 - level = d + 1 by omega, pow_succ, pow_succ,
    show i * 2 + 1 + 1 - 2 ^ level * 2 = (i + 1 - 2 ^ level) * 2 by omega]
  ring

/-- A right child begins in the middle of its parent. -/
theorem indexOffset_right {i level maxLevel : ℕ} (h : level < maxLevel) (hi : 2 ^ level ≤ i + 1) :
    indexOffset (i * 2 + 2) (level + 1) maxLevel =
      indexOffset i level maxLevel + 2 ^ (maxLevel - (level + 1)) := by
  obtain ⟨d, rfl⟩ := Nat.exists_eq_add_of_lt h
  rw [indexOffset, indexOffset, show level + d + 1 - (level + 1) = d by omega,
    show level + d + 1 - level = d + 1 by omega, pow_succ, pow_succ,
    show i * 2 + 2 + 1 - 2 ^ level * 2 = (i + 1 - 2 ^ level) * 2 + 1 by omega]
  ring

/-- The subtree of `index` has come to stand for `t'`, and nothing else has changed. -/
structure Taken (tree tree' : ℕ → NodeMark) (index : ℕ) {n : ℕ} (t' : BuddyTree n) : Prop where
  rep : Rep tree' index t'
  frame : ∀ j, ¬ Below index j → tree' j = tree j

theorem ne_of_not_below {j : ℕ} (h : ¬ Below index j) : j ≠ index := fun he => h (he ▸ .refl)

theorem not_below_left (i : ℕ) : ¬ Below (i * 2 + 1) i := fun h => h.ne_of_left rfl

theorem not_below_right (i : ℕ) : ¬ Below (i * 2 + 2) i := fun h => h.ne_of_right rfl

/-- The left child has been done. -/
theorem Taken.left {tree₁ tree₂ : ℕ → NodeMark} {l' r : BuddyTree n}
    (h : Taken tree₁ tree₂ (index * 2 + 1) l') (hs : tree₁ index = SPLIT)
    (hr : Rep tree₁ (index * 2 + 2) r) (hf : ∀ j, ¬ Below index j → tree₁ j = tree j) :
    Taken tree (if l'.full && r.full then Function.update tree₂ index FULL else tree₂) index
      (.node l' r) := by
  refine ⟨rep_mark ?_ h.rep ?_, fun j hj => ?_⟩
  · rw [h.frame index (not_below_left index), hs]
  · exact hr.congr fun j hj => h.frame j fun hj' => hj'.not_right hj
  · rw [← hf j hj, ← h.frame j fun hj' => hj hj'.of_left]
    split
    · exact Function.update_of_ne (ne_of_not_below hj) _ _
    · rfl

/-- The right child has been done. -/
theorem Taken.right {tree₁ tree₂ : ℕ → NodeMark} {l r' : BuddyTree n}
    (h : Taken tree₁ tree₂ (index * 2 + 2) r') (hs : tree₁ index = SPLIT)
    (hl : Rep tree₁ (index * 2 + 1) l) (hf : ∀ j, ¬ Below index j → tree₁ j = tree j) :
    Taken tree (if l.full && r'.full then Function.update tree₂ index FULL else tree₂) index
      (.node l r') := by
  refine ⟨rep_mark ?_ ?_ h.rep, fun j hj => ?_⟩
  · rw [h.frame index (not_below_right index), hs]
  · exact hl.congr fun j hj => h.frame j fun hj' => hj.not_right hj'
  · rw [← hf j hj, ← h.frame j fun hj' => hj hj'.of_right]
    split
    · exact Function.update_of_ne (ne_of_not_below hj) _ _
    · rfl

/-- The search ends in a node that is taken as a whole. -/
theorem allocLoop_take {t' : BuddyTree n} {o : ℕ} (h : Rep tree index t)
    (ht : t.take = some (t', o)) : ∃ tree', Taken tree tree' index t' ∧ ∀ fuel,
      allocLoop maxLevel (2 ^ n) (fuel + 1) tree index level (2 ^ n) =
        some (markUp t'.full tree' index, ((indexOffset index level maxLevel + o : ℕ) : ℤ)) := by
  obtain ⟨rfl, rfl, rfl⟩ := BuddyTree.take_some ht
  refine ⟨Function.update tree index USED, ⟨?_, fun j hj => ?_⟩, fun fuel => ?_⟩
  · exact rep_used.2 (Function.update_self ..)
  · exact Function.update_of_ne (ne_of_not_below hj) _ _
  · rw [allocLoop_eq, if_pos (rep_free.1 h), markUp, if_pos (by rw [BuddyTree.full]),
      Nat.add_zero]

/-- An unused node that has been split stands for two free halves. -/
theorem rep_splitNode (tree : ℕ → NodeMark) (index : ℕ) :
    splitNode tree index index = SPLIT ∧
      Rep (splitNode tree index) (index * 2 + 1) (.free : BuddyTree n) ∧
      Rep (splitNode tree index) (index * 2 + 2) (.free : BuddyTree n) ∧
      ∀ j, ¬ Below index j → splitNode tree index j = tree j := by
  refine ⟨?_, rep_free.2 ?_, rep_free.2 ?_, fun j hj => ?_⟩
  · rw [splitNode, Function.update_of_ne (by omega), Function.update_of_ne (by omega),
      Function.update_self]
  · rw [splitNode, Function.update_of_ne (by omega), Function.update_self]
  · rw [splitNode, Function.update_self]
  · have hl : j ≠ index * 2 + 1 := fun he => hj (he ▸ .left .refl)
    have hr : j ≠ index * 2 + 2 := fun he => hj (he ▸ .right .refl)
    rw [splitNode, Function.update_of_ne hr, Function.update_of_ne hl,
      Function.update_of_ne (ne_of_not_below hj)]

/-- **A block is taken in a subtree that has a place.** -/
theorem allocLoop_some {t' : BuddyTree n} {o : ℕ} (hk : k ≤ n) (h : Rep tree index t)
    (hl : level + n = maxLevel) (hi : 2 ^ level ≤ index + 1)
    (hsome : BuddyTree.alloc k n t = some (t', o)) :
    ∃ c < 2 ^ (n + 1), ∃ tree', Taken tree tree' index t' ∧ ∀ fuel,
      allocLoop maxLevel (2 ^ k) (fuel + c) tree index level (2 ^ n) =
        some (markUp t'.full tree' index, ((indexOffset index level maxLevel + o : ℕ) : ℤ)) := by
  induction n generalizing index level tree o with
  | zero =>
    obtain rfl : k = 0 := Nat.le_zero.1 hk
    rw [BuddyTree.alloc, if_pos rfl] at hsome
    exact ⟨1, Nat.one_lt_two, allocLoop_take h hsome⟩
  | succ n ih =>
    rcases Nat.lt_or_eq_of_le hk with hlt | rfl
    · have hkn : k ≤ n := by omega
      have hl' : level + 1 + n = maxLevel := by omega
      have hpow : 2 ^ (level + 1) = 2 ^ level * 2 := pow_succ ..
      -- the search in the halves, whether the node was split before or has just been
      have hnode : ∀ {tree₁ : ℕ → NodeMark} {l r : BuddyTree n}, t.split = some (l, r) →
          tree₁ index = SPLIT → Rep tree₁ (index * 2 + 1) l → Rep tree₁ (index * 2 + 2) r →
          (∀ j, ¬ Below index j → tree₁ j = tree j) →
          ∃ c < 2 ^ (n + 1 + 1) - 1, ∃ tree', Taken tree tree' index t' ∧ ∀ fuel,
            allocLoop maxLevel (2 ^ k) (fuel + c) tree₁ (index * 2 + 1) (level + 1) (2 ^ n) =
              some (markUp t'.full tree' index,
                ((indexOffset index level maxLevel + o : ℕ) : ℤ)) := by
        intro tree₁ l r hs hspl hrl hrr hframe
        have hpow2 : 2 ^ (n + 1 + 1) = 2 ^ (n + 1) * 2 := pow_succ ..
        have hpos : 1 < 2 ^ (n + 1) := Nat.one_lt_two_pow (Nat.succ_ne_zero n)
        rw [BuddyTree.alloc_split hkn hs] at hsome
        split at hsome
        · rename_i l' o' hleft
          cases hsome
          obtain ⟨c, hc, tree₂, htk, hrun⟩ := ih hkn hrl hl' (by omega) hleft
          refine ⟨c, by omega, _, htk.left hspl hrr hframe, fun fuel => ?_⟩
          have hrr₂ : Rep tree₂ (index * 2 + 2) r :=
            hrr.congr fun j hj => htk.frame j fun hj' => hj'.not_right hj
          rw [hrun, markUp_child (by omega) (sibling_left index) (parent_left index) hrr₂.full,
            indexOffset_left _ _ _ (by omega), BuddyTree.full]
        · rename_i hleft
          obtain ⟨⟨r', o'⟩, hright, he⟩ := Option.map_eq_some_iff.1 hsome
          cases he
          obtain ⟨c₁, hc₁, hrun₁⟩ :=
            allocLoop_none maxLevel (level + 1) hkn hrl hleft
          obtain ⟨c₂, hc₂, tree₂, htk, hrun₂⟩ := ih hkn hrr hl' (by omega) hright
          refine ⟨c₂ + c₁, by omega, _, htk.right hspl hrl hframe, fun fuel => ?_⟩
          have hrl₂ : Rep tree₂ (index * 2 + 1) l :=
            hrl.congr fun j hj => htk.frame j fun hj' => hj.not_right hj'
          rw [← Nat.add_assoc, hrun₁, skip_left, resume, hrun₂,
            markUp_child (by omega) (sibling_right index) (parent_right index) hrl₂.full,
            indexOffset_right (by omega) hi, BuddyTree.full, Bool.and_comm,
            show maxLevel - (level + 1) = n by omega, Nat.add_assoc]
      cases t with
      | free =>
        obtain ⟨h1, h2, h3, h4⟩ := rep_splitNode (n := n) tree index
        obtain ⟨c, hc, tree', htk, hrun⟩ := hnode rfl h1 h2 h3 h4
        refine ⟨c + 1, by omega, tree', htk, fun fuel => ?_⟩
        rw [← Nat.add_assoc, allocLoop_unused hlt (rep_free.1 h), hrun]
      | used =>
        rw [BuddyTree.alloc_full (by rw [BuddyTree.full])] at hsome
        cases hsome
      | node l r =>
        obtain ⟨hmark, hrl, hrr⟩ := rep_node.1 h
        have hnf : (l.full && r.full) = false := by
          by_contra hf
          rw [BuddyTree.alloc_full (by rw [BuddyTree.full]; exact Bool.not_eq_false _ ▸ hf)]
            at hsome
          cases hsome
        rw [hnf, if_neg Bool.false_ne_true] at hmark
        obtain ⟨c, hc, tree', htk, hrun⟩ := hnode rfl hmark hrl hrr fun _ _ => rfl
        refine ⟨c + 1, by omega, tree', htk, fun fuel => ?_⟩
        rw [← Nat.add_assoc, allocLoop_split hlt hmark, hrun]
    · rw [BuddyTree.alloc, if_pos rfl] at hsome
      exact ⟨1, Nat.one_lt_two_pow (Nat.succ_ne_zero _), allocLoop_take h hsome⟩

/-! ## Giving a block back -/

/-- The walk down goes on below a node that is split. -/
theorem find_node (h : tree index = SPLIT ∨ tree index = FULL) (offset fuel left : ℕ) :
    find tree offset (fuel + 1) left (2 ^ (n + 1)) index =
      if offset < left + 2 ^ n then find tree offset fuel left (2 ^ n) (index * 2 + 1)
      else find tree offset fuel (left + 2 ^ n) (2 ^ n) (index * 2 + 2) := by
  rw [find, pow_succ, Nat.mul_div_cancel _ Nat.two_pos]
  rcases h with h | h
  · rw [h]
  · rw [h]

/-- The search for the node of an offset ends at a used node. -/
theorem find_used (h : tree index = USED) (fuel left length : ℕ) :
    find tree (left + 0) (fuel + 1) left length index = some (index, length) := by
  rw [find, h]
  exact if_pos rfl

/-- The mark of a node that is not one block and not free. -/
theorem mark_node {l r : BuddyTree n} (h : Rep tree index (.node l r)) :
    tree index = SPLIT ∨ tree index = FULL := by
  rw [(rep_node.1 h).1]
  split
  · exact .inr rfl
  · exact .inl rfl

/-- The walk down finds the length of a block. -/
theorem find_size {o len : ℕ} (h : Rep tree index t) (hs : BuddyTree.sizeAt n t o = some len)
    (left : ℕ) : ∃ j, find tree (left + o) (n + 1) left (2 ^ n) index = some (j, len) := by
  induction t generalizing index o left with
  | free => cases hs
  | used =>
    rw [BuddyTree.sizeAt] at hs
    split at hs
    · rename_i ho
      cases hs
      rw [ho]
      exact ⟨index, find_used (rep_used.1 h) _ left _⟩
    · cases hs
  | @node n l r ihl ihr =>
    obtain ⟨-, hl, hr⟩ := rep_node.1 h
    rw [BuddyTree.sizeAt] at hs
    rw [find_node (mark_node h)]
    split at hs
    · rename_i ho
      rw [if_pos (Nat.add_lt_add_left ho left)]
      exact ihl hl hs left
    · rename_i ho
      rw [if_neg fun hlt => ho (Nat.lt_of_add_lt_add_left hlt),
        show left + o = left + 2 ^ n + (o - 2 ^ n) by omega]
      exact ihr hr hs (left + 2 ^ n)

/-- How a walk up goes on from a node in which a block has been given back: the node joins its
sibling, or those above it have a free cell again, or nothing more changes. -/
def walkUp (wasFull isFree : Bool) (tree : ℕ → NodeMark) (index : ℕ) : ℕ → NodeMark :=
  if isFree then combine tree index else if wasFull then unfull tree index else tree

/-- The marks of a node when the walk has come up from its child. -/
def fromChild (wasFull isFree sibFree : Bool) (tree : ℕ → NodeMark) (index child : ℕ) :
    ℕ → NodeMark :=
  if isFree && sibFree then tree
  else
    let tree := if isFree then Function.update tree child UNUSED else tree
    if wasFull then Function.update tree index SPLIT else tree

/-- A node that was full becomes split, and so on up the tree. -/
theorem unfull_child {i child : ℕ} (h0 : child ≠ 0) (hp : parent child = i) {wasFull : Bool}
    (hmark : tree i = if wasFull then FULL else SPLIT) :
    unfull tree child =
      if wasFull then unfull (Function.update tree i SPLIT) i else tree := by
  rw [unfull, dif_neg h0, hp, hmark]
  cases wasFull with
  | true => rfl
  | false => rfl

/-- A walk up passes from a child to its parent. -/
theorem walkUp_child {i child sib : ℕ} (h0 : child ≠ 0) (hs : sibling child = sib)
    (hp : parent child = i) (hne : i ≠ child) {full full' isFree sibFree : Bool}
    (hmark : tree i = if full && full' then FULL else SPLIT)
    (hsib : sibFree = true ↔ tree sib = UNUSED) :
    walkUp full isFree tree child = walkUp (full && full') (isFree && sibFree)
      (fromChild (full && full') isFree sibFree tree i child) i := by
  cases isFree with
  | true =>
    rw [walkUp, if_pos rfl, combine, dif_neg h0, hs, hp, Bool.true_and]
    cases sibFree with
    | true =>
      rw [if_neg (not_not.2 (hsib.1 rfl))]
      rfl
    | false =>
      have hmark' :
          Function.update tree child UNUSED i = if full && full' then FULL else SPLIT := by
        rw [Function.update_of_ne hne, hmark]
      rw [if_pos fun hu => Bool.noConfusion (hsib.2 hu), unfull_child h0 hp hmark']
      cases full && full' with
      | true => rfl
      | false => rfl
  | false =>
    rw [Bool.false_and]
    cases full with
    | false => rfl
    | true =>
      rw [Bool.true_and] at hmark ⊢
      have hw : walkUp true false tree child = unfull tree child := rfl
      rw [hw, unfull_child h0 hp hmark]
      cases full' with
      | true => rfl
      | false => rfl

/-- What the marks of a node stand for when the walk has come up from its child. -/
theorem rep_fromChild {i child sib : ℕ} (hne : i ≠ child) (hc : ∀ j, Below child j → j ≠ i)
    (hs : ∀ j, Below sib j → j ≠ i ∧ j ≠ child) {c s : BuddyTree n} {wasFull : Bool}
    (hmark : tree i = if wasFull then FULL else SPLIT)
    (hrc : c.isFree = false → Rep tree child c) (hrs : Rep tree sib s)
    (hnf : (c.isFree && s.isFree) = false) {sibFree : Bool} (hsf : sibFree = s.isFree) :
    fromChild wasFull c.isFree sibFree tree i child i = SPLIT ∧
      Rep (fromChild wasFull c.isFree sibFree tree i child) child c ∧
      Rep (fromChild wasFull c.isFree sibFree tree i child) sib s := by
  rw [fromChild, hsf, hnf, if_neg Bool.false_ne_true]
  dsimp only
  -- the child is marked first
  obtain ⟨tree₂, htree₂⟩ :
    ∃ tree₂, tree₂ = if c.isFree then Function.update tree child UNUSED else tree := ⟨_, rfl⟩
  have h2 : tree₂ i = (if wasFull then FULL else SPLIT) ∧ Rep tree₂ child c ∧ Rep tree₂ sib s := by
    rw [htree₂]
    cases hf : c.isFree with
    | false =>
      rw [if_neg Bool.false_ne_true]
      exact ⟨hmark, hrc hf, hrs⟩
    | true =>
      rw [if_pos rfl, BuddyTree.eq_free_of_isFree hf]
      refine ⟨?_, rep_free.2 (Function.update_self ..), hrs.congr fun j hj => ?_⟩
      · rw [Function.update_of_ne hne, hmark]
      · exact Function.update_of_ne (hs j hj).2 _ _
  rw [← htree₂]
  cases wasFull with
  | false => exact h2
  | true =>
    rw [if_pos rfl]
    refine ⟨Function.update_self .., h2.2.1.congr fun j hj => ?_, h2.2.2.congr fun j hj => ?_⟩
    · exact Function.update_of_ne (hc j hj) _ _
    · exact Function.update_of_ne (hs j hj).1 _ _

/-- The walk up changes marks of the node and its child only. -/
theorem fromChild_of_ne {i child j : ℕ} (wasFull isFree sibFree : Bool) (h : j ≠ i)
    (h' : j ≠ child) : fromChild wasFull isFree sibFree tree i child j = tree j := by
  rw [fromChild]
  split
  · rfl
  · dsimp only
    split
    · rw [Function.update_of_ne h]
      split
      · exact Function.update_of_ne h' _ _
      · rfl
    · split
      · exact Function.update_of_ne h' _ _
      · rfl

/-- The node with one child as it was and one in which a block has been given back. -/
theorem rep_join {l r : BuddyTree n} (hm : tree index = SPLIT)
    (hl : Rep tree (index * 2 + 1) l) (hr : Rep tree (index * 2 + 2) r)
    (hnf : (l.isFree && r.isFree) = false) (hfull : (l.full && r.full) = false) :
    Rep tree index (BuddyTree.join l r) := by
  have hj : BuddyTree.join l r = .node l r := by
    unfold BuddyTree.join
    split
    · cases hnf
    · rfl
  rw [hj]
  exact rep_node.2 ⟨by rw [hm, hfull, if_neg Bool.false_ne_true], hl, hr⟩

/-- **A block is given back in a subtree.** The walk down finds its node, and the walk up does in
the subtree what giving back does to the tree. -/
theorem find_release {t' : BuddyTree n} {o : ℕ} (h : Rep tree index t)
    (hr : BuddyTree.release n t o = some t') (left : ℕ) : ∃ j len tree',
      find tree (left + o) (n + 1) left (2 ^ n) index = some (j, len) ∧
      combine tree j = walkUp t.full t'.isFree tree' index ∧
      (t'.isFree = false → Rep tree' index t') ∧ ∀ j, ¬ Below index j → tree' j = tree j := by
  induction t generalizing index o left with
  | free => cases hr
  | @used n =>
    rw [BuddyTree.release] at hr
    split at hr
    · rename_i ho
      cases hr
      rw [ho]
      exact ⟨index, 2 ^ n, tree, find_used (rep_used.1 h) _ left _, rfl,
        fun hf => Bool.noConfusion hf, fun _ _ => rfl⟩
    · cases hr
  | @node n l r ihl ihr =>
    obtain ⟨hmark, hrl, hrr⟩ := rep_node.1 h
    rw [BuddyTree.release] at hr
    rw [find_node (mark_node h)]
    split at hr
    · rename_i ho
      obtain ⟨l', hl', rfl⟩ := Option.map_eq_some_iff.1 hr
      obtain ⟨j, len, tree₁, hfind, hcomb, hrep, hframe⟩ := ihl hrl hl' left
      have hmark₁ : tree₁ index = if l.full && r.full then FULL else SPLIT := by
        rw [hframe index (not_below_left index), hmark]
      have hrr₁ : Rep tree₁ (index * 2 + 2) r :=
        hrr.congr fun i hi => hframe i fun hi' => hi'.not_right hi
      refine ⟨j, len, fromChild (l.full && r.full) l'.isFree r.isFree tree₁ index (index * 2 + 1),
        ?_, ?_, ?_, ?_⟩
      · rw [if_pos (Nat.add_lt_add_left ho left), hfind]
      · rw [hcomb, walkUp_child (by omega) (sibling_left index) (parent_left index) (by omega)
          hmark₁ hrr₁.isFree, BuddyTree.isFree_join, BuddyTree.full]
      · intro hnf
        rw [BuddyTree.isFree_join] at hnf
        obtain ⟨h1, h2, h3⟩ := rep_fromChild (by omega) (fun i hi => hi.ne_of_left)
          (fun i hi => ⟨hi.ne_of_right, fun he => Below.refl.not_right (he ▸ hi)⟩) hmark₁ hrep
          hrr₁ hnf rfl
        exact rep_join h1 h2 h3 hnf (by rw [BuddyTree.full_release hl', Bool.false_and])
      · intro i hi
        rw [fromChild_of_ne _ _ _ (ne_of_not_below hi) fun he => hi (he ▸ .left .refl)]
        exact hframe i fun hi' => hi hi'.of_left
    · rename_i ho
      obtain ⟨r', hr', rfl⟩ := Option.map_eq_some_iff.1 hr
      obtain ⟨j, len, tree₁, hfind, hcomb, hrep, hframe⟩ := ihr hrr hr' (left + 2 ^ n)
      have hmark₁ : tree₁ index = if r.full && l.full then FULL else SPLIT := by
        rw [hframe index (not_below_right index), hmark, Bool.and_comm]
      have hrl₁ : Rep tree₁ (index * 2 + 1) l :=
        hrl.congr fun i hi => hframe i fun hi' => hi.not_right hi'
      refine ⟨j, len, fromChild (r.full && l.full) r'.isFree l.isFree tree₁ index (index * 2 + 2),
        ?_, ?_, ?_, ?_⟩
      · rw [if_neg fun hlt => ho (Nat.lt_of_add_lt_add_left hlt),
          show left + o = left + 2 ^ n + (o - 2 ^ n) by omega, hfind]
      · rw [hcomb, walkUp_child (by omega) (sibling_right index) (parent_right index) (by omega)
          hmark₁ hrl₁.isFree, BuddyTree.isFree_join, BuddyTree.full, Bool.and_comm r.full,
          Bool.and_comm r'.isFree]
      · intro hnf
        rw [BuddyTree.isFree_join] at hnf
        obtain ⟨h1, h2, h3⟩ := rep_fromChild (by omega) (fun i hi => hi.ne_of_right)
          (fun i hi => ⟨hi.ne_of_left, fun he => hi.not_right (he ▸ .refl)⟩) hmark₁ hrep hrl₁
          (Bool.and_comm .. ▸ hnf) rfl
        exact rep_join h1 h3 h2 hnf (by rw [BuddyTree.full_release hr', Bool.and_false])
      · intro i hi
        rw [fromChild_of_ne _ _ _ (ne_of_not_below hi) fun he => hi (he ▸ .right .refl)]
        exact hframe i fun hi' => hi hi'.of_right

end Buddy

/-! ## What is claimed -/

/-- The calls of the allocator. -/
inductive BuddyOp where
  | alloc (s : ℕ)
  | free (offset : ℕ)
  | size (offset : ℕ)

/-- A place for a block of `len` cells among the live blocks, given by offset and length. -/
def Place (level : ℕ) (live : Finset (ℕ × ℕ)) (len o : ℕ) : Prop :=
  len ∣ o ∧ o + len ≤ 2 ^ level ∧ Clear live o len

/-- A call, and what it does to the live blocks; `buddy_free` and `buddy_size` are called for
blocks that are live. -/
def buddyStep : Buddy × Finset (ℕ × ℕ) → BuddyOp → Option (Buddy × Finset (ℕ × ℕ))
  | (self, live), .alloc s =>
    if s ≤ 2 ^ 30 then
      (self.alloc s).map fun p =>
        (p.1, if p.2 = -1 then live else insert (p.2.toNat, blockLength s) live)
    else none
  | (self, live), .free o =>
    if ∃ b ∈ live, b.1 = o then
      (self.free o).map fun self' => (self', live.filter fun b => b.1 ≠ o)
    else none
  | (self, live), .size o =>
    if ∃ b ∈ live, b.1 = o then (self.size o).map fun _ => (self, live) else none

def buddyLts (level : ℕ) : Lts (Buddy × Finset (ℕ × ℕ)) BuddyOp where
  init := fun σ => σ = (buddyNew level, ∅)
  step := buddyStep

/-- A request gets the least place, or `-1` when there is none; a live block is found with its
length and can be given back without an assertion failing; live blocks do not overlap. -/
structure BuddyLaw (level : ℕ) (σ : Buddy × Finset (ℕ × ℕ)) : Prop where
  alloc : ∀ s ≤ 2 ^ 30, ∃ self' r, σ.1.alloc s = some (self', r) ∧
    ((∃ o : ℕ, r = o ∧ IsLeast {o | Place level σ.2 (blockLength s) o} o) ∨
      (r = -1 ∧ ∀ o, ¬ Place level σ.2 (blockLength s) o))
  size : ∀ b ∈ σ.2, σ.1.size b.1 = some b.2
  free : ∀ b ∈ σ.2, ∃ self', σ.1.free b.1 = some self'
  apart : ∀ b ∈ σ.2, ∀ b' ∈ σ.2, b ≠ b' → b.1 + b.2 ≤ b'.1 ∨ b'.1 + b'.2 ≤ b.1

/-! ## The operations -/

section
variable {level : ℕ} {σ σ' : Buddy × Finset (ℕ × ℕ)} {self : Buddy} {live : Finset (ℕ × ℕ)}

/-- The array stands for a tree that has the live blocks. -/
def Stands (level : ℕ) (σ : Buddy × Finset (ℕ × ℕ)) : Prop :=
  σ.1.level = level ∧ ∃ t : BuddyTree level, t.Canonical ∧ Buddy.Rep σ.1.tree 0 t ∧
    σ.2 = BuddyTree.blocks level t 0

/-- A new allocator stands for a free tree without live blocks. -/
theorem stands_new (level : ℕ) : Stands level (buddyNew level, ∅) := by
  refine ⟨rfl, .free, ?_, Buddy.rep_free.2 rfl, ?_⟩
  · rw [BuddyTree.Canonical]
    trivial
  · rw [BuddyTree.blocks]

/-- A request is rounded to the length of its block. -/
theorem sizeOf_request {s : ℕ} (hs : s ≤ 2 ^ 30) :
    (if s = 0 then 1 else nextPowOf2 s) = blockLength s := by
  split
  · rename_i h
    rw [h, blockLength, Nat.clog_zero_right, pow_zero]
  · exact nextPowOf2_eq ‹_› hs

/-- `buddy_alloc` takes the least place. -/
theorem Stands.alloc (h : Stands level (self, live)) {s : ℕ} (hs : s ≤ 2 ^ 30) :
    ∃ self' r, self.alloc s = some (self', r) ∧
      ((∃ o : ℕ, r = o ∧ IsLeast {o | Place level live (blockLength s) o} o ∧
          Stands level (self', insert (o, blockLength s) live)) ∨
        (r = -1 ∧ (∀ o, ¬ Place level live (blockLength s) o) ∧ Stands level (self', live))) := by
  obtain ⟨hlevel, t, hc, hrep, hlive⟩ := h
  dsimp only at hlevel hrep hlive
  subst hlevel
  rw [Buddy.alloc, sizeOf_request hs]
  rcases Nat.lt_or_ge (2 ^ self.level) (blockLength s) with hlt | hge
  · rw [if_pos hlt]
    refine ⟨self, -1, rfl, .inr ⟨rfl, fun o ho => ?_, rfl, t, hc, hrep, hlive⟩⟩
    exact absurd ho.2.1 (by omega)
  · rw [if_neg (Nat.not_lt.2 hge)]
    have hk : Nat.clog 2 s ≤ self.level := (Nat.pow_le_pow_iff_right Nat.one_lt_two).1 hge
    cases ht : BuddyTree.alloc (Nat.clog 2 s) self.level t with
    | none =>
      obtain ⟨c, hc', hrun⟩ := Buddy.allocLoop_none self.level 0 hk hrep ht
      obtain ⟨fuel, hfuel⟩ := Nat.exists_eq_add_of_le' hc'.le
      refine ⟨self, -1, ?_, .inr ⟨rfl, fun o ho => ?_, rfl, t, hc, hrep, hlive⟩⟩
      · rw [blockLength, hfuel, hrun, Buddy.skip, if_neg (by decide), Buddy.climb, dif_pos rfl]
        rfl
      · rw [hlive] at ho
        refine BuddyTree.alloc_none hk hc ht 0 ho.1 ho.2.1 ?_
        rw [Nat.zero_add]
        exact ho.2.2
    | some p =>
      obtain ⟨t', o⟩ := p
      have htake := BuddyTree.alloc_some hc ht 0
      obtain ⟨c, hc', tree', htk, hrun⟩ :=
        Buddy.allocLoop_some hk hrep (Nat.zero_add self.level) (Nat.le_refl _) ht
      obtain ⟨fuel, hfuel⟩ := Nat.exists_eq_add_of_le' hc'.le
      have hclear := htake.clear
      have hleast := htake.least
      have hblocks := htake.blocks
      simp only [Nat.zero_add] at hclear hleast hblocks
      refine ⟨{ self with tree := tree' }, (o : ℤ), ?_, .inl ⟨o, rfl, ⟨?_, ?_⟩, rfl, t',
        htake.canonical, htk.rep, ?_⟩⟩
      · have hup : Buddy.markUp t'.full tree' 0 = tree' := by
          rw [Buddy.markUp, Buddy.markParent, dif_pos rfl, ite_self]
        rw [blockLength, hfuel, hrun, hup, Buddy.indexOffset]
        simp
      · rw [Set.mem_ofPred_eq, hlive]
        exact ⟨htake.aligned, htake.inside, hclear⟩
      · intro i hi
        by_contra hlt
        rw [Set.mem_ofPred_eq, hlive] at hi
        exact hleast i (Nat.not_le.1 hlt) hi.1 hi.2.2
      · rw [hblocks, ← hlive]
        rfl

/-- `buddy_size` finds the length of a live block. -/
theorem Stands.size (h : Stands level (self, live)) {b : ℕ × ℕ} (hb : b ∈ live) :
    self.size b.1 = some b.2 := by
  obtain ⟨hlevel, t, hc, hrep, hlive⟩ := h
  dsimp only at hlevel hrep hlive
  rw [hlive] at hb
  obtain ⟨-, h2, h3⟩ := BuddyTree.within hb
  have hb0 : (0 + b.1, b.2) ∈ BuddyTree.blocks level t 0 := by
    rw [Nat.zero_add]
    exact hb
  obtain ⟨j, hj⟩ := Buddy.find_size hrep (BuddyTree.sizeAt_spec hb0) 0
  rw [Nat.zero_add] at hj
  rw [Buddy.size, hlevel, if_pos (by omega), hj, Option.map_some]

/-- `buddy_free` takes a live block out. -/
theorem Stands.free (h : Stands level (self, live)) {b : ℕ × ℕ} (hb : b ∈ live) :
    ∃ self', self.free b.1 = some self' ∧ Stands level (self', live.erase b) := by
  obtain ⟨hlevel, t, hc, hrep, hlive⟩ := h
  dsimp only at hlevel hrep hlive
  rw [hlive] at hb
  obtain ⟨-, h2, h3⟩ := BuddyTree.within hb
  have hb0 : (0 + b.1, b.2) ∈ BuddyTree.blocks level t 0 := by
    rw [Nat.zero_add]
    exact hb
  obtain ⟨t', hrel, hblocks, hc'⟩ := BuddyTree.release_spec hc hb0
  rw [Nat.zero_add] at hblocks
  obtain ⟨j, len, tree', hfind, hcomb, hrep', -⟩ := Buddy.find_release hrep hrel 0
  rw [Nat.zero_add] at hfind
  refine ⟨{ self with tree := Buddy.combine self.tree j }, ?_, hlevel, t', hc', ?_, ?_⟩
  · rw [Buddy.free, hlevel, if_pos (by omega), hfind, Option.map_some]
  · show Buddy.Rep (Buddy.combine self.tree j) 0 t'
    rw [hcomb, Buddy.walkUp]
    cases hf : t'.isFree with
    | true =>
      rw [if_pos rfl, Buddy.combine, dif_pos rfl, BuddyTree.eq_free_of_isFree hf]
      exact Buddy.rep_free.2 (Function.update_self ..)
    | false =>
      rw [if_neg Bool.false_ne_true, Buddy.unfull, dif_pos rfl, ite_self]
      exact hrep' hf
  · rw [hlive, hblocks]

/-- Live blocks do not overlap, so a block is known by its offset. -/
theorem Stands.apart (h : Stands level (self, live)) {b b' : ℕ × ℕ} (hb : b ∈ live)
    (hb' : b' ∈ live) (hne : b ≠ b') : b.1 + b.2 ≤ b'.1 ∨ b'.1 + b'.2 ≤ b.1 := by
  obtain ⟨-, t, -, -, hlive⟩ := h
  dsimp only at hlive
  rw [hlive] at hb hb'
  exact BuddyTree.blocks_apart hb hb' hne

/-- There is one live block at an offset. -/
theorem Stands.filter (h : Stands level (self, live)) {b : ℕ × ℕ} (hb : b ∈ live) :
    (live.filter fun b' => b'.1 ≠ b.1) = live.erase b := by
  ext b'
  rw [Finset.mem_filter, Finset.mem_erase, and_comm, and_congr_left_iff]
  intro hb'
  refine ⟨fun hne he => hne (he ▸ rfl), fun hne he => ?_⟩
  obtain ⟨-, t, -, -, hlive⟩ := id h
  dsimp only at hlive
  have h2 := (BuddyTree.within (hlive ▸ hb)).2.1
  have h2' := (BuddyTree.within (hlive ▸ hb')).2.1
  rcases h.apart hb' hb hne with ha | ha
  · omega
  · omega

/-! ## Main result -/

/-- Every call keeps the array and the live blocks together. -/
theorem Stands.step (h : Stands level σ) {a : BuddyOp} (ha : buddyStep σ a = some σ') :
    Stands level σ' := by
  obtain ⟨self, live⟩ := σ
  cases a with
  | alloc s =>
    rw [buddyStep] at ha
    split at ha
    · rename_i hs
      obtain ⟨self', r, hr, hcase⟩ := h.alloc hs
      rw [hr, Option.map_some, Option.some.injEq] at ha
      rw [← ha]
      rcases hcase with ⟨o, rfl, -, hst⟩ | ⟨rfl, -, hst⟩
      · rw [if_neg (by omega)]
        exact hst
      · rw [if_pos rfl]
        exact hst
    · cases ha
  | free o =>
    rw [buddyStep] at ha
    split at ha
    · rename_i hb
      obtain ⟨b, hb, rfl⟩ := hb
      obtain ⟨self', hfree, hst⟩ := h.free hb
      rw [hfree, Option.map_some, Option.some.injEq] at ha
      rw [← ha, h.filter hb]
      exact hst
    · cases ha
  | size o =>
    rw [buddyStep] at ha
    split at ha
    · obtain ⟨-, -, rfl⟩ := Option.map_eq_some_iff.1 ha
      exact h
    · cases ha

/-- The marks as a run of calls leaves them. -/
theorem reach_stands (h : (buddyLts level).Reach (fun _ _ _ => True) σ) : Stands level σ := by
  refine h.induct ?_ ?_
  · rintro s rfl
    exact stands_new level
  · exact fun s b s' _ ih hb _ => ih.step hb

/-- **The buddy allocator refines its live blocks.** After any calls, what the next one does is
determined by the set of live blocks. -/
theorem reach_buddyLaw (h : (buddyLts level).Reach (fun _ _ _ => True) σ) : BuddyLaw level σ ∧
    ∀ σ', (buddyLts level).Reach (fun _ _ _ => True) σ' → σ'.2 = σ.2 →
      ∀ s ≤ 2 ^ 30, (σ'.1.alloc s).map Prod.snd = (σ.1.alloc s).map Prod.snd := by
  have hst := reach_stands h
  refine ⟨⟨fun s hs => ?_, fun b hb => hst.size hb, fun b hb => ?_, fun b hb b' hb' =>
    hst.apart hb hb'⟩, fun σ' h' he s hs => ?_⟩
  · obtain ⟨self', r, hr, hcase⟩ := hst.alloc hs
    refine ⟨self', r, hr, ?_⟩
    rcases hcase with ⟨o, ho, hleast, -⟩ | ⟨ho, hnone, -⟩
    · exact .inl ⟨o, ho, hleast⟩
    · exact .inr ⟨ho, hnone⟩
  · obtain ⟨self', hfree, -⟩ := hst.free hb
    exact ⟨self', hfree⟩
  · obtain ⟨self₁, r₁, hr₁, hcase₁⟩ := hst.alloc hs
    obtain ⟨self₂, r₂, hr₂, hcase₂⟩ := (reach_stands h').alloc hs
    rw [hr₁, hr₂, Option.map_some, Option.map_some]
    rw [he] at hcase₂
    rcases hcase₁ with ⟨o₁, rfl, hl₁, -⟩ | ⟨rfl, hn₁, -⟩
    · rcases hcase₂ with ⟨o₂, rfl, hl₂, -⟩ | ⟨rfl, hn₂, -⟩
      · rw [hl₁.unique hl₂]
      · exact absurd hl₁.1 (hn₂ o₁)
    · rcases hcase₂ with ⟨o₂, rfl, hl₂, -⟩ | ⟨rfl, hn₂, -⟩
      · exact absurd hl₂.1 (hn₁ o₂)
      · rfl

/-- A run with two blocks of which one is given back, and what follows for it. -/
theorem buddyLaw_run : ∃ σ, (buddyLts 3).Reach (fun _ _ _ => True) σ ∧ σ.2 = {(2, 2)} ∧
    BuddyLaw 3 σ ∧ ∀ σ', (buddyLts 3).Reach (fun _ _ _ => True) σ' → σ'.2 = σ.2 →
      ∀ s ≤ 2 ^ 30, (σ'.1.alloc s).map Prod.snd = (σ.1.alloc s).map Prod.snd := by
  have hrun : ((buddyLts 3).run (buddyNew 3, ∅) [.alloc 1, .alloc 2, .size 2, .free 0]).map
      Prod.snd = some {(2, 2)} := by
    decide +kernel
  obtain ⟨σ, h, ho⟩ := Lts.Reach.of_run rfl hrun
  exact ⟨σ, h, ho, reach_buddyLaw h⟩

end

end DstmP1
