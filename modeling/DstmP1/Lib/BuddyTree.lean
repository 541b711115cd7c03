import Mathlib.Algebra.Order.Group.Nat
import Mathlib.Algebra.Ring.Nat
import Mathlib.Data.Finset.Basic
import Mathlib.Data.Finset.Lattice.Lemmas
import Mathlib.Tactic.Ring

/-!
# Buddy trees

A range of `2 ^ n` cells is free, or one block, or two halves. A buddy tree says which, and its
depth bounds how often the range can be halved. Blocks are taken from the leftmost range that is
free as a whole, and two free halves are joined again when a block is given back. What this comes to
is said in terms of the set of live blocks alone: a block is put at the least aligned place that
meets no live block (`alloc_some`, `alloc_none`), and giving it back takes it out of the set
(`release_spec`).
-/

namespace DstmP1

/-- How a range of `2 ^ n` cells is divided. -/
inductive BuddyTree : ℕ → Type where
  | free {n : ℕ} : BuddyTree n
  | used {n : ℕ} : BuddyTree n
  | node {n : ℕ} (l r : BuddyTree n) : BuddyTree (n + 1)

/-- A range of `len` cells from `o` on meets no block, given by its first cell and its length. -/
def Clear (live : Finset (ℕ × ℕ)) (o len : ℕ) : Prop :=
  ∀ b ∈ live, b.1 + b.2 ≤ o ∨ o + len ≤ b.1

theorem Clear.mono {live live' : Finset (ℕ × ℕ)} {o len : ℕ} (h : Clear live' o len)
    (hs : live ⊆ live') : Clear live o len :=
  fun b hb => h b (hs hb)

theorem Clear.union {live live' : Finset (ℕ × ℕ)} {o len : ℕ} (h : Clear live o len)
    (h' : Clear live' o len) : Clear (live ∪ live') o len :=
  fun b hb => (Finset.mem_union.1 hb).elim (h b) (h' b)

namespace BuddyTree

variable {n k : ℕ}

/-! ## Operations -/

/-- No cell is free. -/
def full : {n : ℕ} → BuddyTree n → Bool
  | _, .free => false
  | _, .used => true
  | _, .node l r => l.full && r.full

/-- The whole range becomes a block. -/
def take : BuddyTree n → Option (BuddyTree n × ℕ)
  | .free => some (.used, 0)
  | _ => none

/-- The halves of a range that is not one block. -/
def split : BuddyTree (n + 1) → Option (BuddyTree n × BuddyTree n)
  | .free => some (.free, .free)
  | .used => none
  | .node l r => some (l, r)

/-- A block of `2 ^ k` cells, and the cells before it. -/
def alloc (k : ℕ) : (n : ℕ) → BuddyTree n → Option (BuddyTree n × ℕ)
  | 0, t => if k = 0 then t.take else none
  | n + 1, t =>
    if k = n + 1 then t.take
    else
      match t.split with
      | none => none
      | some (l, r) =>
        match alloc k n l with
        | some (l', o) => some (.node l' r, o)
        | none => (alloc k n r).map fun p => (.node l p.1, 2 ^ n + p.2)

/-- Two halves as one range. -/
def join : BuddyTree n → BuddyTree n → BuddyTree (n + 1)
  | .free, .free => .free
  | l, r => .node l r

/-- The block that has `o` cells before it is given back. -/
def release : (n : ℕ) → BuddyTree n → ℕ → Option (BuddyTree n)
  | _, .free, _ => none
  | _, .used, o => if o = 0 then some .free else none
  | n + 1, .node l r, o =>
    if o < 2 ^ n then (release n l o).map fun l' => join l' r
    else (release n r (o - 2 ^ n)).map fun r' => join l r'

/-- The length of the block that has `o` cells before it. -/
def sizeAt : (n : ℕ) → BuddyTree n → ℕ → Option ℕ
  | _, .free, _ => none
  | n, .used, o => if o = 0 then some (2 ^ n) else none
  | n + 1, .node l r, o => if o < 2 ^ n then sizeAt n l o else sizeAt n r (o - 2 ^ n)

/-- The live blocks of a range that starts at `base`. -/
def blocks : (n : ℕ) → BuddyTree n → ℕ → Finset (ℕ × ℕ)
  | _, .free, _ => ∅
  | n, .used, base => {(base, 2 ^ n)}
  | n + 1, .node l r, base => blocks n l base ∪ blocks n r (base + 2 ^ n)

def isFree : BuddyTree n → Bool
  | .free => true
  | _ => false

/-- No range is halved into two free halves. -/
def Canonical : {n : ℕ} → BuddyTree n → Prop
  | _, .free => True
  | _, .used => True
  | _, .node l r => (l.isFree && r.isFree) = false ∧ l.Canonical ∧ r.Canonical

/-! ## Blocks of a range -/

theorem eq_free_of_isFree {t : BuddyTree n} (h : t.isFree = true) : t = .free := by
  cases t with
  | free => rfl
  | used => cases h
  | node l r => cases h

/-- The blocks of a range lie in it. -/
theorem within {t : BuddyTree n} {base : ℕ} {b : ℕ × ℕ} (hb : b ∈ blocks n t base) :
    base ≤ b.1 ∧ 0 < b.2 ∧ b.1 + b.2 ≤ base + 2 ^ n := by
  induction t generalizing base with
  | free => exact absurd hb (Finset.notMem_empty b)
  | used =>
    rw [Finset.mem_singleton.1 hb]
    exact ⟨Nat.le_refl _, Nat.two_pow_pos _, Nat.le_refl _⟩
  | node l r ihl ihr =>
    rw [pow_succ]
    rcases Finset.mem_union.1 hb with hb | hb
    · obtain ⟨h1, h2, h3⟩ := ihl hb
      exact ⟨h1, h2, by omega⟩
    · obtain ⟨h1, h2, h3⟩ := ihr hb
      exact ⟨by omega, h2, by omega⟩

/-- A range that is not free has a block. -/
theorem exists_block {t : BuddyTree n} (hc : t.Canonical) (hf : t.isFree = false) (base : ℕ) :
    ∃ b, b ∈ blocks n t base := by
  induction t generalizing base with
  | free => cases hf
  | used => exact ⟨_, Finset.mem_singleton_self _⟩
  | node l r ihl ihr =>
    obtain ⟨hlr, hl, hr⟩ := hc
    rcases Bool.and_eq_false_iff.1 hlr with h | h
    · obtain ⟨b, hb⟩ := ihl hl h base
      exact ⟨b, Finset.mem_union_left _ hb⟩
    · obtain ⟨b, hb⟩ := ihr hr h (base + _)
      exact ⟨b, Finset.mem_union_right _ hb⟩

/-- Live blocks do not overlap. -/
theorem blocks_apart {t : BuddyTree n} {base : ℕ} {b b' : ℕ × ℕ} (hb : b ∈ blocks n t base)
    (hb' : b' ∈ blocks n t base) (hne : b ≠ b') : b.1 + b.2 ≤ b'.1 ∨ b'.1 + b'.2 ≤ b.1 := by
  induction t generalizing base with
  | free => exact absurd hb (Finset.notMem_empty b)
  | used => exact absurd ((Finset.mem_singleton.1 hb).trans (Finset.mem_singleton.1 hb').symm) hne
  | node l r ihl ihr =>
    rcases Finset.mem_union.1 hb with hb | hb
    · rcases Finset.mem_union.1 hb' with hb' | hb'
      · exact ihl hb hb'
      · exact .inl ((within hb).2.2.trans (within hb').1)
    · rcases Finset.mem_union.1 hb' with hb' | hb'
      · exact .inr ((within hb').2.2.trans (within hb).1)
      · exact ihr hb hb'

/-- The halves have the blocks of the range. -/
theorem split_some {t : BuddyTree (n + 1)} {l r : BuddyTree n} (h : t.split = some (l, r))
    (hc : t.Canonical) : l.Canonical ∧ r.Canonical ∧
      ∀ base, blocks (n + 1) t base = blocks n l base ∪ blocks n r (base + 2 ^ n) := by
  cases t with
  | free =>
    cases h
    exact ⟨trivial, trivial, fun _ => rfl⟩
  | used => cases h
  | node l' r' =>
    cases h
    exact ⟨hc.2.1, hc.2.2, fun _ => rfl⟩

/-! ## Taking a block -/

/-- A range that is taken as a whole was free. -/
theorem take_some {t t' : BuddyTree n} {o : ℕ} (h : t.take = some (t', o)) :
    t = .free ∧ t' = .used ∧ o = 0 := by
  cases t with
  | free => cases h; exact ⟨rfl, rfl, rfl⟩
  | used => cases h
  | node l r => cases h

theorem take_none {t : BuddyTree n} (h : t.take = none) : t.isFree = false := by
  cases t with
  | free => cases h
  | used => rfl
  | node l r => rfl

/-- An aligned place that begins in a range ends in it. -/
theorem add_le_of_dvd {o : ℕ} (hk : k ≤ n) (hd : 2 ^ k ∣ o) (ho : o < 2 ^ n) :
    o + 2 ^ k ≤ 2 ^ n := by
  obtain ⟨q, rfl⟩ := hd
  obtain ⟨d, rfl⟩ := Nat.exists_eq_add_of_le hk
  rw [pow_add] at ho ⊢
  have hq : q < 2 ^ d := Nat.lt_of_mul_lt_mul_left ho
  calc 2 ^ k * q + 2 ^ k = 2 ^ k * (q + 1) := by ring
    _ ≤ 2 ^ k * 2 ^ d := Nat.mul_le_mul_left _ hq

/-- A range with a block in it is not clear as a whole. -/
theorem not_clear_whole {t : BuddyTree n} {base : ℕ} {b : ℕ × ℕ} (hb : b ∈ blocks n t base) :
    ¬ Clear (blocks n t base) base (2 ^ n) := by
  intro h
  obtain ⟨h1, h2, h3⟩ := within hb
  rcases h b hb with h | h
  · omega
  · omega

/-- Nothing in a range that is one block is clear. -/
theorem not_clear_used {base o len : ℕ} (hlen : 0 < len) (ho : o + len ≤ 2 ^ n) :
    ¬ Clear (blocks n .used base) (base + o) len := by
  intro h
  rcases h _ (Finset.mem_singleton_self _) with h | h
  · dsimp only at h
    omega
  · dsimp only at h
    omega

/-- When the range cannot be taken as a whole, it is not clear. -/
theorem not_clear_of_take {t : BuddyTree n} (hc : t.Canonical) (ht : t.take = none) (base : ℕ)
    {o : ℕ} (ho : o + 2 ^ n ≤ 2 ^ n) : ¬ Clear (blocks n t base) (base + o) (2 ^ n) := by
  obtain ⟨b, hb⟩ := exists_block hc (take_none ht) base
  obtain rfl : o = 0 := by omega
  exact not_clear_whole hb

/-- When no block is taken, no place in the range is clear. -/
theorem alloc_none {t : BuddyTree n} (hk : k ≤ n) (hc : t.Canonical) (h : alloc k n t = none)
    (base : ℕ) {o : ℕ} (hd : 2 ^ k ∣ o) (ho : o + 2 ^ k ≤ 2 ^ n) :
    ¬ Clear (blocks n t base) (base + o) (2 ^ k) := by
  induction n generalizing base o with
  | zero =>
    obtain rfl : k = 0 := Nat.le_zero.1 hk
    exact not_clear_of_take hc h base ho
  | succ n ih =>
    rw [alloc] at h
    split at h
    · rename_i hkn
      subst hkn
      exact not_clear_of_take hc h base ho
    · have hkn : k ≤ n := by omega
      split at h
      · rename_i hs
        cases t with
        | free => cases hs
        | used => exact not_clear_used (Nat.two_pow_pos k) ho
        | node l r => cases hs
      · rename_i l r hs
        obtain ⟨hl, hr, hb⟩ := split_some hs hc
        split at h
        · cases h
        · rename_i hnone
          rw [Option.map_eq_none_iff] at h
          rw [hb]
          intro hclear
          rcases Nat.lt_or_ge o (2 ^ n) with hlt | hge
          · exact ih hkn hl hnone base hd (add_le_of_dvd hkn hd hlt)
              (hclear.mono Finset.subset_union_left)
          · obtain ⟨o, rfl⟩ := Nat.exists_eq_add_of_le hge
            have hd' : 2 ^ k ∣ o := (Nat.dvd_add_right (pow_dvd_pow 2 hkn)).1 hd
            rw [pow_succ] at ho
            rw [← Nat.add_assoc] at hclear
            exact ih hkn hr h (base + 2 ^ n) hd' (by omega)
              (hclear.mono Finset.subset_union_right)

/-- `t'` has one block more than `t`, at the least aligned place that is clear, which has `o` cells
before it. -/
structure Takes (k : ℕ) {n : ℕ} (t : BuddyTree n) (base : ℕ) (t' : BuddyTree n) (o : ℕ) : Prop where
  aligned : 2 ^ k ∣ o
  inside : o + 2 ^ k ≤ 2 ^ n
  clear : Clear (blocks n t base) (base + o) (2 ^ k)
  least : ∀ i < o, 2 ^ k ∣ i → ¬ Clear (blocks n t base) (base + i) (2 ^ k)
  blocks : blocks n t' base = insert (base + o, 2 ^ k) (blocks n t base)
  canonical : t'.Canonical
  notFree : t'.isFree = false

theorem Takes.of_take {t t' : BuddyTree n} {o : ℕ} (h : t.take = some (t', o)) (base : ℕ) :
    Takes n t base t' o := by
  obtain ⟨rfl, rfl, rfl⟩ := take_some h
  refine ⟨Nat.dvd_zero _, (Nat.zero_add _).le, ?_, ?_, rfl, trivial, rfl⟩
  · exact fun b hb => absurd hb (Finset.notMem_empty b)
  · exact fun i hi => absurd hi (Nat.not_lt_zero i)

/-- A place in the left half is before all places in the right. -/
theorem Takes.left {t : BuddyTree (n + 1)} {l l' r : BuddyTree n} {base o : ℕ}
    (h : Takes k l base l' o) (hr : r.Canonical)
    (hb : BuddyTree.blocks (n + 1) t base =
      BuddyTree.blocks n l base ∪ BuddyTree.blocks n r (base + 2 ^ n)) :
    Takes k t base (.node l' r) o := by
  refine ⟨h.aligned, ?_, ?_, ?_, ?_, ⟨?_, h.canonical, hr⟩, rfl⟩
  · rw [pow_succ]
    have hi := h.inside
    omega
  · rw [hb]
    refine h.clear.union fun b hbr => .inr ?_
    have h1 := (within hbr).1
    have hi := h.inside
    omega
  · intro i hi hd hclear
    rw [hb] at hclear
    exact h.least i hi hd (hclear.mono Finset.subset_union_left)
  · rw [BuddyTree.blocks, h.blocks, hb, Finset.insert_union]
  · rw [h.notFree, Bool.false_and]

/-- A place in the right half is the least when the left half has none. -/
theorem Takes.right {t : BuddyTree (n + 1)} {l r r' : BuddyTree n} {base o : ℕ}
    (h : Takes k r (base + 2 ^ n) r' o) (hl : l.Canonical)
    (hnone : ∀ i, 2 ^ k ∣ i → i + 2 ^ k ≤ 2 ^ n →
      ¬ Clear (BuddyTree.blocks n l base) (base + i) (2 ^ k))
    (hb : BuddyTree.blocks (n + 1) t base =
      BuddyTree.blocks n l base ∪ BuddyTree.blocks n r (base + 2 ^ n)) :
    Takes k t base (.node l r') (2 ^ n + o) := by
  have hinside := h.inside
  have hkn : k ≤ n := (Nat.pow_le_pow_iff_right Nat.one_lt_two).1 (by omega)
  refine ⟨Nat.dvd_add (pow_dvd_pow 2 hkn) h.aligned, ?_, ?_, ?_, ?_, ⟨?_, hl, h.canonical⟩, rfl⟩
  · rw [pow_succ]
    omega
  · rw [hb, ← Nat.add_assoc]
    refine Clear.union (fun b hbl => .inl ?_) h.clear
    have h3 := (within hbl).2.2
    omega
  · intro i hi hd hclear
    rw [hb] at hclear
    rcases Nat.lt_or_ge i (2 ^ n) with hlt | hge
    · exact hnone i hd (add_le_of_dvd hkn hd hlt) (hclear.mono Finset.subset_union_left)
    · obtain ⟨i, rfl⟩ := Nat.exists_eq_add_of_le hge
      have hd' : 2 ^ k ∣ i := (Nat.dvd_add_right (pow_dvd_pow 2 hkn)).1 hd
      rw [← Nat.add_assoc] at hclear
      exact h.least i (by omega) hd' (hclear.mono Finset.subset_union_right)
  · rw [BuddyTree.blocks, h.blocks, hb, Finset.union_insert, Nat.add_assoc]
  · rw [h.notFree, Bool.and_false]

/-- **A block is taken at the least place that is clear.** -/
theorem alloc_some {t t' : BuddyTree n} {o : ℕ} (hc : t.Canonical)
    (h : alloc k n t = some (t', o)) (base : ℕ) : Takes k t base t' o := by
  induction n generalizing base o with
  | zero =>
    rw [alloc] at h
    split at h
    · rename_i hk
      subst hk
      exact .of_take h base
    · cases h
  | succ n ih =>
    rw [alloc] at h
    split at h
    · rename_i hk
      subst hk
      exact .of_take h base
    · split at h
      · cases h
      · rename_i l r hs
        obtain ⟨hl, hr, hb⟩ := split_some hs hc
        split at h
        · rename_i l' o' hsome
          cases h
          exact (ih hl hsome base).left hr (hb base)
        · rename_i hnone
          obtain ⟨⟨r', o'⟩, hsome, he⟩ := Option.map_eq_some_iff.1 h
          cases he
          have htake := ih hr hsome (base + 2 ^ n)
          have hkn : k ≤ n := by
            have hi := htake.inside
            exact (Nat.pow_le_pow_iff_right Nat.one_lt_two).1 (by omega)
          exact htake.right hl (fun i => alloc_none hkn hl hnone base) (hb base)

/-- A block that is shorter than the range is taken from one of the halves. -/
theorem alloc_split (hk : k ≤ n) {t : BuddyTree (n + 1)} {l r : BuddyTree n}
    (hs : t.split = some (l, r)) : alloc k (n + 1) t =
      match alloc k n l with
      | some (l', o) => some (.node l' r, o)
      | none => (alloc k n r).map fun p => (.node l p.1, 2 ^ n + p.2) := by
  rw [alloc, if_neg (by omega), hs]

/-- A free range has a place. -/
theorem alloc_free (hk : k ≤ n) : alloc k n .free ≠ none := by
  intro h
  refine alloc_none hk (by rw [Canonical]; trivial) h 0 (Nat.dvd_zero _)
    ((Nat.zero_add _).le.trans (Nat.pow_le_pow_right Nat.two_pos hk)) ?_
  exact fun b hb => absurd hb (Finset.notMem_empty b)

/-- A range without a free cell has no place. -/
theorem alloc_full {t : BuddyTree n} (h : t.full = true) : alloc k n t = none := by
  induction n with
  | zero =>
    rw [alloc]
    split
    · cases t with
      | free => cases h
      | used => rfl
    · rfl
  | succ n ih =>
    rw [alloc]
    cases t with
    | free => cases h
    | used =>
      split
      · rfl
      · rfl
    | node l r =>
      rw [full, Bool.and_eq_true] at h
      split
      · rfl
      · simp only [split, ih h.1, ih h.2, Option.map_none]

/-! ## Giving a block back -/

theorem blocks_join (l r : BuddyTree n) (base : ℕ) :
    blocks (n + 1) (join l r) base = blocks n l base ∪ blocks n r (base + 2 ^ n) := by
  unfold join
  split
  · rfl
  · rfl

theorem canonical_join {l r : BuddyTree n} (hl : l.Canonical) (hr : r.Canonical) :
    (join l r).Canonical := by
  unfold join
  split
  · trivial
  · rename_i hne
    refine ⟨?_, hl, hr⟩
    rw [Bool.and_eq_false_iff]
    by_contra hf
    rw [not_or, Bool.not_eq_false, Bool.not_eq_false] at hf
    exact hne (eq_free_of_isFree hf.1) (eq_free_of_isFree hf.2)

theorem full_join (l r : BuddyTree n) : (join l r).full = (l.full && r.full) := by
  unfold join
  split
  · rw [full, full, Bool.false_and]
  · rw [full]

theorem isFree_join (l r : BuddyTree n) : (join l r).isFree = (l.isFree && r.isFree) := by
  cases l with
  | free =>
    cases r with
    | free | used | node => rfl
  | used | node => rfl

/-- A range in which a block has been given back has a free cell. -/
theorem full_release {t t' : BuddyTree n} {o : ℕ} (h : release n t o = some t') :
    t'.full = false := by
  induction t generalizing o with
  | free => cases h
  | used =>
    rw [release] at h
    split at h
    · cases h
      rw [full]
    · cases h
  | node l r ihl ihr =>
    rw [release] at h
    split at h
    · obtain ⟨l', hl, rfl⟩ := Option.map_eq_some_iff.1 h
      rw [full_join, ihl hl, Bool.false_and]
    · obtain ⟨r', hr, rfl⟩ := Option.map_eq_some_iff.1 h
      rw [full_join, ihr hr, Bool.and_false]

/-- A block of the left half has fewer cells before it than the half has. -/
theorem lt_of_mem_left {l : BuddyTree n} {base o len : ℕ} (h : (base + o, len) ∈ blocks n l base) :
    o < 2 ^ n := by
  obtain ⟨-, h2, h3⟩ := within h
  dsimp only at h2 h3
  omega

theorem le_of_mem_right {r : BuddyTree n} {base o len : ℕ}
    (h : (base + o, len) ∈ blocks n r (base + 2 ^ n)) : 2 ^ n ≤ o := by
  have h1 := (within h).1
  dsimp only at h1
  omega

/-- **A block that is given back is taken out of the live blocks.** -/
theorem release_spec {t : BuddyTree n} (hc : t.Canonical) {base o len : ℕ}
    (h : (base + o, len) ∈ blocks n t base) : ∃ t', release n t o = some t' ∧
      blocks n t' base = (blocks n t base).erase (base + o, len) ∧ t'.Canonical := by
  induction t generalizing base o with
  | free => exact absurd h (Finset.notMem_empty _)
  | @used n =>
    have he := Finset.mem_singleton.1 h
    obtain ⟨h1, h2⟩ := Prod.mk.inj he
    obtain rfl : o = 0 := by omega
    refine ⟨.free, rfl, ?_, trivial⟩
    rw [he]
    exact (Finset.erase_singleton _).symm
  | @node n l r ihl ihr =>
    rcases Finset.mem_union.1 h with hm | hm
    · obtain ⟨l', hl', hb, hcl⟩ := ihl hc.2.1 hm
      refine ⟨join l' r, ?_, ?_, canonical_join hcl hc.2.2⟩
      · rw [release, if_pos (lt_of_mem_left hm), hl', Option.map_some]
      · have hnot : (base + o, len) ∉ blocks n r (base + 2 ^ n) := fun hr =>
          absurd (le_of_mem_right hr) (Nat.not_le.2 (lt_of_mem_left hm))
        rw [blocks_join, hb, blocks, Finset.erase_union_distrib, Finset.erase_eq_of_notMem hnot]
    · have hle := le_of_mem_right hm
      obtain ⟨o, rfl⟩ := Nat.exists_eq_add_of_le hle
      rw [← Nat.add_assoc] at hm
      obtain ⟨r', hr', hb, hcr⟩ := ihr hc.2.2 hm
      refine ⟨join l r', ?_, ?_, canonical_join hc.2.1 hcr⟩
      · rw [release, if_neg (Nat.not_lt.2 hle), Nat.add_sub_cancel_left, hr', Option.map_some]
      · have hnot : (base + 2 ^ n + o, len) ∉ blocks n l base := fun hl => by
          rw [Nat.add_assoc] at hl
          exact absurd (lt_of_mem_left hl) (Nat.not_lt.2 hle)
        rw [blocks_join, hb, blocks, ← Nat.add_assoc, Finset.erase_union_distrib,
          Finset.erase_eq_of_notMem hnot]

/-- The length that is found is that of the block. -/
theorem sizeAt_spec {t : BuddyTree n} {base o len : ℕ} (h : (base + o, len) ∈ blocks n t base) :
    sizeAt n t o = some len := by
  induction t generalizing base o with
  | free => exact absurd h (Finset.notMem_empty _)
  | used =>
    obtain ⟨h1, h2⟩ := Prod.mk.inj (Finset.mem_singleton.1 h)
    obtain rfl : o = 0 := by omega
    rw [h2]
    rfl
  | @node n l r ihl ihr =>
    rw [sizeAt]
    rcases Finset.mem_union.1 h with hm | hm
    · rw [if_pos (lt_of_mem_left hm)]
      exact ihl hm
    · have hle := le_of_mem_right hm
      obtain ⟨o, rfl⟩ := Nat.exists_eq_add_of_le hle
      rw [if_neg (Nat.not_lt.2 hle), Nat.add_sub_cancel_left]
      rw [← Nat.add_assoc] at hm
      exact ihr hm

end BuddyTree

end DstmP1
