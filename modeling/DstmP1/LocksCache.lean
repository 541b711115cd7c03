import DstmP1.Rules

/-!
# The lock-word cache of `VARIANT3`

In a `VARIANT3` build `validate` and `validateAll` load lock words through a new `DSTMLocksCache`
(`dstm_locks_cache.cpp`), which copies a whole line of `1 << cl_pow` bytes for a lock word of
another node. A line is looked up under its local address and stored under the address with the
number of its node, so the two keys meet for node 0 only.

Memory changes all the time: `Memory` gives every 64-bit word at every moment, the creation of
the cache being moment 0, and `Moments` says when a call copies each word and when it returns.
`transparent_iff` says for which sequences of lock addresses every call returns a word that has
really stood at its address, whatever the memory does, and which reads of `validate` and
`validateAll` can be trusted.
-/

namespace DstmP1

open Segments (Loc)

/-! ## Memory and calls -/

/-- The 64-bit words of all nodes at every moment. -/
abbrev Memory := ℕ → Loc → Word

/-- The scheduling of a call: when the word at a local address is loaded or copied, when the call
returns, and what the heap holds behind the buffer of a line. -/
structure Moments where
  moment : Word → ℕ
  ret : ℕ
  moment_le : ∀ p, moment p ≤ ret
  behind : Word

/-- A line, by the offset of its words. -/
abbrev Line := Word → Word

/-- `i_map`. -/
abbrev LineMap := Word → Option Line

/-- `cl_pow`, for which `1 << cl_pow` is an `int`. -/
abbrev ClPow := Fin 31

section
variable (mynode : ℕ) (pow : ClPow) (mem : Memory)

/-- `low_bound`. -/
def lowBound (addr : Word) : Word := (addrFromAddress addr >>> pow.val) <<< pow.val

/-- The word that is read from a buffer of `1 << cl_pow` bytes into which `w` has been copied; a
line of fewer than eight bytes leaves the upper bytes to what lies behind it. -/
def clip (w behind : Word) : Word :=
  if 3 ≤ pow.val then w
  else (w &&& BitVec.ofNat 64 (2 ^ (8 * 2 ^ pow.val) - 1)) ||| (behind <<< (8 * 2 ^ pow.val))

/-- The line at the local address `low` of `node`, as a call copies it. -/
def fetchLine (node : ℕ) (low : Word) (t : Moments) : Line := fun off =>
  clip pow (mem (t.moment (low + off)) (node, low + off)) t.behind

/-- The key under which a line is stored. -/
def lineKey (low : Word) (node : ℕ) : Word := low ||| (BitVec.ofNat 64 node <<< 48)

/-- `DSTMLocksCache::get`. -/
def LineMap.get (map : LineMap) (addr : Word) (t : Moments) : LineMap × Word :=
  let node := nodeFromAddress addr
  if node = mynode then
    (map, mem (t.moment (addrFromAddress addr)) (node, addrFromAddress addr))
  else
    let low := lowBound pow addr
    match map low with
    | some line => (map, line (addrFromAddress addr - low))
    | none =>
      let line := fetchLine pow mem node low t
      (Function.update map (lineKey low node) (some line), line (addrFromAddress addr - low))

/-- The words that a sequence of calls returns. -/
def LineMap.gets : LineMap → List (Word × Moments) → List Word
  | _, [] => []
  | map, c :: cs => let r := map.get mynode pow mem c.1 c.2; r.2 :: LineMap.gets r.1 cs

/-- The line size that `validate` and `validateAll` set. -/
def validatePow : ClPow := 4

/-- The loop of `validate` and `validateAll` over entries of cell and recorded timestamp: the
lock words it has judged cells by, and its result. -/
def validateLoop (g : Segments) (cache : Word → Option Word) :
    LineMap → List ((Word × Word) × Moments) → List Word × Bool
  | _, [] => ([], true)
  | map, ((b, ts), t) :: es =>
    if cacheChanged cache b ts then ([], false)
    else
      let r := map.get mynode validatePow mem (g.getObjectLockAddr b) t
      if Tx.changed r.2 ts then ([r.2], false)
      else let s := validateLoop g cache r.1 es; (r.2 :: s.1, s.2)

end

/-! ## Transparency -/

/-- `w` has stood at the address `addr` by the moment `ret`. -/
def Stood (mem : Memory) (addr w : Word) (ret : ℕ) : Prop :=
  ∃ m ≤ ret, w = mem m (nodeFromAddress addr, addrFromAddress addr)

/-- The calls of a thread return one after the other. -/
def InOrder {α : Type*} (cs : List (α × Moments)) : Prop :=
  cs.Pairwise fun c c' => c.2.ret ≤ c'.2.ret

/-- Whatever the memory does and whenever the words are copied, every call returns a word that
has stood at its own address. -/
def Transparent (mynode : ℕ) (pow : ClPow) (addrs : List Word) : Prop :=
  ∀ (mem : Memory) (cs : List (Word × Moments)), cs.map Prod.fst = addrs → InOrder cs →
    List.Forall₂ (fun c w => Stood mem c.1 w c.2.ret) cs
      (LineMap.gets mynode pow mem (fun _ => none) cs)

/-- A validation judges each cell by a word that has stood in its own lock word. -/
def JudgesRight (mynode : ℕ) (g : Segments) (entries : List (Word × Word)) : Prop :=
  ∀ (mem : Memory) (cache : Word → Option Word) (es : List ((Word × Word) × Moments)),
    es.map Prod.fst = entries → InOrder es →
    let judged := (validateLoop mynode mem g cache (fun _ => none) es).1
    List.Forall₂ (fun e w => ∃ m ≤ e.2.ret, w = mem m (g.lockLoc e.1.1))
      (es.take judged.length) judged

/-- The line of `a` is one of node 0, copied from there, and `a'` is in the line with the same
local address of a third node. -/
def Mixed (mynode : ℕ) (pow : ClPow) (a a' : Word) : Prop :=
  nodeFromAddress a = 0 ∧ nodeFromAddress a ≠ mynode ∧
    nodeFromAddress a' ≠ 0 ∧ nodeFromAddress a' ≠ mynode ∧ lowBound pow a = lowBound pow a'

section
variable {mynode : ℕ} {pow : ClPow} {mem : Memory} {map : LineMap} {addr : Word} {t : Moments}

theorem lowBound_toNat_lt (pow : ClPow) (addr : Word) : (lowBound pow addr).toNat < 2 ^ 48 := by
  have h : (lowBound pow addr).toNat ≤ (addrFromAddress addr).toNat := by
    rw [lowBound, BitVec.toNat_shiftLeft, BitVec.toNat_ushiftRight, Nat.shiftRight_eq_div_pow,
      Nat.shiftLeft_eq]
    exact (Nat.mod_le _ _).trans (Nat.div_mul_le_self _ _)
  rw [addrFromAddress_toNat] at h
  omega

/-- A line is found again only when it is one of node 0. -/
theorem lineKey_eq_iff {node : ℕ} (hn : node < 2 ^ 15) {low low' : Word}
    (hl : low.toNat < 2 ^ 48) (hl' : low'.toNat < 2 ^ 48) :
    lineKey low node = low' ↔ node = 0 ∧ low = low' := by
  have h : (lineKey low node).toNat = node * 2 ^ 48 + low.toNat := by
    have hs : (BitVec.ofNat 64 node <<< 48).toNat = node * 2 ^ 48 := by
      rw [BitVec.toNat_shiftLeft, BitVec.toNat_ofNat, Nat.shiftLeft_eq]
      omega
    rw [lineKey, BitVec.toNat_or, hs, Nat.or_comm, Nat.mul_comm, ← Nat.two_pow_add_eq_or_of_lt hl]
  rw [← BitVec.toNat_inj, ← BitVec.toNat_inj, h]
  omega

theorem clip_of_le (h : 3 ≤ pow.val) (w behind : Word) : clip pow w behind = w := if_pos h

/-! ### Sequences without a mixed pair -/

/-- The lines under untagged keys have been copied from node 0 by calls for the addresses `past`,
by the moment `ret`. -/
def LineMap.Ok (mynode : ℕ) (pow : ClPow) (mem : Memory) (past : List Word) (ret : ℕ)
    (map : LineMap) : Prop :=
  ∀ low line, low.toNat < 2 ^ 48 → map low = some line →
    (∃ a ∈ past, nodeFromAddress a = 0 ∧ nodeFromAddress a ≠ mynode ∧ lowBound pow a = low) ∧
      ∀ off, ∃ m ≤ ret, line off = mem m (0, low + off)

/-- An empty cache knows nothing. -/
theorem LineMap.Ok.empty (mynode : ℕ) (pow : ClPow) (mem : Memory) :
    LineMap.Ok mynode pow mem [] 0 fun _ => none := fun _ _ _ h => by cases h

/-- The words of a line that is long enough are words of memory. -/
theorem fetchLine_eq (h : 3 ≤ pow.val) (node : ℕ) (low : Word) (off : Word) :
    fetchLine pow mem node low t off = mem (t.moment (low + off)) (node, low + off) :=
  clip_of_le h _ _

/-- Lock words of the own node are read from memory. -/
theorem get_own (h : nodeFromAddress addr = mynode) : map.get mynode pow mem addr t =
    (map, mem (t.moment (addrFromAddress addr)) (nodeFromAddress addr, addrFromAddress addr)) :=
  if_pos h

/-- A line that is there serves the lookup. -/
theorem get_hit (h : nodeFromAddress addr ≠ mynode) {line : Line}
    (hl : map (lowBound pow addr) = some line) : map.get mynode pow mem addr t =
      (map, line (addrFromAddress addr - lowBound pow addr)) := by
  simp only [LineMap.get, if_neg h, hl]

/-- A line that is not there is fetched. -/
theorem get_miss (h : nodeFromAddress addr ≠ mynode) (hl : map (lowBound pow addr) = none) :
    map.get mynode pow mem addr t =
      (Function.update map (lineKey (lowBound pow addr) (nodeFromAddress addr))
          (some (fetchLine pow mem (nodeFromAddress addr) (lowBound pow addr) t)),
        fetchLine pow mem (nodeFromAddress addr) (lowBound pow addr) t
          (addrFromAddress addr - lowBound pow addr)) := by
  simp only [LineMap.get, if_neg h, hl]

/-- An address lies in its line. -/
theorem lowBound_add (pow : ClPow) (addr : Word) :
    lowBound pow addr + (addrFromAddress addr - lowBound pow addr) = addrFromAddress addr := by
  rw [BitVec.add_comm, BitVec.sub_add_cancel]

/-- Calls keep the lines in order. -/
theorem LineMap.Ok.get {past : List Word} {ret : ℕ} (h : LineMap.Ok mynode pow mem past ret map)
    (hret : ret ≤ t.ret) (hpow : nodeFromAddress addr ≠ mynode → 3 ≤ pow.val) :
    LineMap.Ok mynode pow mem (past ++ [addr]) t.ret (map.get mynode pow mem addr t).1 := by
  have hkeep : LineMap.Ok mynode pow mem (past ++ [addr]) t.ret map := fun low line hlow hl => by
    obtain ⟨⟨a, ha, hrest⟩, hline⟩ := h low line hlow hl
    refine ⟨⟨a, List.mem_append_left _ ha, hrest⟩, fun off => ?_⟩
    obtain ⟨m, hm, he⟩ := hline off
    exact ⟨m, hm.trans hret, he⟩
  by_cases hne : nodeFromAddress addr = mynode
  · rw [get_own hne]
    exact hkeep
  · cases hl : map (lowBound pow addr) with
    | some line =>
      rw [get_hit hne hl]
      exact hkeep
    | none =>
      rw [get_miss hne hl]
      intro low line hlow hline
      dsimp only at hline
      by_cases hk : low = lineKey (lowBound pow addr) (nodeFromAddress addr)
      · obtain ⟨hn, hkey⟩ := (lineKey_eq_iff (nodeFromAddress_lt addr)
          (lowBound_toNat_lt pow addr) hlow).1 hk.symm
        rw [hk, Function.update_self, Option.some.injEq] at hline
        rw [← hkey, ← hline]
        refine ⟨⟨addr, List.mem_append_right _ (List.mem_singleton.2 rfl), hn, hne, rfl⟩,
          fun off => ⟨t.moment (lowBound pow addr + off), t.moment_le _, ?_⟩⟩
        rw [fetchLine_eq (hpow hne), hn]
      · rw [Function.update_of_ne hk] at hline
        exact hkeep low line hlow hline

/-- A call that is not mixed up with an earlier one returns a word of its own address. -/
theorem LineMap.Ok.stood {past : List Word} {ret : ℕ}
    (h : LineMap.Ok mynode pow mem past ret map) (hret : ret ≤ t.ret)
    (hpow : nodeFromAddress addr ≠ mynode → 3 ≤ pow.val)
    (hmix : ∀ a ∈ past, ¬ Mixed mynode pow a addr) :
    Stood mem addr (map.get mynode pow mem addr t).2 t.ret := by
  by_cases hne : nodeFromAddress addr = mynode
  · rw [get_own hne]
    exact ⟨_, t.moment_le _, rfl⟩
  · cases hl : map (lowBound pow addr) with
    | some line =>
      rw [get_hit hne hl]
      obtain ⟨⟨a, ha, hn, hrem, hlow⟩, hline⟩ := h _ line (lowBound_toNat_lt pow addr) hl
      have h0 : nodeFromAddress addr = 0 := by
        by_contra hne0
        exact hmix a ha ⟨hn, hrem, hne0, hne, hlow⟩
      obtain ⟨m, hm, he⟩ := hline (addrFromAddress addr - lowBound pow addr)
      refine ⟨m, hm.trans hret, ?_⟩
      rw [he, lowBound_add, h0]
    | none =>
      rw [get_miss hne hl]
      refine ⟨t.moment (addrFromAddress addr), t.moment_le _, ?_⟩
      rw [fetchLine_eq (hpow hne), lowBound_add]

/-- No call of a sequence without mixed pairs returns a word of another address. -/
theorem LineMap.Ok.gets {cs : List (Word × Moments)} : ∀ {past : List Word} {ret : ℕ}
    {map : LineMap}, LineMap.Ok mynode pow mem past ret map → InOrder cs →
    (∀ c ∈ cs, ret ≤ c.2.ret) → (∀ c ∈ cs, nodeFromAddress c.1 ≠ mynode → 3 ≤ pow.val) →
    (∀ a ∈ past, ∀ c ∈ cs, ¬ Mixed mynode pow a c.1) →
    (cs.map Prod.fst).Pairwise (fun a a' => ¬ Mixed mynode pow a a') →
    List.Forall₂ (fun c w => Stood mem c.1 w c.2.ret) cs (map.gets mynode pow mem cs) := by
  induction cs with
  | nil => exact fun _ _ _ _ _ _ => .nil
  | cons c cs ih =>
    intro past ret map h ho hret hpow hpast hmix
    obtain ⟨ho1, ho2⟩ := List.pairwise_cons.1 ho
    rw [List.map_cons, List.pairwise_cons] at hmix
    have hc := List.mem_cons_self (a := c) (l := cs)
    refine .cons (h.stood (hret c hc) (hpow c hc) fun a ha => hpast a ha c hc) ?_
    refine ih (h.get (hret c hc) (hpow c hc)) ho2 ho1
      (fun c' hc' => hpow c' (List.mem_cons_of_mem _ hc')) (fun a ha c' hc' => ?_) hmix.2
    rcases List.mem_append.1 ha with ha | ha
    · exact hpast a ha c' (List.mem_cons_of_mem _ hc')
    · rw [List.mem_singleton.1 ha]
      exact hmix.1 c'.1 (List.mem_map_of_mem hc')

/-! ### A mixed pair, a short line -/

/-- A memory that never changes: the words of node 0 are zero, all others carry the number of
node 1. -/
def twoFaced : Memory := fun _ l => if l.1 = 0 then 0 else newVersion 1 0

/-- All words are copied at moment 0, and the heap behind a line is filled with ones. -/
def atOnce : Moments := ⟨fun _ => 0, 0, fun _ => le_rfl, BitVec.allOnes 64⟩

/-- The line of every address in `past` that is one of node 0 on another node has been stored. -/
def LineMap.Knows (mynode : ℕ) (pow : ClPow) (past : List Word) (map : LineMap) : Prop :=
  ∀ a ∈ past, nodeFromAddress a = 0 → nodeFromAddress a ≠ mynode →
    (map (lowBound pow a)).isSome = true

/-- A lookup adds its address to the past. -/
theorem LineMap.Knows.get {past : List Word} (h : LineMap.Knows mynode pow past map) :
    LineMap.Knows mynode pow (past ++ [addr]) (map.get mynode pow mem addr t).1 := by
  have hup : ∀ (k : Word) (line : Line) (a : Word), (map (lowBound pow a)).isSome = true →
      (Function.update map k (some line) (lowBound pow a)).isSome = true := fun k line a ha => by
    by_cases hk : lowBound pow a = k
    · rw [hk, Function.update_self]
      rfl
    · rwa [Function.update_of_ne hk]
  intro a ha hn hrem
  rcases List.mem_append.1 ha with ha | ha
  · have hold := h a ha hn hrem
    by_cases hne : nodeFromAddress addr = mynode
    · rwa [get_own hne]
    · cases hl : map (lowBound pow addr) with
      | some line => rwa [get_hit hne hl]
      | none =>
        rw [get_miss hne hl]
        exact hup _ _ a hold
  · rw [List.mem_singleton] at ha
    subst ha
    cases hl : map (lowBound pow a) with
    | some line =>
      rw [get_hit hrem hl]
      exact Option.isSome_iff_exists.2 ⟨line, hl⟩
    | none =>
      rw [get_miss hrem hl]
      have hkey : lineKey (lowBound pow a) (nodeFromAddress a) = lowBound pow a :=
        (lineKey_eq_iff (nodeFromAddress_lt a) (lowBound_toNat_lt pow a)
          (lowBound_toNat_lt pow a)).2 ⟨hn, rfl⟩
      dsimp only
      rw [hkey, Function.update_self]
      rfl

/-- A call that is mixed up with an earlier one returns the word of node 0. -/
theorem get_mixed {past : List Word} {ret : ℕ}
    (h : LineMap.Ok mynode pow twoFaced past ret map) (hk : LineMap.Knows mynode pow past map)
    {a : Word} (ha : a ∈ past) (hmix : Mixed mynode pow a addr) :
    ¬ Stood twoFaced addr (map.get mynode pow twoFaced addr t).2 t.ret := by
  obtain ⟨hn, hrem, hn', hrem', hlow⟩ := hmix
  obtain ⟨line, hl⟩ := Option.isSome_iff_exists.1 (hk a ha hn hrem)
  rw [hlow] at hl
  obtain ⟨-, hline⟩ := h _ line (lowBound_toNat_lt pow addr) hl
  obtain ⟨m, -, he⟩ := hline (addrFromAddress addr - lowBound pow addr)
  rw [get_hit hrem' hl]
  rintro ⟨m', -, he'⟩
  have hz : (0 : Word) = newVersion 1 0 := by
    rw [he] at he'
    simpa [twoFaced, hn'] using he'
  exact absurd hz (by decide)

/-- On the two-faced memory a sequence whose calls all return words of their own addresses has
no mixed pair. -/
theorem not_mixed_of_stood {cs : List (Word × Moments)} (h3 : 3 ≤ pow.val) :
    ∀ {past : List Word} {ret : ℕ} {map : LineMap},
    LineMap.Ok mynode pow twoFaced past ret map → LineMap.Knows mynode pow past map →
    InOrder cs → (∀ c ∈ cs, ret ≤ c.2.ret) →
    List.Forall₂ (fun c w => Stood twoFaced c.1 w c.2.ret) cs (map.gets mynode pow twoFaced cs) →
    (∀ a ∈ past, ∀ c ∈ cs, ¬ Mixed mynode pow a c.1) ∧
      (cs.map Prod.fst).Pairwise fun a a' => ¬ Mixed mynode pow a a' := by
  induction cs with
  | nil => exact fun _ _ _ _ _ => ⟨fun _ _ c hc => absurd hc List.not_mem_nil, .nil⟩
  | cons c cs ih =>
    intro past ret map h hk ho hret hs
    obtain ⟨ho1, ho2⟩ := List.pairwise_cons.1 ho
    obtain ⟨hc, hcs⟩ := List.forall₂_cons.1 hs
    obtain ⟨hp, hpair⟩ := ih (h.get (hret c List.mem_cons_self) fun _ => h3) hk.get ho2 ho1 hcs
    refine ⟨fun a ha c' hc' hmix => ?_, List.pairwise_cons.2 ⟨fun a' ha' => ?_, hpair⟩⟩
    · rcases List.mem_cons.1 hc' with rfl | hc'
      · exact get_mixed h hk ha hmix hc
      · exact hp a (List.mem_append_left _ ha) c' hc' hmix
    · obtain ⟨c', hc', rfl⟩ := List.mem_map.1 ha'
      exact hp c.1 (List.mem_append_right _ (List.mem_singleton.2 rfl)) c' hc'

/-- A line of fewer than eight bytes is filled up from the heap. -/
theorem clip_ne_zero (h : ¬ 3 ≤ pow.val) : clip pow 0 (BitVec.allOnes 64) ≠ 0 := by
  have hp : pow.val = 0 ∨ pow.val = 1 ∨ pow.val = 2 := by omega
  rw [clip, if_neg h]
  rcases hp with hp | hp | hp <;> rw [hp] <;> decide

/-- On a zeroed memory a short line gives a word that is not zero. -/
theorem get_short (h : ¬ 3 ≤ pow.val)
    (hmap : ∀ low line off, map low = some line → line off = clip pow 0 (BitVec.allOnes 64)) :
    (nodeFromAddress addr ≠ mynode →
      (map.get mynode pow (fun _ _ => 0) addr atOnce).2 ≠ 0) ∧
    ∀ low line off, (map.get mynode pow (fun _ _ => 0) addr atOnce).1 low = some line →
      line off = clip pow 0 (BitVec.allOnes 64) := by
  by_cases hne : nodeFromAddress addr = mynode
  · rw [get_own hne]
    exact ⟨fun hn => absurd hne hn, hmap⟩
  · cases hl : map (lowBound pow addr) with
    | some line =>
      rw [get_hit hne hl]
      refine ⟨fun _ => ?_, hmap⟩
      dsimp only
      rw [hmap _ line _ hl]
      exact clip_ne_zero h
    | none =>
      rw [get_miss hne hl]
      refine ⟨fun _ => clip_ne_zero h, fun low line off hline => ?_⟩
      dsimp only at hline
      by_cases hk : low = lineKey (lowBound pow addr) (nodeFromAddress addr)
      · rw [hk, Function.update_self, Option.some.injEq] at hline
        rw [← hline]
        rfl
      · rw [Function.update_of_ne hk] at hline
        exact hmap low line off hline

/-- With short lines only sequences of own addresses return words that have stood there. -/
theorem own_of_stood (h : ¬ 3 ≤ pow.val) {addrs : List Word} : ∀ {map : LineMap},
    (∀ low line off, map low = some line → line off = clip pow 0 (BitVec.allOnes 64)) →
    List.Forall₂ (fun c w => Stood (fun _ _ => 0) c.1 w c.2.ret) (addrs.map fun a => (a, atOnce))
      (map.gets mynode pow (fun _ _ => 0) (addrs.map fun a => (a, atOnce))) →
    ∀ a ∈ addrs, nodeFromAddress a = mynode := by
  induction addrs with
  | nil => exact fun _ _ a ha => absurd ha List.not_mem_nil
  | cons a addrs ih =>
    intro map hmap hs
    obtain ⟨⟨m, -, hm⟩, hcs⟩ := List.forall₂_cons.1 hs
    obtain ⟨hne, hmap'⟩ := @get_short mynode pow map a h hmap
    intro a' ha'
    rcases List.mem_cons.1 ha' with rfl | ha'
    · by_contra hn
      exact hne hn hm
    · exact ih hmap' hcs a' ha'

/-! ## When the cache can be trusted -/

/-- Lookups at once are in order. -/
theorem inOrder_atOnce {α : Type*} (l : List α) : InOrder (l.map fun a => (a, atOnce)) :=
  List.pairwise_map.2 (List.pairwise_of_forall fun _ _ => le_rfl)

/-- The sequences of addresses for which every call returns a word of its own address. -/
theorem transparent_iff (mynode : ℕ) (pow : ClPow) (addrs : List Word) :
    Transparent mynode pow addrs ↔
      (∀ a ∈ addrs, nodeFromAddress a ≠ mynode → 3 ≤ pow.val) ∧
        addrs.Pairwise fun a a' => ¬ Mixed mynode pow a a' := by
  constructor
  · intro h
    have hfst : (addrs.map fun a => (a, atOnce)).map Prod.fst = addrs := by
      rw [List.map_map]
      exact List.map_id _
    by_cases h3 : 3 ≤ pow.val
    · have hs := h twoFaced (addrs.map fun a => (a, atOnce)) hfst (inOrder_atOnce _)
      have hmix := (not_mixed_of_stood h3 (.empty mynode pow twoFaced)
        (fun a ha => absurd ha List.not_mem_nil) (inOrder_atOnce _)
        (fun _ _ => Nat.zero_le _) hs).2
      rw [hfst] at hmix
      exact ⟨fun _ _ _ => h3, hmix⟩
    · have hown := own_of_stood h3 (fun _ _ _ hl => by cases hl)
        (h (fun _ _ => 0) (addrs.map fun a => (a, atOnce)) hfst (inOrder_atOnce _))
      refine ⟨fun a ha hne => absurd (hown a ha) hne, List.pairwise_of_forall_mem_list ?_⟩
      intro a ha a' _ hmix
      exact hmix.2.1 (hown a ha)
  · rintro ⟨hpow, hmix⟩ mem cs rfl ho
    exact LineMap.Ok.gets (.empty mynode pow mem) ho (fun _ _ => Nat.zero_le _)
      (fun c hc => hpow c.1 (List.mem_map_of_mem hc)) (fun a ha => absurd ha List.not_mem_nil) hmix

/-! ### Validation -/

/-- The words that cells are judged by are those that the calls of `get` return. -/
theorem validateLoop_inOrder (g : Segments) (cache : Word → Option Word)
    (es : List ((Word × Word) × Moments)) : ∀ map : LineMap,
    (validateLoop mynode mem g cache map es).1 <+:
      map.gets mynode validatePow mem (es.map fun e => (g.getObjectLockAddr e.1.1, e.2)) := by
  induction es with
  | nil => exact fun _ => List.prefix_rfl
  | cons e es ih =>
    obtain ⟨⟨b, ts⟩, t⟩ := e
    intro map
    rw [List.map_cons, LineMap.gets, validateLoop]
    dsimp only
    generalize map.get mynode validatePow mem (g.getObjectLockAddr b) t = r
    split
    · exact List.nil_prefix
    · split
      · exact (List.prefix_cons_inj _).2 List.nil_prefix
      · exact (List.prefix_cons_inj _).2 (ih r.1)

/-- A word of the two-faced memory; it passes every validation. -/
def Calm (w : Word) : Prop := w = 0 ∨ w = newVersion 1 0

theorem Calm.fields {w : Word} (h : Calm w) : Unlocked w ∧ ver w = 0 := by
  have h0 : (0 : Word).toNat < 2 ^ 48 := Nat.two_pow_pos 48
  rcases h with rfl | rfl
  · exact ⟨Nat.two_pow_pos 63, ver_zero⟩
  · exact ⟨unlocked_newVersion h0, by simpa using ver_newVersion h0⟩

theorem Calm.changed {w : Word} (h : Calm w) (ts : Word) : Tx.changed w ts = false := by
  obtain ⟨hl, hv⟩ := h.fields
  rw [Tx.changed, isLocked_eq_false.2 hl, Bool.false_or, isTimestampGreater_eq_false, hv]
  exact Nat.zero_le _

theorem calm_twoFaced (m : ℕ) (l : Loc) : Calm (twoFaced m l) := by
  rw [twoFaced]
  split
  · exact .inl rfl
  · exact .inr rfl

/-- Lookups in a calm memory leave calm lines. -/
theorem get_calm (h : ∀ low line off, map low = some line → Calm (line off)) :
    Calm (map.get mynode validatePow twoFaced addr t).2 ∧
      ∀ low line off, (map.get mynode validatePow twoFaced addr t).1 low = some line →
        Calm (line off) := by
  have hfetch : ∀ node low off, Calm (fetchLine validatePow twoFaced node low t off) :=
    fun node low off => by
      rw [fetchLine_eq (by decide)]
      exact calm_twoFaced (t.moment (low + off)) _
  by_cases hne : nodeFromAddress addr = mynode
  · rw [get_own hne]
    exact ⟨calm_twoFaced (t.moment (addrFromAddress addr)) _, h⟩
  · cases hl : map (lowBound validatePow addr) with
    | some line =>
      rw [get_hit hne hl]
      exact ⟨h _ line _ hl, h⟩
    | none =>
      rw [get_miss hne hl]
      refine ⟨hfetch _ _ _, fun low line off hline => ?_⟩
      dsimp only at hline
      by_cases hk : low = lineKey (lowBound validatePow addr) (nodeFromAddress addr)
      · rw [hk, Function.update_self, Option.some.injEq] at hline
        rw [← hline]
        exact hfetch _ _ _
      · rw [Function.update_of_ne hk] at hline
        exact h low line off hline

/-- On the two-faced memory a validation without cached versions looks at every entry. -/
theorem validateLoop_calm (g : Segments) (es : List ((Word × Word) × Moments)) :
    ∀ map : LineMap, (∀ low line off, map low = some line → Calm (line off)) →
    (validateLoop mynode twoFaced g (fun _ => none) map es).1 =
      map.gets mynode validatePow twoFaced
        (es.map fun e => (g.getObjectLockAddr e.1.1, e.2)) := by
  induction es with
  | nil =>
    intro map _
    rw [validateLoop, List.map_nil, LineMap.gets]
  | cons e es ih =>
    obtain ⟨⟨b, ts⟩, t⟩ := e
    intro map hmap
    obtain ⟨hw, hmap'⟩ := @get_calm mynode map (g.getObjectLockAddr b) t hmap
    have hcache : cacheChanged (fun _ => none) b ts = false := by
      rw [cacheChanged, Option.getD_none]
      exact Calm.changed (.inl rfl) ts
    rw [List.map_cons, LineMap.gets, validateLoop, hcache]
    dsimp only
    generalize map.get mynode validatePow twoFaced (g.getObjectLockAddr b) t = r at hw hmap' ⊢
    simp only [hw.changed, Bool.false_eq_true, if_false, ih r.1 hmap']

theorem length_gets (cs : List (Word × Moments)) : ∀ map : LineMap,
    (map.gets mynode pow mem cs).length = cs.length := by
  induction cs with
  | nil => exact fun _ => rfl
  | cons c cs ih => exact fun _ => congrArg (· + 1) (ih _)

/-- For cells, the address a call of `get` is for is the place of the lock word. -/
theorem forall₂_stood_iff {g : Segments} {es : List ((Word × Word) × Moments)} {ws : List Word}
    (hc : ∀ e ∈ es, g.IsCell e.1.1) :
    List.Forall₂ (fun c w => Stood mem c.1 w c.2.ret)
        (es.map fun e => (g.getObjectLockAddr e.1.1, e.2)) ws ↔
      List.Forall₂ (fun e w => ∃ m ≤ e.2.ret, w = mem m (g.lockLoc e.1.1)) es ws := by
  rw [List.forall₂_map_left_iff]
  constructor
  · intro h
    refine ((List.forall₂_and_left ..).2 ⟨hc, h⟩).imp fun e w ⟨he, m, hm, hw⟩ => ⟨m, hm, ?_⟩
    rw [hw, ← he.toInHeap.lockLoc_eq]
  · intro h
    refine ((List.forall₂_and_left ..).2 ⟨hc, h⟩).imp fun e w ⟨he, m, hm, hw⟩ => ⟨m, hm, ?_⟩
    rw [hw, ← he.toInHeap.lockLoc_eq]

/-- The read sets whose validation judges every cell by its own lock word. -/
theorem judgesRight_iff (mynode : ℕ) (g : Segments) {entries : List (Word × Word)}
    (hc : ∀ e ∈ entries, g.IsCell e.1) :
    JudgesRight mynode g entries ↔ (entries.map fun e => g.getObjectLockAddr e.1).Pairwise
      fun a a' => ¬ Mixed mynode validatePow a a' := by
  have haddr : ∀ es : List ((Word × Word) × Moments), es.map Prod.fst = entries →
      (es.map fun e => (g.getObjectLockAddr e.1.1, e.2)).map Prod.fst =
        entries.map fun e => g.getObjectLockAddr e.1 := fun es he => by
    rw [← he, List.map_map, List.map_map]
    rfl
  have hcell : ∀ es : List ((Word × Word) × Moments), es.map Prod.fst = entries →
      ∀ e ∈ es, g.IsCell e.1.1 := fun es he e hmem =>
    hc e.1 (he ▸ List.mem_map_of_mem hmem)
  have horder : ∀ es : List ((Word × Word) × Moments), InOrder es →
      InOrder (es.map fun e => (g.getObjectLockAddr e.1.1, e.2)) := fun es ho =>
    List.pairwise_map.2 ho
  constructor
  · intro h
    have hfst : (entries.map fun e => (e, atOnce)).map Prod.fst = entries := by
      rw [List.map_map]
      exact List.map_id _
    have hs := h twoFaced (fun _ => none) _ hfst (inOrder_atOnce _)
    dsimp only at hs
    rw [validateLoop_calm g _ _ (fun _ _ _ hl => by cases hl), length_gets, List.length_map,
      List.take_length, ← forall₂_stood_iff (hcell _ hfst)] at hs
    rw [← haddr _ hfst]
    exact (not_mixed_of_stood (by decide)
      (.empty mynode validatePow twoFaced) (fun a ha => absurd ha List.not_mem_nil)
      (horder _ (inOrder_atOnce _)) (fun _ _ => Nat.zero_le _) hs).2
  · intro hmix mem cache es he ho judged
    have hs := LineMap.Ok.gets (.empty mynode validatePow mem) (horder es ho)
      (fun _ _ => Nat.zero_le _) (fun _ _ _ => by decide)
      (fun a ha => absurd ha List.not_mem_nil) (by rwa [haddr es he])
    have hpre := List.prefix_iff_eq_take.1
      (@validateLoop_inOrder mynode mem g cache es fun _ => none)
    have htake := List.forall₂_take judged.length hs
    rw [← hpre, ← List.map_take] at htake
    exact (forall₂_stood_iff fun e hmem => hcell es he e (List.mem_of_mem_take hmem)).1 htake

/-- **Every call of a sequence returns a word that its own address has held since the cache was
created, whatever the memory does, exactly when a line of another node has at least eight bytes
and no call for a third node other than 0 comes after one for node 0 in the line of the same
local address. `validate` and `validateAll` judge every cell by its own lock word exactly when
this holds of the lock addresses of their entries.** -/
theorem locksCache_transparent_iff (mynode : ℕ) :
    (∀ (pow : ClPow) (addrs : List Word), Transparent mynode pow addrs ↔
      (∀ a ∈ addrs, nodeFromAddress a ≠ mynode → 3 ≤ pow.val) ∧
        addrs.Pairwise fun a a' => ¬ Mixed mynode pow a a') ∧
    ∀ (g : Segments) (entries : List (Word × Word)), (∀ e ∈ entries, g.IsCell e.1) →
      (JudgesRight mynode g entries ↔ (entries.map fun e => g.getObjectLockAddr e.1).Pairwise
        fun a a' => ¬ Mixed mynode validatePow a a') :=
  ⟨transparent_iff mynode, fun g _ hc => judgesRight_iff mynode g hc⟩

/-- The lock words of `cellX` on node 0 and `cellY` on node 1, which have the same local
address, looked up on node 2: the second one is served with the first. -/
theorem locksCache_mixed : ¬ ∀ (mynode : ℕ) (pow : ClPow) (addrs : List Word),
    Transparent mynode pow addrs := by
  intro h
  have hmix := ((transparent_iff 2 validatePow [smallSegs.getObjectLockAddr cellX.addr,
    smallSegs.getObjectLockAddr cellY.addr]).1 (h _ _ _)).2
  exact List.rel_of_pairwise_cons hmix (List.mem_singleton.2 rfl)
    ⟨by decide, by decide, by decide, by decide, by decide⟩

/-- On node 0 the lock words of both are read from their own nodes. -/
theorem locksCache_own : JudgesRight 0 smallSegs [(cellX.addr, 0), (cellY.addr, 0)] := by
  refine ((locksCache_transparent_iff 0).2 smallSegs _ ?_).2 ?_
  · intro e he
    rcases List.mem_pair.1 he with rfl | rfl
    · exact cellX.isCell
    · exact cellY.isCell
  · exact List.pairwise_pair.2 fun hmix => hmix.2.1 (by decide)

end

end DstmP1
