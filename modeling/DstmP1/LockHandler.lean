import DstmP1.Rules

/-!
# The lock handler

`glue::processLocksRequest` goes through the objects of a request. For each it loads the lock
word, refuses the object when that word is greater than the recorded timestamp, and else swaps
the word it has loaded against the recorded timestamp with the lock bit set. Other handlers and
the releases of other transactions change lock words in the meantime; `Others` says what they
do before each load and between each load and the swap that follows it, which may be anything.

`processObjects_changed` is what the whole loop reports. The grant law (`GrantLaw`) is what a
requester relies on, and `grantLaw_iff` says when the handler keeps it: the comparison is one of
whole words, so a word that is smaller than the recorded timestamp is granted as well.
-/

namespace DstmP1

open Segments (Loc)

/-- The lock words of all nodes. -/
abbrev Locks := Loc → Word

/-- What the others do to the lock words before the handler loads the lock word of object `i`,
and between the load and the swap. -/
structure Others where
  beforeLoad : ℕ → Locks → Locks
  beforeSwap : ℕ → Locks → Locks

/-- The lock words and `changedObjs`. -/
structure HandlerState where
  locks : Locks
  changedObjs : List Word

/-- What `processLocksRequest` returns when an object was refused: `ch_objs[1]` and the objects
from `ch_objs[2]` on. The handler puts the descriptor into `ch_objs[0]`. -/
structure ChObjs where
  size : Word
  objs : List Word

/-- `lock_val_old` is not refused and the compare-and-swap finds it in the lock word. -/
def swaps (old version cur : Word) : Bool := !isRefused old version && cur == old

section
variable (g : Segments) (node : ℕ) (buf : Buffer) (others : Others) (locks : Locks)

/-- One round of the loop of `processLocksRequest`. -/
def processObject (s : HandlerState) (i : ℕ) : HandlerState :=
  let lock := lockOf g node (buf.objAddr i)
  let atLoad := others.beforeLoad i s.locks
  let atSwap := others.beforeSwap i atLoad
  if swaps (atLoad lock) (buf.version i) (atSwap lock) then
    { s with locks := Function.update atSwap lock (lockValNew (buf.version i)) }
  else { locks := atSwap, changedObjs := s.changedObjs ++ [changedObj node (buf.objAddr i)] }

/-- The loop, up to object `n`. -/
def processObjects : ℕ → HandlerState
  | 0 => ⟨locks, []⟩
  | n + 1 => processObject g node buf others (processObjects n) n

/-- `processLocksRequest`: the lock words it leaves, and the array it returns or `NULL`. -/
def processLocksRequest : Locks × Option ChObjs :=
  let s := processObjects g node buf others locks buf.count
  (s.locks, if s.changedObjs.isEmpty then none
    else some ⟨BitVec.ofNat 64 s.changedObjs.length, s.changedObjs⟩)

/-! ## The moments of a run -/

/-- The lock words when the lock word of object `i` is loaded. -/
def atLoad (i : ℕ) : Locks :=
  others.beforeLoad i (processObjects g node buf others locks i).locks

/-- The lock words when the lock word of object `i` is swapped. -/
def atSwap (i : ℕ) : Locks := others.beforeSwap i (atLoad g node buf others locks i)

/-- The lock words right after that. -/
def afterSwap (i : ℕ) : Locks := (processObjects g node buf others locks (i + 1)).locks

/-- Object `i` is granted. -/
def isGranted (i : ℕ) : Bool :=
  swaps (atLoad g node buf others locks i (lockOf g node (buf.objAddr i))) (buf.version i)
    (atSwap g node buf others locks i (lockOf g node (buf.objAddr i)))

end

section
variable {g : Segments} {node : ℕ} {buf : Buffer} {others : Others} {locks : Locks}

/-- A granted word gets the recorded timestamp with the lock bit; nothing else changes. -/
theorem afterSwap_granted {i : ℕ} (h : isGranted g node buf others locks i = true) :
    afterSwap g node buf others locks i =
      Function.update (atSwap g node buf others locks i) (lockOf g node (buf.objAddr i))
        (lockValNew (buf.version i)) := by
  rw [afterSwap, processObjects, processObject]
  exact congrArg HandlerState.locks (if_pos h)

/-- When an object is refused nothing changes. -/
theorem afterSwap_refused {i : ℕ} (h : isGranted g node buf others locks i = false) :
    afterSwap g node buf others locks i = atSwap g node buf others locks i := by
  rw [afterSwap, processObjects, processObject]
  exact congrArg HandlerState.locks (if_neg (by rw [Bool.not_eq_true]; exact h))

/-- The objects reported are the refused ones, in the order of the request. -/
theorem processObjects_changed (n : ℕ) :
    (processObjects g node buf others locks n).changedObjs =
      ((List.range n).filter fun i => !isGranted g node buf others locks i).map fun i =>
        changedObj node (buf.objAddr i) := by
  induction n with
  | zero => rfl
  | succ n ih =>
    rw [List.range_succ, List.filter_append, List.map_append, ← ih]
    rw [processObjects, processObject]
    cases h : isGranted g node buf others locks n with
    | true =>
      rw [List.filter_cons_of_neg (by simp [h])]
      exact (congrArg HandlerState.changedObjs (if_pos h)).trans (List.append_nil _).symm
    | false =>
      rw [List.filter_cons_of_pos (by simp [h])]
      exact congrArg HandlerState.changedObjs (if_neg (by rw [Bool.not_eq_true]; exact h))

end

/-! ## Requests -/

/-- A request for the cells `obj 0`, `obj 1`, … of `node`, as a transaction makes it: no more
objects than the message has room for, all different, each under its address without the node
and with the unlocked timestamp recorded for it. -/
structure Buffer.Requests (g : Segments) (node : ℕ) (buf : Buffer) (obj : ℕ → Word) : Prop where
  count_le : buf.count ≤ buf.objectsNum
  isCell : ∀ i < buf.count, g.IsCell (obj i)
  home : ∀ i < buf.count, nodeFromAddress (obj i) = node
  addr : ∀ i < buf.count, buf.objAddr i = addrFromAddress (obj i)
  distinct : ∀ i < buf.count, ∀ j < buf.count, obj i = obj j → i = j
  unlocked : ∀ i < buf.count, Unlocked (buf.version i)

namespace Buffer.Requests

variable {g : Segments} {node : ℕ} {buf : Buffer} {obj : ℕ → Word}

/-- The handler finds the lock word of the cell. -/
theorem lockOf_eq (h : buf.Requests g node obj) {i : ℕ} (hi : i < buf.count) :
    lockOf g node (buf.objAddr i) = g.lockLoc (obj i) := by
  rw [h.addr i hi, ← h.home i hi]
  exact (h.isCell i hi).toInHeap.lockLoc_home

/-- A refused cell is reported under its own address. -/
theorem changedObj_eq (h : buf.Requests g node obj) {i : ℕ} (hi : i < buf.count) :
    changedObj node (buf.objAddr i) = obj i := by
  rw [h.addr i hi, ← h.home i hi]
  exact retag (h.isCell i hi).untagged

end Buffer.Requests

/-- The buffer of cells of one node with unlocked timestamps is such a request. -/
theorem requests_encode {g : Segments} {node : ℕ} (this : Word) {l : List (Word × Word)}
    (hl : l.length ≤ maxRequestedLocksPerNode)
    (hc : ∀ e ∈ l, g.IsCell e.1 ∧ nodeFromAddress e.1 = node ∧ Unlocked e.2)
    (hd : (l.map Prod.fst).Nodup) :
    Buffer.Requests g node (encode this l) fun i => (l.map Prod.fst).getD i 0 := by
  have hobj : ∀ i (hi : i < l.length), (l.map Prod.fst).getD i 0 = l[i].1 := fun i hi => by
    simp [hi]
  have hcount := @count_encode this l hl
  refine ⟨?_, fun i hi => ?_, fun i hi => ?_, fun i hi => ?_, fun i hi j hj h => ?_,
    fun i hi => ?_⟩
  · rw [hcount, objectsNum_encode hl]
    exact hl
  all_goals rw [hcount] at hi
  · rw [hobj i hi]
    exact (hc _ (List.getElem_mem hi)).1
  · rw [hobj i hi]
    exact (hc _ (List.getElem_mem hi)).2.1
  · rw [hobj i hi, objAddr_encode hi]
  · rw [hcount] at hj
    rw [hobj i hi, hobj j hj] at h
    have hi' : i < (l.map Prod.fst).length := by simpa using hi
    have hj' : j < (l.map Prod.fst).length := by simpa using hj
    exact (@List.Nodup.getElem_inj_iff _ _ hd i hi' j hj').1 (by simpa using h)
  · rw [version_encode hl hi]
    exact (hc _ (List.getElem_mem hi)).2.2

/-! ## The law -/

/-- What the requester relies on. The lock word of a cell is granted only when it is the
recorded timestamp at the swap, and always when it is that from the load to the swap; a granted
word is the recorded timestamp with the lock bit, and nothing else is changed; the reply is
`NULL` or lists the refused cells. -/
structure GrantLaw (g : Segments) (node : ℕ) (buf : Buffer) (obj : ℕ → Word) (others : Others)
    (locks : Locks) : Prop where
  recorded : ∀ i < buf.count, isGranted g node buf others locks i = true →
    atSwap g node buf others locks i (g.lockLoc (obj i)) = buf.version i
  always : ∀ i < buf.count,
    atLoad g node buf others locks i (g.lockLoc (obj i)) = buf.version i →
    atSwap g node buf others locks i (g.lockLoc (obj i)) = buf.version i →
    isGranted g node buf others locks i = true
  word : ∀ i < buf.count, isGranted g node buf others locks i = true →
    afterSwap g node buf others locks i (g.lockLoc (obj i)) = buf.version i ||| lockBit
  refused : ∀ i < buf.count, isGranted g node buf others locks i = false →
    afterSwap g node buf others locks i (g.lockLoc (obj i)) =
      atSwap g node buf others locks i (g.lockLoc (obj i))
  frame : ∀ i < buf.count, ∀ l ≠ g.lockLoc (obj i),
    afterSwap g node buf others locks i l = atSwap g node buf others locks i l
  none : (processLocksRequest g node buf others locks).2 = none ↔
    ∀ i < buf.count, isGranted g node buf others locks i = true
  some : ∀ r, (processLocksRequest g node buf others locks).2 = some r →
    r.size.toNat = r.objs.length ∧ r.objs.Nodup ∧
      ∀ b, b ∈ r.objs ↔ ∃ i < buf.count, isGranted g node buf others locks i = false ∧ obj i = b

section
variable {g : Segments} {node : ℕ} {buf : Buffer} {obj : ℕ → Word} {others : Others}
  {locks : Locks}

/-- The reply lists exactly the refused cells, once each. -/
theorem mem_changedObjs (h : buf.Requests g node obj) (b : Word) :
    b ∈ (processObjects g node buf others locks buf.count).changedObjs ↔
      ∃ i < buf.count, isGranted g node buf others locks i = false ∧ obj i = b := by
  rw [processObjects_changed, List.mem_map]
  constructor
  · rintro ⟨i, hi, rfl⟩
    rw [List.mem_filter, List.mem_range, Bool.not_eq_true'] at hi
    exact ⟨i, hi.1, hi.2, (h.changedObj_eq hi.1).symm⟩
  · rintro ⟨i, hi, hr, rfl⟩
    refine ⟨i, ?_, h.changedObj_eq hi⟩
    rw [List.mem_filter, List.mem_range, Bool.not_eq_true']
    exact ⟨hi, hr⟩

theorem nodup_changedObjs (h : buf.Requests g node obj) :
    (processObjects g node buf others locks buf.count).changedObjs.Nodup := by
  rw [processObjects_changed]
  refine List.Nodup.map_on ?_ (List.nodup_range.filter _)
  intro i hi j hj he
  rw [List.mem_filter, List.mem_range] at hi hj
  rw [h.changedObj_eq hi.1, h.changedObj_eq hj.1] at he
  exact h.distinct i hi.1 j hj.1 he

/-- The number of refused cells fits its word. -/
theorem length_changedObjs_lt :
    (processObjects g node buf others locks buf.count).changedObjs.length < 2 ^ 64 := by
  rw [processObjects_changed, List.length_map]
  refine lt_of_le_of_lt (List.length_filter_le _ _) ?_
  rw [List.length_range]
  exact (buf.getD 1 0).isLt

/-- A granted lock word was at most the recorded timestamp when it was loaded, and was not
changed before the swap. -/
theorem isGranted_iff (h : buf.Requests g node obj) {i : ℕ} (hi : i < buf.count) :
    isGranted g node buf others locks i = true ↔
      atLoad g node buf others locks i (g.lockLoc (obj i)) ≤ buf.version i ∧
        atSwap g node buf others locks i (g.lockLoc (obj i)) =
          atLoad g node buf others locks i (g.lockLoc (obj i)) := by
  rw [isGranted, swaps, isRefused, h.lockOf_eq hi, Bool.and_eq_true, Bool.not_eq_true',
    decide_eq_false_iff_not, BitVec.not_lt, beq_iff_eq]

/-- No lock word that is smaller than the recorded timestamp as a 64-bit number when it is loaded
is still the same at the swap. -/
def NoSmaller (g : Segments) (node : ℕ) (buf : Buffer) (obj : ℕ → Word) (others : Others)
    (locks : Locks) : Prop :=
  ∀ i < buf.count,
    atLoad g node buf others locks i (g.lockLoc (obj i)) < buf.version i →
    atSwap g node buf others locks i (g.lockLoc (obj i)) ≠
      atLoad g node buf others locks i (g.lockLoc (obj i))

/-- **The handler keeps the grant law of a request, whatever the others do, exactly when no
lock word that is smaller than the recorded timestamp stays unchanged until the swap.** -/
theorem grantLaw_iff (g : Segments) (node : ℕ) (buf : Buffer) (obj : ℕ → Word)
    (h : buf.Requests g node obj) (others : Others) (locks : Locks) :
    GrantLaw g node buf obj others locks ↔ NoSmaller g node buf obj others locks := by
  constructor
  · intro hl i hi hlt heq
    have hg := (isGranted_iff h hi).2 ⟨BitVec.le_of_lt hlt, heq⟩
    rw [← heq, hl.recorded i hi hg] at hlt
    exact BitVec.lt_irrefl _ hlt
  · intro hs
    refine ⟨fun i hi hg => ?_, fun i hi hload hswap => ?_, fun i hi hg => ?_, fun i hi hg => ?_,
      fun i hi l hne => ?_, ?_, fun r hr => ?_⟩
    · obtain ⟨hle, heq⟩ := (isGranted_iff h hi).1 hg
      rw [heq]
      refine BitVec.le_antisymm hle (BitVec.not_lt.1 fun hlt => ?_)
      exact hs i hi hlt heq
    · refine (isGranted_iff h hi).2 ⟨?_, hswap.trans hload.symm⟩
      rw [hload]
      exact BitVec.le_refl _
    · rw [afterSwap_granted hg, h.lockOf_eq hi, Function.update_self, lockValNew]
    · rw [afterSwap_refused hg]
    · cases hg : isGranted g node buf others locks i with
      | false => rw [afterSwap_refused hg]
      | true => rw [afterSwap_granted hg, h.lockOf_eq hi, Function.update_of_ne hne]
    · simp only [processLocksRequest, processObjects_changed]
      simp
    · simp only [processLocksRequest] at hr
      split at hr
      · cases hr
      · cases hr
        refine ⟨?_, nodup_changedObjs h, mem_changedObjs h⟩
        rw [BitVec.toNat_ofNat, Nat.mod_eq_of_lt length_changedObjs_lt]

end

/-! ## The handler of the running system -/

/-- In the running system the load and the swap are steps of their own. The second one leaves the
lock words and the list of a round whose others take the lock words from the state of the load to
the state of the swap. -/
theorem stepRequest_processObject {cfg : Config} {σ σ' : Sys cfg.segs} {t : Tid} {k i : ℕ}
    {p : Packet} {changed : List Word} {locks : Locks}
    (h : isRefused (σ.locks (lockOf cfg.segs p.node (p.buf.objAddr i))) (p.buf.version i) =
      false) :
    let s := processObject cfg.segs p.node p.buf ⟨fun _ _ => σ.locks, fun _ _ => σ'.locks⟩
      ⟨locks, changed⟩ i
    let σ'' := stepRequest cfg σ' t k p i changed
      (some (σ.locks (lockOf cfg.segs p.node (p.buf.objAddr i))))
    σ''.locks = s.locks ∧
    σ''.net t = (σ'.net t).set k { p with msg := .request (i + 1) none s.changedObjs } := by
  simp only [stepRequest, processObject, swaps, h, Bool.not_false, Bool.true_and, beq_iff_eq]
  split
  · exact ⟨rfl, Function.update_self ..⟩
  · exact ⟨rfl, Function.update_self ..⟩

/-- An object whose lock word is greater when it is loaded is refused at once. -/
theorem stepRequest_refused {cfg : Config} {σ : Sys cfg.segs} {t : Tid} {k i : ℕ}
    {p : Packet} {changed : List Word} {locks : Locks}
    (h : isRefused (σ.locks (lockOf cfg.segs p.node (p.buf.objAddr i))) (p.buf.version i) =
      true) :
    let s := processObject cfg.segs p.node p.buf ⟨fun _ _ => σ.locks, fun _ => id⟩
      ⟨locks, changed⟩ i
    let σ'' := stepRequest cfg σ t k p i changed none
    σ''.locks = s.locks ∧
    σ''.net t = (σ.net t).set k { p with msg := .request (i + 1) none s.changedObjs } := by
  simp only [stepRequest, processObject, swaps, h, Bool.not_true, Bool.false_and, if_true]
  exact ⟨rfl, Function.update_self ..⟩

/-! ## A smaller word -/

/-- Nobody else touches the lock words. -/
def noOthers : Others := ⟨fun _ => id, fun _ => id⟩

/-- The request of one object of node 0 that was read with the version `(1, 1)`. -/
def staleRequest : Buffer := encode 16 [(cellX.addr, newVersion 1 1)]

theorem requests_staleRequest :
    staleRequest.Requests smallSegs 0 fun i => [cellX.addr].getD i 0 := by
  refine requests_encode (l := [(cellX.addr, newVersion 1 1)]) 16 (by decide) ?_
    (List.nodup_singleton _)
  intro e he
  rw [List.mem_singleton.1 he]
  exact ⟨cellX.isCell, by decide, by decide⟩

/-- Node 0 has committed version 2 to the cell since it was read; the handler grants its lock. -/
theorem grantLaw_smaller : ¬ ∀ (g : Segments) (node : ℕ) (buf : Buffer) (obj : ℕ → Word),
    buf.Requests g node obj → ∀ (others : Others) (locks : Locks),
      GrantLaw g node buf obj others locks := by
  intro h
  have hr := (h smallSegs 0 staleRequest _ requests_staleRequest noOthers
    fun _ => newVersion 0 2).recorded 0 (by decide) (by decide)
  exact absurd hr (by decide)

/-- Had it not, the law would hold. -/
theorem grantLaw_unchanged : GrantLaw smallSegs 0 staleRequest (fun i => [cellX.addr].getD i 0)
    noOthers fun _ => newVersion 1 1 :=
  (grantLaw_iff _ _ _ _ requests_staleRequest noOthers _).2 fun i hi hlt => by
    have hi0 : i = 0 := by
      have : staleRequest.count = 1 := by decide
      omega
    subst hi0
    exact absurd hlt (by decide)

end DstmP1
