import DstmP1.Lib.Lts
import DstmP1.Lib.Messages
import Mathlib.Data.Fintype.Basic
import Mathlib.Logic.Function.Basic

/-!
# Crossing a barrier

The participants of a node meet at a `barrier_t` (`dstm_barrier.cpp`), and the last of them to
arrive meets the last of the other nodes at the barrier of GASNet, with the mutex held. `crossing`
counts those who arrive and is counted down by those who leave, so a participant that comes again
finds those of the phase before it still counted in. `reach_phases` says that the phases are kept
apart in every run in which no one arrives as the last while another is still to be woken.

A step is what a call does under the mutex: up to the wait, up to the barrier of GASNet, after it,
and after the wait. Those who have been signalled take the mutex in any order.
-/

namespace DstmP1

/-! ## The barrier of a node -/

/-- `barrier_t`. -/
structure Barrier where
  count : ℕ
  crossing : ℕ
  /-- `mutex` is held: a participant is at the barrier of GASNet. -/
  locked : Bool

/-- Where a participant is: outside, in `gasnett_cond_wait`, woken from it but without the mutex, or
in `gasnet_barrier_wait`. -/
inductive Crossing where
  | out
  | waiting
  | signalled
  | barrier
  deriving DecidableEq

/-- `barrier_init`. -/
def barrierInit (mynode n : ℕ) : Barrier where
  count := if mynode = 0 then n + 1 else n
  crossing := 0
  locked := false

/-- `barrier_cross` up to the point where it waits or returns. -/
def Barrier.arrive (b : Barrier) (localWait : Bool) : Barrier × Crossing :=
  let b := { b with crossing := b.crossing + 1 }
  if b.crossing < b.count then (b, if localWait then .waiting else .out)
  else ({ b with locked := true }, .barrier)

/-- The rest of it for the last to arrive. -/
def Barrier.finish (b : Barrier) (localWait : Bool) : Barrier where
  count := b.crossing
  crossing := if localWait then b.crossing - 1 else 0
  locked := false

/-- The rest of it after `gasnett_cond_wait`. -/
def Barrier.wake (b : Barrier) : Barrier :=
  if b.crossing ≠ 0 then { b with crossing := b.crossing - 1 } else b

/-! ## Participants -/

/-- A participant, with the number of crossings it has entered and returned from. -/
structure Participant where
  pc : Crossing
  entered : ℕ
  left : ℕ
  deriving DecidableEq

/-- A node, with the number of times it has notified the others. -/
structure BarrierNode where
  barrier : Barrier
  notified : ℕ
  parts : List Participant

/-- `gasnett_cond_broadcast` as seen by one participant. -/
def Participant.signal (p : Participant) : Participant :=
  { p with pc := if p.pc = .waiting then .signalled else p.pc }

namespace BarrierNode

/-- As many participants as `barrier_init` is told of. -/
def init (mynode n : ℕ) : BarrierNode where
  barrier := barrierInit mynode n
  notified := 0
  parts := List.replicate (barrierInit mynode n).count ⟨.out, 0, 0⟩

/-- The `i`-th participant calls `barrier_cross(b, 1)`. -/
def enter (v : BarrierNode) (i : ℕ) : Option BarrierNode :=
  (v.parts[i]?).bind fun p =>
    if p.pc = .out ∧ v.barrier.locked = false then
      let r := v.barrier.arrive true
      some ⟨r.1, if r.2 = .barrier then v.notified + 1 else v.notified,
        v.parts.set i ⟨r.2, p.entered + 1, p.left⟩⟩
    else none

/-- It returns from the barrier of GASNet, and from `barrier_cross`. -/
def finish (v : BarrierNode) (i : ℕ) : Option BarrierNode :=
  (v.parts[i]?).bind fun p =>
    if p.pc = .barrier then
      some ⟨v.barrier.finish true, v.notified,
        (v.parts.set i ⟨.out, p.entered, p.left + 1⟩).map Participant.signal⟩
    else none

/-- It has been signalled, gets the mutex and returns from `barrier_cross`. -/
def wake (v : BarrierNode) (i : ℕ) : Option BarrierNode :=
  (v.parts[i]?).bind fun p =>
    if p.pc = .signalled ∧ v.barrier.locked = false then
      some ⟨v.barrier.wake, v.notified, v.parts.set i ⟨.out, p.entered, p.left + 1⟩⟩
    else none

end BarrierNode

/-! ## Runs -/

inductive BarrierAct (N : ℕ) where
  | enter (node : Fin N) (i : ℕ)
  | finish (node : Fin N) (i : ℕ)
  | wake (node : Fin N) (i : ℕ)

section
variable {N : ℕ}

/-- `gasnet_barrier_wait` returns when every node has notified as often as this one. -/
def Notified (σ : Fin N → BarrierNode) (node : Fin N) : Prop :=
  ∀ other, (σ node).notified ≤ (σ other).notified

instance (σ : Fin N → BarrierNode) (node : Fin N) : Decidable (Notified σ node) :=
  inferInstanceAs (Decidable (∀ _, _))

def barrierStep (σ : Fin N → BarrierNode) : BarrierAct N → Option (Fin N → BarrierNode)
  | .enter node i => ((σ node).enter i).map (Function.update σ node)
  | .finish node i =>
    if Notified σ node then ((σ node).finish i).map (Function.update σ node) else none
  | .wake node i => ((σ node).wake i).map (Function.update σ node)

/-- The runs of the participants when `barrier_init` gets `n node` on each node. -/
def barrierLts (n : Fin N → ℕ) : Lts (Fin N → BarrierNode) (BarrierAct N) where
  init := fun σ => σ = fun node => .init node (n node)
  step := barrierStep

/-! ## What is claimed -/

/-- No one has returned from a crossing that another has not entered; when all have entered a
crossing, the one who is to signal a waiter can do so; and `crossing` is zero when no one of the
node is in a crossing. -/
structure PhasesApart (σ : Fin N → BarrierNode) : Prop where
  separated : ∀ node other, ∀ p ∈ (σ node).parts, ∀ q ∈ (σ other).parts, p.left ≤ q.entered
  signalled : ∀ k, (∀ node, ∀ p ∈ (σ node).parts, k ≤ p.entered) →
    ∀ node, ∀ p ∈ (σ node).parts, p.entered = k → p.pc = .waiting ∨ p.pc = .barrier →
      ∃ i σ', barrierStep σ (.finish node i) = some σ' ∧
        ∀ q ∈ (σ' node).parts, q.pc = .out ∨ q.pc = .signalled
  empty : ∀ node, (∀ p ∈ (σ node).parts, p.left = p.entered) → (σ node).barrier.crossing = 0

/-- Who arrives as the last of its node finds no one there still to be woken. -/
def Woken (σ : Fin N → BarrierNode) (a : BarrierAct N) (_ : Fin N → BarrierNode) : Prop :=
  match a with
  | .enter node _ => (σ node).barrier.count ≤ (σ node).barrier.crossing + 1 →
    ∀ p ∈ (σ node).parts, p.pc ≠ .signalled
  | _ => True

end

/-! ## Where the participants of a node are -/

/-- In `barrier_cross`. -/
def Participant.inside (p : Participant) : Bool := p.pc != .out

/-- At the barrier of GASNet. -/
def Participant.atBarrier (p : Participant) : Bool := p.pc == .barrier

/-- How far a participant is when its node has notified `m` times. -/
def InPhase (locked : Bool) (m : ℕ) (p : Participant) : Prop :=
  match locked, p.pc with
  | false, .out => p.entered = m ∧ p.left = m
  | false, .waiting => p.entered = m + 1 ∧ p.left = m
  | false, .signalled => p.entered = m ∧ p.left + 1 = m
  | true, .waiting => p.entered = m ∧ p.left + 1 = m
  | true, .barrier => p.entered = m ∧ p.left + 1 = m
  | _, _ => False

/-- `crossing` counts those inside, who are at most one phase apart; one of them is at the barrier
of GASNet while the mutex is held, and not all are inside otherwise. -/
structure BarrierNode.Inv (v : BarrierNode) : Prop where
  count : v.barrier.count = v.parts.length
  crossing : v.barrier.crossing = v.parts.countP Participant.inside
  some_out : v.barrier.locked = false → 0 < v.parts.length → v.barrier.crossing < v.parts.length
  at_barrier : v.parts.countP Participant.atBarrier = if v.barrier.locked then 1 else 0
  placed : ∀ p ∈ v.parts, InPhase v.barrier.locked v.notified p

section
variable {v v' : BarrierNode} {i : ℕ}

theorem InPhase.of_out {locked : Bool} {m : ℕ} {p : Participant} (h : InPhase locked m p)
    (hp : p.pc = .out) : locked = false ∧ p.entered = m ∧ p.left = m := by
  unfold InPhase at h
  rw [hp] at h
  cases locked with
  | false => exact ⟨rfl, h⟩
  | true => exact h.elim

/-- Who is inside has entered one crossing more than it has returned from. -/
theorem InPhase.entered {locked : Bool} {m : ℕ} {p : Participant} (h : InPhase locked m p)
    (hp : p.pc ≠ .out) : p.entered = p.left + 1 := by
  unfold InPhase at h
  split at h
  · exact absurd ‹_› hp
  · omega
  · omega
  · omega
  · omega
  · exact h.elim

/-- Everyone has entered the crossings that the node has notified, and has returned at most from
those. -/
theorem InPhase.le {locked : Bool} {m : ℕ} {p : Participant} (h : InPhase locked m p) :
    p.left + (if locked then 1 else 0) ≤ m ∧ m ≤ p.entered := by
  unfold InPhase at h
  split at h
  · rw [if_neg Bool.false_ne_true]
    omega
  · rw [if_neg Bool.false_ne_true]
    omega
  · rw [if_neg Bool.false_ne_true]
    omega
  · rw [if_pos rfl]
    omega
  · rw [if_pos rfl]
    omega
  · exact h.elim

/-- Steps do not change how many participants a node has. -/
theorem BarrierNode.length_step (h : v.enter i = some v' ∨ v.finish i = some v' ∨
    v.wake i = some v') : v'.parts.length = v.parts.length := by
  rcases h with h | h | h
  · obtain ⟨p, -, h⟩ := Option.bind_eq_some_iff.1 h
    split at h
    · cases h
      exact List.length_set
    · cases h
  · obtain ⟨p, -, h⟩ := Option.bind_eq_some_iff.1 h
    split at h
    · cases h
      exact (List.length_map _).trans List.length_set
    · cases h
  · obtain ⟨p, -, h⟩ := Option.bind_eq_some_iff.1 h
    split at h
    · cases h
      exact List.length_set
    · cases h

theorem BarrierNode.init_inv (mynode n : ℕ) : (init mynode n).Inv := by
  refine ⟨List.length_replicate.symm, ?_, ?_, ?_, ?_⟩
  · exact (List.countP_eq_zero.2 fun p hp => by rw [List.eq_of_mem_replicate hp]; decide).symm
  · exact fun _ h => h
  · exact List.countP_eq_zero.2 fun p hp => by rw [List.eq_of_mem_replicate hp]; decide
  · intro p hp
    rw [List.eq_of_mem_replicate hp]
    exact ⟨rfl, rfl⟩

/-- A participant arrives who is not the last: it waits for the next phase. -/
theorem BarrierNode.Inv.enter_waiting (h : v.Inv) {p : Participant} (hi : v.parts[i]? = some p)
    (hp : p.pc = .out) (hlt : v.barrier.crossing + 1 < v.barrier.count) :
    Inv ⟨{ v.barrier with crossing := v.barrier.crossing + 1 }, v.notified,
      v.parts.set i ⟨.waiting, p.entered + 1, p.left⟩⟩ := by
  have hin := countP_set_add Participant.inside hi ⟨.waiting, p.entered + 1, p.left⟩
  have hat := countP_set_add Participant.atBarrier hi ⟨.waiting, p.entered + 1, p.left⟩
  obtain ⟨hl, he, hleft⟩ := (h.placed p (List.mem_of_getElem? hi)).of_out hp
  simp only [Participant.inside, Participant.atBarrier, hp] at hin hat
  refine ⟨h.count.trans List.length_set.symm, ?_, ?_, ?_, ?_⟩
  · exact (congrArg (· + 1) h.crossing).trans hin.symm
  · intro _ _
    rw [List.length_set, ← h.count]
    exact hlt
  · exact hat.trans h.at_barrier
  · intro q hq
    rcases List.mem_or_eq_of_mem_set hq with hq | rfl
    · exact h.placed q hq
    · show InPhase v.barrier.locked _ _
      rw [hl]
      exact ⟨by rw [he], hleft⟩

/-- The last participant arrives and finds no one still to be woken: all the others wait for the
same phase. -/
theorem BarrierNode.Inv.enter_last (h : v.Inv) {p : Participant} (hi : v.parts[i]? = some p)
    (hp : p.pc = .out) (hge : v.barrier.count ≤ v.barrier.crossing + 1)
    (hw : ∀ q ∈ v.parts, q.pc ≠ .signalled) :
    Inv ⟨{ v.barrier with crossing := v.barrier.crossing + 1, locked := true }, v.notified + 1,
      v.parts.set i ⟨.barrier, p.entered + 1, p.left⟩⟩ := by
  have hin := countP_set_add Participant.inside hi ⟨.barrier, p.entered + 1, p.left⟩
  have hat := countP_set_add Participant.atBarrier hi ⟨.barrier, p.entered + 1, p.left⟩
  obtain ⟨hl, he, hleft⟩ := (h.placed p (List.mem_of_getElem? hi)).of_out hp
  simp only [Participant.inside, Participant.atBarrier, hp] at hin hat
  have hall : ∀ q ∈ v.parts.set i ⟨.barrier, p.entered + 1, p.left⟩, q.inside = true := by
    refine List.countP_eq_length.1 (Nat.le_antisymm List.countP_le_length ?_)
    rw [List.length_set, ← h.count]
    exact hge.trans ((congrArg (· + 1) h.crossing).trans hin.symm).le
  refine ⟨h.count.trans List.length_set.symm, ?_, fun hf => Bool.noConfusion hf, ?_, ?_⟩
  · exact (congrArg (· + 1) h.crossing).trans hin.symm
  · have h0 := h.at_barrier
    rw [hl] at h0
    exact hat.trans (congrArg (· + 1) h0)
  · intro q hq
    have hqin := hall q hq
    rcases List.mem_or_eq_of_mem_set hq with hq | rfl
    · have hph := h.placed q hq
      rw [hl] at hph
      unfold InPhase at hph ⊢
      cases hpc : q.pc with
      | out => simp [Participant.inside, hpc] at hqin
      | signalled => exact absurd hpc (hw q hq)
      | barrier => rw [hpc] at hph; exact hph.elim
      | waiting =>
        rw [hpc] at hph
        exact ⟨hph.1, by rw [hph.2]⟩
    · exact ⟨by rw [he], by rw [hleft]⟩

/-- While a participant is at the barrier of GASNet, all of the node are inside. -/
theorem BarrierNode.Inv.all_inside (h : v.Inv) (hl : v.barrier.locked = true) :
    ∀ p ∈ v.parts, p.inside = true := by
  intro p hp
  have hph := h.placed p hp
  unfold InPhase at hph
  rw [hl] at hph
  cases hpc : p.pc with
  | out => rw [hpc] at hph; exact hph.elim
  | waiting => simp [Participant.inside, hpc]
  | signalled => simp [Participant.inside, hpc]
  | barrier => simp [Participant.inside, hpc]

theorem Participant.inside_signal (p : Participant) : p.signal.inside = p.inside := by
  rw [Participant.signal, Participant.inside, Participant.inside]
  cases p.pc with
  | out | waiting | signalled | barrier => rfl

theorem Participant.atBarrier_signal (p : Participant) : p.signal.atBarrier = p.atBarrier := by
  rw [Participant.signal, Participant.atBarrier, Participant.atBarrier]
  cases p.pc with
  | out | waiting | signalled | barrier => rfl

/-- It returns and wakes the others. -/
theorem BarrierNode.Inv.finish (h : v.Inv) {p : Participant} (hi : v.parts[i]? = some p)
    (hp : p.pc = .barrier) : Inv ⟨v.barrier.finish true, v.notified,
      (v.parts.set i ⟨.out, p.entered, p.left + 1⟩).map Participant.signal⟩ := by
  have hin := countP_set_add Participant.inside hi ⟨.out, p.entered, p.left + 1⟩
  have hat := countP_set_add Participant.atBarrier hi ⟨.out, p.entered, p.left + 1⟩
  have hph := h.placed p (List.mem_of_getElem? hi)
  unfold InPhase at hph
  rw [hp] at hph
  cases hl : v.barrier.locked with
  | false => rw [hl] at hph; exact hph.elim
  | true =>
    rw [hl] at hph
    simp only [Participant.inside, Participant.atBarrier, hp] at hin hat
    have hall : v.barrier.crossing = v.parts.length :=
      h.crossing.trans (List.countP_eq_length.2 (h.all_inside hl))
    have hnone :
        (v.parts.set i ⟨.out, p.entered, p.left + 1⟩).countP Participant.atBarrier = 0 := by
      have h1 := h.at_barrier
      rw [hl, if_pos rfl] at h1
      exact Nat.add_right_cancel (hat.trans h1)
    have hpos : 0 < v.parts.length := List.length_pos_of_mem (List.mem_of_getElem? hi)
    refine ⟨?_, ?_, ?_, ?_, ?_⟩
    · exact hall.trans (List.length_set.symm.trans (List.length_map _).symm)
    · rw [List.countP_map, show Participant.inside ∘ Participant.signal = Participant.inside from
        funext Participant.inside_signal]
      show v.barrier.crossing - 1 = _
      rw [h.crossing]
      exact Nat.sub_eq_of_eq_add hin.symm
    · intro _ _
      rw [List.length_map, List.length_set]
      show v.barrier.crossing - 1 < _
      omega
    · rw [List.countP_map, show Participant.atBarrier ∘ Participant.signal = Participant.atBarrier
        from funext Participant.atBarrier_signal]
      exact hnone
    · intro q' hq'
      obtain ⟨q, hq, rfl⟩ := List.mem_map.1 hq'
      have hnb := List.countP_eq_zero.1 hnone q hq
      rcases List.mem_or_eq_of_mem_set hq with hq | rfl
      · have hqp := h.placed q hq
        rw [hl] at hqp
        unfold InPhase at hqp ⊢
        cases hpc : q.pc with
        | out => rw [hpc] at hqp; exact hqp.elim
        | signalled => rw [hpc] at hqp; exact hqp.elim
        | barrier => simp [Participant.atBarrier, hpc] at hnb
        | waiting =>
          rw [hpc] at hqp
          simp only [Participant.signal, hpc, if_true]
          exact hqp
      · exact ⟨hph.1, hph.2⟩

/-- A participant that has been signalled leaves. -/
theorem BarrierNode.Inv.wake (h : v.Inv) {p : Participant} (hi : v.parts[i]? = some p)
    (hp : p.pc = .signalled) (hl : v.barrier.locked = false) :
    Inv ⟨v.barrier.wake, v.notified, v.parts.set i ⟨.out, p.entered, p.left + 1⟩⟩ := by
  have hin := countP_set_add Participant.inside hi ⟨.out, p.entered, p.left + 1⟩
  have hat := countP_set_add Participant.atBarrier hi ⟨.out, p.entered, p.left + 1⟩
  have hph := h.placed p (List.mem_of_getElem? hi)
  unfold InPhase at hph
  rw [hp, hl] at hph
  simp only [Participant.inside, Participant.atBarrier, hp] at hin hat
  have hne : v.barrier.crossing ≠ 0 := by
    rw [h.crossing]
    exact fun h0 => by simp [h0] at hin
  have hpos : 0 < v.parts.length := List.length_pos_of_mem (List.mem_of_getElem? hi)
  rw [Barrier.wake, if_pos hne]
  refine ⟨h.count.trans List.length_set.symm, ?_, ?_, hat.trans h.at_barrier, ?_⟩
  · show v.barrier.crossing - 1 = _
    rw [h.crossing]
    exact Nat.sub_eq_of_eq_add hin.symm
  · intro _ _
    rw [List.length_set]
    exact (Nat.sub_le _ _).trans_lt (h.some_out hl hpos)
  · intro q hq
    rcases List.mem_or_eq_of_mem_set hq with hq | rfl
    · exact h.placed q hq
    · show InPhase v.barrier.locked _ _
      rw [hl]
      exact ⟨hph.1, hph.2⟩

end

/-! ## The nodes together -/

section
variable {N : ℕ} {n : Fin N → ℕ} {σ σ' : Fin N → BarrierNode} {a : BarrierAct N} {node : Fin N}

/-- The nodes are in their phases, and none has notified more often than another, but for the
notification it still waits with. -/
structure Synced (n : Fin N → ℕ) (σ : Fin N → BarrierNode) : Prop where
  inv : ∀ node, (σ node).Inv
  length : ∀ node, (σ node).parts.length = (barrierInit node (n node)).count
  near : ∀ node other,
    (σ node).notified ≤ (σ other).notified + if (σ node).barrier.locked then 1 else 0

theorem synced_init (n : Fin N → ℕ) : Synced n fun node => .init node (n node) :=
  ⟨fun node => BarrierNode.init_inv node (n node), fun _ => List.length_replicate,
    fun _ _ => Nat.zero_le _⟩

/-- One node takes a step. -/
theorem Synced.update (h : Synced n σ) {v : BarrierNode} (hv : v.Inv)
    (hlen : v.parts.length = (σ node).parts.length) (hle : (σ node).notified ≤ v.notified)
    (hnear : ∀ other, v.notified ≤ (σ other).notified + if v.barrier.locked then 1 else 0) :
    Synced n (Function.update σ node v) := by
  refine ⟨fun μ => ?_, fun μ => ?_, fun μ other => ?_⟩
  · rcases eq_or_ne μ node with rfl | hμ
    · rw [Function.update_self]
      exact hv
    · rw [Function.update_of_ne hμ]
      exact h.inv μ
  · rcases eq_or_ne μ node with rfl | hμ
    · rw [Function.update_self, hlen]
      exact h.length μ
    · rw [Function.update_of_ne hμ]
      exact h.length μ
  · have hother : (σ other).notified ≤ (Function.update σ node v other).notified := by
      rcases eq_or_ne other node with rfl | ho
      · rw [Function.update_self]
        exact hle
      · rw [Function.update_of_ne ho]
    rcases eq_or_ne μ node with rfl | hμ
    · rw [Function.update_self]
      exact (hnear other).trans (Nat.add_le_add_right hother _)
    · rw [Function.update_of_ne hμ]
      exact (h.near μ other).trans (Nat.add_le_add_right hother _)

/-- One step keeps the nodes in their phases, when no one arrives as the last too early. -/
theorem Synced.step (h : Synced n σ) (ha : barrierStep σ a = some σ') (hok : Woken σ a σ') :
    Synced n σ' := by
  cases a with
  | enter node i =>
    obtain ⟨v, hv, rfl⟩ := Option.map_eq_some_iff.1 ha
    have hlen := BarrierNode.length_step (.inl hv)
    obtain ⟨p, hp, hv⟩ := Option.bind_eq_some_iff.1 hv
    split at hv
    · rename_i hpc
      have hnear := h.near node
      rw [hpc.2] at hnear
      rw [Barrier.arrive] at hv
      dsimp only at hv
      split at hv
      · rename_i hlt
        cases hv
        refine h.update ((h.inv node).enter_waiting hp hpc.1 hlt) hlen ?_ ?_
        · exact Nat.le_refl _
        · exact fun other => (hnear other).trans (Nat.le_add_right _ _)
      · rename_i hge
        cases hv
        refine h.update ((h.inv node).enter_last hp hpc.1 (Nat.not_lt.1 hge)
          (hok (Nat.not_lt.1 hge))) hlen (Nat.le_succ _) ?_
        exact fun other => Nat.succ_le_succ (hnear other)
    · cases hv
  | finish node i =>
    rw [barrierStep] at ha
    split at ha
    · rename_i hn
      obtain ⟨v, hv, rfl⟩ := Option.map_eq_some_iff.1 ha
      have hlen := BarrierNode.length_step (.inr (.inl hv))
      obtain ⟨p, hp, hv⟩ := Option.bind_eq_some_iff.1 hv
      split at hv
      · rename_i hpc
        cases hv
        exact h.update ((h.inv node).finish hp hpc) hlen (Nat.le_refl _) hn
      · cases hv
    · cases ha
  | wake node i =>
    obtain ⟨v, hv, rfl⟩ := Option.map_eq_some_iff.1 ha
    have hlen := BarrierNode.length_step (.inr (.inr hv))
    obtain ⟨p, hp, hv⟩ := Option.bind_eq_some_iff.1 hv
    split at hv
    · rename_i hpc
      have hnear := h.near node
      rw [hpc.2] at hnear
      cases hv
      refine h.update ((h.inv node).wake hp hpc.1 hpc.2) hlen (Nat.le_refl _) ?_
      exact fun other => (hnear other).trans (Nat.le_add_right _ _)
    · cases hv

theorem reach_synced (h : (barrierLts n).Reach Woken σ) : Synced n σ := by
  refine h.induct ?_ ?_
  · rintro s rfl
    exact synced_init n
  · exact fun s b s' _ ih hb hok => ih.step hb hok

/-- The condition is what it takes: a node notifies a crossing that one of its participants has not
entered exactly when the last arrives while another is still to be woken. -/
theorem woken_iff (h : (barrierLts n).Reach Woken σ) (ha : barrierStep σ a = some σ') :
    Woken σ a σ' ↔ ∀ node, ∀ q ∈ (σ' node).parts, (σ' node).notified ≤ q.entered := by
  have hs := reach_synced h
  refine ⟨fun hok node q hq => (((hs.step ha hok).inv node).placed q hq).le.2, fun hall => ?_⟩
  cases a with
  | finish | wake => trivial
  | enter node i =>
    intro hge q hq hsig
    obtain ⟨v, hv, rfl⟩ := Option.map_eq_some_iff.1 ha
    obtain ⟨p, hp, hv⟩ := Option.bind_eq_some_iff.1 hv
    split at hv
    · rename_i hpc
      have hv' : v.notified = (σ node).notified + 1 ∧ q ∈ v.parts := by
        obtain ⟨j, hj⟩ := List.mem_iff_getElem?.1 hq
        have hij : i ≠ j := by
          rintro rfl
          rw [Option.some.inj (hp.symm.trans hj), hsig] at hpc
          cases hpc.1
        rw [Barrier.arrive] at hv
        dsimp only at hv
        rw [if_neg (Nat.not_lt.2 hge)] at hv
        cases hv
        exact ⟨rfl, List.mem_of_getElem? ((List.getElem?_set_ne hij).trans hj)⟩
      have hle := hall node q (by rw [Function.update_self]; exact hv'.2)
      have hph := (hs.inv node).placed q hq
      unfold InPhase at hph
      rw [hsig, hpc.2] at hph
      rw [Function.update_self, hv'.1, hph.1] at hle
      omega
    · cases hv

/-- When all participants of a node have entered a crossing, the node has notified it. -/
theorem BarrierNode.Inv.notified {v : BarrierNode} (h : v.Inv) (hpos : 0 < v.parts.length) {k : ℕ}
    (hk : ∀ p ∈ v.parts, k ≤ p.entered) : k ≤ v.notified := by
  by_contra hlt
  have hall : ∀ p ∈ v.parts, p.inside = true ∧ v.barrier.locked = false := by
    intro p hp
    have hkp := hk p hp
    have hph := h.placed p hp
    unfold InPhase at hph
    cases hl : v.barrier.locked with
    | true =>
      rw [hl] at hph
      cases hpc : p.pc with
      | out => rw [hpc] at hph; exact hph.elim
      | signalled => rw [hpc] at hph; exact hph.elim
      | waiting => rw [hpc] at hph; exact absurd (hph.1 ▸ hkp) hlt
      | barrier => rw [hpc] at hph; exact absurd (hph.1 ▸ hkp) hlt
    | false =>
      rw [hl] at hph
      cases hpc : p.pc with
      | out => rw [hpc] at hph; exact absurd (hph.1 ▸ hkp) hlt
      | signalled => rw [hpc] at hph; exact absurd (hph.1 ▸ hkp) hlt
      | waiting => exact ⟨by simp [Participant.inside, hpc], rfl⟩
      | barrier => rw [hpc] at hph; exact hph.elim
  obtain ⟨p, hp⟩ := List.exists_mem_of_length_pos hpos
  have hlast := h.some_out (hall p hp).2 hpos
  rw [h.crossing, List.countP_eq_length.2 fun q hq => (hall q hq).1] at hlast
  exact absurd hlast (Nat.lt_irrefl _)

/-- A participant that waits unsignalled for a crossing its node has notified waits for the one at
the barrier of GASNet. -/
theorem BarrierNode.Inv.exists_atBarrier {v : BarrierNode} (h : v.Inv) {p : Participant}
    (hp : p ∈ v.parts) (hpc : p.pc = .waiting ∨ p.pc = .barrier) (hle : p.entered ≤ v.notified) :
    ∃ (i : ℕ) (q : Participant), v.parts[i]? = some q ∧ q.pc = .barrier := by
  have hl : v.barrier.locked = true := by
    have hph := h.placed p hp
    unfold InPhase at hph
    cases hl : v.barrier.locked with
    | true => rfl
    | false =>
      rw [hl] at hph
      rcases hpc with hpc | hpc
      · rw [hpc] at hph
        have he := hph.1
        omega
      · rw [hpc] at hph
        exact hph.elim
  have hat := h.at_barrier
  rw [hl, if_pos rfl] at hat
  obtain ⟨q, hq, hqb⟩ := List.countP_pos_iff.1 (hat ▸ Nat.zero_lt_one)
  obtain ⟨i, hi⟩ := List.mem_iff_getElem?.1 hq
  exact ⟨i, q, hi, eq_of_beq hqb⟩

/-! ## Main result -/

/-- **Phases are kept apart.** Every node has a participant, and in every run no one arrives as the
last of its node while another is still to be woken: then no one returns from a crossing before all
have entered it, whoever has entered it with all the others is signalled, and `crossing` comes back
to zero. -/
theorem reach_phases (hn : ∀ node : Fin N, 0 < (barrierInit node (n node)).count)
    (h : (barrierLts n).Reach Woken σ) : PhasesApart σ := by
  have hs := reach_synced h
  refine ⟨?_, ?_, ?_⟩
  · intro node other p hp q hq
    have h1 := ((hs.inv node).placed p hp).le.1
    have h2 := ((hs.inv other).placed q hq).le.2
    have h3 := hs.near node other
    omega
  · intro k hk node p hp he hpc
    have hnot : ∀ other, k ≤ (σ other).notified := fun other =>
      (hs.inv other).notified (hs.length other ▸ hn other) (hk other)
    obtain ⟨i, q, hi, hq⟩ := (hs.inv node).exists_atBarrier hp hpc (he ▸ hnot node)
    -- the node has not notified the next crossing yet, for the one at the barrier is in this one
    have hle : (σ node).notified ≤ k := by
      have hqp := (hs.inv node).placed q (List.mem_of_getElem? hi)
      have hpp := (hs.inv node).placed p hp
      unfold InPhase at hqp hpp
      rw [hq] at hqp
      cases hl : (σ node).barrier.locked with
      | false => rw [hl] at hqp; exact hqp.elim
      | true =>
        rw [hl] at hpp
        rcases hpc with hpc | hpc
        · rw [hpc] at hpp
          exact (hpp.1.symm.trans he).le
        · rw [hpc] at hpp
          exact (hpp.1.symm.trans he).le
    have hgo : Notified σ node := fun other => hle.trans (hnot other)
    refine ⟨i, Function.update σ node ⟨(σ node).barrier.finish true, (σ node).notified,
      ((σ node).parts.set i ⟨.out, q.entered, q.left + 1⟩).map Participant.signal⟩, ?_, ?_⟩
    · rw [barrierStep, if_pos hgo, BarrierNode.finish, hi, Option.bind_some, if_pos hq]
      rfl
    · intro r hr
      rw [Function.update_self] at hr
      obtain ⟨r, hr', rfl⟩ := List.mem_map.1 hr
      have hin := ((hs.inv node).finish hi hq).placed _ hr
      unfold InPhase at hin
      cases hrp : r.signal.pc with
      | out => exact .inl rfl
      | signalled => exact .inr rfl
      | waiting =>
        rw [Participant.signal] at hrp
        dsimp only at hrp
        split at hrp
        · cases hrp
        · exact absurd hrp ‹_›
      | barrier => rw [hrp] at hin; exact hin.elim
  · intro node hall
    rw [(hs.inv node).crossing]
    refine List.countP_eq_zero.2 fun p hp => ?_
    intro hin
    have he := ((hs.inv node).placed p hp).entered (bne_iff_ne.1 hin)
    rw [hall p hp] at he
    omega

end

/-! ## Runs -/

section runs

instance {N : ℕ} (σ : Fin N → BarrierNode) (a : BarrierAct N) (σ' : Fin N → BarrierNode) :
    Decidable (Woken σ a σ') := by
  unfold Woken
  split <;> infer_instance

/-- Where the participants of node 0 are. -/
def seen (σ : Fin 1 → BarrierNode) : List Participant := (σ 0).parts

/-- **Without the condition it fails.** The last to arrive comes again before the one it has woken
has the mutex, and returns from a second crossing that the other has not entered. -/
theorem phases_fail : ∃ σ : Fin 1 → BarrierNode,
    (barrierLts fun _ => 1).Reach (fun _ _ _ => True) σ ∧ ¬ PhasesApart σ := by
  have hrun : ((barrierLts fun _ : Fin 1 => 1).run (fun node => .init node 1)
      [.enter 0 0, .enter 0 1, .finish 0 1, .enter 0 1, .finish 0 1]).map seen =
      some [⟨.signalled, 1, 0⟩, ⟨.out, 2, 2⟩] := by
    decide +kernel
  obtain ⟨σ, h, ho⟩ := Lts.Reach.of_run rfl hrun
  refine ⟨σ, h, fun hp => ?_⟩
  have hsep := hp.separated 0 0
  rw [show (σ 0).parts = _ from ho] at hsep
  exact absurd (hsep ⟨.out, 2, 2⟩ (by decide) ⟨.signalled, 1, 0⟩ (by decide)) (by decide)

/-- Two participants cross twice. -/
theorem phases_two : ∃ σ : Fin 1 → BarrierNode, (barrierLts fun _ => 1).Reach Woken σ ∧
    seen σ = [⟨.out, 2, 2⟩, ⟨.out, 2, 2⟩] ∧ PhasesApart σ := by
  have hrun : ((barrierLts fun _ : Fin 1 => 1).runIf Woken (fun node => .init node 1)
      [.enter 0 0, .enter 0 1, .finish 0 1, .wake 0 0, .enter 0 1, .enter 0 0, .finish 0 0,
        .wake 0 1]).map seen = some [⟨.out, 2, 2⟩, ⟨.out, 2, 2⟩] := by
    decide +kernel
  obtain ⟨σ, h, ho⟩ := Lts.Reach.of_runIf rfl hrun
  exact ⟨σ, h, ho, reach_phases (by decide) h⟩

end runs

end DstmP1
