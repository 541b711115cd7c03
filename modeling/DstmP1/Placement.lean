import DstmP1.Barrier
import DstmP1.SpawnRoutines
import Mathlib.Algebra.BigOperators.Group.Finset.Piecewise
import Mathlib.Data.Int.CardIntervalMod

/-!
# Thread placement and barrier sizes

The spawner places threads on the nodes in turn (`dummy_loadbalancer.cpp`), and each node works out
by itself, from the number of threads alone, how many of them it will get
(`barrier_calculate_threads` in `dstm_barrier.cpp`). The two agree (`barrier_placement`): the
formula is the number of turns a node has had, and the turns of all nodes make up the threads. In a
run of the spawner it is the number of threads placed on the node (`reach_placement`).

The code computes both with `int`, which holds all values that occur.
-/

namespace DstmP1

/-! ## The load balancer -/

/-- `DummyLoadBalancer`. -/
structure DummyLoadBalancer where
  nodesNum : ℤ
  lastNode : ℤ

namespace DummyLoadBalancer

/-- The constructor. -/
def new (nodesNum : ℤ) : DummyLoadBalancer where
  nodesNum := nodesNum
  lastNode := -1

/-- `getVictim`: its result, and the balancer after it. -/
def getVictim (lb : DummyLoadBalancer) : ℤ × DummyLoadBalancer :=
  let lastNode := if lb.lastNode < lb.nodesNum - 1 then lb.lastNode + 1 else 0
  (lastNode, { lb with lastNode := lastNode })

/-- The balancer after `n` calls of `getVictim`. -/
def after (lb : DummyLoadBalancer) : ℕ → DummyLoadBalancer
  | 0 => lb
  | n + 1 => (lb.after n).getVictim.2

/-- The results of the first `n` calls. -/
def victims (lb : DummyLoadBalancer) (n : ℕ) : List ℤ :=
  (List.range n).map fun i => (lb.after i).getVictim.1

variable {lb : DummyLoadBalancer} {m n : ℕ}

theorem victims_succ (lb : DummyLoadBalancer) (n : ℕ) :
    lb.victims (n + 1) = lb.victims n ++ [(lb.after n).getVictim.1] := by
  rw [victims, List.range_succ, List.map_append, List.map_singleton, victims]

/-- After `n` calls the next turn is that of node `n % m`. -/
structure Turn (m n : ℕ) (lb : DummyLoadBalancer) : Prop where
  nodesNum : lb.nodesNum = m
  lower : -1 ≤ lb.lastNode
  upper : lb.lastNode < m
  next : (lb.lastNode + 1) % m = (n % m : ℕ)

theorem turn_new (m : ℕ) : Turn m 0 (new m) := by
  refine ⟨rfl, Int.le_refl _, ?_, ?_⟩
  · exact (Int.negSucc_lt_zero 0).trans_le (Int.natCast_nonneg m)
  · rw [new, Int.add_left_neg, Int.zero_emod, Nat.zero_mod, Nat.cast_zero]

/-- One call gives the node its turn and passes the turn on. -/
theorem Turn.getVictim (hm : 0 < m) (h : Turn m n lb) :
    lb.getVictim.1 = (n % m : ℕ) ∧ Turn m (n + 1) lb.getVictim.2 := by
  obtain ⟨hnodes, hlower, hupper, hnext⟩ := h
  have hpos : (0 : ℤ) < m := Int.natCast_pos.2 hm
  have hv : lb.getVictim.1 = (n % m : ℕ) := by
    rw [← hnext, DummyLoadBalancer.getVictim, hnodes]
    dsimp only
    split
    · exact (Int.emod_eq_of_lt (by omega) (by omega)).symm
    · rw [show lb.lastNode + 1 = m by omega, Int.emod_self]
  have hlt : ((n % m : ℕ) : ℤ) < m := Int.ofNat_lt.2 (Nat.mod_lt n hm)
  refine ⟨hv, hnodes, ?_, ?_, ?_⟩
  · show -1 ≤ lb.getVictim.1
    rw [hv]
    omega
  · show lb.getVictim.1 < m
    rw [hv]
    exact hlt
  · show (lb.getVictim.1 + 1) % m = ((n + 1) % m : ℕ)
    rw [hv, Int.natCast_mod, Int.natCast_mod, Int.emod_add_emod, Nat.cast_succ]

theorem turn_after (hm : 0 < m) (n : ℕ) : Turn m n ((new m).after n) := by
  induction n with
  | zero => exact turn_new m
  | succ n ih => exact (ih.getVictim hm).2

/-- The nodes have their turns in order. -/
theorem getVictim_after (hm : 0 < m) (n : ℕ) : ((new m).after n).getVictim.1 = (n % m : ℕ) :=
  ((turn_after hm n).getVictim hm).1

/-- A node has its turn in those calls whose number has the node as its remainder. -/
theorem count_victims {k : ℕ} (hk : k < m) (n : ℕ) :
    ((new m).victims n).count (k : ℤ) = n.count (· ≡ k [MOD m]) := by
  induction n with
  | zero => rw [Nat.count_zero]; rfl
  | succ n ih =>
    have hiff : ((n % m : ℕ) : ℤ) = k ↔ n ≡ k [MOD m] := by
      rw [Nat.cast_inj, Nat.ModEq, Nat.mod_eq_of_lt hk]
    rw [victims_succ, List.count_append, ih, Nat.count_succ,
      getVictim_after (Nat.zero_lt_of_lt hk), List.count_singleton]
    congr 1
    exact if_congr (beq_iff_eq.trans hiff) rfl rfl

end DummyLoadBalancer

/-! ## The size of a barrier -/

/-- `barrier_calculate_threads`, with what `gasnet_nodes` and `gasnet_mynode` return. -/
def barrierCalculateThreads (gasnetNodes gasnetMynode tnum : ℤ) : ℤ :=
  let nodes := gasnetNodes
  let mynode := gasnetMynode + 1
  let div := tnum.tdiv nodes
  let mod := tnum.tmod nodes
  if div > 0 then
    if mod > 0 then
      if mynode > mod then div else div + 1
    else div
  else
    if mynode > tnum then 0 else 1

section
variable {m n k : ℕ}

/-- The four branches come to one formula. -/
theorem barrierCalculateThreads_eq (hk : k < m) (n : ℕ) :
    barrierCalculateThreads m k n = (n / m + if k < n % m then 1 else 0 : ℕ) := by
  rw [barrierCalculateThreads, ← Int.ofNat_tdiv, ← Int.ofNat_tmod]
  rcases Nat.eq_zero_or_pos (n / m) with hdiv | hdiv
  · -- fewer threads than nodes: the remainder is the number of threads
    have hmod : n % m = n := Nat.mod_eq_of_lt ((Nat.div_eq_zero_iff_lt (by omega)).1 hdiv)
    rw [if_neg (by omega), hmod, hdiv]
    split
    · rw [if_neg (by omega)]
      rfl
    · rw [if_pos (by omega)]
      rfl
  · rw [if_pos (by omega)]
    split
    · split
      · rw [if_neg (by omega), Nat.add_zero]
      · rw [if_pos (by omega), Nat.cast_succ]
    · rw [if_neg (by omega), Nat.add_zero]

/-- The size is the number of turns. -/
theorem barrierCalculateThreads_count (hk : k < m) (n : ℕ) : barrierCalculateThreads m k n =
    (((DummyLoadBalancer.new m).victims n).count (k : ℤ) : ℕ) := by
  rw [DummyLoadBalancer.count_victims hk, Nat.count_modEq_card _ (Nat.zero_lt_of_lt hk),
    Nat.mod_eq_of_lt hk, barrierCalculateThreads_eq hk]

/-- Every turn is that of one node. -/
theorem sum_count_modEq (hm : 0 < m) (n : ℕ) :
    ∑ k ∈ Finset.range m, n.count (· ≡ k [MOD m]) = n := by
  induction n with
  | zero => exact Finset.sum_eq_zero fun k _ => Nat.count_zero _
  | succ n ih =>
    have hone : ∑ k ∈ Finset.range m, (if n ≡ k [MOD m] then 1 else 0) = 1 := by
      have hiff : ∀ k ∈ Finset.range m, (if n ≡ k [MOD m] then 1 else 0) =
          if n % m = k then 1 else 0 := by
        intro k hk
        have hmod : n ≡ k [MOD m] ↔ n % m = k := by
          rw [Nat.ModEq, Nat.mod_eq_of_lt (Finset.mem_range.1 hk)]
        exact if_congr hmod rfl rfl
      rw [Finset.sum_congr rfl hiff, Finset.sum_ite_eq,
        if_pos (Finset.mem_range.2 (Nat.mod_lt n hm))]
    simp only [Nat.count_succ]
    rw [Finset.sum_add_distrib, ih, hone]

/-- **The sizes of the barriers sum to the number of threads.** -/
theorem sum_barrierCalculateThreads (hm : 0 < m) (n : ℕ) :
    ∑ k ∈ Finset.range m, barrierCalculateThreads m k n = n := by
  have hcount : ∀ k ∈ Finset.range m,
      barrierCalculateThreads m k n = (n.count (· ≡ k [MOD m]) : ℕ) := by
    intro k hk
    have hk := Finset.mem_range.1 hk
    rw [barrierCalculateThreads_count hk, DummyLoadBalancer.count_victims hk]
  rw [Finset.sum_congr rfl hcount, ← Nat.cast_sum, sum_count_modEq hm]

end

/-! ## The spawner -/

section
variable {F : Type} {find : List Byte → Option F} {σ : Spawn find} {mainNode m : ℕ}

/-- The spawner takes the next answer of the load balancer for `m` nodes. -/
def Balanced (m : ℕ) (σ : Spawn find) (a : SpawnAct find) (_ : Spawn find) : Prop :=
  match a with
  | .register victim => (victim : ℤ) = ((DummyLoadBalancer.new m).after σ.calls.length).getVictim.1
  | _ => True

/-- In a run of the spawner the threads are where the load balancer has put them. -/
theorem reach_victims (h : (Spawn.lts mainNode).Reach (Balanced m) σ) :
    (σ.calls.map fun c => (c.victim : ℤ)) =
      (DummyLoadBalancer.new m).victims σ.calls.length := by
  refine h.induct (I := fun s => (s.calls.map fun c => (c.victim : ℤ)) =
    (DummyLoadBalancer.new m).victims s.calls.length) ?_ ?_
  · rintro s ⟨handles, rfl⟩
    rfl
  · intro s a s' _ ih ha hok
    rcases Spawn.calls_step ha with hc | ⟨victim, call, id, rfl, -, hc⟩
    · rw [hc, ih]
    · rw [hc, List.map_append, ih, List.length_append, List.length_singleton,
        DummyLoadBalancer.victims_succ, List.map_singleton, show (victim : ℤ) = _ from hok]

/-- **A node gets as many threads as its barrier is sized for.** -/
theorem reach_placement (h : (Spawn.lts mainNode).Reach (Balanced m) σ) {k : ℕ} (hk : k < m) :
    barrierCalculateThreads m k σ.calls.length =
      (σ.calls.countP fun c => c.victim == k : ℕ) := by
  rw [barrierCalculateThreads_count hk, ← reach_victims h, List.count, List.countP_map]
  congr 1
  refine List.countP_congr fun c _ => ?_
  rw [Function.comp_apply, beq_iff_eq, beq_iff_eq, Nat.cast_inj]

end

/-! ## Main result -/

/-- **Barriers wait for the threads that are placed.** On any number of nodes the size that a node
works out for `n` threads is the number of its turns among the first `n`, the sizes make up all
threads, and in every run of the spawner the barrier of a node is initialised to the threads placed
there, and the main thread on node 0. -/
theorem barrier_placement {m : ℕ} (hm : 1 ≤ m) (n : ℕ) :
    (∀ k < m, barrierCalculateThreads m k n =
      (((DummyLoadBalancer.new m).victims n).count (k : ℤ) : ℕ)) ∧
    ∑ k ∈ Finset.range m, barrierCalculateThreads m k n = n ∧
    ∀ {F : Type} {find : List Byte → Option F} {mainNode : ℕ} {σ : Spawn find},
      (Spawn.lts mainNode).Reach (Balanced m) σ → σ.calls.length = n → ∀ k < m,
        (barrierInit k (barrierCalculateThreads m k n).toNat).count =
          (σ.calls.countP fun c => c.victim == k) + if k = 0 then 1 else 0 := by
  refine ⟨fun k hk => barrierCalculateThreads_count hk n, sum_barrierCalculateThreads hm n, ?_⟩
  rintro F find mainNode σ h rfl k hk
  rw [reach_placement h hk, Int.toNat_natCast, barrierInit]
  dsimp only
  split
  · rfl
  · rfl

/-- Three threads on two nodes. -/
theorem barrier_placement_two : (DummyLoadBalancer.new 2).victims 3 = [0, 1, 0] ∧
    barrierCalculateThreads 2 0 3 = 2 ∧ barrierCalculateThreads 2 1 3 = 1 ∧
    ∑ k ∈ Finset.range 2, barrierCalculateThreads 2 k 3 = 3 := by
  have h := barrier_placement (m := 2) (by decide) 3
  exact ⟨rfl, h.1 0 (by decide), h.1 1 (by decide), h.2.1⟩

end DstmP1
