import DstmP1.Variables
import Mathlib.Algebra.BigOperators.Fin
import Mathlib.Data.BitVec
import Mathlib.Tactic.Abel

/-!
# The bank test

The threads of `bank_my.c` move money between accounts that lie on all nodes (`transfer`), add up
all balances (`total`), set them to 0 (`reset`) and poll a flag that tells them to stop. `Layout` is
the memory that `main` has allocated for this, `Layout.Ready` what it has written there before it
creates the threads, some of it in atomic blocks, so that lock words and clocks need not be 0 any
more. The sum of the balances is then 0 whenever no thread is inside `commit`, and 0 is what every
call of `total` returns: `main` prints it as `expected`.
-/

namespace DstmP1.Bank

open Atomic

/-- `DEFAULT_NB_NODES`. -/
def nbNodes : ℕ := 24

/-! ## The blocks -/

/-- The local variables that blocks assign: `i` of `transfer`, `total` of `total`, the others of
`test`. -/
structure Locals where
  i : Num .u32
  total : Num .u32
  bank : Num .u64
  id : Num .u32
  tnum : Num .u32
  bankSize : Num .u32
  globalSeed : Num .u32
  pstop : Num .u64
  stop : Num .u32

/-- What is read of them after a block. -/
inductive Result where
  | none
  | int (x : Num .u32)
  | params (bank : Num .u64) (id tnum bankSize seed : Num .u32)

section
variable {g : Segments} {R : Type*}

/-- `&bank[j].accounts[i].balance`. -/
def balanceAddr (bank : Word) (j i : ℕ) (k : Word → Code g R) : Code g R :=
  load .u64 (bank + BitVec.ofNat 64 (16 * j)) fun accounts =>
    k (accounts + BitVec.ofNat 64 (8 * i + 4))

/-- The block of `transfer`. -/
def transfer (bank : Word) (srcT dstT src dst : ℕ) (amount : Num .u32) (f : Locals) :
    Code g Result :=
  balanceAddr bank srcT src fun a => load .u32 a fun x =>
  let f := { f with i := x }
  let f := { f with i := f.i - amount }
  balanceAddr bank srcT src fun a => store .u32 a f.i <|
  balanceAddr bank dstT dst fun a => load .u32 a fun x =>
  let f := { f with i := x }
  let f := { f with i := f.i + amount }
  balanceAddr bank dstT dst fun a => store .u32 a f.i <|
  .done .none

/-- The block of `total`, if `transactional`. -/
def total (bank : Word) (bankSize : ℕ) (f : Locals) : Code g Result :=
  (Prog.loop (fun f i =>
    Prog.loop (fun (f : Locals) j =>
      balanceAddr bank j i fun a => load .u32 a fun x => .done { f with total := f.total + x })
    f (List.range nbNodes)) { f with total := 0 } (List.range (bankSize / nbNodes))).bind fun f =>
  .done (.int f.total)

/-- The block of `reset`. -/
def reset (bank : Word) (bankSize : ℕ) : Code g Result :=
  (Prog.loop (fun _ i =>
    Prog.loop (fun _ j =>
      balanceAddr bank j i fun a => store .u32 a 0 (.done ()))
    () (List.range nbNodes)) () (List.range (bankSize / nbNodes))).bind fun _ =>
  .done .none

end

/-- The fields of `thread_data_t` that are used in blocks. -/
inductive ThreadData where
  | bank | nbTransfer | nbReadAll | nbWriteAll | seed | id | tnum | stop | bankSize
  deriving DecidableEq

namespace ThreadData

/-- `offsetof`. -/
def offset : ThreadData → ℕ
  | bank => 0
  | nbTransfer => 24
  | nbReadAll => 32
  | nbWriteAll => 40
  | seed => 48
  | id => 52
  | tnum => 72
  | stop => 80
  | bankSize => 88

@[reducible] def width : ThreadData → Width
  | bank | nbTransfer | nbReadAll | nbWriteAll | stop => .u64
  | seed | id | tnum | bankSize => .u32

/-- The fields that `test` only reads. -/
def param : ThreadData → Bool
  | nbTransfer | nbReadAll | nbWriteAll => false
  | _ => true

/-- `sizeof(thread_data_t)`. -/
def size : ℕ := 160

/-- A field ends within the structure. -/
theorem offset_le (f : ThreadData) : f.offset + f.width.bytes ≤ size := by
  cases f <;> decide

/-- Two fields of the structure do not overlap. -/
theorem offset_apart {f f' : ThreadData} (h : f ≠ f') :
    f.offset + f.width.bytes ≤ f'.offset ∨ f'.offset + f'.width.bytes ≤ f.offset := by
  revert h
  cases f <;> cases f' <;> decide

end ThreadData

section
variable {g : Segments}

/-- `d->f` in `test`. -/
def loadData {R : Type*} (d : Word) (f : ThreadData) (k : Num f.width → Code g R) : Code g R :=
  load f.width (d + BitVec.ofNat 64 f.offset) k

/-- The first block of `test`. -/
def params (d : Word) (f : Locals) : Code g Result :=
  loadData d .bank fun x =>
  let f := { f with bank := x }
  loadData d .id fun x =>
  let f := { f with id := x }
  loadData d .tnum fun x =>
  let f := { f with tnum := x }
  loadData d .bankSize fun x =>
  let f := { f with bankSize := x }
  loadData d .seed fun x =>
  let f := { f with globalSeed := x }
  .done (.params f.bank f.id f.tnum f.bankSize f.globalSeed)

/-- The block at the end of the loop of `test`. -/
def poll (d : Word) (f : Locals) : Code g Result :=
  loadData d .stop fun x =>
  let f := { f with pstop := x }
  load .u32 f.pstop fun x =>
  let f := { f with stop := x }
  .done (.int f.stop)

/-- The last block of `test`. -/
def report (d : Word) (nbReadAll nbWriteAll nbTransfer : Num .u64) : Code g Result :=
  store .u64 (d + BitVec.ofNat 64 ThreadData.nbReadAll.offset) nbReadAll <|
  store .u64 (d + BitVec.ofNat 64 ThreadData.nbWriteAll.offset) nbWriteAll <|
  store .u64 (d + BitVec.ofNat 64 ThreadData.nbTransfer.offset) nbTransfer <|
  .done .none

/-- The block with which `main` stops the threads. -/
def halt (stop : Word) : Code g Result :=
  store .u32 stop 1 (.done .none)

end

/-! ## The memory of the test -/

/-- The calls of `dstm_malloc` in `main`. -/
inductive Area where
  | data
  | stop
  | bank
  | accounts (j : Fin nbNodes)
  deriving DecidableEq

/-- Their sizes. -/
def Area.size (perNode nbThreads : ℕ) : Area → ℕ
  | data => nbThreads * ThreadData.size
  | stop => 8
  | bank => 16 * nbNodes
  | accounts _ => 8 * perNode

/-- What `dstm_malloc` has returned. -/
structure Layout (g : Segments) where
  /-- `per_nodes_accounts`. -/
  perNode : ℕ
  nbThreads : ℕ
  base : Area → Word
  aligned : ∀ a, (base a).toNat % 8 = 0
  inHeap : ∀ a, ∀ o < a.size perNode nbThreads, g.InHeap (base a + BitVec.ofNat 64 o)
  fits : ∀ a, (base a).toNat + a.size perNode nbThreads ≤ 2 ^ 63
  apart : ∀ a a', a ≠ a' → (base a).toNat + a.size perNode nbThreads ≤ (base a').toNat ∨
    (base a').toNat + a'.size perNode nbThreads ≤ (base a).toNat

variable {g : Segments}

/-- The variables in this memory. -/
inductive Var (L : Layout g) where
  | data (d : Fin L.nbThreads) (f : ThreadData)
  | stop
  | accounts (j : Fin nbNodes)
  | balance (j : Fin nbNodes) (i : Fin L.perNode)
  deriving DecidableEq

namespace Var

variable {L : Layout g}

def area : Var L → Area
  | data _ _ => .data
  | stop => .stop
  | accounts _ => .bank
  | balance j _ => .accounts j

def offset : Var L → ℕ
  | data d f => ThreadData.size * d + f.offset
  | stop => 0
  | accounts j => 16 * j
  | balance _ i => 8 * i + 4

@[reducible] def width : Var L → Width
  | data _ f => f.width
  | stop | balance _ _ => .u32
  | accounts _ => .u64

/-- The variables that no block writes. -/
def fixed : Var L → Bool
  | data _ f => f.param
  | accounts _ => true
  | _ => false

/-- A variable ends within its area. -/
theorem offset_le (v : Var L) :
    v.offset + v.width.bytes ≤ v.area.size L.perNode L.nbThreads := by
  cases v with
  | data d f =>
    have hf := f.offset_le
    have hd := Nat.mul_le_mul_right ThreadData.size (Nat.succ_le_of_lt d.isLt)
    change ThreadData.size * d + f.offset + f.width.bytes ≤ L.nbThreads * ThreadData.size
    rw [Nat.succ_mul, Nat.mul_comm] at hd
    omega
  | stop =>
    change 0 + 4 ≤ 8
    omega
  | accounts j =>
    have hj := j.isLt
    change 16 * j.val + 8 ≤ 16 * nbNodes
    omega
  | balance j i =>
    have hi := i.isLt
    change 8 * i.val + 4 + 4 ≤ 8 * L.perNode
    omega

/-- A variable is aligned to its width, as the areas are. -/
theorem offset_aligned (v : Var L) : v.offset % v.width.bytes = 0 := by
  cases v with
  | data d f =>
    have hf : f.offset % f.width.bytes = 0 ∧ ThreadData.size % f.width.bytes = 0 := by
      cases f <;> decide
    change (ThreadData.size * d + f.offset) % f.width.bytes = 0
    rw [Nat.add_mod, Nat.mul_mod, hf.1, hf.2, Nat.zero_mul, Nat.zero_mod, Nat.add_zero,
      Nat.zero_mod]
  | stop => rfl
  | accounts j =>
    change 16 * j.val % 8 = 0
    omega
  | balance j i =>
    change (8 * i.val + 4) % 4 = 0
    omega

/-- Variables of one area do not overlap. -/
theorem offset_apart {v v' : Var L} (hne : v ≠ v') (ha : v.area = v'.area) :
    v.offset + v.width.bytes ≤ v'.offset ∨ v'.offset + v'.width.bytes ≤ v.offset := by
  cases v with
  | data d f =>
    cases v' with
    | data d' f' =>
      change ThreadData.size * d.val + f.offset + f.width.bytes ≤
        ThreadData.size * d'.val + f'.offset ∨ ThreadData.size * d'.val + f'.offset +
          f'.width.bytes ≤ ThreadData.size * d.val + f.offset
      by_cases hd : d = d'
      · have hff : f ≠ f' := fun h => hne (by rw [hd, h])
        have hoff := ThreadData.offset_apart hff
        rw [hd]
        omega
      · have hlt := f.offset_le
        have hlt' := f'.offset_le
        have hd' := Fin.val_ne_of_ne hd
        simp only [ThreadData.size] at *
        omega
    | _ => cases ha
  | stop =>
    cases v' with
    | stop => exact absurd rfl hne
    | _ => cases ha
  | accounts j =>
    cases v' with
    | accounts j' =>
      have hj : j.val ≠ j'.val := fun h => hne (by rw [Fin.ext h])
      change 16 * j.val + 8 ≤ 16 * j'.val ∨ 16 * j'.val + 8 ≤ 16 * j.val
      omega
    | _ => cases ha
  | balance j i =>
    cases v' with
    | balance j' i' =>
      cases ha
      have hi : i.val ≠ i'.val := fun h => hne (by rw [Fin.ext h])
      change 8 * i.val + 4 + 4 ≤ 8 * i'.val + 4 ∨ 8 * i'.val + 4 + 4 ≤ 8 * i.val + 4
      omega
    | _ => cases ha

end Var

namespace Layout

variable (L : Layout g)

def addr (v : Var L) : Word := L.base v.area + BitVec.ofNat 64 v.offset

theorem addr_toNat (v : Var L) : (L.addr v).toNat = (L.base v.area).toNat + v.offset := by
  have hfit := L.fits v.area
  have hle := v.offset_le
  have hpos := v.width.bytes_pos
  rw [addr, BitVec.toNat_add, BitVec.toNat_ofNat, Nat.mod_eq_of_lt (a := v.offset) (by omega),
    Nat.mod_eq_of_lt (by omega)]

/-- `&data[d]`. -/
def threadData (d : Fin L.nbThreads) : Word :=
  L.base .data + BitVec.ofNat 64 (ThreadData.size * d)

/-- A field of `thread_data` is found from the address of the structure. -/
theorem addr_data (d : Fin L.nbThreads) (f : ThreadData) :
    L.threadData d + BitVec.ofNat 64 f.offset = L.addr (.data d f) := by
  rw [threadData, BitVec.add_assoc, ← BitVec.ofNat_add]
  rfl

/-- The variables of the test. -/
def vars : Vars g (Var L) where
  addr := L.addr
  width := Var.width
  inHeap v := L.inHeap v.area v.offset (by have := v.offset_le; have := v.width.bytes_pos; omega)
  aligned v := by
    have ho := v.offset_aligned
    have hw : 8 % v.width.bytes = 0 := by cases v.width <;> rfl
    have hb : (L.base v.area).toNat % v.width.bytes = 0 :=
      Nat.mod_eq_zero_of_dvd ((Nat.dvd_of_mod_eq_zero hw).trans
        (Nat.dvd_of_mod_eq_zero (L.aligned v.area)))
    rw [L.addr_toNat, Nat.add_mod, hb, ho, Nat.zero_add, Nat.zero_mod]
  apart v v' hne := by
    rw [L.addr_toNat, L.addr_toNat]
    have hle := v.offset_le
    have hle' := v'.offset_le
    by_cases ha : v.area = v'.area
    · have hoff := Var.offset_apart hne ha
      rw [ha]
      omega
    · have hbase := L.apart _ _ ha
      omega

/-- The value of a variable in memory. -/
def get (m : Flat) (v : Var L) : Num v.width := L.vars.get m v

/-- The memory after a variable has been assigned to. -/
def set (m : Flat) (v : Var L) (x : Num v.width) : Flat := m.store (L.addr v) x.bytes

variable {L} {m : Flat} {R : Type*} {Q : R → Flat → Prop}

theorem get_set (v : Var L) (x : Num v.width) :
    L.get (L.set m v x) = Function.update (L.get m) v x :=
  L.vars.get_store m v x

@[simp] theorem get_set_same (v : Var L) (x : Num v.width) : L.get (L.set m v x) v = x := by
  rw [get_set, Function.update_self]

/-- A store changes no other variable. -/
theorem get_set_ne {v v' : Var L} (x : Num v.width) (h : v' ≠ v) :
    L.get (L.set m v x) v' = L.get m v' := by
  rw [get_set, Function.update_of_ne h]

/-- A load at the address of a variable gives its value. -/
theorem wp_load (v : Var L) {k : Num v.width → Code g R} :
    (load v.width (L.addr v) k).wp (flatMemory g) Q m ↔
      (k (L.get m v)).wp (flatMemory g) Q m :=
  L.vars.wp_load

/-- A store at the address of a variable sets it. -/
theorem wp_store (v : Var L) {x : Num v.width} {k : Code g R} :
    (store v.width (L.addr v) x k).wp (flatMemory g) Q m ↔
      k.wp (flatMemory g) Q (L.set m v x) :=
  L.vars.wp_store

/-! ## The blocks on this memory -/

/-- The pointers and the parameters are those of the memory `objs`, the pointers to the accounts
those of the layout. -/
structure Fixed (L : Layout g) (objs m : Flat) : Prop where
  fixed : ∀ v : Var L, v.fixed → L.get m v = L.get objs v
  accounts : ∀ j, L.get objs (.accounts j) = L.base (.accounts j)

variable {objs : Flat}

/-- A store to a variable that is not fixed changes no fixed one. -/
theorem Fixed.set (h : L.Fixed objs m) {v : Var L} (hv : v.fixed = false) (x : Num v.width) :
    L.Fixed objs (L.set m v x) where
  fixed v' hv' := by
    have hne : v' ≠ v := by
      rintro rfl
      rw [hv] at hv'
      cases hv'
    rw [get_set_ne x hne, h.fixed v' hv']
  accounts := h.accounts

/-- An access to an account goes through the pointer of its node. -/
theorem Fixed.wp_balanceAddr (h : L.Fixed objs m) {j : Fin nbNodes} {i : ℕ}
    {k : Word → Code g R}
    (hk : (k (L.base (.accounts j) + BitVec.ofNat 64 (8 * i + 4))).wp (flatMemory g) Q m) :
    (balanceAddr (L.base .bank) j i k).wp (flatMemory g) Q m := by
  refine (wp_load (.accounts j)).2 ?_
  rwa [h.fixed _ rfl, h.accounts]

/-- The pointers to the accounts are fixed, so a load through them is that of a balance. -/
theorem Fixed.wp_loadBalance (h : L.Fixed objs m) {j : Fin nbNodes} {i : Fin L.perNode}
    {k : Num .u32 → Code g R} (hk : (k (L.get m (.balance j i))).wp (flatMemory g) Q m) :
    (balanceAddr (L.base .bank) j i fun a => load .u32 a k).wp (flatMemory g) Q m :=
  h.wp_balanceAddr ((wp_load (.balance j i)).2 hk)

/-- A store through the pointers to the accounts sets a balance. -/
theorem Fixed.wp_storeBalance (h : L.Fixed objs m) {j : Fin nbNodes} {i : Fin L.perNode}
    {x : Num .u32} {k : Code g R}
    (hk : k.wp (flatMemory g) Q (L.set m (.balance j i) x)) :
    (balanceAddr (L.base .bank) j i fun a => store .u32 a x k).wp (flatMemory g) Q m :=
  h.wp_balanceAddr ((wp_store (.balance j i)).2 hk)

/-- The sum of all balances. -/
def sum (L : Layout g) (m : Flat) : Num .u32 :=
  ∑ x : Fin L.perNode × Fin nbNodes, L.get m (.balance x.2 x.1)

/-- A store to one balance changes the sum by the difference. -/
theorem sum_set (j : Fin nbNodes) (i : Fin L.perNode) (x : Num .u32) :
    L.sum (L.set m (.balance j i) x) = L.sum m - L.get m (.balance j i) + x := by
  have hupd : (fun y : Fin L.perNode × Fin nbNodes => L.get (L.set m (.balance j i) x)
      (.balance y.2 y.1)) = Function.update (fun y : Fin L.perNode × Fin nbNodes =>
        L.get m (.balance y.2 y.1)) (i, j) x := by
    funext y
    by_cases hy : y = (i, j)
    · subst hy
      rw [get_set_same, Function.update_self]
    · rw [Function.update_of_ne hy, get_set_ne]
      rintro ⟨⟩
      exact hy rfl
  have hi := Finset.mem_univ (i, j)
  rw [sum, hupd, Finset.sum_update_of_mem hi, sum, ← Finset.sum_sdiff (Finset.singleton_subset_iff.2
    hi), Finset.sum_singleton]
  abel

/-- `transfer` leaves the sum as it is. -/
theorem Fixed.wp_transfer (h : L.Fixed objs m) (srcT dstT : Fin nbNodes) (src dst : Fin L.perNode)
    (amount : Num .u32) (f : Locals) :
    (transfer (L.base .bank) srcT dstT src dst amount f).wp (flatMemory g)
      (fun r m' => r = .none ∧ L.Fixed objs m' ∧ L.sum m' = L.sum m) m := by
  have h₁ := h.set (v := .balance srcT src) rfl (L.get m (.balance srcT src) - amount)
  refine h.wp_loadBalance <| h.wp_storeBalance <| h₁.wp_loadBalance <| h₁.wp_storeBalance
    ⟨rfl, h₁.set rfl _, ?_⟩
  rw [sum_set, sum_set]
  dsimp only
  abel

/-- The accounts in the order of the loops. -/
theorem sum_list (f : Fin L.perNode × Fin nbNodes → Num .u32) :
    ((List.finRange L.perNode ×ˢ List.finRange nbNodes).map f).sum = ∑ x, f x := by
  have hnodup := (List.nodup_finRange L.perNode).product (List.nodup_finRange nbNodes)
  rw [← List.sum_toFinset f hnodup]
  refine Finset.sum_congr (Finset.eq_univ_iff_forall.2 fun x => ?_) fun _ _ => rfl
  exact List.mem_toFinset.2 (List.mem_product.2 ⟨List.mem_finRange _, List.mem_finRange _⟩)

/-- `total` returns the sum. -/
theorem Fixed.wp_total (h : L.Fixed objs m) (f : Locals) :
    (total (L.base .bank) (L.perNode * nbNodes) f).wp (flatMemory g)
      (fun r m' => r = .int (L.sum m) ∧ m' = m) m := by
  rw [total, Nat.mul_div_cancel _ (by decide : 0 < nbNodes), Prog.loop_range, Prog.wp_bind]
  refine Prog.wp_mono (Prog.wp_loop (I := fun done (f : Locals) m' => m' = m ∧
    f.total = (done.map fun x => L.get m (.balance x.2 x.1)).sum) ?_ ⟨rfl, rfl⟩) ?_
  · rintro done x rest - f m' ⟨rfl, hf⟩
    refine h.wp_loadBalance ⟨rfl, ?_⟩
    rw [List.map_append, List.sum_append, List.map_singleton, List.sum_singleton, ← hf]
  · rintro f m' ⟨rfl, hf⟩
    exact ⟨by rw [hf, sum_list, sum], rfl⟩

/-- `reset` makes all balances 0. -/
theorem Fixed.wp_reset (h : L.Fixed objs m) :
    (reset (L.base .bank) (L.perNode * nbNodes)).wp (flatMemory g)
      (fun r m' => r = .none ∧ L.Fixed objs m' ∧ L.sum m' = 0) m := by
  rw [reset, Nat.mul_div_cancel _ (by decide : 0 < nbNodes), Prog.loop_range, Prog.wp_bind]
  refine Prog.wp_mono (Prog.wp_loop (I := fun done _ m' => L.Fixed objs m' ∧
    ∀ x ∈ done, L.get m' (.balance x.2 x.1) = 0) ?_ ⟨h, fun _ hx => absurd hx List.not_mem_nil⟩) ?_
  · rintro done x rest - - m' ⟨h, hzero⟩
    refine h.wp_storeBalance ⟨h.set rfl _, fun y hy => ?_⟩
    by_cases hyx : y = x
    · rw [hyx, get_set_same]
    · rw [get_set_ne]
      · rcases List.mem_append.1 hy with hy | hy
        · exact hzero y hy
        · exact absurd (List.mem_singleton.1 hy) hyx
      · intro he
        obtain ⟨hj, hi⟩ := Var.balance.inj he
        exact hyx (Prod.ext hi hj)
  · rintro - m' ⟨h, hzero⟩
    refine ⟨rfl, h, Finset.sum_eq_zero fun x _ => hzero x ?_⟩
    exact List.mem_product.2 ⟨List.mem_finRange _, List.mem_finRange _⟩

/-- The parameters of a thread are as `main` has set them. -/
theorem Fixed.wp_loadData (h : L.Fixed objs m) {d : Fin L.nbThreads} {f : ThreadData}
    (hf : f.param) {k : Num f.width → Code g R}
    (hk : (k (L.get objs (.data d f))).wp (flatMemory g) Q m) :
    (loadData (L.threadData d) f k).wp (flatMemory g) Q m := by
  have hv : (Var.data d f : Var L).fixed := hf
  rw [loadData, addr_data]
  refine (wp_load (.data d f)).2 ?_
  rwa [h.fixed _ hv]

/-- The block that copies the parameters writes nothing. -/
theorem Fixed.wp_params (h : L.Fixed objs m) (d : Fin L.nbThreads) (f : Locals) :
    (params (L.threadData d) f).wp (flatMemory g) (fun r m' => r = .params
      (L.get objs (.data d .bank)) (L.get objs (.data d .id)) (L.get objs (.data d .tnum))
      (L.get objs (.data d .bankSize)) (L.get objs (.data d .seed)) ∧ m' = m) m :=
  h.wp_loadData rfl <| h.wp_loadData rfl <| h.wp_loadData rfl <| h.wp_loadData rfl <|
    h.wp_loadData rfl ⟨rfl, rfl⟩

/-- A look at the stop flag writes nothing. -/
theorem Fixed.wp_poll (h : L.Fixed objs m) (d : Fin L.nbThreads)
    (hd : L.get objs (.data d .stop) = L.base .stop) (f : Locals) :
    (poll (L.threadData d) f).wp (flatMemory g)
      (fun r m' => r = .int (L.get m .stop) ∧ m' = m) m := by
  refine h.wp_loadData rfl ?_
  rw [hd, show L.base .stop = L.addr .stop from (BitVec.add_zero _).symm]
  exact (wp_load .stop).2 ⟨rfl, rfl⟩

/-- A variable that is not a balance does not count. -/
theorem sum_set_ne {v : Var L} (hv : ∀ j i, v ≠ .balance j i) (x : Num v.width) :
    L.sum (L.set m v x) = L.sum m :=
  Finset.sum_congr rfl fun y _ => get_set_ne x (hv y.2 y.1).symm

/-- The report of a thread goes to fields of its own. -/
theorem Fixed.wp_report (h : L.Fixed objs m) (d : Fin L.nbThreads)
    (nbReadAll nbWriteAll nbTransfer : Num .u64) :
    (report (L.threadData d) nbReadAll nbWriteAll nbTransfer).wp (flatMemory g)
      (fun r m' => r = .none ∧ L.Fixed objs m' ∧ L.sum m' = L.sum m) m := by
  rw [report, addr_data, addr_data, addr_data]
  refine (wp_store (.data d .nbReadAll)).2 <| (wp_store (.data d .nbWriteAll)).2 <|
    (wp_store (.data d .nbTransfer)).2 ⟨rfl, ((h.set rfl _).set rfl _).set rfl _, ?_⟩
  rw [sum_set_ne (by simp), sum_set_ne (by simp), sum_set_ne (by simp)]

/-- The stop flag is no balance. -/
theorem Fixed.wp_halt (h : L.Fixed objs m) :
    (halt (L.base .stop)).wp (flatMemory g)
      (fun r m' => r = .none ∧ L.Fixed objs m' ∧ L.sum m' = L.sum m) m := by
  rw [halt, show L.base .stop = L.addr .stop from (BitVec.add_zero _).symm]
  exact (wp_store .stop).2 ⟨rfl, h.set rfl _, sum_set_ne (by simp) _⟩

end Layout

/-! ## The test as a program -/

/-- The calls of blocks. The random numbers of `transfer` have been drawn before. -/
inductive Block (L : Layout g) where
  | params (d : Fin L.nbThreads)
  | transfer (srcT dstT : Fin nbNodes) (src dst : Fin L.perNode) (amount : Num .u32)
  | total
  | reset
  | poll (d : Fin L.nbThreads)
  | report (d : Fin L.nbThreads) (nbReadAll nbWriteAll nbTransfer : Num .u64)
  | halt

namespace Layout

variable (L : Layout g)

def block : Block L → Locals → Code g Result
  | .params d, f => params (L.threadData d) f
  | .transfer srcT dstT src dst amount, f => transfer (L.base .bank) srcT dstT src dst amount f
  | .total, f => total (L.base .bank) (L.perNode * nbNodes) f
  | .reset, _ => reset (L.base .bank) (L.perNode * nbNodes)
  | .poll d, f => poll (L.threadData d) f
  | .report d nbReadAll nbWriteAll nbTransfer, _ =>
    report (L.threadData d) nbReadAll nbWriteAll nbTransfer
  | .halt, _ => halt (L.base .stop)

/-- The locals `f` with those that the block assigns as in `j`. -/
def assigned : Block L → Locals → Locals → Locals
  | .params _, f, j => { f with
      bank := j.bank, id := j.id, tnum := j.tnum, bankSize := j.bankSize
      globalSeed := j.globalSeed }
  | .transfer _ _ _ _ _, f, j => { f with i := j.i }
  | .total, f, j => { f with total := j.total }
  | .poll _, f, j => { f with pstop := j.pstop, stop := j.stop }
  | .reset, f, _ | .report _ _ _ _, f, _ | .halt, f, _ => f

def program : Blocks (Block L × Locals) (Code g Result) (Op g) (List Byte) Result where
  start b := L.block b.1 b.2
  next := Prog.next
  again b j := (b.1, L.assigned b.1 b.2 j.2)

/-- Each block assigns its locals before it reads them. -/
theorem program_restartable : L.program.Restartable := by
  rintro ⟨b, f⟩ ⟨b', j⟩
  cases b <;> rfl

/-- What `main` has written before it creates the threads. -/
structure Ready (objs : Flat) : Prop where
  accounts : ∀ j, L.get objs (.accounts j) = L.base (.accounts j)
  balance : ∀ j i, L.get objs (.balance j i) = 0
  bank : ∀ d, L.get objs (.data d .bank) = L.base .bank
  bankSize : ∀ d, L.get objs (.data d .bankSize) = BitVec.ofNat 32 (L.perNode * nbNodes)
  stop : ∀ d, L.get objs (.data d .stop) = L.base .stop

/-- What a block ends with. -/
def Ends (objs : Flat) : Block L → Result → Prop
  | .params d, r => r = .params (L.base .bank) (L.get objs (.data d .id))
      (L.get objs (.data d .tnum)) (BitVec.ofNat 32 (L.perNode * nbNodes))
      (L.get objs (.data d .seed))
  | .total, r => r = .int 0
  | .poll _, r => ∃ stop, r = .int stop
  | _, r => r = .none

variable {L}

/-- Every block runs to its end and keeps the sum at 0. -/
theorem Ready.wp_block {objs m : Flat} (h0 : L.Ready objs) (b : Block L) (f : Locals)
    (h : L.Fixed objs m) (hsum : L.sum m = 0) : (L.block b f).wp (flatMemory g)
      (fun r m' => (L.Fixed objs m' ∧ L.sum m' = 0) ∧ L.Ends objs b r) m := by
  cases b with
  | params d =>
    refine Prog.wp_mono (h.wp_params d f) ?_
    rintro r m' ⟨rfl, rfl⟩
    exact ⟨⟨h, hsum⟩, by rw [Ends, h0.bank, h0.bankSize]⟩
  | transfer srcT dstT src dst amount =>
    refine Prog.wp_mono (h.wp_transfer srcT dstT src dst amount f) ?_
    rintro r m' ⟨rfl, h, hs⟩
    exact ⟨⟨h, hs.trans hsum⟩, rfl⟩
  | total =>
    refine Prog.wp_mono (h.wp_total f) ?_
    rintro r m' ⟨rfl, rfl⟩
    exact ⟨⟨h, hsum⟩, congrArg Result.int hsum⟩
  | reset =>
    refine Prog.wp_mono h.wp_reset ?_
    rintro r m' ⟨rfl, h, hs⟩
    exact ⟨⟨h, hs⟩, rfl⟩
  | poll d =>
    refine Prog.wp_mono (h.wp_poll d (h0.stop d) f) ?_
    rintro r m' ⟨rfl, rfl⟩
    exact ⟨⟨h, hsum⟩, _, rfl⟩
  | report d nbReadAll nbWriteAll nbTransfer =>
    refine Prog.wp_mono (h.wp_report d nbReadAll nbWriteAll nbTransfer) ?_
    rintro r m' ⟨rfl, h, hs⟩
    exact ⟨⟨h, hs.trans hsum⟩, rfl⟩
  | halt =>
    refine Prog.wp_mono h.wp_halt ?_
    rintro r m' ⟨rfl, h, hs⟩
    exact ⟨⟨h, hs.trans hsum⟩, rfl⟩

theorem Ready.fixed {objs : Flat} (h0 : L.Ready objs) : L.Fixed objs objs :=
  ⟨fun _ _ => rfl, h0.accounts⟩

/-- All balances are 0 to begin with. -/
theorem Ready.sum {objs : Flat} (h0 : L.Ready objs) : L.sum objs = 0 :=
  Finset.sum_eq_zero fun x _ => h0.balance x.2 x.1

end Layout

/-- **The bank test finds what it expects**: whatever the threads of the test do, from any lock
words and clocks that `main` has left, every call of `total` that has returned has returned 0, and
the balances add up to 0 whenever no thread is inside `commit`. -/
theorem reach_total {cfg : Config} (hv : cfg.build.variant = .variant1) {L : Layout cfg.segs}
    {objs : Flat} {locks : Segments.Loc → Word} {clock : ℕ → Word} (h0 : L.Ready objs)
    (hq : Quiet locks clock)
    {ρ : Runtime cfg.segs (Block L × Locals) (Code cfg.segs Result) Result}
    (h : (Runtime.lts cfg L.program objs locks clock).Reach
      (Runtime.Lift cfg L.program (Serializable cfg)) ρ) :
    (∀ d ∈ ρ.finished, L.Ends objs d.block.1 d.result) ∧
      ((∀ t, (ρ.sys.th t).pc.committing = false) → L.sum ρ.sys.objs = 0) := by
  have hblock : ∀ b m r m', L.Fixed objs m ∧ L.sum m = 0 →
      Exec L.program.next (flatMemory cfg.segs) (L.program.start b) m r m' →
      (L.Fixed objs m' ∧ L.sum m' = 0) ∧ L.Ends objs b.1 r := by
    intro b m r m' hI hx
    have hends := Prog.wp_exec (h0.wp_block b.1 b.2 hI.1 hI.2) hx
    exact hends
  obtain ⟨hres, hsum⟩ := Runtime.reach_preserves hv L.program_restartable hq
    (Q := fun b r => L.Ends objs b.1 r) ⟨h0.fixed, h0.sum⟩ hblock h
  exact ⟨hres, fun hidle => (hsum hidle).2⟩

/-! ## A total during a transfer -/

instance : Fintype Area :=
  .ofList ([.data, .stop, .bank] ++ (List.finRange nbNodes).map .accounts) fun a => by
    cases a <;> simp

/-- Three nodes. -/
abbrev smallConfig : Config := small ⟨.variant1, false⟩

/-- One account for each `j`, on node `j % 3`; two threads. -/
def smallLayout : Layout smallConfig.segs where
  perNode := 1
  nbThreads := 2
  base
    | .data => 0x200040
    | .stop => 0x200180
    | .bank => 0x2001C0
    | .accounts j => BitVec.ofNat 64 (2 ^ 48 * (j % 3) + 0x200400 + 8 * j)
  aligned := by decide +kernel
  inHeap := by decide +kernel
  fits := by decide +kernel
  apart := by decide +kernel

/-- The memory as `main` has set it up. -/
def smallObjs : Flat :=
  let L := smallLayout
  let m := (List.finRange nbNodes).foldl
    (fun m j => L.set m (.accounts j) (L.base (.accounts j))) fun _ _ => 0
  (List.finRange L.nbThreads).foldl (fun m d =>
    L.set (L.set (L.set m (.data d .bank) (L.base .bank)) (.data d .stop) (L.base .stop))
      (.data d .bankSize) (BitVec.ofNat 32 (L.perNode * nbNodes))) m

/-- The small memory is one that `main` has set up. -/
theorem small_ready : smallLayout.Ready smallObjs where
  accounts := by decide +kernel
  balance := by decide +kernel
  bank := by decide +kernel
  bankSize := by decide +kernel
  stop := by decide +kernel

/-- The locals of a thread, all alike. -/
def smallLocals (x : ℕ) : Locals :=
  ⟨BitVec.ofNat 32 x, BitVec.ofNat 32 x, BitVec.ofNat 64 x, BitVec.ofNat 32 x, BitVec.ofNat 32 x,
    BitVec.ofNat 32 x, BitVec.ofNat 32 x, BitVec.ofNat 64 x, BitVec.ofNat 32 x⟩

/-- Thread 0 transfers 5 from the first account to the second, thread 1 adds up all. -/
def smallBlock (x : ℕ) (t : Tid) : Block smallLayout × Locals :=
  (if t = 0 then
    .transfer ⟨0, by decide⟩ ⟨1, by decide⟩ ⟨0, Nat.one_pos⟩ ⟨0, Nat.one_pos⟩ 5
  else .total, smallLocals x)

/-- Versions as `main` may have left them. -/
def smallLocks : Segments.Loc → Word := fun _ => newVersion 0 25

def smallClock (n : ℕ) : Word := if n = 0 then 25 else 0

/-- No lock is held, and there is room for more versions. -/
theorem small_quiet : Quiet smallLocks smallClock where
  unlocked _ := by rw [smallLocks]; decide
  small _ := by rw [smallLocks]; decide
  clock n := by
    rw [smallClock]
    split <;> decide

/-- The transfer commits while thread 1 adds up, so that thread 1 has to start over. -/
def smallTurns : List Tid :=
  List.flatten [List.replicate 30 1, List.replicate 63 0, List.replicate 370 1]

/-- The finished blocks, and which of them has returned 0. -/
def smallObs {g : Segments} {A B : Type*} (ρ : Runtime g A B Result) : List ((Tid × ℕ) × Bool) :=
  ρ.finished.map fun d => (d.tx, d.result matches .int 0)

theorem small_reach : ∃ ρ,
    (Runtime.lts smallConfig smallLayout.program smallObjs smallLocks smallClock).Reach
      (Runtime.Lift _ smallLayout.program (Serializable _)) ρ ∧
    smallObs ρ = [((0, 1), false), ((1, 2), true)] := by
  have hrun : ((Runtime.lts smallConfig smallLayout.program smallObjs smallLocks smallClock).runBy
      (Runtime.Lift _ smallLayout.program (Serializable _))
      (Runtime.turn _ smallLayout.program (smallBlock 0) (smallBlock 7))
      (Runtime.start _ _ _ _ smallObjs smallLocks smallClock) smallTurns).map smallObs =
      some [((0, 1), false), ((1, 2), true)] := by
    decide +kernel
  exact Lts.Reach.of_runBy rfl hrun

/-- The transfer commits, and then `total` in its second run, which returns 0. -/
theorem small_total : ∃ ρ : Runtime smallConfig.segs (Block smallLayout × Locals)
      (Code smallConfig.segs Result) Result,
    smallObs ρ = [((0, 1), false), ((1, 2), true)] ∧
      ∀ d ∈ ρ.finished, smallLayout.Ends smallObjs d.block.1 d.result := by
  obtain ⟨ρ, h, ho⟩ := small_reach
  exact ⟨ρ, ho, (reach_total rfl small_ready small_quiet h).1⟩

end DstmP1.Bank
