import Mathlib.Data.List.FinRange
import Mathlib.Data.List.ProdSigma

/-!
# Atomic blocks

A program of atomic blocks (`Program`) says where each block starts and, wherever it stands, what
it does next (`Next`): it calls the memory and goes on with the value, or it is done. `Exec` runs a
block alone from its beginning to its end and `Runs` runs blocks one after the other. A block that
is run by others is seen as the calls it has made with the values they have returned: `Does` says
that these are calls of the block, and `Memory.Gives` that a memory would have returned the same.
If both hold of a block up to its end, it has run alone (`Does.exec`).

A block that is abandoned and begun again finds its local variables as it has left them (`Blocks`);
it starts as before if it reads no local that it assigns before it has assigned it
(`Blocks.Restartable`).

What every block preserves is preserved by every run (`Runs.preserves`). Blocks without unbounded
loops (`Prog`) have weakest preconditions (`Prog.wp`), which agree with `Exec` (`Prog.wp_iff`).
-/

namespace DstmP1.Atomic

variable {A B O V R M : Type*}

/-- What a block does next. -/
inductive Next (B O V R : Type*) where
  /-- It calls `op` and goes on with the value returned. -/
  | call (op : O) (k : V → B)
  | done (r : R)
  /-- Nothing that has a meaning. -/
  | fault

/-- The blocks of a program, by their names and arguments: where each starts, and what is done
there and further on. -/
structure Program (A B O V R : Type*) where
  start : A → B
  next : B → Next B O V R

/-- Blocks whose local variables are not given back: `A` are blocks with the values of their locals,
and `again b j` is the block `b` begun again, where the locals that it assigns are as in `j` and
the others as in `b`. -/
structure Blocks (A B O V R : Type*) extends Program A B O V R where
  again : A → A → A

/-- No block reads a local that it assigns before it has assigned it. -/
def Blocks.Restartable (code : Blocks A B O V R) : Prop :=
  ∀ b j, code.start (code.again b j) = code.start b

/-- What calls return and what they do. -/
structure Memory (M O V : Type*) where
  result : M → O → V
  apply : M → O → M

/-- The calls `l` with their values, as the memory returns them. -/
inductive Memory.Gives (mem : Memory M O V) : M → List (O × V) → M → Prop where
  | nil {m : M} : Gives mem m [] m
  | cons {m m' : M} {op : O} {l : List (O × V)} : Gives mem (mem.apply m op) l m' →
      Gives mem m ((op, mem.result m op) :: l) m'

/-- The memory after the calls `l`. -/
def Memory.after (mem : Memory M O V) (m : M) (l : List O) : M := l.foldl mem.apply m

/-- What the calls return. -/
def Memory.returns (mem : Memory M O V) (m : M) : List O → List V
  | [] => []
  | op :: l => mem.result m op :: returns mem (mem.apply m op) l

section
variable (code : B → Next B O V R) (mem : Memory M O V)

/-- The block at `b` makes the calls `l`, which return their values, and is then at `c`. -/
inductive Does : B → List (O × V) → B → Prop where
  | nil {b : B} : Does b [] b
  | cons {b c : B} {op : O} {k : V → B} {v : V} {l : List (O × V)} : code b = .call op k →
      Does (k v) l c → Does b ((op, v) :: l) c

/-- The block at `b` runs alone to its end. -/
inductive Exec : B → M → R → M → Prop where
  | done {b : B} {m : M} {r : R} : code b = .done r → Exec b m r m
  | call {b : B} {m m' : M} {r : R} {op : O} {k : V → B} : code b = .call op k →
      Exec (k (mem.result m op)) (mem.apply m op) r m' → Exec b m r m'

end

/-- Blocks run one after the other, with the results they end with. -/
inductive Runs (prog : Program A B O V R) (mem : Memory M O V) : M → List (A × R) → M → Prop where
  | nil {m : M} : Runs prog mem m [] m
  | cons {m m₁ m' : M} {a : A} {r : R} {l : List (A × R)} :
      Exec prog.next mem (prog.start a) m r m₁ → Runs prog mem m₁ l m' →
      Runs prog mem m ((a, r) :: l) m'

section
variable {code : B → Next B O V R} {mem : Memory M O V} {b c : B} {m m' : M} {r : R}
  {l l' : List (O × V)}

/-! ## Blocks seen as their calls -/

/-- One more call. -/
theorem Does.concat (h : Does code b l c) {op : O} {k : V → B} (hc : code c = .call op k) (v : V) :
    Does code b (l ++ [(op, v)]) (k v) := by
  induction h with
  | nil => exact .cons hc .nil
  | cons hb _ ih => exact .cons hb (ih hc)

/-- A block whose calls have returned what the memory returns has run alone. -/
theorem Does.exec (h : Does code b l c) (hc : code c = .done r) (hm : mem.Gives m l m') :
    Exec code mem b m r m' := by
  induction h generalizing m with
  | nil =>
    cases hm
    exact .done hc
  | cons hb _ ih =>
    cases hm with
    | cons hm => exact .call hb (ih hc hm)

/-- A block that runs alone has one end. -/
theorem Exec.unique {m₁ : M} {r₁ : R} (h : Exec code mem b m r m') (h₁ : Exec code mem b m r₁ m₁) :
    r = r₁ ∧ m' = m₁ := by
  induction h with
  | done hb =>
    cases h₁ with
    | done hb₁ =>
      rw [hb] at hb₁
      cases hb₁
      exact ⟨rfl, rfl⟩
    | call hb₁ =>
      rw [hb] at hb₁
      cases hb₁
  | call hb _ ih =>
    cases h₁ with
    | done hb₁ =>
      rw [hb] at hb₁
      cases hb₁
    | call hb₁ h₁ =>
      rw [hb] at hb₁
      cases hb₁
      exact ih h₁

/-! ## Memories compared -/

@[simp] theorem Memory.after_cons (mem : Memory M O V) (m : M) (op : O) (c : List O) :
    mem.after m (op :: c) = mem.after (mem.apply m op) c := rfl

theorem Memory.after_concat (mem : Memory M O V) (m : M) (c : List O) (op : O) :
    mem.after m (c ++ [op]) = mem.apply (mem.after m c) op := List.foldl_concat ..

/-- One more call returns. -/
theorem Memory.Gives.concat (h : mem.Gives m l m') (op : O) :
    mem.Gives m (l ++ [(op, mem.result m' op)]) (mem.apply m' op) := by
  induction h with
  | nil => exact .cons .nil
  | cons _ ih => exact .cons ih

/-- The memory that the calls leave. -/
theorem Memory.Gives.eq_after (h : mem.Gives m l m') : m' = mem.after m (l.map Prod.fst) := by
  induction h with
  | nil => rfl
  | cons _ ih => exact ih

/-- The values that the calls have returned. -/
theorem Memory.Gives.eq_returns (h : mem.Gives m l m') :
    l.map Prod.snd = mem.returns m (l.map Prod.fst) := by
  induction h with
  | nil => rfl
  | cons _ ih => exact congrArg _ ih

/-- Two memories return the same to the same calls if and only if they do so call by call. -/
theorem Memory.Gives.eq_iff {M₁ : Type*} {mem₁ : Memory M₁ O V} {m₁ m₁' : M₁}
    (h : mem.Gives m l m') (h₁ : mem₁.Gives m₁ l' m₁') (hc : l.map Prod.fst = l'.map Prod.fst) :
    l = l' ↔ ∀ c op d, l.map Prod.fst = c ++ op :: d →
      mem.result (mem.after m c) op = mem₁.result (mem₁.after m₁ c) op := by
  induction h generalizing m₁ l' with
  | nil =>
    cases h₁ with
    | nil => exact ⟨fun _ c op d h => by simp at h, fun _ => rfl⟩
    | cons => cases hc
  | @cons m m' op l h ih =>
    cases h₁ with
    | nil => cases hc
    | @cons _ _ op' l' h₁ =>
      obtain ⟨hop, htl⟩ := List.cons.inj hc
      obtain rfl : op = op' := hop
      have ih := ih h₁ htl
      rw [List.map_cons]
      constructor
      · intro he c op₁ d hs
        obtain ⟨hr, htl⟩ := List.cons.inj he
        cases c with
        | nil =>
          obtain ⟨rfl, -⟩ := List.cons.inj hs
          exact congrArg Prod.snd hr
        | cons op₂ c =>
          obtain ⟨hop, hrest⟩ := List.cons.inj hs
          rw [← hop]
          exact ih.1 htl c op₁ d hrest
      · intro hall
        have hr : mem.result m op = mem₁.result m₁ op := hall [] op _ rfl
        rw [hr, ih.2 fun c op₁ d hs => hall (op :: c) op₁ d (congrArg (List.cons op) hs)]

/-! ## Runs of blocks -/

variable {prog : Program A B O V R}

/-- What every block keeps holds before and after each block of a run, so each block ends with a
result that it gives where this holds. -/
theorem Runs.preserves {I : M → Prop} {Q : A → R → Prop} {l : List (A × R)}
    (h : Runs prog mem m l m') (hI : I m) (hQ : ∀ a m r m', I m →
      Exec prog.next mem (prog.start a) m r m' → I m' ∧ Q a r) :
    I m' ∧ ∀ x ∈ l, Q x.1 x.2 := by
  induction h with
  | nil => exact ⟨hI, fun x hx => absurd hx List.not_mem_nil⟩
  | cons hx _ ih =>
    obtain ⟨hI, hq⟩ := hQ _ _ _ _ hI hx
    obtain ⟨hI, hall⟩ := ih hI
    refine ⟨hI, fun x hx => ?_⟩
    rcases List.mem_cons.1 hx with rfl | hx
    · exact hq
    · exact hall x hx

end

/-! ## Structured blocks -/

/-- The code of a block that makes finitely many calls whatever these return. -/
inductive Prog (O V R : Type*) where
  | call (op : O) (k : V → Prog O V R)
  | done (r : R)
  | fault

namespace Prog

variable {α β : Type*}

/-- What a program does next. -/
def next : Prog O V R → Next (Prog O V R) O V R
  | call op k => .call op k
  | done r => .done r
  | fault => .fault

/-- One program after the other. -/
def bind : Prog O V α → (α → Prog O V β) → Prog O V β
  | call op k, f => .call op fun v => (k v).bind f
  | done a, f => f a
  | fault, _ => .fault

/-- A loop over a list, with the variable `s` that its body changes. -/
def loop (f : β → α → Prog O V β) (s : β) : List α → Prog O V β
  | [] => .done s
  | a :: l => (f s a).bind fun s => loop f s l

/-- Programs in a row can be bracketed either way. -/
theorem bind_assoc {γ : Type*} (p : Prog O V α) (f : α → Prog O V β) (h : β → Prog O V γ) :
    (p.bind f).bind h = p.bind fun a => (f a).bind h := by
  induction p with
  | call op k ih => exact congrArg (call op) (funext ih)
  | done | fault => rfl

/-- A loop over two lists is one loop after the other. -/
theorem loop_append (f : β → α → Prog O V β) (s : β) (l l' : List α) :
    loop f s (l ++ l') = (loop f s l).bind fun s => loop f s l' := by
  induction l generalizing s with
  | nil => rfl
  | cons a l ih => rw [List.cons_append, loop, loop, bind_assoc, funext ih]

/-- A loop over the images of a list. -/
theorem loop_map {γ : Type*} (f : β → α → Prog O V β) (h : γ → α) (s : β) (l : List γ) :
    loop f s (l.map h) = loop (fun s a => f s (h a)) s l := by
  induction l generalizing s with
  | nil => rfl
  | cons a l ih => rw [List.map_cons, loop, loop, funext ih]

/-- Two nested loops are one loop over pairs. -/
theorem loop_loop {γ : Type*} (f : β → α → γ → Prog O V β) (s : β) (l : List α) (l' : List γ) :
    loop (fun s a => loop (fun s b => f s a b) s l') s l =
      loop (fun s x => f s x.1 x.2) s (l ×ˢ l') := by
  induction l generalizing s with
  | nil => rfl
  | cons a l ih =>
    rw [loop, List.product_cons, loop_append, loop_map, funext ih]

/-- Two nested `for` loops. -/
theorem loop_range (f : β → ℕ → ℕ → Prog O V β) (s : β) (n k : ℕ) :
    loop (fun s i => loop (fun s j => f s i j) s (List.range k)) s (List.range n) =
      loop (fun s (x : Fin n × Fin k) => f s x.1 x.2) s (List.finRange n ×ˢ List.finRange k) := by
  simp only [← List.map_coe_finRange_eq_range, loop_map]
  exact loop_loop (fun s (i : Fin n) (j : Fin k) => f s i j) s _ _

/-- What has to hold of the memory before, so that the block ends without a fault and `Q` holds of
the result and the memory after. -/
def wp (mem : Memory M O V) : Prog O V R → (R → M → Prop) → M → Prop
  | call op k, Q => fun m => wp mem (k (mem.result m op)) Q (mem.apply m op)
  | done r, Q => Q r
  | fault, _ => fun _ => False

section
variable {mem : Memory M O V} {m : M}

@[simp] theorem wp_call {op : O} {k : V → Prog O V R} {Q : R → M → Prop} :
    (call op k).wp mem Q m ↔ (k (mem.result m op)).wp mem Q (mem.apply m op) := Iff.rfl

@[simp] theorem wp_done {r : R} {Q : R → M → Prop} : (done r).wp mem Q m ↔ Q r m := Iff.rfl

@[simp] theorem wp_fault {Q : R → M → Prop} : ¬(fault : Prog O V R).wp mem Q m := id

/-- The rule of sequence. -/
@[simp] theorem wp_bind {p : Prog O V α} {f : α → Prog O V β} {Q : β → M → Prop} :
    (p.bind f).wp mem Q m ↔ p.wp mem (fun a => (f a).wp mem Q) m := by
  induction p generalizing m with
  | call op k ih => exact ih _
  | done | fault => exact Iff.rfl

/-- The rule of consequence. -/
theorem wp_mono {p : Prog O V R} {Q Q' : R → M → Prop} (h : p.wp mem Q m)
    (hQ : ∀ r m, Q r m → Q' r m) : p.wp mem Q' m := by
  induction p generalizing m with
  | call op k ih => exact ih _ h
  | done r => exact hQ r m h
  | fault => exact h

/-- A loop keeps what its body keeps; the invariant speaks of the elements passed. -/
theorem wp_loop {f : β → α → Prog O V β} {I : List α → β → M → Prop} {l : List α} {s : β}
    (hf : ∀ done a rest, l = done ++ a :: rest → ∀ s m, I done s m →
      (f s a).wp mem (I (done ++ [a])) m) (h : I [] s m) : (loop f s l).wp mem (I l) m := by
  have hloop : ∀ rest done s m, l = done ++ rest → I done s m →
      (loop f s rest).wp mem (I l) m := by
    intro rest
    induction rest with
    | nil =>
      intro done s m hl h
      rw [List.append_nil] at hl
      exact hl ▸ h
    | cons a rest ih =>
      intro done s m hl h
      refine wp_bind.2 (wp_mono (hf done a rest hl s m h) fun s m h => ?_)
      exact ih (done ++ [a]) s m (by rw [hl, List.append_assoc, List.singleton_append]) h
  exact hloop l [] s m rfl h

/-- The weakest precondition is about the run of the program alone. -/
theorem wp_iff {p : Prog O V R} {Q : R → M → Prop} :
    p.wp mem Q m ↔ ∃ r m', Exec next mem p m r m' ∧ Q r m' := by
  induction p generalizing m with
  | call op k ih =>
    rw [wp_call, ih]
    refine ⟨fun ⟨r, m', hx, hQ⟩ => ⟨r, m', .call rfl hx, hQ⟩, fun ⟨r, m', hx, hQ⟩ => ?_⟩
    cases hx with
    | done hd => cases hd
    | call hc hx =>
      cases hc
      exact ⟨r, m', hx, hQ⟩
  | done r =>
    refine ⟨fun h => ⟨r, m, .done rfl, h⟩, fun ⟨r', m', hx, hQ⟩ => ?_⟩
    cases hx with
    | done hd =>
      cases hd
      exact hQ
    | call hc => cases hc
  | fault =>
    refine ⟨False.elim, fun ⟨r, m', hx, _⟩ => ?_⟩
    cases hx with
    | done hd => cases hd
    | call hc => cases hc

/-- Every run of the program ends as the weakest precondition says. -/
theorem wp_exec {p : Prog O V R} {Q : R → M → Prop} {r : R} {m' : M} (h : p.wp mem Q m)
    (hx : Exec next mem p m r m') : Q r m' := by
  obtain ⟨r₁, m₁, hx₁, hQ⟩ := wp_iff.1 h
  obtain ⟨rfl, rfl⟩ := hx₁.unique hx
  exact hQ

end

end Prog

end DstmP1.Atomic
