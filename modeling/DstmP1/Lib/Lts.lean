import Mathlib.Data.Option.Basic
import Mathlib.Logic.Relation
import Mathlib.Order.WellFounded

/-!
# Runs of a transition system

A system with an executable step, the states its runs reach when every step of the run satisfies
a condition `ok`, and the induction rules for invariants of these states. `Trace` keeps the steps
of a run, for what is said about its past. A condition that holds
of more steps reaches more states (`Reach.mono`), and an invariant may be proved with the help of
facts already known of the reachable states (`Reach.induct`).
-/

namespace DstmP1

/-- Initial states and an executable step, labelled with actions. -/
structure Lts (S A : Type*) where
  init : S → Prop
  step : S → A → Option S

namespace Lts

variable {S A : Type*} (L : Lts S A)

/-- The states reached by runs whose steps all satisfy `ok`. -/
inductive Reach (ok : S → A → S → Prop) : S → Prop where
  | init {s : S} : L.init s → Reach ok s
  | step {s s' : S} {a : A} : Reach ok s → L.step s a = some s' → ok s a s' → Reach ok s'

/-- The state after the actions `as`, if each of them is possible. -/
def run (s : S) : List A → Option S
  | [] => some s
  | a :: as => (L.step s a).bind fun s' => run s' as

/-- The same when every step has to satisfy `ok`. -/
def runIf (ok : S → A → S → Prop) [∀ s a s', Decidable (ok s a s')] (s : S) :
    List A → Option S
  | [] => some s
  | a :: as => (L.step s a).bind fun s' => if ok s a s' then runIf ok s' as else none

/-- The run along a schedule: at each turn the action is the one `turn` says. -/
def runBy {B : Type*} (ok : S → A → S → Prop) [∀ s a s', Decidable (ok s a s')]
    (turn : S → B → A) (s : S) : List B → Option S
  | [] => some s
  | b :: l => (L.step s (turn s b)).bind fun s' =>
    if ok s (turn s b) s' then runBy ok turn s' l else none

/-- The run with the steps taken, the last one first, after those of `h`. -/
def runHist (h : List (S × A)) (s : S) : List A → Option (List (S × A) × S)
  | [] => some (h, s)
  | a :: as => (L.step s a).bind fun s' => runHist ((s, a) :: h) s' as

variable {L} {ok ok' : S → A → S → Prop} {I : S → Prop}

/-- The runs with all their steps, the last one first, and the states they reach. -/
inductive Trace (L : Lts S A) : List (S × A) → S → Prop where
  | init {s : S} : L.init s → Trace L [] s
  | step {h : List (S × A)} {s s' : S} {a : A} : Trace L h s → L.step s a = some s' →
      Trace L ((s, a) :: h) s'

/-- A run reaches its state. -/
theorem Trace.reach {h : List (S × A)} {s : S} (ht : L.Trace h s) :
    L.Reach (fun _ _ _ => True) s := by
  induction ht with
  | init hi => exact .init hi
  | step _ hs ih => exact ih.step hs trivial

/-- A run goes on. -/
theorem Trace.runHist {h h' : List (S × A)} {s s' : S} (ht : L.Trace h s) {as : List A}
    (hr : L.runHist h s as = some (h', s')) : L.Trace h' s' := by
  induction as generalizing h s with
  | nil =>
    cases hr
    exact ht
  | cons a as ih =>
    obtain ⟨s₁, ha, hr⟩ := Option.bind_eq_some_iff.1 hr
    exact ih (ht.step ha) hr

/-- A run of which something is observed. -/
theorem Trace.of_runHist {s : S} (hi : L.init s) {as : List A} {O : Type*}
    {obs : List (S × A) × S → O} {o : O} (hr : (L.runHist [] s as).map obs = some o) :
    ∃ h s', L.Trace h s' ∧ obs (h, s') = o := by
  obtain ⟨⟨h, s'⟩, hs, ho⟩ := Option.map_eq_some_iff.1 hr
  exact ⟨h, s', (Trace.init hi).runHist hs, ho⟩

/-- A run whose steps all satisfy `good` is a run of `L'`: `f` reads its states and `p` its steps,
where a step that `p` says nothing of does not move. -/
theorem Trace.project {S' A' : Type*} {L' : Lts S' A'} {f : S → S'} {p : S × A → Option A'}
    {good : S × A → Prop} (hinit : ∀ s, L.init s → L'.init (f s))
    (hstep : ∀ s a s', good (s, a) → L.step s a = some s' →
      (p (s, a)).elim (f s' = f s) fun a' => L'.step (f s) a' = some (f s'))
    {h : List (S × A)} {s : S} (ht : L.Trace h s) (hg : ∀ x ∈ h, good x) :
    L'.Trace (h.filterMap fun x => (p x).map fun a' => (f x.1, a')) (f s) := by
  induction ht with
  | init hi => exact .init (hinit _ hi)
  | @step h s s' a _ hs ih =>
    have ih := ih fun x hx => hg x (List.mem_cons_of_mem _ hx)
    have hs := hstep s a s' (hg _ List.mem_cons_self) hs
    cases hp : p (s, a) with
    | none =>
      rw [hp, Option.elim_none] at hs
      rwa [List.filterMap_cons_none (by rw [hp, Option.map_none]), hs]
    | some a' =>
      rw [hp, Option.elim_some] at hs
      rw [List.filterMap_cons_some (by rw [hp, Option.map_some])]
      exact ih.step hs

/-- Induction over runs; the step may use that its state is reachable. -/
theorem Reach.induct {s : S} (h : L.Reach ok s) (h0 : ∀ s, L.init s → I s)
    (hs : ∀ s a s', L.Reach ok s → I s → L.step s a = some s' → ok s a s' → I s') : I s := by
  induction h with
  | init hi => exact h0 _ hi
  | step hr ha hok ih => exact hs _ _ _ hr ih ha hok

/-- A weaker condition reaches more states. -/
theorem Reach.mono {s : S} (h : L.Reach ok s) (hok : ∀ s a s', ok s a s' → ok' s a s') :
    L.Reach ok' s := by
  induction h with
  | init hi => exact .init hi
  | step _ ha h ih => exact ih.step ha (hok _ _ _ h)

/-- A run from a reachable state, when every step is allowed. -/
theorem Reach.run {s s' : S} (h : L.Reach (fun _ _ _ => True) s) {as : List A}
    (hr : L.run s as = some s') : L.Reach (fun _ _ _ => True) s' := by
  induction as generalizing s with
  | nil => cases hr; exact h
  | cons a as ih =>
    obtain ⟨s₁, ha, hr⟩ := Option.bind_eq_some_iff.1 hr
    exact ih (h.step ha trivial) hr

/-- A run from a reachable state, when the steps allowed can be decided. -/
theorem Reach.runIf [∀ s a s', Decidable (ok s a s')] {s s' : S} (h : L.Reach ok s)
    {as : List A} (hr : L.runIf ok s as = some s') : L.Reach ok s' := by
  induction as generalizing s with
  | nil => cases hr; exact h
  | cons a as ih =>
    obtain ⟨s₁, ha, hr⟩ := Option.bind_eq_some_iff.1 hr
    split at hr
    · exact ih (h.step ha ‹_›) hr
    · cases hr

/-- A run of which something is observed reaches a state of which it holds. -/
theorem Reach.of_run {s : S} (h : L.init s) {as : List A} {O : Type*} {obs : S → O} {o : O}
    (hr : (L.run s as).map obs = some o) :
    ∃ s', L.Reach (fun _ _ _ => True) s' ∧ obs s' = o := by
  obtain ⟨s', hs, ho⟩ := Option.map_eq_some_iff.1 hr
  exact ⟨s', (Reach.init h).run hs, ho⟩

theorem Reach.of_runIf [∀ s a s', Decidable (ok s a s')] {s : S} (h : L.init s) {as : List A}
    {O : Type*} {obs : S → O} {o : O} (hr : (L.runIf ok s as).map obs = some o) :
    ∃ s', L.Reach ok s' ∧ obs s' = o := by
  obtain ⟨s', hs, ho⟩ := Option.map_eq_some_iff.1 hr
  exact ⟨s', (Reach.init h).runIf hs, ho⟩

/-- A run along a schedule of which something is observed. -/
theorem Reach.of_runBy [∀ s a s', Decidable (ok s a s')] {B : Type*} {turn : S → B → A} {s : S}
    (h : L.init s) {l : List B} {O : Type*} {obs : S → O} {o : O}
    (hr : (L.runBy ok turn s l).map obs = some o) : ∃ s', L.Reach ok s' ∧ obs s' = o := by
  have hrun : ∀ l s, L.Reach ok s → ∀ s', L.runBy ok turn s l = some s' → L.Reach ok s' := by
    intro l
    induction l with
    | nil =>
      rintro s hs s' ⟨⟩
      exact hs
    | cons b l ih =>
      intro s hs s' hr
      obtain ⟨s₁, ha, hr⟩ := Option.bind_eq_some_iff.1 hr
      split at hr
      · exact ih s₁ (hs.step ha ‹_›) s' hr
      · cases hr
  obtain ⟨s', hs, ho⟩ := Option.map_eq_some_iff.1 hr
  exact ⟨s', hrun l s (.init h) s' hs, ho⟩

end Lts

/-! ## Runs that end -/

section
variable {S M : Type*} {R : S → S → Prop} {P : S → Prop}

/-- Steps that keep `P` and lower a measure do not go on for ever. -/
theorem acc_of_measure [Preorder M] [WellFoundedLT M] (f : S → M)
    (hP : ∀ s s', P s → R s s' → P s') (hf : ∀ s s', P s → R s s' → f s' < f s) {s : S}
    (h : P s) : Acc (fun s' s => R s s') s := by
  induction hn : f s using WellFoundedLT.induction generalizing s with
  | ind n ih =>
    subst hn
    exact ⟨s, fun s' hs => ih _ (hf s s' h hs) (hP s s' h hs) rfl⟩

/-- Where steps do not go on for ever, some run comes to its end. -/
theorem exists_final {s : S} (h : Acc (fun s' s => R s s') s) :
    ∃ s', Relation.ReflTransGen R s s' ∧ ∀ s'', ¬ R s' s'' := by
  induction h with
  | intro s _ ih =>
    rcases Classical.em (∃ s', R s s') with ⟨s₁, hs⟩ | hend
    · obtain ⟨s', hrun, hfinal⟩ := ih s₁ hs
      exact ⟨s', .head hs hrun, hfinal⟩
    · exact ⟨s, .refl, fun s'' hs => hend ⟨s'', hs⟩⟩

end

end DstmP1
