import Mathlib.Data.Nat.Notation

/-!
# Loops that are left from within

The body of a loop gives the state for the next turn, or throws what the loop ends with. `loop` runs
a number of turns, `Ends` says what a loop ends with after any number of them, and it does so in at
most one way (`Ends.unique`). A loop is followed one turn at a time (`ends_of_error`, `ends_of_ok`).
-/

namespace DstmP1

variable {S R : Type*} {body : S → Except R S} {s s' : S} {r r' : R}

/-- What the loop ends with in at most so many turns. -/
def loop (body : S → Except R S) : ℕ → S → Option R
  | 0, _ => none
  | n + 1, s =>
    match body s with
    | .error r => some r
    | .ok s => loop body n s

/-- The loop ends with `r`. -/
def Ends (body : S → Except R S) (s : S) (r : R) : Prop := ∃ n, loop body n s = some r

theorem loop_of_error (h : body s = .error r) (n : ℕ) : loop body (n + 1) s = some r := by
  rw [loop, h]

theorem loop_of_ok (h : body s = .ok s') (n : ℕ) : loop body (n + 1) s = loop body n s' := by
  rw [loop, h]

/-- More turns than it takes change nothing. -/
theorem loop_mono {n m : ℕ} (h : loop body n s = some r) (hle : n ≤ m) :
    loop body m s = some r := by
  induction n generalizing s m with
  | zero => cases h
  | succ n ih =>
    obtain ⟨m, rfl⟩ := Nat.exists_eq_add_of_le' (Nat.le_of_add_left_le hle)
    cases hb : body s with
    | error r' =>
      rw [loop_of_error hb] at h ⊢
      exact h
    | ok s' =>
      rw [loop_of_ok hb] at h ⊢
      exact ih h (Nat.le_of_succ_le_succ hle)

theorem ends_of_error (h : body s = .error r) : Ends body s r := ⟨1, loop_of_error h 0⟩

theorem ends_of_ok (h : body s = .ok s') (he : Ends body s' r) : Ends body s r := by
  obtain ⟨n, hn⟩ := he
  exact ⟨n + 1, (loop_of_ok h n).trans hn⟩

/-- A loop ends in one way. -/
theorem Ends.unique (h : Ends body s r) (h' : Ends body s r') : r = r' := by
  obtain ⟨n, hn⟩ := h
  obtain ⟨m, hm⟩ := h'
  have hn' := loop_mono hn (Nat.le_max_left n m)
  have hm' := loop_mono hm (Nat.le_max_right n m)
  exact Option.some.inj (hn'.symm.trans hm')

end DstmP1
