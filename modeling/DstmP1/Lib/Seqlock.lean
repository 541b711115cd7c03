import Mathlib.Logic.Basic

/-!
# Optimistic reads of a versioned cell

A cell has a label, the version its writers last installed, and data; it is dirty while a writer
that has changed data has not yet installed a new label. Writers may do anything as long as a new
label is one that was not used before and data does not change under a clean label
(`VCell.Step`).

`Known used c l P` is what an optimistic reader may know after it has seen the clean label `l`:
should the cell ever be clean at `l` again, its data satisfies `P`. It survives every step of the
writers (`Known.step`) although the cell may change in the meantime, because a label that is left
does not come back; a reader that finds the label again may use it (`Known.use`).
-/

namespace DstmP1

variable {L D : Type*}

/-- A versioned cell as its optimistic readers have to see it. -/
structure VCell (L D : Type*) where
  label : L
  dirty : Prop
  data : D

namespace VCell

/-- What the writers of a cell may do in one step, when `used` holds of the labels used so far. -/
structure Step (used : L → Prop) (c c' : VCell L D) : Prop where
  fresh : c'.label ≠ c.label → ¬ used c'.label
  kept : c'.label = c.label → ¬ c'.dirty → ¬ c.dirty ∧ c'.data = c.data

/-- Whenever the cell is clean at the label `l`, which has been used, its data satisfies `P`. -/
structure Known (used : L → Prop) (c : VCell L D) (l : L) (P : D → Prop) : Prop where
  used : used l
  holds : c.label = l → ¬ c.dirty → P c.data

variable {used used' : L → Prop} {c c' : VCell L D} {l : L} {P Q : D → Prop}

theorem Step.refl (c : VCell L D) : Step used c c :=
  ⟨fun h => absurd rfl h, fun _ h => ⟨h, rfl⟩⟩

/-- What is seen at a clean label is known. -/
theorem Known.start (hu : used c.label) (h : P c.data) : Known used c c.label P :=
  ⟨hu, fun _ _ => h⟩

theorem Known.mono (h : Known used c l P) (hPQ : ∀ d, P d → Q d) : Known used c l Q :=
  ⟨h.used, fun hl hd => hPQ _ (h.holds hl hd)⟩

/-- A fact about the present data can be added to what is known, whether or not the cell is at
the label: if it is not, it will not be clean there with other data. -/
theorem Known.see (h : Known used c l P) (hQ : Q c.data) : Known used c l fun d => P d ∧ Q d :=
  ⟨h.used, fun hl hd => ⟨h.holds hl hd, hQ⟩⟩

/-- What is known survives the writers. -/
theorem Known.step (h : Known used c l P) (hs : Step used c c') (hu : ∀ x, used x → used' x) :
    Known used' c' l P := by
  refine ⟨hu _ h.used, fun hl hd => ?_⟩
  by_cases hc : c'.label = c.label
  · obtain ⟨hclean, hdata⟩ := hs.kept hc hd
    rw [hdata]
    exact h.holds (hc ▸ hl) hclean
  · exact absurd (hl ▸ h.used) (hs.fresh hc)

/-- A reader that finds the label again, and the cell clean, may use what it knows. -/
theorem Known.use (h : Known used c l P) (hl : c.label = l) (hd : ¬ c.dirty) : P c.data :=
  h.holds hl hd

end VCell

end DstmP1
