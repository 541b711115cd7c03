import Mathlib.Data.List.Perm.Basic
import Mathlib.Data.List.Flatten

/-!
# Messages under way

The messages of a protocol that are delivered in any order are a list from which any element may be
taken, or in which any element may be replaced while it is being handled. What remains is the list
without that element, up to order; an account that is kept over the whole list changes by the
account of the one element.
-/

namespace DstmP1

section
variable {α β : Type*} [DecidableEq β] {l : List α} {k : ℕ} {x : α}

/-- A message is taken out. -/
theorem perm_eraseIdx (h : l[k]? = some x) : l.Perm (x :: l.eraseIdx k) := by
  obtain ⟨hk, rfl⟩ := List.getElem?_eq_some_iff.1 h
  exact (List.getElem_cons_eraseIdx_perm hk).symm

/-- A message is replaced. -/
theorem perm_set (h : l[k]? = some x) (y : α) : (l.set k y).Perm (y :: l.eraseIdx k) := by
  obtain ⟨hk, -⟩ := List.getElem?_eq_some_iff.1 h
  exact List.set_perm_cons_eraseIdx hk y

/-- What a message accounts for leaves with it. -/
theorem count_flatMap_eraseIdx (h : l[k]? = some x) (f : α → List β) (b : β) :
    (l.flatMap f).count b = (f x).count b + ((l.eraseIdx k).flatMap f).count b := by
  rw [((perm_eraseIdx h).flatMap_right f).count_eq, List.flatMap_cons, List.count_append]

theorem count_flatMap_set (h : l[k]? = some x) (y : α) (f : α → List β) (b : β) :
    ((l.set k y).flatMap f).count b = (f y).count b + ((l.eraseIdx k).flatMap f).count b := by
  rw [((perm_set h y).flatMap_right f).count_eq, List.flatMap_cons, List.count_append]

/-- A count changes by the two elements. -/
theorem countP_set_add (p : α → Bool) (h : l[k]? = some x) (y : α) :
    (l.set k y).countP p + (if p x then 1 else 0) = l.countP p + if p y then 1 else 0 := by
  rw [(perm_set h y).countP_eq, (perm_eraseIdx h).countP_eq, List.countP_cons, List.countP_cons]
  omega

end

end DstmP1
