import DstmP1.Rules

/-!
# The records are not read

`Attempt`, the number of a transaction, the times of `begin` and `commit`, and the orders of lock
points and of new timestamps are kept for the claims about runs only. `Sys.erase` forgets them,
and `step_erase` says that a step is possible and does the same without them. So a run can be
followed on states that are known up to their records (`run_erase`).
-/

namespace DstmP1

/-- The state without the records. -/
def Sys.erase {g : Segments} (σ : Sys g) : Sys g :=
  { σ with
    th := fun t => { σ.th t with round := 0 }
    now := 0
    att := fun _ => Attempt.new g 0
    log := []
    issued := [] }

section
variable {cfg : Config} {σ : Sys cfg.segs}

/-- A thread is changed in the same way with and without the records. -/
theorem erase_upd {σ₁ σ₂ : Sys cfg.segs} {t : Tid} {th th' : Thread cfg.segs}
    (h₁ : σ₁.th = Function.update σ.th t th) (h₂ : σ₂.th = Function.update σ.erase.th t th')
    (h : { th with round := 0 } = { th' with round := 0 })
    (he : { σ₁ with th := σ.th }.erase = { σ₂ with th := σ.th }.erase) :
    Option.map Sys.erase (some σ₁) = Option.map Sys.erase (some σ₂) := by
  have hth : (fun t => { σ₁.th t with round := 0 }) = fun t => { σ₂.th t with round := 0 } := by
    funext t'
    rw [h₁, h₂]
    by_cases ht : t' = t
    · rw [ht, Function.update_self, Function.update_self, h]
    · rw [Function.update_of_ne ht, Function.update_of_ne ht]
      rfl
  simp only [Sys.erase, Sys.mk.injEq, Option.map_some, Option.some.injEq] at he ⊢
  exact ⟨he.1, he.2.1, he.2.2.1, he.2.2.2.1, hth, he.2.2.2.2.2⟩

variable (t : Tid) (c : Choice)

/-- `readCell` does not look at the records. -/
theorem stepReadCell_erase (op : Op cfg.segs) (pc : CellPc) :
    Option.map Sys.erase (some (stepReadCell cfg σ t c op pc)) =
      Option.map Sys.erase (some (stepReadCell cfg σ.erase t c op pc)) := by
  cases pc with
  | version =>
    simp only [stepReadCell, show σ.erase.locks = σ.locks from rfl]
    split <;> exact erase_upd rfl rfl rfl rfl
  | data version left buf =>
    cases left with
    | cons k left => exact erase_upd rfl rfl rfl rfl
    | nil =>
      simp only [stepReadCell, show σ.erase.locks = σ.locks from rfl]
      split <;> exact erase_upd rfl rfl rfl rfl

/-- `validate` does not look at the records. -/
theorem stepValidate_erase (op : Op cfg.segs) (ts : Word) (buf : ℕ → Byte)
    (left : List (Word × Word)) (looked : Bool) :
    Option.map Sys.erase (some (stepValidate cfg σ t op ts buf left looked)) =
      Option.map Sys.erase (some (stepValidate cfg σ.erase t op ts buf left looked)) := by
  cases left with
  | nil => exact erase_upd rfl rfl rfl rfl
  | cons e left =>
    simp only [stepValidate, show σ.erase.cache = σ.cache from rfl,
      show ∀ l, σ.erase.getVersion l = σ.getVersion l from fun _ => rfl]
    split <;> split <;> exact erase_upd rfl rfl rfl rfl

/-- `validateAll` does not look at the records. -/
theorem stepValidateAll_erase (o : Tx.Orders) (left : List (Word × Word)) (looked : Bool) :
    Option.map Sys.erase (some (stepValidateAll cfg σ t o left looked)) =
      Option.map Sys.erase (some (stepValidateAll cfg σ.erase t o left looked)) := by
  cases left with
  | nil => exact erase_upd rfl rfl rfl rfl
  | cons e left =>
    simp only [stepValidateAll, show σ.erase.cache = σ.cache from rfl,
      show ∀ l, σ.erase.getVersion l = σ.getVersion l from fun _ => rfl]
    split <;> split <;> exact erase_upd rfl rfl rfl rfl

/-- The code of a thread does not look at the records. -/
theorem stepRun_erase :
    (stepRun cfg σ t c).map Sys.erase = (stepRun cfg σ.erase t c).map Sys.erase := by
  rw [stepRun, stepRun, show (σ.erase.th t).pc = (σ.th t).pc from rfl]
  cases (σ.th t).pc with
  | idle | active => rfl
  | readCell op pc => exact stepReadCell_erase t c op pc
  | increaseClock op ts buf cur =>
    cases cur <;> simp only [stepIncreaseClock, show σ.erase.clock = σ.clock from rfl] <;> split <;>
      exact erase_upd rfl rfl rfl rfl
  | validateStart op ts buf =>
    simp only [stepValidateStart, show (σ.erase.th t).tx = (σ.th t).tx from rfl]
    split
    · exact erase_upd rfl rfl rfl rfl
    · split
      · split
        · exact erase_upd rfl rfl rfl rfl
        · rfl
      · exact erase_upd rfl rfl rfl rfl
  | validate op ts buf left looked => exact stepValidate_erase t op ts buf left looked
  | getLocks o done rest =>
    cases rest with
    | nil => exact erase_upd rfl rfl rfl rfl
    | cons b rest =>
      simp only [stepGetLocks, show (σ.erase.th t).this = (σ.th t).this from rfl]
      cases (σ.th t).this with
      | none => rfl
      | some this => exact erase_upd rfl rfl rfl rfl
  | requestLocks o done batch rest unsent requests =>
    cases unsent with
    | nil => exact erase_upd rfl rfl rfl rfl
    | cons r unsent =>
      simp only [stepRequestLocks]
      cases (r :: unsent)[c.k]? with
      | none => rfl
      | some q => exact erase_upd rfl rfl rfl rfl
  | waitLocks o done batch rest requests =>
    simp only [stepWaitLocks, show (σ.erase.th t).tx = (σ.th t).tx from rfl]
    split
    · rfl
    · split <;> exact erase_upd rfl rfl rfl rfl
  | releaseLocks left =>
    cases left with
    | nil => exact erase_upd rfl rfl rfl rfl
    | cons b left =>
      simp only [stepReleaseLocks, show (σ.erase.th t).tx = (σ.th t).tx from rfl]
      split <;> exact erase_upd rfl rfl rfl rfl
  | validateAll o left looked => exact stepValidateAll_erase t o left looked
  | commitWriteSetValues o puts left =>
    cases puts with
    | nil => exact erase_upd rfl rfl rfl rfl
    | cons p puts => cases left <;> exact erase_upd rfl rfl rfl rfl
  | getNextClock o cur =>
    cases cur with
    | none => exact erase_upd rfl rfl rfl rfl
    | some cur =>
      simp only [stepGetNextClock, show σ.erase.clock = σ.clock from rfl]
      split <;> exact erase_upd rfl rfl rfl rfl
  | releaseLocksWithNewClock version left =>
    cases left <;> exact erase_upd rfl rfl rfl rfl

/-- The handlers do not look at the records. -/
theorem stepHandle_erase (k : ℕ) :
    (stepHandle cfg σ t k).map Sys.erase = (stepHandle cfg σ.erase t k).map Sys.erase := by
  rw [stepHandle, stepHandle, show σ.erase.net = σ.net from rfl]
  split
  · rfl
  · split
    · rfl
    · split
      · next i old changed hm hi =>
        cases old <;> simp only [stepRequest, show σ.erase.locks = σ.locks from rfl] <;> split <;>
          first
          | rfl
          | exact erase_upd rfl rfl rfl rfl
      · rfl

/-- The delivery of a reply does not look at the records. -/
theorem stepDeliver_erase (k : ℕ) :
    (stepDeliver cfg σ t k).map Sys.erase = (stepDeliver cfg σ.erase t k).map Sys.erase := by
  rw [stepDeliver, stepDeliver, show σ.erase.net = σ.net from rfl,
    show σ.erase.descs = σ.descs from rfl]
  split
  · rfl
  · split
    · rfl
    · dsimp only
      split
      · rfl
      · exact erase_upd rfl rfl rfl rfl

/-- **The records are not read.** A step is possible without them if it is possible with them, and
does the same. -/
theorem step_erase (a : Act cfg.segs) :
    (step cfg σ a).map Sys.erase = (step cfg σ.erase a).map Sys.erase := by
  cases a with
  | new t ptr =>
    simp only [step, show (σ.erase.th t).pc = (σ.th t).pc from rfl,
      show (σ.erase.th t).toCache = (σ.th t).toCache from rfl,
      show (σ.erase.th t).this = (σ.th t).this from rfl, show σ.erase.descs = σ.descs from rfl]
    split
    · exact erase_upd rfl rfl rfl rfl
    · rfl
  | begin t | delete t =>
    simp only [step, show (σ.erase.th t).pc = (σ.th t).pc from rfl,
      show (σ.erase.th t).toCache = (σ.th t).toCache from rfl,
      show (σ.erase.th t).this = (σ.th t).this from rfl]
    split
    · exact erase_upd rfl rfl rfl rfl
    · rfl
  | call t op =>
    simp only [step, show (σ.erase.th t).pc = (σ.th t).pc from rfl,
      show (σ.erase.th t).toCache = (σ.th t).toCache from rfl]
    split
    · simp only [stepCall, show (σ.erase.th t).tx = (σ.th t).tx from rfl]
      split <;> exact erase_upd rfl rfl rfl rfl
    · rfl
  | commit t o =>
    simp only [step, show (σ.erase.th t).pc = (σ.th t).pc from rfl,
      show (σ.erase.th t).toCache = (σ.th t).toCache from rfl,
      show (σ.erase.th t).tx = (σ.th t).tx from rfl]
    split
    · split
      · exact erase_upd rfl rfl rfl rfl
      · rfl
    · rfl
  | rollback t =>
    simp only [step, show (σ.erase.th t).pc = (σ.th t).pc from rfl,
      show (σ.erase.th t).toCache = (σ.th t).toCache from rfl]
    split
    · exact erase_upd rfl rfl rfl rfl
    · rfl
  | run t c =>
    simp only [step, show (σ.erase.th t).toCache = (σ.th t).toCache from rfl]
    split
    · exact stepRun_erase t c
    · rfl
  | addVersion t =>
    simp only [step, show (σ.erase.th t).toCache = (σ.th t).toCache from rfl]
    cases (σ.th t).toCache with
    | none => rfl
    | some e => exact erase_upd rfl rfl rfl rfl
  | handle t k => exact stepHandle_erase t k
  | deliver t k => exact stepDeliver_erase t k

end

/-- A run on states that are the same up to their records. -/
theorem run_erase {cfg : Config} {objs : Flat} (as : List (Act cfg.segs)) :
    ∀ {σ₁ σ₂ : Sys cfg.segs}, σ₁.erase = σ₂.erase →
      ((cfg.lts objs).run σ₁ as).map Sys.erase = ((cfg.lts objs).run σ₂ as).map Sys.erase := by
  induction as with
  | nil => exact fun h => congrArg some h
  | cons a as ih =>
    intro σ₁ σ₂ h
    have hs : (step cfg σ₁ a).map Sys.erase = (step cfg σ₂ a).map Sys.erase := by
      rw [step_erase (σ := σ₁), step_erase (σ := σ₂), h]
    show ((step cfg σ₁ a).bind _).map _ = ((step cfg σ₂ a).bind _).map _
    cases h₁ : step cfg σ₁ a with
    | none =>
      rw [h₁, Option.map_none, eq_comm, Option.map_eq_none_iff] at hs
      rw [hs]
    | some σ₁' =>
      rw [h₁, Option.map_some, eq_comm, Option.map_eq_some_iff] at hs
      obtain ⟨σ₂', h₂, he⟩ := hs
      rw [h₂]
      exact ih he.symm

end DstmP1
