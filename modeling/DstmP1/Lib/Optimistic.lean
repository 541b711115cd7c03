import DstmP1.Lib.Seqlock
import Mathlib.Data.List.Induction
import Mathlib.Data.List.TakeWhile
import Mathlib.Order.Basic

/-!
# Optimistic transactions

Transactions read keys without locks and write under locks. Every key has data, a label that its
writers install, and at most one holder of its lock. A transaction that wants to commit locks the
keys it is to write, each with the label it has read; then it enters the log; then it checks that
the keys it has only read are free and have labels no greater than those it has read; then it is
final. It puts its data and gives back the locks with greater labels. One that is not final gives
back its locks and leaves no trace. `Step` lists these steps, in any order and for any number of
transactions.

`Inv` is kept by every step (`Inv.step`). It says what the final transactions in the order of the
log amount to: each has read what those before it have written (`Inv.serial`), and the data of a
key that no final transaction has locked is what all of them have written (`Inv.data_eq`).
-/

namespace DstmP1

namespace Optimistic

variable {U K V L R : Type*}

/-- The keys and the transactions. `checked` are the keys that a transaction has found unchanged
since it entered the log. -/
structure State (U K V L : Type*) where
  data : K → V
  label : K → L
  holds : U → K → Prop
  reads : U → K → Option (L × V)
  writes : U → K → Option V
  checked : U → K → Prop
  final : U → Bool
  log : List U

namespace State

variable (s : State U K V L)

/-- What `u` has written at `b`, if it is final. -/
def written (u : U) (b : K) : Option V := if s.final u then s.writes u b else none

/-- The memory `init` after the transactions `l`. -/
def mem (init : K → V) (l : List U) : K → V :=
  l.foldl (fun m u b => (s.written u b).getD (m b)) init

/-- The transactions that come before `u`: all of them as long as `u` is not in the log. -/
def before [DecidableEq U] (u : U) : List U := s.log.takeWhile fun w => w ≠ u

/-- A final transaction holds the lock of `b`. -/
def Dirty (b : K) : Prop := ∃ u, s.final u = true ∧ s.holds u b

/-- The key `b` as its readers have to see it. -/
def vcell (b : K) : VCell L V := ⟨s.label b, s.Dirty b, s.data b⟩

/-- The labels that `b` has had: the present one and smaller ones. -/
def Used [Preorder R] (rank : L → R) (b : K) (l : L) : Prop :=
  l = s.label b ∨ rank l < rank (s.label b)

end State

/-- The steps of the transaction `u`, when `rank` orders the labels. -/
inductive Step [DecidableEq U] [DecidableEq K] [Preorder R] (rank : L → R) (u : U)
    (s : State U K V L) : State U K V L → Prop where
  /-- A free key is read. -/
  | read {b : K} : u ∉ s.log → (∀ w, ¬ s.holds w b) → Step rank u s { s with
      reads := Function.update s.reads u
        (Function.update (s.reads u) b (some (s.label b, s.data b))) }
  /-- A free key is locked that has the label it was read with. -/
  | lock {b : K} {v : V} : u ∉ s.log → (∀ w, ¬ s.holds w b) →
      s.reads u b = some (s.label b, v) → Step rank u s { s with
      holds := fun w c => s.holds w c ∨ w = u ∧ c = b }
  /-- All keys to be written are locked. -/
  | point {ws : K → Option V} : u ∉ s.log → (∀ b, ws b ≠ none → s.holds u b) →
      Step rank u s { s with
      writes := Function.update s.writes u ws
      checked := fun w b => s.checked w b ∧ w ≠ u
      log := s.log ++ [u] }
  | check {b : K} {l : L} {v : V} : u ∈ s.log → (∀ w, ¬ s.holds w b) →
      s.reads u b = some (l, v) → rank (s.label b) ≤ rank l → Step rank u s { s with
      checked := fun w c => s.checked w c ∨ w = u ∧ c = b }
  /-- Everything that was only read has been checked. -/
  | finalize : u ∈ s.log → s.final u = false →
      (∀ b, s.holds u b → s.writes u b ≠ none) →
      (∀ b, s.reads u b ≠ none → s.checked u b ∨ s.writes u b ≠ none) →
      Step rank u s { s with final := Function.update s.final u true }
  | put {b : K} (v : V) : s.final u = true → s.holds u b →
      Step rank u s { s with data := Function.update s.data b v }
  /-- The lock of a key that has been written is given back. -/
  | release {b : K} {l : L} : s.final u = true → s.holds u b →
      s.writes u b = some (s.data b) → rank (s.label b) < rank l → Step rank u s { s with
      label := Function.update s.label b l
      holds := fun w c => s.holds w c ∧ ¬ (w = u ∧ c = b) }
  /-- A transaction that has entered the log gives up. -/
  | fail : u ∈ s.log → s.final u = false → Step rank u s { s with
      writes := Function.update s.writes u fun _ => none }
  /-- The lock of a key that has not been written is given back. -/
  | restore {b : K} : s.final u = false → (u ∈ s.log → s.writes u b = none) →
      s.holds u b → Step rank u s { s with
      holds := fun w c => s.holds w c ∧ ¬ (w = u ∧ c = b) }

/-! ## Memory -/

namespace State

section
variable {s s' : State U K V L} {init : K → V} {l l' : List U} {u w : U} {b : K} {v : V}

@[simp] theorem mem_nil : s.mem init [] = init := rfl

/-- The last transaction of a log has the last word. -/
theorem mem_concat (b : K) :
    s.mem init (l ++ [u]) b = (s.written u b).getD (s.mem init l b) := by
  rw [mem, List.foldl_append]
  rfl

/-- The memory at a key depends on what has been written there only. -/
theorem mem_congr (h : ∀ u ∈ l, s'.written u b = s.written u b) :
    s'.mem init l b = s.mem init l b := by
  induction l using List.reverseRecOn with
  | nil => rfl
  | append_singleton l u ih =>
    rw [mem_concat, mem_concat, h u (by simp), ih fun w hw => h w (by simp [hw])]

/-- A transaction that has not written the key. -/
theorem mem_concat_of_none (h : s.written u b = none) :
    s.mem init (l ++ [u]) b = s.mem init l b := by
  rw [mem_concat, h, Option.getD_none]

/-- Transactions that have not written the key. -/
theorem mem_append_of_none (h : ∀ w ∈ l', s.written w b = none) :
    s.mem init (l ++ l') b = s.mem init l b := by
  induction l' using List.reverseRecOn with
  | nil => rw [List.append_nil]
  | append_singleton l' w ih =>
    rw [← List.append_assoc, mem_concat_of_none (h w (by simp))]
    exact ih fun x hx => h x (by simp [hx])

/-- The last transaction that has written the key. -/
theorem mem_of_last (hu : s.written u b = some v) (hl : ∀ w ∈ l', s.written w b = none) :
    s.mem init (l ++ u :: l') b = v := by
  induction l' using List.reverseRecOn with
  | nil => rw [mem_concat, hu, Option.getD_some]
  | append_singleton l' w ih =>
    have he : l ++ u :: (l' ++ [w]) = l ++ u :: l' ++ [w] := by simp
    rw [he, mem_concat_of_none (hl w (by simp))]
    exact ih fun x hx => hl x (by simp [hx])

/-- A transaction that is not final has written nothing. -/
theorem written_of_not_final (h : s.final u = false) (b : K) : s.written u b = none := by
  simp [written, h]

/-- Only the final transactions count. -/
theorem mem_finals (l : List U) : s.mem init (l.filter fun u => s.final u) = s.mem init l := by
  induction l using List.reverseRecOn with
  | nil => rfl
  | append_singleton l u ih =>
    funext b
    rw [List.filter_append, mem_concat, ← ih]
    rcases hf : s.final u with _ | _
    · simp [hf, written_of_not_final hf]
    · rw [List.filter_cons_of_pos (by simpa using hf), List.filter_nil, mem_concat]

/-- A final transaction has written all its writes. -/
theorem written_of_final (h : s.final u = true) (b : K) : s.written u b = s.writes u b := by
  simp [written, h]

/-- A key that nobody holds is clean. -/
theorem not_dirty (hf : ∀ w, ¬ s.holds w b) : ¬ s.Dirty b := fun ⟨w, _, hw⟩ => hf w hw

variable [DecidableEq U]

/-- Before a transaction is in the log, all others come before it. -/
theorem before_of_not_mem (h : u ∉ s.log) : s.before u = s.log := by
  rw [before, List.takeWhile_eq_self_iff]
  intro w hw
  simpa using fun he : w = u => h (he ▸ hw)

theorem mem_of_mem_before (h : w ∈ s.before u) : w ∈ s.log :=
  (List.takeWhile_sublist _).subset h

/-- A transaction in the log stands after those before it. -/
theorem log_eq_before (h : u ∈ s.log) : ∃ l, s.log = s.before u ++ u :: l := by
  have hne : s.log.dropWhile (fun w => w ≠ u) ≠ [] := by
    rw [ne_eq, List.dropWhile_eq_nil_iff]
    exact fun hall => by simpa using hall u h
  obtain ⟨w, l, hl⟩ := List.exists_cons_of_ne_nil hne
  have hw : w = u := by
    have hhead := List.head_dropWhile_not (fun w => decide (w ≠ u)) hne
    simp only [hl, List.head_cons] at hhead
    simpa using hhead
  refine ⟨l, ?_⟩
  rw [before, ← hw, ← hl, hw]
  exact (List.takeWhile_append_dropWhile (l := s.log)).symm

/-- Of two transactions in the log one comes before the other. -/
theorem before_of_log_eq {k : List U} (hn : s.log.Nodup) (h : s.log = l ++ u :: k) :
    s.before u = l := by
  have hu : ∀ w ∈ l, decide (w ≠ u) = true := by
    intro w hw
    rw [h, List.nodup_append] at hn
    simpa using hn.2.2 w hw u (by simp)
  rw [before, h, List.takeWhile_append_of_pos hu]
  simp

end

end State

/-! ## The invariant -/

/-- What holds in every state, when `init` was the data to begin with. -/
structure Inv [DecidableEq U] [Preorder R] (rank : L → R) (init : K → V) (s : State U K V L) :
    Prop where
  nodup : s.log.Nodup
  excl : ∀ u w b, s.holds u b → s.holds w b → u = w
  held : ∀ u b, s.holds u b → ∃ v, s.reads u b = some (s.label b, v)
  used : ∀ u b l v, s.reads u b = some (l, v) → s.Used rank b l
  logged : ∀ u, s.final u = true → u ∈ s.log
  locked : ∀ u ∈ s.log, s.final u = false → ∀ b, s.writes u b ≠ none → s.holds u b
  read : ∀ u ∈ s.log, ∀ b, s.writes u b ≠ none → s.reads u b ≠ none
  /-- A read that can still be checked agrees with the transactions before it. -/
  known : ∀ u b l v, s.final u = false → s.reads u b = some (l, v) → l = s.label b →
    ¬ s.Dirty b → s.mem init (s.before u) b = v
  /-- A read that has been checked, or is protected by a lock, does so for good. -/
  settled : ∀ u ∈ s.log, ∀ b l v, s.reads u b = some (l, v) →
    s.final u = true ∨ s.checked u b ∨ s.writes u b ≠ none →
    s.mem init (s.before u) b = v ∧ ∀ w ∈ s.before u, s.final w = false → s.writes w b = none
  clean : ∀ b, ¬ s.Dirty b → s.data b = s.mem init s.log b
  own : ∀ u b, s.final u = true → s.holds u b → s.writes u b = some (s.mem init s.log b)

namespace Inv

variable [DecidableEq U] [Preorder R] {rank : L → R} {init : K → V}
  {s s' : State U K V L} {u : U} {b : K} {l : L} {v : V}

/-- Nothing has happened yet. -/
theorem start (hl : s.log = []) (hf : ∀ u, s.final u = false) (hh : ∀ u b, ¬ s.holds u b)
    (hr : ∀ u b, s.reads u b = none) : Inv rank s.data s where
  nodup := by simp [hl]
  excl u _ b h := absurd h (hh u b)
  held u b h := absurd h (hh u b)
  used u b l v h := by simp [hr] at h
  logged u h := by simp [hf] at h
  locked u h := by simp [hl] at h
  read u h := by simp [hl] at h
  known u b l v _ h := by simp [hr] at h
  settled u h := by simp [hl] at h
  clean b _ := by simp [hl]
  own u b h := by simp [hf] at h

/-- A read of a free key. -/
theorem of_read [DecidableEq K] (h : Inv rank init s) (hu : u ∉ s.log)
    (hfree : ∀ w, ¬ s.holds w b) : Inv rank init { s with
      reads := Function.update s.reads u
        (Function.update (s.reads u) b (some (s.label b, s.data b))) } := by
  have hcases : ∀ w c l v, Function.update s.reads u
      (Function.update (s.reads u) b (some (s.label b, s.data b))) w c = some (l, v) →
      w = u ∧ c = b ∧ l = s.label b ∧ v = s.data b ∨ s.reads w c = some (l, v) := by
    intro w c l v hr
    rcases eq_or_ne w u with rfl | hw
    · rw [Function.update_self] at hr
      rcases eq_or_ne c b with rfl | hc
      · rw [Function.update_self] at hr
        cases hr
        exact .inl ⟨rfl, rfl, rfl, rfl⟩
      · rw [Function.update_of_ne hc] at hr
        exact .inr hr
    · rw [Function.update_of_ne hw] at hr
      exact .inr hr
  have hother : ∀ w c, ¬ (w = u ∧ c = b) → Function.update s.reads u
      (Function.update (s.reads u) b (some (s.label b, s.data b))) w c = s.reads w c := by
    intro w c hne
    rcases eq_or_ne w u with rfl | hw
    · rw [Function.update_self, Function.update_of_ne fun hc => hne ⟨rfl, hc⟩]
    · rw [Function.update_of_ne hw]
  refine { h with held := ?_, used := ?_, read := ?_, known := ?_, settled := ?_ }
  · intro w c hw
    obtain ⟨v, hv⟩ := h.held w c hw
    refine ⟨v, (hother w c ?_).trans hv⟩
    rintro ⟨rfl, rfl⟩
    exact hfree w hw
  · intro w c l v hr
    rcases hcases w c l v hr with ⟨rfl, rfl, rfl, rfl⟩ | hr
    · exact .inl rfl
    · exact h.used w c l v hr
  · intro w hw c hc
    dsimp only
    rw [hother w c fun he => hu (he.1 ▸ hw)]
    exact h.read w hw c hc
  · intro w c l v hf hr hl hd
    rcases hcases w c l v hr with ⟨rfl, rfl, rfl, rfl⟩ | hr
    · have hb : s.before w = s.log := State.before_of_not_mem hu
      exact (congrArg (fun x => s.mem init x c) hb).trans (h.clean c (State.not_dirty hfree)).symm
    · exact h.known w c l v hf hr hl hd
  · intro w hw c l v hr
    rcases hcases w c l v hr with ⟨rfl, -⟩ | hr
    · exact absurd hw hu
    · exact h.settled w hw c l v hr

/-- A free key is locked whose label is the one read. -/
theorem of_lock (h : Inv rank init s) (hu : u ∉ s.log) (hfree : ∀ w, ¬ s.holds w b)
    (hr : s.reads u b = some (s.label b, v)) :
    Inv rank init { s with holds := fun w c => s.holds w c ∨ w = u ∧ c = b } := by
  have hnf : s.final u = false := by
    by_contra hf
    exact hu (h.logged u (Bool.not_eq_false _ ▸ hf))
  have hdirty : ∀ c, ¬ (∃ w, s.final w = true ∧ (s.holds w c ∨ w = u ∧ c = b)) → ¬ s.Dirty c :=
    fun c hd ⟨w, hw, hc⟩ => hd ⟨w, hw, .inl hc⟩
  refine { h with excl := ?_, held := ?_, locked := ?_, known := ?_, clean := ?_, own := ?_ }
  · rintro x w c (hx | ⟨rfl, rfl⟩) (hw | ⟨rfl, hc⟩)
    · exact h.excl x w c hx hw
    · exact absurd (hc ▸ hx) (hfree x)
    · exact absurd hw (hfree w)
    · rfl
  · rintro w c (hw | ⟨rfl, rfl⟩)
    · exact h.held w c hw
    · exact ⟨v, hr⟩
  · exact fun w hw hf c hc => .inl (h.locked w hw hf c hc)
  · exact fun w c l v hf hr hl hd => h.known w c l v hf hr hl (hdirty c hd)
  · exact fun c hd => h.clean c (hdirty c hd)
  · rintro w c hf (hw | ⟨rfl, rfl⟩)
    · exact h.own w c hf hw
    · rw [hnf] at hf
      cases hf

/-- A read is checked: the label of the key has not grown. -/
theorem of_check (h : Inv rank init s) (hu : u ∈ s.log) (hfree : ∀ w, ¬ s.holds w b)
    (hr : s.reads u b = some (l, v)) (hle : rank (s.label b) ≤ rank l) :
    Inv rank init { s with checked := fun w c => s.checked w c ∨ w = u ∧ c = b } := by
  refine { h with settled := ?_ }
  intro w hw c l' v' hr' hc
  rcases hc with hc | (hc | ⟨rfl, rfl⟩) | hc
  · exact h.settled w hw c l' v' hr' (.inl hc)
  · exact h.settled w hw c l' v' hr' (.inr (.inl hc))
  · -- The label is the one that was read, and whoever has written the key holds its lock.
    rw [hr] at hr'
    cases hr'
    rcases hf : s.final w with _ | _
    · have hl : l = s.label c :=
        (h.used w c l v hr).resolve_right fun hlt => lt_irrefl _ (hlt.trans_le hle)
      refine ⟨h.known w c l v hf hr hl (State.not_dirty hfree), fun x hx hxf => ?_⟩
      by_contra hne
      exact hfree x (h.locked x (State.mem_of_mem_before hx) hxf c hne)
    · exact h.settled w hw c l v hr (.inl hf)
  · exact h.settled w hw c l' v' hr' (.inr (.inr hc))

/-- A final transaction writes data under its lock. -/
theorem of_put [DecidableEq K] (h : Inv rank init s) (hf : s.final u = true) (hh : s.holds u b)
    (v : V) : Inv rank init { s with data := Function.update s.data b v } := by
  refine { h with clean := ?_ }
  intro c hd
  have hc : c ≠ b := by
    rintro rfl
    exact hd ⟨u, hf, hh⟩
  exact (Function.update_of_ne hc v s.data).trans (h.clean c hd)

/-- A transaction enters the log with what it is to write. -/
theorem of_point (h : Inv rank init s) (hu : u ∉ s.log) {ws : K → Option V}
    (hws : ∀ b, ws b ≠ none → s.holds u b) :
    Inv rank init { s with
      writes := Function.update s.writes u ws
      checked := fun w b => s.checked w b ∧ w ≠ u
      log := s.log ++ [u] } := by
  generalize hs' : ({ s with
      writes := Function.update s.writes u ws
      checked := fun w b => s.checked w b ∧ w ≠ u
      log := s.log ++ [u] } : State U K V L) = s'
  have hlog : s'.log = s.log ++ [u] := by rw [← hs']
  have hfinal : s'.final = s.final := by rw [← hs']
  have hreads : s'.reads = s.reads := by rw [← hs']
  have hlabel : s'.label = s.label := by rw [← hs']
  have hholds : s'.holds = s.holds := by rw [← hs']
  have hself : s'.writes u = ws := by rw [← hs']; exact Function.update_self ..
  have hne : ∀ w ≠ u, s'.writes w = s.writes w := by
    intro w hw
    rw [← hs']
    exact Function.update_of_ne hw ..
  have hdirty : ∀ c, s'.Dirty c ↔ s.Dirty c := by simp [State.Dirty, hfinal, hholds]
  have hnf : s.final u = false := by
    by_contra hf
    exact hu (h.logged u (Bool.not_eq_false _ ▸ hf))
  have hwritten : ∀ w c, s'.written w c = s.written w c := by
    intro w c
    rcases eq_or_ne w u with rfl | hw
    · rw [State.written_of_not_final (hfinal ▸ hnf), State.written_of_not_final hnf]
    · rw [State.written, State.written, hfinal, hne w hw]
  have hmem : ∀ l c, s'.mem init l c = s.mem init l c :=
    fun l c => State.mem_congr fun w _ => hwritten w c
  have hnodup : s'.log.Nodup := by
    rw [hlog, List.nodup_append]
    refine ⟨h.nodup, List.pairwise_singleton _ u, ?_⟩
    rintro w hw _ hx rfl
    exact hu (List.mem_singleton.1 hx ▸ hw)
  have hself' : s'.before u = s.log := State.before_of_log_eq (k := []) hnodup hlog
  have hold : ∀ w ∈ s.log, s'.before w = s.before w := by
    intro w hw
    obtain ⟨l, hl⟩ := State.log_eq_before hw
    refine State.before_of_log_eq (k := l ++ [u]) hnodup ?_
    rw [hlog, hl]
    simp
  have hbefore : ∀ w c, s'.mem init (s'.before w) c = s.mem init (s.before w) c := by
    intro w c
    rcases eq_or_ne w u with rfl | hw
    · rw [hself', hmem, State.before_of_not_mem hu]
    · by_cases hin : w ∈ s.log
      · rw [hold w hin, hmem]
      · rw [State.before_of_not_mem (by simp [hlog, hin, hw]), hlog, hmem,
          State.before_of_not_mem hin, State.mem_concat_of_none (State.written_of_not_final hnf c)]
  refine ⟨hnodup, hholds ▸ h.excl, ?_, ?_, ?_, ?_, ?_, ?_, ?_, ?_, ?_⟩
  · rw [hholds, hreads, hlabel]
    exact h.held
  · intro w c l v hr
    rw [State.Used, hlabel]
    exact h.used w c l v (hreads ▸ hr)
  · intro w hw
    rw [hlog]
    exact List.mem_append_left _ (h.logged w (hfinal ▸ hw))
  · intro w hw hf c hc
    rw [hlog, List.mem_append, List.mem_singleton] at hw
    rw [hholds]
    rcases eq_or_ne w u with rfl | hwu
    · exact hws c (hself ▸ hc)
    · exact h.locked w (hw.resolve_right hwu) (hfinal ▸ hf) c (hne w hwu ▸ hc)
  · intro w hw c hc
    rw [hlog, List.mem_append, List.mem_singleton] at hw
    rw [hreads]
    rcases eq_or_ne w u with rfl | hwu
    · obtain ⟨v, hv⟩ := h.held w c (hws c (hself ▸ hc))
      simp [hv]
    · exact h.read w (hw.resolve_right hwu) c (hne w hwu ▸ hc)
  · intro w c l v hf hr hl hd
    rw [hbefore]
    rw [hdirty] at hd
    exact h.known w c l v (hfinal ▸ hf) (hreads ▸ hr) (hlabel ▸ hl) hd
  · intro w hw c l v hr hc
    rw [hlog, List.mem_append, List.mem_singleton] at hw
    rw [hreads] at hr
    rw [hbefore, hfinal] at *
    rcases eq_or_ne w u with rfl | hwu
    · -- It has just entered the log: its reads of keys that it holds are still good.
      have hchecked : ¬ s'.checked w c := by
        rw [← hs']
        exact fun hc => hc.2 rfl
      rw [hnf, hself] at hc
      have hh := hws c ((hc.resolve_left nofun).resolve_left hchecked)
      obtain ⟨v', hv⟩ := h.held w c hh
      rw [hr] at hv
      cases hv
      refine ⟨h.known w c _ v hnf hr rfl ?_, fun x hx hxf => ?_⟩
      · rintro ⟨x, hx, hxc⟩
        rw [h.excl x w c hxc hh, hnf] at hx
        cases hx
      · rw [hself'] at hx
        have hxw : x ≠ w := fun he => hu (he ▸ hx)
        rw [hne x hxw]
        by_contra hn
        exact hxw (h.excl x w c (h.locked x hx hxf c hn) hh)
    · have hw := hw.resolve_right hwu
      rw [hne w hwu] at hc
      have hchecked : s'.checked w c → s.checked w c := by
        rw [← hs']
        exact fun hc => hc.1
      obtain ⟨h1, h2⟩ := h.settled w hw c l v hr (hc.imp_right (Or.imp_left hchecked))
      refine ⟨h1, fun x hx hxf => ?_⟩
      rw [hold w hw] at hx
      rw [hne x fun he => hu (he ▸ State.mem_of_mem_before hx)]
      exact h2 x hx hxf
  · intro c hd
    rw [hdirty] at hd
    rw [hlog, hmem, State.mem_concat_of_none (State.written_of_not_final hnf c), ← hs']
    exact h.clean c hd
  · intro w c hf hh
    rw [hfinal] at hf
    rw [hholds] at hh
    have hw : w ≠ u := fun he => hu (he ▸ h.logged w hf)
    rw [hne w hw, hlog, hmem, State.mem_concat_of_none (State.written_of_not_final hnf c)]
    exact h.own w c hf hh

/-- Nobody after a transaction that is not final has written a key that it is to write. -/
theorem written_after (h : Inv rank init s) (hu : u ∈ s.log) (hnf : s.final u = false)
    (hb : s.writes u b ≠ none) :
    ∃ l, s.log = s.before u ++ u :: l ∧ ∀ w ∈ l, w ≠ u ∧ s.written w b = none := by
  obtain ⟨l, hl⟩ := State.log_eq_before hu
  refine ⟨l, hl, fun w hw => ⟨?_, ?_⟩⟩
  · have hn := h.nodup
    rw [hl, List.nodup_append, List.nodup_cons] at hn
    exact fun he => hn.2.1.1 (he ▸ hw)
  · obtain ⟨l₁, l₂, rfl⟩ := List.append_of_mem hw
    have hwb : s.before w = s.before u ++ u :: l₁ :=
      State.before_of_log_eq (k := l₂) h.nodup (hl.trans (by simp))
    have hwl : w ∈ s.log := by rw [hl]; simp
    by_contra hn
    have hwf : s.final w = true := by
      by_contra hf
      exact hn (State.written_of_not_final (Bool.not_eq_true _ ▸ hf) b)
    rw [State.written_of_final hwf] at hn
    obtain ⟨⟨l', v'⟩, hr⟩ := Option.ne_none_iff_exists'.1 (h.read w hwl b hn)
    exact hb ((h.settled w hwl b l' v' hr (.inl hwf)).2 u (by rw [hwb]; simp) hnf)

/-- A transaction all of whose reads are checked or locked becomes final. -/
theorem of_finalize (h : Inv rank init s) (hu : u ∈ s.log) (hnf : s.final u = false)
    (hheld : ∀ b, s.holds u b → s.writes u b ≠ none)
    (hall : ∀ b, s.reads u b ≠ none → s.checked u b ∨ s.writes u b ≠ none) :
    Inv rank init { s with final := Function.update s.final u true } := by
  generalize hs' : ({ s with final := Function.update s.final u true } : State U K V L) = s'
  have hself : s'.final u = true := by rw [← hs']; exact Function.update_self ..
  have hne : ∀ w ≠ u, s'.final w = s.final w := by
    intro w hw
    rw [← hs']
    exact Function.update_of_ne hw ..
  have hdata : s'.data = s.data := by rw [← hs']
  have hlabel : s'.label = s.label := by rw [← hs']
  have hholds : s'.holds = s.holds := by rw [← hs']
  have hreads : s'.reads = s.reads := by rw [← hs']
  have hwrites : s'.writes = s.writes := by rw [← hs']
  have hchecked : s'.checked = s.checked := by rw [← hs']
  have hlog : s'.log = s.log := by rw [← hs']
  have hbefore : s'.before = s.before := by
    funext w
    rw [State.before, hlog, State.before]
  have hold : ∀ w, s.final w = true → s'.final w = true := by
    intro w hw
    rcases eq_or_ne w u with rfl | hwu
    · exact hself
    · rw [hne w hwu, hw]
  have hnot : ∀ w, s'.final w = false → s.final w = false := by
    intro w hw
    by_contra hf
    rw [hold w (Bool.not_eq_false _ ▸ hf)] at hw
    cases hw
  have hwritten : ∀ w c, w ≠ u ∨ s.writes u c = none → s'.written w c = s.written w c := by
    intro w c hw
    rcases eq_or_ne w u with rfl | hwu
    · rw [State.written_of_final hself, State.written_of_not_final hnf, hwrites]
      exact hw.resolve_left fun h => h rfl
    · rw [State.written, State.written, hne w hwu, hwrites]
  have hmem : ∀ l c, s.writes u c = none → s'.mem init l c = s.mem init l c :=
    fun l c hc => State.mem_congr fun w _ => hwritten w c (.inr hc)
  -- Memory changes only at keys that the transaction holds.
  have hdirty : ∀ c, ¬ s'.Dirty c → ¬ s.Dirty c ∧ s.writes u c = none := by
    intro c hd
    rw [State.Dirty, hholds] at hd
    refine ⟨?_, ?_⟩
    · rintro ⟨w, hw, hc⟩
      exact hd ⟨w, hold w hw, hc⟩
    · by_contra hc
      exact hd ⟨u, hself, h.locked u hu hnf c hc⟩
  refine ⟨hlog ▸ h.nodup, hholds ▸ h.excl, ?_, ?_, ?_, ?_, ?_, ?_, ?_, ?_, ?_⟩
  · rw [hholds, hreads, hlabel]
    exact h.held
  · intro w c l v hr
    rw [State.Used, hlabel]
    exact h.used w c l v (hreads ▸ hr)
  · intro w hw
    rw [hlog]
    rcases eq_or_ne w u with rfl | hwu
    · exact hu
    · exact h.logged w (hne w hwu ▸ hw)
  · rw [hlog, hwrites, hholds]
    exact fun w hw hf c hc => h.locked w hw (hnot w hf) c hc
  · rw [hlog, hwrites, hreads]
    exact h.read
  · intro w c l v hf hr hl hd
    obtain ⟨hd, hc⟩ := hdirty c hd
    rw [hbefore, hmem _ c hc]
    exact h.known w c l v (hnot w hf) (hreads ▸ hr) (hlabel ▸ hl) hd
  · intro w hw c l v hr hc
    rw [hlog] at hw
    rw [hreads] at hr
    rw [hchecked, hwrites] at hc
    have hsettled : s.final w = true ∨ s.checked w c ∨ s.writes w c ≠ none := by
      rcases eq_or_ne w u with rfl | hwu
      · exact .inr (hall c (by simp [hr]))
      · exact hne w hwu ▸ hc
    obtain ⟨h1, h2⟩ := h.settled w hw c l v hr hsettled
    rw [hbefore, hwrites, ← h1]
    refine ⟨State.mem_congr fun x hx => hwritten x c ?_, fun x hx hf => h2 x hx (hnot x hf)⟩
    rcases eq_or_ne x u with rfl | hxu
    · exact .inr (h2 x hx hnf)
    · exact .inl hxu
  · intro c hd
    obtain ⟨hd, hc⟩ := hdirty c hd
    rw [hlog, hdata, hmem _ c hc]
    exact h.clean c hd
  · intro w c hf hh
    rw [hholds] at hh
    rw [hwrites, hlog]
    rcases eq_or_ne w u with rfl | hwu
    · obtain ⟨v, hv⟩ := Option.ne_none_iff_exists'.1 (hheld c hh)
      obtain ⟨l, hl, hafter⟩ := h.written_after hu hnf (hheld c hh)
      rw [hl, hv]
      refine congrArg some (State.mem_of_last ?_ fun x hx => ?_).symm
      · rw [State.written_of_final hself, hwrites, hv]
      · rw [hwritten x c (.inl (hafter x hx).1)]
        exact (hafter x hx).2
    · have hwc : s.writes u c = none := by
        by_contra hc
        exact hwu (h.excl w u c hh (h.locked u hu hnf c hc))
      rw [hmem _ c hwc]
      exact h.own w c (hne w hwu ▸ hf) hh

/-- A key that one transaction holds which is not final. -/
theorem not_dirty_of_holds (h : Inv rank init s) (hf : s.final u = false) (hh : s.holds u b) :
    ¬ s.Dirty b := by
  rintro ⟨w, hw, hwb⟩
  rw [h.excl w u b hwb hh, hf] at hw
  cases hw

/-- A transaction that is about to write a key has read the data it has now. -/
theorem data_eq_read (h : Inv rank init s) (hu : u ∈ s.log) (hnf : s.final u = false)
    (hb : s.writes u b ≠ none) (hr : s.reads u b = some (l, v)) : s.data b = v := by
  have hh := h.locked u hu hnf b hb
  obtain ⟨l', hl, hafter⟩ := h.written_after hu hnf hb
  rw [h.clean b (h.not_dirty_of_holds hnf hh), hl, State.mem_append_of_none]
  · exact (h.settled u hu b l v hr (.inr (.inr hb))).1
  · intro w hw
    rcases List.mem_cons.1 hw with rfl | hw
    · exact State.written_of_not_final hnf b
    · exact (hafter w hw).2

/-- A lock that is given back: who holds a lock still had it, and there is one holder of each. -/
theorem of_unlock {label : K → L} (h : Inv rank init s) (hh : s.holds u b)
    (hlabel : ∀ c ≠ b, label c = s.label c)
    (hused : ∀ w c l v, s.reads w c = some (l, v) → l = label c ∨ rank l < rank (label c))
    (hlocked : u ∈ s.log → s.final u = false → s.writes u b = none)
    (hknown : ∀ w v, s.final w = false → s.reads w b = some (label b, v) →
      s.mem init (s.before w) b = v)
    (hclean : s.data b = s.mem init s.log b) :
    Inv rank init { s with
      label := label
      holds := fun w c => s.holds w c ∧ ¬ (w = u ∧ c = b) } := by
  have hother : ∀ w c, s.holds w c → ¬ (w = u ∧ c = b) → c ≠ b := by
    rintro w c hw hne rfl
    exact hne ⟨h.excl w u c hw hh, rfl⟩
  have hdirty : ∀ c ≠ b, ¬ (∃ w, s.final w = true ∧ s.holds w c ∧ ¬ (w = u ∧ c = b)) →
      ¬ s.Dirty c := fun c hc hd ⟨w, hw, hwc⟩ => hd ⟨w, hw, hwc, fun he => hc he.2⟩
  refine { h with
    excl := ?_, held := ?_, used := hused, locked := ?_, known := ?_, clean := ?_, own := ?_ }
  · exact fun x w c hx hw => h.excl x w c hx.1 hw.1
  · rintro w c ⟨hw, hne⟩
    obtain ⟨v, hv⟩ := h.held w c hw
    refine ⟨v, hv.trans ?_⟩
    dsimp only
    rw [hlabel c (hother w c hw hne)]
  · refine fun w hw hf c hc => ⟨h.locked w hw hf c hc, ?_⟩
    rintro ⟨rfl, rfl⟩
    exact hc (hlocked hw hf)
  · intro w c l v hf hr hl hd
    rcases eq_or_ne c b with rfl | hc
    · cases hl
      exact hknown w v hf hr
    · exact h.known w c l v hf hr (hl.trans (hlabel c hc)) (hdirty c hc hd)
  · intro c hd
    rcases eq_or_ne c b with rfl | hc
    · exact hclean
    · exact h.clean c (hdirty c hc hd)
  · exact fun w c hf hw => h.own w c hf hw.1

/-- A lock is released with a greater label, once the data is there. -/
theorem of_release [DecidableEq K] (h : Inv rank init s) (hf : s.final u = true)
    (hh : s.holds u b) (hw : s.writes u b = some (s.data b)) (hl : rank (s.label b) < rank l) :
    Inv rank init { s with
      label := Function.update s.label b l
      holds := fun w c => s.holds w c ∧ ¬ (w = u ∧ c = b) } := by
  have hgreater : ∀ w l' v, s.reads w b = some (l', v) → rank l' < rank l := by
    intro w l' v hr
    rcases h.used w b l' v hr with rfl | hlt
    · exact hl
    · exact hlt.trans hl
  refine h.of_unlock hh (fun c hc => Function.update_of_ne hc ..) ?_ ?_ ?_ ?_
  · intro w c l' v hr
    rcases eq_or_ne c b with rfl | hc
    · rw [Function.update_self]
      exact .inr (hgreater w l' v hr)
    · rw [Function.update_of_ne hc]
      exact h.used w c l' v hr
  · intro _ hnf
    rw [hf] at hnf
    cases hnf
  · intro w v _ hr
    rw [Function.update_self] at hr
    exact absurd (hgreater w l v hr) (lt_irrefl _)
  · exact Option.some.inj (hw.symm.trans (h.own u b hf hh))

/-- A lock is given back by a transaction that writes nothing there. -/
theorem of_restore (h : Inv rank init s) (hf : s.final u = false)
    (hw : u ∈ s.log → s.writes u b = none) (hh : s.holds u b) :
    Inv rank init { s with holds := fun w c => s.holds w c ∧ ¬ (w = u ∧ c = b) } := by
  have hd := h.not_dirty_of_holds hf hh
  exact h.of_unlock hh (fun _ _ => rfl) h.used (fun hu _ => hw hu)
    (fun w v hwf hr => h.known w b _ v hwf hr rfl hd) (h.clean b hd)

/-- A transaction leaves the log again. -/
theorem of_fail (h : Inv rank init s) (hnf : s.final u = false) :
    Inv rank init { s with writes := Function.update s.writes u fun _ => none } := by
  generalize hs' : ({ s with writes := Function.update s.writes u fun _ => none } :
    State U K V L) = s'
  have hwrites : ∀ w c, s'.writes w c ≠ none → s'.writes w c = s.writes w c := by
    intro w c hc
    rw [← hs'] at hc ⊢
    dsimp only at hc ⊢
    rcases eq_or_ne w u with rfl | hw
    · rw [Function.update_self] at hc
      exact absurd rfl hc
    · rw [Function.update_of_ne hw]
  have hne : ∀ w ≠ u, s'.writes w = s.writes w := by
    intro w hw
    rw [← hs']
    exact Function.update_of_ne hw ..
  have hwritten : ∀ w c, s'.written w c = s.written w c := by
    intro w c
    rcases eq_or_ne w u with rfl | hw
    · rw [State.written_of_not_final hnf, State.written_of_not_final]
      rw [← hs']
      exact hnf
    · rw [State.written, State.written, hne w hw, ← hs']
  have hmem : ∀ l c, s'.mem init l c = s.mem init l c :=
    fun l c => State.mem_congr fun w _ => hwritten w c
  subst hs'
  refine { h with locked := ?_, read := ?_, known := ?_, settled := ?_, clean := ?_, own := ?_ }
  · exact fun w hw hf c hc => h.locked w hw hf c (hwrites w c hc ▸ hc)
  · exact fun w hw c hc => h.read w hw c (hwrites w c hc ▸ hc)
  · exact fun w c l v hf hr hl hd => (hmem _ c).trans (h.known w c l v hf hr hl hd)
  · intro w hw c l v hr hc
    obtain ⟨h1, h2⟩ := h.settled w hw c l v hr
      (hc.imp_right (Or.imp_right fun hc => hwrites w c hc ▸ hc))
    refine ⟨(hmem _ c).trans h1, fun x hx hf => ?_⟩
    by_contra hn
    exact hn ((hwrites x c hn).trans (h2 x hx hf))
  · exact fun c hd => (h.clean c hd).trans (hmem _ c).symm
  · intro w c hf hh
    have hw : w ≠ u := by
      rintro rfl
      exact Bool.false_ne_true (hnf.symm.trans hf)
    rw [hne w hw]
    exact (h.own w c hf hh).trans (congrArg some (hmem _ c).symm)

/-- Every step keeps the invariant. -/
theorem step [DecidableEq K] (h : Inv rank init s) (hs : Step rank u s s') : Inv rank init s' := by
  cases hs with
  | read hu hfree => exact h.of_read hu hfree
  | lock hu hfree hr => exact h.of_lock hu hfree hr
  | point hu hws => exact h.of_point hu hws
  | check hu hfree hr hle => exact h.of_check hu hfree hr hle
  | finalize hu hnf hheld hall => exact h.of_finalize hu hnf hheld hall
  | put v hf hh => exact h.of_put hf hh v
  | release hf hh hw hl => exact h.of_release hf hh hw hl
  | fail _ hnf => exact h.of_fail hnf
  | restore hf hw hh => exact h.of_restore hf hw hh

/-! ## What it says -/

/-- A final transaction has read what those before it have written. -/
theorem serial (h : Inv rank init s) {l l' : List U} (hl : s.log = l ++ u :: l')
    (hf : s.final u = true) {x : L} (hr : s.reads u b = some (x, v)) : s.mem init l b = v := by
  have hu : u ∈ s.log := by rw [hl]; simp
  have hsettled := (h.settled u hu b x v hr (.inl hf)).1
  rwa [State.before_of_log_eq h.nodup hl] at hsettled

/-- The same in the order of the final transactions alone. -/
theorem serial_finals (h : Inv rank init s) {l l' : List U}
    (hl : s.log.filter (fun u => s.final u) = l ++ u :: l') {x : L}
    (hr : s.reads u b = some (x, v)) : s.mem init l b = v := by
  obtain ⟨l₁, l₂, h1, rfl, h2⟩ := List.filter_eq_append_iff.1 hl
  obtain ⟨l₃, l₄, rfl, h3, hf, -⟩ := List.filter_eq_cons_iff.1 h2
  have hnil : l₃.filter (fun u => s.final u) = [] := List.filter_eq_nil_iff.2 h3
  have hlog : s.log = (l₁ ++ l₃) ++ u :: l₄ := by rw [h1, List.append_assoc]
  rw [← h.serial hlog hf hr, ← State.mem_finals (l₁ ++ l₃), List.filter_append, hnil,
    List.append_nil]

/-- The data of a key that no final transaction holds is what all of them have written. -/
theorem data_eq (h : Inv rank init s) (hd : ¬ s.Dirty b) : s.data b = s.mem init s.log b :=
  h.clean b hd

/-- What a final transaction holds has its data in memory, for the others to come. -/
theorem writes_eq (h : Inv rank init s) (hf : s.final u = true) (hh : s.holds u b) :
    s.writes u b = some (s.mem init s.log b) := h.own u b hf hh

end Inv

/-! ## Keys as their readers see them -/

section
variable [DecidableEq U] [DecidableEq K] [Preorder R] {rank : L → R} {s s' : State U K V L}
  {u w : U}

/-- A step does with a key what the protocol of optimistic readers allows. -/
theorem Step.vcell (hs : Step rank u s s') (b : K) :
    (s.vcell b).Step (s.Used rank b) (s'.vcell b) := by
  cases hs with
  | read | point | check | fail => exact VCell.Step.refl _
  | lock hu =>
    refine ⟨fun hn => absurd rfl hn, fun _ hd => ⟨?_, rfl⟩⟩
    rintro ⟨w, hw, hwb⟩
    exact hd ⟨w, hw, .inl hwb⟩
  | finalize hu hnf =>
    refine ⟨fun hn => absurd rfl hn, fun _ hd => ⟨?_, rfl⟩⟩
    rintro ⟨w, hw, hwb⟩
    refine hd ⟨w, ?_, hwb⟩
    rcases eq_or_ne w u with rfl | hwu
    · exact Function.update_self ..
    · exact (Function.update_of_ne hwu ..).trans hw
  | @put c v hf hh =>
    refine ⟨fun hn => absurd rfl hn, fun _ hd => ⟨hd, ?_⟩⟩
    have hc : b ≠ c := by
      rintro rfl
      exact hd ⟨u, hf, hh⟩
    exact Function.update_of_ne hc ..
  | @release c l hf hh hw hl =>
    rcases eq_or_ne b c with rfl | hc
    · have hlabel : Function.update s.label b l b = l := Function.update_self ..
      refine ⟨fun _ hu => ?_, fun he => ?_⟩
      · have hu : Function.update s.label b l b = s.label b ∨
            rank (Function.update s.label b l b) < rank (s.label b) := hu
        rw [hlabel] at hu
        rcases hu with rfl | hlt
        · exact lt_irrefl _ hl
        · exact lt_irrefl _ (hl.trans hlt)
      · rw [← show l = s.label b from hlabel.symm.trans he] at hl
        exact absurd hl (lt_irrefl _)
    · refine ⟨fun hn => absurd (Function.update_of_ne hc ..) hn, fun _ hd => ⟨?_, rfl⟩⟩
      rintro ⟨w, hw, hwb⟩
      exact hd ⟨w, hw, hwb, fun he => hc he.2⟩
  | @restore c hf hw hh =>
    refine ⟨fun hn => absurd rfl hn, fun _ hd => ⟨?_, rfl⟩⟩
    rintro ⟨w, hwf, hwb⟩
    refine hd ⟨w, hwf, hwb, ?_⟩
    rintro ⟨rfl, -⟩
    exact Bool.false_ne_true (hf.symm.trans hwf)

/-- Labels that have been used stay used. -/
theorem Step.used (hs : Step rank u s s') {b : K} {l : L} (hl : s.Used rank b l) :
    s'.Used rank b l := by
  cases hs with
  | @release c l' hf hh hw hlt =>
    show l = Function.update s.label c l' b ∨ rank l < rank (Function.update s.label c l' b)
    rcases eq_or_ne b c with rfl | hc
    · refine .inr ?_
      rw [Function.update_self]
      rcases hl with rfl | hl
      · exact hlt
      · exact hl.trans hlt
    · rw [Function.update_of_ne hc]
      exact hl
  | _ => exact hl

/-- What a step leaves alone of the transactions other than `u`. -/
structure Frame (s s' : State U K V L) (w : U) : Prop where
  log : w ∈ s'.log ↔ w ∈ s.log
  holds : ∀ b, s'.holds w b ↔ s.holds w b
  reads : s'.reads w = s.reads w
  writes : s'.writes w = s.writes w
  checked : ∀ b, s.checked w b → s'.checked w b
  final : s'.final w = s.final w

/-- A step of one transaction leaves the others alone. -/
theorem Step.frame (hs : Step rank u s s') (hw : w ≠ u) : Frame s s' w := by
  cases hs with
  | read =>
    exact ⟨.rfl, fun _ => .rfl, Function.update_of_ne hw .., rfl, fun _ h => h, rfl⟩
  | lock => exact ⟨.rfl, fun b => by simp [hw], rfl, rfl, fun _ h => h, rfl⟩
  | point =>
    exact ⟨by simp [hw], fun _ => .rfl, rfl, Function.update_of_ne hw .., fun _ h => ⟨h, hw⟩, rfl⟩
  | check => exact ⟨.rfl, fun _ => .rfl, rfl, rfl, fun _ => .inl, rfl⟩
  | finalize => exact ⟨.rfl, fun _ => .rfl, rfl, rfl, fun _ h => h, Function.update_of_ne hw ..⟩
  | put => exact ⟨.rfl, fun _ => .rfl, rfl, rfl, fun _ h => h, rfl⟩
  | release | restore => exact ⟨.rfl, fun b => by simp [hw], rfl, rfl, fun _ h => h, rfl⟩
  | fail => exact ⟨.rfl, fun _ => .rfl, rfl, Function.update_of_ne hw .., fun _ h => h, rfl⟩

end

end Optimistic

end DstmP1
