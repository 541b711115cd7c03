import DstmP1.SpawnRoutines

/-!
# Thread records

The main node keeps a record for every thread it creates, in the map of its own threads or in that
of the others. Two handlers change records: the `EXITED` message says which thread it is about; the
reply to a spawn request reads the number of the thread from the caller's handle variable, as it is
when the reply arrives. `reach_ownRecord` says that a reply does what it should exactly when the
variable still holds the number of the thread it answers for.
-/

namespace DstmP1

variable {F : Type} {find : List Byte → Option F}

namespace Spawn

/-! ## What is claimed -/

/-- A thread starts to run, and exits before or after the reply. -/
def Moves (s s' : ThreadState) : Prop :=
  s' = s ∨ (s = .RUNNABLE ∧ s' = .RUNNING) ∨ ((s = .RUNNABLE ∨ s = .RUNNING) ∧ s' = .EXITED)

/-- No handler has missed its record; the record of a thread is in one map; the thread has one
number on its node; and to join it is to wait for its `EXITED` message. -/
structure OwnRecord (σ : Spawn find) : Prop where
  fault : σ.fault = false
  record : ∀ c ∈ σ.calls, (σ.localThreads c.gtid).isSome ≠ (σ.remoteThreads c.gtid).isSome
  started : (σ.started.map Prod.fst).Nodup
  join : ∀ c ∈ σ.calls, σ.joinReturns c.gtid = true → c.gtid ∈ σ.exited

/-- A reply changes the record of the thread it answers for, which gets the number of the thread on
its node; and no step moves a record backwards. -/
structure OwnStep (σ : Spawn find) (a : SpawnAct find) (σ' : Spawn find) : Prop where
  reply : ∀ k r, a = .reply k → σ.replies[k]? = some r →
    (∀ id, id ≠ r.gtid → σ'.record id = σ.record id) ∧ (r.gtid, r.ltid) ∈ σ.started ∧
      ∃ t, σ'.record r.gtid = some t ∧ t.ltid = r.ltid
  moves : ∀ id t, σ.record id = some t → ∃ t', σ'.record id = some t' ∧ Moves t.state t'.state

/-- When a reply is handled, the handle variable of its thread holds the number of the thread. -/
def HandleKept (σ : Spawn find) (a : SpawnAct find) (_ : Spawn find) : Prop :=
  match a with
  | .reply k => ∀ r ∈ σ.replies[k]?, σ.handles r.buf.newThread = r.gtid
  | _ => True

/-! ## Records -/

section
variable {mainNode : ℕ} {σ σ' : Spawn find} {a : SpawnAct find} {id id' : ℕ}
  {f : ApplicationThread → ApplicationThread} {t : ApplicationThread}

theorem record_congr (hl : σ'.localThreads = σ.localThreads)
    (hr : σ'.remoteThreads = σ.remoteThreads) : σ'.record = σ.record := by
  funext id
  rw [record, record, hl, hr]

/-- A handler changes no record but the one it looks up. -/
theorem record_modifyThread_ne (h : id' ≠ id) :
    (σ.modifyThread id f).record id' = σ.record id' := by
  rw [modifyThread]
  split
  · simp only [record, Function.update_of_ne h]
  · split
    · simp only [record, Function.update_of_ne h]
    · rfl

/-- A record that exists is changed where it is. -/
theorem record_modifyThread (h : σ.record id = some t) :
    (σ.modifyThread id f).record id = some (f t) := by
  rw [record] at h
  rw [modifyThread]
  cases hl : σ.localThreads id with
  | some u =>
    rw [hl, Option.some_or, Option.some.injEq] at h
    simp only [record, Function.update_self, Option.some_or, h]
  | none =>
    rw [hl, Option.none_or] at h
    simp only [record, h, hl, Function.update_self, Option.none_or]

theorem modifyThread_fault (h : σ.record id = some t) :
    (σ.modifyThread id f).fault = σ.fault := by
  rw [record] at h
  rw [modifyThread]
  cases hl : σ.localThreads id with
  | some u => rfl
  | none =>
    rw [hl, Option.none_or] at h
    simp only [h]

/-- A handler moves no record from one map to the other. -/
theorem isSome_modifyThread (id' : ℕ) :
    ((σ.modifyThread id f).localThreads id').isSome = (σ.localThreads id').isSome ∧
      ((σ.modifyThread id f).remoteThreads id').isSome = (σ.remoteThreads id').isSome := by
  rw [modifyThread]
  split
  · rename_i u hl
    refine ⟨?_, rfl⟩
    rcases eq_or_ne id' id with rfl | h
    · simp only [Function.update_self, hl, Option.isSome_some]
    · simp only [Function.update_of_ne h]
  · split
    · rename_i u hr
      refine ⟨rfl, ?_⟩
      rcases eq_or_ne id' id with rfl | h
      · simp only [Function.update_self, hr, Option.isSome_some]
      · simp only [Function.update_of_ne h]
    · exact ⟨rfl, rfl⟩

theorem record_addThread_ne {victim : ℕ} (h : id' ≠ id) :
    (σ.addThread mainNode victim id).record id' = σ.record id' := by
  rw [addThread]
  split
  · simp only [record, Function.update_of_ne h]
  · simp only [record, Function.update_of_ne h]

/-- A new record says that the thread can run and has no number yet. -/
theorem record_addThread {victim : ℕ} (h : σ.record id = none) :
    (σ.addThread mainNode victim id).record id = some ⟨0, .RUNNABLE⟩ := by
  rw [record, Option.or_eq_none_iff] at h
  rw [addThread]
  split
  · simp only [record, Function.update_self, Option.some_or]
  · simp only [record, Function.update_self, h.1, Option.none_or]

/-! ## Replies and exits under way -/

/-- A thread whose request is handled has its reply, with its number, once. -/
structure Answered (σ : Spawn find) : Prop where
  started : (σ.started.map Prod.fst ++ σ.requests.map SpawnRequest.gtid).Perm σ.requested
  once : (σ.replies.map SpawnReply.gtid).Nodup
  reply : ∀ r ∈ σ.replies, (r.gtid, r.ltid) ∈ σ.started ∧ r.ltid ≠ 0
  exits : ∀ m ∈ σ.exits, m ∈ σ.sent

theorem Answered.mem_started (h : Answered σ) {r : SpawnReply} (hr : r ∈ σ.replies) :
    r.gtid ∈ σ.started.map Prod.fst :=
  List.mem_map_of_mem (h.reply r hr).1

/-- A request under way has not been handled. -/
theorem Answered.not_started (h : Answered σ) (hp : Placed mainNode σ) {q : SpawnRequest}
    (hq : q ∈ σ.requests) : q.gtid ∉ σ.started.map Prod.fst := by
  intro hm
  have hnd := h.started.nodup_iff.2 hp.nodup_requested
  exact (List.nodup_append.1 hnd).2.2 _ hm _ (List.mem_map_of_mem hq) rfl

/-- Every thread that has been started has a call. -/
theorem Answered.started_le (h : Answered σ) (hp : Placed mainNode σ) {id : ℕ}
    (hid : id ∈ σ.started.map Prod.fst) : id ≤ σ.calls.length := by
  refine hp.le_length ((requested_sublist σ).subset ?_)
  exact h.started.mem_iff.1 (List.mem_append_left _ hid)

/-- An `EXITED` message is about a thread that has a call. -/
theorem Answered.exits_le (h : Answered σ) (hp : Placed mainNode σ) {m : ℕ × ℕ}
    (hm : m ∈ σ.exits) : m.2 ≤ σ.calls.length := by
  refine hp.le_length ((requested_sublist σ).subset (hp.account.mem_iff.1 ?_))
  exact List.mem_append_right _ (List.mem_map_of_mem (h.exits m hm))

theorem initial_answered (h : σ.Initial) : Answered σ := by
  obtain ⟨handles, rfl⟩ := h
  exact ⟨.nil, .nil, fun _ h => absurd h List.not_mem_nil, fun _ h => absurd h List.not_mem_nil⟩

/-- One step keeps the account of the replies. -/
theorem Answered.step (h : Answered σ) (hp : Placed mainNode σ)
    (ha : σ.step mainNode a = some σ') : Answered σ' := by
  have hst := h.started
  cases step_rule ha with
  | create call hc =>
    rw [requested, hc] at hst
    exact ⟨hst, h.once, h.reply, h.exits⟩
  | @register call id victim hc =>
    rw [requested, hc] at hst
    obtain ⟨l, r, hl⟩ := addThread_eq mainNode σ victim id
    rw [hl]
    refine ⟨?_, h.once, h.reply, h.exits⟩
    rw [requested, List.map_append, List.map_singleton, List.dropLast_concat]
    exact hst
  | @send call id victim hc =>
    have hlast := hp.dropLast_append hc
    rw [requested, hc] at hst
    refine ⟨?_, h.once, h.reply, h.exits⟩
    rw [requested, ← hlast, List.map_append, ← List.append_assoc]
    exact hst.append_right _
  | @request k q hq =>
    have hnew := h.not_started hp (List.mem_of_getElem? hq)
    refine ⟨?_, ?_, ?_, h.exits⟩
    · refine List.Perm.trans ?_ hst
      rw [handleRequest, List.map_append, List.append_assoc]
      exact ((perm_eraseIdx hq).map SpawnRequest.gtid).symm.append_left _
    · rw [handleRequest, List.map_append, List.nodup_append]
      refine ⟨h.once, List.nodup_singleton _, ?_⟩
      intro id hid id' hid' he
      rw [List.map_singleton, List.mem_singleton] at hid'
      obtain ⟨r, hr, rfl⟩ := List.mem_map.1 hid
      have hid : r.gtid = q.gtid := he.trans hid'
      exact hnew (hid ▸ h.mem_started hr)
    · intro r hr
      rcases List.mem_append.1 hr with hr | hr
      · exact ⟨List.mem_append_left _ (h.reply r hr).1, (h.reply r hr).2⟩
      · rw [List.mem_singleton.1 hr]
        exact ⟨List.mem_append_right _ (List.mem_singleton_self _), Nat.succ_ne_zero _⟩
  | @reply k q hq =>
    obtain ⟨l, r, b, hm⟩ := modifyThread_eq σ (σ.handles q.buf.newThread) (setLtid q.ltid)
    rw [handleReply, hm]
    exact ⟨hst, h.once.sublist ((List.eraseIdx_sublist ..).map _),
      fun r hr => h.reply r (List.mem_of_mem_eraseIdx hr), h.exits⟩
  | @job k j hj =>
    rw [Spawn.stepJob]
    cases j.pc with
    | test => exact ⟨hst, h.once, h.reply, h.exits⟩
    | resolve => exact ⟨hst, h.once, h.reply, h.exits⟩
    | call => exact ⟨hst, h.once, h.reply, h.exits⟩
    | exit =>
      refine ⟨hst, h.once, h.reply, fun m hm => ?_⟩
      rcases List.mem_append.1 hm with hm | hm
      · exact List.mem_append_left _ (h.exits m hm)
      · exact List.mem_append_right _ hm
  | @exited k m hm =>
    obtain ⟨l, r, b, he⟩ := modifyThread_eq σ m.2 fun t => { t with state := .EXITED }
    rw [handleExited, he]
    exact ⟨hst, h.once, h.reply, fun m hm => h.exits m (List.mem_of_mem_eraseIdx hm)⟩

/-! ## Counters -/

/-- What `int` counters count: the threads of `gtid`, and on each node some of those started. -/
structure Counted (σ : Spawn find) : Prop where
  gtid : σ.calls.length < σ.gtid ∧ σ.gtid < 2 ^ 31
  ltid : ∀ node, σ.currentLTID node ≤ σ.started.length

theorem initial_counted (h : σ.Initial) : Counted σ := by
  obtain ⟨handles, rfl⟩ := h
  exact ⟨⟨Nat.one_pos, show 1 < 2 ^ 31 by omega⟩, fun _ => Nat.le_refl 0⟩

/-- One step counts one thread at most. -/
theorem Counted.step (h : Counted σ) (hp : Placed mainNode σ)
    (ha : σ.step mainNode a = some σ') : Counted σ' := by
  have hg := h.gtid
  cases step_rule ha with
  | create call hc hlt => exact ⟨⟨Nat.lt_succ_of_lt hg.1, hlt⟩, h.ltid⟩
  | @register call id victim hc =>
    have hcr := hp.creating
    rw [hc] at hcr
    obtain ⟨l, r, hl⟩ := addThread_eq mainNode σ victim id
    rw [hl]
    refine ⟨⟨?_, hg.2⟩, h.ltid⟩
    show (σ.calls ++ [_]).length < σ.gtid
    rw [List.length_append, List.length_singleton]
    omega
  | send => exact ⟨hg, h.ltid⟩
  | @request k q hq =>
    refine ⟨hg, fun node => ?_⟩
    show Function.update σ.currentLTID q.victim (σ.currentLTID q.victim + 1) node ≤
      (σ.started ++ [_]).length
    rw [List.length_append, List.length_singleton]
    rcases eq_or_ne node q.victim with rfl | hne
    · rw [Function.update_self]
      exact Nat.succ_le_succ (h.ltid _)
    · rw [Function.update_of_ne hne]
      exact Nat.le_succ_of_le (h.ltid node)
  | @reply k q hq =>
    obtain ⟨l, r, b, hm⟩ := modifyThread_eq σ (σ.handles q.buf.newThread) (setLtid q.ltid)
    rw [handleReply, hm]
    exact ⟨hg, h.ltid⟩
  | @job k j hj =>
    obtain ⟨p, jobs, ex, exits, sent, he⟩ := stepJob_eq σ k j
    rw [he]
    exact ⟨hg, h.ltid⟩
  | @exited k m hm =>
    obtain ⟨l, r, b, he⟩ := modifyThread_eq σ m.2 fun t => { t with state := .EXITED }
    rw [handleExited, he]
    exact ⟨hg, h.ltid⟩

/-- No thread is started that has no call. -/
theorem Answered.length_started (h : Answered σ) : σ.started.length ≤ σ.calls.length := by
  have hlen := h.started.length_eq
  have hsub := (requested_sublist σ).length_le
  rw [List.length_append, List.length_map, List.length_map] at hlen
  rw [List.length_map] at hsub
  omega

/-- `currentLTID` fits an `int`, as `gtid` does: it need not be kept from overflowing. -/
theorem reach_counters {P : Spawn find → SpawnAct find → Spawn find → Prop}
    (h : (lts mainNode).Reach P σ) (node : ℕ) : σ.gtid < 2 ^ 31 ∧ σ.currentLTID node < 2 ^ 31 := by
  have hcount : Answered σ ∧ Counted σ := by
    refine h.induct (I := fun s => Answered s ∧ Counted s) ?_ ?_
    · exact fun s hs => ⟨initial_answered hs, initial_counted hs⟩
    · intro s b s' hs ih hb _
      have hp := (reach_placed hs).1
      exact ⟨ih.1.step hp hb, ih.2.step hp hb⟩
  have hlen := hcount.1.length_started
  have hltid := hcount.2.ltid node
  have hgtid := hcount.2.gtid
  omega

/-! ## Records of the threads -/

/-- Every thread has a record in one map, `EXITED` only after its message; the record has the number
of the thread on its node only after the reply. -/
structure Recorded (σ : Spawn find) : Prop where
  fault : σ.fault = false
  oneMap : ∀ id, (σ.localThreads id).isSome = true → (σ.remoteThreads id).isSome = false
  registered : ∀ id, (σ.record id).isSome = true ↔ id ≤ σ.calls.length
  state : ∀ id t, σ.record id = some t →
    t.state = .RUNNABLE ∨ t.state = .RUNNING ∨ t.state = .EXITED ∧ id ∈ σ.exited
  ltid : ∀ id t, σ.record id = some t → t.ltid ≠ 0 →
    id ∈ σ.started.map Prod.fst ∧ id ∉ σ.replies.map SpawnReply.gtid

theorem initial_recorded (h : σ.Initial) : Recorded σ := by
  obtain ⟨handles, rfl⟩ := h
  have hrec : ∀ id t, (if id = 0 then some (⟨0, .RUNNING⟩ : ApplicationThread) else none) = some t →
      t = ⟨0, .RUNNING⟩ := fun id t ht => by
    split at ht
    · exact (Option.some.inj ht).symm
    · cases ht
  refine ⟨rfl, fun _ _ => rfl, fun id => ?_, fun id t ht => ?_, fun id t ht h0 => ?_⟩
  · show (Option.or (if id = 0 then some _ else none : Option ApplicationThread) none).isSome =
      true ↔ id ≤ 0
    rw [Option.or_none, Nat.le_zero]
    split
    · simp [*]
    · simp [*]
  · simp only [record, start, Option.or_none] at ht
    rw [hrec id t ht]
    exact .inr (.inl rfl)
  · simp only [record, start, Option.or_none] at ht
    rw [hrec id t ht] at h0
    exact absurd rfl h0

/-- What is known of the records is kept when only other things change. -/
theorem Recorded.frame (h : Recorded σ) (hl : σ'.localThreads = σ.localThreads)
    (hr : σ'.remoteThreads = σ.remoteThreads) (hf : σ'.fault = σ.fault) (hc : σ'.calls = σ.calls)
    (he : σ'.exited = σ.exited)
    (hltid : ∀ id, id ∈ σ.started.map Prod.fst ∧ id ∉ σ.replies.map SpawnReply.gtid →
      id ∈ σ'.started.map Prod.fst ∧ id ∉ σ'.replies.map SpawnReply.gtid) : Recorded σ' := by
  have hrec := record_congr hl hr
  refine ⟨hf ▸ h.fault, ?_, ?_, ?_, ?_⟩
  · rw [hl, hr]
    exact h.oneMap
  · rw [hrec, hc]
    exact h.registered
  · rw [hrec, he]
    exact h.state
  · rw [hrec]
    exact fun id t ht h0 => hltid id (h.ltid id t ht h0)

/-- A handler that finds its record keeps what is known of the records if it leaves the record in a
state it can have. -/
theorem Recorded.modifyThread (h : Recorded σ) (ht : σ.record id = some t)
    (hl : σ'.localThreads = (σ.modifyThread id f).localThreads)
    (hr : σ'.remoteThreads = (σ.modifyThread id f).remoteThreads)
    (hf : σ'.fault = (σ.modifyThread id f).fault) (hc : σ'.calls = σ.calls)
    (he : ∀ i ∈ σ.exited, i ∈ σ'.exited)
    (hs : (f t).state = .RUNNABLE ∨ (f t).state = .RUNNING ∨
      (f t).state = .EXITED ∧ id ∈ σ'.exited)
    (hid : (f t).ltid ≠ 0 → id ∈ σ'.started.map Prod.fst ∧ id ∉ σ'.replies.map SpawnReply.gtid)
    (hltid : ∀ i, i ∈ σ.started.map Prod.fst ∧ i ∉ σ.replies.map SpawnReply.gtid →
      i ∈ σ'.started.map Prod.fst ∧ i ∉ σ'.replies.map SpawnReply.gtid) : Recorded σ' := by
  have hrec := record_congr hl hr
  have hcase : ∀ i u, σ'.record i = some u → i = id ∧ u = f t ∨ σ.record i = some u := by
    intro i u hu
    rw [hrec] at hu
    rcases eq_or_ne i id with rfl | hi
    · rw [record_modifyThread ht] at hu
      exact .inl ⟨rfl, (Option.some.inj hu).symm⟩
    · rw [record_modifyThread_ne hi] at hu
      exact .inr hu
  refine ⟨?_, ?_, ?_, ?_, ?_⟩
  · rw [hf, modifyThread_fault ht]
    exact h.fault
  · intro i
    rw [hl, hr, (isSome_modifyThread i).1, (isSome_modifyThread i).2]
    exact h.oneMap i
  · intro i
    rw [hrec, record, Option.isSome_or, (isSome_modifyThread i).1, (isSome_modifyThread i).2,
      ← Option.isSome_or, hc]
    exact h.registered i
  · intro i u hu
    rcases hcase i u hu with ⟨rfl, rfl⟩ | hu
    · exact hs
    · rcases h.state i u hu with h1 | h1 | ⟨h1, h2⟩
      · exact .inl h1
      · exact .inr (.inl h1)
      · exact .inr (.inr ⟨h1, he i h2⟩)
  · intro i u hu h0
    rcases hcase i u hu with ⟨rfl, rfl⟩ | hu
    · exact hid h0
    · exact hltid i (h.ltid i u hu h0)

/-- The record of a new thread is made. -/
theorem Recorded.register (h : Recorded σ) {call : CreateCall find} {victim : ℕ}
    (hid : id = σ.calls.length + 1)
    (hl : σ'.localThreads = (σ.addThread mainNode victim id).localThreads)
    (hr : σ'.remoteThreads = (σ.addThread mainNode victim id).remoteThreads)
    (hf : σ'.fault = σ.fault) (hc : σ'.calls = σ.calls ++ [⟨id, call, victim⟩])
    (he : σ'.exited = σ.exited) (hst : σ'.started = σ.started) (hre : σ'.replies = σ.replies) :
    Recorded σ' := by
  have hnone : σ.record id = none := by
    rw [← Option.not_isSome_iff_eq_none, h.registered]
    omega
  have hrec := record_congr hl hr
  have hcase : ∀ i u, σ'.record i = some u → i = id ∧ u = ⟨0, .RUNNABLE⟩ ∨ σ.record i = some u := by
    intro i u hu
    rw [hrec] at hu
    rcases eq_or_ne i id with rfl | hi
    · rw [record_addThread hnone] at hu
      exact .inl ⟨rfl, (Option.some.inj hu).symm⟩
    · rw [record_addThread_ne hi] at hu
      exact .inr hu
  refine ⟨hf ▸ h.fault, ?_, ?_, ?_, ?_⟩
  · intro i hi
    rw [record, Option.or_eq_none_iff] at hnone
    rw [hl] at hi
    rw [hr]
    unfold addThread at hi ⊢
    split at hi
    · rw [if_pos ‹_›]
      rcases eq_or_ne i id with rfl | hne
      · exact Option.isSome_eq_false_iff.2 (Option.isNone_iff_eq_none.2 hnone.2)
      · exact h.oneMap i (by simpa only [Function.update_of_ne hne] using hi)
    · rw [if_neg ‹_›]
      rcases eq_or_ne i id with rfl | hne
      · rw [hnone.1] at hi
        cases hi
      · simpa only [Function.update_of_ne hne] using h.oneMap i hi
  · intro i
    rw [hrec, hc, List.length_append, List.length_singleton]
    rcases eq_or_ne i id with rfl | hne
    · rw [record_addThread hnone]
      simp [hid]
    · rw [record_addThread_ne hne, h.registered]
      omega
  · intro i u hu
    rw [he]
    rcases hcase i u hu with ⟨rfl, rfl⟩ | hu
    · exact .inl rfl
    · exact h.state i u hu
  · intro i u hu h0
    rw [hst, hre]
    rcases hcase i u hu with ⟨rfl, rfl⟩ | hu
    · exact absurd rfl h0
    · exact h.ltid i u hu h0

/-- What a reply leaves a record in. -/
theorem setLtid_state {ltid : ℕ} {P : Prop}
    (h : t.state = .RUNNABLE ∨ t.state = .RUNNING ∨ t.state = .EXITED ∧ P) :
    (setLtid ltid t).state = .RUNNABLE ∨ (setLtid ltid t).state = .RUNNING ∨
      (setLtid ltid t).state = .EXITED ∧ P := by
  rw [setLtid]
  rcases h with h | h | h
  · simp [h]
  · simp [h]
  · simp [h.1, h.2]

/-- One step keeps the records, when a reply finds the number of its thread. -/
theorem Recorded.step (h : Recorded σ) (hp : Placed mainNode σ) (hans : Answered σ)
    (ha : σ.step mainNode a = some σ') (hok : HandleKept σ a σ') : Recorded σ' := by
  cases step_rule ha with
  | create call => exact h.frame rfl rfl rfl rfl rfl fun _ hid => hid
  | @register call id victim hc =>
    have hcr := hp.creating
    rw [hc] at hcr
    have hf : (σ.addThread mainNode victim id).fault = σ.fault ∧
        (σ.addThread mainNode victim id).exited = σ.exited ∧
        (σ.addThread mainNode victim id).started = σ.started ∧
        (σ.addThread mainNode victim id).replies = σ.replies := by
      obtain ⟨l, r, hl⟩ := addThread_eq mainNode σ victim id
      rw [hl]
      exact ⟨rfl, rfl, rfl, rfl⟩
    exact h.register hcr.1 rfl rfl hf.1 rfl hf.2.1 hf.2.2.1 hf.2.2.2
  | send => exact h.frame rfl rfl rfl rfl rfl fun _ hid => hid
  | @request k q hq =>
    have hnew := hans.not_started hp (List.mem_of_getElem? hq)
    refine h.frame rfl rfl rfl rfl rfl fun id hid => ?_
    rw [handleRequest, List.map_append, List.map_append]
    refine ⟨List.mem_append_left _ hid.1, fun hm => ?_⟩
    rcases List.mem_append.1 hm with hm | hm
    · exact hid.2 hm
    · have he : id = q.gtid := List.mem_singleton.1 hm
      exact hnew (he ▸ hid.1)
  | @reply k q hq =>
    have hst := hans.mem_started (List.mem_of_getElem? hq)
    obtain ⟨t, ht⟩ := Option.isSome_iff_exists.1 ((h.registered _).2 (hans.started_le hp hst))
    obtain ⟨l, r, b, hm⟩ := modifyThread_eq σ q.gtid (setLtid q.ltid)
    rw [handleReply, hok q hq]
    refine h.modifyThread ht rfl rfl rfl (by rw [hm]) (fun i hi => by rw [hm]; exact hi) ?_ ?_ ?_
    · rw [hm]
      exact setLtid_state (h.state _ t ht)
    · rw [hm]
      refine fun _ => ⟨hst, fun hmem => ?_⟩
      have hnd := (((perm_eraseIdx hq).map SpawnReply.gtid).nodup_iff.1 hans.once)
      exact (List.nodup_cons.1 hnd).1 hmem
    · rw [hm]
      exact fun i hi => ⟨hi.1, fun hmem => hi.2 (((List.eraseIdx_sublist ..).map _).subset hmem)⟩
  | @job k j hj =>
    obtain ⟨p, jobs, ex, exits, sent, he⟩ := stepJob_eq σ k j
    rw [he]
    exact h.frame rfl rfl rfl rfl rfl fun _ hid => hid
  | @exited k m hmk =>
    have hle := hans.exits_le hp (List.mem_of_getElem? hmk)
    obtain ⟨t, ht⟩ := Option.isSome_iff_exists.1 ((h.registered _).2 hle)
    obtain ⟨l, r, b, hm⟩ := modifyThread_eq σ m.2 fun t => { t with state := .EXITED }
    rw [handleExited]
    refine h.modifyThread ht rfl rfl rfl (by rw [hm]) ?_ ?_ ?_ ?_
    · exact fun i hi => List.mem_append_left _ hi
    · exact .inr (.inr ⟨rfl, List.mem_append_right _ (List.mem_singleton_self _)⟩)
    · rw [hm]
      exact h.ltid _ t ht
    · rw [hm]
      exact fun i hi => hi

/-- The records and the replies as a run leaves them. -/
theorem reach_recorded (h : (lts mainNode).Reach HandleKept σ) : Answered σ ∧ Recorded σ := by
  refine h.induct (I := fun s => Answered s ∧ Recorded s) ?_ ?_
  · exact fun s hs => ⟨initial_answered hs, initial_recorded hs⟩
  · intro s b s' hs ih hb hok
    have hp := (reach_placed hs).1
    exact ⟨ih.1.step hp hb, ih.2.step hp ih.1 hb hok⟩

/-! ## Steps of the records -/

/-- A reply that finds another number leaves the record of its thread as it is. -/
theorem OwnStep.handleKept (h : Recorded σ) (hans : Answered σ)
    (ha : σ.step mainNode a = some σ') (hs : OwnStep σ a σ') : HandleKept σ a σ' := by
  cases a with
  | reply k =>
    intro r hr
    obtain ⟨q, hq, rfl⟩ := Option.map_eq_some_iff.1 ha
    obtain rfl : q = r := Option.some.inj (hq.symm.trans hr)
    obtain ⟨-, -, t, ht, hltid⟩ := hs.reply k q rfl hq
    by_contra hne
    have hrec : σ.record q.gtid = some t := by
      rw [← record_modifyThread_ne (Ne.symm hne), ← ht]
      rfl
    have hmem := List.mem_of_getElem? hq
    refine (h.ltid _ t hrec ?_).2 (List.mem_map_of_mem hmem)
    rw [hltid]
    exact (hans.reply q hmem).2
  | create | register | send | request | job | exited => trivial

theorem moves_refl (h : ∀ id, σ'.record id = σ.record id) (id : ℕ) (t : ApplicationThread)
    (ht : σ.record id = some t) : ∃ t', σ'.record id = some t' ∧ Moves t.state t'.state :=
  ⟨t, by rw [h, ht], .inl rfl⟩

/-- A handler that finds its record moves no other. -/
theorem moves_modifyThread (hrec : σ'.record = (σ.modifyThread id f).record)
    (hf : ∀ t, σ.record id = some t → Moves t.state (f t).state) (i : ℕ) (t : ApplicationThread)
    (ht : σ.record i = some t) : ∃ t', σ'.record i = some t' ∧ Moves t.state t'.state := by
  rw [hrec]
  rcases eq_or_ne i id with rfl | hi
  · exact ⟨f t, record_modifyThread ht, hf t ht⟩
  · exact ⟨t, by rw [record_modifyThread_ne hi, ht], .inl rfl⟩

/-- A reply moves only threads that can run. -/
theorem moves_setLtid (ltid : ℕ) (t : ApplicationThread) :
    Moves t.state (setLtid ltid t).state := by
  rw [setLtid]
  dsimp only
  split
  · exact .inr (.inl ⟨‹_›, rfl⟩)
  · exact .inl rfl

/-- No step moves a record backwards. -/
theorem moves_step (h : Recorded σ) (hp : Placed mainNode σ)
    (ha : σ.step mainNode a = some σ') (id : ℕ) (t : ApplicationThread)
    (ht : σ.record id = some t) : ∃ t', σ'.record id = some t' ∧ Moves t.state t'.state := by
  cases step_rule ha with
  | create call => exact moves_refl (fun _ => rfl) id t ht
  | @register call i victim hc =>
    have hcr := hp.creating
    rw [hc] at hcr
    have hle := (h.registered id).1 (Option.isSome_iff_exists.2 ⟨t, ht⟩)
    refine ⟨t, ?_, .inl rfl⟩
    rw [← ht]
    exact record_addThread_ne (by omega)
  | send => exact moves_refl (fun _ => rfl) id t ht
  | @request k q hq => exact moves_refl (fun _ => rfl) id t ht
  | @reply k q hq =>
    exact moves_modifyThread (record_congr rfl rfl) (fun u _ => moves_setLtid _ u) id t ht
  | @job k j hj =>
    obtain ⟨p, jobs, ex, exits, sent, he⟩ := stepJob_eq σ k j
    rw [he]
    exact moves_refl (fun _ => rfl) id t ht
  | @exited k m hm =>
    refine moves_modifyThread (record_congr rfl rfl) (fun u hu => ?_) id t ht
    rcases h.state _ u hu with h1 | h1 | ⟨h1, -⟩
    · exact .inr (.inr ⟨.inl h1, rfl⟩)
    · exact .inr (.inr ⟨.inr h1, rfl⟩)
    · exact .inl h1.symm

/-- A reply that finds the number of its thread changes its record alone. -/
theorem HandleKept.ownStep (h : Recorded σ) (hp : Placed mainNode σ) (hans : Answered σ)
    (ha : σ.step mainNode a = some σ') (hok : HandleKept σ a σ') : OwnStep σ a σ' := by
  refine ⟨?_, fun id t => moves_step h hp ha id t⟩
  rintro k r rfl hr
  obtain ⟨q, hq, rfl⟩ := Option.map_eq_some_iff.1 ha
  obtain rfl : q = r := Option.some.inj (hq.symm.trans hr)
  have hmem := List.mem_of_getElem? hq
  obtain ⟨t, ht⟩ := Option.isSome_iff_exists.1
    ((h.registered _).2 (hans.started_le hp (hans.mem_started hmem)))
  have hrec : ({ σ.handleReply q with replies := σ.replies.eraseIdx k } : Spawn find).record =
      (σ.modifyThread q.gtid (setLtid q.ltid)).record := by
    rw [handleReply, hok q hq]
    exact record_congr rfl rfl
  refine ⟨fun id hid => ?_, (hans.reply q hmem).1, setLtid q.ltid t, ?_, rfl⟩
  · rw [hrec, record_modifyThread_ne hid]
  · rw [hrec, record_modifyThread ht]

/-! ## Main result -/

/-- **Thread records follow their threads.** As long as every reply finds the number of its thread
in the handle variable, the records are those of their threads; and a step does to them what it
should exactly if it is not a reply that finds another number. -/
theorem reach_ownRecord (h : (lts mainNode).Reach HandleKept σ) : OwnRecord σ ∧
    ∀ a σ', σ.step mainNode a = some σ' → (OwnStep σ a σ' ↔ HandleKept σ a σ') := by
  have hp := (reach_placed h).1
  obtain ⟨hans, hrec⟩ := reach_recorded h
  have hsome : ∀ c ∈ σ.calls, (σ.record c.gtid).isSome = true := fun c hc =>
    (hrec.registered _).2 (hp.le_length (List.mem_map_of_mem hc))
  refine ⟨⟨hrec.fault, ?_, ?_, ?_⟩, fun a σ' ha => ⟨fun hs => ?_, fun hok => ?_⟩⟩
  · intro c hc
    have hone := hrec.oneMap c.gtid
    have hs := hsome c hc
    rw [record, Option.isSome_or] at hs
    cases hl : (σ.localThreads c.gtid).isSome with
    | true => rw [hone hl]; exact Bool.noConfusion
    | false =>
      rw [hl, Bool.false_or] at hs
      rw [hs]
      exact Bool.noConfusion
  · have hnd := hans.started.nodup_iff.2 hp.nodup_requested
    exact hnd.sublist (List.sublist_append_left ..)
  · intro c hc hj
    obtain ⟨t, ht⟩ := Option.isSome_iff_exists.1 (hsome c hc)
    have hex : t.state = .EXITED := by
      rw [joinReturns, Bool.and_eq_true] at hj
      rw [record] at ht
      cases hl : σ.localThreads c.gtid with
      | some u =>
        rw [hl] at ht hj
        rw [← Option.some.inj ht]
        exact eq_of_beq hj.1
      | none =>
        rw [hl, Option.none_or] at ht
        rw [ht] at hj
        exact eq_of_beq hj.2
    rcases hrec.state _ t ht with h1 | h1 | ⟨-, h1⟩
    · rw [hex] at h1
      cases h1
    · rw [hex] at h1
      cases h1
    · exact h1
  · exact hs.handleKept hrec hans ha
  · exact hok.ownStep hrec hp hans ha

end

/-! ## Runs -/

section runs

instance (σ : Spawn find) (a : SpawnAct find) (σ' : Spawn find) :
    Decidable (HandleKept σ a σ') :=
  match a with
  | .reply k => decidable_of_iff
      ((σ.replies[k]?).all fun r => σ.handles r.buf.newThread == r.gtid) (by
        rw [HandleKept, Option.all_eq_true]
        exact ⟨fun h r hr => eq_of_beq (h r hr), fun h r hr => beq_iff_eq.2 (h r hr)⟩)
  | .create _ | .register _ | .send | .request _ | .job _ | .exited _ => isTrue trivial

/-- A thread is created on node 1 and its request handled, and another is created. -/
def twoReplies (c c' : CreateCall names) : List (SpawnAct names) :=
  [.create c, .register 1, .send, .request 0, .create c', .register 1, .send]

/-- **Without the condition it fails.** Two threads are created with one handle variable before the
first reply arrives, which changes the record of the second thread. -/
theorem ownRecord_fails : ∃ (σ σ' : Spawn names) (a : SpawnAct names),
    (lts 0).Reach (fun _ _ _ => True) σ ∧ σ.step 0 a = some σ' ∧ ¬ OwnStep σ a σ' := by
  have hrun : ((lts 0).run (start fun _ => 0) (twoReplies (callOf 97 (by decide) 5)
      (callOf 98 (by decide) 6))).map (fun σ => (σ.replies.map fun r => (r.gtid, r.ltid),
        (σ.step 0 (.reply 0)).map fun σ' => (σ'.record 1, σ'.record 2))) =
      some ([(1, 1)], some (some ⟨0, .RUNNABLE⟩, some ⟨1, .RUNNING⟩)) := by
    decide +kernel
  obtain ⟨σ, h, ho⟩ := Lts.Reach.of_run (start_initial 0) hrun
  obtain ⟨hr, hs⟩ := Prod.mk.inj ho
  obtain ⟨σ', ha, hs⟩ := Option.map_eq_some_iff.1 hs
  obtain ⟨r, rest, hr, hrest, -⟩ := List.map_eq_cons_iff.1 hr
  refine ⟨σ, σ', _, h, ha, fun hown => ?_⟩
  obtain ⟨-, -, t, ht, hltid⟩ := hown.reply 0 r rfl (by rw [hr]; rfl)
  rw [(Prod.mk.inj hrest).1, (Prod.mk.inj hs).1] at ht
  rw [← Option.some.inj ht, (Prod.mk.inj hrest).2] at hltid
  cases hltid

/-- Two threads with one handle variable, the second created after the first reply. -/
theorem ownRecord_two : ∃ σ : Spawn names, (lts 0).Reach HandleKept σ ∧
    (σ.record 1, σ.record 2) = (some ⟨1, .RUNNING⟩, some ⟨2, .RUNNING⟩) ∧ OwnRecord σ ∧
    ∀ a σ', σ.step 0 a = some σ' → (OwnStep σ a σ' ↔ HandleKept σ a σ') := by
  have hrun : ((lts 0).runIf HandleKept (start fun _ => 0)
      [.create (callOf 97 (by decide) 5), .register 1, .send, .request 0, .reply 0,
        .create (callOf 98 (by decide) 6), .register 1, .send, .request 0, .reply 0]).map
      (fun σ => (σ.record 1, σ.record 2)) =
      some (some ⟨1, .RUNNING⟩, some ⟨2, .RUNNING⟩) := by
    decide +kernel
  obtain ⟨σ, h, ho⟩ := Lts.Reach.of_runIf (start_initial 0) hrun
  exact ⟨σ, h, ho, reach_ownRecord h⟩

end runs

end Spawn

end DstmP1
