import DstmP1.Lib.Messages
import DstmP1.Spawn

/-!
# Every thread runs its routine

Each call of `dstm_pthread_create` leads to one execution on the node picked for it and one
`EXITED` message, in every order of handlers and jobs; `Placed` keeps the account of where each
thread is. What is executed is whatever `pfn_c` of the node points to, which is set by the first
job that finds it empty and never looked up again. `reach_ownRoutine` says that this is the
routine of the call in every run in which the calls placed on a node all name the same routine.
-/

namespace DstmP1

variable {F : Type} {find : List Byte → Option F}

namespace Spawn

/-! ## What is claimed -/

/-- The steps that a job still takes. -/
def stepsLeft : JobPc → ℕ
  | .test => 4
  | .resolve => 3
  | .call => 2
  | .exit => 1

/-- The steps that the threads under way still take. -/
def work (σ : Spawn find) : ℕ := 5 * σ.requests.length + (σ.jobs.map fun j => stepsLeft j.pc).sum

/-- Every execution is that of a call, on the node picked for it, of the function of the name in
the call and with the argument of the call; no call has two; an `EXITED` message is sent to the
main node once for each, after the execution. Every request and every job can be taken on at once,
which leaves less to do, and when nothing is left every call has had both. -/
structure OwnRoutine (mainNode : ℕ) (σ : Spawn find) : Prop where
  executed : ∀ e ∈ σ.executed, ∃ c ∈ σ.calls, c.gtid = e.gtid ∧ c.victim = e.node ∧
    find c.call.routine.name = some e.fn ∧ c.call.arg = e.arg
  calls : (σ.calls.map Created.gtid).Nodup
  once : (σ.executed.map Execution.gtid).Nodup
  sent : ∀ m ∈ σ.sent, m.1 = mainNode ∧ m.2 ∈ σ.executed.map Execution.gtid
  sentOnce : (σ.sent.map Prod.snd).Nodup
  request : ∀ k < σ.requests.length, ∃ σ', σ.step mainNode (.request k) = some σ' ∧
    σ'.work < σ.work
  job : ∀ k < σ.jobs.length, ∃ σ', σ.step mainNode (.job k) = some σ' ∧ σ'.work < σ.work
  done : σ.creating = .none → σ.work = 0 → ∀ c ∈ σ.calls,
    c.gtid ∈ σ.executed.map Execution.gtid ∧ (mainNode, c.gtid) ∈ σ.sent

/-- A call that is placed on a node names the same routine as the calls placed there before. -/
def SameRoutine (σ : Spawn find) (a : SpawnAct find) (_ : Spawn find) : Prop :=
  match a, σ.creating with
  | .register victim, .numbered call _ =>
    ∀ c ∈ σ.calls, c.victim = victim → c.call.routine.name = call.routine.name
  | _, _ => True

/-! ## Where the threads are -/

/-- The threads whose requests have been sent. -/
def requested (σ : Spawn find) : List ℕ :=
  match σ.creating with
  | .registered _ _ _ => (σ.calls.map Created.gtid).dropLast
  | _ => σ.calls.map Created.gtid

/-- The job has called its routine. -/
def called (j : Job) : Bool :=
  match j.pc with
  | .exit => true
  | _ => false

/-- The request or job of a thread carries what its call says. -/
def Carries (σ : Spawn find) (node gtid : ℕ) (name : List Byte) (arg : Word) : Prop :=
  ∃ c ∈ σ.calls, c.gtid = gtid ∧ c.victim = node ∧ c.call.routine.name = name ∧ c.call.arg = arg

/-- Every thread whose request has been sent is in one place, with the routine and the argument of
its call; the routine has been called when the job is at its end or gone. -/
structure Placed (mainNode : ℕ) (σ : Spawn find) : Prop where
  gtids : σ.calls.map Created.gtid = List.range' 1 σ.calls.length
  creating : match σ.creating with
    | .none => σ.gtid = σ.calls.length + 1
    | .numbered _ id => id = σ.calls.length + 1 ∧ σ.gtid = σ.calls.length + 2
    | .registered call id victim => σ.gtid = σ.calls.length + 1 ∧
      σ.calls.getLast? = some ⟨id, call, victim⟩
  account : (σ.requests.map SpawnRequest.gtid ++ σ.jobs.map Job.gtid ++
    σ.sent.map Prod.snd).Perm σ.requested
  executed : (σ.executed.map Execution.gtid).Perm
    ((σ.jobs.filter called).map Job.gtid ++ σ.sent.map Prod.snd)
  request : ∀ r ∈ σ.requests,
    σ.Carries r.victim r.gtid (cString r.buf.startRoutine) r.buf.arg
  job : ∀ j ∈ σ.jobs, j.mainNode = mainNode ∧ σ.Carries j.node j.gtid j.func j.arg
  sent : ∀ m ∈ σ.sent, m.1 = mainNode
  execution : ∀ e ∈ σ.executed, ∃ name, σ.Carries e.node e.gtid name e.arg

/-- `pfn_c` points to the routine of a call placed on the node, and is set before it is called. -/
structure Resolved (σ : Spawn find) : Prop where
  pfn : ∀ n f, σ.pfn n = some f → ∃ c ∈ σ.calls, c.victim = n ∧
    find c.call.routine.name = some f
  set : ∀ j ∈ σ.jobs, j.pc = .call → (σ.pfn j.node).isSome = true
  execution : ∀ e ∈ σ.executed, ∃ c ∈ σ.calls, c.victim = e.node ∧
    find c.call.routine.name = some e.fn

/-! ## Steps keep the account -/

section
variable {mainNode : ℕ} {σ σ' : Spawn find} {a : SpawnAct find}

/-- A handler that changes a record changes nothing else but the fault. -/
theorem modifyThread_eq (σ : Spawn find) (id : ℕ) (f : ApplicationThread → ApplicationThread) :
    ∃ l r b,
      σ.modifyThread id f = { σ with localThreads := l, remoteThreads := r, fault := b } := by
  rw [modifyThread]
  split
  · exact ⟨_, _, _, rfl⟩
  · split
    · exact ⟨_, _, _, rfl⟩
    · exact ⟨_, _, _, rfl⟩

theorem addThread_eq (mainNode : ℕ) (σ : Spawn find) (victim id : ℕ) :
    ∃ l r, σ.addThread mainNode victim id = { σ with localThreads := l, remoteThreads := r } := by
  rw [addThread]
  split
  · exact ⟨_, _, rfl⟩
  · exact ⟨_, _, rfl⟩

theorem Placed.nodup_calls (h : Placed mainNode σ) : (σ.calls.map Created.gtid).Nodup :=
  h.gtids ▸ List.nodup_range'

/-- The number of a thread is at most that of the calls. -/
theorem Placed.le_length (h : Placed mainNode σ) {id : ℕ}
    (hid : id ∈ σ.calls.map Created.gtid) : id ≤ σ.calls.length := by
  rw [h.gtids, List.mem_range'_1] at hid
  omega

/-- The threads whose requests have been sent are those of the calls but perhaps the last. -/
theorem requested_sublist (σ : Spawn find) :
    σ.requested.Sublist (σ.calls.map Created.gtid) := by
  rw [requested]
  split
  · exact List.dropLast_sublist _
  · exact List.Sublist.refl _

theorem Placed.nodup_requested (h : Placed mainNode σ) : σ.requested.Nodup :=
  h.nodup_calls.sublist (requested_sublist σ)

/-- The thread whose record has been made is the last. -/
theorem Placed.dropLast_append (h : Placed mainNode σ) {call : CreateCall find} {id victim : ℕ}
    (hc : σ.creating = .registered call id victim) :
    (σ.calls.map Created.gtid).dropLast ++ [id] = σ.calls.map Created.gtid := by
  have hcr := h.creating
  rw [hc] at hcr
  exact List.dropLast_append_getLast? _ (by rw [List.getLast?_map, hcr.2]; rfl)

theorem initial_placed (mainNode : ℕ) (h : σ.Initial) : Placed mainNode σ := by
  obtain ⟨handles, rfl⟩ := h
  exact ⟨rfl, rfl, .nil, .nil, fun _ h => absurd h List.not_mem_nil,
    fun _ h => absurd h List.not_mem_nil, fun _ h => absurd h List.not_mem_nil,
    fun _ h => absurd h List.not_mem_nil⟩

theorem initial_resolved (h : σ.Initial) : Resolved σ := by
  obtain ⟨handles, rfl⟩ := h
  exact ⟨fun _ _ h => absurd h (Option.some_ne_none _).symm, fun _ h => absurd h List.not_mem_nil,
    fun _ h => absurd h List.not_mem_nil⟩

/-- A job that goes to another place is the same account. -/
theorem Placed.setJob (h : Placed mainNode σ) {k : ℕ} {j : Job} (hk : σ.jobs[k]? = some j)
    (pc : JobPc) (p : ℕ → Option F) {ex : List (Execution F)}
    (hex : (ex.map Execution.gtid).Perm
      (((σ.jobs.set k { j with pc := pc }).filter called).map Job.gtid ++ σ.sent.map Prod.snd))
    (he : ∀ e ∈ ex, ∃ name, σ.Carries e.node e.gtid name e.arg) :
    Placed mainNode
      { σ with pfn := p, jobs := σ.jobs.set k { j with pc := pc }, executed := ex } := by
  have hmap : ((σ.jobs.set k { j with pc := pc }).map Job.gtid).Perm (σ.jobs.map Job.gtid) :=
    ((perm_set hk _).map Job.gtid).trans ((perm_eraseIdx hk).map Job.gtid).symm
  refine ⟨h.gtids, h.creating, ?_, hex, h.request, ?_, h.sent, he⟩
  · exact ((hmap.append_left _).append_right _).trans h.account
  · intro i hi
    rcases List.mem_or_eq_of_mem_set hi with hi | rfl
    · exact h.job i hi
    · exact h.job j (List.mem_of_getElem? hk)

/-- The jobs that have called their routines, when one of them goes to another place. -/
theorem filter_called_set {k : ℕ} {j : Job} (hk : σ.jobs[k]? = some j) (pc : JobPc) :
    (((σ.jobs.set k { j with pc := pc }).filter called).map Job.gtid).Perm
      ((if called { j with pc := pc } then [j.gtid] else []) ++
        ((σ.jobs.eraseIdx k).filter called).map Job.gtid) := by
  refine (((perm_set hk { j with pc := pc }).filter _).map _).trans (List.Perm.of_eq ?_)
  rw [List.filter_cons]
  split
  · rfl
  · rfl

theorem filter_called_eraseIdx {k : ℕ} {j : Job} (hk : σ.jobs[k]? = some j) :
    ((σ.jobs.filter called).map Job.gtid).Perm
      ((if called j then [j.gtid] else []) ++
        ((σ.jobs.eraseIdx k).filter called).map Job.gtid) := by
  refine (((perm_eraseIdx hk).filter _).map _).trans (List.Perm.of_eq ?_)
  rw [List.filter_cons]
  split
  · rfl
  · rfl

/-- As long as the routine has not been called, what is executed stays as it is. -/
theorem filter_called_same {k : ℕ} {j : Job} (hk : σ.jobs[k]? = some j) (pc : JobPc)
    (hc : called { j with pc := pc } = called j) :
    ((σ.jobs.filter called).map Job.gtid).Perm
      (((σ.jobs.set k { j with pc := pc }).filter called).map Job.gtid) :=
  (filter_called_eraseIdx hk).trans ((filter_called_set hk pc).trans (by rw [hc])).symm

/-- The step of a job keeps the account. -/
theorem Placed.stepJob (h : Placed mainNode σ) (hr : Resolved σ) {k : ℕ} {j : Job}
    (hk : σ.jobs[k]? = some j) : Placed mainNode (σ.stepJob k j) := by
  have hmem := List.mem_of_getElem? hk
  rw [Spawn.stepJob]
  cases hpc : j.pc with
  | test =>
    refine h.setJob hk _ σ.pfn (h.executed.trans (List.Perm.append_right _ ?_)) h.execution
    refine filter_called_same hk _ ?_
    cases (σ.pfn j.node).isNone with
    | true => simp [called, hpc]
    | false => simp [called, hpc]
  | resolve =>
    refine h.setJob hk .call _ (h.executed.trans (List.Perm.append_right _ ?_)) h.execution
    exact filter_called_same hk _ (by simp [called, hpc])
  | call =>
    obtain ⟨f, hf⟩ := Option.isSome_iff_exists.1 (hr.set j hmem hpc)
    rw [hf]
    refine h.setJob hk .exit σ.pfn ?_ ?_
    · -- the job moves to those that have called, and its thread to what is executed
      have hset := filter_called_set hk .exit
      have hold := filter_called_eraseIdx hk
      rw [if_pos (show called { j with pc := .exit } = true from rfl)] at hset
      rw [if_neg (by simp [called, hpc]), List.nil_append] at hold
      rw [List.map_append]
      refine ((h.executed.trans (hold.append_right _)).append_right _).trans ?_
      refine List.perm_append_comm.trans ?_
      rw [← List.append_assoc]
      exact hset.symm.append_right _
    · intro e he
      rcases List.mem_append.1 he with he | he
      · exact h.execution e he
      · rw [List.mem_singleton.1 he]
        exact ⟨_, (h.job j hmem).2⟩
  | exit =>
    have hold := filter_called_eraseIdx hk
    rw [if_pos (by simp [called, hpc])] at hold
    refine ⟨h.gtids, h.creating, ?_, ?_, h.request, ?_, ?_, h.execution⟩
    · -- the thread leaves the jobs, and its message is sent
      refine List.Perm.trans ?_ h.account
      rw [List.map_append, List.append_assoc, List.append_assoc]
      refine List.Perm.append_left _ ?_
      refine List.Perm.trans ?_ (((perm_eraseIdx hk).map Job.gtid).append_right _).symm
      rw [← List.append_assoc]
      exact List.perm_append_comm
    · refine h.executed.trans ((hold.append_right _).trans ?_)
      rw [List.map_append, ← List.append_assoc]
      refine List.Perm.trans ?_ List.perm_append_comm
      rw [List.append_assoc]
      exact .rfl
    · intro i hi
      exact h.job i (List.mem_of_mem_eraseIdx hi)
    · intro m hm
      rcases List.mem_append.1 hm with hm | hm
      · exact h.sent m hm
      · rw [List.mem_singleton.1 hm]
        exact (h.job j hmem).1

/-- The step of a job that finds `pfn_c` empty sets it to the routine of its call. -/
theorem Resolved.stepJob (h : Resolved σ) (hp : Placed mainNode σ) {k : ℕ} {j : Job}
    (hk : σ.jobs[k]? = some j) : Resolved (σ.stepJob k j) := by
  have hmem := List.mem_of_getElem? hk
  rw [Spawn.stepJob]
  cases hpc : j.pc with
  | test =>
    refine ⟨h.pfn, ?_, h.execution⟩
    intro i hi hcall
    rcases List.mem_or_eq_of_mem_set hi with hi | rfl
    · exact h.set i hi hcall
    · cases hn : σ.pfn j.node with
      | none => rw [hn] at hcall; cases hcall
      | some f => rfl
  | resolve =>
    obtain ⟨-, c, hc, hgtid, hnode, hname, harg⟩ := hp.job j hmem
    obtain ⟨f, hf⟩ := Option.isSome_iff_exists.1 (hname ▸ c.call.routine.inModule)
    rw [hf]
    dsimp only
    refine ⟨?_, ?_, h.execution⟩
    · intro n g hg
      dsimp only at hg
      rcases eq_or_ne n j.node with rfl | hn
      · rw [Function.update_self] at hg
        exact ⟨c, hc, hnode, by rw [hname, hf, hg]⟩
      · rw [Function.update_of_ne hn] at hg
        exact h.pfn n g hg
    · intro i hi hcall
      show (Function.update σ.pfn j.node (some f) i.node).isSome = true
      rcases eq_or_ne i.node j.node with hn | hn
      · rw [hn, Function.update_self]
        rfl
      · rw [Function.update_of_ne hn]
        rcases List.mem_or_eq_of_mem_set hi with hi | rfl
        · exact h.set i hi hcall
        · exact absurd rfl hn
  | call =>
    refine ⟨h.pfn, ?_, ?_⟩
    · intro i hi hcall
      rcases List.mem_or_eq_of_mem_set hi with hi | rfl
      · exact h.set i hi hcall
      · cases hcall
    · intro e he
      cases hf : σ.pfn j.node with
      | none => rw [hf] at he; exact h.execution e he
      | some f =>
        rw [hf] at he
        rcases List.mem_append.1 he with he | he
        · exact h.execution e he
        · rw [List.mem_singleton.1 he]
          exact h.pfn _ f hf
  | exit =>
    refine ⟨h.pfn, ?_, h.execution⟩
    intro i hi hcall
    exact h.set i (List.mem_of_mem_eraseIdx hi) hcall

/-- What is under way depends on neither the records nor the handle variables. -/
theorem Placed.frame (h : Placed mainNode σ) {l r : ℕ → Option ApplicationThread} {b : Bool}
    {p : List SpawnReply} {x : List (ℕ × ℕ)} {y : List ℕ} :
    Placed mainNode { σ with
      localThreads := l, remoteThreads := r, fault := b, replies := p, exits := x, exited := y } :=
  ⟨h.gtids, h.creating, h.account, h.executed, h.request, h.job, h.sent, h.execution⟩

theorem Resolved.frame (h : Resolved σ) {l r : ℕ → Option ApplicationThread} {b : Bool}
    {p : List SpawnReply} {x : List (ℕ × ℕ)} {y : List ℕ} :
    Resolved { σ with
      localThreads := l, remoteThreads := r, fault := b, replies := p, exits := x, exited := y } :=
  ⟨h.pfn, h.set, h.execution⟩

/-- One step, whatever it is, keeps the account of the threads. -/
theorem Placed.step (h : Placed mainNode σ) (hr : Resolved σ)
    (ha : σ.step mainNode a = some σ') : Placed mainNode σ' := by
  have hcr := h.creating
  have hacc := h.account
  cases step_rule ha with
  | create call hc =>
    rw [hc] at hcr
    rw [requested, hc] at hacc
    exact ⟨h.gtids, ⟨hcr, by rw [hcr]⟩, hacc, h.executed, h.request, h.job, h.sent, h.execution⟩
  | @register call id victim hc =>
    rw [hc] at hcr
    rw [requested, hc] at hacc
    obtain ⟨l, r, hl⟩ := addThread_eq mainNode σ victim id
    rw [hl]
    have happend : ∀ {node gtid name arg}, σ.Carries node gtid name arg →
        ∃ c ∈ σ.calls ++ [⟨id, call, victim⟩], c.gtid = gtid ∧ c.victim = node ∧
          c.call.routine.name = name ∧ c.call.arg = arg := by
      rintro node gtid name arg ⟨c, hc, hrest⟩
      exact ⟨c, List.mem_append_left _ hc, hrest⟩
    refine ⟨?_, ?_, ?_, h.executed, ?_, ?_, h.sent, ?_⟩
    · rw [List.map_append, h.gtids, List.length_append, List.length_singleton, List.range'_concat,
        hcr.1, List.map_singleton, one_mul, Nat.add_comm]
    · exact ⟨by rw [List.length_append, hcr.2]; rfl, List.getLast?_concat ..⟩
    · rw [requested, List.map_append, List.map_singleton, List.dropLast_concat]
      exact hacc
    · exact fun q hq => happend (h.request q hq)
    · exact fun j hj => ⟨(h.job j hj).1, happend (h.job j hj).2⟩
    · exact fun e he => (h.execution e he).imp fun _ => happend
  | @send call id victim hc =>
    have hlast := h.dropLast_append hc
    rw [hc] at hcr
    rw [requested, hc] at hacc
    refine ⟨h.gtids, hcr.1, ?_, h.executed, ?_, h.job, h.sent, h.execution⟩
    · rw [requested, ← hlast, List.map_append, List.append_assoc, List.append_assoc]
      refine List.Perm.trans ?_ (hacc.append_right _)
      rw [List.append_assoc, List.append_assoc]
      refine List.Perm.append_left _ (List.perm_append_comm.trans ?_)
      exact List.Perm.of_eq (List.append_assoc ..)
    · intro q hq
      rcases List.mem_append.1 hq with hq | hq
      · exact h.request q hq
      · rw [List.mem_singleton.1 hq]
        exact ⟨_, List.mem_of_getLast? hcr.2, rfl, rfl,
          (cString_strcpy call.routine.noNul _).symm, rfl⟩
  | @request k q hq =>
    refine ⟨h.gtids, h.creating, ?_, ?_, ?_, ?_, h.sent, h.execution⟩
    · refine List.Perm.trans ?_ hacc
      rw [handleRequest, List.map_append, ← List.append_assoc]
      refine List.Perm.append_right _ ?_
      refine List.Perm.trans ?_ (((perm_eraseIdx hq).map _).append_right _).symm
      exact List.perm_append_singleton _ _
    · rw [handleRequest, List.filter_append, List.filter_singleton, called, cond_false,
        List.append_nil]
      exact h.executed
    · exact fun i hi => h.request i (List.mem_of_mem_eraseIdx hi)
    · intro j hj
      rcases List.mem_append.1 hj with hj | hj
      · exact h.job j hj
      · rw [List.mem_singleton.1 hj]
        exact ⟨rfl, h.request q (List.mem_of_getElem? hq)⟩
  | @reply k q hq =>
    obtain ⟨l, r, b, hm⟩ := modifyThread_eq σ (σ.handles q.buf.newThread) (setLtid q.ltid)
    rw [handleReply, hm]
    exact h.frame
  | @job k j hj => exact h.stepJob hr hj
  | @exited k m hm =>
    obtain ⟨l, r, b, he⟩ := modifyThread_eq σ m.2 fun t => { t with state := .EXITED }
    rw [handleExited, he]
    exact h.frame

/-- One step keeps what is known of `pfn_c`. -/
theorem Resolved.step (h : Resolved σ) (hp : Placed mainNode σ)
    (ha : σ.step mainNode a = some σ') : Resolved σ' := by
  cases step_rule ha with
  | create call => exact ⟨h.pfn, h.set, h.execution⟩
  | @register call id victim hc =>
    obtain ⟨l, r, hl⟩ := addThread_eq mainNode σ victim id
    rw [hl]
    refine ⟨fun n f hf => ?_, h.set, fun e he => ?_⟩
    · obtain ⟨c, hc, hrest⟩ := h.pfn n f hf
      exact ⟨c, List.mem_append_left _ hc, hrest⟩
    · obtain ⟨c, hc, hrest⟩ := h.execution e he
      exact ⟨c, List.mem_append_left _ hc, hrest⟩
  | send => exact ⟨h.pfn, h.set, h.execution⟩
  | @request k q hq =>
    refine ⟨h.pfn, fun j hj hcall => ?_, h.execution⟩
    rcases List.mem_append.1 hj with hj | hj
    · exact h.set j hj hcall
    · rw [List.mem_singleton.1 hj] at hcall
      cases hcall
  | @reply k q hq =>
    obtain ⟨l, r, b, hm⟩ := modifyThread_eq σ (σ.handles q.buf.newThread) (setLtid q.ltid)
    rw [handleReply, hm]
    exact h.frame
  | @job k j hj => exact h.stepJob hp hj
  | @exited k m hm =>
    obtain ⟨l, r, b, he⟩ := modifyThread_eq σ m.2 fun t => { t with state := .EXITED }
    rw [handleExited, he]
    exact h.frame

/-- The calls on a node name one routine. -/
def OneName (σ : Spawn find) : Prop :=
  ∀ c ∈ σ.calls, ∀ c' ∈ σ.calls, c.victim = c'.victim →
    c.call.routine.name = c'.call.routine.name

/-- Only the spawner adds to the calls. -/
theorem calls_step (ha : σ.step mainNode a = some σ') : σ'.calls = σ.calls ∨
    ∃ victim call id, a = .register victim ∧ σ.creating = .numbered call id ∧
      σ'.calls = σ.calls ++ [⟨id, call, victim⟩] := by
  cases step_rule ha with
  | create call => exact .inl rfl
  | @register call id victim hc => exact .inr ⟨victim, call, id, rfl, hc, rfl⟩
  | send => exact .inl rfl
  | @request k q hq => exact .inl rfl
  | @reply k q hq =>
    obtain ⟨l, r, b, hm⟩ := modifyThread_eq σ (σ.handles q.buf.newThread) (setLtid q.ltid)
    rw [handleReply, hm]
    exact .inl rfl
  | @job k j hj =>
    obtain ⟨p, jobs, ex, exits, sent, he⟩ := stepJob_eq σ k j
    rw [he]
    exact .inl rfl
  | @exited k m hm =>
    obtain ⟨l, r, b, he⟩ := modifyThread_eq σ m.2 fun t => { t with state := .EXITED }
    rw [handleExited, he]
    exact .inl rfl

theorem OneName.step (h : OneName σ) (ha : σ.step mainNode a = some σ')
    (hok : SameRoutine σ a σ') : OneName σ' := by
  rcases calls_step ha with hc | ⟨victim, call, id, rfl, hcr, hc⟩
  · rw [OneName, hc]
    exact h
  · have hsame : ∀ c ∈ σ.calls, c.victim = victim → c.call.routine.name = call.routine.name := by
      simpa only [SameRoutine, hcr] using hok
    intro c hm c' hm' hv
    rw [hc] at hm hm'
    rcases List.mem_append.1 hm with hm | hm
    · rcases List.mem_append.1 hm' with hm' | hm'
      · exact h c hm c' hm' hv
      · rw [List.mem_singleton.1 hm'] at hv ⊢
        exact hsame c hm hv
    · rw [List.mem_singleton.1 hm] at hv ⊢
      rcases List.mem_append.1 hm' with hm' | hm'
      · exact (hsame c' hm' hv.symm).symm
      · rw [List.mem_singleton.1 hm']

/-- Every run keeps the account, whatever the names. -/
theorem reach_placed {ok : Spawn find → SpawnAct find → Spawn find → Prop}
    (h : (lts mainNode).Reach ok σ) : Placed mainNode σ ∧ Resolved σ := by
  refine h.induct (I := fun s => Placed mainNode s ∧ Resolved s) ?_ ?_
  · exact fun s hs => ⟨initial_placed mainNode hs, initial_resolved hs⟩
  · exact fun s b s' _ ih hb _ => ⟨ih.1.step ih.2 hb, ih.2.step ih.1 hb⟩

theorem reach_oneName (h : (lts mainNode).Reach SameRoutine σ) : OneName σ := by
  refine h.induct ?_ ?_
  · rintro s ⟨handles, rfl⟩ c hc
    exact absurd hc List.not_mem_nil
  · exact fun s b s' _ ih hb hok => ih.step hb hok

/-! ## Every thread gets its turn -/

/-- A request that is handled becomes a job. -/
theorem work_request {k : ℕ} (hk : k < σ.requests.length) :
    ∃ σ', σ.step mainNode (.request k) = some σ' ∧ σ'.work < σ.work := by
  refine ⟨_, by rw [Spawn.step, List.getElem?_eq_getElem hk]; rfl, ?_⟩
  simp only [work, handleRequest, List.length_eraseIdx_of_lt hk, List.map_append, List.sum_append,
    List.map_singleton, List.sum_singleton, stepsLeft]
  omega

/-- A job always has a step, and has one less to take after it. -/
theorem work_job {k : ℕ} (hk : k < σ.jobs.length) :
    ∃ σ', σ.step mainNode (.job k) = some σ' ∧ σ'.work < σ.work := by
  have hj : σ.jobs[k]? = some σ.jobs[k] := List.getElem?_eq_getElem hk
  refine ⟨_, by rw [Spawn.step, hj]; rfl, ?_⟩
  generalize σ.jobs[k] = j at hj
  have hold : (σ.jobs.map fun j => stepsLeft j.pc).sum =
      stepsLeft j.pc + ((σ.jobs.eraseIdx k).map fun j => stepsLeft j.pc).sum := by
    rw [((perm_eraseIdx hj).map _).sum_eq, List.map_cons, List.sum_cons]
  have hset : ∀ pc : JobPc, ((σ.jobs.set k { j with pc := pc }).map fun j => stepsLeft j.pc).sum =
      stepsLeft pc + ((σ.jobs.eraseIdx k).map fun j => stepsLeft j.pc).sum := fun pc => by
    rw [((perm_set hj _).map _).sum_eq, List.map_cons, List.sum_cons]
  show (σ.stepJob k j).work < σ.work
  rw [Spawn.stepJob]
  cases hpc : j.pc with
  | test =>
    simp only [work, hold, hset, hpc]
    cases (σ.pfn j.node).isNone with
    | true => simp [stepsLeft]
    | false => simp [stepsLeft]
  | resolve =>
    simp only [work, hold, hset, hpc]
    simp only [stepsLeft]
    omega
  | call =>
    simp only [work, hold, hset, hpc]
    simp only [stepsLeft]
    omega
  | exit =>
    simp only [work, hold, hpc]
    simp only [stepsLeft]
    omega

/-- When no work is left, no thread is under way. -/
theorem work_eq_zero (h : σ.work = 0) : σ.requests = [] ∧ σ.jobs = [] := by
  rw [work, Nat.add_eq_zero_iff] at h
  refine ⟨List.length_eq_zero_iff.1 (by omega), List.eq_nil_iff_forall_not_mem.2 fun j hj => ?_⟩
  have h0 : stepsLeft j.pc = 0 := by
    have hle : stepsLeft j.pc ≤ (σ.jobs.map fun j => stepsLeft j.pc).sum :=
      List.single_le_sum (fun _ _ => Nat.zero_le _) _ (List.mem_map_of_mem hj)
    omega
  cases hpc : j.pc with
  | test => rw [hpc] at h0; cases h0
  | resolve => rw [hpc] at h0; cases h0
  | call => rw [hpc] at h0; cases h0
  | exit => rw [hpc] at h0; cases h0

/-! ## Main result -/

/-- **Every thread runs its routine once.** In every run in which the calls placed on a node name
one routine, each call leads to one execution of its routine with its argument on its node and one
`EXITED` message. -/
theorem reach_ownRoutine (h : (lts mainNode).Reach SameRoutine σ) : OwnRoutine mainNode σ := by
  obtain ⟨hp, hr⟩ := reach_placed h
  have hname := reach_oneName h
  have hall := hp.account.nodup_iff.2 hp.nodup_requested
  have hjobs : (σ.jobs.map Job.gtid ++ σ.sent.map Prod.snd).Nodup := by
    rw [List.append_assoc] at hall
    exact hall.sublist (List.sublist_append_right ..)
  constructor
  · intro e he
    obtain ⟨name, c, hc, hgtid, hnode, -, harg⟩ := hp.execution e he
    obtain ⟨c', hc', hnode', hfind⟩ := hr.execution e he
    refine ⟨c, hc, hgtid, hnode, ?_, harg⟩
    rw [hname c hc c' hc' (hnode.trans hnode'.symm)]
    exact hfind
  · exact hp.nodup_calls
  · refine hp.executed.nodup_iff.2 (hjobs.sublist ?_)
    exact List.Sublist.append_right (List.filter_sublist.map _) _
  · intro m hm
    refine ⟨hp.sent m hm, hp.executed.mem_iff.2 (List.mem_append_right _ ?_)⟩
    exact List.mem_map_of_mem hm
  · exact hjobs.sublist (List.sublist_append_right ..)
  · exact fun k hk => work_request hk
  · exact fun k hk => work_job hk
  · intro hc hw c hm
    obtain ⟨hreq, hjob⟩ := work_eq_zero hw
    have hacc := hp.account
    have hex := hp.executed
    rw [hreq, hjob, requested, hc] at hacc
    rw [hjob] at hex
    have hsent : c.gtid ∈ σ.sent.map Prod.snd := hacc.mem_iff.2 (List.mem_map_of_mem hm)
    refine ⟨hex.mem_iff.2 hsent, ?_⟩
    obtain ⟨m, hm, he⟩ := List.mem_map.1 hsent
    rw [← he, ← hp.sent m hm]
    exact hm

end

/-! ## Runs -/

section runs

instance (σ : Spawn find) (a : SpawnAct find) (σ' : Spawn find) :
    Decidable (SameRoutine σ a σ') := by
  unfold SameRoutine
  split <;> infer_instance

/-- A module in which a function is its name. -/
abbrev names : List Byte → Option (List Byte) := some

/-- A call for the routine whose name is `b`, with argument `arg`. -/
def callOf (b : Byte) (hb : b ≠ 0) (arg : Word) : CreateCall names :=
  ⟨0, ⟨[b], by simp, by simpa using hb.symm, rfl⟩, arg, fun _ => 0⟩

/-- Two threads on node 1: both requests are handled, then the jobs run one after the other. -/
def twoThreads (c c' : CreateCall names) : List (SpawnAct names) :=
  [.create c, .register 1, .send, .create c', .register 1, .send, .request 0, .request 0,
    .job 0, .job 0, .job 0, .job 0, .job 0, .job 0]

theorem start_initial (mainNode : ℕ) : (lts mainNode).init (start fun _ => 0 : Spawn names) :=
  ⟨_, rfl⟩

/-- The names and numbers of the calls. -/
def named (σ : Spawn names) : List (ℕ × List Byte) :=
  σ.calls.map fun c => (c.gtid, c.call.routine.name)

/-- **Without the condition it fails.** The second thread of a node executes the routine of the
first. -/
theorem ownRoutine_fails : ∃ σ : Spawn names,
    (lts 0).Reach (fun _ _ _ => True) σ ∧ ¬ OwnRoutine 0 σ := by
  have hrun : ((lts 0).run (start fun _ => 0) (twoThreads (callOf 97 (by decide) 5)
      (callOf 98 (by decide) 6))).map (fun σ => (named σ, σ.executed)) =
      some ([(1, [97]), (2, [98])], [⟨1, 1, [97], 5⟩, ⟨1, 2, [97], 6⟩]) := by
    decide +kernel
  obtain ⟨σ, h, ho⟩ := Lts.Reach.of_run (start_initial 0) hrun
  obtain ⟨hn, he⟩ := Prod.mk.inj ho
  refine ⟨σ, h, fun hown => ?_⟩
  obtain ⟨c, hc, hgtid, -, hfind, -⟩ := hown.executed ⟨1, 2, [97], 6⟩ (he ▸ by decide)
  have hmem : (c.gtid, c.call.routine.name) ∈ named σ := List.mem_map_of_mem hc
  rw [hn, hgtid, Option.some.inj hfind] at hmem
  exact absurd hmem (by decide)

/-- Two threads with one routine, and what follows for them. -/
theorem ownRoutine_two : ∃ σ : Spawn names, (lts 0).Reach SameRoutine σ ∧
    σ.executed = [⟨1, 1, [97], 5⟩, ⟨1, 2, [97], 6⟩] ∧ OwnRoutine 0 σ := by
  have hrun : ((lts 0).runIf SameRoutine (start fun _ => 0) (twoThreads (callOf 97 (by decide) 5)
      (callOf 97 (by decide) 6))).map Spawn.executed =
      some [⟨1, 1, [97], 5⟩, ⟨1, 2, [97], 6⟩] := by
    decide +kernel
  obtain ⟨σ, h, he⟩ := Lts.Reach.of_runIf (start_initial 0) hrun
  exact ⟨σ, h, he, reach_ownRoutine h⟩

end runs

end Spawn

end DstmP1
