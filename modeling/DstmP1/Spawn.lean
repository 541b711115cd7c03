import DstmP1.Lib.Lts
import DstmP1.ReadCell

/-!
# Creating threads

The main thread creates threads with `dstm_pthread_create` (`dstm_pthread.cpp`). The spawner
(`gasnet_thread_spawner.cpp`) numbers the new thread, writes the number into the caller's handle
variable, makes a record of it and sends a request to the node that the load balancer picks. The
handler there (`runChildThread`) starts a job for the thread and replies with the number the thread
has on its node; the job (`jobChild`) looks the routine up, calls it and sends an `EXITED` message.

A step is one access to shared state with what belongs to it: a handler, one of the three parts of
`spawnThread`, one of the parts of `jobChild`. Messages and jobs take their steps in any order. The
records are those of the main node; what `runChildThread` enters on other nodes is never read.
The LLVM engine is the parameter `find`, `FindFunctionNamed` and `getPointerToFunction` in one.
-/

namespace DstmP1

/-! ## Names -/

/-- A routine of the module whose name fits `__start_routine`. -/
structure Routine {F : Type} (find : List Byte → Option F) where
  name : List Byte
  fits : name.length < 30
  noNul : (0 : Byte) ∉ name
  inModule : (find name).isSome = true

/-- `strcpy`: the name and a zero over the bytes of the field. -/
def strcpy (field name : List Byte) : List Byte := name ++ 0 :: field.drop (name.length + 1)

/-- `std::string` of a zero-terminated field. -/
def cString (field : List Byte) : List Byte := field.takeWhile (· != 0)

theorem cString_strcpy {name : List Byte} (h : (0 : Byte) ∉ name) (field : List Byte) :
    cString (strcpy field name) = name := by
  rw [cString, strcpy, List.takeWhile_append_of_pos fun b hb => by
    rw [bne_iff_ne]; exact fun h0 => h (h0 ▸ hb), List.takeWhile_cons_of_neg (by simp),
    List.append_nil]

/-! ## States -/

/-- The states of a thread. -/
inductive ThreadState where
  | RUNNABLE
  | RUNNING
  | DEAD
  | EXITED
  | TERMINATED
  deriving DecidableEq

/-- `ApplicationThread`. -/
structure ApplicationThread where
  ltid : ℕ
  state : ThreadState
  deriving DecidableEq

/-- `newthread_t`: the caller's handle variable, the name and the argument. -/
structure Newthread where
  newThread : Word
  startRoutine : List Byte
  arg : Word

/-- A call of `dstm_pthread_create`; `stack` is what `__start_routine` holds before. -/
structure CreateCall {F : Type} (find : List Byte → Option F) where
  handle : Word
  routine : Routine find
  arg : Word
  stack : Fin 30 → Byte

/-- `nt` of `dstm_pthread_create`. -/
def CreateCall.newthread {F : Type} {find : List Byte → Option F} (c : CreateCall find) :
    Newthread :=
  ⟨c.handle, strcpy (List.ofFn c.stack) c.routine.name, c.arg⟩

/-- How far `spawnThread` has got: the handle variable is written; the record is made. -/
inductive Creating {F : Type} (find : List Byte → Option F) where
  | none
  | numbered (call : CreateCall find) (gtid : ℕ)
  | registered (call : CreateCall find) (gtid victim : ℕ)

/-- A message of `spawnThread`. -/
structure SpawnRequest where
  victim : ℕ
  buf : Newthread
  gtid : ℕ

/-- The reply to it. The message is `buf` and `ltid`; `gtid` says for which thread it is. -/
structure SpawnReply where
  buf : Newthread
  ltid : ℕ
  gtid : ℕ

/-- Where a job stands: it tests `pfn_c`, looks its routine up, calls, or is done. -/
inductive JobPc where
  | test
  | resolve
  | call
  | exit

/-- `thread_arg_t`, the node the job runs on, and where it stands. -/
structure Job where
  node : ℕ
  mainNode : ℕ
  gtid : ℕ
  func : List Byte
  arg : Word
  pc : JobPc

/-- A call whose record has been made: the number of the thread and the node picked for it. -/
structure Created {F : Type} (find : List Byte → Option F) where
  gtid : ℕ
  call : CreateCall find
  victim : ℕ

/-- A routine has been called by the job of thread `gtid`. -/
structure Execution (F : Type) where
  node : ℕ
  gtid : ℕ
  fn : F
  arg : Word
  deriving DecidableEq

structure Spawn {F : Type} (find : List Byte → Option F) where
  /-- `gtid` of the spawner, an `int`: `create` keeps it below `2 ^ 31`. -/
  gtid : ℕ
  /-- The handle variables. -/
  handles : Word → ℕ
  creating : Creating find
  localThreads : ℕ → Option ApplicationThread
  remoteThreads : ℕ → Option ApplicationThread
  requests : List SpawnRequest
  replies : List SpawnReply
  currentLTID : ℕ → ℕ
  /-- `pfn_c` of each node. -/
  pfn : ℕ → Option F
  jobs : List Job
  /-- The `EXITED` messages under way: node and thread. -/
  exits : List (ℕ × ℕ)
  /-- A handler has used a record that does not exist. -/
  fault : Bool
  /-- The calls whose records have been made. -/
  calls : List (Created find)
  /-- The threads started, with the number each has on its node. -/
  started : List (ℕ × ℕ)
  executed : List (Execution F)
  /-- The `EXITED` messages that have been sent, and those that have been handled. -/
  sent : List (ℕ × ℕ)
  exited : List ℕ

inductive SpawnAct {F : Type} (find : List Byte → Option F) where
  /-- `dstm_pthread_create` is called: the thread gets its number. -/
  | create (call : CreateCall find)
  /-- The load balancer picks `victim`, and the record is made. -/
  | register (victim : ℕ)
  | send
  /-- `spawnthread_medhandler` handles the `k`-th request. -/
  | request (k : ℕ)
  /-- `spawnthread_succ_medhandler` handles the `k`-th reply. -/
  | reply (k : ℕ)
  /-- The `k`-th job takes a step. -/
  | job (k : ℕ)
  /-- `threadexited_shrthandler` handles the `k`-th `EXITED` message. -/
  | exited (k : ℕ)

section
variable {F : Type} {find : List Byte → Option F}

/-- The main thread runs, and nothing has been created. -/
def Spawn.start (handles : Word → ℕ) : Spawn find where
  gtid := 1
  handles := handles
  creating := .none
  localThreads := fun id => if id = 0 then some ⟨0, .RUNNING⟩ else none
  remoteThreads := fun _ => none
  requests := []
  replies := []
  currentLTID := fun _ => 0
  pfn := fun _ => none
  jobs := []
  exits := []
  fault := false
  calls := []
  started := []
  executed := []
  sent := []
  exited := []

/-- The handle variables hold anything. -/
def Spawn.Initial (σ : Spawn find) : Prop := ∃ handles, σ = .start handles

namespace Spawn

variable (mainNode : ℕ) (σ : Spawn find)

/-! ## Steps -/

/-- `addLocalThread` or `addRemoteThread`. -/
def addThread (victim id : ℕ) : Spawn find :=
  if victim = mainNode then
    { σ with localThreads := Function.update σ.localThreads id (some ⟨0, .RUNNABLE⟩) }
  else { σ with remoteThreads := Function.update σ.remoteThreads id (some ⟨0, .RUNNABLE⟩) }

/-- The record `id` is looked up, in the local map first, and changed. -/
def modifyThread (id : ℕ) (f : ApplicationThread → ApplicationThread) : Spawn find :=
  match σ.localThreads id with
  | some t => { σ with localThreads := Function.update σ.localThreads id (some (f t)) }
  | none =>
    match σ.remoteThreads id with
    | some t => { σ with remoteThreads := Function.update σ.remoteThreads id (some (f t)) }
    | none => { σ with fault := true }

/-- `spawnthread_medhandler`. -/
def handleRequest (r : SpawnRequest) : Spawn find :=
  let ltid := σ.currentLTID r.victim + 1
  { σ with
    currentLTID := Function.update σ.currentLTID r.victim ltid
    jobs := σ.jobs ++
      [⟨r.victim, mainNode, r.gtid, cString r.buf.startRoutine, r.buf.arg, .test⟩]
    replies := σ.replies ++ [⟨r.buf, ltid, r.gtid⟩]
    started := σ.started ++ [(r.gtid, ltid)] }

/-- What the reply does to a record. -/
def setLtid (ltid : ℕ) (t : ApplicationThread) : ApplicationThread :=
  ⟨ltid, if t.state = .RUNNABLE then .RUNNING else t.state⟩

/-- `spawnthread_succ_medhandler`: the number of the thread is read from the handle variable. -/
def handleReply (r : SpawnReply) : Spawn find :=
  σ.modifyThread (σ.handles r.buf.newThread) (setLtid r.ltid)

/-- `threadexited_shrthandler`. -/
def handleExited (id : ℕ) : Spawn find :=
  { σ.modifyThread id fun t => { t with state := .EXITED } with exited := σ.exited ++ [id] }

/-- A step of `jobChild` for the `k`-th job `j`. -/
def stepJob (k : ℕ) (j : Job) : Spawn find :=
  match j.pc with
  | .test =>
    { σ with jobs := σ.jobs.set k { j with
        pc := if (σ.pfn j.node).isNone then .resolve else .call } }
  | .resolve =>
    { σ with
      pfn := match find j.func with
        | some f => Function.update σ.pfn j.node (some f)
        | none => σ.pfn
      jobs := σ.jobs.set k { j with pc := .call } }
  | .call =>
    { σ with
      executed := match σ.pfn j.node with
        | some f => σ.executed ++ [⟨j.node, j.gtid, f, j.arg⟩]
        | none => σ.executed
      jobs := σ.jobs.set k { j with pc := .exit } }
  | .exit =>
    { σ with
      jobs := σ.jobs.eraseIdx k
      exits := σ.exits ++ [(j.mainNode, j.gtid)]
      sent := σ.sent ++ [(j.mainNode, j.gtid)] }

def step : SpawnAct find → Option (Spawn find)
  | .create call =>
    match σ.creating with
    | .none =>
      -- `gtid++` on an `int` means nothing when it overflows
      if σ.gtid + 1 < 2 ^ 31 then some { σ with
        gtid := σ.gtid + 1
        handles := Function.update σ.handles call.handle σ.gtid
        creating := .numbered call σ.gtid }
      else none
    | _ => none
  | .register victim =>
    match σ.creating with
    | .numbered call id => some { σ.addThread mainNode victim id with
        creating := .registered call id victim
        calls := σ.calls ++ [⟨id, call, victim⟩] }
    | _ => none
  | .send =>
    match σ.creating with
    | .registered call id victim => some { σ with
        requests := σ.requests ++ [⟨victim, call.newthread, id⟩]
        creating := .none }
    | _ => none
  | .request k => (σ.requests[k]?).map fun r =>
    { σ.handleRequest mainNode r with requests := σ.requests.eraseIdx k }
  | .reply k => (σ.replies[k]?).map fun r =>
    { σ.handleReply r with replies := σ.replies.eraseIdx k }
  | .job k => (σ.jobs[k]?).map fun j => σ.stepJob k j
  | .exited k => (σ.exits[k]?).map fun m =>
    { σ.handleExited m.2 with exits := σ.exits.eraseIdx k }

/-- The steps, with what holds before each of them. -/
inductive Rule : SpawnAct find → Spawn find → Prop where
  | create (call : CreateCall find) : σ.creating = .none → σ.gtid + 1 < 2 ^ 31 →
      Rule (.create call) { σ with
        gtid := σ.gtid + 1
        handles := Function.update σ.handles call.handle σ.gtid
        creating := .numbered call σ.gtid }
  | register {call : CreateCall find} {id : ℕ} (victim : ℕ) : σ.creating = .numbered call id →
      Rule (.register victim) { σ.addThread mainNode victim id with
        creating := .registered call id victim
        calls := σ.calls ++ [⟨id, call, victim⟩] }
  | send {call : CreateCall find} {id victim : ℕ} : σ.creating = .registered call id victim →
      Rule .send { σ with
        requests := σ.requests ++ [⟨victim, call.newthread, id⟩]
        creating := .none }
  | request {k : ℕ} {r : SpawnRequest} : σ.requests[k]? = some r →
      Rule (.request k) { σ.handleRequest mainNode r with requests := σ.requests.eraseIdx k }
  | reply {k : ℕ} {r : SpawnReply} : σ.replies[k]? = some r →
      Rule (.reply k) { σ.handleReply r with replies := σ.replies.eraseIdx k }
  | job {k : ℕ} {j : Job} : σ.jobs[k]? = some j → Rule (.job k) (σ.stepJob k j)
  | exited {k : ℕ} {m : ℕ × ℕ} : σ.exits[k]? = some m →
      Rule (.exited k) { σ.handleExited m.2 with exits := σ.exits.eraseIdx k }

/-- `dstm_pthread_join` returns: the thread has no record in a map that is not `EXITED`. -/
def joinReturns (id : ℕ) : Bool :=
  (σ.localThreads id).all (fun t => t.state == .EXITED) &&
    (σ.remoteThreads id).all (fun t => t.state == .EXITED)

/-- The record the handlers find for `id`. -/
def record (id : ℕ) : Option ApplicationThread :=
  (σ.localThreads id).or (σ.remoteThreads id)

/-- The runs of a program that creates threads on node `mainNode`. -/
def lts : Lts (Spawn find) (SpawnAct find) where
  init := Spawn.Initial
  step := fun σ => σ.step mainNode

variable {mainNode σ}

/-- Every step is one of the rules. -/
theorem step_rule {a : SpawnAct find} {σ' : Spawn find} (ha : σ.step mainNode a = some σ') :
    Rule mainNode σ a σ' := by
  cases a with
  | create call =>
    simp only [step] at ha
    split at ha
    · rename_i hc
      split at ha
      · cases ha
        exact .create call hc ‹_›
      · cases ha
    · cases ha
  | register victim =>
    simp only [step] at ha
    split at ha
    · cases ha
      exact .register victim ‹_›
    · cases ha
  | send =>
    simp only [step] at ha
    split at ha
    · cases ha
      exact .send ‹_›
    · cases ha
  | request k =>
    obtain ⟨r, hr, rfl⟩ := Option.map_eq_some_iff.1 ha
    exact .request hr
  | reply k =>
    obtain ⟨r, hr, rfl⟩ := Option.map_eq_some_iff.1 ha
    exact .reply hr
  | job k =>
    obtain ⟨j, hj, rfl⟩ := Option.map_eq_some_iff.1 ha
    exact .job hj
  | exited k =>
    obtain ⟨m, hm, rfl⟩ := Option.map_eq_some_iff.1 ha
    exact .exited hm

/-- The step of a job changes nothing but jobs, `pfn_c` and what is executed and sent. -/
theorem stepJob_eq (σ : Spawn find) (k : ℕ) (j : Job) : ∃ p jobs ex exits sent,
    σ.stepJob k j =
      { σ with pfn := p, jobs := jobs, executed := ex, exits := exits, sent := sent } := by
  rw [stepJob]
  cases j.pc with
  | test => exact ⟨_, _, _, _, _, rfl⟩
  | resolve => exact ⟨_, _, _, _, _, rfl⟩
  | call => exact ⟨_, _, _, _, _, rfl⟩
  | exit => exact ⟨_, _, _, _, _, rfl⟩

end Spawn

end

end DstmP1
