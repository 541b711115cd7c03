import DstmP1.LocksRequest
import DstmP1.Replay

/-!
# The distributed system

Any number of threads on any number of nodes run transactions. A step is one access of the code
to shared memory with the local computation behind it: a load or a compare-and-swap of a lock
word or a clock, a piece of a `gasnet_get` or `gasnet_put`, the sending of a message, an access
of the lock handler, or the delivery of its reply. `step` executes one of them (`Act`), `Rule`
lists what they can be, and `step_rule` says that these are all.

A message is known by the thread that sent it, which neither the handler nor the reply looks at:
the reply finds its descriptor by the pointer it carries (`descs`). Lock words and object bytes
are kept apart, as they are in memory for objects in the first `OBJECTS_COUNT` cells.

`Attempt` records what a transaction did. Nothing reads it; the results about runs are stated on it.
-/

namespace DstmP1

open Segments (Loc)

abbrev Tid := ℕ

/-- The build, the attached segments and the node each thread runs on. -/
structure Config where
  build : Build
  segs : Segments
  node : Tid → ℕ
  node_lt : ∀ t, node t < segs.nodes

/-! ## States -/

/-- Where the code of a thread stands. -/
inductive Pc (g : Segments) where
  /-- No transaction: none has begun, or the last one has committed or aborted. -/
  | idle
  /-- Between two calls of a transaction. -/
  | active
  | readCell (op : Op g) (pc : CellPc)
  /-- `cur` is the clock read last, while it is to be raised. -/
  | increaseClock (op : Op g) (ts : Word) (buf : ℕ → Byte) (cur : Option Word)
  | validateStart (op : Op g) (ts : Word) (buf : ℕ → Byte)
  /-- `looked` says that the cached version of the next entry has been looked at. -/
  | validate (op : Op g) (ts : Word) (buf : ℕ → Byte) (left : List (Word × Word)) (looked : Bool)
  /-- The iterator of `getLocks` stands between `done` and `rest`. -/
  | getLocks (o : Tx.Orders) (done rest : List Word)
  /-- The requests of `batch` are being sent. -/
  | requestLocks (o : Tx.Orders) (done batch rest : List Word) (unsent : List (ℕ × Buffer))
      (requests : ℕ)
  /-- `getLocks` waits for the replies to the requests of `batch`. -/
  | waitLocks (o : Tx.Orders) (done batch rest : List Word) (requests : ℕ)
  | releaseLocks (left : List Word)
  | validateAll (o : Tx.Orders) (left : List (Word × Word)) (looked : Bool)
  /-- The bytes `left` of the first of `puts` are still to be put. -/
  | commitWriteSetValues (o : Tx.Orders) (puts : List (Word × List Byte)) (left : List ℕ)
  | getNextClock (o : Tx.Orders) (cur : Option Word)
  | releaseLocksWithNewClock (newVersion : Word) (left : List Word)

/-- A thread: its descriptor, if it has one, and where it stands. `toCache` is a version that is
still to be added to the version cache; `round` counts the transactions begun and `batches` the
batches of lock requests. -/
structure Thread (g : Segments) where
  this : Option Word
  tx : Tx
  pc : Pc g
  toCache : Option (Word × Word)
  round : ℕ
  batches : ℕ

/-- What a transaction has done. -/
structure Attempt (g : Segments) where
  /-- When `begin` was called, and when `commit` returned. -/
  began : ℕ
  returned : Option ℕ
  aborted : Bool
  /-- The calls that have returned, with their values. -/
  ops : List (Op g × List Byte)
  /-- The cells read, as they were read. -/
  seen : CellMap
  /-- The write set as it was when all locks had been granted. -/
  writes : CellMap
  /-- The locks granted, and those not given back yet, with the words they replaced. -/
  granted : List (Word × Word)
  held : List (Word × Word)
  /-- The lock words that the home nodes refused in the current batch. -/
  refused : List Loc
  /-- What `releaseLocks` has put, by object. -/
  restored : List (Word × Word)
  /-- Whether the validation in `commit` has succeeded, and whether object bytes have been put. -/
  validated : Bool
  dirty : Bool
  newVersion : Option Word

/-- The record of a transaction that begins at time `now`. -/
def Attempt.new (g : Segments) (now : ℕ) : Attempt g where
  began := now
  returned := none
  aborted := false
  ops := []
  seen := ∅
  writes := ∅
  granted := []
  held := []
  refused := []
  restored := []
  validated := false
  dirty := false
  newVersion := none

/-- A request at its home node: the object the handler is at, the lock word it has loaded and the
objects refused so far; or the reply on its way back. -/
inductive Msg where
  | request (i : ℕ) (old : Option Word) (changed : List Word)
  | reply (tx : Word) (changed : List Word)

/-- A message with the nodes it goes between, and the batch of its sender it belongs to. -/
structure Packet where
  src : ℕ
  node : ℕ
  buf : Buffer
  batch : ℕ
  msg : Msg

structure Sys (g : Segments) where
  locks : Loc → Word
  objs : Flat
  clock : ℕ → Word
  cache : ℕ → Word → Option Word
  th : Tid → Thread g
  /-- The messages of each thread that are under way. -/
  net : Tid → List Packet
  /-- The live descriptors of each node. -/
  descs : ℕ → Word → Option Tid
  /-- A reply has been delivered to a descriptor that does not exist. -/
  fault : Bool
  /-- The number of calls of `begin` and returns of `commit` so far. -/
  now : ℕ
  att : Tid × ℕ → Attempt g
  /-- The transactions that have all their locks, in the order in which they got the last one,
  without those that fail validation. -/
  log : List (Tid × ℕ)
  /-- The transactions that have a new timestamp, in the order in which they got it. -/
  issued : List (Tid × ℕ)

/-- No descriptor, no transaction. -/
def Thread.init (g : Segments) : Thread g := ⟨none, Tx.new, .idle, none, 0, 0⟩

/-- The system after `initMemory`: all lock words and clocks are zero. -/
def Sys.init (g : Segments) (objs : Flat) : Sys g where
  locks := fun _ => 0
  objs := objs
  clock := fun _ => 0
  cache := fun _ _ => none
  th := fun _ => Thread.init g
  net := fun _ => []
  descs := fun _ _ => none
  fault := false
  now := 0
  att := fun _ => Attempt.new g 0
  log := []
  issued := []

namespace Sys

variable {g : Segments} (σ : Sys g) (t : Tid)

/-- The current transaction of `t`. -/
def cur : Tid × ℕ := (t, (σ.th t).round)

/-- Its record. -/
def me : Attempt g := σ.att (σ.cur t)

/-- Thread `t` and its record change. -/
def upd (th : Thread g) (a : Attempt g) : Sys g :=
  { σ with
    th := Function.update σ.th t th
    att := Function.update σ.att (t, th.round) a }

end Sys

/-! ## Actions -/

/-- What the scheduler decides for a step: which bytes a piece covers, in which order maps are
iterated, which request is sent next. -/
structure Choice where
  off : ℕ
  n : ℕ
  o : Tx.Orders
  k : ℕ

inductive Act (g : Segments) where
  /-- `new DSTMTransaction` returns `ptr`. -/
  | new (t : Tid) (ptr : Word)
  | begin (t : Tid)
  /-- `read` or `write` is called. -/
  | call (t : Tid) (op : Op g)
  | commit (t : Tid) (o : Tx.Orders)
  | rollback (t : Tid)
  /-- `delete` of the descriptor. -/
  | delete (t : Tid)
  /-- The code of `t` takes a step. -/
  | run (t : Tid) (c : Choice)
  /-- `addVersionToCache`, at once; `CacheSys` has its mutex. -/
  | addVersion (t : Tid)
  /-- The handler of the `k`-th message of `t` takes a step. -/
  | handle (t : Tid) (k : ℕ)
  /-- The `k`-th message of `t`, a reply, is delivered. -/
  | deliver (t : Tid) (k : ℕ)

/-- The thread whose step, message or call it is. -/
def Act.tid {g : Segments} : Act g → Tid
  | .new t _ | .begin t | .call t _ | .commit t _ | .rollback t | .delete t | .run t _
  | .addVersion t | .handle t _ | .deliver t _ => t

/-! ## Local computations -/

/-- `abort`. -/
def Thread.abort {g : Segments} (th : Thread g) (toCache : Option (Word × Word)) : Thread g :=
  { th with tx := th.tx.clear, pc := .idle, toCache := toCache }

/-- `delta` of `increaseClock` is positive. -/
def clockBehind (ts cur : Word) : Bool := decide (0 < (versionTs ts - cur).toInt)

/-- The version cached for `b` fails the validation of an entry with the timestamp `ts`;
`getCachedVersion` is 0 for a cell that is not in the cache. It looks twice, which `CacheSys` takes
apart. -/
def cacheChanged (cache : Word → Option Word) (b ts : Word) : Bool :=
  Tx.changed ((cache b).getD 0) ts

/-- The cache after `addVersionToCache`. -/
def addVersionToCache (cache : Word → Option Word) (b ts : Word) : Word → Option Word :=
  if isLocked ts then cache
  else match cache b with
    | some old =>
      if isTimestampGreater ts old || (isLocked ts && isTimestampsEqual ts old) then
        Function.update cache b (some ts)
      else cache
    | none => Function.update cache b (some ts)

/-- A version for the cache, in builds that have one. -/
def Build.toCache (build : Build) (b ts : Word) : Option (Word × Word) :=
  if build.cache then some (b, ts) else none

/-- The bytes `ks` of `v` are put at `addr`. -/
def Flat.put (m : Flat) (addr : Word) (v : List Byte) (ks : List ℕ) : Flat := fun n p =>
  if n = nodeFromAddress addr ∧ (p - addrFromAddress addr).toNat ∈ ks then
    v.getD (p - addrFromAddress addr).toNat (m n p)
  else m n p

/-- The bytes of a piece, out of those that are left. -/
def pieceOf (off n : ℕ) (left : List ℕ) : List ℕ :=
  left.filter fun k => decide (off ≤ k) && decide (k < off + n)

/-- The bytes left after a piece. -/
def pieceRest (off n : ℕ) (left : List ℕ) : List ℕ :=
  left.filter fun k => !(decide (off ≤ k) && decide (k < off + n))

/-- The bytes of the first put. -/
def firstBytes : List (Word × List Byte) → List ℕ
  | [] => []
  | p :: _ => List.range p.2.length

/-- The requests of a batch. -/
def requestsOf (arr : AList fun _ : ℕ => Buffer) : List (ℕ × Buffer) :=
  arr.entries.map fun e => (e.1, e.2)

namespace Sys

variable {g : Segments} (σ : Sys g) (t : Tid)

/-- `getVersion(lock_addr)`. -/
def getVersion (lockAddr : Word) : Word :=
  σ.locks (nodeFromAddress lockAddr, addrFromAddress lockAddr)

/-- Thread `t` goes on at `pc`. -/
def goto (pc : Pc g) : Sys g := σ.upd t { σ.th t with pc := pc } (σ.me t)

/-- Thread `t` runs `abort`. -/
def abort (toCache : Option (Word × Word)) : Sys g :=
  σ.upd t ((σ.th t).abort toCache) { σ.me t with aborted := true }

/-- The call `op` of `t` returns. -/
def finish (v : Variant) (op : Op g) (ts : Word) (buf : ℕ → Byte) (tx : Tx) : Sys g :=
  let r := tx.finished v op ts ((Tx.cellArgs v op).value buf)
  σ.upd t { σ.th t with tx := r.1, pc := .active }
    { σ.me t with ops := (σ.me t).ops ++ [(op, r.2)] }

/-- Thread `t` puts `w` into the lock word of the object `b` and goes on as `th` with the record
`a`. -/
def putLock (b w : Word) (th : Thread g) (a : Attempt g) : Sys g :=
  { σ.upd t th { a with held := a.held.filter fun e => e.1 ≠ b } with
    locks := Function.update σ.locks (g.lockLoc b) w }

/-- The `k`-th message of `t` becomes `m`. -/
def setMsg (k : ℕ) (p : Packet) (m : Msg) : Sys g :=
  { σ with net := Function.update σ.net t ((σ.net t).set k { p with msg := m }) }

end Sys

/-! ## Steps of the code -/

section
variable (cfg : Config) (σ : Sys cfg.segs) (t : Tid)

/-- `readCell`. -/
def stepReadCell (c : Choice) (op : Op cfg.segs) : CellPc → Sys cfg.segs
  | .version =>
    match (Tx.cellArgs cfg.build.variant op).readVersion
        (σ.locks (cfg.segs.lockLoc op.access.addr)) with
    | .inl pc => σ.goto t (.readCell op pc)
    | .inr _ => σ.abort t none
  | .data version (k :: left) buf =>
    let r := (Tx.cellArgs cfg.build.variant op).readPiece
      (σ.objs (nodeFromAddress op.access.addr)) c.off c.n (k :: left) buf
    σ.goto t (.readCell op (.data version r.1 r.2))
  | .data version [] buf =>
    match CellArgs.readVersion2 version buf (σ.locks (cfg.segs.lockLoc op.access.addr)) with
    | .inl pc => σ.goto t (.readCell op pc)
    | .inr (.locked _) => σ.abort t none
    | .inr (.cell ts buf) =>
      σ.upd t { σ.th t with
          tx := (σ.th t).tx.fetched cfg.build.variant op ts buf
          pc := .increaseClock op ts buf none
          toCache := cfg.build.toCache op.access.block ts }
        { σ.me t with seen := (σ.me t).seen.insert op.access.block ⟨ts, fun i => buf i⟩ }

/-- `increaseClock`. -/
def stepIncreaseClock (op : Op cfg.segs) (ts : Word) (buf : ℕ → Byte) :
    Option Word → Sys cfg.segs
  | none =>
    if clockBehind ts (σ.clock (cfg.node t)) then
      σ.goto t (.increaseClock op ts buf (some (σ.clock (cfg.node t))))
    else σ.goto t (.validateStart op ts buf)
  | some cur =>
    if σ.clock (cfg.node t) = cur then
      { σ.goto t (.validateStart op ts buf) with
        clock := Function.update σ.clock (cfg.node t) (cur + (versionTs ts - cur)) }
    else σ.goto t (.increaseClock op ts buf none)

/-- What `read` and `write` do before `validate` looks at the entries. -/
def stepValidateStart (c : Choice) (op : Op cfg.segs) (ts : Word) (buf : ℕ → Byte) :
    Option (Sys cfg.segs) :=
  if (σ.th t).tx.conflict cfg.build.variant op ts then some (σ.abort t none)
  else if (σ.th t).tx.needsValidation ts then
    if c.o.Of (σ.th t).tx then
      some (σ.goto t (.validate op ts buf
        ((σ.th t).tx.staleEntries cfg.build.variant c.o ts) false))
    else none
  else some (σ.finish t cfg.build.variant op ts buf (σ.th t).tx)

/-- `validate`. -/
def stepValidate (op : Op cfg.segs) (ts : Word) (buf : ℕ → Byte) :
    List (Word × Word) → Bool → Sys cfg.segs
  | [], _ => σ.finish t cfg.build.variant op ts buf ((σ.th t).tx.setVC ts)
  | (b, e) :: left, looked =>
    if cfg.build.cache && !looked then
      if cacheChanged (σ.cache (cfg.node t)) b e then σ.abort t none
      else σ.goto t (.validate op ts buf ((b, e) :: left) true)
    else
      let cur := σ.getVersion (cfg.segs.getObjectLockAddr b)
      if Tx.changed cur e then σ.abort t (cfg.build.toCache b cur)
      else σ.goto t (.validate op ts buf left false)

/-- `getLocks`, between two batches. -/
def stepGetLocks (o : Tx.Orders) (done : List Word) : List Word → Option (Sys cfg.segs)
  | [] => some
    { σ.upd t { σ.th t with
          pc := .validateAll o ((σ.th t).tx.allEntries cfg.build.variant o) false }
        { σ.me t with writes := (σ.th t).tx.writeSet } with
      log := σ.log ++ [σ.cur t] }
  | b :: rest =>
    (σ.th t).this.map fun this =>
      let r := fillBatch this (σ.th t).tx.writeSet ∅ (b :: rest)
      σ.upd t { σ.th t with
          tx := { (σ.th t).tx with rlNodes := 0 }
          pc := .requestLocks o done ((b :: rest).take ((b :: rest).length - r.2.length)) r.2
            (requestsOf r.1) (requestsOf r.1).length
          batches := (σ.th t).batches + 1 }
        { σ.me t with refused := [] }

/-- `getLocks` sends the requests of a batch, in any order. -/
def stepRequestLocks (c : Choice) (o : Tx.Orders) (done batch rest : List Word) (requests : ℕ) :
    List (ℕ × Buffer) → Option (Sys cfg.segs)
  | [] => some (σ.goto t (.waitLocks o done batch rest requests))
  | r :: unsent => ((r :: unsent)[c.k]?).map fun q =>
    { σ.goto t (.requestLocks o done batch rest ((r :: unsent).eraseIdx c.k) requests) with
      net := Function.update σ.net t
        (σ.net t ++ [⟨cfg.node t, q.1, q.2, (σ.th t).batches, .request 0 none []⟩]) }

/-- `getLocks` waits for the replies to a batch. -/
def stepWaitLocks (o : Tx.Orders) (done batch rest : List Word) (requests : ℕ) :
    Option (Sys cfg.segs) :=
  if (σ.th t).tx.rlNodes < requests then none
  else if (σ.th t).tx.rlChangedObjects.isEmpty then
    some (σ.goto t (.getLocks o (done ++ batch) rest))
  else some (σ.goto t (.releaseLocks (done ++ batch)))

/-- `releaseLocks` and the `abort` that follows it. -/
def stepReleaseLocks : List Word → Sys cfg.segs
  | [] => σ.upd t
      (({ σ.th t with tx := { (σ.th t).tx with rlChangedObjects := [] } }).abort none)
      { σ.me t with aborted := true }
  | b :: left =>
    if b ∈ (σ.th t).tx.rlChangedObjects then σ.goto t (.releaseLocks left)
    else
      let ts := entryTs (σ.th t).tx.writeSet b
      σ.putLock t b ts { σ.th t with pc := .releaseLocks left }
        { σ.me t with restored := (σ.me t).restored ++ [(b, ts)] }

/-- `validateAll`; when it fails, the locks are released. -/
def stepValidateAll (o : Tx.Orders) : List (Word × Word) → Bool → Sys cfg.segs
  | [], _ =>
    let puts := (σ.th t).tx.commitValues cfg.build.variant o
    σ.upd t { σ.th t with pc := .commitWriteSetValues o puts (firstBytes puts) }
      { σ.me t with validated := true }
  | (b, e) :: left, looked =>
    if cfg.build.cache && !looked then
      if cacheChanged (σ.cache (cfg.node t)) b e then
        { σ.goto t (.releaseLocks o.ws) with log := σ.log.erase (σ.cur t) }
      else σ.goto t (.validateAll o ((b, e) :: left) true)
    else
      let cur := σ.getVersion (cfg.segs.getObjectLockAddr b)
      if Tx.changed cur e then
        { σ.upd t { σ.th t with
              pc := .releaseLocks o.ws
              toCache := cfg.build.toCache b cur } (σ.me t) with
          log := σ.log.erase (σ.cur t) }
      else σ.goto t (.validateAll o left false)

/-- `commitWriteSetValues`. -/
def stepCommitWriteSetValues (c : Choice) (o : Tx.Orders) :
    List (Word × List Byte) → List ℕ → Sys cfg.segs
  | [], _ => σ.goto t (.getNextClock o none)
  | _ :: puts, [] => σ.goto t (.commitWriteSetValues o puts (firstBytes puts))
  | p :: puts, k :: left =>
    { σ.upd t { σ.th t with
          pc := .commitWriteSetValues o (p :: puts) (pieceRest c.off c.n (k :: left)) }
        { σ.me t with dirty := true } with
      objs := σ.objs.put p.1 p.2 (pieceOf c.off c.n (k :: left)) }

/-- `getNextClock`, and the new version made of its result. -/
def stepGetNextClock (o : Tx.Orders) : Option Word → Sys cfg.segs
  | none => σ.goto t (.getNextClock o (some (σ.clock (cfg.node t))))
  | some cur =>
    if σ.clock (cfg.node t) = cur then
      let version := newVersion (cfg.node t) (cur + 1)
      { σ.upd t { σ.th t with pc := .releaseLocksWithNewClock version o.ws }
          { σ.me t with newVersion := some version } with
        clock := Function.update σ.clock (cfg.node t) (cur + 1)
        issued := σ.issued ++ [σ.cur t] }
    else σ.goto t (.getNextClock o none)

/-- `releaseLocksWithNewClock`, and the end of `commit`. -/
def stepReleaseLocksWithNewClock (version : Word) : List Word → Sys cfg.segs
  | [] =>
    { σ.upd t { σ.th t with tx := (σ.th t).tx.clear, pc := .idle }
        { σ.me t with returned := some σ.now } with
      now := σ.now + 1 }
  | b :: left =>
    σ.putLock t b version { σ.th t with
        pc := .releaseLocksWithNewClock version left
        toCache := cfg.build.toCache b version } (σ.me t)

/-- A step of the code of `t`. -/
def stepRun (c : Choice) : Option (Sys cfg.segs) :=
  match (σ.th t).pc with
  | .idle => none
  | .active => none
  | .readCell op pc => some (stepReadCell cfg σ t c op pc)
  | .increaseClock op ts buf cur => some (stepIncreaseClock cfg σ t op ts buf cur)
  | .validateStart op ts buf => stepValidateStart cfg σ t c op ts buf
  | .validate op ts buf left looked => some (stepValidate cfg σ t op ts buf left looked)
  | .getLocks o done rest => stepGetLocks cfg σ t o done rest
  | .requestLocks o done batch rest unsent requests =>
    stepRequestLocks cfg σ t c o done batch rest requests unsent
  | .waitLocks o done batch rest requests => stepWaitLocks cfg σ t o done batch rest requests
  | .releaseLocks left => some (stepReleaseLocks cfg σ t left)
  | .validateAll o left looked => some (stepValidateAll cfg σ t o left looked)
  | .commitWriteSetValues o puts left =>
    some (stepCommitWriteSetValues cfg σ t c o puts left)
  | .getNextClock o cur => some (stepGetNextClock cfg σ t o cur)
  | .releaseLocksWithNewClock version left =>
    some (stepReleaseLocksWithNewClock cfg σ t version left)

/-! ## Steps of the handlers -/

/-- The object that the handler is at is refused. -/
def refuse (k : ℕ) (p : Packet) (i : ℕ) (changed : List Word) : Sys cfg.segs :=
  let addr := p.buf.objAddr i
  (σ.upd t (σ.th t) { σ.me t with
      refused := (σ.me t).refused ++ [lockOf cfg.segs p.node addr] }).setMsg t k p
    (.request (i + 1) none (changed ++ [changedObj p.node addr]))

/-- `processLocksRequest`: the lock word of object `i` is loaded and compared, then swapped. -/
def stepRequest (k : ℕ) (p : Packet) (i : ℕ) (changed : List Word) : Option Word → Sys cfg.segs
  | none =>
    let old := σ.locks (lockOf cfg.segs p.node (p.buf.objAddr i))
    if isRefused old (p.buf.version i) then refuse cfg σ t k p i changed
    else σ.setMsg t k p (.request i (some old) changed)
  | some old =>
    let addr := p.buf.objAddr i
    if σ.locks (lockOf cfg.segs p.node addr) = old then
      { (σ.upd t (σ.th t) { σ.me t with
            granted := (σ.me t).granted ++ [(changedObj p.node addr, old)]
            held := (σ.me t).held ++ [(changedObj p.node addr, old)] }).setMsg t k p
          (.request (i + 1) none changed) with
        locks := Function.update σ.locks (lockOf cfg.segs p.node addr)
          (lockValNew (p.buf.version i)) }
    else refuse cfg σ t k p i changed

/-- `requestlocks_medhandler`: all objects are processed, then the reply is sent. -/
def stepHandle (k : ℕ) : Option (Sys cfg.segs) :=
  match (σ.net t)[k]? with
  | none => none
  | some p =>
    match p.msg with
    | .reply _ _ => none
    | .request i old changed =>
      if i < p.buf.count then some (stepRequest cfg σ t k p i changed old)
      else some (σ.setMsg t k p (.reply p.buf.tx changed))

/-- `locksRequestProcessed`, called on the descriptor the reply points to. -/
def stepDeliver (k : ℕ) : Option (Sys cfg.segs) :=
  match (σ.net t)[k]? with
  | none => none
  | some p =>
    match p.msg with
    | .request _ _ _ => none
    | .reply tx changed =>
      let σ' := { σ with net := Function.update σ.net t ((σ.net t).eraseIdx k) }
      match σ.descs p.src tx with
      | none => some { σ' with fault := true }
      | some t' => some (σ'.upd t'
          { σ.th t' with tx := { (σ.th t').tx with
              rlNodes := (σ.th t').tx.rlNodes + 1
              rlChangedObjects := (σ.th t').tx.rlChangedObjects ++ changed } } (σ.me t'))

/-! ## Steps -/

/-- `read` or `write` is called. -/
def stepCall (op : Op cfg.segs) : Sys cfg.segs :=
  match (σ.th t).tx.served cfg.build.variant op with
  | some (tx, r) => σ.upd t { σ.th t with tx := tx }
      { σ.me t with ops := (σ.me t).ops ++ [(op, r)] }
  | none => σ.goto t (.readCell op .version)

/-- One step of the system. -/
def step : Act cfg.segs → Option (Sys cfg.segs)
  | .new t ptr =>
    match (σ.th t).pc, (σ.th t).toCache, (σ.th t).this, σ.descs (cfg.node t) ptr with
    | .idle, none, none, none =>
      some { σ.upd t { σ.th t with this := some ptr, tx := Tx.new } (σ.me t) with
        descs := Function.update σ.descs (cfg.node t)
          (Function.update (σ.descs (cfg.node t)) ptr (some t)) }
    | _, _, _, _ => none
  | .begin t =>
    match (σ.th t).pc, (σ.th t).toCache, (σ.th t).this with
    | .idle, none, some _ =>
      some { σ.upd t { σ.th t with
            tx := (σ.th t).tx.begin, pc := .active, round := (σ.th t).round + 1 }
          (Attempt.new cfg.segs σ.now) with
        now := σ.now + 1 }
    | _, _, _ => none
  | .call t op =>
    match (σ.th t).pc, (σ.th t).toCache with
    | .active, none => some (stepCall cfg σ t op)
    | _, _ => none
  | .commit t o =>
    match (σ.th t).pc, (σ.th t).toCache with
    | .active, none =>
      if o.Of (σ.th t).tx then some (σ.goto t (.getLocks o [] o.ws)) else none
    | _, _ => none
  | .rollback t =>
    match (σ.th t).pc, (σ.th t).toCache with
    | .active, none => some (σ.abort t none)
    | _, _ => none
  | .delete t =>
    match (σ.th t).pc, (σ.th t).toCache, (σ.th t).this with
    | .idle, none, some ptr =>
      some { σ.upd t { σ.th t with this := none } (σ.me t) with
        descs := Function.update σ.descs (cfg.node t)
          (Function.update (σ.descs (cfg.node t)) ptr none) }
    | _, _, _ => none
  | .run t c => if (σ.th t).toCache.isNone then stepRun cfg σ t c else none
  | .addVersion t =>
    (σ.th t).toCache.map fun e =>
      { σ.upd t { σ.th t with toCache := none } (σ.me t) with
        cache := Function.update σ.cache (cfg.node t)
          (addVersionToCache (σ.cache (cfg.node t)) e.1 e.2) }
  | .handle t k => stepHandle cfg σ t k
  | .deliver t k => stepDeliver cfg σ t k

end

end DstmP1
