import DstmP1.Lib.Lts
import DstmP1.System

/-!
# What a step can do

`Rule` lists the steps of the system with what holds before each of them, and `step_rule` says
that every step is one of them. Many steps of the code only move a thread on; these are one rule,
`Rule.goto`, and `Goes` lists them. The invariants of the system are proved rule by rule.
-/

namespace DstmP1

open Segments (Loc)

section
variable (cfg : Config) (σ : Sys cfg.segs) (t : Tid)

/-- The steps of thread `t` that leave everything but its program counter as it is. -/
inductive Goes : Pc cfg.segs → Prop where
  /-- The cell has to be read. -/
  | fetch (op : Op cfg.segs) : (σ.th t).pc = .active →
      (σ.th t).tx.served cfg.build.variant op = none → Goes (.readCell op .version)
  | readVersion {op : Op cfg.segs} : (σ.th t).pc = .readCell op .version →
      isLocked (σ.locks (cfg.segs.lockLoc op.access.addr)) = false →
      Goes (.readCell op (.data (σ.locks (cfg.segs.lockLoc op.access.addr))
        (List.range (Tx.cellArgs cfg.build.variant op).len) fun _ => 0))
  | readPiece {op : Op cfg.segs} {version : Word} {left : List ℕ} {buf : ℕ → Byte} (off n : ℕ) :
      (σ.th t).pc = .readCell op (.data version left buf) →
      Goes (.readCell op (.data version
        ((Tx.cellArgs cfg.build.variant op).readPiece
          (σ.objs (nodeFromAddress op.access.addr)) off n left buf).1
        ((Tx.cellArgs cfg.build.variant op).readPiece
          (σ.objs (nodeFromAddress op.access.addr)) off n left buf).2))
  /-- The lock word has changed meanwhile: `readCell` starts over. -/
  | retry {op : Op cfg.segs} {version : Word} {buf : ℕ → Byte} :
      (σ.th t).pc = .readCell op (.data version [] buf) → Goes (.readCell op .version)
  | clockRead {op : Op cfg.segs} {ts : Word} {buf : ℕ → Byte} :
      (σ.th t).pc = .increaseClock op ts buf none →
      clockBehind ts (σ.clock (cfg.node t)) = true →
      Goes (.increaseClock op ts buf (some (σ.clock (cfg.node t))))
  | clockKept {op : Op cfg.segs} {ts : Word} {buf : ℕ → Byte} :
      (σ.th t).pc = .increaseClock op ts buf none →
      clockBehind ts (σ.clock (cfg.node t)) = false → Goes (.validateStart op ts buf)
  | clockRetry {op : Op cfg.segs} {ts cur : Word} {buf : ℕ → Byte} :
      (σ.th t).pc = .increaseClock op ts buf (some cur) → Goes (.increaseClock op ts buf none)
  | validate {op : Op cfg.segs} {ts : Word} {buf : ℕ → Byte} (o : Tx.Orders) :
      (σ.th t).pc = .validateStart op ts buf →
      (σ.th t).tx.conflict cfg.build.variant op ts = false →
      (σ.th t).tx.needsValidation ts = true → o.Of (σ.th t).tx →
      Goes (.validate op ts buf ((σ.th t).tx.staleEntries cfg.build.variant o ts) false)
  | looked {op : Op cfg.segs} {ts : Word} {buf : ℕ → Byte} {left : List (Word × Word)} :
      (σ.th t).pc = .validate op ts buf left false → Goes (.validate op ts buf left true)
  | valid {op : Op cfg.segs} {ts : Word} {buf : ℕ → Byte} {b e : Word}
      {left : List (Word × Word)} {looked : Bool} :
      (σ.th t).pc = .validate op ts buf ((b, e) :: left) looked →
      Tx.changed (σ.getVersion (cfg.segs.getObjectLockAddr b)) e = false →
      Goes (.validate op ts buf left false)
  | commit (o : Tx.Orders) : (σ.th t).pc = .active → o.Of (σ.th t).tx → Goes (.getLocks o [] o.ws)
  | wait {o : Tx.Orders} {done batch rest : List Word} {requests : ℕ} :
      (σ.th t).pc = .requestLocks o done batch rest [] requests →
      Goes (.waitLocks o done batch rest requests)
  /-- All replies have come, and no object was refused. -/
  | granted {o : Tx.Orders} {done batch rest : List Word} {requests : ℕ} :
      (σ.th t).pc = .waitLocks o done batch rest requests → requests ≤ (σ.th t).tx.rlNodes →
      (σ.th t).tx.rlChangedObjects = [] → Goes (.getLocks o (done ++ batch) rest)
  /-- All replies have come, and some object was refused. -/
  | refused {o : Tx.Orders} {done batch rest : List Word} {requests : ℕ} :
      (σ.th t).pc = .waitLocks o done batch rest requests → requests ≤ (σ.th t).tx.rlNodes →
      (σ.th t).tx.rlChangedObjects ≠ [] → Goes (.releaseLocks (done ++ batch))
  /-- `releaseLocks` passes over an object that was refused. -/
  | skip {b : Word} {left : List Word} : (σ.th t).pc = .releaseLocks (b :: left) →
      b ∈ (σ.th t).tx.rlChangedObjects → Goes (.releaseLocks left)
  | lookedAll {o : Tx.Orders} {left : List (Word × Word)} :
      (σ.th t).pc = .validateAll o left false → Goes (.validateAll o left true)
  | validAll {o : Tx.Orders} {b e : Word} {left : List (Word × Word)} {looked : Bool} :
      (σ.th t).pc = .validateAll o ((b, e) :: left) looked →
      Tx.changed (σ.getVersion (cfg.segs.getObjectLockAddr b)) e = false →
      Goes (.validateAll o left false)
  | putNext {o : Tx.Orders} {p : Word × List Byte} {puts : List (Word × List Byte)} :
      (σ.th t).pc = .commitWriteSetValues o (p :: puts) [] →
      Goes (.commitWriteSetValues o puts (firstBytes puts))
  | putAll {o : Tx.Orders} {left : List ℕ} : (σ.th t).pc = .commitWriteSetValues o [] left →
      Goes (.getNextClock o none)
  | nextRead {o : Tx.Orders} : (σ.th t).pc = .getNextClock o none →
      Goes (.getNextClock o (some (σ.clock (cfg.node t))))
  | nextRetry {o : Tx.Orders} {cur : Word} : (σ.th t).pc = .getNextClock o (some cur) →
      Goes (.getNextClock o none)

/-- The code of `t` is inside a transaction and not inside `commit`. -/
def Pc.calling {g : Segments} : Pc g → Bool
  | .active | .readCell _ _ | .increaseClock _ _ _ _ | .validateStart _ _ _
  | .validate _ _ _ _ _ => true
  | _ => false

/-- The code of `t` is inside `commit`. -/
def Pc.committing {g : Segments} : Pc g → Bool
  | .getLocks _ _ _ | .requestLocks _ _ _ _ _ _ | .waitLocks _ _ _ _ _ | .releaseLocks _
  | .validateAll _ _ _ | .commitWriteSetValues _ _ _ | .getNextClock _ _
  | .releaseLocksWithNewClock _ _ => true
  | _ => false

/-- What an abort adds to the version cache: the version that failed validation. -/
inductive AbortCache : Option (Word × Word) → Prop where
  | none : AbortCache none
  | stale {op : Op cfg.segs} {ts : Word} {buf : ℕ → Byte} {b e : Word}
      {left : List (Word × Word)} {looked : Bool} :
      (σ.th t).pc = .validate op ts buf ((b, e) :: left) looked →
      AbortCache (cfg.build.toCache b (σ.getVersion (cfg.segs.getObjectLockAddr b)))

/-- What a failed validation in `commit` adds to the version cache, given the entry `b`. -/
inductive InvalidCache (b : Word) : Option (Word × Word) → Prop where
  | none : InvalidCache b none
  | stale : InvalidCache b
      (cfg.build.toCache b (σ.getVersion (cfg.segs.getObjectLockAddr b)))

end

/-- The steps of the system. -/
inductive Rule (cfg : Config) (σ : Sys cfg.segs) : Act cfg.segs → Sys cfg.segs → Prop where
  | goto {a : Act cfg.segs} {t : Tid} {pc : Pc cfg.segs} : a.tid = t →
      (σ.th t).toCache = none → Goes cfg σ t pc → Rule cfg σ a (σ.goto t pc)
  | new {t : Tid} (ptr : Word) : (σ.th t).pc = .idle → (σ.th t).toCache = none →
      (σ.th t).this = none → σ.descs (cfg.node t) ptr = none →
      Rule cfg σ (.new t ptr) { σ.upd t { σ.th t with this := some ptr, tx := Tx.new } (σ.me t) with
        descs := Function.update σ.descs (cfg.node t)
          (Function.update (σ.descs (cfg.node t)) ptr (some t)) }
  | begin {t : Tid} {ptr : Word} : (σ.th t).pc = .idle → (σ.th t).toCache = none →
      (σ.th t).this = some ptr →
      Rule cfg σ (.begin t) { σ.upd t { σ.th t with
            tx := (σ.th t).tx.begin, pc := .active, round := (σ.th t).round + 1 }
          (Attempt.new cfg.segs σ.now) with
        now := σ.now + 1 }
  | delete {t : Tid} {ptr : Word} : (σ.th t).pc = .idle → (σ.th t).toCache = none →
      (σ.th t).this = some ptr →
      Rule cfg σ (.delete t) { σ.upd t { σ.th t with this := none } (σ.me t) with
        descs := Function.update σ.descs (cfg.node t)
          (Function.update (σ.descs (cfg.node t)) ptr none) }
  | addVersion {t : Tid} {b ts : Word} : (σ.th t).toCache = some (b, ts) →
      Rule cfg σ (.addVersion t) { σ.upd t { σ.th t with toCache := none } (σ.me t) with
        cache := Function.update σ.cache (cfg.node t)
          (addVersionToCache (σ.cache (cfg.node t)) b ts) }
  /-- The maps serve a call. -/
  | served {t : Tid} {op : Op cfg.segs} {tx : Tx} {r : List Byte} : (σ.th t).pc = .active →
      (σ.th t).toCache = none → (σ.th t).tx.served cfg.build.variant op = some (tx, r) →
      Rule cfg σ (.call t op) (σ.upd t { σ.th t with tx := tx }
        { σ.me t with ops := (σ.me t).ops ++ [(op, r)] })
  /-- The transaction aborts outside `commit`. -/
  | abort {a : Act cfg.segs} {t : Tid} {c : Option (Word × Word)} : (σ.th t).pc.calling = true →
      (σ.th t).toCache = none → a.tid = t → AbortCache cfg σ t c → Rule cfg σ a (σ.abort t c)
  /-- `readCell` returns the cell. -/
  | fetched {t : Tid} {c : Choice} {op : Op cfg.segs} {ts : Word} {buf : ℕ → Byte} :
      (σ.th t).pc = .readCell op (.data ts [] buf) → (σ.th t).toCache = none →
      isLocked (σ.locks (cfg.segs.lockLoc op.access.addr)) = false →
      isTimestampsEquivalent ts (σ.locks (cfg.segs.lockLoc op.access.addr)) = true →
      Rule cfg σ (.run t c) (σ.upd t { σ.th t with
          tx := (σ.th t).tx.fetched cfg.build.variant op ts buf
          pc := .increaseClock op ts buf none
          toCache := cfg.build.toCache op.access.block ts }
        { σ.me t with seen := (σ.me t).seen.insert op.access.block ⟨ts, fun i => buf i⟩ })
  | clockRaised {t : Tid} {c : Choice} {op : Op cfg.segs} {ts : Word} {buf : ℕ → Byte} :
      (σ.th t).pc = .increaseClock op ts buf (some (σ.clock (cfg.node t))) →
      (σ.th t).toCache = none →
      Rule cfg σ (.run t c) { σ.goto t (.validateStart op ts buf) with
        clock := Function.update σ.clock (cfg.node t)
          (σ.clock (cfg.node t) + (versionTs ts - σ.clock (cfg.node t))) }
  /-- A call returns whose timestamp needs no validation. -/
  | finish {t : Tid} {c : Choice} {op : Op cfg.segs} {ts : Word} {buf : ℕ → Byte} :
      (σ.th t).pc = .validateStart op ts buf → (σ.th t).toCache = none →
      (σ.th t).tx.conflict cfg.build.variant op ts = false →
      (σ.th t).tx.needsValidation ts = false →
      Rule cfg σ (.run t c) (σ.finish t cfg.build.variant op ts buf (σ.th t).tx)
  /-- A call returns that has validated all entries with a smaller version. -/
  | finishValid {t : Tid} {c : Choice} {op : Op cfg.segs} {ts : Word} {buf : ℕ → Byte}
      {looked : Bool} :
      (σ.th t).pc = .validate op ts buf [] looked → (σ.th t).toCache = none →
      Rule cfg σ (.run t c) (σ.finish t cfg.build.variant op ts buf ((σ.th t).tx.setVC ts))
  /-- `getLocks` has all locks. -/
  | lockPoint {t : Tid} {c : Choice} {o : Tx.Orders} {done : List Word} :
      (σ.th t).pc = .getLocks o done [] → (σ.th t).toCache = none →
      Rule cfg σ (.run t c) { σ.upd t { σ.th t with
            pc := .validateAll o ((σ.th t).tx.allEntries cfg.build.variant o) false }
          { σ.me t with writes := (σ.th t).tx.writeSet } with
        log := σ.log ++ [σ.cur t] }
  | batch {t : Tid} {c : Choice} {o : Tx.Orders} {done rest : List Word} {this : Word} :
      (σ.th t).pc = .getLocks o done rest → rest ≠ [] → (σ.th t).toCache = none →
      (σ.th t).this = some this →
      Rule cfg σ (.run t c) (σ.upd t { σ.th t with
          tx := { (σ.th t).tx with rlNodes := 0 }
          pc := .requestLocks o done
            (rest.take (rest.length - (fillBatch this (σ.th t).tx.writeSet ∅ rest).2.length))
            (fillBatch this (σ.th t).tx.writeSet ∅ rest).2
            (requestsOf (fillBatch this (σ.th t).tx.writeSet ∅ rest).1)
            (requestsOf (fillBatch this (σ.th t).tx.writeSet ∅ rest).1).length
          batches := (σ.th t).batches + 1 }
        { σ.me t with refused := [] })
  | send {t : Tid} {c : Choice} {o : Tx.Orders} {done batch rest : List Word}
      {unsent : List (ℕ × Buffer)} {requests k node : ℕ} {buf : Buffer} :
      (σ.th t).pc = .requestLocks o done batch rest unsent requests → (σ.th t).toCache = none →
      unsent[k]? = some (node, buf) →
      Rule cfg σ (.run t c)
        { σ.goto t (.requestLocks o done batch rest (unsent.eraseIdx k) requests) with
        net := Function.update σ.net t
          (σ.net t ++ [⟨cfg.node t, node, buf, (σ.th t).batches, .request 0 none []⟩]) }
  /-- `releaseLocks` is done and the transaction aborts. -/
  | released {t : Tid} {c : Choice} : (σ.th t).pc = .releaseLocks [] → (σ.th t).toCache = none →
      Rule cfg σ (.run t c) (σ.upd t
        (({ σ.th t with tx := { (σ.th t).tx with rlChangedObjects := [] } }).abort none)
        { σ.me t with aborted := true })
  | restore {t : Tid} {c : Choice} {b : Word} {left : List Word} :
      (σ.th t).pc = .releaseLocks (b :: left) → (σ.th t).toCache = none →
      b ∉ (σ.th t).tx.rlChangedObjects →
      Rule cfg σ (.run t c) (σ.putLock t b (entryTs (σ.th t).tx.writeSet b)
        { σ.th t with pc := .releaseLocks left }
        { σ.me t with
          restored := (σ.me t).restored ++ [(b, entryTs (σ.th t).tx.writeSet b)] })
  | validated {t : Tid} {c : Choice} {o : Tx.Orders} {looked : Bool} :
      (σ.th t).pc = .validateAll o [] looked → (σ.th t).toCache = none →
      Rule cfg σ (.run t c) (σ.upd t { σ.th t with
          pc := .commitWriteSetValues o ((σ.th t).tx.commitValues cfg.build.variant o)
            (firstBytes ((σ.th t).tx.commitValues cfg.build.variant o)) }
        { σ.me t with validated := true })
  /-- The validation in `commit` fails. -/
  | invalid {t : Tid} {c : Choice} {o : Tx.Orders} {b e : Word} {left : List (Word × Word)}
      {looked : Bool} {v : Option (Word × Word)} :
      (σ.th t).pc = .validateAll o ((b, e) :: left) looked →
      (σ.th t).toCache = none → InvalidCache cfg σ b v →
      Rule cfg σ (.run t c)
        { σ.upd t { σ.th t with pc := .releaseLocks o.ws, toCache := v } (σ.me t) with
        log := σ.log.erase (σ.cur t) }
  | put {t : Tid} {c : Choice} {o : Tx.Orders} {p : Word × List Byte}
      {puts : List (Word × List Byte)} {left : List ℕ} (off n : ℕ) :
      (σ.th t).pc = .commitWriteSetValues o (p :: puts) left →
      (σ.th t).toCache = none →
      Rule cfg σ (.run t c) { σ.upd t { σ.th t with
            pc := .commitWriteSetValues o (p :: puts) (pieceRest off n left) }
          { σ.me t with dirty := true } with
        objs := σ.objs.put p.1 p.2 (pieceOf off n left) }
  /-- `getNextClock` returns. -/
  | issue {t : Tid} {c : Choice} {o : Tx.Orders} :
      (σ.th t).pc = .getNextClock o (some (σ.clock (cfg.node t))) → (σ.th t).toCache = none →
      Rule cfg σ (.run t c) { σ.upd t { σ.th t with
            pc := .releaseLocksWithNewClock
              (newVersion (cfg.node t) (σ.clock (cfg.node t) + 1)) o.ws }
          { σ.me t with
            newVersion := some (newVersion (cfg.node t) (σ.clock (cfg.node t) + 1)) } with
        clock := Function.update σ.clock (cfg.node t) (σ.clock (cfg.node t) + 1)
        issued := σ.issued ++ [σ.cur t] }
  | release {t : Tid} {c : Choice} {version b : Word} {left : List Word} :
      (σ.th t).pc = .releaseLocksWithNewClock version (b :: left) → (σ.th t).toCache = none →
      Rule cfg σ (.run t c) (σ.putLock t b version { σ.th t with
          pc := .releaseLocksWithNewClock version left
          toCache := cfg.build.toCache b version } (σ.me t))
  /-- `commit` returns. -/
  | committed {t : Tid} {c : Choice} {version : Word} :
      (σ.th t).pc = .releaseLocksWithNewClock version [] → (σ.th t).toCache = none →
      Rule cfg σ (.run t c) { σ.upd t { σ.th t with tx := (σ.th t).tx.clear, pc := .idle }
          { σ.me t with returned := some σ.now } with
        now := σ.now + 1 }
  /-- The handler loads a lock word that passes its test. -/
  | load {t : Tid} {k : ℕ} {p : Packet} {i : ℕ} {changed : List Word} :
      (σ.net t)[k]? = some p → p.msg = .request i none changed → i < p.buf.count →
      isRefused (σ.locks (lockOf cfg.segs p.node (p.buf.objAddr i))) (p.buf.version i) = false →
      Rule cfg σ (.handle t k) (σ.setMsg t k p (.request i
        (some (σ.locks (lockOf cfg.segs p.node (p.buf.objAddr i)))) changed))
  | refuse {t : Tid} {k : ℕ} {p : Packet} {i : ℕ} {old : Option Word} {changed : List Word} :
      (σ.net t)[k]? = some p → p.msg = .request i old changed → i < p.buf.count →
      Rule cfg σ (.handle t k) (refuse cfg σ t k p i changed)
  /-- The swap of the handler succeeds. -/
  | grant {t : Tid} {k : ℕ} {p : Packet} {i : ℕ} {old : Word} {changed : List Word} :
      (σ.net t)[k]? = some p → p.msg = .request i (some old) changed → i < p.buf.count →
      σ.locks (lockOf cfg.segs p.node (p.buf.objAddr i)) = old →
      Rule cfg σ (.handle t k) { (σ.upd t (σ.th t) { σ.me t with
            granted := (σ.me t).granted ++ [(changedObj p.node (p.buf.objAddr i), old)]
            held := (σ.me t).held ++ [(changedObj p.node (p.buf.objAddr i), old)] }).setMsg t k p
          (.request (i + 1) none changed) with
        locks := Function.update σ.locks (lockOf cfg.segs p.node (p.buf.objAddr i))
          (lockValNew (p.buf.version i)) }
  | reply {t : Tid} {k : ℕ} {p : Packet} {i : ℕ} {old : Option Word} {changed : List Word} :
      (σ.net t)[k]? = some p → p.msg = .request i old changed → p.buf.count ≤ i →
      Rule cfg σ (.handle t k) (σ.setMsg t k p (.reply p.buf.tx changed))
  | deliver {t t' : Tid} {k : ℕ} {p : Packet} {tx : Word} {changed : List Word} :
      (σ.net t)[k]? = some p → p.msg = .reply tx changed → σ.descs p.src tx = some t' →
      Rule cfg σ (.deliver t k)
        ({ σ with net := Function.update σ.net t ((σ.net t).eraseIdx k) }.upd t'
        { σ.th t' with tx := { (σ.th t').tx with
            rlNodes := (σ.th t').tx.rlNodes + 1
            rlChangedObjects := (σ.th t').tx.rlChangedObjects ++ changed } } (σ.me t'))
  /-- A reply finds no descriptor. -/
  | lost {t : Tid} {k : ℕ} {p : Packet} {tx : Word} {changed : List Word} :
      (σ.net t)[k]? = some p → p.msg = .reply tx changed → σ.descs p.src tx = none →
      Rule cfg σ (.deliver t k) { σ with
        net := Function.update σ.net t ((σ.net t).eraseIdx k)
        fault := true }

/-! ## Every step is a rule -/

section
variable {cfg : Config} {σ σ' : Sys cfg.segs} {t : Tid} {c : Choice}

/-- `readCell` reads on, aborts at a lock, retries, or returns the cell. -/
theorem stepReadCell_rule {op : Op cfg.segs} {pc : CellPc} (hpc : (σ.th t).pc = .readCell op pc)
    (hc : (σ.th t).toCache = none) : Rule cfg σ (.run t c) (stepReadCell cfg σ t c op pc) := by
  have hcall : (σ.th t).pc.calling = true := by rw [hpc]; rfl
  cases pc with
  | version =>
    rw [stepReadCell, CellArgs.readVersion]
    split <;> rename_i h <;> split at h
    · cases h
    · next hl =>
      cases h
      exact .goto rfl hc (.readVersion hpc (Bool.eq_false_iff.2 hl))
    · exact .abort hcall hc rfl .none
    · cases h
  | data version left buf =>
    cases left with
    | cons k left => exact .goto rfl hc (.readPiece c.off c.n hpc)
    | nil =>
      rw [stepReadCell, CellArgs.readVersion2]
      split <;> rename_i h <;> split at h <;> (try split at h) <;> cases h
      · exact .goto rfl hc (.retry hpc)
      · exact .abort hcall hc rfl .none
      · exact .fetched hpc hc (Bool.eq_false_iff.2 ‹_›) ‹_›

/-- `increaseClock` reads the clock, keeps it, raises it, or tries again. -/
theorem stepIncreaseClock_rule {op : Op cfg.segs} {ts : Word} {buf : ℕ → Byte}
    {cur : Option Word} (hpc : (σ.th t).pc = .increaseClock op ts buf cur)
    (hc : (σ.th t).toCache = none) :
    Rule cfg σ (.run t c) (stepIncreaseClock cfg σ t op ts buf cur) := by
  cases cur with
  | none =>
    rw [stepIncreaseClock]
    split
    · exact .goto rfl hc (.clockRead hpc ‹_›)
    · exact .goto rfl hc (.clockKept hpc (Bool.eq_false_iff.2 ‹_›))
  | some cur =>
    rw [stepIncreaseClock]
    split
    · next h =>
      subst h
      exact .clockRaised hpc hc
    · exact .goto rfl hc (.clockRetry hpc)

/-- `validate` fails on the cell itself, has nothing to look at, or begins its loop. -/
theorem stepValidateStart_rule {op : Op cfg.segs} {ts : Word} {buf : ℕ → Byte}
    (hpc : (σ.th t).pc = .validateStart op ts buf) (hc : (σ.th t).toCache = none)
    (h : stepValidateStart cfg σ t c op ts buf = some σ') : Rule cfg σ (.run t c) σ' := by
  rw [stepValidateStart] at h
  split at h
  · cases h
    exact .abort (by rw [hpc]; rfl) hc rfl .none
  · next hcf =>
    have hcf := Bool.eq_false_iff.2 hcf
    split at h
    · split at h
      · cases h
        exact .goto rfl hc (.validate c.o hpc hcf ‹_› ‹_›)
      · cases h
    · cases h
      exact .finish hpc hc hcf (Bool.eq_false_iff.2 ‹_›)

/-- `validate` looks an entry up, goes on, aborts, or is done. -/
theorem stepValidate_rule {op : Op cfg.segs} {ts : Word} {buf : ℕ → Byte}
    {left : List (Word × Word)} {looked : Bool}
    (hpc : (σ.th t).pc = .validate op ts buf left looked) (hc : (σ.th t).toCache = none) :
    Rule cfg σ (.run t c) (stepValidate cfg σ t op ts buf left looked) := by
  have hcall : (σ.th t).pc.calling = true := by rw [hpc]; rfl
  cases left with
  | nil => exact .finishValid hpc hc
  | cons e left =>
    rw [stepValidate]
    split
    · next hl =>
      have hl : looked = false := by simpa using (Bool.and_eq_true_iff.1 hl).2
      split
      · exact .abort hcall hc rfl .none
      · exact .goto rfl hc (.looked (hl ▸ hpc))
    · dsimp only
      split
      · exact .abort hcall hc rfl (.stale hpc)
      · exact .goto rfl hc (.valid hpc (Bool.eq_false_iff.2 ‹_›))

/-- `getLocks` begins a batch or has all locks. -/
theorem stepGetLocks_rule {o : Tx.Orders} {done rest : List Word}
    (hpc : (σ.th t).pc = .getLocks o done rest) (hc : (σ.th t).toCache = none)
    (h : stepGetLocks cfg σ t o done rest = some σ') : Rule cfg σ (.run t c) σ' := by
  cases rest with
  | nil =>
    cases h
    exact .lockPoint hpc hc
  | cons b rest =>
    obtain ⟨this, hthis, rfl⟩ := Option.map_eq_some_iff.1 h
    exact .batch hpc (List.cons_ne_nil _ _) hc hthis

/-- `getLocks` sends a request or waits. -/
theorem stepRequestLocks_rule {o : Tx.Orders} {done batch rest : List Word}
    {unsent : List (ℕ × Buffer)} {requests : ℕ}
    (hpc : (σ.th t).pc = .requestLocks o done batch rest unsent requests)
    (hc : (σ.th t).toCache = none)
    (h : stepRequestLocks cfg σ t c o done batch rest requests unsent = some σ') :
    Rule cfg σ (.run t c) σ' := by
  cases unsent with
  | nil =>
    cases h
    exact .goto rfl hc (.wait hpc)
  | cons r unsent =>
    obtain ⟨⟨node, buf⟩, hk, rfl⟩ := Option.map_eq_some_iff.1 h
    exact .send hpc hc hk

/-- The wait of `getLocks` ends with all locks or with a refusal. -/
theorem stepWaitLocks_rule {o : Tx.Orders} {done batch rest : List Word} {requests : ℕ}
    (hpc : (σ.th t).pc = .waitLocks o done batch rest requests) (hc : (σ.th t).toCache = none)
    (h : stepWaitLocks cfg σ t o done batch rest requests = some σ') :
    Rule cfg σ (.run t c) σ' := by
  rw [stepWaitLocks] at h
  split at h
  · cases h
  · next hn =>
    split at h <;> rename_i he <;> cases h
    · exact .goto rfl hc (.granted hpc (Nat.not_lt.1 hn) (List.isEmpty_iff.1 he))
    · exact .goto rfl hc (.refused hpc (Nat.not_lt.1 hn) fun h => he (List.isEmpty_iff.2 h))

/-- `releaseLocks` gives a lock back, skips one that was refused, or is done. -/
theorem stepReleaseLocks_rule {left : List Word} (hpc : (σ.th t).pc = .releaseLocks left)
    (hc : (σ.th t).toCache = none) :
    Rule cfg σ (.run t c) (stepReleaseLocks cfg σ t left) := by
  cases left with
  | nil => exact .released hpc hc
  | cons b left =>
    rw [stepReleaseLocks]
    split
    · exact .goto rfl hc (.skip hpc ‹_›)
    · exact .restore hpc hc ‹_›

/-- `validateAll` looks an entry up, goes on, fails, or is done. -/
theorem stepValidateAll_rule {o : Tx.Orders} {left : List (Word × Word)} {looked : Bool}
    (hpc : (σ.th t).pc = .validateAll o left looked) (hc : (σ.th t).toCache = none) :
    Rule cfg σ (.run t c) (stepValidateAll cfg σ t o left looked) := by
  cases left with
  | nil => exact .validated hpc hc
  | cons e left =>
    rw [stepValidateAll]
    split
    · next hl =>
      have hl : looked = false := by simpa using (Bool.and_eq_true_iff.1 hl).2
      split
      · have hr : Rule cfg σ (.run t c) _ := .invalid hpc hc .none
        rwa [← hc] at hr
      · exact .goto rfl hc (.lookedAll (hl ▸ hpc))
    · dsimp only
      split
      · exact .invalid hpc hc .stale
      · exact .goto rfl hc (.validAll hpc (Bool.eq_false_iff.2 ‹_›))

/-- `commitWriteSetValues` puts a piece, goes on to the next put, or is done. -/
theorem stepCommitWriteSetValues_rule {o : Tx.Orders} {puts : List (Word × List Byte)}
    {left : List ℕ} (hpc : (σ.th t).pc = .commitWriteSetValues o puts left)
    (hc : (σ.th t).toCache = none) :
    Rule cfg σ (.run t c) (stepCommitWriteSetValues cfg σ t c o puts left) := by
  cases puts with
  | nil => exact .goto rfl hc (.putAll hpc)
  | cons p puts =>
    cases left with
    | nil => exact .goto rfl hc (.putNext hpc)
    | cons k left => exact .put c.off c.n hpc hc

/-- `getNextClock` reads the clock, issues a version, or tries again. -/
theorem stepGetNextClock_rule {o : Tx.Orders} {cur : Option Word}
    (hpc : (σ.th t).pc = .getNextClock o cur) (hc : (σ.th t).toCache = none) :
    Rule cfg σ (.run t c) (stepGetNextClock cfg σ t o cur) := by
  cases cur with
  | none => exact .goto rfl hc (.nextRead hpc)
  | some cur =>
    rw [stepGetNextClock]
    split
    · next h =>
      subst h
      exact .issue hpc hc
    · exact .goto rfl hc (.nextRetry hpc)

/-- `releaseLocksWithNewClock` stores the new version, or `commit` returns. -/
theorem stepReleaseLocksWithNewClock_rule {version : Word} {left : List Word}
    (hpc : (σ.th t).pc = .releaseLocksWithNewClock version left)
    (hc : (σ.th t).toCache = none) :
    Rule cfg σ (.run t c) (stepReleaseLocksWithNewClock cfg σ t version left) := by
  cases left with
  | nil => exact .committed hpc hc
  | cons b left => exact .release hpc hc

/-- A step of the code of a thread. -/
theorem stepRun_rule (hc : (σ.th t).toCache = none) (h : stepRun cfg σ t c = some σ') :
    Rule cfg σ (.run t c) σ' := by
  rw [stepRun] at h
  split at h <;> rename_i hpc <;> first
    | cases h <;> first
      | exact stepReadCell_rule hpc hc
      | exact stepIncreaseClock_rule hpc hc
      | exact stepValidate_rule hpc hc
      | exact stepReleaseLocks_rule hpc hc
      | exact stepValidateAll_rule hpc hc
      | exact stepCommitWriteSetValues_rule hpc hc
      | exact stepGetNextClock_rule hpc hc
      | exact stepReleaseLocksWithNewClock_rule hpc hc
    | exact stepValidateStart_rule hpc hc h
    | exact stepGetLocks_rule hpc hc h
    | exact stepRequestLocks_rule hpc hc h
    | exact stepWaitLocks_rule hpc hc h

variable {k : ℕ}

/-- A handler takes a step with a request. -/
theorem stepHandle_rule (h : stepHandle cfg σ t k = some σ') : Rule cfg σ (.handle t k) σ' := by
  rw [stepHandle] at h
  split at h
  · cases h
  · next p hk =>
    split at h
    · cases h
    · next i old changed hm =>
      split at h
      · next hi =>
        cases h
        cases old with
        | none =>
          rw [stepRequest]
          split
          · exact .refuse hk hm hi
          · exact .load hk hm hi (Bool.eq_false_iff.2 ‹_›)
        | some old =>
          rw [stepRequest]
          dsimp only
          split
          · exact .grant hk hm hi ‹_›
          · exact .refuse hk hm hi
      · next hi =>
        cases h
        exact .reply hk hm (Nat.not_lt.1 hi)

/-- A reply finds its descriptor or is lost. -/
theorem stepDeliver_rule (h : stepDeliver cfg σ t k = some σ') : Rule cfg σ (.deliver t k) σ' := by
  rw [stepDeliver] at h
  split at h
  · cases h
  · next p hk =>
    split at h
    · cases h
    · next tx changed hm =>
      dsimp only at h
      split at h <;> rename_i hd <;> cases h
      · exact .lost hk hm hd
      · exact .deliver hk hm hd

/-- A step of the code, once the version on the way to the cache has been added. -/
theorem step_run (hs : step cfg σ (.run t c) = some σ') : stepRun cfg σ t c = some σ' := by
  simp only [step] at hs
  split at hs
  · exact hs
  · cases hs

/-- Every step of the system is one of the rules. -/
theorem step_rule {a : Act cfg.segs} (h : step cfg σ a = some σ') : Rule cfg σ a σ' := by
  cases a with
  | new t ptr =>
    simp only [step] at h
    split at h <;> cases h
    exact .new ptr ‹_› ‹_› ‹_› ‹_›
  | begin t =>
    simp only [step] at h
    split at h <;> cases h
    exact .begin ‹_› ‹_› ‹_›
  | call t op =>
    simp only [step] at h
    split at h <;> cases h
    rename_i hpc hc
    rw [stepCall]
    split
    · exact .served hpc hc ‹_›
    · exact .goto rfl hc (.fetch op hpc ‹_›)
  | commit t o =>
    simp only [step] at h
    split at h
    · rename_i hpc hc
      split at h <;> cases h
      exact .goto rfl hc (.commit o hpc ‹_›)
    · cases h
  | rollback t =>
    simp only [step] at h
    split at h <;> cases h
    rename_i hpc hc
    exact .abort (by rw [hpc]; rfl) hc rfl .none
  | delete t =>
    simp only [step] at h
    split at h <;> cases h
    exact .delete ‹_› ‹_› ‹_›
  | run t c =>
    simp only [step] at h
    split at h
    · exact stepRun_rule (Option.isNone_iff_eq_none.1 ‹_›) h
    · cases h
  | addVersion t =>
    obtain ⟨e, he, rfl⟩ := Option.map_eq_some_iff.1 h
    exact .addVersion he
  | handle t k => exact stepHandle_rule h
  | deliver t k => exact stepDeliver_rule h

/-- Inside a call or `commit`, with no message under way and nothing to add to the version cache,
only the code of the thread takes steps. -/
theorem step_eq_run {a : Act cfg.segs} (h : step cfg σ a = some σ') (hi : (σ.th a.tid).pc ≠ .idle)
    (ha : (σ.th a.tid).pc ≠ .active) (hnet : σ.net a.tid = [])
    (hc : (σ.th a.tid).toCache = none) :
    ∃ c, a = .run a.tid c ∧ stepRun cfg σ a.tid c = some σ' := by
  cases a with
  | run t c => exact ⟨c, rfl, step_run h⟩
  | new t | begin t | delete t =>
    simp only [step] at h
    split at h
    · exact absurd ‹(σ.th t).pc = .idle› hi
    · cases h
  | call t | commit t | rollback t =>
    simp only [step] at h
    split at h
    · exact absurd ‹(σ.th t).pc = .active› ha
    · cases h
  | addVersion t =>
    have hc : (σ.th t).toCache = none := hc
    rw [step, hc] at h
    cases h
  | handle t k | deliver t k =>
    have hnet : σ.net t = [] := hnet
    simp [step, stepHandle, stepDeliver, hnet] at h

/-- Between two calls a thread calls, commits, rolls back, or adds to the version cache. -/
theorem step_active {a : Act cfg.segs} (h : step cfg σ a = some σ')
    (hpc : (σ.th a.tid).pc = .active) (hnet : σ.net a.tid = []) :
    (∃ op, a = .call a.tid op ∧ σ' = stepCall cfg σ a.tid op) ∨
    (∃ o, a = .commit a.tid o ∧ σ' = σ.goto a.tid (.getLocks o [] o.ws)) ∨
    (a = .rollback a.tid ∧ σ' = σ.abort a.tid none) ∨
    (σ.th a.tid).toCache ≠ none ∧ (σ'.th a.tid).pc = .active := by
  cases a with
  | call t op =>
    simp only [step] at h
    split at h <;> cases h
    exact .inl ⟨op, rfl, rfl⟩
  | commit t o =>
    simp only [step] at h
    split at h
    · split at h <;> cases h
      exact .inr (.inl ⟨o, rfl, rfl⟩)
    · cases h
  | rollback t =>
    simp only [step] at h
    split at h <;> cases h
    exact .inr (.inr (.inl ⟨rfl, rfl⟩))
  | addVersion t =>
    obtain ⟨e, he, rfl⟩ := Option.map_eq_some_iff.1 h
    refine .inr (.inr (.inr ⟨?_, ?_⟩))
    · rw [Act.tid, he]
      simp
    · have hpc : (σ.th t).pc = .active := hpc
      simp [Act.tid, Sys.upd, hpc]
  | new t | begin t | delete t | run t =>
    have hpc : (σ.th t).pc = .active := hpc
    simp [step, stepRun, hpc] at h
  | handle t k | deliver t k =>
    have hnet : σ.net t = [] := hnet
    simp [step, stepHandle, stepDeliver, hnet] at h

/-- `getVersion` reads the lock word of a cell. -/
theorem Sys.getVersion_eq {b : Word} (hb : cfg.segs.IsCell b) :
    σ.getVersion (cfg.segs.getObjectLockAddr b) = σ.locks (cfg.segs.lockLoc b) :=
  congrArg σ.locks hb.toInHeap.lockLoc_eq

end

/-! ## Runs -/

/-- The system from `initMemory` on, with the object bytes `objs` to begin with. -/
def Config.lts (cfg : Config) (objs : Flat) : Lts (Sys cfg.segs) (Act cfg.segs) where
  init σ := σ = Sys.init cfg.segs objs
  step := step cfg

/-- The states that runs can reach. -/
def Config.Reach (cfg : Config) (objs : Flat) : Sys cfg.segs → Prop :=
  (cfg.lts objs).Reach fun _ _ _ => True

/-! ## A small system

Three nodes with one thread each, and one cell on each node, for concrete runs. -/

def smallSegs : Segments where
  nodes := 3
  addr _ := 0
  page_aligned _ := rfl
  in_range _ := by decide

/-- The small system in the build `build`. -/
def small (build : Build) : Config where
  build := build
  segs := smallSegs
  node t := t % 3
  node_lt _ := Nat.mod_lt _ (by decide)

/-- The first 64-bit value of node 0. -/
def cellX : Access smallSegs :=
  ⟨0x200040, .u64, ⟨by decide, by decide, by decide, by decide⟩, rfl⟩

/-- The lower half of the value at `cellX`. -/
def lowX : Access smallSegs :=
  ⟨cellX.addr, .u32, cellX.inHeap, rfl⟩

/-- The first 64-bit value of node 1. -/
def cellY : Access smallSegs :=
  ⟨0x1000000200040, .u64, ⟨by decide, by decide, by decide, by decide⟩, rfl⟩

/-- A small number as a 64-bit value. -/
def smallValue (n : Byte) : Value .u64 := ⟨[n, 0, 0, 0, 0, 0, 0, 0], rfl⟩

/-- `n` steps of the code of `t`, pieces being whole. -/
def runs (build : Build) (t : Tid) (n : ℕ) : List (Act (small build).segs) :=
  List.replicate n (.run t ⟨0, 64, ⟨[], [], []⟩, 0⟩)

/-- A concrete run of the small system on zeroed memory. -/
def Small (build : Build) (as : List (Act (small build).segs)) :
    Option (Sys (small build).segs) :=
  ((small build).lts fun _ _ => 0).run (Sys.init _ fun _ _ => 0) as

/-! ## Frames -/

section
variable {g : Segments} {σ σ' : Sys g} {t t' : Tid} {th : Thread g} {a : Attempt g}

@[simp] theorem Sys.upd_th : (σ.upd t th a).th t = th := Function.update_self ..

/-- Other threads stay as they are. -/
theorem Sys.upd_th_ne (h : t' ≠ t) : (σ.upd t th a).th t' = σ.th t' := Function.update_of_ne h ..

@[simp] theorem Sys.upd_me : (σ.upd t th a).me t = a := by
  simp [Sys.me, Sys.cur, Sys.upd]

theorem Sys.upd_att : (σ.upd t th a).att (t, th.round) = a := Function.update_self ..

/-- The records of other transactions stay as they are. -/
theorem Sys.upd_att_ne {u : Tid × ℕ} (h : u ≠ (t, th.round)) : (σ.upd t th a).att u = σ.att u :=
  Function.update_of_ne h ..

@[simp] theorem Sys.setMsg_net {k : ℕ} {p : Packet} {m : Msg} :
    (σ.setMsg t k p m).net t = (σ.net t).set k { p with msg := m } := Function.update_self ..

/-- A message stays under way while its handler takes a step. -/
theorem Sys.mem_setMsg {k : ℕ} {p : Packet} (h : (σ.net t)[k]? = some p) (m : Msg) :
    { p with msg := m } ∈ (σ.setMsg t k p m).net t := by
  obtain ⟨hk, -⟩ := List.getElem?_eq_some_iff.1 h
  rw [setMsg_net]
  exact List.mem_set hk _

/-- Between the two states only thread `t`, its records and its messages have changed, of all
threads. -/
structure Sys.SameBut (t : Tid) (σ σ' : Sys g) : Prop where
  th : ∀ t' ≠ t, σ'.th t' = σ.th t'
  att : ∀ u : Tid × ℕ, u.1 ≠ t → σ'.att u = σ.att u
  net : ∀ t' ≠ t, σ'.net t' = σ.net t'

/-- The current transactions of other threads have the records they had. -/
theorem Sys.SameBut.me (h : Sys.SameBut t σ σ') (ht : t' ≠ t) : σ'.me t' = σ.me t' := by
  rw [Sys.me, Sys.me, Sys.cur, Sys.cur, h.th t' ht]
  exact h.att _ ht

/-- A thread and the record of its transaction are changed. -/
theorem Sys.sameBut_upd (σ : Sys g) (t : Tid) (th : Thread g) (a : Attempt g) :
    Sys.SameBut t σ (σ.upd t th a) where
  th _ ht := Sys.upd_th_ne ht
  att _ hu := Sys.upd_att_ne fun h => hu (congrArg Prod.fst h)
  net _ _ := rfl

/-- The messages of `t` may change as well. -/
theorem Sys.SameBut.setNet {σ₁ : Sys g} (h : Sys.SameBut t σ σ₁) (hth : σ'.th = σ₁.th)
    (hatt : σ'.att = σ₁.att) {l : List Packet} (hnet : σ'.net = Function.update σ.net t l) :
    Sys.SameBut t σ σ' where
  th t' ht := by rw [hth, h.th t' ht]
  att u hu := by rw [hatt, h.att u hu]
  net t' ht := by rw [hnet, Function.update_of_ne ht]

/-- Only threads, records and messages count. -/
theorem Sys.SameBut.congr {σ₁ : Sys g} (h : Sys.SameBut t σ σ₁) (hth : σ'.th = σ₁.th)
    (hatt : σ'.att = σ₁.att) (hnet : σ'.net = σ₁.net) : Sys.SameBut t σ σ' :=
  ⟨hth ▸ h.th, hatt ▸ h.att, hnet ▸ h.net⟩

theorem Sys.SameBut.refl (t : Tid) (σ : Sys g) : Sys.SameBut t σ σ :=
  ⟨fun _ _ => rfl, fun _ _ => rfl, fun _ _ => rfl⟩

/-- Replies find the thread that sent the request. -/
def Sys.Delivers (σ : Sys g) : Prop :=
  ∀ (t t' : Tid) (k : ℕ) (p : Packet) (tx : Word) (changed : List Word), (σ.net t)[k]? = some p →
    p.msg = .reply tx changed → σ.descs p.src tx = some t' → t' = t

end

/-- A step is a step of one thread or of its messages. -/
theorem Rule.sameBut {cfg : Config} {σ σ' : Sys cfg.segs} {a : Act cfg.segs}
    (h : Rule cfg σ a σ') (hd : σ.Delivers) : Sys.SameBut a.tid σ σ' := by
  have hu := @Sys.sameBut_upd cfg.segs σ a.tid
  cases h with
  | goto ha hc hg => exact ha ▸ hu _ _
  | abort hpc hc ha hv => exact ha ▸ hu _ _
  | send hpc hc hk => exact (hu _ _).setNet rfl rfl rfl
  | refuse hk hm hi => exact (hu _ _).setNet rfl rfl rfl
  | grant hk hm hi ho => exact (hu _ _).setNet rfl rfl rfl
  | load | reply | lost => exact (Sys.SameBut.refl _ σ).setNet rfl rfl rfl
  | deliver hk hm hdesc =>
    rw [hd _ _ _ _ _ _ hk hm hdesc]
    exact (hu _ _).setNet rfl rfl rfl
  | _ => exact (hu _ _).congr rfl rfl rfl

end DstmP1
