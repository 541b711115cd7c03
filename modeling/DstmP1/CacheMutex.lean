import DstmP1.VersionCache

/-!
# The mutex of the version cache

`i_map` of `DSTMGASNetCache` is a `boost::unordered_map`. `addVersionToCache` holds the mutex of
its node while it looks for the address and writes the entry, and `getCachedVersion` while it looks
for the address; but `getCachedVersion` releases the mutex and only then evaluates `i_map[addr]`.
When another thread of the node is inserting an entry at that moment, which may move all entries to
new buckets, the lookup may miss its entry; `operator[]` then makes the entry anew, with the value
0.

`CacheSys` is the system with these sections. Without such a lookup its runs are those of the system
whose cache is read and written at once (`cacheTrace_sys`), so its caches hold genuine history only
(`trace_cacheHistory`). With one they need not (`cacheHistory_fails`).
-/

namespace DstmP1

/-- The system with the mutexes: `mutex n` is the thread inside `addVersionToCache` that holds the
one of node `n`, and `found t` says that `getCachedVersion` of `t` has found its address and has
released the mutex. -/
structure CacheSys (cfg : Config) where
  sys : Sys cfg.segs
  mutex : ℕ → Option Tid
  found : Tid → Bool

inductive CacheAct (cfg : Config) where
  /-- A step that does not use the version cache. -/
  | other (a : Act cfg.segs)
  /-- `addVersionToCache` of `t` takes the mutex, or writes the entry and releases it. -/
  | addVersionToCache (t : Tid)
  /-- `getCachedVersion` of `t` looks for the address, or evaluates `i_map[addr]`; `missed` says
  that the entry is not found there. -/
  | getCachedVersion (t : Tid) (missed : Bool)

/-- The address that a thread at this point looks up in the version cache. -/
def Pc.cached {g : Segments} : Pc g → Option Word
  | .validate _ _ _ ((b, _) :: _) false | .validateAll _ ((b, _) :: _) false => some b
  | _ => none

section
variable (cfg : Config)

/-- The address that `t` looks up, in builds with the cache. -/
def looksUp (σ : Sys cfg.segs) (t : Tid) : Option Word :=
  if cfg.build.cache then (σ.th t).pc.cached else none

/-- A step that uses the version cache. -/
def usesCache (σ : Sys cfg.segs) : Act cfg.segs → Bool
  | .addVersion _ => true
  | .run t _ => (looksUp cfg σ t).isSome
  | _ => false

/-- The lookup of `t` as a step of its code; it has nothing to choose. -/
def lookUp (t : Tid) : Act cfg.segs := .run t ⟨0, 0, ⟨[], [], []⟩, 0⟩

variable {cfg} (s : CacheSys cfg)

namespace CacheSys

/-- A thread is inside `addVersionToCache` on node `n` with an address that is not in the map. -/
def inserting (n : ℕ) : Bool :=
  match s.mutex n with
  | none => false
  | some u =>
    match (s.sys.th u).toCache with
    | none => false
    | some (b, _) => (s.sys.cache n b).isNone

/-- `i_map[addr]` makes an entry with the value 0 on the node of `t`. -/
def insertZero (t : Tid) (b : Word) : Sys cfg.segs :=
  { s.sys with
    cache := Function.update s.sys.cache (cfg.node t)
      (Function.update (s.sys.cache (cfg.node t)) b (some 0)) }

/-- `addVersionToCache`: a locked version is dropped before the mutex is taken. -/
def stepAdd (t : Tid) : Option (CacheSys cfg) :=
  match (s.sys.th t).toCache with
  | none => none
  | some (_, ts) =>
    if isLocked ts then (step cfg s.sys (.addVersion t)).map fun σ => { s with sys := σ }
    else match s.mutex (cfg.node t) with
      | none => some { s with mutex := Function.update s.mutex (cfg.node t) (some t) }
      | some u =>
        if u = t then (step cfg s.sys (.addVersion t)).map fun σ =>
          { s with sys := σ, mutex := Function.update s.mutex (cfg.node t) none }
        else none

/-- `i_map[addr]` of `getCachedVersion`, after the mutex has been released. -/
def stepRead (t : Tid) (b : Word) (missed : Bool) : Option (CacheSys cfg) :=
  if missed then
    if s.inserting (cfg.node t) then (step cfg (s.insertZero t b) (lookUp cfg t)).map fun σ =>
      { s with sys := σ, found := Function.update s.found t false }
    else none
  else (step cfg s.sys (lookUp cfg t)).map fun σ =>
    { s with sys := σ, found := Function.update s.found t false }

/-- `getCachedVersion`: an address that is not in the map has the version 0. -/
def stepGet (t : Tid) (missed : Bool) : Option (CacheSys cfg) :=
  match looksUp cfg s.sys t with
  | none => none
  | some b =>
    if s.found t then s.stepRead t b missed
    else if (s.mutex (cfg.node t)).isSome || missed then none
    else if (s.sys.cache (cfg.node t) b).isSome then
      some { s with found := Function.update s.found t true }
    else (step cfg s.sys (lookUp cfg t)).map fun σ => { s with sys := σ }

def step : CacheAct cfg → Option (CacheSys cfg)
  | .other a =>
    if usesCache cfg s.sys a then none
    else (DstmP1.step cfg s.sys a).map fun σ => { s with sys := σ }
  | .addVersionToCache t => s.stepAdd t
  | .getCachedVersion t missed => s.stepGet t missed

end CacheSys

/-- The runs of this system, from `initMemory` on. -/
def Config.cacheLts (cfg : Config) (objs : Flat) : Lts (CacheSys cfg) (CacheAct cfg) where
  init s := s = ⟨Sys.init cfg.segs objs, fun _ => none, fun _ => false⟩
  step s := s.step

/-- The call of `addVersionToCache` that has written its entry in a step: its node, address and
version. -/
def addedVersion (x : CacheSys cfg × CacheAct cfg) : Option (ℕ × Word × Word) :=
  match x.2 with
  | .addVersionToCache t =>
    if x.1.mutex (cfg.node t) = some t then
      (x.1.sys.th t).toCache.map fun e => (cfg.node t, e)
    else none
  | _ => none

/-- In the step, `getCachedVersion` evaluates `i_map[addr]` while another thread of its node is
inserting an entry. -/
def readsRacily (x : CacheSys cfg × CacheAct cfg) : Bool :=
  match x.2 with
  | .getCachedVersion t _ => x.1.found t && x.1.inserting (cfg.node t)
  | _ => false

/-- The step that this is of the system whose cache is read and written at once. -/
def sysAct (x : CacheSys cfg × CacheAct cfg) : Option (Act cfg.segs) :=
  match x.2 with
  | .other a => some a
  | .addVersionToCache t =>
    match (x.1.sys.th t).toCache with
    | none => none
    | some (_, ts) =>
      if isLocked ts || x.1.mutex (cfg.node t) == some t then some (.addVersion t) else none
  | .getCachedVersion t _ =>
    match looksUp cfg x.1.sys t with
    | none => none
    | some b =>
      if x.1.found t || (x.1.sys.cache (cfg.node t) b).isNone then some (lookUp cfg t) else none

/-! ## The steps as steps of the system -/

variable {objs : Flat} {h : List (CacheSys cfg × CacheAct cfg)} {s s' : CacheSys cfg}
  {a : CacheAct cfg} {t : Tid}

/-- `addVersionToCache` writes its entry in the step that releases the mutex. -/
theorem CacheSys.stepAdd_sys (hs : s.stepAdd t = some s') :
    (sysAct (s, .addVersionToCache t)).elim (s'.sys = s.sys)
      fun a => DstmP1.step cfg s.sys a = some s'.sys := by
  rw [stepAdd] at hs
  rw [sysAct]
  cases hc : (s.sys.th t).toCache with
  | none =>
    rw [hc] at hs
    cases hs
  | some e =>
    rw [hc] at hs
    dsimp only at hs ⊢
    rw [hc]
    dsimp only
    cases hl : isLocked e.2 with
    | true =>
      rw [hl, if_pos rfl] at hs
      obtain ⟨σ, hσ, rfl⟩ := Option.map_eq_some_iff.1 hs
      exact hσ
    | false =>
      rw [hl, if_neg Bool.false_ne_true] at hs
      cases hm : s.mutex (cfg.node t) with
      | none =>
        rw [hm] at hs
        cases hs
        exact rfl
      | some u =>
        rw [hm] at hs
        dsimp only at hs
        split at hs
        · next hu =>
          subst hu
          obtain ⟨σ, hσ, rfl⟩ := Option.map_eq_some_iff.1 hs
          rw [Bool.false_or, beq_self_eq_true, if_pos rfl]
          exact hσ
        · cases hs

/-- `getCachedVersion` reads its entry in its last step, if nobody inserts one. -/
theorem CacheSys.stepGet_sys {missed : Bool} (hs : s.stepGet t missed = some s')
    (hr : readsRacily (s, .getCachedVersion t missed) = false) :
    (sysAct (s, .getCachedVersion t missed)).elim (s'.sys = s.sys)
      fun a => DstmP1.step cfg s.sys a = some s'.sys := by
  rw [stepGet] at hs
  rw [sysAct]
  rw [readsRacily] at hr
  dsimp only at hr ⊢
  cases hb : looksUp cfg s.sys t with
  | none =>
    rw [hb] at hs
    cases hs
  | some b =>
    rw [hb] at hs
    dsimp only at hs ⊢
    cases hf : s.found t with
    | true =>
      rw [hf, if_pos rfl, stepRead] at hs
      rw [hf, Bool.true_and] at hr
      cases missed with
      | true =>
        -- the entry can only be missed while one is inserted
        rw [if_pos rfl, hr, if_neg Bool.false_ne_true] at hs
        cases hs
      | false =>
        rw [if_neg Bool.false_ne_true] at hs
        obtain ⟨σ, hσ, rfl⟩ := Option.map_eq_some_iff.1 hs
        exact hσ
    | false =>
      rw [hf, if_neg Bool.false_ne_true] at hs
      split at hs
      · cases hs
      · cases hc : s.sys.cache (cfg.node t) b with
        | some v =>
          rw [hc, Option.isSome_some, if_pos rfl] at hs
          cases hs
          exact rfl
        | none =>
          rw [hc, Option.isSome_none, if_neg Bool.false_ne_true] at hs
          obtain ⟨σ, hσ, rfl⟩ := Option.map_eq_some_iff.1 hs
          exact hσ

/-- A step in which no lookup races with an insertion is one of the system whose cache is read and
written at once, or none. -/
theorem CacheSys.step_sys (hs : s.step a = some s') (hr : readsRacily (s, a) = false) :
    (sysAct (s, a)).elim (s'.sys = s.sys) fun a' => DstmP1.step cfg s.sys a' = some s'.sys := by
  cases a with
  | other a =>
    rw [step] at hs
    split at hs
    · cases hs
    · obtain ⟨σ, hσ, rfl⟩ := Option.map_eq_some_iff.1 hs
      exact hσ
  | addVersionToCache t => exact stepAdd_sys hs
  | getCachedVersion t missed => exact stepGet_sys hs hr

/-- The history as one of the system whose cache is read and written at once. -/
def sysHistory (h : List (CacheSys cfg × CacheAct cfg)) : List (Sys cfg.segs × Act cfg.segs) :=
  h.filterMap fun x => (sysAct x).map fun a => (x.1.sys, a)

/-- A run in which no lookup races with an insertion is a run of that system. -/
theorem cacheTrace_sys (ht : (cfg.cacheLts objs).Trace h s)
    (hr : ∀ x ∈ h, readsRacily x = false) : (cfg.lts objs).Trace (sysHistory h) s.sys :=
  ht.project (fun _ hi => congrArg CacheSys.sys hi) (fun _ _ _ hg hs => CacheSys.step_sys hs hg) hr

/-- The states of the history are states of the run. -/
theorem exists_of_sysHistory {P : Sys cfg.segs → Prop} (hx : ∃ x ∈ sysHistory h, P x.1) :
    ∃ x ∈ h, P x.1.sys := by
  obtain ⟨x, hx, hp⟩ := hx
  obtain ⟨y, hy, he⟩ := List.mem_filterMap.1 hx
  obtain ⟨a, -, rfl⟩ := Option.map_eq_some_iff.1 he
  exact ⟨y, hy, hp⟩

/-- A version that has been written into the cache has been passed to it. -/
theorem passed_of_addedVersion {n : ℕ} {b ts : Word}
    (hx : (n, b, ts) ∈ h.filterMap addedVersion) : Passed cfg (sysHistory h) n b ts := by
  obtain ⟨⟨s, a⟩, hs, he⟩ := List.mem_filterMap.1 hx
  rw [addedVersion] at he
  dsimp only at he
  split at he
  · next t =>
    split at he
    · next hm =>
      obtain ⟨e, hc, he⟩ := Option.map_eq_some_iff.1 he
      obtain ⟨rfl, rfl⟩ := Prod.mk.inj he
      have hact : sysAct (s, .addVersionToCache t) = some (.addVersion t) := by
        rw [sysAct]
        dsimp only
        rw [hc]
        dsimp only
        rw [hm, beq_self_eq_true, Bool.or_true, if_pos rfl]
      exact ⟨(s.sys, .addVersion t), List.mem_filterMap.2 ⟨_, hs, by rw [hact]; rfl⟩, t, rfl, rfl,
        hc⟩
    · cases he
  · cases he

/-- What a step of `getCachedVersion` may do, races included. -/
theorem CacheSys.stepGet_cases {missed : Bool} {b : Word} (hb : looksUp cfg s.sys t = some b)
    (hs : s.stepGet t missed = some s') :
    s'.sys = s.sys ∨ DstmP1.step cfg s.sys (lookUp cfg t) = some s'.sys ∨
      DstmP1.step cfg (s.insertZero t b) (lookUp cfg t) = some s'.sys := by
  rw [stepGet, hb] at hs
  dsimp only at hs
  split at hs
  · rw [stepRead] at hs
    split at hs
    · split at hs
      · obtain ⟨σ, hσ, rfl⟩ := Option.map_eq_some_iff.1 hs
        exact .inr (.inr hσ)
      · cases hs
    · obtain ⟨σ, hσ, rfl⟩ := Option.map_eq_some_iff.1 hs
      exact .inr (.inl hσ)
  · split at hs
    · cases hs
    · split at hs
      · cases hs
        exact .inl rfl
      · obtain ⟨σ, hσ, rfl⟩ := Option.map_eq_some_iff.1 hs
        exact .inr (.inl hσ)

/-- The version 0 of a missed entry fails no validation. -/
theorem CacheSys.cacheChanged_insertZero {b e : Word} :
    cacheChanged ((s.insertZero t b).cache (cfg.node t)) b e = false := by
  rw [insertZero]
  dsimp only
  rw [Function.update_self, cacheChanged, Function.update_self, Option.getD_some, Tx.changed,
    isTimestampGreater_eq_false.2 (by rw [ver_zero]; exact Nat.zero_le _)]
  rfl

/-! ## Main result -/

/-- **The version cache holds only genuine history.** In every run in which no `getCachedVersion`
evaluates `i_map[addr]` while another thread of its node is inserting an entry, an entry of the
version cache of a node is for the base of a cell; its version is unlocked, has stood in the lock
word of the cell at an earlier moment, and is at least every unlocked one that the node has passed
to `addVersionToCache` for this cell. So when `validate` or `validateAll` fails on the cached
version of an entry, its lock word has held a version greater than the recorded one. -/
theorem trace_cacheHistory (ht : (cfg.cacheLts objs).Trace h s)
    (hr : ∀ x ∈ h, readsRacily x = false) :
    (∀ n b v, s.sys.cache n b = some v →
      cfg.segs.IsCell b ∧ isLocked v = false ∧
      (∃ x ∈ h, x.1.sys.locks (cfg.segs.lockLoc b) = v) ∧
      ∀ ts, (n, b, ts) ∈ h.filterMap addedVersion → isLocked ts = false → ver ts ≤ ver v) ∧
    (∀ t missed s' op ts buf b e left, cfg.build.cache = true →
      (s.sys.th t).pc = .validate op ts buf ((b, e) :: left) false →
      s.step (.getCachedVersion t missed) = some s' → (s'.sys.th t).pc = .idle →
      ∃ x ∈ h, isTimestampGreater (x.1.sys.locks (cfg.segs.lockLoc b)) e = true) ∧
    ∀ t missed s' o b e left, cfg.build.cache = true →
      (s.sys.th t).pc = .validateAll o ((b, e) :: left) false →
      s.step (.getCachedVersion t missed) = some s' → (s'.sys.th t).pc = .releaseLocks o.ws →
      ∃ x ∈ h, isTimestampGreater (x.1.sys.locks (cfg.segs.lockLoc b)) e = true := by
  obtain ⟨hentry, hvalidate, hall⟩ := trace_versionCache (cacheTrace_sys ht hr)
  refine ⟨fun n b v hv => ?_, ?_, ?_⟩
  · obtain ⟨hb, hu, hx, hpassed⟩ := hentry n b v hv
    exact ⟨hb, hu, exists_of_sysHistory (P := fun σ => σ.locks (cfg.segs.lockLoc b) = v) hx,
      fun ts hts => hpassed ts (passed_of_addedVersion hts)⟩
  · intro t missed s' op ts buf b e left hbuild hpc hs hidle
    have hb : looksUp cfg s.sys t = some b := by rw [looksUp, hbuild, hpc]; rfl
    rcases CacheSys.stepGet_cases hb hs with he | hs | hs
    · rw [he, hpc] at hidle
      cases hidle
    · exact exists_of_sysHistory
        (P := fun σ => isTimestampGreater (σ.locks (cfg.segs.lockLoc b)) e = true)
        (hvalidate t _ _ op ts buf b e left hbuild hpc hs hidle)
    · have hs := step_run hs
      rw [stepRun, show ((s.insertZero t b).th t).pc = _ from hpc, Option.some.injEq] at hs
      rw [← hs, stepValidate_looked hbuild CacheSys.cacheChanged_insertZero] at hidle
      cases hidle
  · intro t missed s' o b e left hbuild hpc hs hrel
    have hb : looksUp cfg s.sys t = some b := by rw [looksUp, hbuild, hpc]; rfl
    rcases CacheSys.stepGet_cases hb hs with he | hs | hs
    · rw [he, hpc] at hrel
      cases hrel
    · exact exists_of_sysHistory
        (P := fun σ => isTimestampGreater (σ.locks (cfg.segs.lockLoc b)) e = true)
        (hall t _ _ o b e left hbuild hpc hs hrel)
    · have hs := step_run hs
      rw [stepRun, show ((s.insertZero t b).th t).pc = _ from hpc, Option.some.injEq] at hs
      rw [← hs, stepValidateAll_looked hbuild CacheSys.cacheChanged_insertZero] at hrel
      cases hrel

end

/-- The entry that `validateAll` of a thread is to look up in the cache, and its locks. -/
def toLookUp {g : Segments} (th : Thread g) : Option (List Word × Word × Word) :=
  match th.pc with
  | .validateAll o ((b, e) :: _) false => some (o.ws, b, e)
  | _ => none

/-- The locks a thread is about to give back. -/
def toRelease {g : Segments} (th : Thread g) : Option (List Word) :=
  match th.pc with
  | .releaseLocks left => some left
  | _ => none

/-- Steps of the small system that do not use the cache, then calls of `addVersionToCache`. -/
def thenAdd (as : List (Act (small ⟨.variant1, true⟩).segs)) (ts : List Tid) :
    List (CacheAct (small ⟨.variant1, true⟩)) :=
  as.map CacheAct.other ++ ts.flatMap fun t => [.addVersionToCache t, .addVersionToCache t]

/-- Two threads of a node: the first reads a cell, the second writes it and commits, and
`getCachedVersion` of the first finds the version that the second has left in the cache. -/
def staleLookup : List (CacheAct (small ⟨.variant1, true⟩)) :=
  List.flatten [thenAdd (.new 0 16 :: .begin 0 :: .call 0 (.read cellX) :: runs _ 0 3) [0],
    thenAdd (runs _ 0 2 ++ .new 3 32 :: .begin 3 :: .call 3 (.write cellX (smallValue 1)) ::
      runs _ 3 3) [3],
    thenAdd (List.flatten [runs _ 3 2, [.commit 3 ⟨[], [cellX.block], []⟩], runs _ 3 3,
      [.handle 3 0, .handle 3 0, .handle 3 0, .deliver 3 0], runs _ 3 9]) [3],
    thenAdd (List.flatten [runs _ 3 1, [.commit 0 ⟨[cellX.block], [], []⟩], runs _ 0 1]) [],
    [.getCachedVersion 0 false]]

set_option synthInstance.maxSize 400 in
/-- The version that a commit has left in the cache fails the validation of the other thread. -/
theorem cacheHistory_stale : ∃ h s s', ((small ⟨.variant1, true⟩).cacheLts fun _ _ => 0).Trace h s ∧
    (∀ x ∈ h, readsRacily x = false) ∧ s.sys.cache 0 cellX.block = some (newVersion 0 1) ∧
    s.step (.getCachedVersion 0 false) = some s' ∧ (s'.sys.th 0).pc = .releaseLocks [] ∧
    (∃ x ∈ h, x.1.sys.locks (smallSegs.lockLoc cellX.block) = newVersion 0 1) ∧
    ∃ x ∈ h, isTimestampGreater (x.1.sys.locks (smallSegs.lockLoc cellX.block)) 0 = true := by
  have hrun : (((small ⟨.variant1, true⟩).cacheLts fun _ _ => 0).runHist []
      ⟨Sys.init _ fun _ _ => 0, fun _ => none, fun _ => false⟩ staleLookup).map (fun x =>
        (x.1.all fun y => !readsRacily y, toLookUp (x.2.sys.th 0),
          x.2.sys.cache 0 cellX.block,
          (x.2.step (.getCachedVersion 0 false)).map fun s' => toRelease (s'.sys.th 0))) =
      some (true, some ([], cellX.block, 0), some (newVersion 0 1), some (some [])) := by
    decide +kernel
  obtain ⟨h, s, ht, ho⟩ := Lts.Trace.of_runHist rfl hrun
  obtain ⟨hrace, ho⟩ := Prod.mk.inj ho
  obtain ⟨hlook, ho⟩ := Prod.mk.inj ho
  obtain ⟨hcache, hstep⟩ := Prod.mk.inj ho
  obtain ⟨s', hs, hrel⟩ := Option.map_eq_some_iff.1 hstep
  have hr : ∀ x ∈ h, readsRacily x = false := fun x hx => by
    simpa using List.all_eq_true.1 hrace x hx
  rw [toLookUp] at hlook
  split at hlook
  · next o b e left hpc =>
    simp only [Option.some.injEq, Prod.mk.injEq] at hlook
    obtain ⟨hws, rfl, rfl⟩ := hlook
    have hpc' : (s'.sys.th 0).pc = .releaseLocks o.ws := by
      rw [toRelease] at hrel
      split at hrel
      · next l hl =>
        rw [hl, hws, Option.some.inj hrel]
      · cases hrel
    obtain ⟨hent, -, hall⟩ := trace_cacheHistory ht hr
    obtain ⟨-, -, hx, -⟩ := hent _ _ _ hcache
    exact ⟨h, s, s', ht, hr, hcache, hs, hws ▸ hpc', hx,
      hall 0 false s' o _ _ left rfl hpc hs hpc'⟩
  · cases hlook

/-- While the first thread stands between its mutex and `i_map[addr]`, the second reads another
cell and inserts it. The first misses its entry, and the cache has the version 0 for a cell whose
version 1 has been added to it. -/
theorem cacheHistory_fails : ∃ h s, ((small ⟨.variant1, true⟩).cacheLts fun _ _ => 0).Trace h s ∧
    s.sys.cache 0 cellX.block = some 0 ∧
    (0, cellX.block, newVersion 0 1) ∈ h.filterMap addedVersion ∧
    isLocked (newVersion 0 1) = false ∧ ver 0 < ver (newVersion 0 1) := by
  have hrun : (((small ⟨.variant1, true⟩).cacheLts fun _ _ => 0).runHist []
      ⟨Sys.init _ fun _ _ => 0, fun _ => none, fun _ => false⟩
      (List.flatten [staleLookup, thenAdd ([.begin 3, .call 3 (.read cellY)] ++ runs _ 3 3) [],
        [.addVersionToCache 3, .getCachedVersion 0 true]])).map (fun x =>
        (x.2.sys.cache 0 cellX.block, x.1.filterMap addedVersion)) =
      some (some 0, [(0, cellX.block, newVersion 0 1), (0, cellX.block, 0), (0, cellX.block, 0)]) :=
    by decide +kernel
  obtain ⟨h, s, ht, ho⟩ := Lts.Trace.of_runHist rfl hrun
  obtain ⟨hcache, hadded⟩ := Prod.mk.inj ho
  refine ⟨h, s, ht, hcache, ?_, by decide, by decide⟩
  rw [hadded]
  exact List.mem_cons_self

end DstmP1
