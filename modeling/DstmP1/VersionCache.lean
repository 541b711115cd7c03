import DstmP1.Ownership

/-!
# The version cache

In builds with `CACHE` each node keeps the greatest version it has seen of each cell, and a
validation fails on such a version without looking at the lock word. Versions come from reads,
from failed validations and from commits (`addVersion`). The loop of `getLocks` that would add the
versions of refused objects runs over the list that `releaseLocks` has just cleared.

`CacheOk` says of a run that every version on its way to the cache, and so every version in it,
has stood in the lock word of its cell, and that the cache has kept the greatest. It follows that
a version that fails a validation has stood there as well (`trace_versionCache`). Here a cache is
read and written at once.
-/

namespace DstmP1

section
variable {cfg : Config} {h : List (Sys cfg.segs × Act cfg.segs)} {σ σ' : Sys cfg.segs}
  {a : Act cfg.segs} {t : Tid}

/-! ## What a run has seen -/

/-- In the past `h` of `σ` or in `σ` itself, the lock word of `b` was `w`. -/
def Held (cfg : Config) (h : List (Sys cfg.segs × Act cfg.segs)) (σ : Sys cfg.segs) (b w : Word) :
    Prop :=
  ∃ τ ∈ σ :: h.map Prod.fst, τ.locks (cfg.segs.lockLoc b) = w

/-- In the past `h`, a thread of node `n` has called `addVersionToCache(b, ts)`. -/
def Passed (cfg : Config) (h : List (Sys cfg.segs × Act cfg.segs)) (n : ℕ) (b ts : Word) : Prop :=
  ∃ x ∈ h, ∃ t, x.2 = .addVersion t ∧ cfg.node t = n ∧ (x.1.th t).toCache = some (b, ts)

theorem Held.now {b w : Word} (hw : σ.locks (cfg.segs.lockLoc b) = w) : Held cfg h σ b w :=
  ⟨σ, List.mem_cons_self, hw⟩

/-- What was held stays in the past. -/
theorem Held.step {b w : Word} (hw : Held cfg h σ b w) : Held cfg ((σ, a) :: h) σ' b w := by
  obtain ⟨τ, hτ, hw⟩ := hw
  exact ⟨τ, List.mem_cons_of_mem _ hτ, hw⟩

/-- What was held before a step was held in the past of the state after it. -/
theorem Held.past {b w : Word} (hw : Held cfg h σ b w) :
    ∃ x ∈ (σ, a) :: h, x.1.locks (cfg.segs.lockLoc b) = w := by
  obtain ⟨τ, hτ, hw⟩ := hw
  rcases List.mem_cons.1 hτ with rfl | hτ
  · exact ⟨_, List.mem_cons_self, hw⟩
  · obtain ⟨x, hx, rfl⟩ := List.mem_map.1 hτ
    exact ⟨x, List.mem_cons_of_mem _ hx, hw⟩

/-- A step passes a version to the cache, or none. -/
theorem passed_cons {n : ℕ} {b ts : Word} : Passed cfg ((σ, a) :: h) n b ts ↔
    (∃ t, a = .addVersion t ∧ cfg.node t = n ∧ (σ.th t).toCache = some (b, ts)) ∨
      Passed cfg h n b ts := by
  simp only [Passed, List.mem_cons, exists_eq_or_imp]

/-! ## The map -/

/-- What `addVersionToCache` does: a locked version and one that is not greater than the cached
one are dropped, another replaces it. -/
theorem addVersionToCache_cases (cache : Word → Option Word) (b ts : Word) :
    addVersionToCache cache b ts = cache ∧
      (Unlocked ts → ∃ old, cache b = some old ∧ ver ts ≤ ver old) ∨
    addVersionToCache cache b ts = Function.update cache b (some ts) ∧ Unlocked ts ∧
      ∀ old, cache b = some old → ver old < ver ts := by
  rw [addVersionToCache]
  split
  · next hl => exact .inl ⟨rfl, fun hu => absurd hu (isLocked_eq_true.1 hl)⟩
  · next hl =>
    have hl : isLocked ts = false := Bool.eq_false_iff.2 hl
    have hu : Unlocked ts := isLocked_eq_false.1 hl
    cases hc : cache b with
    | none => exact .inr ⟨rfl, hu, nofun⟩
    | some old =>
      dsimp only
      rw [hl, Bool.false_and, Bool.or_false]
      split
      · next hg =>
        refine .inr ⟨rfl, hu, ?_⟩
        rintro _ ⟨⟩
        exact isTimestampGreater_iff.1 hg
      · next hg =>
        have hle := isTimestampGreater_eq_false.1 (Bool.eq_false_iff.2 hg)
        exact .inl ⟨rfl, fun _ => ⟨old, rfl, hle⟩⟩

/-- A version in the map was there, or it is the one added. -/
theorem addVersionToCache_eq_some {cache : Word → Option Word} {b ts b' v : Word}
    (hv : addVersionToCache cache b ts b' = some v) :
    cache b' = some v ∨ b' = b ∧ v = ts ∧ Unlocked ts := by
  rcases addVersionToCache_cases cache b ts with ⟨he, -⟩ | ⟨he, hu, -⟩
  · exact .inl (he ▸ hv)
  · rw [he] at hv
    rcases eq_or_ne b' b with rfl | hb
    · rw [Function.update_self] at hv
      exact .inr ⟨rfl, (Option.some.inj hv).symm, hu⟩
    · rw [Function.update_of_ne hb] at hv
      exact .inl hv

/-- The version of a cell only grows. -/
theorem addVersionToCache_mono {cache : Word → Option Word} {b' v : Word} (b ts : Word)
    (hv : cache b' = some v) :
    ∃ v', addVersionToCache cache b ts b' = some v' ∧ ver v ≤ ver v' := by
  rcases addVersionToCache_cases cache b ts with ⟨he, -⟩ | ⟨he, -, hlt⟩
  · exact ⟨v, by rw [he, hv], le_rfl⟩
  · rw [he]
    rcases eq_or_ne b' b with rfl | hb
    · exact ⟨ts, Function.update_self .., (hlt v hv).le⟩
    · exact ⟨v, by rw [Function.update_of_ne hb, hv], le_rfl⟩

/-- An unlocked version that is added is in the map, or one that is not smaller. -/
theorem addVersionToCache_self (cache : Word → Option Word) (b : Word) {ts : Word}
    (hts : Unlocked ts) : ∃ v, addVersionToCache cache b ts b = some v ∧ ver ts ≤ ver v := by
  rcases addVersionToCache_cases cache b ts with ⟨he, hold⟩ | ⟨he, -, -⟩
  · obtain ⟨old, hc, hle⟩ := hold hts
    exact ⟨old, by rw [he, hc], hle⟩
  · exact ⟨ts, by rw [he, Function.update_self], le_rfl⟩

/-- A validation fails on the cached version only if there is one, which is greater when it is
unlocked. -/
theorem cacheChanged_iff {cache : Word → Option Word} {b ts : Word} :
    cacheChanged cache b ts = true ↔ ∃ v, cache b = some v ∧ (Unlocked v → ver ts < ver v) := by
  rw [cacheChanged, Tx.changed]
  cases hc : cache b with
  | none =>
    have h0 : isLocked (0 : Word) = false := rfl
    have hg : isTimestampGreater 0 ts = false :=
      isTimestampGreater_eq_false.2 (by rw [ver_zero]; exact Nat.zero_le _)
    rw [Option.getD_none, h0, hg]
    exact iff_of_false nofun nofun
  | some v =>
    rw [Option.getD_some, Bool.or_eq_true, isLocked_eq_true, isTimestampGreater_iff,
      ← imp_iff_not_or]
    exact ⟨fun h => ⟨v, rfl, h⟩, fun ⟨_, he, h⟩ => Option.some.inj he ▸ h⟩

/-! ## On the way to the cache -/

/-- The versions a thread is about to use, `held` being those that have stood in the lock words:
the version of `readCell` has stood in the word of its cell, and validations look at cells. -/
def PcHeld (cfg : Config) (held : Word → Word → Prop) : Pc cfg.segs → Prop
  | .readCell op (.data version _ _) => held op.access.block version
  | .validate _ _ _ left _ | .validateAll _ left _ => ∀ e ∈ left, cfg.segs.IsCell e.1
  | _ => True

/-- The version that a thread is about to add belongs to a cell and has stood in its lock word. -/
structure CacheThreadOk (cfg : Config) (held : Word → Word → Prop) (th : Thread cfg.segs) :
    Prop where
  toCache : ∀ b ts, th.toCache = some (b, ts) → cfg.segs.IsCell b ∧ held b ts
  pc : PcHeld cfg held th.pc

theorem PcHeld.mono {held held' : Word → Word → Prop} {pc : Pc cfg.segs}
    (hm : ∀ b w, held b w → held' b w) (hp : PcHeld cfg held pc) : PcHeld cfg held' pc := by
  cases pc with
  | readCell op pc =>
    cases pc with
    | version => trivial
    | data version left buf => exact hm _ _ hp
  | validate | validateAll => exact hp
  | _ => trivial

theorem CacheThreadOk.mono {held held' : Word → Word → Prop} {th : Thread cfg.segs}
    (hm : ∀ b w, held b w → held' b w) (ht : CacheThreadOk cfg held th) :
    CacheThreadOk cfg held' th where
  toCache b ts hc := (ht.toCache b ts hc).imp_right (hm b ts)
  pc := ht.pc.mono hm

/-- A thread that adds nothing. -/
theorem CacheThreadOk.of_none {held : Word → Word → Prop} {th : Thread cfg.segs}
    (hc : th.toCache = none) (hp : PcHeld cfg held th.pc) : CacheThreadOk cfg held th where
  toCache b ts h := by rw [hc] at h; cases h
  pc := hp

/-- A version for the cache. -/
theorem toCache_eq_some {build : Build} {b ts b' ts' : Word}
    (hc : build.toCache b ts = some (b', ts')) : b' = b ∧ ts' = ts := by
  rw [Build.toCache] at hc
  split at hc
  · cases hc
    exact ⟨rfl, rfl⟩
  · cases hc

/-- The entries of a map of a descriptor are for cells. -/
theorem isCell_of_mem_timestamps {m : CellMap} {l : List Word} {e : Word × Word}
    (hm : ∀ b x, m.lookup b = some x → cfg.segs.IsCell b ∧ Unlocked x.ts)
    (he : e ∈ Tx.timestamps m l) : cfg.segs.IsCell e.1 := by
  obtain ⟨b, -, hb⟩ := List.mem_filterMap.1 he
  obtain ⟨x, hx, rfl⟩ := Option.map_eq_some_iff.1 hb
  exact (hm b x hx).1

theorem Tx.Ok.isCell_staleEntries {tx : Tx} (htx : tx.Ok cfg.segs) {v : Variant} {o : Tx.Orders}
    {ts : Word} : ∀ e ∈ tx.staleEntries v o ts, cfg.segs.IsCell e.1 := by
  intro e he
  rcases List.mem_append.1 (List.mem_filter.1 he).1 with he | he
  · exact isCell_of_mem_timestamps htx.read he
  · cases v with
    | variant1 => exact isCell_of_mem_timestamps htx.write he
    | variant2 => cases he

theorem Tx.Ok.isCell_allEntries {tx : Tx} (htx : tx.Ok cfg.segs) {v : Variant} {o : Tx.Orders} :
    ∀ e ∈ tx.allEntries v o, cfg.segs.IsCell e.1 :=
  fun _ he => isCell_of_mem_timestamps htx.read (List.mem_filter.1 he).1

/-- A thread that goes on: what it has read of a lock word has stood there. -/
theorem Goes.pcHeld {pc : Pc cfg.segs} (hg : Goes cfg σ t pc) (htx : (σ.th t).tx.Ok cfg.segs)
    (hp : PcHeld cfg (Held cfg h σ) (σ.th t).pc) : PcHeld cfg (Held cfg h σ) pc := by
  cases hg with
  | readVersion hpc hl => exact .now (by rw [Access.block, (Op.access _).inHeap.lockLoc_blockLb])
  | readPiece off n hpc =>
    rw [hpc] at hp
    exact hp
  | validate o hpc => exact htx.isCell_staleEntries
  | looked hpc | lookedAll hpc =>
    rw [hpc] at hp
    exact hp
  | valid hpc | validAll hpc =>
    rw [hpc] at hp
    exact fun e he => hp e (List.mem_cons_of_mem _ he)
  | _ => trivial

/-- A step keeps what holds of its thread. -/
theorem Rule.cacheThreadOk (hr : Rule cfg σ a σ') (hok : σ.Ok cfg)
    (hth : CacheThreadOk cfg (Held cfg h σ) (σ.th a.tid)) :
    CacheThreadOk cfg (Held cfg ((σ, a) :: h) σ') (σ'.th a.tid) := by
  have hm : ∀ b w, Held cfg h σ b w → Held cfg ((σ, a) :: h) σ' b w := fun b w => Held.step
  have lift : ∀ {th : Thread cfg.segs}, σ'.th = Function.update σ.th a.tid th →
      CacheThreadOk cfg (Held cfg h σ) th →
      CacheThreadOk cfg (Held cfg ((σ, a) :: h) σ') (σ'.th a.tid) := by
    intro th he ho
    rw [he, Function.update_self]
    exact ho.mono hm
  have htx := (hok.local_ok a.tid).tx
  cases hr with
  | goto ha hc hg =>
    subst ha
    exact lift rfl (.of_none hc (hg.pcHeld htx hth.pc))
  | new ptr hpc hc => exact lift rfl (.of_none hc hth.pc)
  | begin hpc hc => exact lift rfl (.of_none hc trivial)
  | delete hpc hc => exact lift rfl (.of_none hc hth.pc)
  | addVersion => exact lift rfl (.of_none rfl hth.pc)
  | served hpc hc => exact lift rfl (.of_none hc hth.pc)
  | abort hpc hc ha hv =>
    subst ha
    refine lift rfl ⟨fun b ts he => ?_, trivial⟩
    cases hv with
    | none => cases he
    | stale hpc =>
      obtain ⟨rfl, rfl⟩ := toCache_eq_some he
      have hp : PcHeld cfg _ (σ.th _).pc := hth.pc
      rw [hpc] at hp
      have hb := hp _ List.mem_cons_self
      exact ⟨hb, .now (Sys.getVersion_eq hb).symm⟩
  | @fetched t c op ts buf hpc hc =>
    have hp : PcHeld cfg _ (σ.th t).pc := hth.pc
    rw [hpc] at hp
    refine lift rfl ⟨fun b ts' he => ?_, trivial⟩
    obtain ⟨rfl, rfl⟩ := toCache_eq_some he
    exact ⟨op.access.isCell, hp⟩
  | lockPoint hpc hc => exact lift rfl (.of_none hc htx.isCell_allEntries)
  | released hpc hc => exact lift rfl (.of_none rfl trivial)
  | @invalid t c o b e left looked v hpc hc hv =>
    have hp : PcHeld cfg _ (σ.th t).pc := hth.pc
    rw [hpc] at hp
    have hb := hp _ List.mem_cons_self
    refine lift rfl ⟨fun b' ts he => ?_, trivial⟩
    cases hv with
    | none => cases he
    | stale =>
      obtain ⟨rfl, rfl⟩ := toCache_eq_some he
      exact ⟨hb, .now (Sys.getVersion_eq hb).symm⟩
  | @release t c version b left hpc hc =>
    -- the new version stands in the lock word after the put
    have hl := (hok.local_ok t).pc
    simp only [PcOk, hpc] at hl
    have hb := htx.isCell_of_mem (hl.2.2.1 b List.mem_cons_self)
    have hth' : (Sys.putLock σ t b version { σ.th t with
        pc := .releaseLocksWithNewClock version left
        toCache := cfg.build.toCache b version } (σ.me t)).th t = _ := Function.update_self ..
    rw [Act.tid, hth']
    refine ⟨fun b' ts he => ?_, trivial⟩
    obtain ⟨rfl, rfl⟩ := toCache_eq_some he
    exact ⟨hb, .now (Function.update_self ..)⟩
  | load | reply | lost => exact hth.mono hm
  | refuse | grant => exact lift rfl hth
  | deliver hk hm' hdesc =>
    obtain rfl := delivers hok.local_ok hok.descs _ _ _ _ _ _ hk hm' hdesc
    exact lift rfl ⟨hth.toCache, hth.pc⟩
  | clockRaised hpc hc | finish hpc hc | finishValid hpc hc | batch hpc hne hc | send hpc hc
  | restore hpc hc | validated hpc hc | put off n hpc hc | issue hpc hc | committed hpc hc =>
    exact lift rfl (.of_none hc trivial)

/-! ## The cache in a run -/

/-- What the versions in the cache and on their way to it have to do with the past. -/
structure CacheOk (cfg : Config) (h : List (Sys cfg.segs × Act cfg.segs)) (σ : Sys cfg.segs) :
    Prop where
  thread : ∀ t, CacheThreadOk cfg (Held cfg h σ) (σ.th t)
  entry : ∀ n b v, σ.cache n b = some v → cfg.segs.IsCell b ∧ Unlocked v ∧
    ∃ x ∈ h, x.1.locks (cfg.segs.lockLoc b) = v
  passed : ∀ n b ts, Passed cfg h n b ts → Unlocked ts →
    ∃ v, σ.cache n b = some v ∧ ver ts ≤ ver v

theorem CacheOk.init (objs : Flat) : CacheOk cfg [] (Sys.init cfg.segs objs) where
  thread _ := .of_none rfl trivial
  entry _ _ _ hv := by cases hv
  passed _ _ _ hp := by
    obtain ⟨x, hx, -⟩ := hp
    cases hx

/-- The cache changes only by `addVersionToCache`. -/
theorem Rule.cache (hr : Rule cfg σ a σ') :
    (∃ t b ts, a = .addVersion t ∧ (σ.th t).toCache = some (b, ts) ∧
      σ'.cache = Function.update σ.cache (cfg.node t)
        (addVersionToCache (σ.cache (cfg.node t)) b ts)) ∨
    (∀ t, a = .addVersion t → (σ.th t).toCache = none) ∧ σ'.cache = σ.cache := by
  cases hr with
  | addVersion hc => exact .inl ⟨_, _, _, rfl, hc, rfl⟩
  | goto ha hc | abort _ hc ha =>
    subst ha
    refine .inr ⟨?_, rfl⟩
    rintro t rfl
    exact hc
  | _ => exact .inr ⟨nofun, rfl⟩

/-- A step keeps `CacheOk`. -/
theorem CacheOk.step (hc : CacheOk cfg h σ) (hok : σ.Ok cfg) (hr : Rule cfg σ a σ') :
    CacheOk cfg ((σ, a) :: h) σ' where
  thread t := by
    rcases eq_or_ne t a.tid with rfl | ht
    · exact hr.cacheThreadOk hok (hc.thread _)
    · rw [(hr.sameBut (delivers hok.local_ok hok.descs)).th t ht]
      exact (hc.thread t).mono fun b w => Held.step
  entry n b v hv := by
    have hold : σ.cache n b = some v → cfg.segs.IsCell b ∧ Unlocked v ∧
        ∃ x ∈ (σ, a) :: h, x.1.locks (cfg.segs.lockLoc b) = v := by
      intro hv
      obtain ⟨hb, hu, x, hx, hw⟩ := hc.entry n b v hv
      exact ⟨hb, hu, x, List.mem_cons_of_mem _ hx, hw⟩
    rcases hr.cache with ⟨t, b', ts, -, hto, he⟩ | ⟨-, he⟩
    · rw [he] at hv
      rcases eq_or_ne n (cfg.node t) with rfl | hn
      · rw [Function.update_self] at hv
        rcases addVersionToCache_eq_some hv with hv | ⟨rfl, rfl, hu⟩
        · exact hold hv
        · obtain ⟨hb, hheld⟩ := (hc.thread t).toCache _ _ hto
          exact ⟨hb, hu, hheld.past⟩
      · rw [Function.update_of_ne hn] at hv
        exact hold hv
    · exact hold (he ▸ hv)
  passed n b ts hp hu := by
    rw [passed_cons] at hp
    rcases hr.cache with ⟨t, b', ts', rfl, hto, he⟩ | ⟨hno, he⟩
    · rcases hp with ⟨t', ht, rfl, hto'⟩ | hp
      · obtain rfl : t = t' := by cases ht; rfl
        obtain ⟨rfl, rfl⟩ : b' = b ∧ ts' = ts := by
          rw [hto] at hto'
          exact Prod.mk.inj (Option.some.inj hto')
        rw [he, Function.update_self]
        exact addVersionToCache_self _ _ hu
      · obtain ⟨v, hv, hle⟩ := hc.passed n b ts hp hu
        rw [he]
        rcases eq_or_ne n (cfg.node t) with rfl | hn
        · obtain ⟨v', hv', hle'⟩ := addVersionToCache_mono b' ts' hv
          rw [Function.update_self]
          exact ⟨v', hv', hle.trans hle'⟩
        · rw [Function.update_of_ne hn]
          exact ⟨v, hv, hle⟩
    · rcases hp with ⟨t', ht, -, hto'⟩ | hp
      · rw [hno t' ht] at hto'
        cases hto'
      · rw [he]
        exact hc.passed n b ts hp hu

theorem trace_cacheOk {objs : Flat} (ht : (cfg.lts objs).Trace h σ) : CacheOk cfg h σ := by
  induction ht with
  | init hi => exact hi ▸ .init objs
  | step ht hs ih => exact ih.step (reach_ok ht.reach) (step_rule hs)

/-- The cached version on which a validation fails has stood in the lock word, and is greater
than the recorded one. -/
theorem CacheOk.changed (hc : CacheOk cfg h σ) {n : ℕ} {b e : Word}
    (hch : cacheChanged (σ.cache n) b e = true) :
    ∃ x ∈ h, ver e < ver (x.1.locks (cfg.segs.lockLoc b)) := by
  obtain ⟨v, hv, hlt⟩ := cacheChanged_iff.1 hch
  obtain ⟨-, hu, x, hx, rfl⟩ := hc.entry n b v hv
  exact ⟨x, hx, hlt hu⟩

/-- `validate` goes on when the cached version of an entry is not greater. -/
theorem stepValidate_looked {op : Op cfg.segs} {ts : Word} {buf : ℕ → Byte} {b e : Word}
    {left : List (Word × Word)} (hbuild : cfg.build.cache = true)
    (hch : cacheChanged (σ.cache (cfg.node t)) b e = false) :
    ((stepValidate cfg σ t op ts buf ((b, e) :: left) false).th t).pc =
      .validate op ts buf ((b, e) :: left) true := by
  rw [stepValidate, hbuild, hch]
  exact congrArg Thread.pc Sys.upd_th

theorem stepValidateAll_looked {o : Tx.Orders} {b e : Word} {left : List (Word × Word)}
    (hbuild : cfg.build.cache = true) (hch : cacheChanged (σ.cache (cfg.node t)) b e = false) :
    ((stepValidateAll cfg σ t o ((b, e) :: left) false).th t).pc =
      .validateAll o ((b, e) :: left) true := by
  rw [stepValidateAll, hbuild, hch]
  exact congrArg Thread.pc Sys.upd_th

/-- The version cache holds only genuine history. In every run, an entry of the version cache of a
node is for the base of a cell; its version is unlocked, has stood in the lock word of the
cell at an earlier moment, and is at least every unlocked one that the node has passed to
`addVersionToCache` for this cell. So when `validate` or `validateAll` fails on the cached version
of an entry, its lock word has held a version greater than the recorded one. -/
theorem trace_versionCache {objs : Flat} (ht : (cfg.lts objs).Trace h σ) :
    (∀ n b v, σ.cache n b = some v →
      cfg.segs.IsCell b ∧ isLocked v = false ∧
      (∃ x ∈ h, x.1.locks (cfg.segs.lockLoc b) = v) ∧
      ∀ ts, Passed cfg h n b ts → isLocked ts = false → ver ts ≤ ver v) ∧
    (∀ t c σ' op ts buf b e left, cfg.build.cache = true →
      (σ.th t).pc = .validate op ts buf ((b, e) :: left) false →
      step cfg σ (.run t c) = some σ' → (σ'.th t).pc = .idle →
      ∃ x ∈ h, isTimestampGreater (x.1.locks (cfg.segs.lockLoc b)) e = true) ∧
    ∀ t c σ' o b e left, cfg.build.cache = true →
      (σ.th t).pc = .validateAll o ((b, e) :: left) false →
      step cfg σ (.run t c) = some σ' → (σ'.th t).pc = .releaseLocks o.ws →
      ∃ x ∈ h, isTimestampGreater (x.1.locks (cfg.segs.lockLoc b)) e = true := by
  have hc := trace_cacheOk ht
  refine ⟨fun n b v hv => ?_, ?_, ?_⟩
  · obtain ⟨hb, hu, hx⟩ := hc.entry n b v hv
    refine ⟨hb, isLocked_eq_false.2 hu, hx, fun ts hp hts => ?_⟩
    obtain ⟨v', hv', hle⟩ := hc.passed n b ts hp (isLocked_eq_false.1 hts)
    rw [hv] at hv'
    cases hv'
    exact hle
  · intro t c σ' op ts buf b e left hbuild hpc hs hidle
    have hs := step_run hs
    rw [stepRun, hpc, Option.some.injEq] at hs
    cases hch : cacheChanged (σ.cache (cfg.node t)) b e with
    | true =>
      obtain ⟨x, hx, hlt⟩ := hc.changed hch
      exact ⟨x, hx, isTimestampGreater_iff.2 hlt⟩
    | false =>
      rw [← hs, stepValidate_looked hbuild hch] at hidle
      cases hidle
  · intro t c σ' o b e left hbuild hpc hs hrel
    have hs := step_run hs
    rw [stepRun, hpc, Option.some.injEq] at hs
    cases hch : cacheChanged (σ.cache (cfg.node t)) b e with
    | true =>
      obtain ⟨x, hx, hlt⟩ := hc.changed hch
      exact ⟨x, hx, isTimestampGreater_iff.2 hlt⟩
    | false =>
      rw [← hs, stepValidateAll_looked hbuild hch] at hrel
      cases hrel

end

end DstmP1
