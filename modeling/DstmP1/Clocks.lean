import DstmP1.Aborts
import DstmP1.VersionCache

/-!
# Clocks

Every node has a clock. A timestamp is a value of the clock of the node in its node field, and a
node that reads a cell raises its own clock to the version of the cell before the call returns. So
the clocks are ahead of all timestamps in memory, in the descriptors and in the version caches
(`Stamp`), and a commit makes a version that is greater than all it has recorded.

`Sys.ClockOk` and `Sys.StampOk` are the invariants, for clocks below `2^48`. The node field has 15
bits: two nodes whose numbers differ by `2^15` make the same timestamps (`commitTimestamps_wide`).
-/

namespace DstmP1

open Segments (Loc)

/-! ## Timestamps of a descriptor -/

namespace Tx

/-- `ts` is the timestamp of an entry of the read set or the write set. -/
def Records (tx : Tx) (ts : Word) : Prop :=
  ∃ b e, (tx.readSet.lookup b = some e ∨ tx.writeSet.lookup b = some e) ∧ e.ts = ts

section
variable {g : Segments} {v : Variant} {tx tx' : Tx} {op : Op g} {ts x : Word}

theorem Records.read {b : Word} {e : Entry} (h : tx.readSet.lookup b = some e) :
    tx.Records e.ts := ⟨b, e, .inl h, rfl⟩

theorem Records.write {b : Word} {e : Entry} (h : tx.writeSet.lookup b = some e) :
    tx.Records e.ts := ⟨b, e, .inr h, rfl⟩

theorem not_records_clear : ¬ tx.clear.Records x := by
  rintro ⟨b, e, h | h, -⟩
  · cases h
  · cases h

theorem not_records_new : ¬ Tx.new.Records x := by
  rintro ⟨b, e, h | h, -⟩
  · cases h
  · cases h

/-- The timestamp of an object of the write set. -/
theorem records_entryTs {b : Word} (hb : b ∈ tx.writeSet) :
    tx.Records (entryTs tx.writeSet b) := by
  obtain ⟨e, he⟩ := exists_lookup hb
  rw [entryTs, he]
  exact .write he

/-- An entry is made in the read set. -/
theorem Records.of_insertRead {b : Word} {e : Entry}
    (h : Records { tx with readSet := tx.readSet.insert b e } x) : tx.Records x ∨ x = e.ts := by
  obtain ⟨b', e', h | h, rfl⟩ := h
  · rcases lookup_insert_cases h with ⟨-, rfl⟩ | h
    · exact .inr rfl
    · exact .inl (.read h)
  · exact .inl (.write h)

/-- An entry is made in the write set. -/
theorem Records.of_insertWrite {b : Word} {e : Entry}
    (h : Records { tx with writeSet := tx.writeSet.insert b e } x) : tx.Records x ∨ x = e.ts := by
  obtain ⟨b', e', h | h, rfl⟩ := h
  · exact .inl (.read h)
  · rcases lookup_insert_cases h with ⟨-, rfl⟩ | h
    · exact .inr rfl
    · exact .inl (.write h)

theorem Records.of_eraseRead {b : Word}
    (h : Records { tx with readSet := tx.readSet.erase b } x) : tx.Records x := by
  obtain ⟨b', e', h | h, rfl⟩ := h
  · exact .read (lookup_of_erase h)
  · exact .write h

/-- A call that the maps serve copies timestamps at most. -/
theorem Records.of_served {r : List Byte} (hs : tx.served v op = some (tx', r))
    (h : tx'.Records x) : tx.Records x := by
  cases op with
  | read a =>
    have he : tx' = tx := by
      cases v <;> simp only [served] at hs
      · split at hs
        · cases hs
          rfl
        · obtain ⟨e, -, hp⟩ := Option.map_eq_some_iff.1 hs
          cases hp
          rfl
      · obtain ⟨e, -, hp⟩ := Option.map_eq_some_iff.1 hs
        cases hp
        rfl
    rwa [he] at h
  | write a value =>
    cases v <;> simp only [served] at hs <;> split at hs
    · next e he =>
      cases hs
      rcases h.of_insertWrite with h | rfl
      · exact h
      · exact ⟨_, e, .inr he, rfl⟩
    · obtain ⟨e, he, hp⟩ := Option.map_eq_some_iff.1 hs
      cases hp
      have h' : Records { tx with
          writeSet := tx.writeSet.insert a.block ⟨e.ts, e.copy.store a.offset value⟩ } x :=
        Records.of_eraseRead h
      rcases h'.of_insertWrite with h | rfl
      · exact h
      · exact ⟨_, e, .inl he, rfl⟩
    · cases hs
      exact h
    · obtain ⟨e, he, hp⟩ := Option.map_eq_some_iff.1 hs
      cases hp
      have h' : Records { tx with writeSet := tx.writeSet.insert a.block e } x := h
      rcases h'.of_insertWrite with h | rfl
      · exact h
      · exact .read he

/-- A cell that has been read is recorded with its timestamp. -/
theorem Records.of_fetched {buf : ℕ → Byte} (h : (tx.fetched v op ts buf).Records x) :
    tx.Records x ∨ x = ts := by
  cases v with
  | variant1 =>
    cases op with
    | read a => exact h.of_insertRead
    | write a value => exact h.of_insertWrite
  | variant2 => exact .inl h

/-- So is a cell whose call returns. -/
theorem Records.of_finished {value : List Byte} (h : (tx.finished v op ts value).1.Records x) :
    tx.Records x ∨ x = ts := by
  cases v with
  | variant1 =>
    cases op with
    | read a => exact .inl h
    | write a new =>
      dsimp only [finished] at h
      split at h
      · next e he =>
        rcases h.of_insertWrite with h | rfl
        · exact .inl h
        · exact .inl ⟨_, e, .inr he, rfl⟩
      · exact .inl h
  | variant2 =>
    cases op with
    | read a => exact h.of_insertRead
    | write a new =>
      have h' : Records { tx with writeSet := tx.writeSet.insert a.block ⟨ts, fun _ => 0⟩ } x := h
      exact h'.of_insertWrite

end

end Tx

/-! ## Clocks and timestamps -/

/-- The version of a timestamp is at most the clock of its node. -/
def Stamp (clock : ℕ → Word) (ts : Word) : Prop := ver ts ≤ (clock (nodeOfTs ts)).toNat

theorem Stamp.mono {clock clock' : ℕ → Word} (hm : ∀ n, (clock n).toNat ≤ (clock' n).toNat)
    {ts : Word} (h : Stamp clock ts) : Stamp clock' ts := h.trans (hm _)

/-- The lock bit does not count. -/
theorem Stamp.lockValNew {clock : ℕ → Word} {ts : Word} (h : Stamp clock ts) (hu : Unlocked ts) :
    Stamp clock (lockValNew ts) := by
  rw [Stamp, DstmP1.lockValNew, ver_or_lockBit, nodeOfTs_or_lockBit hu]
  exact h

/-- The timestamp a commit makes. -/
theorem stamp_newVersion {clock : ℕ → Word} {n : ℕ} {c : Word} (hn : n < 2 ^ 15)
    (hc : c.toNat < 2 ^ 48) (hle : c.toNat ≤ (clock n).toNat) :
    Stamp clock (newVersion n c) := by
  rw [Stamp, ver_newVersion hc, nodeOfTs_newVersion hc, Nat.mod_eq_of_lt hn]
  exact hle

/-- `delta` of `increaseClock` is positive when the version is greater than the clock. -/
theorem clockBehind_iff {ts cur : Word} (hc : cur.toNat < 2 ^ 48) :
    clockBehind ts cur = true ↔ cur.toNat < ver ts := by
  have hv := ver_lt ts
  have hsub := BitVec.toNat_sub (versionTs ts) cur
  rw [versionTs_toNat_ver] at hsub
  rw [clockBehind, decide_eq_true_iff, BitVec.toInt_eq_toNat_cond, hsub]
  split
  · omega
  · omega

/-! ## Threads -/

section
variable {g : Segments}

/-- The timestamp that a thread is working with. -/
def Pc.Carries : Pc g → Word → Prop
  | .readCell _ (.data version _ _), ts | .releaseLocksWithNewClock version _, ts => ts = version
  | .increaseClock _ v _ _, ts | .validateStart _ v _, ts | .validate _ v _ _ _, ts => ts = v
  | _, _ => False

/-- The version that the clock is being raised to. -/
def Pc.raising : Pc g → ℕ
  | .increaseClock _ ts _ _ => ver ts
  | _ => 0

/-- The timestamps a thread has. -/
def Thread.Has (th : Thread g) (ts : Word) : Prop :=
  th.tx.Records ts ∨ th.pc.Carries ts ∨ ∃ b, th.toCache = some (b, ts)

/-- What the clock of a thread has reached at the points of its code. -/
def PcClock (clock : Word) (tx : Tx) : Pc g → Prop
  | .increaseClock _ ts _ (some cur) => cur.toNat < ver ts
  | .validateStart _ ts _ | .validate _ ts _ _ _ => ver ts ≤ clock.toNat
  | .releaseLocksWithNewClock version _ => ∀ ts, tx.Records ts → ver ts < ver version
  | _ => True

/-- The timestamps that a thread has recorded are behind the clock of its node, but for the one
that it is being raised to. -/
structure Thread.ClockOk (clock : Word) (th : Thread g) : Prop where
  below : ∀ ts, th.tx.Records ts → ver ts ≤ max clock.toNat th.pc.raising
  pc : PcClock clock th.tx th.pc

/-- All timestamps of a thread are behind the clocks of their nodes. -/
structure Thread.StampOk (clock : ℕ → Word) (th : Thread g) : Prop where
  stamp : ∀ ts, th.Has ts → Stamp clock ts
  vc : ∀ m, (th.tx.VC m).toNat ≤ (clock m).toNat

section
variable {clock clock' : Word} {th th' : Thread g}

theorem PcClock.mono {tx : Tx} {pc : Pc g} (h : PcClock clock tx pc)
    (hm : clock.toNat ≤ clock'.toNat) : PcClock clock' tx pc := by
  cases pc with
  | increaseClock op ts buf cur =>
    cases cur with
    | none => trivial
    | some cur => exact h
  | validateStart | validate => exact Nat.le_trans h hm
  | releaseLocksWithNewClock => exact h
  | _ => trivial

/-- Clocks go on. -/
theorem Thread.ClockOk.mono (h : th.ClockOk clock) (hm : clock.toNat ≤ clock'.toNat) :
    th.ClockOk clock' :=
  ⟨fun ts hts => (h.below ts hts).trans (max_le_max_right _ hm), h.pc.mono hm⟩

/-- A thread that records nothing new and is not raising its clock. -/
theorem Thread.ClockOk.go (h : th.ClockOk clock)
    (hrec : ∀ ts, th'.tx.Records ts → th.tx.Records ts) (hr : th.pc.raising ≤ clock.toNat)
    (hp : PcClock clock th'.tx th'.pc) : th'.ClockOk clock := by
  refine ⟨fun ts hts => ?_, hp⟩
  have hle := h.below ts (hrec ts hts)
  rw [max_eq_left hr] at hle
  exact le_max_of_le_left hle

end

section
variable {clock clock' : ℕ → Word} {th th' : Thread g}

theorem Thread.StampOk.mono (h : th.StampOk clock)
    (hm : ∀ m, (clock m).toNat ≤ (clock' m).toNat) : th.StampOk clock' :=
  ⟨fun ts hts => (h.stamp ts hts).mono hm, fun m => (h.vc m).trans (hm m)⟩

/-- A thread that records nothing new. -/
theorem Thread.StampOk.go (h : th.StampOk clock)
    (hrec : ∀ ts, th'.tx.Records ts → th.tx.Records ts) (hvc : th'.tx.VC = th.tx.VC)
    (hpc : ∀ ts, th'.pc.Carries ts → Stamp clock ts)
    (hcache : ∀ b ts, th'.toCache = some (b, ts) → Stamp clock ts) : th'.StampOk clock := by
  refine ⟨?_, hvc ▸ h.vc⟩
  rintro ts (hts | hts | ⟨b, hts⟩)
  · exact h.stamp ts (.inl (hrec ts hts))
  · exact hpc ts hts
  · exact hcache b ts hts

end

end

/-! ## Steps -/

section
variable {cfg : Config} {σ σ' : Sys cfg.segs} {a : Act cfg.segs} {t : Tid}

/-- What a step does to the clocks: nothing, or the clock of its node is raised to a version that
has been read, or to the next value. -/
theorem Rule.clock (hr : Rule cfg σ a σ') : σ'.clock = σ.clock ∨
    (∃ t c op ts buf, a = .run t c ∧
      (σ.th t).pc = .increaseClock op ts buf (some (σ.clock (cfg.node t))) ∧
      σ'.clock = Function.update σ.clock (cfg.node t)
        (σ.clock (cfg.node t) + (versionTs ts - σ.clock (cfg.node t)))) ∨
    ∃ t c o, a = .run t c ∧ (σ.th t).pc = .getNextClock o (some (σ.clock (cfg.node t))) ∧
      σ'.clock = Function.update σ.clock (cfg.node t) (σ.clock (cfg.node t) + 1) := by
  cases hr with
  | clockRaised hpc => exact .inr (.inl ⟨_, _, _, _, _, rfl, hpc, rfl⟩)
  | issue hpc => exact .inr (.inr ⟨_, _, _, rfl, hpc, rfl⟩)
  | _ => exact .inl rfl

/-- The clocks are ahead of what the threads have recorded. -/
structure Sys.ClockOk (cfg : Config) (σ : Sys cfg.segs) : Prop where
  small : ∀ n, (σ.clock n).toNat < 2 ^ 48
  thread : ∀ t, (σ.th t).ClockOk (σ.clock (cfg.node t))

theorem Sys.ClockOk.init (objs : Flat) : (Sys.init cfg.segs objs).ClockOk cfg where
  small _ := Nat.two_pow_pos 48
  thread _ := ⟨fun _ h => absurd h Tx.not_records_new, trivial⟩

theorem clock_raised (clock : Word) (ts : Word) :
    (clock + (versionTs ts - clock)).toNat = ver ts := by
  rw [BitVec.add_comm, BitVec.sub_add_cancel, versionTs_toNat_ver]

theorem clock_next {clock : Word} (h : clock.toNat < 2 ^ 48) :
    (clock + 1).toNat = clock.toNat + 1 := by
  rw [BitVec.toNat_add, show (1 : Word).toNat = 1 from rfl]
  omega

/-- No step sets a clock back. -/
theorem Sys.ClockOk.clock_mono (h : σ.ClockOk cfg) (hr : Rule cfg σ a σ') (m : ℕ) :
    (σ.clock m).toNat ≤ (σ'.clock m).toNat := by
  rcases hr.clock with he | ⟨t, c, op, ts, buf, rfl, hpc, he⟩ | ⟨t, c, o, rfl, hpc, he⟩
  · rw [he]
  · rw [he]
    rcases eq_or_ne m (cfg.node t) with rfl | hm
    · have hp := (h.thread t).pc
      rw [hpc] at hp
      rw [Function.update_self, clock_raised]
      exact Nat.le_of_lt hp
    · rw [Function.update_of_ne hm]
  · rw [he]
    rcases eq_or_ne m (cfg.node t) with rfl | hm
    · rw [Function.update_self, clock_next (h.small _)]
      exact Nat.le_succ _
    · rw [Function.update_of_ne hm]

/-- A step leaves the clocks small. -/
theorem Sys.ClockOk.small_step (h : σ.ClockOk cfg) (hr : Rule cfg σ a σ')
    (hb : ClockBelow cfg (2 ^ 48) σ a σ') (m : ℕ) : (σ'.clock m).toNat < 2 ^ 48 := by
  rcases eq_or_ne m (cfg.node a.tid) with rfl | hm
  · exact hb
  · rcases hr.clock with he | ⟨t, c, op, ts, buf, rfl, -, he⟩ | ⟨t, c, o, rfl, -, he⟩
    · rw [he]
      exact h.small m
    · rw [he, Function.update_of_ne (show m ≠ cfg.node t from hm)]
      exact h.small m
    · rw [he, Function.update_of_ne (show m ≠ cfg.node t from hm)]
      exact h.small m

/-- A thread that goes on. -/
theorem Goes.clockOk {pc : Pc cfg.segs} (hg : Goes cfg σ t pc) (h : σ.ClockOk cfg) :
    Thread.ClockOk (σ.clock (cfg.node t)) { σ.th t with pc := pc } := by
  have ht := h.thread t
  have hrec : ∀ ts, (σ.th t).tx.Records ts → (σ.th t).tx.Records ts := fun _ h => h
  have hpc0 := ht.pc
  have hbelow := ht.below
  cases hg with
  | clockRead hpc hb =>
    rw [hpc] at hbelow
    exact ⟨hbelow, (clockBehind_iff (h.small _)).1 hb⟩
  | @clockKept op ts buf hpc hb =>
    have hle : ver ts ≤ (σ.clock (cfg.node t)).toNat := by
      by_contra hlt
      rw [(clockBehind_iff (h.small _)).2 (Nat.not_le.1 hlt)] at hb
      cases hb
    exact ht.go hrec (by rw [hpc]; exact hle) hle
  | clockRetry hpc =>
    rw [hpc] at hbelow
    exact ⟨hbelow, trivial⟩
  | validate o hpc | looked hpc | valid hpc =>
    rw [hpc] at hpc0
    exact ht.go hrec (by rw [hpc]; exact Nat.zero_le _) hpc0
  | readVersion hpc | readPiece _ _ hpc | fetch _ hpc | retry hpc | commit _ hpc | wait hpc
  | granted hpc | refused hpc | skip hpc | lookedAll hpc | validAll hpc | putNext hpc
  | putAll hpc | nextRead hpc | nextRetry hpc =>
    exact ht.go hrec (by rw [hpc]; exact Nat.zero_le _) trivial

/-- A call that returns has recorded the timestamp of its cell at most. -/
theorem Thread.ClockOk.finish {th : Thread cfg.segs} {clock : Word} (h : th.ClockOk clock)
    {op : Op cfg.segs} {ts : Word} {value : List Byte} {tx : Tx} {v : Variant}
    (hle : ver ts ≤ clock.toNat) (hr : th.pc.raising = 0)
    (htx : ∀ x, tx.Records x → th.tx.Records x) :
    Thread.ClockOk (g := cfg.segs) clock
      { th with tx := (tx.finished v op ts value).1, pc := .active } := by
  refine ⟨fun x hx => le_max_of_le_left ?_, trivial⟩
  rcases hx.of_finished with hx | rfl
  · have hb := h.below x (htx x hx)
    rwa [hr, Nat.max_zero] at hb
  · exact hle

/-- A step keeps what its thread has recorded behind the clock. -/
theorem Rule.clockOk (hr : Rule cfg σ a σ') (h : σ.ClockOk cfg) (hok : σ.Ok cfg)
    (hb : ClockBelow cfg (2 ^ 48) σ a σ') :
    (σ'.th a.tid).ClockOk (σ'.clock (cfg.node a.tid)) := by
  have hm := h.clock_mono hr
  have after : ∀ {th : Thread cfg.segs}, σ'.th = Function.update σ.th a.tid th →
      th.ClockOk (σ'.clock (cfg.node a.tid)) →
      (σ'.th a.tid).ClockOk (σ'.clock (cfg.node a.tid)) := by
    intro th he ho
    rw [he, Function.update_self]
    exact ho
  have lift : ∀ {th : Thread cfg.segs}, σ'.th = Function.update σ.th a.tid th →
      th.ClockOk (σ.clock (cfg.node a.tid)) →
      (σ'.th a.tid).ClockOk (σ'.clock (cfg.node a.tid)) :=
    fun he ho => after he (ho.mono (hm _))
  have ht : ∀ t, (σ.th t).ClockOk (σ.clock (cfg.node t)) := h.thread
  have hrec : ∀ t ts, (σ.th t).tx.Records ts → (σ.th t).tx.Records ts := fun _ _ h => h
  have hclear : ∀ {tx : Tx} {t} ts, tx.clear.Records ts → (σ.th t).tx.Records ts :=
    fun ts hts => absurd hts Tx.not_records_clear
  cases hr with
  | goto ha hc hg =>
    subst ha
    exact lift rfl (hg.clockOk h)
  | @new t ptr hpc hc =>
    refine lift rfl ((ht t).go (fun ts hts => absurd hts Tx.not_records_new)
      (by rw [hpc]; exact Nat.zero_le _) ?_)
    dsimp only
    rw [hpc]
    trivial
  | @begin t ptr hpc hc =>
    exact lift rfl ((ht t).go (hrec t) (by rw [hpc]; exact Nat.zero_le _) trivial)
  | @delete t | @addVersion t => exact lift rfl ⟨(ht t).below, (ht t).pc⟩
  | @served t op tx r hpc hc hs =>
    refine lift rfl ((ht t).go (fun ts hts => hts.of_served hs)
      (by rw [hpc]; exact Nat.zero_le _) ?_)
    dsimp only
    rw [hpc]
    trivial
  | abort hpc hc ha =>
    subst ha
    exact lift rfl ⟨fun ts hts => absurd hts Tx.not_records_clear, trivial⟩
  | @fetched t c op ts buf hpc =>
    refine lift rfl ⟨fun x hx => ?_, trivial⟩
    rcases hx.of_fetched with hx | rfl
    · have hle := (ht t).below x hx
      rw [hpc] at hle
      exact hle.trans (max_le_max_left _ (Nat.zero_le _))
    · exact le_max_right _ _
  | @clockRaised t c op ts buf hpc hc =>
    have hcl : ∀ f : ℕ → Word, f = Function.update σ.clock (cfg.node t)
        (σ.clock (cfg.node t) + (versionTs ts - σ.clock (cfg.node t))) →
        (f (cfg.node t)).toNat = ver ts := by
      rintro f rfl
      rw [Function.update_self, clock_raised]
    refine after rfl ⟨fun x hx => ?_, (hcl _ rfl).ge⟩
    have hle := ((ht t).mono (hm _)).below x hx
    rw [hpc, hcl _ rfl, Pc.raising, max_self] at hle
    exact le_max_of_le_left (hle.trans (hcl _ rfl).ge)
  | @finish t c op ts buf hpc =>
    have hp := (ht t).pc
    rw [hpc] at hp
    exact lift rfl ((ht t).finish hp (by rw [hpc]; rfl) (hrec t))
  | @finishValid t c op ts buf looked hpc =>
    have hp := (ht t).pc
    rw [hpc] at hp
    exact lift rfl ((ht t).finish hp (by rw [hpc]; rfl) (hrec t))
  | @issue t c o hpc hc =>
    have hbelow : ∀ x, (σ.th t).tx.Records x → ver x ≤ (σ.clock (cfg.node t)).toNat := by
      intro x hx
      have hle := (ht t).below x hx
      rw [hpc] at hle
      exact hle.trans (max_le le_rfl (Nat.zero_le _))
    have hnext := clock_next (h.small (cfg.node t))
    have hlt : (σ.clock (cfg.node t) + 1).toNat < 2 ^ 48 := by
      have hb : (Function.update σ.clock (cfg.node t) (σ.clock (cfg.node t) + 1)
        (cfg.node t)).toNat < 2 ^ 48 := hb
      rwa [Function.update_self] at hb
    refine after rfl ⟨fun x hx => ?_, fun x hx => ?_⟩
    · exact le_max_of_le_left ((hbelow x hx).trans (hm _))
    · rw [ver_newVersion hlt, hnext]
      exact Nat.lt_succ_of_le (hbelow x hx)
  | @release t c version b left hpc hc =>
    have hp := (ht t).pc
    rw [hpc] at hp
    exact lift rfl ((ht t).go (hrec t) (by rw [hpc]; exact Nat.zero_le _) hp)
  | released hpc | committed hpc =>
    exact lift rfl ((ht _).go hclear (by rw [Act.tid, hpc]; exact Nat.zero_le _) trivial)
  | lockPoint hpc | batch hpc | send hpc | restore hpc | validated hpc | invalid hpc
  | put _ _ hpc =>
    exact lift rfl ((ht _).go (hrec _) (by rw [Act.tid, hpc]; exact Nat.zero_le _) trivial)
  | load | reply | lost => exact (ht _).mono (hm _)
  | refuse | grant => exact lift rfl (ht _)
  | @deliver t t' k p tx changed hk hm' hdesc =>
    obtain rfl := delivers hok.local_ok hok.descs _ _ _ _ _ _ hk hm' hdesc
    refine lift rfl ⟨(ht t').below, ?_⟩
    have hp := (ht t').pc
    dsimp only
    cases hpc : (σ.th t').pc with
    | increaseClock op ts buf cur =>
      rw [hpc] at hp
      cases cur with
      | none => trivial
      | some cur => exact hp
    | validateStart | validate | releaseLocksWithNewClock =>
      rw [hpc] at hp
      exact hp
    | _ => trivial

/-- A step keeps the clocks ahead of what the threads have recorded. -/
theorem Sys.ClockOk.step (h : σ.ClockOk cfg) (hok : σ.Ok cfg) (hr : Rule cfg σ a σ')
    (hb : ClockBelow cfg (2 ^ 48) σ a σ') : σ'.ClockOk cfg where
  small := h.small_step hr hb
  thread t := by
    rcases eq_or_ne t a.tid with rfl | ht
    · exact hr.clockOk h hok hb
    · rw [(hr.sameBut (delivers hok.local_ok hok.descs)).th t ht]
      exact (h.thread t).mono (h.clock_mono hr _)

/-! ## Timestamps in memory -/

/-- The clocks are ahead of all timestamps. -/
structure Sys.StampOk (cfg : Config) (σ : Sys cfg.segs) : Prop where
  thread : ∀ t, (σ.th t).StampOk σ.clock
  lock : ∀ ℓ, Stamp σ.clock (σ.locks ℓ)
  cache : ∀ n b v, σ.cache n b = some v → Stamp σ.clock v

theorem Sys.StampOk.init (objs : Flat) : (Sys.init cfg.segs objs).StampOk cfg where
  thread _ := by
    refine ⟨?_, fun _ => le_rfl⟩
    rintro ts (h | h | ⟨b, h⟩)
    · exact absurd h Tx.not_records_new
    · cases h
    · cases h
  lock _ := Nat.zero_le _
  cache _ _ _ h := by cases h

/-- A thread that goes on. -/
theorem Goes.stampOk {pc : Pc cfg.segs} (hg : Goes cfg σ t pc) (h : σ.StampOk cfg) :
    ∀ ts, pc.Carries ts → Stamp σ.clock ts := by
  have hhas : ∀ ts, (σ.th t).pc.Carries ts → Stamp σ.clock ts := fun ts hts =>
    (h.thread t).stamp ts (.inr (.inl hts))
  cases hg with
  | readVersion hpc hl =>
    rintro ts rfl
    exact h.lock _
  | readPiece _ _ hpc | clockRead hpc | clockKept hpc | clockRetry hpc | validate _ hpc
  | looked hpc | valid hpc =>
    rw [hpc] at hhas
    exact hhas
  | _ =>
    intro ts hts
    cases hts

theorem Build.toCache_stamp {clock : ℕ → Word} {build : Build} {b ts : Word}
    (h : Stamp clock ts) : ∀ b' ts', build.toCache b ts = some (b', ts') → Stamp clock ts' := by
  intro b' ts' he
  rw [Build.toCache] at he
  split at he
  · cases he
    exact h
  · cases he

/-- A call that returns. -/
theorem Thread.StampOk.finish {th : Thread cfg.segs} {clock : ℕ → Word} (h : th.StampOk clock)
    {op : Op cfg.segs} {ts : Word} {value : List Byte} {tx : Tx} {v : Variant}
    (hc : th.toCache = none) (hts : Stamp clock ts) (htx : ∀ x, tx.Records x → th.tx.Records x)
    (hvc : ∀ m, (tx.VC m).toNat ≤ (clock m).toNat) :
    Thread.StampOk (g := cfg.segs) clock
      { th with tx := (tx.finished v op ts value).1, pc := .active } where
  stamp x hx := by
    rcases hx with hx | hx | ⟨b, hx⟩
    · rcases hx.of_finished with hx | rfl
      · exact h.stamp x (.inl (htx x hx))
      · exact hts
    · cases hx
    · rw [hc] at hx
      cases hx
  vc m := by
    dsimp only
    rw [(Tx.finished_eq ts value).2]
    exact hvc m

/-- A step keeps the timestamps of its thread behind the clocks. -/
theorem Rule.stampOk (hr : Rule cfg σ a σ') (h : σ.StampOk cfg) (hok : σ.Ok cfg)
    (hm : ∀ m, (σ.clock m).toNat ≤ (σ'.clock m).toNat) (hn : ∀ t, cfg.node t < 2 ^ 15)
    (hb : ClockBelow cfg (2 ^ 48) σ a σ') : (σ'.th a.tid).StampOk σ'.clock := by
  have after : ∀ {th : Thread cfg.segs}, σ'.th = Function.update σ.th a.tid th →
      th.StampOk σ'.clock → (σ'.th a.tid).StampOk σ'.clock := by
    intro th he ho
    rw [he, Function.update_self]
    exact ho
  have lift : ∀ {th : Thread cfg.segs}, σ'.th = Function.update σ.th a.tid th →
      th.StampOk σ.clock → (σ'.th a.tid).StampOk σ'.clock :=
    fun he ho => after he (ho.mono hm)
  have ht : ∀ t, (σ.th t).StampOk σ.clock := h.thread
  have hrec : ∀ t ts, (σ.th t).tx.Records ts → (σ.th t).tx.Records ts := fun _ _ h => h
  have hnone : ∀ t, (σ.th t).toCache = none →
      ∀ b ts, (σ.th t).toCache = some (b, ts) → Stamp σ.clock ts := by
    intro t hc b ts he
    rw [hc] at he
    cases he
  have hclear : ∀ {tx : Tx} {t} ts, tx.clear.Records ts → (σ.th t).tx.Records ts :=
    fun ts hts => absurd hts Tx.not_records_clear
  cases hr with
  | @goto _ t _ ha hc hg =>
    subst ha
    exact lift rfl ((ht _).go (hrec _) rfl (hg.stampOk h) (hnone _ hc))
  | @new t ptr hpc hc =>
    refine lift rfl ⟨?_, fun _ => Nat.zero_le _⟩
    rintro ts (hts | hts | ⟨b, hts⟩)
    · exact absurd hts Tx.not_records_new
    · dsimp only at hts
      rw [hpc] at hts
      cases hts
    · exact hnone t hc b ts hts
  | @begin t ptr hpc hc =>
    refine lift rfl ⟨?_, fun _ => Nat.zero_le _⟩
    rintro ts (hts | hts | ⟨b, hts⟩)
    · exact (ht t).stamp ts (.inl hts)
    · cases hts
    · exact hnone t hc b ts hts
  | @delete t ptr hpc hc => exact lift rfl ⟨(ht t).stamp, (ht t).vc⟩
  | @addVersion t b ts hc =>
    exact lift rfl ((ht t).go (hrec t) rfl (fun ts hts => (ht t).stamp ts (.inr (.inl hts)))
      (fun b ts he => by cases he))
  | @served t op tx r hpc hc hs =>
    refine lift rfl ((ht t).go (fun ts hts => hts.of_served hs) (Tx.served_eq hs).2 ?_ (hnone t hc))
    dsimp only
    rw [hpc]
    intro ts hts
    cases hts
  | @abort _ t v hpc hc ha hv =>
    subst ha
    refine lift rfl ((ht _).go hclear rfl (fun ts hts => by cases hts) ?_)
    cases hv with
    | none =>
      intro b ts he
      cases he
    | stale => exact Build.toCache_stamp (h.lock _)
  | @fetched t c op ts buf hpc hc hlk heq =>
    have hstamp : Stamp σ.clock ts := (ht t).stamp ts (.inr (.inl (by rw [hpc]; exact rfl)))
    refine lift rfl ⟨?_, ?_⟩
    · rintro x (hx | hx | ⟨b, hx⟩)
      · rcases hx.of_fetched with hx | rfl
        · exact (ht t).stamp x (.inl hx)
        · exact hstamp
      · rw [show x = ts from hx]
        exact hstamp
      · exact Build.toCache_stamp hstamp b x hx
    · dsimp only
      rw [(Tx.fetched_eq ts buf).2]
      exact (ht t).vc
  | @clockRaised t c op ts buf hpc hc =>
    refine lift rfl ((ht t).go (hrec t) rfl (fun x hx => ?_) (hnone t hc))
    exact (ht t).stamp x (.inr (.inl (by rw [hpc]; exact hx)))
  | @finish t c op ts buf hpc hc =>
    have hstamp : Stamp σ.clock ts := (ht t).stamp ts (.inr (.inl (by rw [hpc]; exact rfl)))
    exact lift rfl ((ht t).finish hc hstamp (hrec t) (ht t).vc)
  | @finishValid t c op ts buf looked hpc hc =>
    have hstamp : Stamp σ.clock ts := (ht t).stamp ts (.inr (.inl (by rw [hpc]; exact rfl)))
    refine lift rfl ((ht t).finish hc hstamp (hrec t) fun m => ?_)
    rw [Tx.setVC]
    dsimp only
    rcases eq_or_ne m (nodeOfTs ts) with rfl | hne
    · rw [Function.update_self, versionTs_toNat_ver]
      exact hstamp
    · rw [Function.update_of_ne hne]
      exact (ht t).vc m
  | @invalid t c o b e left looked v hpc hc hv =>
    refine lift rfl ((ht t).go (hrec t) rfl (fun ts hts => by cases hts) ?_)
    cases hv with
    | none =>
      intro b ts he
      cases he
    | stale => exact Build.toCache_stamp (h.lock _)
  | @issue t c o hpc hc =>
    have hlt : (σ.clock (cfg.node t) + 1).toNat < 2 ^ 48 := by
      have hb : (Function.update σ.clock (cfg.node t) (σ.clock (cfg.node t) + 1)
        (cfg.node t)).toNat < 2 ^ 48 := hb
      rwa [Function.update_self] at hb
    refine after rfl (((ht t).mono hm).go (hrec t) rfl ?_ (fun b ts he => ?_))
    · rintro x rfl
      refine stamp_newVersion (hn t) hlt ?_
      dsimp only
      rw [Function.update_self]
    · exact (hnone t hc b ts he).mono hm
  | @release t c version b left hpc hc =>
    have hstamp : Stamp σ.clock version :=
      (ht t).stamp version (.inr (.inl (by rw [hpc]; exact rfl)))
    refine lift rfl ((ht t).go (hrec t) rfl ?_ (Build.toCache_stamp hstamp))
    rintro ts rfl
    exact hstamp
  | released =>
    exact lift rfl ((ht _).go hclear rfl (fun ts hts => by cases hts) (fun b ts he => by cases he))
  | committed _ hc =>
    exact lift rfl ((ht _).go hclear rfl (fun ts hts => by cases hts) (hnone _ hc))
  | lockPoint _ hc | batch _ _ hc | send _ hc | restore _ hc | validated _ hc | put _ _ _ hc =>
    exact lift rfl ((ht _).go (hrec _) rfl (fun ts hts => by cases hts) (hnone _ hc))
  | load | reply | lost => exact (ht _).mono hm
  | refuse | grant => exact lift rfl (ht _)
  | @deliver t t' k p tx changed hk hm' hdesc =>
    obtain rfl := delivers hok.local_ok hok.descs _ _ _ _ _ _ hk hm' hdesc
    exact lift rfl ⟨(ht t').stamp, (ht t').vc⟩

/-- A word that the code of a thread puts into a lock is a timestamp of the thread. -/
theorem PutsLock.has {b w : Word} (hp : PutsLock (σ.th t) b w) (hok : σ.Ok cfg) (ha : σ.AttOk) :
    (σ.th t).Has w := by
  cases hp with
  | @restore left hpc hb =>
    have hh := (PutsLock.restore hpc hb).holds hok
    exact .inl (Tx.records_entryTs (hh.inside hok ha).2.2.1)
  | release hpc => exact .inr (.inl (by rw [hpc]; exact rfl))

/-- A step keeps the clocks ahead of all timestamps. -/
theorem Sys.StampOk.step (h : σ.StampOk cfg) (hcl : σ.ClockOk cfg) (hg : σ.Good cfg)
    (hr : Rule cfg σ a σ') (hn : ∀ t, cfg.node t < 2 ^ 15)
    (hb : ClockBelow cfg (2 ^ 48) σ a σ') : σ'.StampOk cfg where
  thread t := by
    rcases eq_or_ne t a.tid with rfl | ht
    · exact hr.stampOk h hg.ok (hcl.clock_mono hr) hn hb
    · rw [(hr.sameBut (delivers hg.ok.local_ok hg.ok.descs)).th t ht]
      exact (h.thread t).mono (hcl.clock_mono hr)
  lock ℓ := by
    have hold : Stamp σ'.clock (σ.locks ℓ) := (h.lock ℓ).mono (hcl.clock_mono hr)
    have hset : ∀ {b w : Word}, Stamp σ.clock w →
        Stamp σ'.clock (Function.update σ.locks (cfg.segs.lockLoc b) w ℓ) := by
      intro b w hw
      rcases eq_or_ne ℓ (cfg.segs.lockLoc b) with rfl | hl
      · rw [Function.update_self]
        exact hw.mono (hcl.clock_mono hr)
      · rw [Function.update_of_ne hl]
        exact hold
    cases hr.lockStep hg.ok hg.att with
    | keep hlocks =>
      rw [hlocks]
      exact hold
    | @grant t b hpc hm hgr hlocks =>
      rw [hlocks]
      refine hset (Stamp.lockValNew ?_ ((hg.ok.local_ok t).tx.unlocked_entryTs hm))
      exact (h.thread t).stamp _ (.inl (Tx.records_entryTs hm))
    | @giveBack t b w hh hp hlocks =>
      rw [hlocks]
      exact hset ((h.thread t).stamp _ (hp.has hg.ok hg.att))
  cache n b v hv := by
    refine Stamp.mono (hcl.clock_mono hr) ?_
    rcases hr.cache with ⟨t, b', ts, -, hto, he⟩ | ⟨-, he⟩
    · rw [he] at hv
      rcases eq_or_ne n (cfg.node t) with rfl | hne
      · rw [Function.update_self] at hv
        rcases addVersionToCache_eq_some hv with hv | ⟨rfl, rfl, -⟩
        · exact h.cache _ _ _ hv
        · exact (h.thread t).stamp _ (.inr (.inr ⟨_, hto⟩))
      · rw [Function.update_of_ne hne] at hv
        exact h.cache _ _ _ hv
    · exact h.cache n b v (he ▸ hv)

end

/-! ## Calls of `releaseLocksWithNewClock` -/

section
variable {cfg : Config} {σ σ' : Sys cfg.segs} {a : Act cfg.segs} {t : Tid}
  {h : List (Sys cfg.segs × Act cfg.segs)}

/-- The version of a thread that is inside `releaseLocksWithNewClock`, and whether it is about to
get it. -/
def Pc.releasing {g : Segments} : Pc g → Option Word
  | .releaseLocksWithNewClock version _ => some version
  | _ => none

def Pc.nextClock {g : Segments} : Pc g → Bool
  | .getNextClock _ _ => true
  | _ => false

/-- The `new_version` of the call of `releaseLocksWithNewClock` that a step makes, if it does. -/
def newCall (cfg : Config) (x : Sys cfg.segs × Act cfg.segs) : Option Word :=
  (step cfg x.1 x.2).bind fun σ' =>
    if (x.1.th x.2.tid).pc.nextClock then (σ'.th x.2.tid).pc.releasing else none

/-- The step leaves the clock of its node below `2 ^ 48`. -/
def SmallStep (cfg : Config) (x : Sys cfg.segs × Act cfg.segs) : Bool :=
  (step cfg x.1 x.2).all fun σ' => decide (ClockBelow cfg (2 ^ 48) x.1 x.2 σ')

theorem Pc.releasing_of_nextClock {g : Segments} {pc : Pc g} (h : pc.nextClock = true) :
    pc.releasing = none := by
  cases pc with
  | getNextClock => rfl
  | _ => cases h

/-- A thread that goes on does not call it. -/
theorem Goes.releasing {pc : Pc cfg.segs} (hg : Goes cfg σ t pc) : pc.releasing = none := by
  cases hg <;> rfl

/-- A call has the next value of the clock in its version. -/
theorem Rule.nextClock (hr : Rule cfg σ a σ') (hok : σ.Ok cfg) {v : Word}
    (hnext : (σ.th a.tid).pc.nextClock = true) (hv : (σ'.th a.tid).pc.releasing = some v) :
    NextClock σ a.tid σ' v := by
  have lift : ∀ {th : Thread cfg.segs}, σ'.th = Function.update σ.th a.tid th →
      th.pc.releasing = none → NextClock σ a.tid σ' v := by
    intro th he hno
    rw [he, Function.update_self, hno] at hv
    cases hv
  have hsame := Pc.releasing_of_nextClock hnext
  cases hr with
  | goto ha hc hg =>
    subst ha
    exact lift rfl hg.releasing
  | @issue t c o hpc hc =>
    have hth : ∀ f : Tid → Thread cfg.segs, f = Function.update σ.th t { σ.th t with
        pc := .releaseLocksWithNewClock
          (newVersion (cfg.node t) (σ.clock (cfg.node t) + 1)) o.ws } →
        (f t).pc.releasing = some (newVersion (cfg.node t) (σ.clock (cfg.node t) + 1)) := by
      rintro f rfl
      rw [Function.update_self]
      rfl
    refine ⟨Function.update_self .., ?_⟩
    rw [← Option.some.inj ((hth _ rfl).symm.trans hv)]
    show _ = newVersion _ (Function.update σ.clock (cfg.node t)
      (σ.clock (cfg.node t) + 1) (cfg.node t))
    rw [Function.update_self]
    rfl
  | new ptr hpc | begin hpc | delete hpc | served hpc | fetched hpc | clockRaised hpc
  | finish hpc | finishValid hpc | lockPoint hpc | batch hpc | send hpc | released hpc
  | restore hpc | validated hpc | invalid hpc | put _ _ hpc | release hpc | committed hpc =>
    rw [Act.tid, hpc] at hnext
    cases hnext
  | abort hpc hc ha =>
    subst ha
    exact lift rfl rfl
  | addVersion | refuse | grant => exact lift rfl hsame
  | deliver hk hm hdesc =>
    obtain rfl := delivers hok.local_ok hok.descs _ _ _ _ _ _ hk hm hdesc
    exact lift rfl hsame
  | load | reply | lost => cases hsame.symm.trans hv

/-- The step of a call. -/
theorem newCall_eq_some (hok : σ.Ok cfg) {v : Word} (ha : step cfg σ a = some σ')
    (hv : newCall cfg (σ, a) = some v) : NextClock σ a.tid σ' v := by
  rw [newCall] at hv
  dsimp only at hv
  rw [ha, Option.bind_some] at hv
  split at hv
  · exact (step_rule ha).nextClock hok ‹_› hv
  · cases hv

/-- The versions of the calls so far are made of clocks that are over. -/
structure CallsOk (cfg : Config) (h : List (Sys cfg.segs × Act cfg.segs)) (σ : Sys cfg.segs) :
    Prop where
  nodup : (h.filterMap (newCall cfg)).Nodup
  made : ∀ v ∈ h.filterMap (newCall cfg), ∃ t, ∃ c : Word,
    c.toNat ≤ (σ.clock (cfg.node t)).toNat ∧ v = newVersion (cfg.node t) c

/-- Nodes with numbers below `2 ^ 15` make different timestamps. -/
theorem newVersion_inj {n n' : ℕ} {c c' : Word} (hn : n < 2 ^ 15) (hn' : n' < 2 ^ 15)
    (hc : c.toNat < 2 ^ 48) (hc' : c'.toNat < 2 ^ 48)
    (h : newVersion n c = newVersion n' c') : n = n' ∧ c = c' := by
  have h0 := congrArg BitVec.toNat h
  rw [newVersion_toNat n hc, newVersion_toNat n' hc'] at h0
  exact ⟨by omega, BitVec.eq_of_toNat_eq (by omega)⟩

/-- A step keeps the versions of the calls apart. -/
theorem CallsOk.step (hc : CallsOk cfg h σ) (hcl : σ.ClockOk cfg) (hg : σ.Good cfg)
    (ha : DstmP1.step cfg σ a = some σ') (hn : ∀ t, cfg.node t < 2 ^ 15)
    (hb : ClockBelow cfg (2 ^ 48) σ a σ') : CallsOk cfg ((σ, a) :: h) σ' := by
  have hm := hcl.clock_mono (step_rule ha)
  have hmade : ∀ v ∈ h.filterMap (newCall cfg), ∃ t, ∃ c : Word,
      c.toNat ≤ (σ'.clock (cfg.node t)).toNat ∧ v = newVersion (cfg.node t) c := by
    intro v hv
    obtain ⟨t, c, hle, rfl⟩ := hc.made v hv
    exact ⟨t, c, hle.trans (hm _), rfl⟩
  cases hcall : newCall cfg (σ, a) with
  | none =>
    refine ⟨?_, ?_⟩
    · rw [List.filterMap_cons_none hcall]
      exact hc.nodup
    · rw [List.filterMap_cons_none hcall]
      exact hmade
  | some v =>
    obtain ⟨hnext, rfl⟩ := newCall_eq_some hg.ok ha hcall
    refine ⟨?_, ?_⟩
    · rw [List.filterMap_cons_some hcall, List.nodup_cons]
      refine ⟨fun hmem => ?_, hc.nodup⟩
      obtain ⟨t, c, hle, he⟩ := hc.made _ hmem
      obtain ⟨hnode, rfl⟩ :=
        newVersion_inj (hn _) (hn _) hb (hle.trans_lt (hcl.small _)) he
      rw [hnext, hnode, clock_next (hcl.small _)] at hle
      exact absurd hle (Nat.not_succ_le_self _)
    · intro v hv
      rw [List.filterMap_cons_some hcall, List.mem_cons] at hv
      rcases hv with rfl | hv
      · exact ⟨a.tid, _, le_rfl, rfl⟩
      · exact hmade v hv

theorem CallsOk.init (objs : Flat) : CallsOk cfg [] (Sys.init cfg.segs objs) where
  nodup := List.nodup_nil
  made _ hv := absurd hv List.not_mem_nil

/-- The clocks are ahead of what the threads have recorded, on any number of nodes. -/
theorem trace_clocks {objs : Flat} (ht : (cfg.lts objs).Trace h σ)
    (hb : ∀ x ∈ h, SmallStep cfg x = true) : σ.ClockOk cfg := by
  induction ht with
  | init hi => exact hi ▸ .init objs
  | @step h s s' a ht hs ih =>
    have hcl := ih fun x hx => hb x (List.mem_cons_of_mem _ hx)
    have hsmall := hb _ List.mem_cons_self
    rw [SmallStep, show step cfg s a = some s' from hs, Option.all_some,
      decide_eq_true_iff] at hsmall
    exact hcl.step (reach_good ht.reach).ok (step_rule hs) hsmall

/-- On nodes with numbers below `2 ^ 15` no timestamp is ahead of the clock of its node, and the
calls use different versions. -/
theorem trace_stampOk {objs : Flat} (hn : ∀ t, cfg.node t < 2 ^ 15)
    (ht : (cfg.lts objs).Trace h σ) (hb : ∀ x ∈ h, SmallStep cfg x = true) :
    σ.StampOk cfg ∧ CallsOk cfg h σ := by
  induction ht with
  | init hi => exact hi ▸ ⟨.init objs, .init objs⟩
  | @step h s s' a ht hs ih =>
    have hb' : ∀ x ∈ h, SmallStep cfg x = true := fun x hx => hb x (List.mem_cons_of_mem _ hx)
    obtain ⟨hst, hc⟩ := ih hb'
    have hcl := trace_clocks ht hb'
    have hsmall := hb _ List.mem_cons_self
    rw [SmallStep, show step cfg s a = some s' from hs, Option.all_some,
      decide_eq_true_iff] at hsmall
    have hg := reach_good ht.reach
    exact ⟨hst.step hcl hg (step_rule hs) hn hsmall, hc.step hcl hg hs hn hsmall⟩

/-! ## Main result -/

/-- **Commit timestamps are unique and causal.** In every run that keeps the clocks below
`2 ^ 48`, the version of a call of `releaseLocksWithNewClock` is greater than those the transaction
has recorded. On at most `2 ^ 15` nodes no two calls use the same `new_version`, and no timestamp
is ahead of the clock of the node in its node field. -/
theorem trace_commitTimestamps {objs : Flat} (ht : (cfg.lts objs).Trace h σ)
    (hb : ∀ x ∈ h, SmallStep cfg x = true) :
    (∀ t version left, (σ.th t).pc = .releaseLocksWithNewClock version left →
      ∀ ts, (σ.th t).tx.Records ts → ver ts < ver version) ∧
    (cfg.segs.nodes ≤ 2 ^ 15 →
      (h.filterMap (newCall cfg)).Nodup ∧
      (∀ ℓ, Stamp σ.clock (σ.locks ℓ)) ∧
      (∀ t ts, (σ.th t).tx.Records ts → Stamp σ.clock ts) ∧
      (∀ t m, ((σ.th t).tx.VC m).toNat ≤ (σ.clock m).toNat) ∧
      ∀ n b v, σ.cache n b = some v → Stamp σ.clock v) := by
  refine ⟨fun t version left hpc => ?_, fun hn => ?_⟩
  · have hp := ((trace_clocks ht hb).thread t).pc
    rw [hpc] at hp
    exact hp
  · obtain ⟨hst, hc⟩ := trace_stampOk (fun t => (cfg.node_lt t).trans_le hn) ht hb
    exact ⟨hc.nodup, hst.lock, fun t ts hts => (hst.thread t).stamp ts (.inl hts),
      fun t => (hst.thread t).vc, hst.cache⟩

end

/-- The versions of the calls of a run, and whether the run keeps the clocks small. -/
def callsOf (cfg : Config) (x : List (Sys cfg.segs × Act cfg.segs) × Sys cfg.segs) :
    List Word × Bool :=
  (x.1.filterMap (newCall cfg), x.1.all (SmallStep cfg))

/-- One more node than the node field can tell apart. -/
def wide : Config where
  build := ⟨.variant1, false⟩
  segs := { smallSegs with nodes := 2 ^ 15 + 1 }
  node t := if t = 0 then 0 else 2 ^ 15
  node_lt t := by
    dsimp only
    split <;> omega

/-- Two values of node 0, in different cells. -/
def wideX : Access wide.segs :=
  ⟨0x2000C0, .u64, ⟨by decide, by decide, by decide, by decide⟩, rfl⟩

def wideY : Access wide.segs :=
  ⟨0x200080, .u64, ⟨by decide, by decide, by decide, by decide⟩, rfl⟩

/-- A transaction of `t` that writes `x` and commits; the write takes `k` steps. -/
def wideWrite (t : Tid) (x : Access wide.segs) (v : Value x.width) (k : ℕ) :
    List (Act wide.segs) :=
  let run (n : ℕ) := List.replicate n (Act.run t ⟨0, 64, ⟨[], [x.block], []⟩, 0⟩)
  List.flatten [[.begin t, .call t (.write x v)], run k, [.commit t ⟨[], [x.block], []⟩], run 3,
    [.handle t 0, .handle t 0, .handle t 0, .deliver t 0], run 10]

/-- Node `2 ^ 15` commits a cell twice, then node 0 commits another one. Node 0 makes the first
`new_version` of node `2 ^ 15` again, and the word in the lock of the first cell is ahead of the
clock of node 0, which is in its node field. -/
theorem commitTimestamps_wide : ∃ h σ, (wide.lts fun _ _ => 0).Trace h σ ∧
    (∀ x ∈ h, SmallStep wide x = true) ∧ ¬ (h.filterMap (newCall wide)).Nodup ∧
    ¬ Stamp σ.clock (σ.locks (wide.segs.lockLoc wideX.block)) := by
  have hrun : (((wide.lts fun _ _ => 0).runHist [] (Sys.init _ fun _ _ => 0)
      (List.flatten [[.new 1 16], wideWrite 1 wideX (smallValue 1) 5,
        wideWrite 1 wideX (smallValue 2) 6, [.new 0 16], wideWrite 0 wideY (smallValue 1) 5])).map
      fun x => (callsOf wide x, x.2.locks (wide.segs.lockLoc wideX.block), x.2.clock 0)) =
      some (([1, 2, 1], true), 2, 1) := by decide +kernel
  obtain ⟨h, σ, ht, ho⟩ := Lts.Trace.of_runHist rfl hrun
  obtain ⟨hcallsOf, hrest⟩ := Prod.mk.inj ho
  obtain ⟨hcalls, hall⟩ := Prod.mk.inj hcallsOf
  obtain ⟨hlock, hclock⟩ := Prod.mk.inj hrest
  refine ⟨h, σ, ht, List.all_eq_true.1 hall, ?_, ?_⟩
  · rw [hcalls]
    decide
  · rw [hlock, Stamp, show nodeOfTs 2 = 0 from rfl, hclock]
    decide

/-- Two nodes commit the same cell, one after the other, with the versions 1 and 2. -/
theorem commitTimestamps_two : ∃ h σ,
    ((small ⟨.variant1, false⟩).lts fun _ _ => 0).Trace h σ ∧
    h.filterMap (newCall (small ⟨.variant1, false⟩)) = [0x1000000000002, 1] ∧
    (h.filterMap (newCall (small ⟨.variant1, false⟩))).Nodup ∧
    ∀ ℓ, Stamp σ.clock (σ.locks ℓ) := by
  have hrun : (((small ⟨.variant1, false⟩).lts fun _ _ => 0).runHist [] (Sys.init _ fun _ _ => 0)
      (List.flatten ([0, 1].map fun t => List.flatten
        [[.new t 16, .begin t, .call t (.write cellX (smallValue 1))],
          runsWith _ t [cellX.block] (if t = 0 then 5 else 7),
          [.commit t ⟨[], [cellX.block], []⟩], runs _ t 3,
          [.handle t 0, .handle t 0, .handle t 0, .deliver t 0], runs _ t 10]))).map
      (callsOf (small ⟨.variant1, false⟩)) = some ([0x1000000000002, 1], true) := by
    decide +kernel
  obtain ⟨h, σ, ht, ho⟩ := Lts.Trace.of_runHist rfl hrun
  obtain ⟨hcalls, hall⟩ := Prod.mk.inj ho
  obtain ⟨-, hnodes⟩ := trace_commitTimestamps ht (List.all_eq_true.1 hall)
  obtain ⟨hnodup, hlock, -⟩ := hnodes (by decide)
  exact ⟨h, σ, ht, hcalls, hnodup, hlock⟩

end DstmP1
