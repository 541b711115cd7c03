import DstmP1.Accounting
import DstmP1.Erasure

/-!
# Lock ownership

A transaction holds the lock of a cell from the swap of the lock handler that grants it to the
put that gives it back. `Rule.lockStep` says what a step does to the lock words and to who holds
them: a lock is granted to a transaction whose lock word was not locked, one that holds it gives
it back, or nothing changes. It follows that a lock has one holder, which is inside `commit`, and
that a word with its lock bit set is the word of a lock that somebody holds (`lockOwnership`).

The last part needs clocks below `2^63`. A clock that reaches this value makes a new timestamp
whose lock bit is set (`lockOwnership_wrap`).
-/

namespace DstmP1

open Segments (Loc)

/-- `u` holds the lock of the cell `b`. -/
def Sys.Holds {g : Segments} (σ : Sys g) (u : Tid × ℕ) (b : Word) : Prop :=
  b ∈ (σ.att u).held.map Prod.fst

/-- The transaction has returned from `commit` or has aborted. -/
def Attempt.Ended {g : Segments} (a : Attempt g) : Prop := a.returned ≠ none ∨ a.aborted = true

/-! ## Records of other transactions -/

section
variable {cfg : Config} {σ σ' : Sys cfg.segs} {a : Act cfg.segs} {t : Tid}

/-- A step changes one thread and the record of its current transaction, and the transaction stays
the same unless the thread begins one. -/
theorem Rule.upd (hr : Rule cfg σ a σ') : ∃ t th me, σ'.th = (σ.upd t th me).th ∧
    σ'.att = (σ.upd t th me).att ∧ (th.round = (σ.th t).round ∨ (σ.th t).pc = .idle ∧
      th.round = (σ.th t).round + 1 ∧ me = Attempt.new cfg.segs σ.now) := by
  cases hr with
  | load | reply | lost =>
    refine ⟨0, σ.th 0, σ.me 0, ?_, ?_, .inl rfl⟩
    · exact (Function.update_eq_self _ _).symm
    · exact (Function.update_eq_self _ _).symm
  | begin hpc => exact ⟨_, _, _, rfl, rfl, .inr ⟨hpc, rfl, rfl⟩⟩
  | _ => exact ⟨_, _, _, rfl, rfl, .inl rfl⟩

/-- The thread and the record a step changes. -/
theorem Sys.lift {P : Thread cfg.segs → Attempt cfg.segs → Prop} {th : Thread cfg.segs}
    {me : Attempt cfg.segs} (h : P th me) (hth : σ'.th = (σ.upd t th me).th)
    (hatt : σ'.att = (σ.upd t th me).att) : P (σ'.th t) (σ'.me t) := by
  have h1 : σ'.th t = th := by rw [hth, Sys.upd_th]
  have h2 : σ'.me t = me := by
    rw [Sys.me, Sys.cur, h1, hatt]
    exact Function.update_self ..
  rwa [h1, h2]

/-- A step leaves the records alone of all but the current transactions. -/
theorem Rule.att_ne (hr : Rule cfg σ a σ') {u : Tid × ℕ} (hu : u ≠ σ'.cur u.1) :
    σ'.att u = σ.att u := by
  obtain ⟨t, th, me, hth, hatt, -⟩ := hr.upd
  rw [hatt]
  refine Sys.upd_att_ne ?_
  rintro rfl
  exact hu (by rw [Sys.cur, hth, Sys.upd_th])

/-- A step keeps the number of transactions a thread has begun, unless it begins one. -/
theorem Rule.round (hr : Rule cfg σ a σ') (t : Tid) :
    (σ'.th t).round = (σ.th t).round ∨ (σ.th t).pc = .idle ∧
      (σ'.th t).round = (σ.th t).round + 1 ∧ σ'.me t = Attempt.new cfg.segs σ.now := by
  obtain ⟨t', th, me, hth, hatt, hround⟩ := hr.upd
  by_cases ht : t = t'
  · subst ht
    exact Sys.lift (P := fun th me => th.round = _ ∨ (σ.th t).pc = .idle ∧ th.round = _ ∧ me = _)
      hround hth hatt
  · exact .inl (by rw [hth, Sys.upd_th_ne ht])

/-- What the record of transaction number `n` of a thread says: there is none with number 0, and
another has ended if and only if the thread is not inside it. -/
def EndedOk {g : Segments} (n : ℕ) (outside : Prop) (a : Attempt g) : Prop :=
  if n = 0 then outside ∧ a = Attempt.new g 0 else a.Ended ↔ outside

/-- The records of transactions that are over, still going on, or have not begun. -/
structure Sys.AttOk (σ : Sys cfg.segs) : Prop where
  cur : ∀ t, EndedOk (σ.th t).round ((σ.th t).pc = .idle) (σ.me t)
  past : ∀ u : Tid × ℕ, u.2 < (σ.th u.1).round →
    EndedOk u.2 True (σ.att u) ∧ (σ.att u).held = []
  new : ∀ u : Tid × ℕ, (σ.th u.1).round < u.2 → σ.att u = Attempt.new cfg.segs 0

theorem Goes.not_idle {pc : Pc cfg.segs} (hg : Goes cfg σ t pc) :
    ¬ (σ.th t).pc = .idle ∧ ¬ pc = .idle := by
  cases hg <;> refine ⟨fun h => ?_, by simp⟩ <;> simp_all

/-- A thread that goes on inside its transaction, whose record stays open. -/
theorem EndedOk.inside {n : ℕ} {p q : Prop} {a b : Attempt cfg.segs} (h : EndedOk n p a)
    (hp : ¬ p) (hq : ¬ q) (hb : b.Ended ↔ a.Ended) : EndedOk n q b := by
  rw [EndedOk] at *
  split at h
  · exact absurd h.1 hp
  · rw [if_neg ‹_›, hb, h]
    exact iff_of_false hp hq

/-- A thread that stays outside its transactions. -/
theorem EndedOk.outside {n : ℕ} {p q : Prop} {a : Attempt cfg.segs} (h : EndedOk n p a)
    (hp : p) (hq : q) : EndedOk n q a := by
  rwa [EndedOk, eq_true hq, ← eq_true hp]

/-- A transaction ends. -/
theorem EndedOk.end {n : ℕ} {p q : Prop} {a b : Attempt cfg.segs} (h : EndedOk n p a)
    (hp : ¬ p) (hq : q) (hb : b.Ended) : EndedOk n q b := by
  rw [EndedOk] at *
  split at h
  · exact absurd h.1 hp
  · rw [if_neg ‹_›]
    exact iff_of_true hb hq

/-- A step keeps the record of the current transaction of its thread in order. -/
theorem Rule.endedOk (hr : Rule cfg σ a σ') (hok : σ.Ok cfg)
    (h : EndedOk (σ.th a.tid).round ((σ.th a.tid).pc = .idle) (σ.me a.tid)) :
    EndedOk (σ'.th a.tid).round ((σ'.th a.tid).pc = .idle) (σ'.me a.tid) := by
  have lift : ∀ {th : Thread cfg.segs} {me : Attempt cfg.segs},
      σ'.th = (σ.upd a.tid th me).th → σ'.att = (σ.upd a.tid th me).att →
      EndedOk th.round (th.pc = .idle) me →
      EndedOk (σ'.th a.tid).round ((σ'.th a.tid).pc = .idle) (σ'.me a.tid) :=
    fun hth hatt h => Sys.lift (P := fun th me => EndedOk th.round (th.pc = .idle) me) h hth hatt
  cases hr with
  | goto ha hc hg =>
    subst ha
    exact lift rfl rfl (h.inside hg.not_idle.1 (q := _ = _) hg.not_idle.2 .rfl)
  | new ptr hpc => exact lift rfl rfl (h.outside hpc hpc)
  | begin hpc =>
    refine lift rfl rfl ?_
    rw [EndedOk, if_neg (Nat.succ_ne_zero _)]
    exact iff_of_false (by simp [Attempt.Ended, Attempt.new]) (by simp)
  | delete hpc => exact lift rfl rfl (h.outside hpc hpc)
  | addVersion => exact lift rfl rfl h
  | load | reply | lost => exact h
  | abort hpc hc ha =>
    subst ha
    refine lift rfl rfl (h.end (fun hi => ?_) rfl (.inr rfl))
    rw [hi] at hpc
    cases hpc
  | released hpc => exact lift rfl rfl (h.end (by rw [Act.tid, hpc]; simp) rfl (.inr rfl))
  | committed hpc => exact lift rfl rfl (h.end (by rw [Act.tid, hpc]; simp) rfl (.inl (by simp)))
  | deliver hk hm hdesc =>
    obtain rfl := delivers hok.local_ok hok.descs _ _ _ _ _ _ hk hm hdesc
    exact lift rfl rfl h
  | @refuse t k p i old changed hk | @grant t k p i old changed hk =>
    have hpc : ¬ (σ.th t).pc = .idle := fun hi => by
      have hb := (hok.inBatch (List.mem_of_getElem? hk)).1
      rw [hi] at hb
      cases hb
    exact lift rfl rfl (h.inside hpc hpc .rfl)
  | served hpc =>
    exact lift rfl rfl (h.inside (by rw [Act.tid, hpc]; simp) (by rw [hpc]; simp) .rfl)
  | fetched hpc | clockRaised hpc | finish hpc | finishValid hpc | lockPoint hpc
  | batch hpc | send hpc | restore hpc | validated hpc | invalid hpc | put _ _ hpc | issue hpc
  | release hpc =>
    exact lift rfl rfl (h.inside (by rw [Act.tid, hpc]; simp) (by simp) .rfl)

theorem Sys.AttOk.init (objs : Flat) : (Sys.init cfg.segs objs).AttOk where
  cur _ := ⟨rfl, rfl⟩
  past _ hu := absurd hu (Nat.not_lt_zero _)
  new _ _ := rfl

theorem Sys.AttOk.step (h : σ.AttOk) (hok : σ.Ok cfg) (hr : Rule cfg σ a σ') : σ'.AttOk where
  cur t := by
    have hs := hr.sameBut (delivers hok.local_ok hok.descs)
    by_cases ht : t = a.tid
    · subst ht
      exact hr.endedOk hok (h.cur _)
    · rw [hs.th t ht, hs.me ht]
      exact h.cur t
  past u hu := by
    rw [hr.att_ne fun he => hu.ne (congrArg Prod.snd he)]
    rcases hr.round u.1 with hround | ⟨hpc, hround, -⟩
    · exact h.past u (hround ▸ hu)
    · rw [hround, Nat.lt_succ_iff] at hu
      rcases hu.lt_or_eq with hu | hu
      · exact h.past u hu
      · have hcur := h.cur u.1
        have hl := (hok.local_ok u.1).pc
        simp only [PcOk, hpc] at hl
        rw [Sys.me, show σ.cur u.1 = u from Prod.ext rfl hu.symm] at hcur hl
        exact ⟨hu ▸ hcur.outside hpc trivial, List.map_eq_nil_iff.1 hl.held.eq_nil⟩
  new u hu := by
    rw [hr.att_ne fun he => hu.ne' (congrArg Prod.snd he)]
    refine h.new u (lt_of_le_of_lt ?_ hu)
    rcases hr.round u.1 with hround | ⟨-, hround, -⟩ <;> omega

/-- A transaction that holds a lock is inside `commit`, with the cell in its write set. -/
theorem LocalOk.held_mem {th : Thread cfg.segs} {me : Attempt cfg.segs} {net : List Packet}
    (h : LocalOk cfg t th me net) {b : Word} (hb : b ∈ me.held.map Prod.fst) :
    b ∈ th.tx.writeSet ∧ th.pc.committing = true := by
  have hpc := h.pc
  have hnil : ¬ HasLocks th.tx.rlChangedObjects me.held net [] := fun hl => by
    rw [hl.held.eq_nil] at hb
    cases hb
  have hws : ∀ {o : Tx.Orders}, o.Of th.tx → b ∈ o.ws → b ∈ th.tx.writeSet :=
    fun ho hb => AList.mem_keys.2 (ho.ws.mem_iff.1 hb)
  cases hp : th.pc with
  | idle => simp only [PcOk, hp] at hpc; exact absurd hpc hnil
  | active | readCell | increaseClock | validateStart | validate =>
    exact absurd (hpc.calling (by rw [hp]; rfl)) hnil
  | getLocks o done rest =>
    simp only [PcOk, hp] at hpc
    obtain ⟨ho, he, hl⟩ := hpc
    exact ⟨hws ho (he ▸ List.mem_append_left _ (hl.held.mem_iff.1 hb)), rfl⟩
  | requestLocks o done batch rest unsent requests | waitLocks o done batch rest requests =>
    simp only [PcOk, hp] at hpc
    obtain ⟨ho, he, this, -, hl⟩ := hpc
    refine ⟨hws ho (he ▸ List.mem_append_left _ ?_), rfl⟩
    have hacc := hl.account b
    have hpos := List.count_pos_iff.2 hb
    exact List.count_pos_iff.1 (by omega)
  | releaseLocks left =>
    simp only [PcOk, hp] at hpc
    obtain ⟨-, -, hmem, hperm⟩ := hpc
    exact ⟨hmem b (List.mem_filter.1 (hperm.mem_iff.1 hb)).1, rfl⟩
  | validateAll | getNextClock =>
    simp only [PcOk, hp] at hpc
    exact ⟨hws hpc.1 (hpc.2.held.mem_iff.1 hb), rfl⟩
  | commitWriteSetValues =>
    simp only [PcOk, hp] at hpc
    exact ⟨hws hpc.1 (hpc.2.1.held.mem_iff.1 hb), rfl⟩
  | releaseLocksWithNewClock =>
    simp only [PcOk, hp] at hpc
    exact ⟨hpc.2.2.1 b (hpc.1.held.mem_iff.1 hb), rfl⟩

/-- The write set does not change while the thread stays inside `commit`. -/
theorem Rule.writeSet_eq (hr : Rule cfg σ a σ') (hd : σ.Delivers) {t : Tid}
    (h : (σ.th t).pc.committing = true) (h' : (σ'.th t).pc.committing = true) :
    (σ'.th t).tx.writeSet = (σ.th t).tx.writeSet := by
  by_cases ht : t = a.tid
  · subst ht
    have lift : ∀ {th : Thread cfg.segs}, σ'.th = Function.update σ.th a.tid th →
        th.tx.writeSet = (σ.th a.tid).tx.writeSet →
        (σ'.th a.tid).tx.writeSet = (σ.th a.tid).tx.writeSet :=
      fun hth hw => by rw [hth, Function.update_self, hw]
    cases hr with
    | goto ha hc hg => subst ha; exact lift rfl rfl
    | abort hpc hc ha => subst ha; rw [Sys.abort, Sys.upd_th] at h'; cases h'
    | deliver hk hm hdesc =>
      obtain rfl := hd _ _ _ _ _ _ hk hm hdesc
      exact lift rfl rfl
    | load | reply | lost => rfl
    | released | committed => simp only [Act.tid, Sys.upd_th] at h'; cases h'
    | new _ hpc | begin hpc | delete hpc | served hpc | fetched hpc | finish hpc
    | finishValid hpc => rw [Act.tid, hpc] at h; cases h
    | _ => exact lift rfl rfl
  · rw [(hr.sameBut hd).th t ht]

/-! ## What a step does to locks -/

/-- The code of a thread is about to put `w` into the lock word of `b`: `releaseLocks` restores
the version of an object that was not refused, `releaseLocksWithNewClock` installs the new one. -/
inductive PutsLock {g : Segments} (th : Thread g) (b : Word) : Word → Prop where
  | restore {left : List Word} : th.pc = .releaseLocks (b :: left) →
      b ∉ th.tx.rlChangedObjects → PutsLock th b (entryTs th.tx.writeSet b)
  | release {version : Word} {left : List Word} :
      th.pc = .releaseLocksWithNewClock version (b :: left) → PutsLock th b version

/-- What a step does to the lock words and to the locks held. -/
inductive LockStep (cfg : Config) (σ σ' : Sys cfg.segs) : Prop where
  | keep : σ'.locks = σ.locks → (∀ u, (σ'.att u).held = (σ.att u).held) → LockStep cfg σ σ'
  | grant {t : Tid} {b : Word} : (σ.th t).pc.inBatch = true → b ∈ (σ.th t).tx.writeSet →
      isRefused (σ.locks (cfg.segs.lockLoc b)) (entryTs (σ.th t).tx.writeSet b) = false →
      σ'.locks = Function.update σ.locks (cfg.segs.lockLoc b)
        (lockValNew (entryTs (σ.th t).tx.writeSet b)) →
      (∀ u, (σ'.att u).held = if u = σ.cur t then
        (σ.me t).held ++ [(b, σ.locks (cfg.segs.lockLoc b))] else (σ.att u).held) →
      LockStep cfg σ σ'
  | giveBack {t : Tid} {b w : Word} : σ.Holds (σ.cur t) b → PutsLock (σ.th t) b w →
      σ'.locks = Function.update σ.locks (cfg.segs.lockLoc b) w →
      (∀ u, (σ'.att u).held = if u = σ.cur t then
        (σ.me t).held.filter fun e => e.1 ≠ b else (σ.att u).held) →
      LockStep cfg σ σ'

/-- The code puts only words of locks that its transaction holds. -/
theorem PutsLock.holds (hok : σ.Ok cfg) {b w : Word} (h : PutsLock (σ.th t) b w) :
    σ.Holds (σ.cur t) b := by
  have hl := (hok.local_ok t).pc
  cases h with
  | restore hpc hb =>
    simp only [PcOk, hpc] at hl
    obtain ⟨-, -, -, hperm⟩ := hl
    refine hperm.mem_iff.2 (List.mem_filter.2 ⟨List.mem_cons_self, ?_⟩)
    simpa using hb
  | release hpc =>
    simp only [PcOk, hpc] at hl
    exact hl.1.held.mem_iff.2 List.mem_cons_self

/-- Who holds which lock after a lock is granted. -/
theorem holds_grant {b : Word} {w : Word} (h : ∀ u, (σ'.att u).held = if u = σ.cur t then
    (σ.me t).held ++ [(b, w)] else (σ.att u).held) (u : Tid × ℕ) (b' : Word) :
    σ'.Holds u b' ↔ σ.Holds u b' ∨ u = σ.cur t ∧ b' = b := by
  rw [Sys.Holds, Sys.Holds, h]
  by_cases hu : u = σ.cur t
  · rw [if_pos hu, Sys.me, hu]
    simp [eq_comm]
  · simp [hu]

/-- Who holds which lock after a lock is given back. -/
theorem holds_giveBack {b : Word} (h : ∀ u, (σ'.att u).held = if u = σ.cur t then
    (σ.me t).held.filter fun e => e.1 ≠ b else (σ.att u).held) (u : Tid × ℕ) (b' : Word) :
    σ'.Holds u b' ↔ σ.Holds u b' ∧ ¬ (u = σ.cur t ∧ b' = b) := by
  rw [Sys.Holds, Sys.Holds, h]
  by_cases hu : u = σ.cur t
  · rw [if_pos hu, Sys.me, hu]
    simp only [List.mem_map, List.mem_filter, decide_eq_true_eq, true_and]
    constructor
    · rintro ⟨e, ⟨he, hne⟩, rfl⟩
      exact ⟨⟨e, he, rfl⟩, hne⟩
    · rintro ⟨⟨e, he, rfl⟩, hne⟩
      exact ⟨e, ⟨he, hne⟩, rfl⟩
  · simp [hu]

theorem Rule.lockStep (hr : Rule cfg σ a σ') (hok : σ.Ok cfg) (ha : σ.AttOk) :
    LockStep cfg σ σ' := by
  have hset : ∀ {t th me}, σ'.att = (σ.upd t th me).att → th.round = (σ.th t).round →
      ∀ u, (σ'.att u).held = if u = σ.cur t then me.held else (σ.att u).held := by
    intro t th me hatt hround u
    have hcur : σ.cur t = (t, th.round) := by rw [Sys.cur, hround]
    rw [hatt, hcur]
    by_cases hu : u = (t, th.round)
    · rw [if_pos hu, hu, Sys.upd_att]
    · rw [if_neg hu, Sys.upd_att_ne hu]
  have hkeep : ∀ {t th me}, σ'.locks = σ.locks → σ'.att = (σ.upd t th me).att →
      th.round = (σ.th t).round → me.held = (σ.me t).held → LockStep cfg σ σ' := by
    intro t th me hlocks hatt hround hme
    refine .keep hlocks fun u => ?_
    rw [hset hatt hround u]
    split
    · next hu => rw [hme, Sys.me, hu]
    · rfl
  cases hr with
  | load | reply | lost => exact .keep rfl fun _ => rfl
  | @begin t ptr hpc hc hthis =>
    refine .keep rfl fun u => ?_
    by_cases hu : u = (t, (σ.th t).round + 1)
    · subst hu
      rw [ha.new _ (Nat.lt_succ_self _)]
      exact (congrArg Attempt.held (Sys.upd_att (σ := σ))).trans rfl
    · exact congrArg Attempt.held (Sys.upd_att_ne (σ := σ) hu)
  | @restore t c b left hpc hc hb =>
    have hp := PutsLock.restore hpc hb
    exact .giveBack (hp.holds hok) hp rfl (hset rfl rfl)
  | @release t c version b left hpc hc =>
    have hp := PutsLock.release hpc
    exact .giveBack (hp.holds hok) hp rfl (hset rfl rfl)
  | @grant t k p i old changed hk hm hi ho =>
    have hp := List.mem_of_getElem? hk
    obtain ⟨o, done, batch, rest, unsent, requests, this, hthis, hof, hws, hb, hpc⟩ :=
      (hok.local_ok t).pc.batch hp
    have hin : ∀ b ∈ batch, b ∈ o.ws := fun b hb => by
      rw [hws]
      exact List.mem_append_left _ (List.mem_append_right _ hb)
    obtain ⟨b, hbm, hobj, hlock, hver, hpend⟩ :=
      hb.object (fun b hb => (hok.local_ok t).isCell hof (hin b hb)) hp hm hi
    rw [hobj, hlock, hver] at hset ⊢
    rw [hlock] at ho
    obtain ⟨-, -, -, hmsg⟩ := hb.packet p hp
    rw [Packet.MsgOk, hm] at hmsg
    refine .grant (t := t) (b := b) (hok.inBatch hp).1
      (AList.mem_keys.2 (hof.ws.mem_iff.1 (hin b hbm))) ?_ rfl (by rw [ho]; exact hset rfl rfl)
    rw [ho, ← hver]
    exact hmsg.2 old rfl
  | _ => exact hkeep rfl rfl rfl rfl

/-! ## Invariants -/

/-- The word of a lock that is held is the version of the holder's entry, locked; and a lock has
one holder. -/
structure Sys.OwnOk (cfg : Config) (σ : Sys cfg.segs) : Prop where
  word : ∀ u b, σ.Holds u b →
    σ.locks (cfg.segs.lockLoc b) = lockValNew (entryTs (σ.th u.1).tx.writeSet b)
  excl : ∀ u u' b, σ.Holds u b → σ.Holds u' b → u = u'

/-- A transaction that holds a lock is the current one of its thread, which is inside `commit`;
the lock is that of a cell in its write set. -/
theorem Sys.Holds.inside (hok : σ.Ok cfg) (ha : σ.AttOk) {u : Tid × ℕ} {b : Word}
    (h : σ.Holds u b) : u = σ.cur u.1 ∧ (σ.th u.1).pc.committing = true ∧
      b ∈ (σ.th u.1).tx.writeSet ∧ cfg.segs.IsCell b := by
  have hu : u = σ.cur u.1 := by
    by_contra hne
    rw [Sys.Holds] at h
    rcases lt_trichotomy u.2 (σ.th u.1).round with hlt | heq | hgt
    · rw [(ha.past u hlt).2] at h
      cases h
    · exact hne (Prod.ext rfl heq)
    · rw [ha.new u hgt] at h
      cases h
  rw [hu] at h
  obtain ⟨hb, hpc⟩ := (hok.local_ok u.1).held_mem h
  obtain ⟨e, he⟩ := exists_lookup hb
  exact ⟨hu, hpc, hb, ((hok.local_ok u.1).tx.write b e he).1⟩

theorem Pc.committing_of_inBatch {g : Segments} {pc : Pc g} (h : pc.inBatch = true) :
    pc.committing = true := by
  cases pc <;> first | rfl | cases h

theorem Tx.Ok.isCell_of_mem {g : Segments} {tx : Tx} (h : tx.Ok g) {b : Word}
    (hb : b ∈ tx.writeSet) : g.IsCell b := by
  obtain ⟨e, he⟩ := exists_lookup hb
  exact (h.write b e he).1

/-- The timestamps of a write set are unlocked. -/
theorem Tx.Ok.unlocked_entryTs {g : Segments} {tx : Tx} (h : tx.Ok g) {b : Word}
    (hb : b ∈ tx.writeSet) : Unlocked (entryTs tx.writeSet b) := by
  obtain ⟨e, he⟩ := exists_lookup hb
  rw [entryTs, he]
  exact (h.write b e he).2

/-- A lock that is held is locked. -/
theorem Sys.Holds.isLocked (ho : σ.OwnOk cfg) {u : Tid × ℕ} {b : Word} (h : σ.Holds u b) :
    isLocked (σ.locks (cfg.segs.lockLoc b)) = true := by
  rw [ho.word u b h]
  exact isLocked_or_lockBit _

/-- The handler grants only locks that nobody holds. -/
theorem not_holds_of_granted (hok : σ.Ok cfg) (ho : σ.OwnOk cfg) {b : Word}
    (hb : b ∈ (σ.th t).tx.writeSet)
    (hg : isRefused (σ.locks (cfg.segs.lockLoc b)) (entryTs (σ.th t).tx.writeSet b) = false)
    (u : Tid × ℕ) : ¬ σ.Holds u b := fun h => by
  have hlt := ((hok.local_ok t).tx.unlocked_entryTs hb).lt_locked (h.isLocked ho)
  simp [isRefused, hlt] at hg

theorem Sys.OwnOk.init (objs : Flat) : (Sys.init cfg.segs objs).OwnOk cfg where
  word _ _ h := absurd h List.not_mem_nil
  excl _ _ _ h := absurd h List.not_mem_nil

theorem Sys.OwnOk.step (h : σ.OwnOk cfg) (hok : σ.Ok cfg) (hok' : σ'.Ok cfg) (ha : σ.AttOk)
    (ha' : σ'.AttOk) (hr : Rule cfg σ a σ') : σ'.OwnOk cfg := by
  have hd := delivers hok.local_ok hok.descs
  have hws : ∀ {u b}, σ.Holds u b → σ'.Holds u b →
      (σ'.th u.1).tx.writeSet = (σ.th u.1).tx.writeSet := fun hu hu' =>
    hr.writeSet_eq hd (hu.inside hok ha).2.1 (hu'.inside hok' ha').2.1
  cases hr.lockStep hok ha with
  | keep hlocks hheld =>
    have hiff : ∀ {u b}, σ'.Holds u b → σ.Holds u b := fun hu => by
      rwa [Sys.Holds, hheld] at hu
    refine ⟨fun u b hu => ?_, fun u u' b hu hu' => h.excl u u' b (hiff hu) (hiff hu')⟩
    rw [hlocks, hws (hiff hu) hu]
    exact h.word u b (hiff hu)
  | @grant t b hpc hb hg hlocks hheld =>
    have hiff := holds_grant hheld
    have hfree := not_holds_of_granted hok h hb hg
    refine ⟨fun u b' hu => ?_, fun u u' b' hu hu' => ?_⟩
    · by_cases hb' : b' = b
      · subst hb'
        obtain rfl := (((hiff u b').1 hu).resolve_left (hfree u)).1
        have hw := hr.writeSet_eq (t := t) hd (Pc.committing_of_inBatch hpc)
          (hu.inside hok' ha').2.1
        rw [hlocks, Function.update_self]
        exact congrArg (fun m => lockValNew (entryTs m b')) hw.symm
      · have hu0 := ((hiff u b').1 hu).resolve_right fun h => hb' h.2
        have hc := (hu0.inside hok ha).2.2.2
        rw [hlocks, Function.update_of_ne fun he => hb' (Segments.lockLoc_inj hc
          ((hok.local_ok t).tx.isCell_of_mem hb) he), hws hu0 hu]
        exact h.word u b' hu0
    · rcases (hiff u b').1 hu with hu | ⟨rfl, rfl⟩ <;>
        rcases (hiff u' _).1 hu' with hu' | ⟨rfl, hb'⟩
      · exact h.excl u u' b' hu hu'
      · exact absurd (hb' ▸ hu) (hfree u)
      · exact absurd hu' (hfree u')
      · rfl
  | @giveBack t b w hh hp hlocks hheld =>
    have hiff := holds_giveBack hheld
    refine ⟨fun u b' hu => ?_, fun u u' b' hu hu' =>
      h.excl u u' b' ((hiff u b').1 hu).1 ((hiff u' b').1 hu').1⟩
    obtain ⟨hu0, hne⟩ := (hiff u b').1 hu
    have hb' : b' ≠ b := by
      rintro rfl
      exact hne ⟨h.excl u _ b' hu0 hh, rfl⟩
    rw [hlocks, Function.update_of_ne fun he => hb' (Segments.lockLoc_inj
      (hu0.inside hok ha).2.2.2 (hh.inside hok ha).2.2.2 he), hws hu0 hu]
    exact h.word u b' hu0

/-- A lock that a transaction holds was not refused to it in the current batch. -/
def RefusedOk (cfg : Config) (me : Attempt cfg.segs) : Prop :=
  ∀ b ∈ me.held.map Prod.fst, cfg.segs.lockLoc b ∉ me.refused

theorem RefusedOk.mono {me me' : Attempt cfg.segs} (h : RefusedOk cfg me)
    (hheld : ∀ b ∈ me'.held.map Prod.fst, b ∈ me.held.map Prod.fst)
    (hr : me'.refused ⊆ me.refused) : RefusedOk cfg me' :=
  fun b hb hin => h b (hheld b hb) (hr hin)

/-- While a batch is under way, its account says so. -/
theorem Sys.Ok.refusedOk (hok : σ.Ok cfg) {p : Packet} (hp : p ∈ σ.net t) :
    RefusedOk cfg (σ.me t) := by
  obtain ⟨o, done, batch, rest, unsent, requests, this, -, hof, hws, hb, -⟩ :=
    (hok.local_ok t).pc.batch hp
  have hnd : (done ++ batch).Nodup :=
    (List.nodup_append.1 (hws ▸ hof.ws.nodup_iff.2 (AList.keys_nodup _))).1
  intro b hbh hin
  obtain ⟨c, hc, hl⟩ := List.mem_map.1 (hb.refused_perm.mem_iff.1 hin)
  have hcb : cfg.segs.IsCell c := (hok.local_ok t).isCell hof (hws ▸
    List.mem_append_left _ (List.mem_append_right _ (hb.changed_mem c hc)))
  have hbb := (hok.local_ok t).tx.isCell_of_mem ((hok.local_ok t).held_mem hbh).1
  rw [Segments.lockLoc_inj hcb hbb hl] at hc
  exact (hb.turn hnd b).1 hbh hc

theorem Rule.refusedOk (hr : Rule cfg σ a σ') (hok : σ.Ok cfg) (hok' : σ'.Ok cfg)
    (h : RefusedOk cfg (σ.me a.tid)) : RefusedOk cfg (σ'.me a.tid) := by
  have lift : ∀ {th : Thread cfg.segs} {me : Attempt cfg.segs},
      σ'.th = (σ.upd a.tid th me).th → σ'.att = (σ.upd a.tid th me).att →
      RefusedOk cfg me → RefusedOk cfg (σ'.me a.tid) :=
    fun hth hatt h => Sys.lift (P := fun _ me => RefusedOk cfg me) h hth hatt
  cases hr with
  | goto ha => subst ha; exact lift rfl rfl h
  | abort _ _ ha => subst ha; exact lift rfl rfl h
  | begin => exact lift rfl rfl fun b hb => absurd hb List.not_mem_nil
  | batch => exact lift rfl rfl fun b _ => List.not_mem_nil
  | load | reply | lost => exact h
  | deliver hk hm hdesc =>
    obtain rfl := delivers hok.local_ok hok.descs _ _ _ _ _ _ hk hm hdesc
    exact lift rfl rfl h
  | @refuse t k p i old changed hk | @grant t k p i old changed hk =>
    exact hok'.refusedOk (Sys.mem_setMsg (σ := σ) hk _)
  | restore | release =>
    refine lift rfl rfl (h.mono (fun b hb => ?_) (List.Subset.refl _))
    obtain ⟨e, he, rfl⟩ := List.mem_map.1 hb
    exact List.mem_map_of_mem (List.mem_filter.1 he).1
  | _ => exact lift rfl rfl h

/-! ## Reachable states -/

/-- What holds of all threads, records and locks. -/
structure Sys.Good (cfg : Config) (σ : Sys cfg.segs) : Prop where
  ok : σ.Ok cfg
  att : σ.AttOk
  own : σ.OwnOk cfg
  refused : ∀ t, RefusedOk cfg (σ.me t)

theorem Sys.Good.init (objs : Flat) : (Sys.init cfg.segs objs).Good cfg :=
  ⟨.init objs, .init objs, .init objs, fun _ _ h => absurd h List.not_mem_nil⟩

theorem Sys.Good.step (h : σ.Good cfg) (hr : Rule cfg σ a σ') : σ'.Good cfg := by
  have hok := h.ok.step hr
  have hatt := h.att.step h.ok hr
  refine ⟨hok, hatt, h.own.step h.ok hok h.att hatt hr, fun t => ?_⟩
  by_cases ht : t = a.tid
  · subst ht
    exact hr.refusedOk h.ok hok (h.refused _)
  · rw [(hr.sameBut (delivers h.ok.local_ok h.ok.descs)).me ht]
    exact h.refused t

theorem reach_good {objs : Flat} {ok : Sys cfg.segs → Act cfg.segs → Sys cfg.segs → Prop}
    (h : (cfg.lts objs).Reach ok σ) : σ.Good cfg :=
  h.induct (fun _ h0 => h0 ▸ .init objs) fun _ _ _ _ ih hs _ => ih.step (step_rule hs)

/-! ## Locked words -/

/-- `getNextClock` has returned: the version is made of the next value of the clock. -/
def NextClock (σ : Sys cfg.segs) (t : Tid) (σ' : Sys cfg.segs) (v : Word) : Prop :=
  σ'.clock (cfg.node t) = σ.clock (cfg.node t) + 1 ∧
    v = newVersion (cfg.node t) (σ'.clock (cfg.node t))

/-- The new versions of commits are made by `getNextClock`. -/
theorem Rule.new_version (hr : Rule cfg σ a σ') {u : Tid × ℕ} {v : Word}
    (h : (σ'.att u).newVersion = some v) : (σ.att u).newVersion = some v ∨
      u = σ'.cur a.tid ∧ NextClock σ a.tid σ' v := by
  have hset : ∀ {s : Sys cfg.segs} {t th me}, σ'.att = (s.upd t th me).att → s.att = σ.att →
      (me.newVersion = some v → (σ.att (t, th.round)).newVersion = some v ∨
        (t, th.round) = σ'.cur a.tid ∧ NextClock σ a.tid σ' v) →
      (σ.att u).newVersion = some v ∨ u = σ'.cur a.tid ∧ NextClock σ a.tid σ' v := by
    intro s t th me hatt h0 hv
    rw [hatt] at h
    by_cases hu : u = (t, th.round)
    · rw [hu, Sys.upd_att] at h
      rw [hu]
      exact hv h
    · rw [Sys.upd_att_ne hu, h0] at h
      exact .inl h
  cases hr with
  | load | reply | lost => exact .inl h
  | begin => exact hset rfl rfl (fun hv => by cases hv)
  | issue =>
    refine hset rfl rfl fun hv => .inr ⟨?_, ?_, ?_⟩
    · simp only [Sys.cur, Act.tid, Sys.upd_th]
    · simp only [Act.tid, Function.update_self]
    · rw [Option.some.injEq] at hv
      simp only [Act.tid, Function.update_self, hv]
  | deliver => exact hset rfl rfl .inl
  | _ => exact hset (s := σ) rfl rfl .inl

/-- The step leaves the clock of its node below `n`. -/
def ClockBelow (cfg : Config) (n : ℕ) (_ : Sys cfg.segs) (a : Act cfg.segs) (σ' : Sys cfg.segs) :
    Prop :=
  (σ'.clock (cfg.node a.tid)).toNat < n

instance (n : ℕ) (a : Act cfg.segs) : Decidable (ClockBelow cfg n σ a σ') :=
  inferInstanceAs (Decidable (_ < _))

/-- A timestamp made of a clock below `2^63` is unlocked. -/
theorem unlocked_newVersion_of_lt (node : ℕ) {clock : Word} (h : clock.toNat < 2 ^ 63) :
    Unlocked (newVersion node clock) := by
  have hn := toNodeTs_toNat (BitVec.ofNat 64 node)
  rw [Unlocked, newVersion, BitVec.toNat_or]
  exact Nat.or_lt_two_pow (by omega) h

/-- A locked word is that of a lock which somebody holds, and new versions are unlocked. -/
structure Sys.LockedOk (cfg : Config) (σ : Sys cfg.segs) : Prop where
  held : ∀ ℓ, ¬ Unlocked (σ.locks ℓ) → ∃ u b, σ.Holds u b ∧ cfg.segs.lockLoc b = ℓ
  new : ∀ u v, (σ.att u).newVersion = some v → Unlocked v

theorem Sys.LockedOk.init (objs : Flat) : (Sys.init cfg.segs objs).LockedOk cfg where
  held _ hℓ := absurd (by decide : Unlocked 0) hℓ
  new _ _ hv := by cases hv

theorem Sys.LockedOk.step (h : σ.LockedOk cfg) (hg : σ.Good cfg) (hr : Rule cfg σ a σ')
    (hc : ClockBelow cfg (2 ^ 63) σ a σ') : σ'.LockedOk cfg where
  new u v hv := by
    rcases hr.new_version hv with hv | ⟨-, -, rfl⟩
    · exact h.new u v hv
    · exact unlocked_newVersion_of_lt _ hc
  held ℓ hℓ := by
    cases hr.lockStep hg.ok hg.att with
    | keep hlocks hheld =>
      rw [hlocks] at hℓ
      obtain ⟨u, b, hu, hb⟩ := h.held ℓ hℓ
      exact ⟨u, b, by rwa [Sys.Holds, hheld], hb⟩
    | @grant t b hpc hb hgr hlocks hheld =>
      by_cases hl : ℓ = cfg.segs.lockLoc b
      · exact ⟨σ.cur t, b, (holds_grant hheld _ _).2 (.inr ⟨rfl, rfl⟩), hl.symm⟩
      · rw [hlocks, Function.update_of_ne hl] at hℓ
        obtain ⟨u, b', hu, hb'⟩ := h.held ℓ hℓ
        exact ⟨u, b', (holds_grant hheld _ _).2 (.inl hu), hb'⟩
    | @giveBack t b w hh hp hlocks hheld =>
      by_cases hl : ℓ = cfg.segs.lockLoc b
      · refine absurd ?_ hℓ
        rw [hlocks, hl, Function.update_self]
        cases hp with
        | restore hpc =>
          exact (hg.ok.local_ok t).tx.unlocked_entryTs (hh.inside hg.ok hg.att).2.2.1
        | release hpc =>
          have hl := (hg.ok.local_ok t).pc
          simp only [PcOk, hpc] at hl
          exact h.new _ _ hl.2.2.2
      · rw [hlocks, Function.update_of_ne hl] at hℓ
        obtain ⟨u, b', hu, hb'⟩ := h.held ℓ hℓ
        refine ⟨u, b', (holds_giveBack hheld _ _).2 ⟨hu, ?_⟩, hb'⟩
        rintro ⟨-, rfl⟩
        exact hl hb'.symm

/-! ## Object bytes -/

/-- A byte that a put changes is one of its piece. -/
theorem Flat.put_ne {m : Flat} {addr : Word} {v : List Byte} {ks : List ℕ} {n : ℕ} {p : Word}
    (h : m.put addr v ks n p ≠ m n p) : ∃ k ∈ ks,
      (n, p) = (nodeFromAddress addr, addrFromAddress addr + BitVec.ofNat 64 k) := by
  rw [Flat.put] at h
  split at h
  · next hk =>
    refine ⟨_, hk.2, Prod.ext hk.1 ?_⟩
    show p = addrFromAddress addr + BitVec.ofNat 64 (p - addrFromAddress addr).toNat
    rw [BitVec.ofNat_toNat, BitVec.setWidth_eq, BitVec.add_comm, BitVec.sub_add_cancel]
  · exact absurd rfl h

/-- What `commitWriteSetValues` puts lies in cells of the write set. -/
theorem Tx.Ok.commitValues {g : Segments} {tx : Tx} (h : tx.Ok g) {v : Variant} {o : Tx.Orders}
    {p : Word × List Byte} (hp : p ∈ tx.commitValues v o) {k : ℕ} (hk : k < p.2.length) :
    ∃ b ∈ tx.writeSet, ∃ i < cellSize,
      (nodeFromAddress p.1, addrFromAddress p.1 + BitVec.ofNat 64 k) = Segments.cellLoc b i := by
  cases v with
  | variant1 =>
    obtain ⟨b, -, hb⟩ := List.mem_filterMap.1 hp
    obtain ⟨e, he, rfl⟩ := Option.map_eq_some_iff.1 hb
    rw [List.length_ofFn] at hk
    exact ⟨b, mem_of_lookup he, k, hk, rfl⟩
  | variant2 =>
    obtain ⟨b, -, hb⟩ := List.mem_filterMap.1 hp
    obtain ⟨e, he, rfl⟩ := Option.map_eq_some_iff.1 hb
    obtain ⟨a, rfl, hs, hm⟩ := h.values b e he
    rw [List.length_take, ← hs] at hk
    have hk : k < a.width.bytes := lt_of_lt_of_le hk (min_le_left _ _)
    have hoff := a.offset_add_le
    refine ⟨a.block, hm, a.offset + k, by omega, ?_⟩
    rw [Segments.cellLoc, a.node_block, a.addr_add hk]

/-- The bytes that a thread is to put lie in cells whose locks it holds. -/
theorem Sys.Good.put_holds (hg : σ.Good cfg) {o : Tx.Orders} {p : Word × List Byte}
    {puts : List (Word × List Byte)} {left : List ℕ}
    (hpc : (σ.th t).pc = .commitWriteSetValues o (p :: puts) left) {k : ℕ} (hk : k ∈ left) :
    ∃ b, ∃ i < cellSize, σ.Holds (σ.cur t) b ∧
      (nodeFromAddress p.1, addrFromAddress p.1 + BitVec.ofNat 64 k) = Segments.cellLoc b i := by
  have hl := (hg.ok.local_ok t).pc
  simp only [PcOk, hpc] at hl
  obtain ⟨ho, hlocks, hsuf, hleft⟩ := hl
  have hlt : k < p.2.length := List.mem_range.1 (hleft hk)
  obtain ⟨b, hb, i, hi, he⟩ :=
    (hg.ok.local_ok t).tx.commitValues (hsuf.subset List.mem_cons_self) hlt
  exact ⟨b, i, hi, hlocks.held.mem_iff.2 (ho.ws.mem_iff.2 (AList.mem_keys.1 hb)), he⟩

/-- Object bytes change only when a thread puts them. -/
theorem Rule.objs (hr : Rule cfg σ a σ') : σ'.objs = σ.objs ∨
    ∃ t o p puts left off n, a.tid = t ∧
      (σ.th t).pc = .commitWriteSetValues o (p :: puts) left ∧
      σ'.objs = σ.objs.put p.1 p.2 (pieceOf off n left) := by
  cases hr with
  | put off n hpc => exact .inr ⟨_, _, _, _, _, off, n, rfl, hpc, rfl⟩
  | _ => exact .inl rfl

/-- **Locks are owned.** As long as no clock has reached `2^63`, a lock word whose lock bit is set
is held by exactly one transaction. A transaction that holds a lock is inside `commit` and the
only one to hold it. Object bytes are put only into cells whose locks the transaction holds.
`releaseLocks` and `releaseLocksWithNewClock` put only words of locks that the transaction holds
and was not refused, and a step that changes a lock word is such a put, or a grant of a lock that
nobody holds. A transaction that has returned from `commit` or has aborted holds no lock. -/
theorem lockOwnership {objs : Flat} (h : cfg.Reach objs σ) :
    ((cfg.lts objs).Reach (ClockBelow cfg (2 ^ 63)) σ →
      ∀ ℓ, isLocked (σ.locks ℓ) = true → ∃! u, ∃ b, σ.Holds u b ∧ cfg.segs.lockLoc b = ℓ) ∧
    (∀ u b, σ.Holds u b →
      u = σ.cur u.1 ∧ (σ.th u.1).pc.committing = true ∧ cfg.segs.IsCell b) ∧
    (∀ u u' b b', σ.Holds u b → σ.Holds u' b' → cfg.segs.lockLoc b = cfg.segs.lockLoc b' →
      u = u') ∧
    (∀ t o p puts left, (σ.th t).pc = .commitWriteSetValues o (p :: puts) left →
      ∀ k ∈ left, ∃ b, ∃ i < cellSize, σ.Holds (σ.cur t) b ∧
        (nodeFromAddress p.1, addrFromAddress p.1 + BitVec.ofNat 64 k) = Segments.cellLoc b i) ∧
    (∀ a σ', step cfg σ a = some σ' → ∀ n p, σ'.objs n p ≠ σ.objs n p →
      ∃ b, ∃ i < cellSize, σ.Holds (σ.cur a.tid) b ∧ (n, p) = Segments.cellLoc b i) ∧
    (∀ t b w, PutsLock (σ.th t) b w →
      σ.Holds (σ.cur t) b ∧ cfg.segs.lockLoc b ∉ (σ.me t).refused) ∧
    (∀ a σ', step cfg σ a = some σ' → ∀ ℓ, σ'.locks ℓ ≠ σ.locks ℓ →
      (∃ t b w, PutsLock (σ.th t) b w ∧ cfg.segs.lockLoc b = ℓ ∧ σ'.locks ℓ = w) ∨
      ∃ t b, (σ.th t).pc.inBatch = true ∧ cfg.segs.lockLoc b = ℓ ∧ ∀ u, ¬ σ.Holds u b) ∧
    ∀ u, (σ.att u).Ended → ∀ b, ¬ σ.Holds u b := by
  have hg := reach_good h
  have hexcl : ∀ u u' b b', σ.Holds u b → σ.Holds u' b' →
      cfg.segs.lockLoc b = cfg.segs.lockLoc b' → u = u' := by
    intro u u' b b' hu hu' hl
    have hc := (hu.inside hg.ok hg.att).2.2.2
    rw [← Segments.lockLoc_inj hc (hu'.inside hg.ok hg.att).2.2.2 hl] at hu'
    exact hg.own.excl u u' b hu hu'
  refine ⟨fun hr ℓ hℓ => ?_, fun u b hu => ?_, hexcl, fun t o p puts left hpc k hk =>
    hg.put_holds hpc hk, fun a σ' hs n p hne => ?_, fun t b w hp => ?_,
    fun a σ' hs ℓ hne => ?_, fun u he b hu => ?_⟩
  · have hlk : σ.LockedOk cfg := hr.induct (fun _ h0 => h0 ▸ .init objs)
      fun _ _ _ hr ih hs hok => ih.step (reach_good hr) (step_rule hs) hok
    obtain ⟨u, b, hu, hb⟩ := hlk.held ℓ (isLocked_eq_true.1 hℓ)
    refine ⟨u, ⟨b, hu, hb⟩, ?_⟩
    rintro u' ⟨b', hu', hb'⟩
    exact hexcl u' u b' b hu' hu (hb'.trans hb.symm)
  · obtain ⟨h1, h2, -, h4⟩ := hu.inside hg.ok hg.att
    exact ⟨h1, h2, h4⟩
  · rcases (step_rule hs).objs with ho | ⟨t, o, q, puts, left, off, m, rfl, hpc, ho⟩
    · exact absurd (congrFun (congrFun ho n) p) hne
    · rw [ho] at hne
      obtain ⟨k, hk, he⟩ := Flat.put_ne hne
      obtain ⟨b, i, hi, hb, hl⟩ := hg.put_holds hpc (List.mem_filter.1 hk).1
      exact ⟨b, i, hi, hb, he.trans hl⟩
  · have hh := hp.holds hg.ok
    exact ⟨hh, hg.refused t b hh⟩
  · cases (step_rule hs).lockStep hg.ok hg.att with
    | keep hlocks => exact absurd (congrFun hlocks ℓ) hne
    | @grant t b hpc hb hgr hlocks =>
      have hl : ℓ = cfg.segs.lockLoc b := by_contra fun hl =>
        hne (by rw [hlocks, Function.update_of_ne hl])
      exact .inr ⟨t, b, hpc, hl.symm, not_holds_of_granted hg.ok hg.own hb hgr⟩
    | @giveBack t b w hh hp hlocks =>
      have hl : ℓ = cfg.segs.lockLoc b := by_contra fun hl =>
        hne (by rw [hlocks, Function.update_of_ne hl])
      exact .inl ⟨t, b, w, hp, hl.symm, by rw [hlocks, hl, Function.update_self]⟩
  · obtain ⟨hcur, hpc, -⟩ := hu.inside hg.ok hg.att
    have hend := hg.att.cur u.1
    rw [Sys.me, ← hcur, EndedOk] at hend
    split at hend
    · rw [hend.1] at hpc
      cases hpc
    · rw [hend.1 he] at hpc
      cases hpc

end

/-- The cells whose locks the current transaction of `t` holds. -/
def heldBy {g : Segments} (σ : Sys g) (t : Tid) : List Word := (σ.me t).held.map Prod.fst

/-- A thread has the lock of the cell it is to write. -/
theorem lockOwnership_held : ∃ σ, (small ⟨.variant1, false⟩).Reach (fun _ _ => 0) σ ∧
    σ.Holds (0, 1) cellX.block ∧
    (∀ u b, σ.Holds u b → smallSegs.lockLoc b = smallSegs.lockLoc cellX.block → u = (0, 1)) ∧
    ∀ ℓ, isLocked (σ.locks ℓ) = true → ∃! u, ∃ b, σ.Holds u b ∧ smallSegs.lockLoc b = ℓ := by
  have hrun : (((small ⟨.variant1, false⟩).lts fun _ _ => 0).runIf
      (ClockBelow (small ⟨.variant1, false⟩) (2 ^ 63)) (Sys.init _ fun _ _ => 0)
      (List.flatten [[.new 0 16, .begin 0, .call 0 (.write cellX (smallValue 1))], runs _ 0 5,
        [.commit 0 ⟨[], [cellX.block], []⟩], runs _ 0 2, [.handle 0 0, .handle 0 0]])).map
      (fun σ => (σ.cur 0, heldBy σ 0)) = some ((0, 1), [cellX.block]) := by decide +kernel
  obtain ⟨σ, h, ho⟩ := Lts.Reach.of_runIf rfl hrun
  obtain ⟨hcur, hheld⟩ := Prod.mk.inj ho
  have hr : (small ⟨.variant1, false⟩).Reach (fun _ _ => 0) σ := h.mono fun _ _ _ _ => trivial
  have hh : σ.Holds (0, 1) cellX.block := by
    rw [Sys.Holds, ← hcur, show (σ.att (σ.cur 0)).held.map Prod.fst = _ from hheld]
    exact List.mem_cons_self
  obtain ⟨h1, -, h2, -⟩ := lockOwnership hr
  exact ⟨σ, hr, hh, fun u b hu hl => h2 u _ b _ hu hh hl, h1 h⟩

/-! ## A clock that wraps -/

section
variable {cfg : Config} {t : Tid} (σ₀ : Sys cfg.segs)

/-- The state `σ₀` with thread `t` at `pc` and the clocks `c`. -/
def Sys.at (t : Tid) (pc : Pc cfg.segs) (c : ℕ → Word) : Sys cfg.segs :=
  { σ₀ with
    th := Function.update σ₀.th t { σ₀.th t with pc := pc }
    clock := c }

variable {σ₀} {pc pc' : Pc cfg.segs} {c c' : ℕ → Word}

@[simp] theorem Sys.at_th : (σ₀.at t pc c).th t = { σ₀.th t with pc := pc } :=
  Function.update_self ..

/-- A step that moves thread `t` on, up to records. -/
theorem Sys.erase_at {σ₁ : Sys cfg.segs} {th : Thread cfg.segs}
    (hth : σ₁.th = Function.update (σ₀.at t pc c).th t th)
    (h : { th with round := 0 } = { σ₀.th t with pc := pc', round := 0 })
    (he : { σ₁ with th := σ₀.th }.erase = { σ₀ with clock := c' }.erase) :
    (some σ₁).map Sys.erase = some (σ₀.at t pc' c').erase := by
  have hth : (fun t => { σ₁.th t with round := 0 }) =
      fun t' => { (σ₀.at t pc' c').th t' with round := 0 } := by
    funext t'
    rw [hth]
    by_cases ht : t' = t
    · rw [ht, Function.update_self, h, Sys.at_th]
    · simp only [Sys.at, Function.update_of_ne ht]
  simp only [Sys.erase, Sys.at, Sys.mk.injEq, Option.map_some, Option.some.injEq] at he hth ⊢
  exact ⟨he.1, he.2.1, he.2.2.1, he.2.2.2.1, hth, he.2.2.2.2.2⟩

/-- A transaction that does nothing. -/
def emptyCommit (cfg : Config) (t : Tid) : List (Act cfg.segs) :=
  [.begin t, .commit t ⟨[], [], []⟩] ++ List.replicate 6 (.run t ⟨0, 0, ⟨[], [], []⟩, 0⟩)

/-- A run on states known up to their records, step by step. -/
theorem run_cons_erase {objs : Flat} {σ τ τ' : Sys cfg.segs} {a : Act cfg.segs}
    {as : List (Act cfg.segs)} (h : (step cfg σ a).map Sys.erase = some τ.erase)
    (h' : ((cfg.lts objs).run τ as).map Sys.erase = some τ'.erase) :
    ((cfg.lts objs).run σ (a :: as)).map Sys.erase = some τ'.erase := by
  obtain ⟨σ₁, hs, he⟩ := Option.map_eq_some_iff.1 h
  rw [Lts.run, show (cfg.lts objs).step σ a = some σ₁ from hs, Option.bind_some,
    run_erase as he, h']

theorem run_emptyCommit (objs : Flat) {ptr : Word} (htx : (σ₀.th t).tx = Tx.new)
    (hc : (σ₀.th t).toCache = none) (hthis : (σ₀.th t).this = some ptr) (c : ℕ → Word) :
    ((cfg.lts objs).run (σ₀.at t .idle c) (emptyCommit cfg t)).map Sys.erase =
      some (σ₀.at t .idle (Function.update c (cfg.node t) (c (cfg.node t) + 1))).erase := by
  have horders : Tx.Orders.Of ⟨[], [], []⟩ Tx.new := ⟨.refl _, .refl _, .refl _⟩
  have hrun : ∀ pc c' (a : Choice), step cfg (σ₀.at t pc c') (.run t a) =
      stepRun cfg (σ₀.at t pc c') t a := fun pc c' a => by
    rw [step, Sys.at_th, hc]
    rfl
  refine run_cons_erase (τ := σ₀.at t .active c) ?_ <|
    run_cons_erase (τ := σ₀.at t (.getLocks ⟨[], [], []⟩ [] []) c) ?_ <|
    run_cons_erase (τ := σ₀.at t (.validateAll ⟨[], [], []⟩ [] false) c) ?_ <|
    run_cons_erase (τ := σ₀.at t (.commitWriteSetValues ⟨[], [], []⟩ [] []) c) ?_ <|
    run_cons_erase (τ := σ₀.at t (.getNextClock ⟨[], [], []⟩ none) c) ?_ <|
    run_cons_erase (τ := σ₀.at t (.getNextClock ⟨[], [], []⟩ (some (c (cfg.node t)))) c) ?_ <|
    run_cons_erase (τ := σ₀.at t (.releaseLocksWithNewClock
      (newVersion (cfg.node t) (c (cfg.node t) + 1)) [])
        (Function.update c (cfg.node t) (c (cfg.node t) + 1))) ?_ <| run_cons_erase ?_ rfl
  · simp only [step, Sys.at_th, hc, hthis]
    exact Sys.erase_at rfl (by rw [htx]; simp only [htx, hc, hthis]; rfl) rfl
  · simp only [step, Sys.at_th, hc, htx, if_pos horders]
    exact Sys.erase_at rfl (by rw [Sys.at_th]) rfl
  · rw [hrun, stepRun, Sys.at_th]
    exact Sys.erase_at rfl (by rw [Sys.at_th]; cases cfg.build.variant <;> rfl) rfl
  · rw [hrun, stepRun, Sys.at_th]
    have : (σ₀.th t).tx.commitValues cfg.build.variant ⟨[], [], []⟩ = [] := by
      cases cfg.build.variant <;> rfl
    exact Sys.erase_at rfl (by simp only [Sys.at_th, this]; rfl) rfl
  · rw [hrun, stepRun, Sys.at_th]
    exact Sys.erase_at rfl (by rw [Sys.at_th]) rfl
  · rw [hrun, stepRun, Sys.at_th]
    exact Sys.erase_at rfl (by rw [Sys.at_th]; rfl) rfl
  · rw [hrun, stepRun, Sys.at_th]
    simp only [stepGetNextClock, if_pos (show (σ₀.at t (.getNextClock ⟨[], [], []⟩
      (some (c (cfg.node t)))) c).clock (cfg.node t) = c (cfg.node t) from rfl)]
    exact Sys.erase_at rfl (by rw [Sys.at_th]) rfl
  · rw [hrun, stepRun, Sys.at_th]
    exact Sys.erase_at rfl (by rw [Sys.at_th]; simp only [htx]; rfl) rfl
/-- Steps of one thread leave the other threads alone. -/
theorem run_th {objs : Flat} {as : List (Act cfg.segs)} (has : ∀ a ∈ as, a.tid = t) :
    ∀ {σ σ' : Sys cfg.segs}, σ.Ok cfg → (cfg.lts objs).run σ as = some σ' → ∀ t' ≠ t,
      σ'.th t' = σ.th t' := by
  induction as with
  | nil =>
    rintro σ σ' - h t' -
    cases h
    rfl
  | cons a as ih =>
    intro σ σ' hok h t' ht
    obtain ⟨σ₁, hs, h⟩ := Option.bind_eq_some_iff.1 h
    have hr := step_rule hs
    rw [ih (fun a ha => has a (List.mem_cons_of_mem _ ha)) (hok.step hr) h t' ht]
    exact (hr.sameBut (delivers hok.local_ok hok.descs)).th t'
      (has a List.mem_cons_self ▸ ht)

end

/-- The small system when thread 0 has a descriptor. -/
def smallStart : Sys smallSegs :=
  { (Sys.init smallSegs fun _ _ => 0).upd 0 { Thread.init smallSegs with this := some 16 }
      (Attempt.new smallSegs 0) with
    descs := Function.update (fun _ _ => none) 0 (Function.update (fun _ => none) 16 (some 0)) }

/-- The clock of node 0 is `n`, and thread 0 is between two transactions. -/
def smallAt (n : Word) : Sys smallSegs :=
  @Sys.at (small ⟨.variant1, false⟩) smallStart 0 .idle (Function.update (fun _ => 0) 0 n)

theorem smallAt_pc (n : Word) (t : Tid) : ((smallAt n).th t).pc = .idle := by
  by_cases ht : t = 0
  · rw [ht]
    exact congrArg Thread.pc Sys.at_th
  · exact congrArg Thread.pc ((Function.update_of_ne ht ..).trans
      (Function.update_of_ne ht _ fun _ => Thread.init smallSegs))

/-- The small system reaches every clock. -/
theorem reach_smallAt (n : ℕ) : ∃ σ, (small ⟨.variant1, false⟩).Reach (fun _ _ => 0) σ ∧
    σ.erase = (smallAt (BitVec.ofNat 64 n)).erase := by
  induction n with
  | zero =>
    refine ⟨smallStart, .step (a := .new 0 16) (.init rfl) rfl trivial, ?_⟩
    have hth : smallStart.th = (smallAt (BitVec.ofNat 64 0)).th := (Function.update_idem ..).symm
    have hclock : smallStart.clock = (smallAt (BitVec.ofNat 64 0)).clock :=
      (Function.update_eq_self 0 fun _ => (0 : Word)).symm
    simp only [Sys.erase, hth, hclock]
    rfl
  | succ n ih =>
    obtain ⟨σ, hr, he⟩ := ih
    have h := (run_erase _ he).trans (run_emptyCommit (t := 0) (fun _ _ => 0) rfl rfl rfl
      (Function.update (fun _ => 0) 0 (BitVec.ofNat 64 n)))
    obtain ⟨σ', hs, he'⟩ := Option.map_eq_some_iff.1 h
    refine ⟨σ', hr.run hs, he'.trans ?_⟩
    rw [smallAt, BitVec.ofNat_add]
    exact congrArg (fun c => (@Sys.at (small ⟨.variant1, false⟩) smallStart 0 .idle c).erase)
      (Function.update_idem ..)

/-- After `2^63 - 1` commits the next one installs a version with the lock bit set: the lock word
stays locked, and nobody holds it. -/
theorem lockOwnership_wrap : ∃ σ, (small ⟨.variant1, false⟩).Reach (fun _ _ => 0) σ ∧
    isLocked (σ.locks (smallSegs.lockLoc cellX.block)) = true ∧ ∀ u b, ¬ σ.Holds u b := by
  obtain ⟨σ, hr, he⟩ := reach_smallAt (2 ^ 63 - 1)
  have hobs : ((((small ⟨.variant1, false⟩).lts fun _ _ => 0).run
      (smallAt (BitVec.ofNat 64 (2 ^ 63 - 1)))
      (List.flatten [[.begin 0, .call 0 (.write cellX (smallValue 1))], runs _ 0 5,
        [.commit 0 ⟨[], [cellX.block], []⟩], runs _ 0 3,
        [.handle 0 0, .handle 0 0, .handle 0 0, .deliver 0 0], runs _ 0 10])).map Sys.erase).map
      (fun σ => (isLocked (σ.locks (smallSegs.lockLoc cellX.block)), (σ.th 0).pc.committing)) =
      some (true, false) := by decide +kernel
  rw [← run_erase _ he] at hobs
  obtain ⟨τ, hτ, ho⟩ := Option.map_eq_some_iff.1 hobs
  obtain ⟨σ', hs, rfl⟩ := Option.map_eq_some_iff.1 hτ
  obtain ⟨hl, hpc⟩ := Prod.mk.inj ho
  have hr' := hr.run hs
  refine ⟨σ', hr', hl, fun u b hu => ?_⟩
  have hin := (hu.inside (reach_good hr').ok (reach_good hr').att).2.1
  by_cases ht : u.1 = 0
  · rw [ht, show (σ'.th 0).pc.committing = false from hpc] at hin
    cases hin
  · rw [run_th (t := 0) (by decide +kernel) (reach_good hr).ok hs _ ht] at hin
    have hidle : (σ.th u.1).pc = .idle :=
      (congrArg (fun σ : Sys smallSegs => (σ.th u.1).pc) he).trans (smallAt_pc _ _)
    rw [hidle] at hin
    cases hin

end DstmP1
