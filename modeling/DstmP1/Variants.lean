import DstmP1.Completion

/-!
# The two variants

The same calls of one transaction, made while nobody else commits, in a program that is built as
`VARIANT1` and in the same program built as `VARIANT2`. The calls return the same and the commits
leave the same objects if and only if all bytes that are read or put are the ones last written
(`agreeOn_iff`). They do so whatever the objects and the values written are if and only if the
accesses are `OneEntry` (`variants_agree_iff`). A value that is read with more bytes than it has
been written with, or put with the size of an earlier one, is not of this kind (`variants_fail`).
-/

namespace DstmP1

open Atomic
open Segments (Loc)

/-- The same program built in another way. -/
abbrev Config.buildAs (cfg : Config) (b : Build) : Config := { cfg with build := b }

/-- The states of runs in which `t` runs a transaction while nobody else commits: the objects are
`base` to begin with, and `c` are the calls that have returned. -/
def RunsAlone (cfg : Config) (t : Tid) (base : Flat) (c : List (Op cfg.segs)) (σ : Sys cfg.segs) :
    Prop :=
  ∃ locks clock, (cfg.ltsFrom base locks clock).Reach (Alone cfg t) σ ∧
    (σ.me t).ops.map Prod.fst = c

/-- The calls `c` return the same in both builds, and when `commit` has returned in both, the
objects are the same. -/
def AgreeOn (cfg : Config) (t : Tid) (base : Flat) (c : List (Op cfg.segs)) : Prop :=
  ∀ (cache₁ cache₂ : Bool) (σ₁ σ₂ : Sys cfg.segs),
    RunsAlone (cfg.buildAs ⟨.variant1, cache₁⟩) t base c σ₁ →
    RunsAlone (cfg.buildAs ⟨.variant2, cache₂⟩) t base c σ₂ →
    (σ₁.me t).ops = (σ₂.me t).ops ∧
      ((σ₁.me t).returned ≠ none → (σ₂.me t).returned ≠ none → σ₁.objs = σ₂.objs)

section
variable {cfg : Config} {σ : Sys cfg.segs} {t : Tid} {R : List Word → Prop} {base : Flat}
  {c : List (Op cfg.segs)}

/-! ## Runs of one build -/

theorem RunsAlone.watched (h : RunsAlone cfg t base c σ) :
    σ.Watched cfg t (fun _ => True) base := by
  obtain ⟨locks, clock, h, -⟩ := h
  exact reach_watched (h.mono fun _ _ _ ha => ⟨ha, fun _ _ => trivial⟩)

theorem RunsAlone.calls (h : RunsAlone cfg t base c σ) : (σ.me t).ops.map Prod.fst = c := by
  obtain ⟨locks, clock, -, hc⟩ := h
  exact hc

/-- The calls of a `VARIANT1` transaction are those of flat memory, and so is what it leaves. -/
theorem Sys.Watched.flat (h : σ.Watched cfg t R base) (hv : cfg.build.variant = .variant1)
    (hc : (σ.me t).ops.map Prod.fst = c) :
    (∃ m, (flatMemory cfg.segs).Gives base (σ.me t).ops m) ∧ ((σ.me t).returned ≠ none →
      σ.objs = (flatMemory cfg.segs).after base c) := by
  constructor
  · have hsound := h.sound
    rw [hv] at hsound
    obtain ⟨m, hm⟩ := hsound
    exact ⟨m, gives_of_replay hm⟩
  · intro hr
    have hleft := h.leaves hr
    rw [hv] at hleft
    rw [← hc]
    exact (gives_of_replay hleft).eq_after

/-- Those of a `VARIANT2` transaction are those of its entries, which it puts in some order. -/
theorem Sys.Watched.values (h : σ.Watched cfg t R base) (hv : cfg.build.variant = .variant2)
    (hc : (σ.me t).ops.map Prod.fst = c) :
    (∃ vs, (valueMemory cfg.segs base).Gives ∅ (σ.me t).ops vs) ∧ ((σ.me t).returned ≠ none →
      ∃ k : List Word, k.Perm ((valueMemory cfg.segs base).after ∅ c).keys ∧ R k ∧
        σ.objs = base.putAll (entryPuts ((valueMemory cfg.segs base).after ∅ c) k)) := by
  constructor
  · have hsound := h.sound
    rwa [hv] at hsound
  · intro hr
    have hleft := h.leaves hr
    rw [hv] at hleft
    obtain ⟨vs, k, hgives, hk, hR, hobjs⟩ := hleft
    rw [← hc, ← hgives.eq_after]
    exact ⟨k, hk, hR, hobjs⟩

/-- Any calls can be made and committed, with the values put in any order. -/
theorem exists_runsAlone (cfg : Config) (hcache : cfg.build.cache = false) (t : Tid) (base : Flat)
    {c : List (Op cfg.segs)} (hR : ∀ vs : AList fun _ : Word => ValueEntry,
      (cfg.build.variant = .variant2 → vs = (valueMemory cfg.segs base).after ∅ c) →
      ∃ k : List Word, k.Perm vs.keys ∧ R k) :
    ∃ σ : Sys cfg.segs, σ.Watched cfg t R base ∧ RunsAlone cfg t base c σ ∧
      (σ.me t).returned ≠ none := by
  have hq : Quiet (fun _ => 0) fun _ => 0 :=
    ⟨fun _ => by decide, fun _ => by decide, fun _ => by decide⟩
  obtain ⟨σ, h, hc, hr⟩ := exists_returned base hq hcache t hR
  exact ⟨σ, reach_watched h, ⟨_, _, h.mono fun _ _ _ ha => ha.1, hc⟩, hr⟩

end

/-! ## The two builds -/

section
variable {cfg : Config} {t : Tid} {base : Flat} {c : List (Op cfg.segs)}

/-- **The two builds agree** on some calls if and only if all bytes read and put are the ones last
written. -/
theorem agreeOn_iff : AgreeOn cfg t base c ↔ SameBytes base c := by
  rw [sameBytes_iff]
  constructor
  · intro h
    obtain ⟨σ₁, hw₁, h₁, hr₁⟩ := exists_runsAlone (R := fun _ => True)
      (cfg.buildAs ⟨.variant1, false⟩) rfl t base (c := c) fun vs _ => ⟨vs.keys, .refl _, trivial⟩
    have hex : ∀ k : List Word, k.Perm ((valueMemory cfg.segs base).after ∅ c).keys →
        ∃ σ₂ : Sys cfg.segs, σ₂.Watched (cfg.buildAs ⟨.variant2, false⟩) t (fun l => l = k) base ∧
          RunsAlone (cfg.buildAs ⟨.variant2, false⟩) t base c σ₂ ∧
          (σ₂.me t).returned ≠ none := fun k hk =>
      exists_runsAlone (cfg.buildAs ⟨.variant2, false⟩) rfl t base fun vs hvs =>
        ⟨k, (hvs rfl).symm ▸ hk, rfl⟩
    obtain ⟨⟨m, hm⟩, hobjs₁⟩ := hw₁.flat rfl h₁.calls
    refine ⟨?_, fun k hk => ?_⟩
    · obtain ⟨σ₂, hw₂, h₂, -⟩ := hex _ (.refl _)
      obtain ⟨⟨vs, hvs⟩, -⟩ := hw₂.values rfl h₂.calls
      have hops := (h false false σ₁ σ₂ h₁ h₂).1
      intro c₁ op d hc
      exact (hvs.eq_iff hm (h₂.calls.trans h₁.calls.symm)).1 hops.symm c₁ op d (h₂.calls.trans hc)
    · obtain ⟨σ₂, hw₂, h₂, hr₂⟩ := hex k hk
      obtain ⟨k', -, rfl, hobjs₂⟩ := (hw₂.values rfl h₂.calls).2 hr₂
      rw [← hobjs₂, ← hobjs₁ hr₁]
      exact ((h false false σ₁ σ₂ h₁ h₂).2 hr₁ hr₂).symm
  · rintro ⟨hreads, hputs⟩ cache₁ cache₂ σ₁ σ₂ h₁ h₂
    obtain ⟨⟨m, hm⟩, hobjs₁⟩ := h₁.watched.flat rfl h₁.calls
    obtain ⟨⟨vs, hvs⟩, hobjs₂⟩ := h₂.watched.values rfl h₂.calls
    refine ⟨((hvs.eq_iff hm (h₂.calls.trans h₁.calls.symm)).2 fun c₁ op d hc => ?_).symm,
      fun hr₁ hr₂ => ?_⟩
    · exact hreads c₁ op d (h₂.calls.symm.trans hc)
    · obtain ⟨k, hk, -, ho⟩ := hobjs₂ hr₂
      rw [ho, hobjs₁ hr₁, hputs k hk]

end

/-- **When the variants agree**: the two builds agree on some calls if and only if all bytes read
and put are the ones last written. They agree on all calls with some accesses, whatever the objects
and the values written are, if and only if these accesses are `OneEntry`. In both builds any calls
can be made and committed. -/
theorem variants_agree_iff (cfg : Config) (t : Tid) :
    (∀ base c, AgreeOn cfg t base c ↔ SameBytes base c) ∧
    (∀ l, (∀ base c, c.map Op.shape = l → AgreeOn cfg t base c) ↔ OneEntry l) ∧
    ∀ v base c, ∃ σ, RunsAlone (cfg.buildAs ⟨v, false⟩) t base c σ ∧ (σ.me t).returned ≠ none := by
  refine ⟨fun _ _ => agreeOn_iff, fun l => ?_, fun v base c => ?_⟩
  · rw [oneEntry_iff]
    exact forall_congr' fun base => forall_congr' fun c => imp_congr_right fun _ => agreeOn_iff
  · obtain ⟨σ, -, h, hr⟩ := exists_runsAlone (R := fun _ => True) (cfg.buildAs ⟨v, false⟩) rfl t
      base (c := c) fun vs _ => ⟨vs.keys, .refl _, trivial⟩
    exact ⟨σ, h, hr⟩

/-- A small value is written with 32 bits, read with 64 and written again with 64. -/
def mixedCalls : List (Op smallSegs) :=
  [.write lowX ⟨[1, 0, 0, 0], rfl⟩, .read cellX, .write cellX (smallValue 2)]

/-- **The variants do not agree**: on a memory of sevens, `read` returns the four bytes behind the
first value in `VARIANT1` and zeros in `VARIANT2`, and the commit puts eight bytes in `VARIANT1` and
four in `VARIANT2`. -/
theorem variants_fail : ∃ σ₁ σ₂ : Sys smallSegs,
    RunsAlone (small ⟨.variant1, false⟩) 0 (fun _ _ => 7) mixedCalls σ₁ ∧
    RunsAlone (small ⟨.variant2, false⟩) 0 (fun _ _ => 7) mixedCalls σ₂ ∧
    (σ₁.me 0).ops.map Prod.snd = [[], [1, 0, 0, 0, 7, 7, 7, 7], []] ∧
    (σ₂.me 0).ops.map Prod.snd = [[], [1, 0, 0, 0, 0, 0, 0, 0], []] ∧
    (σ₁.me 0).returned ≠ none ∧ (σ₂.me 0).returned ≠ none ∧
    σ₁.objs 0 0x200044 = 0 ∧ σ₂.objs 0 0x200044 = 7 := by
  obtain ⟨σ₁, hw₁, h₁, hr₁⟩ := exists_runsAlone (R := fun _ => True) (small ⟨.variant1, false⟩) rfl
    0 (fun _ _ => 7) (c := mixedCalls) fun vs _ => ⟨vs.keys, .refl _, trivial⟩
  obtain ⟨σ₂, hw₂, h₂, hr₂⟩ := exists_runsAlone (R := fun k => k = [0x200040])
    (small ⟨.variant2, false⟩) rfl 0 (fun _ _ => 7) (c := mixedCalls) fun vs hvs =>
      ⟨_, by rw [hvs rfl]; decide, rfl⟩
  obtain ⟨⟨m, hm⟩, hobjs₁⟩ := hw₁.flat rfl h₁.calls
  obtain ⟨⟨vs, hvs⟩, hobjs₂⟩ := hw₂.values rfl h₂.calls
  obtain ⟨k, -, rfl, ho⟩ := hobjs₂ hr₂
  refine ⟨σ₁, σ₂, h₁, h₂, ?_, ?_, hr₁, hr₂, ?_, ?_⟩
  · refine hm.eq_returns.trans ?_
    rw [h₁.calls]
    decide
  · refine hvs.eq_returns.trans ?_
    rw [h₂.calls]
    decide
  · rw [hobjs₁ hr₁]
    decide
  · rw [ho]
    decide

end DstmP1
