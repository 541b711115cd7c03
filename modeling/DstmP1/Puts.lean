import DstmP1.CommitLog

/-!
# What a commit puts

A `VARIANT1` commit puts whole cells, one after the other and each of them in pieces, while it
holds their locks. At every point of `commitWriteSetValues` the cells of its write set have their
new bytes but for those that are still to be put (`Sys.PutOk`), and nobody else changes them. So a
lock that is given back with the new version is that of a cell whose bytes are all there.
-/

namespace DstmP1

open Segments (Loc)

/-! ## Cells and puts -/

section
variable {g : Segments} {b b' : Word}

/-- What a put does to the bytes of its cell. -/
theorem Flat.cell_put (m : Flat) (b : Word) (v : List Byte) (ks : List ℕ) (i : Fin cellSize) :
    (m.put b v ks).cell b i = if i.val ∈ ks then v.getD i (m.cell b i) else m.cell b i := by
  have hi : (addrFromAddress b + BitVec.ofNat 64 i - addrFromAddress b).toNat = i.val := by
    have hlt : i.val < 64 := i.isLt
    rw [BitVec.add_comm, BitVec.add_sub_cancel, BitVec.toNat_ofNat]
    omega
  rw [Flat.cell_apply, Flat.cell_apply, Flat.put, Segments.cellLoc, hi]
  simp

/-- A put changes no other cell. -/
theorem Flat.cell_put_ne (m : Flat) (hb : g.IsCell b) (hb' : g.IsCell b') (hne : b' ≠ b)
    {v : List Byte} {ks : List ℕ} (hks : ∀ k ∈ ks, k < cellSize) :
    (m.put b v ks).cell b' = m.cell b' := by
  funext i
  by_contra hch
  rw [Flat.cell_apply, Flat.cell_apply] at hch
  obtain ⟨k, hk, he⟩ := Flat.put_ne hch
  exact hne (Segments.cellLoc_inj hb' hb i.isLt (hks k hk) he).1

/-- `commitWriteSetValues` puts the copies of the write set, whole cells. -/
theorem Tx.mem_commitValues {tx : Tx} {o : Tx.Orders} {p : Word × List Byte}
    (hp : p ∈ tx.commitValues .variant1 o) :
    ∃ e, tx.writeSet.lookup p.1 = some e ∧ p.2 = List.ofFn e.copy := by
  obtain ⟨b, -, hb⟩ := List.mem_filterMap.1 hp
  obtain ⟨e, he, rfl⟩ := Option.map_eq_some_iff.1 hb
  exact ⟨e, he, rfl⟩

/-- It puts every cell of the write set. -/
theorem Tx.Orders.Of.mem_commitValues {tx : Tx} {o : Tx.Orders} (ho : o.Of tx)
    (hb : b ∈ tx.writeSet) : b ∈ (tx.commitValues .variant1 o).map Prod.fst := by
  obtain ⟨e, he⟩ := exists_lookup hb
  have hbo : b ∈ o.ws := ho.ws.mem_iff.2 (AList.mem_keys.1 hb)
  refine List.mem_map.2 ⟨(b, List.ofFn e.copy), List.mem_filterMap.2 ⟨b, hbo, ?_⟩, rfl⟩
  rw [he]
  rfl

end

/-! ## Bytes still to be put -/

/-- Byte `i` of the cell `b` is still to be put. -/
def Pc.Unput {g : Segments} : Pc g → Word → ℕ → Prop
  | .commitWriteSetValues _ (p :: puts) left, b, i => b = p.1 ∧ i ∈ left ∨ b ∈ puts.map Prod.fst
  | _, _, _ => False

section
variable {cfg : Config} {σ σ' : Sys cfg.segs} {a : Act cfg.segs} {t : Tid} {b : Word}

/-- Before the first byte of the next cell all its bytes are still to be put. -/
theorem Pc.unput_start {tx : Tx} {o : Tx.Orders} {puts : List (Word × List Byte)}
    (hp : ∀ p ∈ puts, p ∈ tx.commitValues .variant1 o) (hb : b ∈ puts.map Prod.fst)
    (i : Fin cellSize) :
    (Pc.commitWriteSetValues (g := cfg.segs) o puts (firstBytes puts)).Unput b i := by
  cases puts with
  | nil => cases hb
  | cons p puts =>
    rcases List.mem_cons.1 hb with rfl | hb
    · obtain ⟨e, -, hv⟩ := Tx.mem_commitValues (hp p List.mem_cons_self)
      refine .inl ⟨rfl, List.mem_range.2 ?_⟩
      rw [hv, List.length_ofFn]
      exact i.isLt
    · exact .inr hb

/-- What a thread past validation has put, when it holds the locks of `held`. -/
def PutsDone {g : Segments} (objs : Flat) (held : List Word) (tx : Tx) (pc : Pc g) : Prop :=
  ∀ b e, b ∈ held → tx.writeSet.lookup b = some e → ∀ i : Fin cellSize, ¬ pc.Unput b i →
    objs.cell b i = e.copy i

/-- A piece is put. -/
theorem PutsDone.put {g : Segments} {objs : Flat} {held : List Word} {tx : Tx} {o : Tx.Orders}
    {p : Word × List Byte} {puts : List (Word × List Byte)} {left : List ℕ} {e₀ : Entry}
    {off n : ℕ} (h : PutsDone (g := g) objs held tx (.commitWriteSetValues o (p :: puts) left))
    (htx : tx.Ok g) (he₀ : tx.writeSet.lookup p.1 = some e₀) (hp : p.2 = List.ofFn e₀.copy)
    (hlt : ∀ k ∈ left, k < cellSize) :
    PutsDone (g := g) (objs.put p.1 p.2 (pieceOf off n left)) held tx
      (.commitWriteSetValues o (p :: puts) (pieceRest off n left)) := by
  intro b e hb he i hn
  rcases eq_or_ne b p.1 with rfl | hne
  · rw [he₀, Option.some.injEq] at he
    subst he
    rw [Flat.cell_put]
    split
    · rw [hp, List.getD_eq_getElem _ _ (by rw [List.length_ofFn]; exact i.isLt),
        List.getElem_ofFn]
    · next hks =>
      refine h _ e₀ hb he₀ i ?_
      rintro (⟨-, hi⟩ | hu)
      · -- Byte `i` is still to be put, so it is not in the rest only if it is in the piece.
        refine hn (.inl ⟨rfl, List.mem_filter.2 ⟨hi, ?_⟩⟩)
        rw [Bool.not_eq_true']
        by_contra hr
        exact hks (List.mem_filter.2 ⟨hi, Bool.not_eq_false _ ▸ hr⟩)
      · exact hn (.inr hu)
  · have hks : ∀ k ∈ pieceOf off n left, k < cellSize :=
      fun k hk => hlt k (List.mem_filter.1 hk).1
    rw [Flat.cell_put_ne objs (htx.write _ _ he₀).1 (htx.write _ _ he).1 hne hks]
    refine h b e hb he i ?_
    rintro (⟨rfl, -⟩ | hu)
    · exact hne rfl
    · exact hn (.inr hu)

/-- Past validation, the cells that a transaction holds have their new bytes, but for those that
are still to be put. -/
def Sys.PutOk (σ : Sys cfg.segs) : Prop :=
  ∀ t, (σ.th t).pc.phase = .writing →
    PutsDone σ.objs ((σ.me t).held.map Prod.fst) (σ.th t).tx (σ.th t).pc

/-- Only the transaction that holds a cell changes it. -/
theorem Rule.cell_eq (hr : Rule cfg σ a σ') (hg : σ.Good cfg) (hb : cfg.segs.IsCell b)
    (hn : ¬ σ.Holds (σ.cur a.tid) b) : σ'.objs.cell b = σ.objs.cell b := by
  rcases hr.objs with ho | ⟨t, o, p, puts, left, off, n, rfl, hpc, ho⟩
  · rw [ho]
  · funext i
    by_contra hch
    rw [ho, Flat.cell_apply, Flat.cell_apply] at hch
    obtain ⟨k, hk, he⟩ := Flat.put_ne hch
    obtain ⟨b', j, hj, hb', hl⟩ := hg.put_holds hpc (List.mem_filter.1 hk).1
    have hc := (hb'.inside hg.ok hg.att).2.2.2
    rw [(Segments.cellLoc_inj hb hc i.isLt hj (he.trans hl)).1] at hn
    exact hn hb'

/-- The objects that are put, in the order of `commitWriteSetValues`. -/
theorem Sys.Ok.puts (hok : σ.Ok cfg) (hv : cfg.build.variant = .variant1) {o : Tx.Orders}
    {puts : List (Word × List Byte)} {left : List ℕ}
    (hpc : (σ.th t).pc = .commitWriteSetValues o puts left) :
    (∀ p ∈ puts, p ∈ (σ.th t).tx.commitValues .variant1 o) ∧ left ⊆ firstBytes puts := by
  have hl := (hok.local_ok t).pc
  simp only [PcOk, hpc] at hl
  rw [hv] at hl
  exact ⟨fun p hp => hl.2.2.1.subset hp, hl.2.2.2⟩

/-- The put that is under way is that of a cell of the write set. -/
theorem Sys.Ok.put (hok : σ.Ok cfg) (hv : cfg.build.variant = .variant1) {o : Tx.Orders}
    {p : Word × List Byte} {puts : List (Word × List Byte)} {left : List ℕ}
    (hpc : (σ.th t).pc = .commitWriteSetValues o (p :: puts) left) :
    ∃ e, (σ.th t).tx.writeSet.lookup p.1 = some e ∧ p.2 = List.ofFn e.copy ∧
      ∀ k ∈ left, k < cellSize := by
  obtain ⟨hp, hl⟩ := hok.puts hv hpc
  obtain ⟨e, he, hpe⟩ := Tx.mem_commitValues (hp p List.mem_cons_self)
  refine ⟨e, he, hpe, fun k hk => ?_⟩
  have hr := List.mem_range.1 (hl hk)
  rwa [hpe, List.length_ofFn] at hr

/-- A thread goes on to its next put. -/
theorem Goes.putsDone {pc : Pc cfg.segs} (hg : Goes cfg σ t pc) (hok : σ.Ok cfg)
    (hv : cfg.build.variant = .variant1) {held : List Word} (hp : pc.phase = .writing)
    (h : PutsDone σ.objs held (σ.th t).tx (σ.th t).pc) : PutsDone σ.objs held (σ.th t).tx pc := by
  cases hg with
  | @putNext o p puts hpc =>
    intro b e hb he i hn
    refine h b e hb he i fun hu => hn ?_
    rw [hpc] at hu
    rcases hu with ⟨-, hi⟩ | hu
    · cases hi
    · obtain ⟨hps, -⟩ := hok.puts hv hpc
      exact Pc.unput_start (fun q hq => hps q (List.mem_cons_of_mem _ hq)) hu i
  | putAll hpc | nextRead hpc | nextRetry hpc =>
    rw [hpc] at h
    exact h
  | _ => cases hp

/-- A step keeps what its thread has put. -/
theorem Rule.putsDone (hr : Rule cfg σ a σ') (hg : σ.Good cfg)
    (hv : cfg.build.variant = .variant1)
    (h : (σ.th a.tid).pc.phase = .writing →
      PutsDone σ.objs ((σ.me a.tid).held.map Prod.fst) (σ.th a.tid).tx (σ.th a.tid).pc) :
    (σ'.th a.tid).pc.phase = .writing →
      PutsDone σ'.objs ((σ'.me a.tid).held.map Prod.fst) (σ'.th a.tid).tx (σ'.th a.tid).pc := by
  have lift : ∀ {th : Thread cfg.segs} {me : Attempt cfg.segs},
      σ'.th = (σ.upd a.tid th me).th → σ'.att = (σ.upd a.tid th me).att →
      (th.pc.phase = .writing → PutsDone σ'.objs (me.held.map Prod.fst) th.tx th.pc) →
      (σ'.th a.tid).pc.phase = .writing →
      PutsDone σ'.objs ((σ'.me a.tid).held.map Prod.fst) (σ'.th a.tid).tx (σ'.th a.tid).pc :=
    fun hth hatt h => Sys.lift (P := fun th me => th.pc.phase = .writing →
      PutsDone σ'.objs (me.held.map Prod.fst) th.tx th.pc) h hth hatt
  cases hr with
  | goto ha hc hgo =>
    subst ha
    refine lift rfl rfl fun hp => hgo.putsDone hg.ok hv hp (h ?_)
    rw [← hgo.phase]
    exact hp
  | load | reply | lost => exact h
  | deliver hk hm hdesc =>
    obtain rfl := delivers hg.ok.local_ok hg.ok.descs _ _ _ _ _ _ hk hm hdesc
    exact lift rfl rfl h
  | addVersion | refuse => exact lift rfl rfl h
  | abort _ _ ha =>
    subst ha
    exact lift rfl rfl fun hp => by cases hp
  | begin | fetched | clockRaised | finish | finishValid | lockPoint | batch | send | released
  | restore | invalid | committed => exact lift rfl rfl fun hp => by cases hp
  | new _ hpc | delete hpc | served hpc =>
    refine lift rfl rfl fun hp => ?_
    dsimp only at hp
    rw [hpc] at hp
    cases hp
  | @grant t k p i old changed hk =>
    refine lift rfl rfl fun hp => ?_
    have hph := Pc.phase_of_inBatch (hg.ok.inBatch (List.mem_of_getElem? hk)).1
    cases hph.symm.trans hp
  | @validated t c o looked hpc =>
    refine lift rfl rfl fun _ b e _ he i hn => absurd ?_ hn
    have hl := (hg.ok.local_ok t).pc
    simp only [PcOk, hpc] at hl
    rw [hv]
    exact Pc.unput_start (fun p hp => hp) (hl.1.mem_commitValues (mem_of_lookup he)) i
  | @put t c o p puts left off n hpc =>
    have hold := h (by rw [Act.tid, hpc]; rfl)
    obtain ⟨e₀, he₀, hp, hlt⟩ := hg.ok.put hv hpc
    rw [Act.tid, hpc] at hold
    exact lift rfl rfl fun _ => hold.put (hg.ok.local_ok t).tx he₀ hp hlt
  | issue hpc =>
    refine lift rfl rfl fun _ => ?_
    have hold := h (by rw [Act.tid, hpc]; rfl)
    rw [Act.tid, hpc] at hold
    exact hold
  | release hpc =>
    refine lift rfl rfl fun _ b e hb => ?_
    have hold := h (by rw [Act.tid, hpc]; rfl)
    rw [Act.tid, hpc] at hold
    obtain ⟨x, hx, rfl⟩ := List.mem_map.1 hb
    exact hold _ e (List.mem_map_of_mem (List.mem_filter.1 hx).1)

theorem Sys.PutOk.init (objs : Flat) : (Sys.init cfg.segs objs).PutOk := fun _ h => by cases h

theorem Sys.PutOk.step (h : σ.PutOk) (hg : σ.Good cfg) (hv : cfg.build.variant = .variant1)
    (hr : Rule cfg σ a σ') : σ'.PutOk := by
  intro t
  rcases eq_or_ne t a.tid with rfl | ht
  · exact hr.putsDone hg hv (h _)
  · have hs := hr.sameBut (delivers hg.ok.local_ok hg.ok.descs)
    rw [hs.th t ht, hs.me ht]
    intro hp b e hb he i hn
    rw [hr.cell_eq hg ((hg.ok.local_ok t).tx.write b e he).1 fun hh => ht ?_]
    · exact h t hp b e hb he i hn
    · exact congrArg Prod.fst (hg.own.excl _ _ b hb hh)

/-! ## Bytes outside the cells -/

/-- Object bytes that belong to no cell are as they were in `objs`. -/
def Sys.FrameOk (objs : Flat) (σ : Sys cfg.segs) : Prop :=
  ∀ n p, (∀ b, cfg.segs.IsCell b → ∀ i : Fin cellSize, (n, p) ≠ Segments.cellLoc b i) →
    σ.objs n p = objs n p

theorem Sys.FrameOk.step {objs : Flat} (h : σ.FrameOk objs) (hg : σ.Good cfg)
    (hr : Rule cfg σ a σ') : σ'.FrameOk objs := by
  intro n p hout
  rw [← h n p hout]
  rcases hr.objs with ho | ⟨t, o, q, puts, left, off, m, rfl, hpc, ho⟩
  · rw [ho]
  · by_contra hch
    rw [ho] at hch
    obtain ⟨k, hk, he⟩ := Flat.put_ne hch
    obtain ⟨b, i, hi, hb, hl⟩ := hg.put_holds hpc (List.mem_filter.1 hk).1
    exact hout b (hb.inside hg.ok hg.att).2.2.2 ⟨i, hi⟩ (he.trans hl)

end

end DstmP1
