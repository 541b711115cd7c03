import DstmP1.Lib.Seqlock
import DstmP1.MemMgr

/-!
# `readCell`

`DSTMGASNetCache::readCell` (`dstm_cache_impl.h`) reads a cell without taking its lock: the lock
word, then the data, then the lock word again, and starts over when the two lock words are not
equivalent. The local branch (loads and `memcpy`) and the remote one (`gasnet_get`) make the same
accesses in the same order; with `copy != NULL` they read the whole cell, else only the value.
The accesses are the steps `readVersion`, `readPiece` and `readVersion2` here: the data is read
in any pieces, each at a moment of its own.

`CellStep` puts one reader next to any number of writers of the cell, and
`readCell_consistent` is what the two tests of the lock word buy: a cell returned with an
unlocked version is what the cell held whenever its lock word was that version.
-/

namespace DstmP1

abbrev Byte := BitVec 8

/-- The contents of a cell. -/
abbrev Cell := Fin cellSize → Byte

/-- The memory of one node, by local address. -/
abbrev Mem := Word → Byte

/-- The contents of the cell at the local address `base`. -/
def Mem.cell (mem : Mem) (base : Word) : Cell := fun i => mem (base + BitVec.ofNat 64 i)

/-! ## The steps of a call -/

/-- The arguments of `readCell<T>`: `copy` stands for `copy != NULL` and `width` for `sizeof(T)`;
the value lies in one cell. -/
structure CellArgs where
  addr : Word
  width : ℕ
  copy : Bool
  inCell : addr.toNat % cellSize + width ≤ cellSize

/-- Where a call of `readCell` stands. -/
inductive CellPc where
  /-- About to read the lock word for the first time. -/
  | version
  /-- The first lock word was `version`; the bytes in `left` are still to be read into `buf`,
  then the lock word again. -/
  | data (version : Word) (left : List ℕ) (buf : ℕ → Byte)

/-- What a call of `readCell` leaves: `*version`, and the bytes read when it is unlocked. -/
inductive CellRet where
  | locked (version : Word)
  | cell (version : Word) (buf : ℕ → Byte)

namespace CellArgs

variable (c : CellArgs)

/-- `low_bound`. -/
def lowBound : Word := (addrFromAddress c.addr >>> CDU_SIZE) <<< CDU_SIZE

/-- Where the data is read from. -/
def base : Word := if c.copy then c.lowBound else addrFromAddress c.addr

/-- How many bytes are read. -/
def len : ℕ := if c.copy then cellSize else c.width

/-- The first read of the lock word found `word`. -/
def readVersion (word : Word) : CellPc ⊕ CellRet :=
  if isLocked word then .inr (.locked word)
  else .inl (.data word (List.range c.len) fun _ => 0)

/-- The bytes `off` to `off + n` of the data are read. -/
def readPiece (mem : Mem) (off n : ℕ) (left : List ℕ) (buf : ℕ → Byte) : List ℕ × (ℕ → Byte) :=
  (left.filter fun k => !(decide (off ≤ k) && decide (k < off + n)),
    fun k => if k ∈ left ∧ off ≤ k ∧ k < off + n then mem (c.base + BitVec.ofNat 64 k) else buf k)

/-- The second read of the lock word found `word`. -/
def readVersion2 (version : Word) (buf : ℕ → Byte) (word : Word) : CellPc ⊕ CellRet :=
  if isLocked word then .inr (.locked word)
  else if isTimestampsEquivalent version word then .inr (.cell version buf)
  else .inl .version

/-- Offset of the data read within the cell. -/
def start : ℕ := if c.copy then 0 else c.addr.toNat % cellSize

/-- The value returned, taken from the copied cell or from the bytes of the value. -/
def value (buf : ℕ → Byte) : List Byte :=
  (List.range c.width).map fun i =>
    if c.copy then buf ((addrFromAddress c.addr - c.lowBound).toNat + i) else buf i

/-! ## What has been read -/

/-- The bytes that are no longer `left` agree with the cell `d`. -/
def Filled (left : List ℕ) (buf : ℕ → Byte) (d : Cell) : Prop :=
  ∀ j : Fin cellSize, c.start ≤ j → j < c.start + c.len → j.val - c.start ∉ left →
    buf (j.val - c.start) = d j

/-- The cell that is read begins at a multiple of 64. -/
theorem lowBound_toNat : c.lowBound.toNat = c.addr.toNat % 2 ^ 48 / 64 * 64 := by
  have h := addrFromAddress_toNat c.addr
  rw [lowBound, BitVec.toNat_shiftLeft, BitVec.toNat_ushiftRight, Nat.shiftRight_eq_div_pow,
    Nat.shiftLeft_eq, h, show 2 ^ CDU_SIZE = 64 by decide]
  omega

/-- The offset of the value in its cell. -/
theorem addr_sub_lowBound :
    (addrFromAddress c.addr - c.lowBound).toNat = c.addr.toNat % cellSize := by
  have h := addrFromAddress_toNat c.addr
  have hl := c.lowBound_toNat
  rw [BitVec.toNat_sub_of_le (by rw [BitVec.le_def]; omega), cellSize_eq]
  omega

/-- What is read begins at the cell, or at the value if no copy is wanted. -/
theorem base_eq : c.base = c.lowBound + BitVec.ofNat 64 c.start := by
  have h := addrFromAddress_toNat c.addr
  have hl := c.lowBound_toNat
  rw [base, start]
  split
  · simp
  · apply BitVec.eq_of_toNat_eq
    rw [BitVec.toNat_add, BitVec.toNat_ofNat, hl, h, cellSize_eq]
    omega

/-- The bytes read are bytes of the cell. -/
theorem mem_base (mem : Mem) {j : Fin cellSize} (hj : c.start ≤ j) :
    mem (c.base + BitVec.ofNat 64 (j.val - c.start)) = mem.cell c.lowBound j := by
  rw [Mem.cell, base_eq, BitVec.add_assoc, ← BitVec.ofNat_add, Nat.add_sub_cancel' hj]

/-- Nothing has been read yet. -/
theorem filled_range (d : Cell) : c.Filled (List.range c.len) (fun _ => 0) d := by
  intro j hj hlt hn
  exact absurd (List.mem_range.2 (by omega)) hn

/-- A piece read agrees with the cell as it is. -/
theorem filled_readPiece {left : List ℕ} {buf : ℕ → Byte} {d : Cell} (mem : Mem) (off n : ℕ)
    (h : c.Filled left buf d) (hd : mem.cell c.lowBound = d) :
    c.Filled (c.readPiece mem off n left buf).1 (c.readPiece mem off n left buf).2 d := by
  intro j hj hlt hn
  have hb := c.mem_base mem hj
  simp only [readPiece, List.mem_filter, Bool.not_and, Bool.or_eq_true, Bool.not_eq_eq_eq_not,
    Bool.not_true, decide_eq_false_iff_not, not_and, not_or, Nat.not_le, Nat.not_lt] at hn ⊢
  split
  · rw [hb, hd]
  · rename_i hnot
    refine h j hj hlt fun hl => hnot ⟨hl, ?_⟩
    have := hn hl
    omega

/-- A whole cell read is a copy of the cell. -/
theorem filled_copy {buf : ℕ → Byte} {d : Cell} (hc : c.copy = true) (h : c.Filled [] buf d) :
    (fun i : Fin cellSize => buf i) = d := by
  funext i
  have hs : c.start = 0 := by rw [start, if_pos hc]
  have hl : c.len = cellSize := by rw [len, if_pos hc]
  simpa [hs] using h i (by omega) (by rw [hs, hl]; have := i.isLt; omega) (List.not_mem_nil)

/-- A copy of the cell has been read whole. -/
theorem filled_of_copy {c : CellArgs} {buf : ℕ → Byte} {d : Cell} (hc : c.copy = true)
    (h : (fun i : Fin cellSize => buf i) = d) : c.Filled [] buf d := by
  rintro j - - -
  have hs : c.start = 0 := by rw [start, if_pos hc]
  rw [hs, ← h, Nat.sub_zero]

/-- The bytes of the value in the cell `d`. -/
def valueIn (d : Cell) : List Byte :=
  (List.range c.width).map fun i => d (Fin.ofNat cellSize (c.addr.toNat + i))

/-- The value returned is the value in the cell. -/
theorem filled_value {buf : ℕ → Byte} {d : Cell} (h : c.Filled [] buf d) :
    c.value buf = c.valueIn d := by
  refine List.map_congr_left fun i hi => ?_
  have hi := List.mem_range.1 hi
  have hin := c.inCell
  have hj : (c.addr.toNat + i) % cellSize = c.addr.toNat % cellSize + i := by
    rw [cellSize_eq] at *; omega
  have hjv : (Fin.ofNat cellSize (c.addr.toNat + i)).val = c.addr.toNat % cellSize + i := hj
  rw [addr_sub_lowBound]
  split
  · rename_i hc
    have hs : c.start = 0 := by rw [start, if_pos hc]
    have hl : c.len = cellSize := by rw [len, if_pos hc]
    have := h (Fin.ofNat cellSize (c.addr.toNat + i)) (by omega) (by rw [hjv]; omega)
      List.not_mem_nil
    rwa [hjv, hs] at this
  · rename_i hc
    have hs : c.start = c.addr.toNat % cellSize := by rw [start, if_neg hc]
    have hl : c.len = c.width := by rw [len, if_neg hc]
    have := h (Fin.ofNat cellSize (c.addr.toNat + i)) (by omega) (by rw [hjv]; omega)
      List.not_mem_nil
    rwa [hjv, hs, Nat.add_sub_cancel_left] at this

end CellArgs

/-! ## One reader and any number of writers -/

/-- The writer that holds the lock: the word it replaced, and whether it has put data. -/
structure Holder where
  writer : ℕ
  replaced : Word
  dirty : Bool

/-- A moment: the lock word of the cell and the memory of its home node. -/
structure Moment where
  word : Word
  mem : Mem

/-- The reader: its call started after the first `since` moments. -/
inductive Reader where
  | idle
  | reading (since : ℕ) (pc : CellPc)
  | returned (since : ℕ) (ret : CellRet)

/-- A cell, its writers and one reader; `past` are the earlier moments, the latest first. -/
structure CellWorld where
  now : Moment
  holder : Option Holder
  past : List Moment
  reader : Reader

namespace CellWorld

/-- All moments so far, the present one first. -/
def moments (w : CellWorld) : List Moment := w.now :: w.past

/-- The world after a step: the present moment becomes a past one. -/
def next (w : CellWorld) (now : Moment) (holder : Option Holder) : CellWorld :=
  { w with now, holder, past := w.moments }

/-- The moments since the call of the reader started. -/
def during (w : CellWorld) (since : ℕ) : List Moment :=
  w.moments.take (w.moments.length - since)

/-- The reader's call goes on as `r` says. -/
def readerNext (w : CellWorld) (since : ℕ) : CellPc ⊕ CellRet → CellWorld
  | .inl pc => { w.next w.now w.holder with reader := .reading since pc }
  | .inr ret => { w.next w.now w.holder with reader := .returned since ret }

end CellWorld

/-- One step of a writer of the cell or of the reader with the arguments `c`. -/
inductive CellStep (c : CellArgs) : CellWorld → CellWorld → Prop where
  /-- A writer sets the lock bit of the free lock word. -/
  | lock {w : CellWorld} (writer : ℕ) (word : Word) : w.holder = none → isLocked word = true →
      CellStep c w (w.next { w.now with word } (some ⟨writer, w.now.word, false⟩))
  /-- The writer that holds the lock puts data into the cell. -/
  | put {w : CellWorld} {h : Holder} (mem : Mem) : w.holder = some h →
      CellStep c w (w.next { w.now with mem } (some { h with dirty := true }))
  /-- It releases the lock with a (node, version) pair the cell has not had before. -/
  | release {w : CellWorld} {h : Holder} (word : Word) : w.holder = some h → Unlocked word →
      (∀ m ∈ w.moments, Unlocked m.word → isTimestampsEquivalent m.word word = false) →
      CellStep c w (w.next { w.now with word } none)
  /-- It has put no data and restores the word it replaced. -/
  | restore {w : CellWorld} {h : Holder} : w.holder = some h → h.dirty = false →
      CellStep c w (w.next { w.now with word := h.replaced } none)
  /-- Memory outside the cell changes. -/
  | elsewhere {w : CellWorld} (mem : Mem) : mem.cell c.lowBound = w.now.mem.cell c.lowBound →
      CellStep c w (w.next { w.now with mem } w.holder)
  /-- `readCell` is called. -/
  | call {w : CellWorld} : w.reader = .idle →
      CellStep c w { w.next w.now w.holder with reader := .reading w.moments.length .version }
  /-- The reader reads the lock word for the first time. -/
  | readVersion {w : CellWorld} {since : ℕ} : w.reader = .reading since .version →
      CellStep c w (w.readerNext since (c.readVersion w.now.word))
  /-- The reader reads a piece of the data. -/
  | readPiece {w : CellWorld} {since : ℕ} {version : Word} {left : List ℕ} {buf : ℕ → Byte}
      (off n : ℕ) : w.reader = .reading since (.data version left buf) →
      CellStep c w (w.readerNext since (.inl (.data version
        (c.readPiece w.now.mem off n left buf).1 (c.readPiece w.now.mem off n left buf).2)))
  /-- All data has been read: the reader reads the lock word again. -/
  | readVersion2 {w : CellWorld} {since : ℕ} {version : Word} {buf : ℕ → Byte} :
      w.reader = .reading since (.data version [] buf) →
      CellStep c w (w.readerNext since (CellArgs.readVersion2 version buf w.now.word))

/-- The worlds that writers and reader can reach from an unlocked cell. -/
inductive CellReach (c : CellArgs) : CellWorld → Prop where
  | init (now : Moment) : Unlocked now.word → CellReach c ⟨now, none, [], .idle⟩
  | step {w w' : CellWorld} : CellReach c w → CellStep c w w' → CellReach c w'

/-! ## The cell as its readers see it -/

namespace CellWorld

variable {c : CellArgs} {w w' : CellWorld}

/-- The unlocked word last installed: the word itself or the one the holder replaced. -/
def installed (w : CellWorld) : Word :=
  match w.holder with
  | none => w.now.word
  | some h => h.replaced

/-- The cell with the installed word for its label, dirty once the holder has put data. -/
def vcell (c : CellArgs) (w : CellWorld) : VCell Word Cell where
  label := w.installed
  dirty := ∃ h, w.holder = some h ∧ h.dirty = true
  data := w.now.mem.cell c.lowBound

/-- The unlocked words the cell has had. -/
def used (w : CellWorld) (x : Word) : Prop := Unlocked x ∧ ∃ m ∈ w.moments, m.word = x

@[simp] theorem readerNext_now (w : CellWorld) (since : ℕ) (r : CellPc ⊕ CellRet) :
    (w.readerNext since r).now = w.now := by cases r <;> rfl

@[simp] theorem readerNext_holder (w : CellWorld) (since : ℕ) (r : CellPc ⊕ CellRet) :
    (w.readerNext since r).holder = w.holder := by cases r <;> rfl

@[simp] theorem readerNext_past (w : CellWorld) (since : ℕ) (r : CellPc ⊕ CellRet) :
    (w.readerNext since r).past = w.moments := by cases r <;> rfl

/-- Every step adds a moment. -/
theorem past_eq (h : CellStep c w w') : w'.past = w.moments := by
  cases h <;> simp [next]

/-- A step adds the moment it leads to. -/
theorem mem_moments (h : CellStep c w w') {m : Moment} :
    m ∈ w'.moments ↔ m = w'.now ∨ m ∈ w.moments := by
  rw [moments, past_eq h, List.mem_cons]

/-- An unlocked word that the cell has had stays one that it has had. -/
theorem used_mono (h : CellStep c w w') {x : Word} (hx : w.used x) : w'.used x := by
  obtain ⟨hu, m, hm, rfl⟩ := hx
  exact ⟨hu, m, (mem_moments h).2 (.inr hm), rfl⟩

/-- The lock bit is set exactly while a writer holds the lock, the replaced word is one the cell
has had, and two moments with one unlocked word had the same data. -/
structure Inv (c : CellArgs) (w : CellWorld) : Prop where
  free : w.holder = none → Unlocked w.now.word
  held : ∀ h, w.holder = some h → isLocked w.now.word = true ∧ w.used h.replaced
  known : ∀ m ∈ w.moments, Unlocked m.word →
    (w.vcell c).Known w.used m.word (· = m.mem.cell c.lowBound)
  same : ∀ m ∈ w.moments, ∀ m' ∈ w.moments, Unlocked m.word → m.word = m'.word →
    m.mem.cell c.lowBound = m'.mem.cell c.lowBound

/-- A step of the writers or the reader is one the cell's protocol allows. -/
theorem vstep (hi : Inv c w) (h : CellStep c w w') : (w.vcell c).Step w.used (w'.vcell c) := by
  cases h with
  | lock writer word hn hl =>
    refine ⟨fun h => absurd ?_ h, fun _ _ => ⟨?_, rfl⟩⟩
    · simp [vcell, installed, next, hn]
    · simp [vcell, hn]
  | @put h mem hh =>
    refine ⟨fun h => absurd ?_ h, fun _ hd => absurd ?_ hd⟩
    · simp [vcell, installed, next, hh]
    · exact ⟨_, rfl, rfl⟩
  | @release h word hh hu hf =>
    have hnew : ¬ w.used word := by
      rintro ⟨-, m, hm, rfl⟩
      have := hf m hm hu
      rw [isTimestampsEquivalent_refl] at this
      cases this
    refine ⟨fun _ => hnew, fun heq _ => absurd ?_ hnew⟩
    have heq : word = h.replaced := by simpa [vcell, installed, next, hh] using heq
    exact heq ▸ (hi.held h hh).2
  | @restore h hh hd =>
    refine ⟨fun h => absurd ?_ h, fun _ _ => ⟨?_, rfl⟩⟩
    · simp [vcell, installed, next, hh]
    · simp [vcell, hh, hd]
  | elsewhere mem hm => exact ⟨fun h => absurd rfl h, fun _ hd => ⟨hd, hm⟩⟩
  | call | readVersion | readPiece | readVersion2 =>
    refine ⟨fun h => absurd ?_ h, fun _ hd => ⟨?_, ?_⟩⟩ <;>
      simp_all [vcell, installed, next]

/-- An unlocked word is the installed one, and the cell is clean. -/
theorem Inv.installed_eq (hi : Inv c w) (hu : Unlocked w.now.word) :
    w.holder = none ∧ w.installed = w.now.word := by
  have hn : w.holder = none := by
    cases hh : w.holder with
    | none => rfl
    | some h => exact absurd hu (isLocked_eq_true.1 (hi.held h hh).1)
  exact ⟨hn, by rw [installed, hn]⟩

/-- A step of a writer or of the reader keeps the discipline of the cell. -/
theorem Inv.step (hi : Inv c w) (h : CellStep c w w') : Inv c w' := by
  have hfree : w'.holder = none → Unlocked w'.now.word := by
    cases h with
    | lock | put => intro hn; cases hn
    | release word hh hu hf => exact fun _ => hu
    | @restore h hh hd => exact fun _ => (hi.held h hh).2.1
    | elsewhere | call => exact hi.free
    | readVersion | readPiece | readVersion2 => simpa using hi.free
  have hheld : ∀ h, w'.holder = some h → isLocked w'.now.word = true ∧ w'.used h.replaced := by
    intro k hk
    have hused : ∀ x, w.used x → w'.used x := fun x => used_mono h
    cases h with
    | lock writer word hn hl =>
      cases hk
      exact ⟨hl, hused _ ⟨hi.free hn, w.now, List.mem_cons_self, rfl⟩⟩
    | @put h mem hh =>
      cases hk
      exact ⟨(hi.held h hh).1, hused _ (hi.held h hh).2⟩
    | release | restore => cases hk
    | elsewhere | call => exact ⟨(hi.held k hk).1, hused _ (hi.held k hk).2⟩
    | readVersion | readPiece | readVersion2 =>
      simp only [readerNext_holder, readerNext_now] at hk ⊢
      exact ⟨(hi.held k hk).1, hused _ (hi.held k hk).2⟩
  have hinst : Unlocked w'.now.word → w'.holder = none ∧ w'.installed = w'.now.word := by
    intro hu
    have hn : w'.holder = none := by
      cases hh : w'.holder with
      | none => rfl
      | some k => exact absurd hu (isLocked_eq_true.1 (hheld k hh).1)
    exact ⟨hn, by rw [installed, hn]⟩
  have hold : ∀ m ∈ w.moments, Unlocked m.word →
      (w'.vcell c).Known w'.used m.word (· = m.mem.cell c.lowBound) :=
    fun m hm hu => (hi.known m hm hu).step (vstep hi h) fun x => used_mono h
  -- an earlier moment with the present unlocked word had the present data
  have hback : ∀ m ∈ w.moments, Unlocked m.word → m.word = w'.now.word →
      w'.now.mem.cell c.lowBound = m.mem.cell c.lowBound := by
    intro m hm hu hw
    obtain ⟨hn, hl⟩ := hinst (hw ▸ hu)
    exact (hold m hm hu).use (hl.trans hw.symm) (by simp [vcell, hn])
  refine ⟨hfree, hheld, fun m hm hu => ?_, fun m hm m' hm' hu hw => ?_⟩
  · rcases (mem_moments h).1 hm with rfl | hm
    · obtain ⟨-, hl⟩ := hinst hu
      have hused : w'.used (w'.vcell c).label :=
        ⟨by rw [vcell, hl]; exact hu, w'.now, List.mem_cons_self, hl.symm⟩
      have : VCell.Known w'.used (w'.vcell c) _ (· = w'.now.mem.cell c.lowBound) :=
        .start hused rfl
      rwa [show (w'.vcell c).label = w'.now.word from hl] at this
    · exact hold m hm hu
  · rcases (mem_moments h).1 hm with rfl | hm <;> rcases (mem_moments h).1 hm' with rfl | hm'
    · rfl
    · exact hback m' hm' (hw ▸ hu) hw.symm
    · exact (hback m hm hu hw).symm
    · exact hi.same m hm m' hm' hu hw

/-! ## The reader -/

/-- What the reader has and knows. -/
def ReaderOk (c : CellArgs) (w : CellWorld) : Prop :=
  match w.reader with
  | .idle => True
  | .reading since .version => since < w.moments.length
  | .reading since (.data v left buf) => since < w.moments.length ∧
      (∃ m ∈ w.during since, m.word = v) ∧ (w.vcell c).Known w.used v (c.Filled left buf)
  | .returned _ (.locked v) => isLocked v = true
  | .returned since (.cell v buf) => since < w.moments.length ∧ Unlocked v ∧
      (∃ m ∈ w.during since, m.word = v) ∧
      ∀ m ∈ w.moments, m.word = v → c.Filled [] buf (m.mem.cell c.lowBound)

/-- The present moment is one since any past moment. -/
theorem now_mem_during {since : ℕ} (h : since < w.moments.length) : w.now ∈ w.during since := by
  obtain ⟨k, hk⟩ : ∃ k, w.moments.length - since = k + 1 := ⟨_, (Nat.succ_pred (by omega)).symm⟩
  rw [during, hk, moments, List.take_succ_cons]
  exact List.mem_cons_self

/-- The moments since a past one stay such. -/
theorem during_step (h : CellStep c w w') {since : ℕ} (hs : since < w.moments.length) {m : Moment}
    (hm : m ∈ w.during since) : m ∈ w'.during since := by
  have hk : w'.moments.length - since = (w.moments.length - since) + 1 := by
    rw [moments, past_eq h, List.length_cons]; omega
  have hm' : w'.moments = w'.now :: w.moments := by rw [← past_eq h, moments]
  rw [during, hk, hm', List.take_succ_cons]
  exact List.mem_cons_of_mem _ hm

/-- A step adds one moment. -/
theorem length_step (h : CellStep c w w') : w'.moments.length = w.moments.length + 1 := by
  rw [moments, past_eq h, List.length_cons]

/-- The reader's knowledge survives the steps of the writers. -/
theorem ReaderOk.frame (hi : Inv c w) (h : CellStep c w w') (hr : w'.reader = w.reader)
    (ho : ReaderOk c w) : ReaderOk c w' := by
  have hlen := length_step h
  have hi' := hi.step h
  rw [ReaderOk] at ho ⊢
  rw [hr]
  split at ho
  · trivial
  · omega
  · obtain ⟨hs, ⟨m, hm, hw⟩, hk⟩ := ho
    exact ⟨by omega, ⟨m, during_step h hs hm, hw⟩, hk.step (vstep hi h) fun x => used_mono h⟩
  · exact ho
  · obtain ⟨hs, hu, ⟨m, hm, hw⟩, hall⟩ := ho
    have hmw : m ∈ w.moments := List.mem_of_mem_take hm
    refine ⟨by omega, hu, ⟨m, during_step h hs hm, hw⟩, fun m' hm' hw' => ?_⟩
    have hsame := hi'.same m ((mem_moments h).2 (.inr hmw)) m' hm' (by rw [hw]; exact hu)
      (hw.trans hw'.symm)
    rw [← hsame]
    exact hall m hmw hw

/-- A call of `readCell` that goes on or returns knows what it should. -/
theorem ReaderOk.step (hi : Inv c w) (h : CellStep c w w') (ho : ReaderOk c w) :
    ReaderOk c w' := by
  cases h with
  | lock writer word hn hl => exact ho.frame hi (.lock writer word hn hl) rfl
  | put mem hh => exact ho.frame hi (.put mem hh) rfl
  | release word hh hu hf => exact ho.frame hi (.release word hh hu hf) rfl
  | restore hh hd => exact ho.frame hi (.restore hh hd) rfl
  | elsewhere mem hm => exact ho.frame hi (.elsewhere mem hm) rfl
  | call hidle => exact Nat.lt_succ_self _
  | @readVersion since hr =>
    have hs := CellStep.readVersion (c := c) hr
    have hlen := length_step hs
    rw [ReaderOk, hr] at ho
    rw [CellArgs.readVersion] at hs hlen ⊢
    split at hs
    · next hl => simp [hl, readerNext, ReaderOk]
    · next hl =>
      have hu := isLocked_eq_false.1 (Bool.eq_false_iff.2 hl)
      have hnow : w.now ∈ w.during since := now_mem_during ho
      have hk : (w.vcell c).Known w.used w.now.word (c.Filled (List.range c.len) fun _ => 0) :=
        (hi.known w.now List.mem_cons_self hu).mono fun d _ => c.filled_range d
      rw [if_neg hl] at hlen ⊢
      exact ⟨by omega, ⟨w.now, during_step hs ho hnow, rfl⟩,
        hk.step (vstep hi hs) fun x => used_mono hs⟩
  | @readPiece since version left buf off n hr =>
    have hs := CellStep.readPiece (c := c) off n hr
    have hlen := length_step hs
    rw [ReaderOk, hr] at ho
    obtain ⟨hlt, ⟨m, hm, hw⟩, hk⟩ := ho
    have hk' := (hk.see (Q := (w.now.mem.cell c.lowBound = ·)) rfl).mono fun d hd =>
      c.filled_readPiece w.now.mem off n hd.1 hd.2
    exact ⟨by omega, ⟨m, during_step hs hlt hm, hw⟩, hk'.step (vstep hi hs) fun x => used_mono hs⟩
  | @readVersion2 since version buf hr =>
    have hs := CellStep.readVersion2 (c := c) hr
    have hlen := length_step hs
    have hi' := hi.step hs
    rw [ReaderOk, hr] at ho
    obtain ⟨hlt, ⟨m, hm, hw⟩, hk⟩ := ho
    rw [CellArgs.readVersion2] at hs hlen hi' ⊢
    split at hs
    · next hl => simp [hl, readerNext, ReaderOk]
    · next hl =>
      rw [if_neg hl] at hlen hi' ⊢
      split at hs
      · next heq =>
        -- the same unlocked word at both ends: the cell is clean at the version read first
        have hu := isLocked_eq_false.1 (Bool.eq_false_iff.2 hl)
        obtain ⟨hn, hinst⟩ := hi.installed_eq hu
        have hv : version = w.now.word :=
          hk.used.1.eq_of_equivalent hu heq
        have hfill : c.Filled [] buf (w.now.mem.cell c.lowBound) :=
          hk.use (hinst.trans hv.symm) (by simp [vcell, hn])
        rw [if_pos heq] at hlen hi' ⊢
        refine ⟨by omega, hk.used.1, ⟨m, during_step hs hlt hm, hw⟩, fun m' hm' hw' => ?_⟩
        have hsame := hi'.same w.now ((mem_moments hs).2 (.inr List.mem_cons_self)) m' hm' hu
          (hv.symm.trans hw'.symm)
        rw [← hsame]
        exact hfill
      · next hne =>
        rw [if_neg hne] at hlen ⊢
        show since < _
        omega

/-- The cell and the reader as a run leaves them. -/
theorem reach_inv {c : CellArgs} {w : CellWorld} (h : CellReach c w) : Inv c w ∧ ReaderOk c w := by
  induction h with
  | init now hu =>
    have hone : ∀ m ∈ (⟨now, none, [], .idle⟩ : CellWorld).moments, m = now := by simp [moments]
    refine ⟨⟨fun _ => hu, fun _ h => (by cases h), fun m hm _ => ?_, fun m hm m' hm' _ _ => ?_⟩,
      trivial⟩
    · rw [hone m hm]
      exact VCell.Known.start (c := CellWorld.vcell c ⟨now, none, [], .idle⟩)
        ⟨hu, now, List.mem_cons_self, rfl⟩ rfl
    · rw [hone m hm, hone m' hm']
  | step _ hs ih => exact ⟨ih.1.step hs, ih.2.step ih.1 hs⟩

end CellWorld

/-- **`readCell` never returns a torn or mislabelled cell.** Whatever the writers of the cell do
and however the reader's accesses fall between their steps, a call that returns with an unlocked
version returns the value, and with `copy` the whole cell, that the cell held at every moment at
which its lock word was that version, one of them during the call; and a call that saw a lock
returns with the lock bit set. -/
theorem readCell_consistent {c : CellArgs} {w : CellWorld} (h : CellReach c w) :
    (∀ since version buf, w.reader = .returned since (.cell version buf) →
      Unlocked version ∧ (∃ m ∈ w.during since, m.word = version) ∧
      ∀ m ∈ w.moments, m.word = version →
        c.value buf = c.valueIn (m.mem.cell c.lowBound) ∧
        (c.copy = true → (fun i : Fin cellSize => buf i) = m.mem.cell c.lowBound)) ∧
    (∀ since version, w.reader = .returned since (.locked version) → isLocked version = true) ∧
    ∀ version buf word, isLocked word = true → c.readVersion word = .inr (.locked word) ∧
      CellArgs.readVersion2 version buf word = .inr (.locked word) := by
  have ho := (CellWorld.reach_inv h).2
  refine ⟨fun since version buf hr => ?_, fun since version hr => ?_, fun version buf word hl =>
    ⟨if_pos hl, if_pos hl⟩⟩
  · rw [CellWorld.ReaderOk, hr] at ho
    obtain ⟨-, hu, hex, hall⟩ := ho
    exact ⟨hu, hex, fun m hm hw =>
      ⟨c.filled_value (hall m hm hw), fun hc => c.filled_copy hc (hall m hm hw)⟩⟩
  · rw [CellWorld.ReaderOk, hr] at ho
    exact ho

/-- A remote read of a whole cell for a 64-bit value. -/
def wholeCell : CellArgs := ⟨0x200040, 8, true, by decide⟩

/-- A writer commits while the reader copies: the second lock word differs, the reader starts over
and returns the new cell. -/
theorem readCell_consistent_retry : ∃ w since buf, CellReach wholeCell w ∧
    w.reader = .returned since (.cell 1 buf) ∧
    ∀ m ∈ w.moments, m.word = 1 → (fun i : Fin cellSize => buf i) = m.mem.cell 0x200040 := by
  have h0 : CellReach wholeCell _ := .init ⟨0, fun _ => 0⟩ (by decide)
  have h1 := h0.step (.call rfl)
  have h2 := h1.step (.readVersion rfl)
  have h3 := h2.step (.lock 7 lockBit rfl (by decide))
  have h4 := h3.step (.put (fun _ => 5) rfl)
  have h5 := h4.step (.readPiece 0 64 rfl)
  have h6 := h5.step (.release 1 rfl (by decide) (by decide))
  have h7 := h6.step (.readVersion2 rfl)
  have h8 := h7.step (.readVersion rfl)
  have h9 := h8.step (.readPiece 0 64 rfl)
  have h10 := h9.step (.readVersion2 rfl)
  obtain ⟨-, -, hall⟩ := (readCell_consistent h10).1 _ 1 _ rfl
  exact ⟨_, _, _, h10, rfl, fun m hm hw => (hall m hm hw).2 rfl⟩

end DstmP1
