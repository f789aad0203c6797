import MacOnLinux.Fb.Lines
import Mathlib.Algebra.Order.Ring.Nat
import Mathlib.Tactic.Ring

/-! # Damage of the framebuffer over whole runs -/

namespace MacOnLinux

open Function List Option

structure Screen where
  lvbase : Word
  bytesPerRow : Nat
  height : Nat
  mapped : lvbase ≠ 0
  deriving DecidableEq, Repr

namespace Screen

variable {c : Screen} {i k : Nat}

def offs (c : Screen) : Nat := (c.lvbase &&& 0xfff).toNat

def nrec (c : Screen) : Nat := (c.bytesPerRow * c.height + c.offs + 0xfff) / 0x1000

abbrev entry (c : Screen) (i : Nat) : LineEntry := lineEntry c.offs c.bytesPerRow c.height i

theorem setup_eq (c : Screen) : setupFbAcceleration true true c.lvbase c.bytesPerRow c.height =
    some { lineTable := (range c.nrec).map c.entry, lvBase := c.lvbase &&& pte1Rpn } := by
  have hset : ¬ (c.lvbase = 0 ∨ ¬ true = true ∨ ¬ true = true) := by simpa using c.mapped
  have hnrec : (((c.bytesPerRow * c.height : Int) + c.offs + 0xfff) / 0x1000).toNat = c.nrec := by
    unfold nrec
    omega
  unfold setupFbAcceleration
  rw [if_neg hset]
  rw [← hnrec]
  rfl

def fb (c : Screen) : Fb :=
  (setupFbAcceleration true true c.lvbase c.bytesPerRow c.height).get (by rw [setup_eq]; rfl)

theorem lineTable_eq (c : Screen) : c.fb.lineTable = (range c.nrec).map c.entry := by
  unfold fb
  simp only [setup_eq, get_some]

def pageOf (c : Screen) (k : Nat) : Nat := (c.offs + k) / 0x1000

def lineOf (c : Screen) (k : Nat) : Nat := k / c.bytesPerRow

structure Fits (c : Screen) : Prop where
  row : 0 < c.bytesPerRow
  size : 0x1000 * c.nrec < 0x80000000
  line : 0x1000 * c.nrec < 0x8000 * c.bytesPerRow

instance (c : Screen) : Decidable c.Fits :=
  decidable_of_iff (0 < c.bytesPerRow ∧ 0x1000 * c.nrec < 0x80000000 ∧
      0x1000 * c.nrec < 0x8000 * c.bytesPerRow)
    ⟨fun h => ⟨h.1, h.2.1, h.2.2⟩, fun h => ⟨h.row, h.size, h.line⟩⟩

theorem offs_lt (c : Screen) : c.offs < 0x1000 := by
  exact Nat.lt_succ_of_le Nat.and_le_right

theorem length_lineTable (c : Screen) : c.fb.lineTable.length = c.nrec := by
  rw [lineTable_eq, length_map, length_range]

theorem getElem?_lineTable (c : Screen) (hi : i < c.nrec) :
    c.fb.lineTable[i]? = some (c.entry i) := by
  rw [lineTable_eq, List.getElem?_map, getElem?_range hi]
  rfl

theorem toShort_of_range {x : Int} (h0 : -0x8000 ≤ x) (h1 : x < 0x8000) : toShort x = x := by
  unfold toShort
  rw [BitVec.toInt_ofInt]
  exact Int.bmod_eq_of_le (by norm_num; omega) (by norm_num; omega)

theorem toShort_tdiv {a b : Nat} (hab : a < 0x8000 * b) :
    toShort ((a : Int).tdiv b) = (a / b : Nat) := by
  have hlt : a / b < 0x8000 := Nat.div_lt_of_lt_mul (by rwa [mul_comm])
  rw [← Int.ofNat_tdiv]
  generalize a / b = n at *
  exact toShort_of_range (by omega) (by omega)

/-- The last line that the end of the table is on fits a `short`. -/
def ShortLines (c : Screen) : Prop := 0x1000 * c.nrec ≤ 0x8000 * c.bytesPerRow + c.offs

theorem Fits.shortLines (hc : c.Fits) : c.ShortLines := by
  have := hc.line
  unfold ShortLines
  omega

theorem lineEntry_y1 (hshort : c.ShortLines) (hi : i < c.nrec) :
    (c.entry i).y1 = ((0x1000 * i - c.offs) / c.bytesPerRow : Nat) := by
  have ho := c.offs_lt
  unfold ShortLines at hshort
  unfold entry lineEntry
  simp only
  rcases Nat.eq_zero_or_pos i with rfl | hpos
  · -- the first page may begin in front of the screen
    have hneg : (0x1000 * (0 : Nat) - c.offs : Int).tdiv c.bytesPerRow =
        -((c.offs / c.bytesPerRow : Nat) : Int) := by
      simp [Int.neg_tdiv]
    have hle : c.offs / c.bytesPerRow ≤ c.offs := Nat.div_le_self _ _
    simp only [mul_zero, Nat.zero_sub, Nat.zero_div]
    generalize c.offs / c.bytesPerRow = n at *
    rw [toShort_of_range (by omega) (by omega)]
    split <;> omega
  · have hcast : (0x1000 * i - c.offs : Int) = ((0x1000 * i - c.offs : Nat) : Int) := by omega
    rw [hcast, toShort_tdiv (by omega)]
    exact if_neg (Int.not_lt.mpr (Int.natCast_nonneg _))

theorem lineEntry_y2 (hshort : c.ShortLines) (hi : i < c.nrec) :
    (c.entry i).y2 =
      min (((0x1000 * (i + 1) - 1 - c.offs) / c.bytesPerRow : Nat) : Int) (c.height - 1) := by
  have ho := c.offs_lt
  unfold ShortLines at hshort
  have hcast : (0x1000 * (i + 1) - 1 - c.offs : Int) =
      ((0x1000 * (i + 1) - 1 - c.offs : Nat) : Int) := by
    omega
  have hab : 0x1000 * (i + 1) - 1 - c.offs < 0x8000 * c.bytesPerRow := by omega
  have hlt : (0x1000 * (i + 1) - 1 - c.offs) / c.bytesPerRow < 0x8000 :=
    Nat.div_lt_of_lt_mul (by omega)
  unfold entry lineEntry
  simp only
  rw [hcast, toShort_tdiv hab]
  split
  · rw [toShort_of_range (by omega) (by omega)]
    omega
  · omega

theorem pageOf_lt (hk : k < c.bytesPerRow * c.height) : c.pageOf k < c.nrec := by
  unfold pageOf nrec
  omega

theorem lineOf_page (hshort : c.ShortLines) (hk : k < c.bytesPerRow * c.height) :
    (c.entry (c.pageOf k)).y1 ≤ c.lineOf k ∧ (c.lineOf k : Int) ≤ (c.entry (c.pageOf k)).y2 := by
  have hi := pageOf_lt hk
  rw [lineEntry_y1 hshort hi, lineEntry_y2 hshort hi]
  have hlow : 0x1000 * c.pageOf k - c.offs ≤ k := by
    unfold pageOf
    omega
  have hhigh : k ≤ 0x1000 * (c.pageOf k + 1) - 1 - c.offs := by
    unfold pageOf
    omega
  have hheight : c.lineOf k < c.height := Nat.div_lt_of_lt_mul hk
  have h1 : _ / c.bytesPerRow ≤ c.lineOf k := Nat.div_le_div_right hlow
  have h2 : c.lineOf k ≤ _ / c.bytesPerRow := Nat.div_le_div_right hhigh
  omega

theorem lines_mono (hshort : c.ShortLines) {j : Nat} (hij : i ≤ j) (hj : j < c.nrec) :
    (c.entry i).y1 ≤ (c.entry j).y1 ∧ (c.entry i).y2 ≤ (c.entry j).y2 := by
  rw [lineEntry_y1 hshort hj, lineEntry_y1 hshort (hij.trans_lt hj), lineEntry_y2 hshort hj,
    lineEntry_y2 hshort (hij.trans_lt hj)]
  have h1 : (0x1000 * i - c.offs) / c.bytesPerRow ≤ (0x1000 * j - c.offs) / c.bytesPerRow :=
    Nat.div_le_div_right (by omega)
  have h2 : (0x1000 * (i + 1) - 1 - c.offs) / c.bytesPerRow ≤
      (0x1000 * (j + 1) - 1 - c.offs) / c.bytesPerRow := Nat.div_le_div_right (by omega)
  omega

/-- Every byte is on a page of the table and on a line of that page. -/
structure TableRight (c : Screen) : Prop where
  page : ∀ k < c.bytesPerRow * c.height, ∃ p, c.fb.lineTable[c.pageOf k]? = some p ∧
    p.y1 ≤ c.lineOf k ∧ c.lineOf k ≤ p.y2
  lines : ∀ p ∈ c.fb.lineTable, 0 ≤ p.y1 ∧ p.y1 ≤ p.y2 ∧ p.y2 < c.height

theorem mem_lineTable {p : LineEntry} (hp : p ∈ c.fb.lineTable) :
    ∃ i < c.nrec, p = c.entry i := by
  rw [lineTable_eq] at hp
  obtain ⟨i, hi, rfl⟩ := mem_map.mp hp
  exact ⟨i, mem_range.mp hi, rfl⟩

theorem ShortLines.tableRight (hshort : c.ShortLines) (hsize : 0 < c.bytesPerRow * c.height) : c.TableRight := by
  refine ⟨fun k hk => ⟨_, c.getElem?_lineTable (pageOf_lt hk), lineOf_page hshort hk⟩, fun p hp => ?_⟩
  obtain ⟨i, hi, rfl⟩ := mem_lineTable hp
  rw [lineEntry_y1 hshort hi, lineEntry_y2 hshort hi]
  have hstart : 0x1000 * i - c.offs < c.bytesPerRow * c.height := by
    unfold nrec at hi
    omega
  have hline : (0x1000 * i - c.offs) / c.bytesPerRow < c.height := Nat.div_lt_of_lt_mul hstart
  have hend : (0x1000 * i - c.offs) / c.bytesPerRow ≤ (0x1000 * (i + 1) - 1 - c.offs) / c.bytesPerRow :=
    Nat.div_le_div_right (by omega)
  generalize (0x1000 * i - c.offs) / c.bytesPerRow = y1 at *
  omega

theorem lineEntry_y2_neg (hrow : 0 < c.bytesPerRow) (hheight : c.height ≤ 0x7fff) (hshort : ¬ c.ShortLines) :
    (c.entry (c.nrec - 1)).y2 < 0 := by
  unfold ShortLines at hshort
  have hcast : (0x1000 * ((c.nrec - 1 : Nat) + 1) - 1 - c.offs : Int) =
      ((0x1000 * c.nrec - 1 - c.offs : Nat) : Int) := by omega
  have hlow : 0x8000 ≤ (0x1000 * c.nrec - 1 - c.offs) / c.bytesPerRow :=
    (Nat.le_div_iff_mul_le hrow).mpr (by omega)
  have hhigh : (0x1000 * c.nrec - 1 - c.offs) / c.bytesPerRow ≤ c.height + 0xffe := by
    refine Nat.div_le_of_le_mul ?_
    have hrows : c.bytesPerRow * (c.height + 0xffe) = c.bytesPerRow * c.height + c.bytesPerRow * 0xffe :=
      mul_add ..
    unfold nrec
    omega
  unfold entry lineEntry
  dsimp only
  rw [hcast, ← Int.ofNat_tdiv]
  generalize (0x1000 * c.nrec - 1 - c.offs) / c.bytesPerRow = n at *
  have hwrap : toShort n = (n : Int) - 0x10000 := by
    unfold toShort
    rw [BitVec.toInt_ofInt]
    unfold Int.bmod
    dsimp only
    split <;> omega
  omega

/-- The table is right exactly when its end is on a line that fits a `short`. -/
theorem lineTable_right_iff (hrow : 0 < c.bytesPerRow) (hheight : 0 < c.height ∧ c.height ≤ 32767) :
    c.TableRight ↔ 0x1000 * c.nrec ≤ 0x8000 * c.bytesPerRow + c.offs := by
  have hsize := mul_pos hrow hheight.1
  constructor
  · intro hright
    by_contra hshort
    have hlt : c.nrec - 1 < c.nrec := by
      omega
    have hmem := mem_of_getElem? (c.getElem?_lineTable hlt)
    have hneg := lineEntry_y2_neg hrow hheight.2 hshort
    have hlines := hright.lines _ hmem
    omega
  · intro hshort
    exact ShortLines.tableRight hshort hsize

theorem lineTable_right_four : TableRight ⟨0x10000ffc, 0x1000, 4, by decide⟩ :=
  (lineTable_right_iff (by decide) (by decide)).mpr (by decide)

/-- The ninth page of this screen has the line -32768. -/
theorem lineTable_wrong : ¬ TableRight ⟨0x10000fff, 1, 32767, by decide⟩ := by
  intro hright
  have hlast : (fb ⟨0x10000fff, 1, 32767, by decide⟩).lineTable[8]? =
      some ⟨28673, -32768, false, none, 0, 0, 0⟩ := by
    decide
  exact absurd (hright.lines _ (mem_of_getElem? hlast)) (by decide)

end Screen

/-! ## The machine -/

namespace Damage

def vBit (pte0 : Word) : Bool := pte0.getLsbD 31

/-- `page` is what the last PTE put in a slot maps, `stored` the bytes not reported yet. -/
structure World where
  fb : Fb
  hash : Hash
  page : Nat → Option Nat
  stored : List Nat

inductive Event where
  /-- `insert_pte` for a page of the framebuffer. -/
  | video (lvptr : Word) (slot : Nat) (pte0 pte1 ea : Word)
  /-- A PTE for something else is put in a slot. -/
  | other (slot : Nat) (pte0 pte1 : Word)
  | zero (slot : Nat)
  /-- The guest stores byte `k` of the screen through the PTE in a slot. -/
  | write (slot k : Nat)
  | collect (numBytes : Nat)
  deriving DecidableEq, Repr

def indexOf (fb : Fb) (lvptr : Word) : Nat := ((lvptr - fb.lvBase) >>> 12).toNat

def step (c : Screen) (w : World) : Event → World
  | .video lvptr slot pte0 pte1 ea =>
    let r := videoPteInserted w.fb w.hash lvptr slot pte0 pte1 ea
    { w with
      fb := r.1
      hash := r.2.store slot pte0 pte1
      page := Function.update w.page slot (some (indexOf w.fb lvptr)) }
  | .other slot pte0 pte1 =>
    { w with
      hash := w.hash.store slot pte0 pte1
      page := Function.update w.page slot none }
  | .zero slot => { w with hash := w.hash.zero slot }
  | .write slot k =>
    -- the processor stores through a valid PTE only, and sets its C bit
    if k < c.bytesPerRow * c.height ∧ w.page slot = some (c.pageOf k) ∧ vBit (w.hash.pte0 slot) then
      { w with
        hash := w.hash.store slot (w.hash.pte0 slot) (w.hash.pte1 slot ||| pte1C)
        stored := k :: w.stored }
    else w
  | .collect numBytes =>
    let r := getDirtyFbLines w.fb w.hash numBytes
    { w with fb := r.1, hash := r.2.1, stored := [] }

def after (c : Screen) (h : Hash) : List Event → World
  | [] => { fb := c.fb, hash := h, page := fun _ => none, stored := [] }
  | e :: es => step c (after c h es) e

/-- No slot is refilled with a word that an entry waits for, unless nothing can be lost. -/
def Event.Ok (c : Screen) (w : World) : Event → Prop
  | .video lvptr slot pte0 pte1 _ =>
    vBit pte0 = true ∧ ∀ (j : Nat) (p : LineEntry), w.fb.lineTable[j]? = some p →
      p.slot = some slot → p.pte0 = pte0 →
      j = indexOf w.fb lvptr ∧ (cBit pte1 = true ∨ p.dirty = true)
  | .other slot pte0 _ => ∀ p ∈ w.fb.lineTable, p.slot = some slot → p.pte0 ≠ pte0
  | .collect numBytes => LargeBuffer c.nrec numBytes
  | .zero _ | .write _ _ => True

/-! ## The invariant -/

structure Tracks (c : Screen) (w : World) : Prop where
  lines : w.fb.lineTable.map LineEntry.lines = c.fb.lineTable.map LineEntry.lines
  apart : ∀ (i j : Nat) (p q : LineEntry), i ≠ j → w.fb.lineTable[i]? = some p →
    w.fb.lineTable[j]? = some q → p.Apart q
  valid : ∀ p ∈ w.fb.lineTable, p.slot.isSome → vBit p.pte0 = true
  -- a PTE the guest can store through is the one its entry waits for
  live : ∀ (slot i : Nat) (p : LineEntry), w.page slot = some i → vBit (w.hash.pte0 slot) = true →
    w.fb.lineTable[i]? = some p → p.slot = some slot ∧ p.pte0 = w.hash.pte0 slot
  seen : ∀ k ∈ w.stored, k < c.bytesPerRow * c.height ∧
    ∀ p, w.fb.lineTable[c.pageOf k]? = some p → p.Seen w.hash

variable {c : Screen} {w : World}

variable {p : LineEntry} {h' : Hash} {slot i k numBytes j : Nat} {pte0 pte1 ea : Word}

theorem tracks_init (c : Screen) (h : Hash) : Tracks c (after c h []) := by
  have hslot : ∀ p ∈ c.fb.lineTable, p.slot = none := by
    intro p hp
    obtain ⟨i, -, rfl⟩ := Screen.mem_lineTable hp
    rfl
  refine ⟨rfl, ?_, ?_, ?_, ?_⟩
  · intro i j p q _ hp _ slot hs
    simp [hslot p (mem_of_getElem? hp)] at hs
  · intro p hp hs
    simp [hslot p hp] at hs
  · intro slot i p hpage
    cases hpage
  · intro k hk
    cases hk

/-- An entry that waits for a PTE in `slot` cannot miss the change from `h` to `h'`. -/
def Noticed (h h' : Hash) (p : LineEntry) : Prop :=
  ∀ slot, p.slot = some slot → h'.pte0 slot ≠ p.pte0 ∨
    (h'.pte0 slot = h.pte0 slot ∧ (cBit (h.pte1 slot) = true → cBit (h'.pte1 slot) = true))

theorem seen_of_noticed {h : Hash} (hn : Noticed h h' p) (hp : p.Seen h) : p.Seen h' := by
  rcases hp with hd | ⟨slot, hs, hw⟩
  · exact .inl hd
  refine .inr ⟨slot, hs, ?_⟩
  rcases hn slot hs with he | ⟨he, hcb⟩
  · exact .inl he
  · rw [he]
    exact hw.imp_right hcb

theorem Tracks.change (hw : Tracks c w) {page' : Nat → Option Nat}
    (hlive : ∀ slot i, page' slot = some i → i < w.fb.lineTable.length → vBit (h'.pte0 slot) = true →
      w.page slot = some i ∧ h'.pte0 slot = w.hash.pte0 slot)
    (hn : ∀ p ∈ w.fb.lineTable, Noticed w.hash h' p) :
    Tracks c { w with hash := h', page := page' } := by
  refine ⟨hw.lines, hw.apart, hw.valid, ?_, ?_⟩
  · intro slot i p hpage hv hp
    have hi : i < w.fb.lineTable.length := (List.getElem?_eq_some_iff.mp hp).1
    obtain ⟨hpage', he⟩ := hlive slot i hpage hi hv
    rw [he] at hv ⊢
    exact hw.live slot i p hpage' hv hp
  · intro k hk
    obtain ⟨hlt, hs⟩ := hw.seen k hk
    exact ⟨hlt, fun p hp => seen_of_noticed (hn p (mem_of_getElem? hp)) (hs p hp)⟩

theorem Tracks.zero (hw : Tracks c w) (slot : Nat) : Tracks c { w with hash := w.hash.zero slot } := by
  refine hw.change (fun t i hpage _ hv => ⟨hpage, ?_⟩) (fun p hp t ht => ?_)
  · by_cases hts : t = slot
    · subst hts
      simp only [Hash.zero, update_self] at hv
      cases hv
    · simp [Hash.zero, hts]
  by_cases hts : t = slot
  · subst hts
    left
    intro he
    have hv := hw.valid p hp (by simp [ht])
    simp [Hash.zero] at he
    rw [← he] at hv
    cases hv
  · right
    simp [Hash.zero, hts]

theorem Tracks.store (hw : Tracks c w) (slot : Nat) (pte0 pte1 : Word) (i : Option Nat)
    (hi : ∀ j, i = some j → w.fb.lineTable.length ≤ j)
    (hne : ∀ p ∈ w.fb.lineTable, p.slot = some slot → p.pte0 ≠ pte0) :
    Tracks c { w with
      hash := w.hash.store slot pte0 pte1
      page := update w.page slot i } := by
  refine hw.change (fun t j hpage hj hv => ?_) (fun p hp t ht => ?_)
  · by_cases hts : t = slot
    · subst hts
      rw [update_self] at hpage
      exact absurd hj (not_lt.mpr (hi j hpage))
    · rw [update_of_ne hts] at hpage
      exact ⟨hpage, by simp [Hash.store, hts]⟩
  · by_cases hts : t = slot
    · subst hts
      left
      simpa [Hash.store] using (hne p hp ht).symm
    · right
      simp [Hash.store, hts]

theorem cBit_or (pte1 : Word) : cBit (pte1 ||| pte1C) = true := by
  simp [cBit, pte1C]

theorem Tracks.write (hw : Tracks c w) (hk : k < c.bytesPerRow * c.height)
    (hpage : w.page slot = some (c.pageOf k)) (hv : vBit (w.hash.pte0 slot) = true) :
    Tracks c { w with
      hash := w.hash.store slot (w.hash.pte0 slot) (w.hash.pte1 slot ||| pte1C)
      stored := k :: w.stored } := by
  have hpte0 : ∀ t, (w.hash.store slot (w.hash.pte0 slot) (w.hash.pte1 slot ||| pte1C)).pte0 t =
      w.hash.pte0 t := fun t => by simp [Hash.store]
  have hch : Tracks c { w with
      hash := w.hash.store slot (w.hash.pte0 slot) (w.hash.pte1 slot ||| pte1C)
      page := w.page } := by
    refine hw.change (fun t i hpage _ _ => ⟨hpage, hpte0 t⟩) (fun p _ t _ => .inr ⟨hpte0 t, ?_⟩)
    intro hcb
    by_cases hts : t = slot
    · subst hts
      simp only [Hash.store, update_self, cBit_or]
    · simpa only [Hash.store, update_of_ne hts] using hcb
  refine ⟨hch.lines, hch.apart, hch.valid, hch.live, fun k' hk' => ?_⟩
  rcases mem_cons.mp hk' with rfl | hk'
  · refine ⟨hk, fun p hp => .inr ⟨slot, (hw.live slot _ p hpage hv hp).1, .inr ?_⟩⟩
    simp only [Hash.store, update_self, cBit_or]
  · exact hch.seen k' hk'

theorem zeroOld_eq (p : LineEntry) (slot : Nat) (h : Hash) :
    p.zeroOld slot h = h ∨ ∃ old, p.slot = some old ∧ p.zeroOld slot h = h.zero old := by
  unfold LineEntry.zeroOld
  cases hs : p.slot with
  | none => exact .inl rfl
  | some old =>
    simp only
    split
    · exact .inr ⟨old, rfl, rfl⟩
    · exact .inl rfl

theorem zeroOld_zero {t : Nat} (hs : p.slot = some t) (ht : t ≠ slot) (h : Hash) :
    (p.zeroOld slot h).pte0 t = 0 := by
  simp [LineEntry.zeroOld, hs, ht, Hash.zero]

theorem Tracks.zeroOld (hw : Tracks c w) (p : LineEntry) (slot : Nat) :
    Tracks c { w with hash := p.zeroOld slot w.hash } := by
  rcases zeroOld_eq p slot w.hash with he | ⟨old, -, he⟩
  · rwa [he]
  · rw [he]
    exact hw.zero old

theorem getElem?_set_some {T : List LineEntry} {q : LineEntry} (h : (T.set i p)[j]? = some q) :
    (j = i ∧ q = p) ∨ (j ≠ i ∧ T[j]? = some q) := by
  rw [getElem?_set] at h
  split at h
  · rename_i hij
    split at h
    · exact .inl ⟨hij.symm, (some.inj h).symm⟩
    · cases h
  · rename_i hij
    exact .inr ⟨fun h' => hij h'.symm, h⟩

theorem Tracks.insert (hw : Tracks c w) (hp : w.fb.lineTable[i]? = some p) (hv : vBit pte0 = true)
    (hne : ∀ (j : Nat) (q : LineEntry), w.fb.lineTable[j]? = some q → q.slot = some slot → q.pte0 = pte0 →
      j = i ∧ (cBit pte1 = true ∨ q.dirty = true))
    (hold : ∀ t, t ≠ slot → p.slot = some t → w.hash.pte0 t = 0) :
    Tracks c { w with
      fb := { w.fb with lineTable := w.fb.lineTable.set i (p.inserted slot pte0 pte1 ea) }
      hash := w.hash.store slot pte0 pte1
      page := update w.page slot (some i) } := by
  have hother : ∀ (j : Nat) (q : LineEntry), j ≠ i → w.fb.lineTable[j]? = some q →
      q.slot = some slot → q.pte0 ≠ pte0 := fun j q hj hq hs he => hj (hne j q hq hs he).1
  refine ⟨?_, ?_, ?_, ?_, ?_⟩
  · rw [← hw.lines]
    simp only [map_set]
    apply ext_getElem?
    intro j
    rw [getElem?_set]
    split
    · rename_i hij
      subst hij
      rw [if_pos (by simpa using (List.getElem?_eq_some_iff.mp hp).1), List.getElem?_map, hp]
      rfl
    · rfl
  · -- the PTE of the entry is one that no other entry waits for
    intro j l q r hjl hq hr
    rcases getElem?_set_some hq with ⟨rfl, rfl⟩ | ⟨hj, hq'⟩ <;>
      rcases getElem?_set_some hr with ⟨rfl, rfl⟩ | ⟨hl, hr'⟩
    · exact absurd rfl hjl
    · intro t ht hrt
      cases ht
      exact (hother l r hl hr' hrt).symm
    · intro t hqt ht
      cases ht
      exact hother j q hj hq' hqt
    · exact hw.apart j l q r hjl hq' hr'
  · intro q hq hs
    obtain ⟨j, hq⟩ := mem_iff_getElem?.mp hq
    rcases getElem?_set_some hq with ⟨rfl, rfl⟩ | ⟨hj, hq'⟩
    · exact hv
    · exact hw.valid q (mem_of_getElem? hq') hs
  · intro t j q hpage hvt hq
    simp only at hpage hvt hq ⊢
    by_cases hts : t = slot
    · subst hts
      rw [update_self] at hpage
      cases hpage
      rcases getElem?_set_some hq with ⟨-, rfl⟩ | ⟨hj, -⟩
      · exact ⟨rfl, by simp [Hash.store, LineEntry.inserted]⟩
      · exact absurd rfl hj
    rw [update_of_ne hts] at hpage
    simp only [Hash.store, update_of_ne hts] at hvt ⊢
    rcases getElem?_set_some hq with ⟨rfl, rfl⟩ | ⟨hj, hq'⟩
    · -- an old PTE of the page would be zeroed
      have h0 := hold t hts (hw.live t j p hpage hvt hp).1
      rw [h0] at hvt
      cases hvt
    · exact hw.live t j q hpage hvt hq'
  · intro k hk
    obtain ⟨hlt, hs⟩ := hw.seen k hk
    refine ⟨hlt, fun q hq => ?_⟩
    rcases getElem?_set_some hq with ⟨hki, rfl⟩ | ⟨hj, hq'⟩
    · rw [hki] at hs
      by_cases hsame : p.slot = some slot ∧ p.pte0 = pte0
      · rcases (hne i p hp hsame.1 hsame.2).2 with hcb | hd
        · exact .inr ⟨slot, rfl, .inr (by simpa [Hash.store] using hcb)⟩
        · exact .inl (by simp [LineEntry.inserted, hd])
      rcases hs p hp with hd | ⟨t, ht, -⟩
      · exact .inl (by simp [LineEntry.inserted, hd])
      · refine .inl ?_
        have hdiff := not_and_or.mp hsame
        simp only [ht, some.injEq] at hdiff
        simpa [LineEntry.inserted, ht] using .inr hdiff
    · refine seen_of_noticed (fun t ht => ?_) (hs q hq')
      by_cases hts : t = slot
      · subst hts
        exact .inl (by simpa [Hash.store] using (hother _ q hj hq' ht).symm)
      · exact .inr (by simp [Hash.store, hts])

theorem Tracks.video (hw : Tracks c w) {lvptr : Word}
    (hok : (Event.video lvptr slot pte0 pte1 ea).Ok c w) :
    Tracks c (step c w (.video lvptr slot pte0 pte1 ea)) := by
  obtain ⟨hv, hne⟩ := hok
  cases hp : w.fb.lineTable[indexOf w.fb lvptr]? with
  | none =>
    have hlen := getElem?_eq_none_iff.mp hp
    have hstep : videoPteInserted w.fb w.hash lvptr slot pte0 pte1 ea = (w.fb, w.hash) := by
      unfold videoPteInserted
      unfold indexOf at hp
      simp only [hp]
    simp only [step, hstep]
    refine hw.store slot pte0 pte1 (some (indexOf w.fb lvptr)) ?_ ?_
    · rintro j ⟨⟩
      exact hlen
    · intro q hq hs he
      obtain ⟨j, hj⟩ := mem_iff_getElem?.mp hq
      rw [(hne j q hj hs he).1, hp] at hj
      cases hj
  | some p =>
    have hstep : videoPteInserted w.fb w.hash lvptr slot pte0 pte1 ea =
        (⟨w.fb.lineTable.set (indexOf w.fb lvptr) (p.inserted slot pte0 pte1 ea), w.fb.lvBase⟩,
          p.zeroOld slot w.hash) := by
      unfold videoPteInserted
      unfold indexOf at hp ⊢
      simp only [hp]
    simp only [step, hstep]
    exact (hw.zeroOld p slot).insert hp hv hne fun t ht hs => zeroOld_zero hs ht w.hash

theorem length_of_lines (hw : Tracks c w) : w.fb.lineTable.length = c.nrec := by
  have h := congrArg List.length hw.lines
  rwa [length_map, length_map, Screen.length_lineTable] at h

theorem Tracks.collect (hw : Tracks c w) (hl : LargeBuffer c.nrec numBytes) :
    Tracks c (step c w (.collect numBytes)) := by
  have hlen := length_of_lines hw
  rw [← hlen] at hl
  obtain ⟨hk, hpte0, -⟩ := getDirtyFbLines_kept (h := w.hash) hl
  refine ⟨?_, ?_, ?_, ?_, fun k hk => by cases hk⟩
  · exact (lines_eq_of_kept hk).trans hw.lines
  · intro i j p' q' hij hp' hq' slot hs hs'
    obtain ⟨p, hp, hkp⟩ := exists_kept hk hp'
    obtain ⟨q, hq, hkq⟩ := exists_kept hk hq'
    rw [hkp.pte0, hkq.pte0]
    refine hw.apart i j p q hij hp hq slot ?_ ?_
    · exact (hkp.slot.resolve_right (by simp [hs])).symm.trans hs
    · exact (hkq.slot.resolve_right (by simp [hs'])).symm.trans hs'
  · intro q hq hs
    obtain ⟨i, hi⟩ := mem_iff_getElem?.mp hq
    obtain ⟨p, hp, hkp⟩ := exists_kept hk hi
    rw [hkp.pte0]
    refine hw.valid p (mem_of_getElem? hp) ?_
    rcases hkp.slot with he | he
    · rwa [← he]
    · simp [he] at hs
  · intro slot i q hpage hv hq
    obtain ⟨p, hp, hkp⟩ := exists_kept hk hq
    change vBit ((getDirtyFbLines w.fb w.hash numBytes).2.1.pte0 slot) = true at hv
    change _ ∧ _ = (getDirtyFbLines w.fb w.hash numBytes).2.1.pte0 slot
    rw [hpte0] at hv ⊢
    obtain ⟨hs, he⟩ := hw.live slot i p hpage hv hp
    exact ⟨hkp.live slot hs he.symm, hkp.pte0.trans he⟩

theorem Tracks.step (hw : Tracks c w) {e : Event} (hok : e.Ok c w) : Tracks c (step c w e) := by
  cases e with
  | video lvptr slot pte0 pte1 ea => exact hw.video hok
  | other slot pte0 pte1 =>
    exact hw.store slot pte0 pte1 none (by rintro j ⟨⟩) hok
  | zero slot => exact hw.zero slot
  | write slot k =>
    simp only [Damage.step]
    split
    · rename_i h
      exact hw.write h.1 h.2.1 h.2.2
    · exact hw
  | collect numBytes => exact hw.collect hok

theorem tracks_after (h : Hash) (es : List Event)
    (hes : ∀ e es', e :: es' <:+ es → e.Ok c (after c h es')) : Tracks c (after c h es) := by
  induction es with
  | nil => exact tracks_init c h
  | cons e es ih =>
    have hw := ih fun e' es' hs => hes e' es' (hs.trans (suffix_cons e es))
    exact hw.step (hes e es suffix_rfl)

/-! ## Nothing is lost -/

theorem Tracks.lines_at (hw : Tracks c w) (hp : w.fb.lineTable[i]? = some p) :
    i < c.nrec ∧ p.y1 = (c.entry i).y1 ∧ p.y2 = (c.entry i).y2 := by
  have hi : i < c.nrec := length_of_lines hw ▸ (List.getElem?_eq_some_iff.mp hp).1
  have hl := congrArg (·[i]?) hw.lines
  simp only [List.getElem?_map, hp, Screen.getElem?_lineTable c hi] at hl
  exact ⟨hi, Prod.mk.inj (some.inj hl)⟩

theorem Tracks.rising (hc : c.Fits) (hw : Tracks c w) : w.fb.lineTable.Pairwise Rising := by
  rw [pairwise_iff_getElem]
  intro i j hi hj hij
  have hp := getElem?_eq_getElem hi
  have hq := getElem?_eq_getElem hj
  obtain ⟨-, hp1, hp2⟩ := hw.lines_at hp
  obtain ⟨hlt, hq1, hq2⟩ := hw.lines_at hq
  obtain ⟨h1, h2⟩ := Screen.lines_mono hc.shortLines hij.le hlt
  rw [← hp1, ← hq1] at h1
  rw [← hp2, ← hq2] at h2
  exact ⟨h1, h2, hw.apart i j _ _ hij.ne hp hq⟩

theorem Tracks.reported (hc : c.Fits) (hw : Tracks c w) (hl : LargeBuffer c.nrec numBytes) :
    ∃ pairs, (getDirtyFbLines w.fb w.hash numBytes).2.2 = some pairs ∧
      ∀ k ∈ w.stored, Reported pairs (c.lineOf k) := by
  have hlen := length_of_lines hw
  rw [← hlen] at hl
  have h0 : ∀ p ∈ w.fb.lineTable, 0 ≤ p.y1 := by
    intro p hp
    obtain ⟨i, hi⟩ := mem_iff_getElem?.mp hp
    obtain ⟨hlt, h1, -⟩ := hw.lines_at hi
    rw [h1, Screen.lineEntry_y1 hc.shortLines hlt]
    exact Int.natCast_nonneg _
  obtain ⟨pairs, hpairs, hseen⟩ := getDirtyFbLines_seen (h := w.hash) hl (hw.rising hc) h0
  refine ⟨pairs, hpairs, fun k hk => ?_⟩
  obtain ⟨hlt, hs⟩ := hw.seen k hk
  have hp := getElem?_eq_getElem (hlen ▸ Screen.pageOf_lt hlt)
  obtain ⟨-, hp1, hp2⟩ := hw.lines_at hp
  obtain ⟨h1, h2⟩ := Screen.lineOf_page hc.shortLines hlt
  rw [← hp1] at h1
  rw [← hp2] at h2
  exact hseen _ (mem_of_getElem? hp) (hs _ hp) _ h1 h2

/-- The next call reports the line of every byte stored since the last one. -/
theorem damage_reported (hc : c.Fits) (h : Hash) (es : List Event)
    (hes : ∀ e es', e :: es' <:+ es → e.Ok c (after c h es')) (numBytes : Nat)
    (hl : LargeBuffer c.nrec numBytes) :
    ∃ pairs, (getDirtyFbLines (after c h es).fb (after c h es).hash numBytes).2.2 = some pairs ∧
      ∀ k ∈ (after c h es).stored, Reported pairs (c.lineOf k) :=
  (tracks_after h es hes).reported hc hl

def fourLines : Screen := { lvbase := 0x10000000, bytesPerRow := 0x1000, height := 4, mapped := by decide }

def emptyHash : Hash := { pte0 := fun _ => 0, pte1 := fun _ => 0 }

def writtenAgain : List Event :=
  [.video 0x10000000 5 0x80000080 0x10000192 0x20000000, .zero 5, .write 5 7,
    .video 0x10000000 5 0x80000080 0x10000192 0x20000000]

theorem damage_reported_again : ∃ pairs, (getDirtyFbLines (after fourLines emptyHash writtenAgain).fb
        (after fourLines emptyHash writtenAgain).hash 64).2.2 = some pairs ∧ Reported pairs 0 := by
  have hes : ∀ e es', e :: es' <:+ writtenAgain → e.Ok fourLines (after fourLines emptyHash es') := by
    intro e es' hs
    simp only [writtenAgain, suffix_cons_iff, suffix_nil, reduceCtorEq, or_false] at hs
    rcases hs with ⟨rfl, rfl⟩ | ⟨rfl, rfl⟩ | ⟨rfl, rfl⟩ | ⟨rfl, rfl⟩
    · refine ⟨rfl, fun j p hp hs he => ?_⟩
      match j, hp with
      | 0, _ => exact ⟨rfl, .inl rfl⟩
      | 1, hp => cases hp; cases hs
      | 2, hp => cases hp; cases hs
      | 3, hp => cases hp; cases hs
    · trivial
    · trivial
    refine ⟨rfl, fun j p hp hs he => ?_⟩
    match j, hp with
    | 0, hp => cases hp; cases hs
    | 1, hp => cases hp; cases hs
    | 2, hp => cases hp; cases hs
    | 3, hp => cases hp; cases hs
  obtain ⟨pairs, hp, hr⟩ := damage_reported (c := fourLines) (by decide) emptyHash writtenAgain hes
    64 (by decide)
  exact ⟨pairs, hp, hr 7 (by decide)⟩

def readAgain : List Event :=
  [.video 0x10000000 5 0x80000080 0x10000113 0x20000000, .zero 5, .write 5 7,
    .video 0x10000000 5 0x80000080 0x10000192 0x20000000]

theorem damage_lost : 7 ∈ (after fourLines emptyHash readAgain).stored ∧
      ∃ pairs, (getDirtyFbLines (after fourLines emptyHash readAgain).fb
          (after fourLines emptyHash readAgain).hash 64).2.2 = some pairs ∧
        ¬ Reported pairs (fourLines.lineOf 7) := by
  refine ⟨by decide, [], by decide, ?_⟩
  simp [Reported]

end Damage

end MacOnLinux
