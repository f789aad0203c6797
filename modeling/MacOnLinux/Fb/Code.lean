import MacOnLinux.Guest.Code

/-! # The framebuffer of `kmod/mmu_fb.c`

The slot of the last PTE of each page is remembered, so that the lines with new damage can be found
from the C bits of the hash.
-/

namespace MacOnLinux

structure LineEntry where
  y1 : Int
  y2 : Int
  dirty : Bool
  slot : Option Nat
  pte0 : Word
  pte1 : Word
  ea : Word
  deriving DecidableEq, Repr

/-- `fb_data_t`; `nrec` is the length of the table. -/
structure Fb where
  lineTable : List LineEntry
  lvBase : Word
  deriving DecidableEq, Repr

structure Hash where
  pte0 : Nat → Word
  pte1 : Nat → Word

def Hash.zero (h : Hash) (slot : Nat) : Hash := { h with pte0 := Function.update h.pte0 slot 0 }

def Hash.store (h : Hash) (slot : Nat) (pte0 pte1 : Word) : Hash :=
  { pte0 := Function.update h.pte0 slot pte0, pte1 := Function.update h.pte1 slot pte1 }

/-! ## Insertion -/

def LineEntry.inserted (p : LineEntry) (slot : Nat) (pte0 pte1 ea : Word) : LineEntry :=
  let again := p.slot.isSome ∧ (p.slot ≠ some slot ∨ p.pte0 ≠ pte0)
  { p with
    dirty := p.dirty || decide again
    slot := some slot
    pte0 := pte0
    pte1 := pte1 &&& ~~~pte1C
    ea := ea }

-- if( p->slot != slot ) p->slot[0] = 0
def LineEntry.zeroOld (p : LineEntry) (slot : Nat) (h : Hash) : Hash :=
  match p.slot with
  | some old => if old ≠ slot then h.zero old else h
  | none => h

def videoPteInserted (fb : Fb) (h : Hash) (lvptr : Word) (slot : Nat) (pte0 pte1 ea : Word) :
    Fb × Hash :=
  let i := ((lvptr - fb.lvBase) >>> 12).toNat
  match fb.lineTable[i]? with
  | some p =>
    ({ fb with lineTable := fb.lineTable.set i (p.inserted slot pte0 pte1 ea) }, p.zeroOld slot h)
  | none => (fb, h)

/-! ## Setup -/

def toShort (x : Int) : Int := (BitVec.ofInt 16 x).toInt

def lineEntry (offs bytesPerRow height : Int) (i : Nat) : LineEntry :=
  let y1 := toShort ((0x1000 * i - offs).tdiv bytesPerRow)
  let y2 := toShort ((0x1000 * (i + 1) - 1 - offs).tdiv bytesPerRow)
  { y1 := if y1 < 0 then 0 else y1
    y2 := if y2 ≥ height then toShort (height - 1) else y2
    dirty := false
    slot := none
    pte0 := 0
    pte1 := 0
    ea := 0 }

/-- The `fb_data` that is there afterwards; `data` and `table` tell whether its two blocks are allocated. -/
def setupFbAcceleration (data table : Bool) (lvbase : Word) (bytesPerRow height : Int) : Option Fb :=
  let offs : Int := (lvbase &&& 0xfff).toNat
  let nrec := ((bytesPerRow * height + offs + 0xfff) / 0x1000).toNat
  if lvbase = 0 ∨ ¬ data ∨ ¬ table then none
  else
    some {
      lineTable := (List.range nrec).map (lineEntry offs bytesPerRow height)
      lvBase := lvbase &&& pte1Rpn }

/-! ## Collecting the damage -/

/-- What `get_dirty_fb_lines` does with the slot of an entry. -/
def LineEntry.check (p : LineEntry) (h : Hash) : LineEntry × Hash :=
  match p.slot with
  | none => (p, h)
  | some slot =>
    if h.pte0 slot ≠ p.pte0 then ({ p with slot := none, dirty := true }, h)
    else if (h.pte1 slot).getLsbD 7 then ({ p with dirty := true }, h.store slot p.pte0 p.pte1)
    else (p, h)

/-- The state of the loop: the hash, `start`, `n` and the pairs written so far. -/
structure DirtyLoop where
  hash : Hash
  start : Int
  n : Int
  pairs : List (Int × Int)

/-- The loop over the entries, with the new entries. It ends early after `s` pairs. -/
def dirtyLoop (s : Int) : List LineEntry → DirtyLoop → List LineEntry × DirtyLoop
  | [], st => ([], st)
  | p :: ps, st =>
    let q := (p.check st.hash).1
    let st := { st with hash := (p.check st.hash).2 }
    if q.dirty ∧ st.start < 0 then
      let r := dirtyLoop s ps { st with start := q.y1 }
      ({ q with dirty := false } :: r.1, r.2)
    else if ¬ q.dirty ∧ st.start ≥ 0 then
      let st := { st with start := -1, n := st.n + 1, pairs := st.pairs ++ [(st.start, q.y2)] }
      if st.n ≥ s then (q :: ps, st)
      else
        let r := dirtyLoop s ps st
        ({ q with dirty := false } :: r.1, r.2)
    else
      let r := dirtyLoop s ps st
      ({ q with dirty := false } :: r.1, r.2)

/-- For a buffer of `numBytes`; nothing when it returns -1. -/
def getDirtyFbLines (fb : Fb) (h : Hash) (numBytes : Nat) : Fb × Hash × Option (List (Int × Int)) :=
  let s : Int := (numBytes : Int) / 4 - 1
  if s = 0 then (fb, h, none)
  else
    let r := dirtyLoop s fb.lineTable { hash := h, start := -1, n := 0, pairs := [] }
    let last := (r.1.getLast?.map (·.y2)).getD 0
    let pairs := if r.2.start ≥ 0 then r.2.pairs ++ [(r.2.start, last)] else r.2.pairs
    ({ fb with lineTable := r.1 }, r.2.hash, some pairs)

end MacOnLinux
