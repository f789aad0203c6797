import MacOnLinux.Mtable.Code

/-! # The MMU of the guest

As `kmod/fault.c`, `kmod/emu.c` and `kmod/ptaccess.c` read it.
-/

namespace MacOnLinux

structure MacBat where
  valid : Bool
  base : Word
  mbase : Word
  size : Word
  wimg : Word
  vs : Bool
  vp : Bool
  ks : Bool
  ku : Bool
  pp : Word
  deriving DecidableEq, Repr

/-- `pte0` and `pte1` are the page table, by the offset. The BATs 0 to 3 are IBATs. -/
structure Guest where
  bats : Nat → MacBat
  hashMapped : Bool
  hashMbase : Word
  hashMask : Word
  pte0 : Word → Word
  pte1 : Word → Word

def pte1C : Word := 0x80
def pte1W : Word := 0x40
def pte1I : Word := 0x20
def pte1Pp : Word := 0x3
def pte1Rpn : Word := 0xfffff000

/-! ## SDR1 and the BATs -/

def sdr1Scan (value : Word) : Nat → Word → Word
  | 0, mask => mask
  | n + 1, mask => if mask ≠ 0 ∧ mask &&& value = 0 then sdr1Scan value n (mask >>> 1) else mask

def sdr1Mask (value : Word) : Word :=
  -- MOL_BIT(23) is shifted out in nine steps
  let mask := sdr1Scan value 9 0x100
  if mask ≠ 0 then ((mask ||| (mask - 1)) <<< 16) ||| 0xffff else 0xffff

def sdr1Hash (value ramSize : Word) : Word × Word :=
  let mask := sdr1Mask value
  let mbase := value &&& ~~~mask
  if mbase + mask ≥ ramSize then (0, 0xffff) else (mbase, mask)

def macBat (batu batl : Word) : MacBat :=
  let bl := (batu >>> 2) &&& 0x7ff
  { valid := batu.getLsbD 1 || batu.getLsbD 0
    base := ((batu >>> 17) &&& ~~~bl) <<< 17
    mbase := ((batl >>> 17) &&& ~~~bl) <<< 17
    size := (bl + 1) <<< 17
    wimg := (batl >>> 3) &&& 0xf
    vs := batu.getLsbD 1
    vp := batu.getLsbD 0
    ks := true
    ku := true
    pp := batl &&& 3 }

/-! ## Translation -/

def findMacPte (pte0 : Word → Word) (p cmp : Word) : Option Word :=
  ((List.range 8).map fun i => p + BitVec.ofNat 32 (8 * i)).find? fun o => pte0 o = cmp

def lookupMacPte (g : Guest) (vsid ea : Word) : Option Word :=
  if g.hashMapped then
    let ea := ea &&& 0x0ffff000
    let mask := g.hashMask >>> 6
    let phash := (ea >>> 12) ^^^ (vsid &&& 0x7ffff)
    let pteg := (phash &&& mask) <<< 6
    let cmp := 0x80000000 ||| (vsid <<< 7) ||| ((ea &&& 0x0fffffff) >>> 22)
    match findMacPte g.pte0 pteg cmp with
    | some o => some o
    | none => findMacPte g.pte0 (pteg ^^^ (mask <<< 6)) (cmp ||| 0x40)
  else none

def MacBat.hits (b : MacBat) (svMode : Bool) (ea : Word) : Bool :=
  b.valid && (if svMode then b.vs else b.vp) && decide (¬ (ea < b.base ∨ ea > b.base + b.size - 1))

/-! ## Stores to the page table -/

-- The VSID and the effective address that `do_intercept_tlbie` flushes.
def tlbieVsid (pte0 : Word) : Word := (pte0 >>> 7) &&& 0xffffff

def tlbieEa (pte0 pteoffs : Word) : Word :=
  let v := pteoffs >>> 6
  let v := if pte0.getLsbD 6 then ~~~v else v
  let v := v ^^^ (pte0 >>> 7)
  let v := ((pte0 <<< 10) &&& 0xfc00) ||| (v &&& 0x3ff)
  v <<< 12

end MacOnLinux
