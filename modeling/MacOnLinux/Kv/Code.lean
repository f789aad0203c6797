import MacOnLinux.Fb.Code
import MacOnLinux.Mmu.Code

/-! # The mac-physical map (`kmod/mmu_io.c`) and the guest's MMU registers (`kmod/emu.c`) -/

namespace MacOnLinux

open Skiplist Function

/-! ## State -/

structure MapFlags where
  ro : Bool
  physical : Bool
  scratch : Bool
  forceCache : Bool
  fbAccel : Bool
  macosControlsCache : Bool
  putFirst : Bool
  forceWritable : Bool
  deriving DecidableEq, Repr

structure Block where
  mbase : Word
  lvbase : Word
  lvrange : Option LvRange
  size : Word
  flags : MapFlags
  id : Nat
  deriving DecidableEq, Repr

structure IoPage where
  mePhys : Word
  mphys : Word
  usrData : Nat → Word

/-- `io_data_t`, the scratch page and the emuaccel page. -/
structure IoData where
  btable : List Block
  nextFreeId : Nat
  ioPages : List IoPage
  scratchPage : Option Word
  emuaccelMphys : Word
  emuaccelPagePhys : Word

def Block.covers (b : Block) (mphys : Word) : Bool := mphys - b.mbase < b.size

def Block.pte1Bits (b : Block) (pte1 : Word) : Word :=
  let pte1 :=
    if b.flags.forceCache then (pte1 ||| pte1W) &&& ~~~pte1I
    else if b.flags.macosControlsCache then pte1
    else pte1 &&& ~~~(pte1W ||| pte1I)
  if b.flags.forceWritable then (pte1 &&& ~~~3) ||| 2 else pte1

def IoPage.fill (p : IoPage) (i num : Nat) (data : Word) : IoPage :=
  { p with usrData := fun j => if i ≤ j ∧ j < i + num then data else p.usrData j }

def IoPage.isEmpty (p : IoPage) : Bool := (List.range 512).all fun j => p.usrData j = 0

inductive Target where
  | emuaccel (phys : Word)
  | scratch (phys : Word)
  | block (id : Nat) (offs : Word)
  | io (phys : Word)
  deriving DecidableEq, Repr

/-- `kernel_vars_t`. -/
structure Kv where
  mmu : Mmu
  guest : Guest
  io : IoData
  fb : Option Fb
  inuseBits : Option (Nat → Bool)
  ramSize : Word
  userspaceRamBase : Word

namespace Kv

def withMmu (k : Kv) (f : Mmu → Option Mmu) : Option Kv := (f k.mmu).map fun s => { k with mmu := s }

/-! ## mphys_to_pte -/

def findBlock (io : IoData) (mphys : Word) : Option Block := io.btable.find? (·.covers mphys)

def findIoPage (mphys : Word) : List IoPage → Option IoPage
  | [] => none
  | p :: ps =>
    if p.mphys ≤ mphys then if p.mphys = mphys then some p else findIoPage mphys ps else none

structure Mapping where
  flags : MapFlags
  pte1 : Word
  lvrange : Option LvRange
  target : Target

def physicalFlags : MapFlags := ⟨false, true, false, false, false, false, false, false⟩

/-- `alloc` is the page that `alloc_page_mol` gives for a first scratch page. -/
def mphysToPte (io : IoData) (mphys pte1 : Word) (alloc : Option Word) : IoData × Option Mapping :=
  let mphys := mphys &&& pte1Rpn
  if mphys = io.emuaccelMphys ∧ io.emuaccelPagePhys ≠ 0 then
    (io, some {
      flags := physicalFlags
      pte1 := (pte1 ||| io.emuaccelPagePhys) &&& ~~~(pte1W ||| pte1I ||| pte1Pp)
      lvrange := none
      target := .emuaccel io.emuaccelPagePhys })
  else match findBlock io mphys with
    | some b =>
      if b.flags.scratch then
        match io.scratchPage.or alloc with
        | none => (io, none)
        | some page =>
          ({ io with scratchPage := some page }, some {
            flags := b.flags
            pte1 := b.pte1Bits (pte1 ||| page)
            lvrange := b.lvrange
            target := .scratch page })
      else
        (io, some {
          flags := b.flags
          pte1 := b.pte1Bits (pte1 ||| ((mphys - b.mbase + b.lvbase) &&& pte1Rpn))
          lvrange := b.lvrange
          target := .block b.id (mphys - b.mbase) })
    | none =>
      match findIoPage mphys io.ioPages with
      | some p =>
        (io, some {
          flags := physicalFlags
          pte1 := (pte1 ||| p.mePhys) &&& ~~~(pte1Pp ||| pte1W ||| pte1I)
          lvrange := none
          target := .io p.mePhys })
      | none => (io, none)

/-! ## Block translations -/

def maxBlockTrans : Nat := 6

def placeLoop (ind i : Nat) : List Block → Nat
  | [] => ind
  | b :: bs => if ind ≤ i then placeLoop (if b.flags.putFirst then ind + 1 else ind) (i + 1) bs else ind

def place (io : IoData) (mbase : Word) (flags : MapFlags) : Nat :=
  placeLoop (if mbase = 0 ∨ flags.putFirst then 0 else io.btable.length) 0 io.btable

def blockRange (k : Kv) (lvbase size : Word) (flags : MapFlags) : Kv × Option LvRange :=
  if flags.physical then (k, none)
  else
    let r := k.mmu.mt.registerLvrange lvbase size
    ({ k with mmu := { k.mmu with mt := r.1 } }, some r.2)

/-- `ok` says whether the host has memory for an lvrange. -/
def addBlockTrans (k : Kv) (mbase lvbase size : Word) (flags : MapFlags) (ok : Bool) :
    Option (Kv × Option Nat) :=
  if k.io.btable.length ≥ maxBlockTrans then some (k, none)
  else
    let lvbase := if flags.scratch then 0 else lvbase
    let flags := if flags.scratch then { flags with physical := true } else flags
    if !flags.physical && !ok then some (k, none)
    else do
      let r := k.blockRange lvbase size flags
      let k := r.1
      let id := (k.io.nextFreeId + 1) % 2 ^ 32
      let b : Block := ⟨mbase, lvbase, r.2, size, flags, id⟩
      let io := { k.io with
        btable := k.io.btable.insertIdx (place k.io mbase flags) b
        nextFreeId := id }
      let k := { k with io := io }
      if flags.putFirst then (k.withMmu (·.clearAllVsids)).map (·, some id) else some (k, some id)

-- if( p->lvrange ) free_lvrange( kv, p->lvrange )
def freeBlockRange (k : Kv) (b : Block) : Option Kv :=
  match b.lvrange with
  | some lvr => k.withMmu (·.withMt (·.freeLvrange lvr))
  | none => some k

def removeBlockTrans (k : Kv) (id : Nat) : Option Kv := do
  let k ← k.withMmu (·.clearAllVsids)
  match k.io.btable.find? (·.id = id) with
  | none => some k
  | some b => do
    let k ← k.freeBlockRange b
    some { k with io := { k.io with btable := k.io.btable.eraseP (·.id = id) } }

/-! ## I/O translations -/

def hasIoPage (mb : Word) : List IoPage → Bool
  | [] => false
  | p :: ps => if p.mphys < mb then hasIoPage mb ps else p.mphys = mb

def withIoPage (mb : Word) (found : IoPage → List IoPage) (missing : List IoPage) :
    List IoPage → List IoPage
  | [] => missing
  | p :: ps =>
    if p.mphys < mb then p :: withIoPage mb found missing ps
    else if p.mphys = mb then found p ++ ps
    else missing ++ p :: ps

-- The entries of the page that start at `mbase`: the first one, and how many.
def ioIndex (mbase : Word) : Nat := ((mbase &&& 0xfff) >>> 3).toNat
def ioNum (mbase : Word) (size : Int) : Nat := min (size / 8).toNat (512 - ioIndex mbase)

/-- Each new page takes one of `pages`; without one the function fails. -/
def addIoLoop (usrData : Word) :
    Nat → List IoPage → List Word → Word → Int → Option (List IoPage × Nat)
  | 0, _, _, _, _ => none
  | fuel + 1, ps, pages, mbase, size =>
    if size > 0 then
      let mb := mbase &&& pte1Rpn
      let num := ioNum mbase size
      let fill := fun p : IoPage => [p.fill (ioIndex mbase) num usrData]
      let mbase' := mbase + BitVec.ofNat 32 (8 * num)
      if hasIoPage mb ps then
        addIoLoop usrData fuel (withIoPage mb fill [] ps) pages mbase' (size - 8 * num)
      else match pages with
        | [] => some (ps, 1)
        | page :: pages =>
          addIoLoop usrData fuel (withIoPage mb fill (fill ⟨page, mb, fun _ => 0⟩) ps) pages mbase'
            (size - 8 * num)
    else some (ps, 0)

def removeIoLoop : Nat → List IoPage → Word → Int → Option (List IoPage)
  | 0, _, _, _ => none
  | fuel + 1, ps, mbase, size =>
    if size > 0 then
      let mb := mbase &&& pte1Rpn
      if hasIoPage mb ps then
        let num := ioNum mbase size
        let clear := fun p : IoPage =>
          let p := p.fill (ioIndex mbase) num 0
          if p.isEmpty then [] else [p]
        removeIoLoop fuel (withIoPage mb clear [] ps) (mbase + BitVec.ofNat 32 (8 * num)) (size - 8 * num)
      else
        let rest := 0x1000 - (mbase &&& 0xfff)
        removeIoLoop fuel ps (mbase + rest) (size - rest.toNat)
    else some ps

-- One round for each page of a positive `int`, and one to leave.
def ioRounds : Nat := 2 ^ 19 + 2

-- Align mbase and size to double word boundaries. The size is an `int`.
def ioBase (mbase : Word) : Word := mbase - (mbase &&& 7)
def ioSize (mbase : Word) (size : Int) : Int :=
  ((BitVec.ofInt 32 size + (mbase &&& 7) + 7) &&& ~~~(7 : Word)).toInt

def addIoTrans (k : Kv) (mbase : Word) (size : Int) (usrData : Word) (pages : List Word) :
    Option (Kv × Nat) := do
  let (ps, rc) ← addIoLoop usrData ioRounds k.io.ioPages pages (ioBase mbase) (ioSize mbase size)
  some ({ k with io := { k.io with ioPages := ps } }, rc)

def removeIoTrans (k : Kv) (mbase : Word) (size : Int) : Option Kv := do
  let ps ← removeIoLoop ioRounds k.io.ioPages (ioBase mbase) (ioSize mbase size)
  some { k with io := { k.io with ioPages := ps } }

/-! ## Stores to the BATs -/

structure BatRegs where
  spr : Nat → Word
  useBatHack : Bool
  batHackCount : Nat

def BatRegs.batHack (r : BatRegs) : Bool × BatRegs :=
  if !r.useBatHack then (true, r)
  else (r.batHackCount < 0x100, { r with batHackCount := r.batHackCount + 1 })

def flushBat (k : Kv) (hack : Bool) (d : MacBat) : Option Kv :=
  if hack && d.valid then k.withMmu (·.flushEaRange (d.base &&& 0x0fffffff).toNat d.size.toNat) else some k

def batnumOf (sprnum : Nat) : Nat := (sprnum - 528) / 2

def doMtbat (k : Kv) (r : BatRegs) (sprnum : Nat) (value : Word) (force : Bool) : Option (Kv × BatRegs) :=
  if !force ∧ r.spr sprnum = value then some (k, r)
  else do
    let r := { r with spr := update r.spr sprnum value }
    let (hack, r) := r.batHack
    let k ← k.flushBat hack (k.guest.bats (batnumOf sprnum))
    let d := macBat (r.spr (sprnum / 2 * 2)) (r.spr (sprnum / 2 * 2 + 1))
    let k := { k with guest := { k.guest with bats := update k.guest.bats (batnumOf sprnum) d } }
    let (hack, r) := r.batHack
    let k ← k.flushBat hack d
    some (k, r)

/-! ## Stores to the guest hash -/

/-- Whether the hash can be mapped and there is memory for `pthash_inuse_bits`; the guest's PTEs. -/
def doMtsdr1 (k : Kv) (value : Word) (mapped bitmap : Bool) (pte0 pte1 : Word → Word) : Option Kv := do
  let h := sdr1Hash value k.ramSize
  let guest := { k.guest with
    hashMbase := h.1, hashMask := h.2, hashMapped := mapped, pte0 := pte0, pte1 := pte1 }
  let k := { k with guest := guest, inuseBits := if bitmap then some fun _ => false else none }
  let s ← k.mmu.withMt (·.flushLvRange (k.userspaceRamBase + h.1) (h.2 + 1))
  ({ k with mmu := s }).withMmu (·.clearAllVsids)

def clearInuse (k : Kv) (pteoffs : Word) : Kv :=
  { k with
    inuseBits := k.inuseBits.map fun bits => update bits (pteoffs >>> 3).toNat false }

def doInterceptTlbie (k : Kv) (pte0 _pte1 pteoffs : Word) : Option Kv :=
  (k.clearInuse pteoffs).withMmu
    (·.flushVsidEa (tlbieVsid pte0).toNat (tlbieEa pte0 pteoffs).toNat)

end Kv

end MacOnLinux
