import MacOnLinux.Lib.Linked

/-! # The records of `kmod/mtable.c`

A record is on the ring of the page it maps (the ea ring, whose head is a slot of a level 2 table)
and possibly on the ring of the host page (the lv ring, whose head is a record of the lvrange). A
slot and a record can both be read as a link: `eaNext` is that word at every address. Loops over
links carry fuel; `none` is a loop that does not end or a NULL dereference.
-/

namespace MacOnLinux

open Linked Function

abbrev Word := BitVec 32

/-- An address of `mtable.c`. A level 2 table is addressed by its first slot. -/
inductive Ptr where
  | null
  | pterec (i : Nat)
  | slot (t j : Nat)
  deriving DecidableEq, Repr

/-- The bits of the `pent` word. `topea` is the field under `PENT_TOPEA_MASK`. -/
structure Pent where
  lvHead : Bool
  unused : Bool
  eaBit14 : Bool
  eaLast : Bool
  topea : Nat
  sv : Bool
  index : Nat
  deriving DecidableEq, Repr

def Pent.zero : Pent := ⟨false, false, false, false, 0, false, 0⟩

def Pent.head : Pent := { Pent.zero with lvHead := true }
def Pent.unusedHead : Pent := { Pent.zero with lvHead := true, unused := true }

/-! ## Fields of an effective address -/

def topeaOf (ea : Nat) : Nat := ea / 2 ^ 23 % 32
def lev2Ind (ea : Nat) : Nat := ea / 2 ^ 17 % 64
def pelistInd (ea : Nat) : Nat := ea / 2 ^ 12 % 32
def eaBit14Of (ea : Nat) : Bool := ea / 2 ^ 17 % 2 = 1

structure LvRange where
  pents : Nat
  base : Word
  size : Word
  deriving DecidableEq, Repr

def LvRange.contains (lvr : LvRange) (lvptr : Word) : Bool := lvptr - lvr.base < lvr.size

def LvRange.headOf (lvr : LvRange) (lvptr : Word) : Ptr :=
  .pterec (lvr.pents + ((lvptr - lvr.base) >>> 12).toNat)

/-- What a page of `vi->allocations` holds (`ALLOC_CONT_XXX`). -/
inductive Contents where
  | vsid
  | pent
  | lev2
  deriving DecidableEq, Repr

/-- What `pent_flush_unlink_ea` makes the address for `__tlbie` of. -/
structure Tlbie where
  pr : Ptr
  head : Ptr
  eaBit14 : Bool
  deriving DecidableEq, Repr

/-- `vsid_info_t` and the first words of the host hash. A page is listed with the first record or
table on it. -/
structure Mtable where
  eaNext : Ptr → Ptr
  lvNext : Ptr → Ptr
  pent : Ptr → Pent
  lev2 : Nat → Nat → Option Nat
  lvranges : List LvRange
  freePents : Ptr
  freePentTables : Ptr
  allocations : List (Contents × Nat)
  allocSize : Nat
  allocLimit : Int
  nextRec : Nat
  nextTab : Nat
  pte0 : Nat → Word
  tlbied : List Tlbie

namespace Mtable

def setEaNext (m : Mtable) (p q : Ptr) : Mtable := { m with eaNext := update m.eaNext p q }

def setLvNext (m : Mtable) (p q : Ptr) : Mtable := { m with lvNext := update m.lvNext p q }

def setPent (m : Mtable) (p : Ptr) (v : Pent) : Mtable :=
  { m with pent := update m.pent p v }

def markEaLast (m : Mtable) (p : Ptr) : Mtable := m.setPent p { m.pent p with eaLast := true }

def zeroPte (m : Mtable) (i : Nat) : Mtable := { m with pte0 := update m.pte0 i 0 }

def setLev2 (m : Mtable) (r i : Nat) (t : Option Nat) : Mtable :=
  { m with lev2 := update m.lev2 r (update (m.lev2 r) i t) }

/-- Enough for any loop over distinct records and one slot. -/
def fuel (m : Mtable) : Nat := m.nextRec + 2

/-! ## Table flushing -/

def unlinkLv (m : Mtable) (pr : Ptr) : Option Mtable :=
  if m.lvNext pr = .null then some m
  else do
    let lvp ← scan m.lvNext (fun q => m.lvNext q = pr) m.fuel (m.lvNext pr)
    some (m.setLvNext lvp (m.lvNext pr))

def releaseLv (m : Mtable) (pr : Ptr) (pent : Pent) : Option Mtable :=
  if pent.lvHead then some (m.setPent pr .unusedHead)
  else do
    let m ← m.unlinkLv pr
    some { m.setLvNext pr m.freePents with freePents := pr }

def flushVsidEaLoop (topea : Nat) (headp : Ptr) : Nat → Mtable → Ptr → Ptr → Option Mtable
  | 0, _, _, _ => none
  | fuel + 1, m, pp, pr =>
    let pent := m.pent pr
    let next := m.eaNext pr
    if pent.topea = topea then do
      let m := m.setEaNext pp (m.eaNext pr)
      let m ← m.releaseLv pr pent
      let m := m.zeroPte pent.index
      if pent.eaLast then
        if pp = headp then some (m.setEaNext headp .null) else some (m.markEaLast pp)
      else flushVsidEaLoop topea headp fuel m pp next
    else if pent.eaLast then some m
    else flushVsidEaLoop topea headp fuel m pr next

def flushVsidEa_ (m : Mtable) (r ea : Nat) : Option Mtable :=
  match m.lev2 r (lev2Ind ea) with
  | none => some m
  | some t =>
    let pp := Ptr.slot t (pelistInd ea)
    if m.eaNext pp = .null then some m
    else flushVsidEaLoop (topeaOf ea) pp m.fuel m pp (m.eaNext pp)

/-- The write part of `pent_flush_unlink_ea`: `prev` is the cell before `pr`. -/
def unlinkEa (m : Mtable) (pr prev head : Ptr) : Mtable :=
  let m :=
    if (m.pent pr).eaLast then
      if prev = head then m.setEaNext pr .null else m.markEaLast prev
    else m
  m.setEaNext prev (m.eaNext pr)

def pentFlushUnlinkEa (m : Mtable) (pr : Ptr) : Option Mtable := do
  let last ← scan m.eaNext (fun q => (m.pent q).eaLast) m.fuel pr
  let head := m.eaNext last
  let prev ← scan m.eaNext (fun q => m.eaNext q = pr) m.fuel last
  let m := m.unlinkEa pr prev head
  let m := m.zeroPte (m.pent pr).index
  some { m with tlbied := m.tlbied ++ [⟨pr, head, (m.pent pr).eaBit14⟩] }

def flushLvRing (head : Ptr) : Nat → Mtable → Ptr → Option (Mtable × Ptr)
  | 0, _, _ => none
  | fuel + 1, m, last => do
    let last := m.lvNext last
    let m ← m.pentFlushUnlinkEa last
    if m.lvNext last = head then some (m, last) else flushLvRing head fuel m last

def flushMembers (m : Mtable) (head : Ptr) : Option Mtable :=
  let first := m.lvNext head
  if first = head then some m
  else do
    let (m, last) ← flushLvRing head m.fuel m head
    some { m.setLvNext last m.freePents with freePents := first }

-- if( !(head->pent & PENT_UNUSED) ) pent_flush_unlink_ea( head )
def flushUsedHead (m : Mtable) (head : Ptr) : Option Mtable :=
  if (m.pent head).unused then some m else m.pentFlushUnlinkEa head

def flushLvHead (m : Mtable) (head : Ptr) : Option Mtable := do
  let m ← m.flushMembers head
  let m ← m.flushUsedHead head
  some ((m.setLvNext head head).setPent head .unusedHead)

def flushLvptr_ (m : Mtable) (lvptr : Word) : Option Mtable :=
  match m.lvranges.find? (·.contains lvptr) with
  | none => some m
  | some lvr => m.flushLvHead (lvr.headOf lvptr)

/-! ## Ranges of effective addresses -/

-- if( t->pelist[i] ) flush_vsid_ea_( vi, r, ea )
def flushSlot (m : Mtable) (r t i ea : Nat) : Option Mtable :=
  if m.eaNext (.slot t i) = .null then some m else m.flushVsidEa_ r ea

/-- The inner loop over the slots of a table, with an extra condition `more` on `ea`. -/
def flushPelist (r t : Nat) (more : Nat → Bool) : Nat → Mtable → Nat → Nat → Option (Mtable × Nat)
  | 0, _, _, _ => none
  | fuel + 1, m, i, ea =>
    if i < 32 ∧ more ea then do
      let m ← m.flushSlot r t i ea
      flushPelist r t more fuel m (i + 1) ((ea + 0x1000) % 2 ^ 32)
    else some (m, ea)

def flushEaLoop (r stop : Nat) (more : Nat → Bool) : Nat → Mtable → Nat → Option Mtable
  | 0, _, _ => none
  | fuel + 1, m, ea =>
    if ea < stop then
      match m.lev2 r (lev2Ind ea) with
      | none => flushEaLoop r stop more fuel m ((ea / 2 ^ 17 * 2 ^ 17 + 2 ^ 17) % 2 ^ 32)
      | some t => do
        let next ← flushPelist r t more 33 m (pelistInd ea) ea
        flushEaLoop r stop more fuel next.1 next.2
    else some m

-- One round for each level 2 table of a 32 bit address space, and one to leave.
def eaRounds : Nat := 2 ^ 15 + 1

def flushEaRangeOf (m : Mtable) (r orgEa size : Nat) : Option Mtable :=
  let stop := (orgEa + size) % 2 ^ 32
  flushEaLoop r stop (· < stop) eaRounds m orgEa

def pushLev2 (m : Mtable) (t : Nat) : Mtable :=
  { m.setEaNext (.slot t 0) m.freePentTables with freePentTables := .slot t 0 }

def freeLev2 (m : Mtable) (r i : Nat) : Mtable :=
  match m.lev2 r i with
  | none => m
  | some t => (m.setLev2 r i none).pushLev2 t

def flushVsid (m : Mtable) (r : Nat) : Option Mtable := do
  let m ← flushEaLoop r 0x10000000 (fun _ => true) eaRounds m 0
  some ((List.range 64).foldl (fun m i => m.freeLev2 r i) m)

/-! ## Allocations -/

def pentsPerChunk : Nat := 340
def tablesPerChunk : Nat := 31

def addPage (m : Mtable) (what : Contents) (first : Nat) : Mtable :=
  { m with allocations := (what, first) :: m.allocations, allocSize := m.allocSize + 0x1000 }

/-- `ok` says whether the host has a page, `first` what it will hold. -/
def doChunkKmalloc (m : Mtable) (ok : Bool) (what : Contents) (first : Nat) : Option Mtable :=
  if m.allocSize > m.allocLimit then none
  else if ok then some (m.addPage what first) else none

def tuneAllocLimit (m : Mtable) (ramsizeMb : Int) : Mtable :=
  { m with allocLimit := (ramsizeMb + 160) * 4096 }

def doKfreeAny (m : Mtable) : Mtable :=
  { m with allocations := [], allocSize := m.allocSize - 0x1000 * m.allocations.length }

def getFreeLev2 (m : Mtable) : Option (Mtable × Nat) :=
  match m.freePentTables with
  | .slot t 0 => some ({ m.setEaNext (.slot t 0) .null with freePentTables := m.eaNext (.slot t 0) }, t)
  | _ => none

def popFreePent (m : Mtable) : Option (Mtable × Ptr) :=
  match m.freePents with
  | .pterec i => some ({ m with freePents := m.lvNext (.pterec i) }, .pterec i)
  | _ => none

/-- `get_free_pent`, with the lvrange and the lvptr in `lv`. -/
def getFreePent (m : Mtable) (lv : Option (LvRange × Word)) : Option (Mtable × Ptr) :=
  match lv with
  | some (lvrange, lvptr) =>
    let pr2 := lvrange.headOf lvptr
    if (m.pent pr2).unused then some (m.setPent pr2 .head, pr2)
    else do
      let (m, pr) ← m.popFreePent
      let m := m.setLvNext pr (m.lvNext pr2)
      let m := m.setLvNext pr2 pr
      some (m.setPent pr .zero, pr)
  | none => do
    let (m, pr) ← m.popFreePent
    some ((m.setLvNext pr .null).setPent pr .zero, pr)

def linkTables (m : Mtable) : Mtable :=
  { m with
    eaNext := fun p => match p with
      | .slot t j =>
        if m.nextTab ≤ t ∧ t < m.nextTab + tablesPerChunk then
          if j = 0 then
            if t + 1 < m.nextTab + tablesPerChunk then .slot (t + 1) 0 else m.freePentTables
          else .null
        else m.eaNext p
      | p => m.eaNext p
    freePentTables := .slot m.nextTab 0
    nextTab := m.nextTab + tablesPerChunk }

def lev2Alloc (m : Mtable) (ok : Bool) : Mtable :=
  match m.doChunkKmalloc ok .lev2 m.nextTab with
  | none => m
  | some m => m.linkTables

def linkPents (m : Mtable) : Mtable :=
  { m with
    lvNext := fun p => match p with
      | .pterec i =>
        if m.nextRec ≤ i ∧ i < m.nextRec + pentsPerChunk then
          if i + 1 < m.nextRec + pentsPerChunk then .pterec (i + 1) else m.freePents
        else m.lvNext p
      | p => m.lvNext p
    eaNext := fun p => match p with
      | .pterec i =>
        if m.nextRec ≤ i ∧ i < m.nextRec + pentsPerChunk then .null else m.eaNext p
      | p => m.eaNext p
    pent := fun p => match p with
      | .pterec i =>
        if m.nextRec ≤ i ∧ i < m.nextRec + pentsPerChunk then .zero else m.pent p
      | p => m.pent p
    freePents := .pterec m.nextRec
    nextRec := m.nextRec + pentsPerChunk }

def pentAlloc (m : Mtable) (ok : Bool) : Mtable :=
  match m.doChunkKmalloc ok .pent m.nextRec with
  | none => m
  | some m => m.linkPents

/-! ## Insertion -/

def relinkLv (m : Mtable) (pr : Ptr) (lvrange : LvRange) (lvptr : Word) : Option Mtable :=
  let lvHead := lvrange.headOf lvptr
  if m.lvNext pr = .null then
    some ((m.setLvNext pr (m.lvNext lvHead)).setLvNext lvHead pr)
  else if (m.pent pr).lvHead then
    if pr = lvHead then some m
    else do
      let p ← scan m.eaNext (fun q => m.eaNext q = pr) m.fuel (m.eaNext pr)
      let (m, pnew) ← m.getFreePent (some (lvrange, lvptr))
      let m := m.setEaNext pnew (m.eaNext pr)
      let m := m.setEaNext p pnew
      let m := m.setPent pnew { m.pent pr with
        lvHead := (m.pent pnew).lvHead
        unused := (m.pent pnew).unused }
      some (m.setPent pr .unusedHead)
  else do
    let p ← scan m.lvNext (fun q => (m.pent q).lvHead) m.fuel (m.lvNext pr)
    if p = lvHead then some m
    else do
      let p ← scan m.lvNext (fun q => m.lvNext q = pr) m.fuel p
      let m := m.setLvNext p (m.lvNext pr)
      some ((m.setLvNext pr (m.lvNext lvHead)).setLvNext lvHead pr)

def findPent (m : Mtable) (topea : Nat) (sv : Bool) : Nat → Ptr → Option Ptr
  | 0, _ => none
  | fuel + 1, pr =>
    let pent := m.pent pr
    if pent.topea = topea ∧ pent.sv = sv then some pr
    else if pent.eaLast then some .null
    else m.findPent topea sv fuel (m.eaNext pr)

/-- The level 2 table of `ea`, taken off the free list when there is none yet. -/
def getLev2 (m : Mtable) (r ea : Nat) : Option (Mtable × Nat) :=
  match m.lev2 r (lev2Ind ea) with
  | some t => some (m, t)
  | none => do
    let (m, t) ← m.getFreeLev2
    some (m.setLev2 r (lev2Ind ea) (some t), t)

/-- `pte_inserted` past its check of the reservation; `sv` if the PTE uses the supervisor VSID. -/
def ptInsert (m : Mtable) (r ea : Nat) (sv : Bool) (lv : Option (LvRange × Word)) (index : Nat) :
    Option Mtable := do
  let (m, t) ← m.getLev2 r ea
  let pp := Ptr.slot t (pelistInd ea)
  if m.eaNext pp = .null then
    let (m, pr) ← m.getFreePent lv
    let m := m.setEaNext pp pr
    let m := m.setPent pr { m.pent pr with
      eaLast := true, index := index, topea := topeaOf ea, sv := sv, eaBit14 := eaBit14Of ea }
    some (m.setEaNext pr pp)
  else do
    let pr ← m.findPent (topeaOf ea) sv m.fuel (m.eaNext pp)
    if pr = .null then do
      let (m, pr) ← m.getFreePent lv
      let m := m.setPent pr { m.pent pr with
        index := index, topea := topeaOf ea, sv := sv, eaBit14 := eaBit14Of ea }
      let m := m.setEaNext pr (m.eaNext pp)
      some (m.setEaNext pp pr)
    else
      let m := m.setPent pr { m.pent pr with index := index }
      match lv with
      | some (lvrange, lvptr) => m.relinkLv pr lvrange lvptr
      | none => some m

/-! ## Lvranges -/

/-- For sizes below 2^31: `size` is an `int`, and `vmalloc_mol` fails for a negative one. -/
def registerLvrange (m : Mtable) (lvbase size : Word) : Mtable × LvRange :=
  let nel := (size >>> 12).toNat
  let lvr : LvRange := { pents := m.nextRec, base := lvbase, size := size }
  let fresh := fun i => m.nextRec ≤ i ∧ i < m.nextRec + nel
  ({ m with
    pent := fun p => match p with
      | .pterec i => if fresh i then .unusedHead else m.pent p
      | p => m.pent p
    lvNext := fun p => match p with
      | .pterec i => if fresh i then p else m.lvNext p
      | p => m.lvNext p
    eaNext := fun p => match p with
      | .pterec i => if fresh i then .null else m.eaNext p
      | p => m.eaNext p
    lvranges := lvr :: m.lvranges
    nextRec := m.nextRec + nel }, lvr)

def flushLvRangeLoop : Nat → Mtable → Word → Int → Option Mtable
  | 0, _, _, _ => none
  | fuel + 1, m, lvbase, size =>
    if size > 0 then do
      let m ← m.flushLvptr_ lvbase
      flushLvRangeLoop fuel m (lvbase + 0x1000) (size - 0x1000)
    else some m

-- One round for each page of a positive `int`, and one to leave.
def lvRounds : Nat := 2 ^ 19 + 1

def flushLvRange (m : Mtable) (lvbase size : Word) : Option Mtable :=
  flushLvRangeLoop lvRounds m lvbase size.toInt

def freeLvrange (m : Mtable) (lvrange : LvRange) : Option Mtable :=
  if lvrange ∈ m.lvranges then do
    let m ← m.flushLvRange lvrange.base lvrange.size
    some { m with lvranges := m.lvranges.erase lvrange }
  else some m

end Mtable

end MacOnLinux
