import MacOnLinux.Mtable.Code
import MacOnLinux.Skiplist.Code

/-! # VSIDs and the entry points of `kmod/mtable.c` and `kmod/context.c`

Whether the host has a page to give (`alloc_page_mol`) and the random bits of the skiplist are
arguments.
-/

namespace MacOnLinux

open Skiplist Function

/-! ## Contexts -/

def vsidMask : Nat := 0xffffff
def ctxMask : Nat := 0xfffff
def mungeAddNext : Nat := 897
def mungeMulInverse : Nat := 2899073
def mungeEsidAdd : Nat := 0x111
def perSessionContexts : Nat := 0x10000
def maxNumSessions : Nat := 8

def vsidKp : Word := 0x20000000
def vsidN : Word := 0x10000000

def mungeContext (c : Nat) : Nat := c * (mungeAddNext * 16) % 2 ^ 32 &&& ctxMask <<< 4

def firstMolContext (sess : Nat) : Nat := (ctxMask - perSessionContexts * (sess + 1)) <<< 4
def lastMolContext (sess : Nat) : Nat := (ctxMask - perSessionContexts * sess) <<< 4 ||| 0xf

def contextVsid (molContext : Nat) : Nat :=
  mungeContext (molContext >>> 4) + mungeEsidAdd * (molContext &&& 0xf) &&& vsidMask

def linuxContextVsid (c s : Nat) : Nat := ((c * 897) <<< 4 + s * 0x111) % 2 ^ 24

/-- `issued` lists what `alloc_context` took and returned; it is not in the source. -/
structure Contexts where
  first : Nat
  last : Nat
  next : Nat
  illegalSr : Word
  issued : List (Nat × Nat)

def Contexts.allocContext (c : Contexts) : Contexts × Word :=
  ({ c with next := c.next + 1, issued := (c.next, contextVsid c.next) :: c.issued },
    BitVec.ofNat 32 (contextVsid c.next))

def Contexts.init (sess : Nat) : Contexts :=
  let c : Contexts := {
    first := firstMolContext sess
    last := lastMolContext sess
    next := firstMolContext sess
    illegalSr := 0
    issued := [] }
  let (c, vsid) := c.allocContext
  { c with illegalSr := vsid ||| vsidKp ||| vsidN }

/-! ## State -/

/-- Entry `e` of the skiplist has the VSIDs `linuxVsid e` and `linuxVsidSv e`. -/
structure Mmu where
  mt : Mtable
  pte1 : Nat → Word
  ptegMask : Word
  grabAdd : Nat
  sessionIndex : Nat
  ctx : Contexts
  vsidSl : Sl
  linuxVsid : Nat → Word
  linuxVsidSv : Nat → Word
  vsid : Nat → Option Nat
  unmappedVsid : Nat → Option Nat
  userSr : Nat → Word
  svSr : Nat → Word
  unmappedSr : Nat → Word
  lvptrReservation : Word
  lvptrReservationLost : Bool

namespace Mmu

def withMt (s : Mmu) (f : Mtable → Option Mtable) : Option Mmu :=
  (f s.mt).map fun mt => { s with mt := mt }

def nPte (s : Mmu) : Nat := ((s.ptegMask ||| 0x38).toNat + 8) / 8

/-! ## Host hash -/

def pteValid (w : Word) : Bool := w.getLsbD 31
def pteVsid (w : Word) : Word := (w >>> 7) &&& 0xffffff

def isStale (c : Contexts) (w : Word) : Bool :=
  let v := (w &&& 0x7fffffff) >>> 7
  let v := (v - (v &&& 0xf) * BitVec.ofNat 32 mungeEsidAdd) * BitVec.ofNat 32 mungeMulInverse
  let v := (v >>> 4) &&& BitVec.ofNat 32 ctxMask
  pteValid w && decide (c.first ≤ v.toNat ∧ v.toNat ≤ c.last)

def flushAllPTEs (s : Mmu) : Mmu :=
  { s with mt := { s.mt with
      pte0 := fun i => if i < s.nPte ∧ isStale s.ctx (s.mt.pte0 i) then 0 else s.mt.pte0 i } }

/-! ## Flushing -/

def entryOf : Node → Option Nat
  | .el e => some e
  | _ => none

def vsidEntLookup (s : Mmu) (macVsid : Int) : Option (Option Nat) :=
  (skiplistLookup s.vsidSl macVsid).map entryOf

def flushVsidEa (s : Mmu) (macVsid : Int) (ea : Nat) : Option Mmu := do
  match ← s.vsidEntLookup macVsid with
  | some r => s.withMt (·.flushVsidEa_ r ea)
  | none => some s

def flushLvptr (s : Mmu) (lvptr : Word) : Option Mmu :=
  let s := if lvptr = s.lvptrReservation then { s with lvptrReservationLost := true } else s
  s.withMt (·.flushLvptr_ lvptr)

def forEachEntry (s : Mmu) (f : Mtable → Nat → Option Mtable) : Option Mmu := do
  let els ← skiplistElements s.vsidSl
  s.withMt fun mt => (els.filterMap entryOf).foldlM f mt

def flushEaRange (s : Mmu) (orgEa size : Nat) : Option Mmu :=
  s.forEachEntry fun mt r => mt.flushEaRangeOf r orgEa size

def clearVsidRefs (s : Mmu) : Mmu :=
  { s with
    vsid := fun _ => none
    unmappedVsid := fun _ => none
    userSr := fun _ => s.ctx.illegalSr
    svSr := fun _ => s.ctx.illegalSr
    unmappedSr := fun _ => s.ctx.illegalSr }

def chunkSize : Nat := 0x1000 - 12
def sizeofVsidEnt : Nat := 268

def clearAllVsids (s : Mmu) : Option Mmu := do
  let s ← s.forEachEntry fun mt r => mt.flushVsid r
  let s := { s with
    vsidSl := skiplistInit s.vsidSl sizeofVsidEnt
    ctx := { s.ctx with issued := [(s.ctx.first, (s.ctx.illegalSr &&& 0xffffff).toNat)] } }
  let s := s.clearVsidRefs
  let mt := { s.mt with freePents := .null, freePentTables := .null }
  some { s with mt := mt.doKfreeAny }

/-! ## Allocation -/

def initContexts (s : Mmu) : Mmu :=
  flushAllPTEs { s with ctx := Contexts.init s.sessionIndex }

def handleContextWrap (s : Mmu) (n : Int) : Option Mmu :=
  if (s.ctx.next : Int) + n > s.ctx.last then do
    let s ← s.clearAllVsids
    some s.initContexts
  else some s

/-- `lev2Ok` and `pentOk` say whether the host has a page for each of the two. -/
def mtableMemoryCheck (s : Mmu) (lev2Ok pentOk : Bool) : Option (Mmu × Bool) :=
  if s.mt.freePents ≠ .null ∧ s.mt.freePentTables ≠ .null then some (s, false)
  else
    let mt := if s.mt.freePentTables = .null then s.mt.lev2Alloc lev2Ok else s.mt
    let mt := if mt.freePents = .null then mt.pentAlloc pentOk else mt
    let s := { s with mt := mt }
    if mt.freePents = .null ∨ mt.freePentTables = .null then s.clearAllVsids.map (·, true)
    else some (s, false)

def vsidElCallback (s : Mmu) (r : Nat) : Mmu :=
  let (ctx, user) := s.ctx.allocContext
  let (ctx, sv) := ctx.allocContext
  { s with
    ctx := ctx
    linuxVsid := update s.linuxVsid r (user ||| vsidKp)
    linuxVsidSv := update s.linuxVsidSv r (sv ||| vsidKp)
    mt := { s.mt with lev2 := update s.mt.lev2 r (fun _ => none) } }

def allocVsidEnt (s : Mmu) (macVsid : Int) (ok : Bool) (coin : Nat → Bool) :
    Option (Mmu × Option Nat) := do
  if skiplistNeedalloc s.vsidSl then
    let s ← s.handleContextWrap (chunkSize / sizeofVsidEnt * 2 : Nat)
    match s.mt.doChunkKmalloc ok .vsid s.vsidSl.fresh with
    | none => some (s, none)
    | some mt =>
      let (sl, els) ← skiplistPrealloc s.vsidSl chunkSize coin
      let s := els.foldl vsidElCallback { s with mt := mt, vsidSl := sl }
      let (sl, e) ← skiplistInsert s.vsidSl macVsid
      some ({ s with vsidSl := sl }, entryOf e)
  else
    let (sl, e) ← skiplistInsert s.vsidSl macVsid
    some ({ s with vsidSl := sl }, entryOf e)

/-- `ok`, `coin` are for the first try, `ok'`, `coin'` for the second. -/
def vsidGetUserSv (s : Mmu) (macVsid : Int) (ok ok' : Bool) (coin coin' : Nat → Bool) :
    Option (Mmu × Option Nat) := do
  match ← s.vsidEntLookup macVsid with
  | some r => some (s, some r)
  | none =>
    let (s, r) ← s.allocVsidEnt macVsid ok coin
    match r with
    | some r => some (s, some r)
    | none =>
      let s ← s.clearAllVsids
      s.allocVsidEnt macVsid ok' coin'

/-! ## pte_inserted -/

-- (r->linux_vsid_sv & VSID_MASK) == (segreg & VSID_MASK)
def usesSv (s : Mmu) (r : Nat) (segreg : Word) : Bool :=
  s.linuxVsidSv r &&& 0xffffff = segreg &&& 0xffffff

def pteInserted (s : Mmu) (ea : Nat) (lv : Option (LvRange × Word)) (index r : Nat)
    (segreg : Word) : Option Mmu :=
  if lv.isSome ∧ s.lvptrReservationLost then some { s with mt := s.mt.zeroPte index }
  else s.withMt (·.ptInsert r ea (s.usesSv r segreg) lv index)

/-! ## Resource reclaiming -/

def reclaimTables (r : Nat) : Nat → Mtable → Mtable × Bool
  | 0, mt => (mt, true)
  | left + 1, mt =>
    let i := 64 - (left + 1)
    match mt.lev2 r i with
    | none => reclaimTables r left mt
    | some t =>
      if (List.range 32).all (fun j => mt.eaNext (.slot t j) = .null) then
        reclaimTables r left ((mt.pushLev2 t).setLev2 r i none)
      else (mt, false)

def reclaimLoop : Nat → Mmu → Node → Option Mmu
  | 0, _, _ => none
  | fuel + 1, s, iter =>
    match skiplistGetnext s.vsidSl iter with
    | (false, _, _) => some s
    | (true, el, iter) =>
      match entryOf el with
      | none => none
      | some r =>
        let (mt, done) := reclaimTables r 64 s.mt
        let s := { s with mt := mt }
        let vsid : Int := s.vsidSl.key el
        if done ∧ (List.range 16).all (fun i => s.vsid i ≠ some r) ∧ 0 ≤ vsid ∧ vsid ≤ vsidMask then do
          let (sl, _) ← skiplistDelete s.vsidSl vsid
          reclaimLoop fuel { s with vsidSl := sl } iter
        else reclaimLoop fuel s iter

def mtableReclaim (s : Mmu) : Option Mmu :=
  reclaimLoop (s.vsidSl.fresh + 1) s (skiplistIterate s.vsidSl)

end Mmu

/-! ## Initial state -/

def Mtable.init (pte0 : Nat → Word) : Mtable where
  eaNext := fun _ => .null
  lvNext := fun _ => .null
  pent := fun _ => .zero
  lev2 := fun _ _ => none
  lvranges := []
  freePents := .null
  freePentTables := .null
  allocations := []
  allocSize := 0
  allocLimit := 2 * 1024 * 1024
  nextRec := 0
  nextTab := 0
  tlbied := []
  pte0 := pte0

def Mmu.init (sess : Nat) (ptegMask : Word) (pte0 pte1 : Nat → Word) : Mmu :=
  let s : Mmu := {
    mt := Mtable.init pte0
    pte1 := pte1
    ptegMask := ptegMask
    grabAdd := 0
    sessionIndex := sess
    ctx := Contexts.init sess
    vsidSl := skiplistInit .blank Mmu.sizeofVsidEnt
    linuxVsid := fun _ => 0
    linuxVsidSv := fun _ => 0
    vsid := fun _ => none
    unmappedVsid := fun _ => none
    userSr := fun _ => 0
    svSr := fun _ => 0
    unmappedSr := fun _ => 0
    lvptrReservation := 0
    lvptrReservationLost := false }
  s.flushAllPTEs.clearVsidRefs

end MacOnLinux
