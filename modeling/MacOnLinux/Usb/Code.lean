import Mathlib.Logic.Function.Basic
import MacOnLinux.Lib.LeMem

/-! # The OHCI host controller (`drivers/usb.c`)

The controller hands the first descriptor of an endpoint to a device as an urb. The functions that
do this call each other without a bound; `Task` names their calls and `run` gives them fuel. Between
two calls from outside the guest can change its memory as it likes.
-/

namespace MacOnLinux.Usb

open LeMem Function

abbrev Byte := BitVec 8

abbrev Word := BitVec 32

abbrev Mem := LeMem.Mem 32

/-! ## Registers -/

def hcRev : Nat := 0
def hcControl : Nat := 1
def hcCmdStatus : Nat := 2
def hcIntStatus : Nat := 3
def hcIntEnable : Nat := 4
def hcIntDisable : Nat := 5
def hcHcca : Nat := 6
def hcPeriodCurEd : Nat := 7
def hcCntrlHeadEd : Nat := 8
def hcCurCntrlEd : Nat := 9
def hcBulkHeadEd : Nat := 10
def hcCurBulkEd : Nat := 11
def hcDoneHead : Nat := 12
def hcFmInterval : Nat := 13
def hcFmRemaining : Nat := 14
def hcFmNumber : Nat := 15
def hcLsThreshold : Nat := 17
def hcRhDescA : Nat := 18
def hcRhStatus : Nat := 20
def hcRhPortbase : Nat := 21

def ndp : Nat := 8

def ctrlPle : Word := 0x4
def ctrlCle : Word := 0x10
def ctrlBle : Word := 0x20
def ctrlIr : Word := 0x100
def ctrlRwc : Word := 0x200

def hcfsMask : Word := 0xc0
def hcfsReset : Word := 0
def hcfsResume : Word := 0x40
def hcfsOperational : Word := 0x80
def hcfsSuspend : Word := 0xc0

def cmdHcr : Word := 0x1
def cmdClf : Word := 0x2
def cmdBlf : Word := 0x4

def intWdh : Word := 0x2
def intSf : Word := 0x4
def intRd : Word := 0x8
def intFno : Word := 0x20
def intRhsc : Word := 0x40
def intMie : Word := 0x80000000

def portCcs : Word := 0x1
def portPes : Word := 0x2
def portPss : Word := 0x4
def portPoci : Word := 0x8
def portPrs : Word := 0x10
def portPps : Word := 0x100
def portLsda : Word := 0x200
def portCsc : Word := 0x10000
def portPesc : Word := 0x20000
def portPssc : Word := 0x40000
def portOcic : Word := 0x80000
def portPrsc : Word := 0x100000

def rhStatusLps : Word := 0x1
def rhStatusOci : Word := 0x2
def rhStatusDrwe : Word := 0x8000
def rhStatusLpsc : Word := 0x10000
def rhStatusOcic : Word := 0x20000
def rhStatusCrwe : Word := 0x80000000

def ccNoError : Int := 0
def ccCrc : Int := 1
def ccBitStuffing : Int := 2
def ccStall : Int := 4
def ccDevNotResponding : Int := 5
def ccPidCheckFailure : Int := 6
def ccDataUnderrun : Int := 9

/-! ## Descriptors -/

structure Ed where
  info : Word
  tailp : Word
  headp : Word
  nexted : Word
  deriving DecidableEq, Repr

namespace Ed

def fa (e : Ed) : Nat := (e.info &&& 0x7f).toNat
def en (e : Ed) : Nat := ((e.info >>> 7) &&& 0xf).toNat
def d (e : Ed) : Word := (e.info >>> 11) &&& 3
def k (e : Ed) : Bool := e.info.getLsbD 14
def f (e : Ed) : Bool := e.info.getLsbD 15
def halted (e : Ed) : Bool := e.headp.getLsbD 0
def head (e : Ed) : Word := e.headp &&& ~~~0xf

end Ed

structure Td where
  info : Word
  cbp : Word
  next : Word
  be : Word
  deriving DecidableEq, Repr

namespace Td

def dp (t : Td) : Word := (t.info >>> 19) &&& 3
def r (t : Td) : Bool := t.info.getLsbD 18
def withEc (t : Td) (v : Word) : Td := { t with info := (t.info &&& ~~~(0x0c000000 : Word)) ||| (v <<< 26) }
def withCc (t : Td) (status : Int) : Td :=
  { t with info := (t.info &&& ~~~(0xf0000000 : Word)) ||| (BitVec.ofInt 32 status <<< 28) }

end Td

def pageMask : Word := ~~~0xfff

def getTdSize (td : Td) : Int :=
  if td.cbp = 0 then 0
  else if td.be &&& pageMask = td.cbp &&& pageMask then td.be.toNat - td.cbp.toNat + 1
  else (0x1001 - (td.cbp &&& 0xfff).toNat) + (td.be &&& 0xfff).toNat

/-! ## The world outside -/

structure Reply where
  status : Int
  actcount : Nat
  data : List Byte

/-- What a device was given: a control request, or an urb of another kind. -/
inductive Ref where
  | ctrl (id : Nat)
  | data (id : Nat)
  deriving DecidableEq, Repr

/-- What is not the controller's during one call from outside. -/
structure Env where
  transl : Word → Bool
  junk : Word → Ed
  heap : Nat → Byte
  /-- A `submit` may complete the urb before it returns. -/
  submitNow : Nat → Option Reply
  /-- The urbs that the `reset` of a device completes. -/
  reset : List (Ref × Reply)

def getEd (env : Env) (m : Mem) (a : Word) : Ed :=
  if env.transl a then ⟨load32 m a, load32 m (a + 4), load32 m (a + 8), load32 m (a + 12)⟩ else env.junk a

def getTd (env : Env) (m : Mem) (a : Word) : Td :=
  let e := getEd env m a
  ⟨e.info, e.tailp, e.headp, e.nexted⟩

def putTd (env : Env) (m : Mem) (a : Word) (t : Td) : Mem :=
  if env.transl a then store m a (bytes32 t.info ++ bytes32 t.cbp ++ bytes32 t.next ++ bytes32 t.be) else m

def pageRest (a : Word) : Nat := 0x1000 - (a &&& 0xfff).toNat

def getTdData (env : Env) (m : Mem) (td : Td) (count : Nat) : List Byte :=
  (List.range count).map fun i =>
    if td.cbp = 0 || !env.transl td.cbp then env.heap i
    else if i < pageRest td.cbp then m (td.cbp + BitVec.ofNat 32 i)
    else if env.transl (td.be &&& pageMask) then
      m ((td.be &&& pageMask) + BitVec.ofNat 32 (i - pageRest td.cbp))
    else env.heap i

def putTdData (env : Env) (m : Mem) (td : Td) (src : List Byte) : Mem :=
  if td.cbp = 0 || !env.transl td.cbp then m
  else
    let s := pageRest td.cbp
    let m := store m td.cbp (src.take s)
    if s < src.length && env.transl (td.be &&& pageMask) then store m (td.be &&& pageMask) (src.drop s)
    else m

/-! ## The state -/

inductive ListType where
  | control
  | bulk
  | interrupt (ind : Nat)
  deriving DecidableEq, Repr

inductive UrbType where
  | bulk
  | ctrl
  | interrupt
  deriving DecidableEq, Repr

structure Urb where
  id : Nat
  dev : Option Nat
  listType : ListType
  edMphys : Word
  tdMphys : Word
  ed : Ed
  td : Td
  en : Nat
  type : UrbType
  size : Nat
  actcount : Nat
  isRead : Bool
  buf : List Byte

inductive Submitted where
  | no
  | submitted
  | done
  | discard
  deriving DecidableEq, Repr

/-- `priv_ctrl_urb_t`. The status is -1 while the request is in progress. -/
structure Curb where
  dev : Nat
  submitted : Submitted
  xcnt : Nat
  status : Int
  en : Nat
  size : Nat
  isRead : Bool
  actcount : Nat
  buf : List Byte

structure Dev where
  id : Nat
  fa : Int
  port : Nat
  curbs : List Nat

/-- `ohci_t` with guest memory, its requests, and what the devices have been given. -/
structure Hc where
  r : Nat → Word
  hcca : Option Word
  irqEnable : Word
  irqStatus : Word
  irqLine : Bool
  timer : Bool
  devs : List Dev
  urbs : List Urb
  nextPeriodicInd : Nat
  optiWorkaround : Bool
  mem : Mem
  curbs : Nat → Option Curb
  live : List Ref
  nextId : Nat
  submits : Nat
  cnt : Nat

inductive Stop where
  | fuel
  | fatal
  /-- A control request that was freed is used. -/
  | useAfterFree
  /-- An urb of another kind, or a device, is used that is not there any more. -/
  | stale
  /-- A descriptor with a buffer of less than no bytes. -/
  | badSize
  deriving DecidableEq, Repr

namespace Hc

def setReg (hc : Hc) (n : Nat) (v : Word) : Hc := { hc with r := update hc.r n v }

def hcfs (hc : Hc) : Word := hc.r hcControl &&& hcfsMask

def isOperational (hc : Hc) : Bool := hc.hcfs = hcfsOperational

def setHcfs (hc : Hc) (x : Word) : Hc := hc.setReg hcControl (hc.r hcControl ||| (x &&& hcfsMask))

def irqDue (hc : Hc) : Bool := hc.irqEnable &&& intMie != 0 && hc.irqEnable &&& hc.irqStatus != 0

def fixIrq (hc : Hc) : Hc := { hc with irqLine := hc.irqDue }

def raise (hc : Hc) (bits : Word) : Hc := { hc with irqStatus := hc.irqStatus ||| bits }

/-! ### Ports -/

def devFromPort (hc : Hc) (port : Nat) : Option Dev := hc.devs.find? (·.port = port)

def devFromFa (hc : Hc) (fa : Nat) : Option Dev := hc.devs.find? (·.fa = fa)

def portEvents (hc : Hc) (i : Nat) : Word × Word :=
  let old := hc.r (hcRhPortbase + i)
  let new := if (hc.devFromPort i).isSome then old ||| portCcs else old &&& portPps
  let changed := old ^^^ new
  ((if changed &&& portCcs != 0 then portCsc else 0) |||
    (if changed &&& portPes != 0 then portPesc else 0), new)

def updatePort (hc : Hc) (i : Nat) : Hc :=
  let (ev, new) := hc.portEvents i
  let hc := if hc.r hcRhStatus &&& rhStatusDrwe != 0 && ev &&& portCsc != 0 && hc.hcfs == hcfsSuspend then
      (hc.raise intRd).setHcfs hcfsResume
    else hc
  let hc := if ev != 0 then (hc.raise intRhsc).fixIrq else hc
  hc.setReg (hcRhPortbase + i) (new ||| ev)

def updatePortStatus (hc : Hc) : Hc := (List.range ndp).foldl updatePort hc

def reset (hc : Hc) (soft : Bool) : Hc :=
  let saveCtrl := if soft then hc.r hcControl else 0
  let hc := { hc with r := fun _ => 0, hcca := none }
  let hc := hc.setReg hcControl
    ((saveCtrl &&& ~~~(ctrlIr ||| ctrlRwc)) ||| (if soft then hcfsSuspend else hcfsReset))
  let hc := hc.setReg hcFmInterval 0x2edf
  let hc := hc.setReg hcLsThreshold 0x628
  let hc := hc.setReg hcRhDescA (8 ||| (0x1000000 * 10))
  hc.updatePortStatus

def intTable (hcca : Word) (ind : Nat) : Word := hcca + BitVec.ofNat 32 (4 * ind)

def frameNum (hcca : Word) : Word := hcca + 0x80

def doneHead (hcca : Word) : Word := hcca + 0x84

def updateDoneHead (hc : Hc) : Hc :=
  match hc.hcca with
  | none => hc
  | some hcca =>
    let dh := hc.r hcDoneHead
    if dh = 0 || hc.irqStatus &&& intWdh != 0 then hc
    else
      let dh := dh ||| (if ~~~intWdh &&& hc.irqStatus &&& hc.irqEnable != 0 then 1 else 0)
      let hc := { hc with mem := store32 hc.mem (doneHead hcca) dh }
      ((hc.setReg hcDoneHead 0).raise intWdh).fixIrq

/-! ### Urbs -/

def unlinkUrb (hc : Hc) (id : Nat) : Except Stop Hc :=
  if hc.urbs.any (·.id = id) then .ok { hc with urbs := hc.urbs.eraseP (·.id = id) } else .error .fatal

def getListHead (hc : Hc) : ListType → Word
  | .bulk => hc.r hcBulkHeadEd
  | .control => hc.r hcCntrlHeadEd
  | .interrupt ind =>
    match hc.hcca with
    | some hcca => load32 hc.mem (intTable hcca ind)
    | none => 0

/-! ### Control requests -/

def curb (hc : Hc) (id : Nat) : Except Stop Curb :=
  match hc.curbs id with
  | some c => .ok c
  | none => .error .useAfterFree

def dev (hc : Hc) (id : Nat) : Except Stop Dev :=
  match hc.devs.find? (·.id = id) with
  | some d => .ok d
  | none => .error .stale

def setCurb (hc : Hc) (id : Nat) (c : Curb) : Hc := { hc with curbs := update hc.curbs id (some c) }

def freeCurb (hc : Hc) (id : Nat) : Hc := { hc with curbs := update hc.curbs id none }

def mapDev (hc : Hc) (id : Nat) (f : Dev → Dev) : Hc :=
  { hc with devs := hc.devs.map fun d => if d.id = id then f d else d }

def addCurb (hc : Hc) (c : Curb) : Hc :=
  Hc.mapDev { hc.setCurb hc.nextId c with nextId := hc.nextId + 1 } c.dev fun d =>
    { d with curbs := hc.nextId :: d.curbs }

def freeCtrlUrb (hc : Hc) (id : Nat) : Except Stop Hc := do
  let c ← hc.curb id
  let d ← hc.dev c.dev
  if id ∈ d.curbs then
    let hc := hc.mapDev c.dev fun d => { d with curbs := d.curbs.erase id }
    if c.submitted ≠ .submitted then .ok (hc.freeCurb id)
    else .ok (hc.setCurb id { c with submitted := .discard })
  else .ok hc

def findCurb (hc : Hc) (en : Nat) : List Nat → Except Stop (Option Nat)
  | [] => .ok none
  | id :: ids => do
    let c ← hc.curb id
    if c.en = en then .ok (some id) else hc.findCurb en ids

end Hc

/-! ## The calls -/

inductive Task where
  | completeUrb (u : Urb) (status : Int)
  | finishCtrlUrb (cu : Nat) (u : Urb)
  | doSubmitCtrl (u : Urb) (dir : Word)
  | processEndpoint (ed : Ed) (edMphys : Word) (listType : ListType)
  /-- `process_list` from one endpoint on, and what `poll_lists` does after it -/
  | processList (edMphys : Word) (listType : ListType) (ret : Bool)
  | pollLists
  | completeCtrlUrb (cu : Nat) (reply : Reply)
  | completeDataUrb (id : Nat) (reply : Reply)

def onList (env : Env) (m : Mem) (edMphys : Word) : Nat → Word → Except Stop Bool
  | 0, _ => .error .fuel
  | fuel + 1, mphys =>
    if mphys = 0 then .ok false
    else if mphys = edMphys then .ok (env.transl mphys)
    else if env.transl mphys then onList env m edMphys fuel (load32 m (mphys + 12))
    else .ok false

def completeTd (u : Urb) (td : Td) (status : Int) : Td × Int :=
  if status = ccNoError then
    if u.actcount = u.size then (Td.withEc { td with cbp := 0 } 0, status)
    else
      let cbp := td.cbp + BitVec.ofNat 32 u.actcount
      let cbp := if td.cbp &&& pageMask ≠ cbp &&& pageMask then (cbp &&& 0xfff) ||| (td.be &&& pageMask) else cbp
      (Td.withEc { td with cbp := cbp } 0, if !td.r && u.isRead then ccDataUnderrun else status)
  else if status = ccDevNotResponding ∨ status = ccCrc ∨ status = ccBitStuffing ∨ status = ccPidCheckFailure then
    (td.withEc 3, status)
  else (td, status)

def headpH : Word := 1

def isHot (env : Env) (m : Mem) (u : Urb) : Bool :=
  let ed := getEd env m u.edMphys
  let td := getTd env m u.tdMphys
  !ed.k && !ed.halted && ed.head = u.tdMphys && td.cbp = u.td.cbp && td.be = u.td.be

structure Retired where
  hc : Hc
  ed : Ed
  status : Int

def copied (env : Env) (u : Urb) (td : Td) (status : Int) (m : Mem) : Mem :=
  if status = ccNoError ∧ u.isRead ∧ u.actcount ≠ 0 then putTdData env m td (u.buf.take u.actcount) else m

/-- The part of `complete_urb_` after its checks, up to the next descriptor. -/
def retire (env : Env) (u : Urb) (status : Int) (hc : Hc) : Retired :=
  let td := getTd env hc.mem u.tdMphys
  let (td', status') := completeTd u td status
  let ed := { getEd env hc.mem u.edMphys with
    headp := td'.next ||| (if status' = ccNoError then 0 else headpH) }
  let m := store32 (copied env u td status hc.mem) (u.edMphys + 8) ed.headp
  let m := putTd env m u.tdMphys (Td.withCc { td' with next := hc.r hcDoneHead } status')
  let hc := { hc.setReg hcDoneHead u.tdMphys with mem := m }
  ⟨hc.updateDoneHead, ed, status'⟩

section Calls

variable (env : Env) (call : Task → Hc → Except Stop Hc) (fuel : Nat)

def completeUrb (u : Urb) (status : Int) (hc : Hc) : Except Stop Hc := do
  let hc ← hc.unlinkUrb u.id
  let found ← onList env hc.mem u.edMphys fuel (hc.getListHead u.listType)
  if found && isHot env hc.mem u then
    let r := retire env u status hc
    if r.status = ccNoError then call (.processEndpoint r.ed u.edMphys u.listType) r.hc else .ok r.hc
  else call .pollLists hc

def submit (ref : Ref) (done : Reply → Task) (hc : Hc) : Except Stop Hc :=
  let hc' := { hc with live := ref :: hc.live, submits := hc.submits + 1 }
  match env.submitNow hc.submits with
  | none => .ok hc'
  | some reply => call (done reply) hc'

def submitCurb (cu : Nat) (hc : Hc) : Except Stop Hc := do
  let c ← hc.curb cu
  let _ ← hc.dev c.dev
  submit env call (.ctrl cu) (.completeCtrlUrb cu) hc

def finishCtrlUrb (cu : Nat) (u : Urb) (hc : Hc) : Except Stop Hc := do
  let c ← hc.curb cu
  if (c.buf.getD 0 0) &&& 0x80 = 0 then
    -- write transaction... must be status phase since all other stages are handled synchronously
    let hc ← hc.freeCtrlUrb cu
    call (.completeUrb u (if u.size ≠ 0 ∨ !u.isRead then ccStall else c.status)) hc
  else if u.isRead then
    let s := min u.size (c.actcount + 8 - c.xcnt)
    let u := { u with buf := (c.buf.drop c.xcnt).take s ++ u.buf.drop s, actcount := s }
    call (.completeUrb u ccNoError) (hc.setCurb cu { c with xcnt := c.xcnt + s })
  else
    let hc ← hc.freeCtrlUrb cu
    call (.completeUrb u (if u.size ≠ 0 then ccStall else c.status)) hc

/-- A status packet of a host-to-device request, with the hook for SET_ADDRESS. -/
def submitStatus (cu : Nat) (c : Curb) (u : Urb) (hc : Hc) : Except Stop Hc := do
  if c.en = 0 ∧ c.buf.getD 0 0 = 0 ∧ c.buf.getD 1 0 = 5 then
    let fa : Int := (c.buf.getD 3 0).toNat * 256 + (c.buf.getD 2 0).toNat
    let hc ← call (.finishCtrlUrb cu u) (hc.setCurb cu { c with submitted := .done, status := ccNoError })
    let _ ← hc.dev c.dev
    .ok (hc.mapDev c.dev fun d => { d with fa := fa })
  else submitCurb env call cu (hc.setCurb cu { c with submitted := .submitted })

def newCurb (u : Urb) (d : Dev) : Curb :=
  let wLength := (u.buf.getD 7 0).toNat * 256 + (u.buf.getD 6 0).toNat
  let isRead := (u.buf.getD 0 0) &&& 0x80 != 0
  { dev := d.id
    submitted := if isRead then .submitted else .no
    xcnt := 8
    status := -1
    en := u.en
    size := wLength + 8
    isRead := isRead
    actcount := 0
    buf := u.buf.take 8 ++ (List.range wLength).map env.heap }

def submitSetup (u : Urb) (d : Dev) (hc : Hc) : Except Stop Hc :=
  if u.size ≠ 8 then call (.completeUrb u ccStall) hc
  else do
    let c := newCurb env u d
    let hc' ← call (.completeUrb { u with actcount := 8 } ccNoError) (hc.addCurb c)
    if c.isRead then submitCurb env call hc.nextId hc' else .ok hc'

def abortCtrl (cu : Nat) (u : Urb) (hc : Hc) : Except Stop Hc := do
  let hc ← call (.completeUrb u ccStall) hc
  hc.freeCtrlUrb cu

def submitWrite (cu : Nat) (c : Curb) (u : Urb) (hc : Hc) : Except Stop Hc :=
  if c.submitted ≠ .no then abortCtrl call cu u hc
  else if !u.isRead ∧ c.xcnt = 0 then call (.completeUrb u ccNoError) hc
  else if c.xcnt = c.size then
    if !u.isRead ∨ u.size ≠ 0 then abortCtrl call cu u hc else submitStatus env call cu c u hc
  else if c.xcnt + u.size > c.size then abortCtrl call cu u hc
  else
    let buf := c.buf.take c.xcnt ++ u.buf.take u.size ++ c.buf.drop (c.xcnt + u.size)
    call (.completeUrb { u with actcount := u.size } ccNoError)
      (hc.setCurb cu { c with buf := buf, xcnt := c.xcnt + u.size })

def submitNext (cu : Nat) (u : Urb) (hc : Hc) : Except Stop Hc := do
  let c ← hc.curb cu
  if (c.buf.getD 0 0) &&& 0x80 = 0 then submitWrite env call cu c u hc
  else if c.status ≥ 0 then call (.finishCtrlUrb cu u) hc
  else .ok hc

def doSubmitCtrl (u : Urb) (dir : Word) (hc : Hc) : Except Stop Hc :=
  match u.dev with
  | none => .error .stale
  | some dev => do
    let d ← hc.dev dev
    match ← hc.findCurb u.en d.curbs with
    | some cu =>
      if dir = 0 then (hc.freeCtrlUrb cu).bind (submitSetup env call u d) else submitNext env call cu u hc
    | none =>
      if dir ≠ 0 then call (.completeUrb u ccStall) hc else submitSetup env call u d hc

def urbType (hc : Hc) (ed : Ed) (listType : ListType) : UrbType :=
  if hc.optiWorkaround && listType = .control && ed.en ≠ 0 then .bulk
  else if ed.en = 0 then .ctrl
  else match listType with
    | .interrupt _ => .interrupt
    | .bulk => .bulk
    | .control => .ctrl

def dirOf (ed : Ed) (td : Td) : Word := if ed.d = 0 ∨ ed.d = 3 then td.dp else ed.d

def newUrb (hc : Hc) (ed : Ed) (edMphys : Word) (listType : ListType) : Urb :=
  let td := getTd env hc.mem ed.head
  let size := (getTdSize td).toNat
  let isRead : Bool := dirOf ed td = 2
  { id := hc.nextId
    dev := (hc.devFromFa ed.fa).map (·.id)
    listType := listType
    edMphys := edMphys
    tdMphys := ed.head
    ed := ed
    td := td
    en := ed.en
    type := urbType hc ed listType
    size := size
    actcount := 0
    isRead := isRead
    buf := if isRead then (List.range size).map env.heap else getTdData env hc.mem td size }

def issue (u : Urb) (hc : Hc) : Except Stop Hc :=
  match u.dev with
  | none => call (.completeUrb u ccDevNotResponding) hc
  | some _ =>
    if u.type = .ctrl then call (.doSubmitCtrl u (dirOf u.ed u.td)) hc
    else submit env call (.data u.id) (.completeDataUrb u.id) hc

def processEndpoint (ed : Ed) (edMphys : Word) (listType : ListType) (hc : Hc) : Except Stop Hc :=
  if ed.head = ed.tailp then .ok hc
  else if getTdSize (getTd env hc.mem ed.head) < 0 then .error .badSize
  else
    let u := newUrb env hc ed edMphys listType
    issue env call u { hc with nextId := hc.nextId + 1, urbs := u :: hc.urbs }

def listEnd (listType : ListType) (ret : Bool) (hc : Hc) : Hc :=
  if ret then hc
  else match listType with
    | .control => (hc.setReg hcCurCntrlEd 0).setReg hcCmdStatus (hc.r hcCmdStatus &&& ~~~cmdClf)
    | .bulk => (hc.setReg hcCurBulkEd 0).setReg hcCmdStatus (hc.r hcCmdStatus &&& ~~~cmdBlf)
    | .interrupt _ => hc

def processList (edMphys : Word) (listType : ListType) (ret : Bool) (hc : Hc) : Except Stop Hc :=
  if edMphys = 0 then .ok (listEnd listType ret hc)
  else
    let ed := getEd env hc.mem edMphys
    if ed.k || ed.halted || ed.tailp = ed.head then call (.processList ed.nexted listType ret) hc
    -- isochronous ed terminates periodic list
    else if ed.f then .ok (listEnd listType ret hc)
    else if hc.urbs.any fun u => u.edMphys = edMphys && u.tdMphys = ed.head then
      call (.processList ed.nexted listType true) hc
    else do
      let hc ← call (.processEndpoint ed edMphys listType) hc
      call (.processList ed.nexted listType true) hc

def pollList (enable : Word) (cur head : Nat) (listType : ListType) (ctrl status : Word) (hc : Hc) :
    Except Stop Hc :=
  if ctrl &&& enable != 0 then
    let hc := if status &&& cmdClf != 0 then hc.setReg cur (hc.r head) else hc
    call (.processList (hc.r head) listType false) hc
  else .ok hc

def pollLists (hc : Hc) : Except Stop Hc :=
  if !hc.isOperational then .ok hc
  else do
    let ctrl := hc.r hcControl
    let status := hc.r hcCmdStatus
    let hc ← pollList call ctrlCle hcCurCntrlEd hcCntrlHeadEd .control ctrl status hc
    pollList call ctrlBle hcCurBulkEd hcBulkHeadEd .bulk ctrl status hc

/-- The record after its device has written the reply. -/
def Curb.filled (c : Curb) (reply : Reply) : Curb :=
  { c with
    status := reply.status
    actcount := reply.actcount
    buf := if c.isRead then c.buf.take 8 ++ reply.data else c.buf }

def completeCtrlUrb (cu : Nat) (reply : Reply) (hc : Hc) : Except Stop Hc := do
  let c ← hc.curb cu
  if c.submitted = .discard then .ok (Hc.freeCurb { hc with live := hc.live.erase (.ctrl cu) } cu)
  else
    let hc := Hc.setCurb { hc with live := hc.live.erase (.ctrl cu) } cu
      { c.filled reply with submitted := .done }
    if !hc.isOperational || hc.r hcControl &&& ctrlCle = 0 then hc.freeCtrlUrb cu
    else match hc.urbs.find? (·.en = c.en) with
      | some u => call (.finishCtrlUrb cu u) hc
      | none => .ok hc

def listDisabled (hc : Hc) : ListType → Bool
  | .bulk => hc.r hcControl &&& ctrlBle = 0
  | .interrupt _ => hc.r hcControl &&& ctrlPle = 0
  | .control => false

def completeDataUrb (id : Nat) (reply : Reply) (hc : Hc) : Except Stop Hc :=
  match hc.urbs.find? (·.id = id) with
  | none => .error .stale
  | some u =>
    let hc' := { hc with live := hc.live.erase (.data id) }
    if !hc.isOperational || listDisabled hc u.listType then hc'.unlinkUrb id
    else
      let buf := if u.isRead then reply.data else u.buf
      call (.completeUrb { u with actcount := reply.actcount, buf := buf } reply.status) hc'

def body (t : Task) (hc : Hc) : Except Stop Hc :=
  match t with
  | .completeUrb u status => completeUrb env call fuel u status hc
  | .finishCtrlUrb cu u => finishCtrlUrb call cu u hc
  | .doSubmitCtrl u dir => doSubmitCtrl env call u dir hc
  | .processEndpoint ed edMphys listType => processEndpoint env call ed edMphys listType hc
  | .processList edMphys listType ret => processList env call edMphys listType ret hc
  | .pollLists => pollLists call hc
  | .completeCtrlUrb cu reply => completeCtrlUrb call cu reply hc
  | .completeDataUrb id reply => completeDataUrb call id reply hc

end Calls

def run (env : Env) : Nat → Task → Hc → Except Stop Hc
  | 0, _, _ => .error .fuel
  | fuel + 1, t, hc => body env (run env fuel) fuel t hc

end MacOnLinux.Usb
