import MacOnLinux.Usb.Code

/-! # What happens to the controller -/

namespace MacOnLinux.Usb

open LeMem

section Events

variable (env : Env) (call : Task → Hc → Except Stop Hc) (fuel : Nat)

/-! ## Completions -/

def completeRef (hc : Hc) (reply : Reply) : Ref → Except Stop Hc
  | .ctrl id => call (.completeCtrlUrb id reply) hc
  | .data id => call (.completeDataUrb id reply) hc

def Hc.refDev (hc : Hc) : Ref → Option Nat
  | .ctrl id => (hc.curbs id).map (·.dev)
  | .data id => (hc.urbs.find? (·.id = id)).bind (·.dev)

def resetDev (dev : Nat) : List (Ref × Reply) → Hc → Except Stop Hc
  | [], hc => .ok hc
  | (ref, reply) :: rest, hc =>
    if ref ∈ hc.live ∧ hc.refDev ref = some dev then
      (completeRef call hc reply ref).bind (resetDev dev rest)
    else resetDev dev rest hc

/-! ## Registers -/

def portChanges : Word := portCsc ||| portPesc ||| portPssc ||| portOcic ||| portPrsc

def portReg (reg val : Word) : Word :=
  let reg := if val &&& portCcs != 0 then reg &&& ~~~portPes else reg
  let reg := if reg &&& portCcs != 0 then
      let reg := reg ||| (val &&& (portPes ||| portPss))
      if val &&& portPrs != 0 then (((reg &&& ~~~portPrs) ||| portPrsc) &&& ~~~portPss) ||| portPes else reg
    else if val &&& (portPss ||| portPes ||| portPrs) != 0 then reg ||| portCsc
    else reg
  let reg := if val &&& portLsda != 0 then reg &&& ~~~portPps
    else if val &&& portPps != 0 then reg ||| portPps
    else reg
  let reg := if reg &&& portPss != 0 && val &&& portPoci != 0 then (reg &&& ~~~portPss) ||| portPssc else reg
  reg &&& ~~~(val &&& portChanges)

def resetTarget (hc : Hc) (port : Nat) (val : Word) : Option Dev :=
  if hc.r (hcRhPortbase + port) &&& portCcs != 0 && val &&& portPrs != 0 then hc.devFromPort port else none

def resetPort (hc : Hc) (port : Nat) (val : Word) : Except Stop Hc :=
  match resetTarget hc port val with
  | some d => resetDev call d.id env.reset (hc.mapDev d.id fun d => { d with fa := 0 })
  | none => .ok hc

def portWrite (hc : Hc) (port : Nat) (val : Word) : Except Stop Hc :=
  let old := hc.r (hcRhPortbase + port)
  let reg := portReg old val
  (resetPort env call hc port val).map fun hc =>
    let hc := if (reg &&& ~~~old) &&& portChanges != 0 then hc.raise intRhsc else hc
    hc.setReg (hcRhPortbase + port) reg

def writeControl (hc : Hc) (val : Word) : Except Stop Hc :=
  let old := hc.r hcControl
  let hc := hc.setReg hcControl val
  if val &&& hcfsMask = old &&& hcfsMask then .ok hc
  else
    let hc := if old &&& hcfsMask = hcfsOperational then { hc with timer := false } else hc
    if val &&& hcfsMask = hcfsOperational then
      (call .pollLists hc.updateDoneHead).map fun hc =>
        if hc.isOperational then { hc with timer := true } else hc
    else .ok hc

def writeCmdStatus (hc : Hc) (val : Word) : Except Stop Hc :=
  if val &&& cmdHcr != 0 then .ok (hc.reset true)
  else
    let hc := hc.setReg hcCmdStatus (hc.r hcCmdStatus ||| (val &&& (cmdClf ||| cmdBlf)))
    if val &&& (cmdClf ||| cmdBlf) != 0 then call .pollLists hc else .ok hc

def rhStatusReg (old val : Word) : Word :=
  let val := val &&& ~~~(rhStatusLps ||| rhStatusLpsc)
  let old := if val &&& rhStatusOcic != 0 then old &&& rhStatusOcic else old
  let old := if val &&& rhStatusCrwe != 0 then old &&& rhStatusDrwe else old
  (val &&& ~~~(rhStatusOci ||| rhStatusOcic ||| rhStatusCrwe)) |||
    (old &&& (rhStatusOci ||| rhStatusOcic ||| rhStatusDrwe))

def descAFixed : Word := 0xff ||| 0x400

def readOnly : List Nat := [hcRev, hcFmRemaining, hcFmNumber, hcDoneHead, hcPeriodCurEd]

/-- What a write to a register does, and the value that the register gets. -/
def regValue (hc : Hc) (n : Nat) (val : Word) : Except Stop (Hc × Word) :=
  let old := hc.r n
  if n ∈ readOnly then .ok (hc, old)
  else if n = hcControl then (writeControl call hc val).map fun hc => (hc, hc.r n)
  else if n = hcCmdStatus then (writeCmdStatus call hc val).map fun hc => (hc, hc.r n)
  else if n = hcIntStatus then
    let hc := { hc with irqStatus := hc.irqStatus &&& ~~~val }
    .ok (if val &&& intWdh != 0 then hc.updateDoneHead else hc, val)
  else if n = hcIntEnable then .ok ({ hc with irqEnable := hc.irqEnable ||| val }, val)
  else if n = hcIntDisable then .ok ({ hc with irqEnable := hc.irqEnable &&& ~~~val }, val)
  else if n = hcHcca then
    let val := val &&& ~~~0xff
    .ok ({ hc with hcca := if val ≠ 0 ∧ env.transl val then some val else none }, val)
  else if n ∈ [hcCntrlHeadEd, hcBulkHeadEd, hcCurCntrlEd, hcCurBulkEd] then .ok (hc, val &&& ~~~0xf)
  else if n = hcRhDescA then .ok (hc, (val &&& ~~~descAFixed) ||| (old &&& descAFixed))
  else if n = hcRhStatus then .ok (hc, rhStatusReg old val)
  else if hcRhPortbase ≤ n then
    (portWrite env call hc (n - hcRhPortbase) val).map fun hc => (hc, hc.r n)
  else .ok (hc, val)

def regIoWrite (hc : Hc) (n : Nat) (val : Word) : Except Stop Hc :=
  if n ≥ hcRhPortbase + ndp then .ok hc
  else (regValue env call hc n val).map fun (hc, val) => (hc.setReg n val).fixIrq

/-! ## The frame timer -/

def rescanPeriodicList (hc : Hc) : Except Stop Hc :=
  match hc.hcca with
  | none => .ok hc
  | some hcca =>
    if hc.r hcControl &&& ctrlPle != 0 then
      let ind := hc.nextPeriodicInd % 32
      let hc := { hc with nextPeriodicInd := hc.nextPeriodicInd + 1 }
      call (.processList (load32 hc.mem (Hc.intTable hcca ind)) (.interrupt ind) false) hc
    else .ok hc

def staleUrb (hc : Hc) : List Urb → Except Stop (Option Urb)
  | [] => .ok none
  | u :: us =>
    match u.listType with
    | .interrupt _ => do
      let hot ← onList env hc.mem u.edMphys fuel (hc.getListHead u.listType)
      if hot then staleUrb hc us else .ok (some u)
    | _ => staleUrb hc us

def cleanStaleInterruptUrbs (hc : Hc) : Except Stop Hc :=
  if hc.r hcControl &&& ctrlPle = 0 then .ok hc else (staleUrb env fuel hc hc.urbs).map fun _ => hc

def frames (lost : Nat) : Word := BitVec.ofNat 32 ((lost + 1) * 37)

def newFrame (hc : Hc) (lost : Nat) : Word := (hc.r hcFmNumber + frames lost) &&& 0xffff

def frameOverflow (hc : Hc) (lost : Nat) : Bool := (hc.r hcFmNumber ^^^ newFrame hc lost) &&& 0x8000 != 0

def startOfFrame (hc : Hc) (lost : Nat) : Hc :=
  let new := newFrame hc lost
  let overflow := frameOverflow hc lost
  let hc := (hc.raise intSf).fixIrq
  let hc := if overflow then hc.raise intFno else hc
  let hc := hc.setReg hcFmNumber new
  match hc.hcca with
  | some hcca => { hc with mem := store32 hc.mem (Hc.frameNum hcca) new }
  | none => hc

def scans (hc : Hc) : Except Stop Hc :=
  let rescan := hc.cnt % 8 = 0
  let hc := { hc with cnt := hc.cnt + 1 }
  (if rescan then rescanPeriodicList call hc else .ok hc).bind fun hc =>
    if hc.cnt % 64 = 0 then cleanStaleInterruptUrbs env fuel hc else .ok hc

def sofTimer (hc : Hc) (lost : Nat) : Except Stop Hc :=
  scans env call fuel (startOfFrame hc lost)

/-! ## Devices -/

def registerUsbDevice (hc : Hc) : Hc :=
  match (List.range ndp).find? fun port => (hc.devFromPort port).isNone with
  | none => hc
  | some port =>
    Hc.updatePortStatus { hc with
      devs := ⟨hc.nextId, -1, port, []⟩ :: hc.devs
      nextId := hc.nextId + 1 }

def freeCurbs : List Nat → Hc → Except Stop Hc
  | [], hc => .ok hc
  | cu :: cus, hc => do
    let _ ← hc.curb cu
    freeCurbs cus (hc.freeCurb cu)

/-- `unregister_usb_device`; the device completes nothing after it. -/
def unregisterUsbDevice (hc : Hc) (d : Dev) : Except Stop Hc := do
  let live := hc.live.filter fun ref => hc.refDev ref ≠ some d.id
  let hc ← freeCurbs d.curbs hc
  .ok (Hc.updatePortStatus { hc with
    live := live
    urbs := hc.urbs.filter fun u => u.dev ≠ some d.id
    devs := hc.devs.eraseP (·.id = d.id) })

/-! ## Events -/

inductive Event where
  | guest (m : Mem)
  | write (n : Nat) (val : Word)
  | tick (lost : Nat)
  | complete (ref : Ref) (reply : Reply)
  | connect
  | disconnect (id : Nat)

def stepBy (hc : Hc) (ev : Event) : Except Stop Hc :=
  let hc := { hc with submits := 0 }
  match ev with
  | .guest m => .ok { hc with mem := m }
  | .write n val => regIoWrite env call hc n val
  | .tick lost => if hc.timer then sofTimer env call fuel hc lost else .ok hc
  | .complete ref reply => if ref ∈ hc.live then completeRef call hc reply ref else .ok hc
  | .connect => .ok (registerUsbDevice hc)
  | .disconnect id =>
    match hc.devs.find? (·.id = id) with
    | some d => unregisterUsbDevice hc d
    | none => .ok hc

end Events

def step (env : Env) (fuel : Nat) (hc : Hc) (ev : Event) : Except Stop Hc := stepBy env (run env fuel) fuel hc ev

def init (opti : Bool) (mem : Mem) : Hc :=
  Hc.reset {
    r := fun _ => 0
    hcca := none
    irqEnable := 0
    irqStatus := 0
    irqLine := false
    timer := false
    devs := []
    urbs := []
    nextPeriodicInd := 0
    optiWorkaround := opti
    mem := mem
    curbs := fun _ => none
    live := []
    nextId := 0
    submits := 0
    cnt := 0 } false

inductive Run (cond : Env → Hc → Event → Prop) : Hc → Prop where
  | init (opti : Bool) (mem : Mem) : Run cond (init opti mem)
  | step {hc hc' : Hc} (env : Env) (fuel : Nat) (ev : Event) : Run cond hc → cond env hc ev →
      step env fuel hc ev = .ok hc' → Run cond hc'

end MacOnLinux.Usb
