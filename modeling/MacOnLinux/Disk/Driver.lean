import MacOnLinux.Disk.Ablk
import Mathlib.Logic.Relation

/-! # The block driver of the guest (`MolBlockDevice.cpp`) next to the block engine

The driver and its OSI calls run in one thread, the engine in another one. A step of the driver
reads or writes one thing that the engine uses too.
-/

namespace MacOnLinux.Ablk

/-! ## Requests -/

inductive Cmd where
  | read
  | write
  | eject
  | lockdoor
  deriving DecidableEq, Repr

def Cmd.ablkReq : Cmd → Word
  | .read => readReq
  | .write => writeReq
  | .eject => ejectReq
  | .lockdoor => lockdoorReq

/-- `MolBlockRequest`. `buffer` is `getPhysicalSegment`, `id` counts the calls, `last` is `req_num`
without the wrap. -/
structure Req where
  id : Nat
  cmd : Cmd
  unit : Word
  block : Word
  buffer : Word → Word × Word
  totalCnt : Word
  xferCnt : Word
  failed : Bool
  reqNum : Word
  last : Nat

/-- The descriptor for the slot `d`, the request then, and whether it is the last one. -/
def Req.describe (r : Req) (d : Desc) : Desc × Req × Bool :=
  if r.xferCnt.toInt < 0 then
    if r.totalCnt = 0 then (⟨r.cmd.ablkReq ||| raiseIrq, 0, r.unit, r.block⟩, { r with xferCnt := 0 }, true)
    else (⟨r.cmd.ablkReq, 0, r.unit, r.block⟩, { r with xferCnt := 0 }, false)
  else
    let seg := r.buffer r.xferCnt
    if seg.1 = 0 then (⟨nopReq, 0, 0, d.param⟩, { r with failed := true }, true)
    else
      let xfer := r.xferCnt + seg.2
      let isOver := r.totalCnt.toInt < xfer.toInt
      let count := if isOver then seg.2 - (xfer - r.totalCnt) else seg.2
      let xfer := if isOver then r.totalCnt else xfer
      if xfer = r.totalCnt then (⟨sgBuf ||| raiseIrq, 0, seg.1, count⟩, { r with xferCnt := xfer }, true)
      else (⟨sgBuf, 0, seg.1, count⟩, { r with xferCnt := xfer }, false)

/-! ## State -/

inductive Caller where
  | receiveCmd
  | handleIrq
  deriving DecidableEq, Repr

/-- The callers of `osip_ablk_kick`, with what `processRequest` returns. -/
inductive Kicker where
  | process (ok : Bool) (k : Caller)
  | ack
  deriving DecidableEq, Repr

inductive DrvPc where
  | idle
  | check (r : Req) (k : Caller)
  | fill (r : Req) (k : Caller)
  | start (prev : Word) (more : Option Req) (k : Caller)
  | started (ok : Bool) (k : Caller)
  | kickTest (k : Kicker)
  | kickActive (k : Kicker)
  | kickWrite (k : Kicker)
  | ackTest
  | ackCount
  | ackActive (complCount : Word)
  | completions (complCount : Word)
  | requests

/-- `MolBlockDriver`; the last fields are a record of what was done. -/
structure Driver where
  ri : Word
  reqCount : Word
  reqQueue : List Req
  complQueue : List Req
  running : Bool
  pc : DrvPc
  submitted : Nat
  completed : List Req
  posts : List (Word × Nat)
  posted : Nat
  seen : Nat

structure System where
  eng : Engine
  drv : Driver

def descNumEl : Nat := 128
def descMask : Word := 127

namespace System

variable (s : System)

def goto (pc : DrvPc) : System := { s with drv := { s.drv with pc := pc } }

def nextSlot : Word := nextInd descMask s.drv.ri

/-! ## processRequest -/

def afterProcess (ok : Bool) : Caller → DrvPc
  | .receiveCmd => .idle
  | .handleIrq => if ok then .requests else .idle

def afterKick : Kicker → DrvPc
  | .process ok k => afterProcess ok k
  | .ack => .ackCount

def check (r : Req) (k : Caller) : System :=
  if (s.eng.ring s.nextSlot).flags ≠ 0 then
    { s with drv := { s.drv with reqQueue := r :: s.drv.reqQueue, pc := .started false k } }
  else s.goto (.fill r k)

def describe (r : Req) : Desc × Req × Bool := r.describe (s.eng.ring s.nextSlot)

def numbered (r : Req) : Req :=
  { (s.describe r).2.1 with reqNum := s.drv.reqCount + 1, last := s.drv.posts.length + 1 }

def isLast (r : Req) : Bool := (s.describe r).2.2

def fill (r : Req) (k : Caller) : System :=
  { eng := { s.eng with ring := Function.update s.eng.ring s.nextSlot (s.describe r).1 }
    drv := { s.drv with
      ri := s.nextSlot
      reqCount := s.drv.reqCount + 1
      complQueue := if s.isLast r then s.drv.complQueue ++ [s.numbered r] else s.drv.complQueue
      posts := s.drv.posts ++ [(s.nextSlot, r.id)]
      pc := .start s.drv.ri (if s.isLast r then none else some (s.numbered r)) k } }

def start (prev : Word) (more : Option Req) (k : Caller) : System :=
  { eng := { s.eng with ring := Function.update s.eng.ring prev { s.eng.ring prev with proceed := 1 } }
    drv := { s.drv with
      posted := s.drv.posted + 1
      pc := match more with
        | some r => .check r k
        | none => .started true k } }

def started (ok : Bool) (k : Caller) : System :=
  if s.drv.running then s.goto (afterProcess ok k)
  else { s with drv := { s.drv with running := true, pc := .kickTest (.process ok k) } }

/-! ## OSI calls -/

def kickTest (k : Kicker) : System := s.goto (if s.eng.active then afterKick k else .kickActive k)

def kickActive (k : Kicker) : System := { s.goto (.kickWrite k) with eng := { s.eng with active := true } }

def kickWrite (k : Kicker) : System := { s.goto (afterKick k) with eng := { s.eng with pipe := s.eng.pipe + 1 } }

def ackTest : System :=
  s.goto (if !s.eng.active && s.eng.running && s.eng.cur.proceed != 0 then .kickTest .ack else .ackCount)

def ackCount : System := { s with drv := { s.drv with seen := s.eng.done, pc := .ackActive s.eng.nRequests } }

def ackActive (complCount : Word) : System :=
  { s with drv := { s.drv with running := s.eng.active, pc := .completions complCount } }

/-! ## handleIRQ and receiveCmd -/

def completions (complCount : Word) : System :=
  match s.drv.complQueue with
  | [] => s.goto .requests
  | r :: rs =>
    if 0 < (r.reqNum - complCount).toInt then s.goto .requests
    else { s with drv := { s.drv with complQueue := rs, completed := s.drv.completed ++ [r] } }

def requests : System :=
  match s.drv.reqQueue with
  | [] => s.goto .idle
  | r :: rs => { s with drv := { s.drv with reqQueue := rs, pc := .check r .handleIrq } }

def driverStep : System :=
  match s.drv.pc with
  | .idle => s
  | .check r k => s.check r k
  | .fill r k => s.fill r k
  | .start prev more k => s.start prev more k
  | .started ok k => s.started ok k
  | .kickTest k => s.kickTest k
  | .kickActive k => s.kickActive k
  | .kickWrite k => s.kickWrite k
  | .ackTest => s.ackTest
  | .ackCount => s.ackCount
  | .ackActive cc => s.ackActive cc
  | .completions cc => s.completions cc
  | .requests => s.requests

/-- The cases of a step of the driver. -/
inductive Drives : System → Prop
  | idle : s.drv.pc = .idle → Drives s
  | full {r : Req} {k : Caller} : s.drv.pc = .check r k →
      Drives { s with drv := { s.drv with reqQueue := r :: s.drv.reqQueue, pc := .started false k } }
  | free {r : Req} {k : Caller} : s.drv.pc = .check r k → (s.eng.ring s.nextSlot).flags = 0 →
      Drives (s.goto (.fill r k))
  | fill {r : Req} {k : Caller} : s.drv.pc = .fill r k → Drives (s.fill r k)
  | startMore {prev : Word} {r : Req} {k : Caller} : s.drv.pc = .start prev (some r) k →
      Drives (s.start prev (some r) k)
  | startLast {prev : Word} {k : Caller} : s.drv.pc = .start prev none k → Drives (s.start prev none k)
  | runs {ok : Bool} {k : Caller} : s.drv.pc = .started ok k → s.drv.running = true →
      Drives (s.goto (afterKick (.process ok k)))
  | stands {ok : Bool} {k : Caller} : s.drv.pc = .started ok k → s.drv.running = false →
      Drives { s with drv := { s.drv with running := true, pc := .kickTest (.process ok k) } }
  | kicked {k : Kicker} : s.drv.pc = .kickTest k → s.eng.active = true → Drives (s.goto (afterKick k))
  | kick {k : Kicker} : s.drv.pc = .kickTest k → s.eng.active = false → Drives (s.goto (.kickActive k))
  | kickActive {k : Kicker} : s.drv.pc = .kickActive k → Drives (s.kickActive k)
  | kickWrite {k : Kicker} : s.drv.pc = .kickWrite k → Drives (s.kickWrite k)
  | restart : s.drv.pc = .ackTest → Drives (s.goto (.kickTest .ack))
  | noRestart : s.drv.pc = .ackTest → (!s.eng.active && s.eng.running && s.eng.cur.proceed != 0) = false →
      Drives (s.goto .ackCount)
  | ackCount : s.drv.pc = .ackCount → Drives s.ackCount
  | ackActive {cc : Word} : s.drv.pc = .ackActive cc → Drives (s.ackActive cc)
  | completed {cc : Word} : s.drv.pc = .completions cc →
      (∀ r rs, s.drv.complQueue = r :: rs → 0 < (r.reqNum - cc).toInt) → Drives (s.goto .requests)
  | complete {cc : Word} {r : Req} {rs : List Req} : s.drv.pc = .completions cc → s.drv.complQueue = r :: rs →
      ¬ 0 < (r.reqNum - cc).toInt →
      Drives { s with drv := { s.drv with complQueue := rs, completed := s.drv.completed ++ [r] } }
  | requested : s.drv.pc = .requests → s.drv.reqQueue = [] → Drives (s.goto .idle)
  | request {r : Req} {rs : List Req} : s.drv.pc = .requests → s.drv.reqQueue = r :: rs →
      Drives { s with drv := { s.drv with reqQueue := rs, pc := .check r .handleIrq } }

theorem drives : s.Drives s.driverStep := by
  unfold driverStep
  cases hpc : s.drv.pc with
  | idle => exact .idle hpc
  | check r k =>
    simp only [check]
    split
    · exact .full hpc
    · exact .free hpc (not_not.mp ‹_›)
  | fill r k => exact .fill hpc
  | start prev more k =>
    cases more with
    | none => exact .startLast hpc
    | some r => exact .startMore hpc
  | started ok k =>
    simp only [started]
    split
    · exact .runs hpc ‹_›
    · exact .stands hpc (Bool.eq_false_iff.mpr ‹_›)
  | kickTest k =>
    simp only [kickTest]
    split
    · exact .kicked hpc ‹_›
    · exact .kick hpc (Bool.eq_false_iff.mpr ‹_›)
  | kickActive k => exact .kickActive hpc
  | kickWrite k => exact .kickWrite hpc
  | ackTest =>
    simp only [ackTest]
    split
    · exact .restart hpc
    · exact .noRestart hpc (Bool.eq_false_iff.mpr ‹_›)
  | ackCount => exact .ackCount hpc
  | ackActive cc => exact .ackActive hpc
  | completions cc =>
    simp only [completions]
    cases hq : s.drv.complQueue with
    | nil => exact .completed hpc (by simp [hq])
    | cons r rs =>
      simp only
      split
      · refine .completed hpc ?_
        rintro _ _ hq'
        cases hq.symm.trans hq'
        assumption
      · exact .complete hpc hq ‹_›
  | requests =>
    simp only [requests]
    cases hq : s.drv.reqQueue with
    | nil => exact .requested hpc hq
    | cons r rs => exact .request hpc hq

def newReq (cmd : Cmd) (unit block nblks : Word) (buffer : Option (Word → Word × Word)) : Req :=
  { id := s.drv.submitted, cmd := cmd, unit := unit, block := block, buffer := buffer.getD fun _ => (0, 0)
    totalCnt := if buffer.isSome then nblks * 512 else 0, xferCnt := -1, failed := false, reqNum := 0, last := 0 }

def receiveCmd (cmd : Cmd) (unit block nblks : Word) (buffer : Option (Word → Word × Word)) : System :=
  let r := s.newReq cmd unit block nblks buffer
  let drv := { s.drv with submitted := s.drv.submitted + 1 }
  match s.drv.reqQueue with
  | [] => { s with drv := { drv with pc := .check r .receiveCmd } }
  | rs => { s with drv := { drv with reqQueue := rs ++ [r] } }

def handleIrq : System :=
  if s.eng.line then { s.goto .ackTest with eng := { s.eng with line := false } } else s

/-- A step of a thread; events such as an inserted disk raise the line too. -/
inductive Step (c : Config) : System → System → Prop
  | engine (s : System) (a : Answer) : Step c s { s with eng := s.eng.step c a }
  | driver (s : System) : Step c s s.driverStep
  | submit (s : System) (cmd : Cmd) (unit block nblks : Word) (buffer : Option (Word → Word × Word)) :
      s.drv.pc = .idle → Step c s (s.receiveCmd cmd unit block nblks buffer)
  | interrupt (s : System) : s.drv.pc = .idle → Step c s s.handleIrq
  | event (s : System) : Step c s { s with eng := { s.eng with line := true } }

end System

def System.init : System where
  eng :=
    { running := true, active := false, line := false, pipe := 0, reqHead := 0, ringMask := descMask
      ring := fun ind => if ind = 0 then ⟨nopReq, 0, 0, 0⟩ else ⟨0, 0, 0, 0⟩
      nRequests := 0, curDev := -1, iofunc := .dummy, pc := .blocked, proceed := false, vec := [], bytesLeft := 0
      failed := false, calls := 0, trace := [], consumed := [], taken := 0, done := 0 }
  drv :=
    { ri := 0, reqCount := 0, reqQueue := [], complQueue := [], running := false, pc := .idle, submitted := 0
      completed := [], posts := [], posted := 0, seen := 0 }

def Reachable (c : Config) (s : System) : Prop := Relation.ReflTransGen (System.Step c) System.init s

end MacOnLinux.Ablk
