import MacOnLinux.Main.Memory
import Mathlib.Logic.Function.Basic

/-! # The block engine (`drivers/disk/ablk.c`)

The I/O thread, one step for each access to something that others can see. `doWork` is the thread on
its own, from the read of the control pipe to the next one.
-/

namespace MacOnLinux.Ablk

/-! ## Descriptors -/

/-- `ablk_req_head_t`, and `ablk_sg_t` with `buf` at `unit` and `count` at `param`. -/
structure Desc where
  flags : Word
  proceed : Word
  unit : Word
  param : Word
  deriving DecidableEq, Repr

def readReq : Word := 1
def writeReq : Word := 2
def raiseIrq : Word := 4
def sgBuf : Word := 8
def cntrlReqMask : Word := ~~~255
def nopReq : Word := 0x100
def ejectReq : Word := 0x200
def lockdoorReq : Word := 0x300

def has (f m : Word) : Bool := f &&& m ≠ 0

/-! ## Vectors -/

structure Iovec where
  base : Word
  len : Word
  deriving DecidableEq, Repr

def Iovec.bytes (v : Iovec) : List Word :=
  (List.range v.len.toNat).map fun i => v.base + BitVec.ofNat 32 i

def bytes (vec : List Iovec) : List Word := vec.flatMap Iovec.bytes

def total : List Iovec → Nat
  | [] => 0
  | v :: vec => v.len.toNat + total vec

-- for( i=0; ret > 0; i++, ret -= s, count -= s )
def advance : Nat → List Iovec → List Iovec
  | _, [] => []
  | r, v :: vec =>
    let s := min v.len.toNat r
    ⟨v.base + BitVec.ofNat 32 s, v.len - BitVec.ofNat 32 s⟩ :: advance (r - s) vec

def maxIovec : Nat := 32

/-! ## State -/

/-- What `iofunc` points to. No `cntrl_func` returns anything but NULL; a unit of `dmg_open` has NULL
for its `write`. -/
inductive IoFunc where
  | dummy
  | read
  | write
  | null
  deriving DecidableEq, Repr

inductive Act where
  | seek (dev sector : Word)
  | xfer (f : IoFunc) (dev addr : Word)
  | cntrl (dev cmd param : Word)
  deriving DecidableEq, Repr

structure Config where
  mem : Memory
  ndevs : Nat
  fd : Word → Word
  writes : Word → Bool

/-- `devs[unit].bdev->write` or `read`. -/
def Config.func (cfg : Config) (f unit : Word) : IoFunc :=
  if has f writeReq then if cfg.writes unit then .write else .null else .read

inductive Pc where
  | blocked
  | test
  | gather
  | io
  | notify
  | branch
  | clearFlags
  | clearProceed
  | fetch
  | process (f : Word)
  | count
  | fail
  | clearActive
  | raise
  deriving DecidableEq, Repr

/-- `ablk_t`, the line and the locals of `do_work`; the last fields are a record of what was done.
-/
structure Engine where
  running : Bool
  active : Bool
  line : Bool
  pipe : Nat
  reqHead : Word
  ringMask : Word
  ring : Word → Desc
  nRequests : Word
  curDev : Word
  iofunc : IoFunc
  pc : Pc
  proceed : Bool
  vec : List Iovec
  bytesLeft : Word
  failed : Bool
  calls : Nat
  trace : List Act
  consumed : List Desc
  taken : Nat
  done : Nat

/-- What the back end answers, and whether `errno` is `EINTR` then. -/
structure Answer where
  ret : Word
  eintr : Bool
  seekOk : Bool
  deriving DecidableEq, Repr

def nextInd (mask ind : Word) : Word := (ind + 1) &&& mask

namespace Engine

def next (b : Engine) : Word := nextInd b.ringMask b.reqHead

def cur (b : Engine) : Desc := b.ring b.reqHead

def setCur (b : Engine) (d : Desc) : Engine := { b with ring := Function.update b.ring b.reqHead d }

/-! ## do_work -/

-- if( n && (!proceed || n == MAX_IOVEC || !(r->flags & ABLK_SG_BUF)) )
def flushes (b : Engine) : Bool :=
  b.vec ≠ [] ∧ (!b.proceed ∨ b.vec.length = maxIovec ∨ !has (b.ring b.next).flags sgBuf)

def ret (b : Engine) (a : Answer) : Word :=
  if b.iofunc = .dummy then BitVec.ofNat 32 (total b.vec) else a.ret

def moved (b : Engine) (a : Answer) : List Word :=
  if b.iofunc = .dummy then bytes b.vec
  else if 0 ≤ a.ret.toInt then (bytes b.vec).take a.ret.toNat
  else []

def called (b : Engine) (a : Answer) : Engine :=
  { b with
    calls := if b.iofunc = .dummy then b.calls else b.calls + 1
    trace := b.trace ++ (b.moved a).map (.xfer b.iofunc b.curDev) }

def finished (b : Engine) : Engine :=
  { b with
    nRequests := b.nRequests + BitVec.ofNat 32 b.vec.length
    done := b.done + b.vec.length
    pc := .notify }

-- a call of NULL does not come back
def io (b : Engine) (a : Answer) : Engine :=
  if b.iofunc = .null then b
  else if b.ret a = b.bytesLeft then (b.called a).finished
  else if 0 < (b.ret a).toInt then
    { b.called a with vec := advance (b.ret a).toNat b.vec, bytesLeft := b.bytesLeft - b.ret a }
  else if b.ret a ≠ 0 ∧ !a.eintr then { b.called a with pc := .fail }
  else b.called a

def addBuf (cfg : Config) (b : Engine) : Engine :=
  match mphysToLvptr cfg.mem b.cur.unit with
  | some (.ram, lv) =>
    { b with
      vec := b.vec ++ [⟨lv, b.cur.param⟩]
      bytesLeft := b.bytesLeft + b.cur.param
      consumed := b.consumed ++ [b.cur]
      pc := .test }
  | _ => { b with pc := .fail }

def request (cfg : Config) (b : Engine) (f : Word) (a : Answer) : Engine :=
  { b with
    curDev := b.cur.unit
    iofunc := cfg.func f b.cur.unit
    trace := b.trace ++ [.seek b.cur.unit b.cur.param]
    consumed := b.consumed ++ [b.cur]
    pc := if a.seekOk then .count else .fail }

/-- `control_request`, which takes the file descriptor for the index of the device. -/
def control (cfg : Config) (b : Engine) (f : Word) : Engine :=
  let cmd := f &&& cntrlReqMask
  { b with
    curDev := b.cur.unit
    iofunc := .dummy
    trace := b.trace ++ if cmd = nopReq then [] else [.cntrl (cfg.fd b.cur.unit) cmd b.cur.param]
    consumed := b.consumed ++ [b.cur]
    line := b.line || has f raiseIrq
    pc := .count }

def handle (cfg : Config) (b : Engine) (f : Word) (a : Answer) : Engine :=
  if has f sgBuf then b.addBuf cfg
  else if cfg.ndevs ≤ b.cur.unit.toNat then { b with pc := .fail }
  else if has f (readReq ||| writeReq) then b.request cfg f a
  else if has f cntrlReqMask then b.control cfg f
  else { b with curDev := b.cur.unit, pc := .fail }

/-- A step of the I/O thread. The locals of `do_work` are set up when it is entered. -/
def step (cfg : Config) (b : Engine) (a : Answer) : Engine :=
  match b.pc with
  | .blocked =>
    if b.pipe = 0 then b
    else { b with pipe := b.pipe - 1, vec := [], bytesLeft := 0, failed := false, pc := .test }
  | .test => { b with proceed := b.cur.proceed ≠ 0, pc := .gather }
  | .gather => { b with pc := if b.flushes then .io else .branch }
  | .io => b.io a
  | .notify =>
    -- this takes into account the engine stall interrupt
    { b with
      line := b.line || (has b.cur.flags raiseIrq && b.proceed)
      vec := []
      bytesLeft := 0
      pc := .branch }
  | .branch => { b with pc := if b.proceed then .clearFlags else .clearActive }
  | .clearFlags => { b.setCur { b.cur with flags := 0 } with pc := .clearProceed }
  | .clearProceed => { b.setCur { b.cur with proceed := 0 } with pc := .fetch }
  | .fetch => { b with reqHead := b.next, taken := b.taken + 1, pc := .process (b.ring b.next).flags }
  | .process f => b.handle cfg f a
  | .count => { b with nRequests := b.nRequests + 1, done := b.done + 1, pc := .test }
  | .fail => { b with running := false, failed := true, pc := .clearActive }
  | .clearActive => { b with active := false, pc := .raise }
  | .raise => { b with line := true, pc := .blocked }

end Engine

/-! ## The thread on its own -/

/-- A call moves `n` bytes if there are so many, or it fails. -/
inductive Reply where
  | moves (n : Nat)
  | fails (ret : { w : Word // w.toInt < 0 }) (eintr : Bool)

/-- The outcomes of the calls and of the seeks, by the number of earlier ones. -/
structure BackEnd where
  reply : Nat → Reply
  seekOk : Nat → Bool

def maxInt : Nat := 2 ^ 31 - 1

def Reply.ret (r : Reply) (left : Nat) : Word :=
  match r with
  | .moves n => BitVec.ofNat 32 (min n (min left maxInt))
  | .fails ret _ => ret

def Reply.eintr : Reply → Bool
  | .moves _ => false
  | .fails _ eintr => eintr

def BackEnd.answer (e : BackEnd) (b : Engine) : Answer :=
  let r := e.reply b.calls
  ⟨r.ret (total b.vec), r.eintr, e.seekOk b.consumed.length⟩

def BackEnd.step (cfg : Config) (e : BackEnd) (b : Engine) : Engine := b.step cfg (e.answer b)

def doWork (cfg : Config) (e : BackEnd) : Nat → Engine → Option Engine
  | 0, b => if b.pc = .blocked then some b else none
  | n + 1, b => if b.pc = .blocked then some b else doWork cfg e n (e.step cfg b)

end MacOnLinux.Ablk
