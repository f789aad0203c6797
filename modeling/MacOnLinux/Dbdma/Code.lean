import MacOnLinux.Drivers.Dma

/-! # DBDMA channels (`drivers/dbdma.c`)

A channel runs a program of commands in guest memory. A machine step is one entry, one round of the
loop of `process_cmds`, or the way back from an access for which the loop lets go of the lock.
-/

namespace MacOnLinux.Dbdma

open BitVec

open Dma (IoState)

abbrev Byte := BitVec 8

/-! ## Memory, by host addresses -/

abbrev Mem := Word → Byte

def store (mem : Mem) (a : Word) (bytes : List Byte) : Mem :=
  fun x => bytes.getD (x - a).toNat (mem x)

def ldLe16 (mem : Mem) (a : Word) : BitVec 16 := mem (a + 1) ++ mem a

def ldBe32 (mem : Mem) (a : Word) : Word := mem a ++ mem (a + 1) ++ mem (a + 2) ++ mem (a + 3)

def ldLe32 (mem : Mem) (a : Word) : Word := mem (a + 3) ++ mem (a + 2) ++ mem (a + 1) ++ mem a

def byte (w : Word) (n : Nat) : Byte := (w >>> (8 * n)).setWidth 8

def stLe16 (mem : Mem) (a : Word) (v : BitVec 16) : Mem :=
  store mem a [v.setWidth 8, (v >>> 8).setWidth 8]

def stBe32 (mem : Mem) (a : Word) (v : Word) : Mem :=
  store mem a [byte v 3, byte v 2, byte v 1, byte v 0]

/-- `ld_le32` of a register, or the register after `st_le32`; the host has the other byte order. -/
def swap (w : Word) : Word := byte w 0 ++ byte w 1 ++ byte w 2 ++ byte w 3

def readMem (mem : Mem) (a : Word) : Nat → Word
  | 1 => (mem a).setWidth 32
  | 2 => (mem a ++ mem (a + 1)).setWidth 32
  | 4 => ldBe32 mem a
  | _ => 0

def writeMem (mem : Mem) (a data : Word) : Nat → Mem
  | 1 => store mem a [byte data 0]
  | 2 => store mem a [byte data 1, byte data 0]
  | 4 => stBe32 mem a data
  | _ => mem

/-! ## The channel -/

def RUN : BitVec 16 := 0x8000
def PAUSE : BitVec 16 := 0x4000
def FLUSH : BitVec 16 := 0x2000
def WAKE : BitVec 16 := 0x1000
def DEAD : BitVec 16 := 0x0800
def ACTIVE : BitVec 16 := 0x0400
def BT : BitVec 16 := 0x0100

inductive Phase where
  | idling
  | preparing
  | starting
  | inputing
  | outputing
  | finishing
  | ioaccessing
  deriving DecidableEq, Repr

/-- What the channel does, by the number of the command; a record for the statements. -/
inductive Deed where
  | kill (c : Nat)
  /-- An INPUT or OUTPUT command has its count and its buffer. -/
  | start (c req : Nat) (buf : Word)
  /-- For a request made when command `asked` was the current one. -/
  | copy (c asked : Nat) (dest : Word) (bytes : List Byte)
  | take (c asked len : Nat)
  | store (c : Nat)
  | load (c : Nat)
  /-- What `res_count` of the command is in memory then, and whether it is INPUT or OUTPUT there. -/
  | stamp (c : Nat) (residual : BitVec 16) (moves : Bool)
  deriving DecidableEq, Repr

/-- `struct dbdma_channel`; `fetched` and `deeds` are not in the program. -/
structure Channel where
  identifier : Nat
  idle : Bool
  phase : Phase
  status : BitVec 16
  /-- `reg[r_cmdptr]`, as the host reads it. -/
  cmdptrReg : Word
  intrSel : Word
  brSel : Word
  waitSel : Word
  curCmd : Word
  curCmdInRom : Bool
  mayBranch : Bool
  io : IoState
  /-- The commands that were fetched, so the number of the current one. -/
  fetched : Nat
  deeds : List Deed

def Channel.cmdptr (ch : Channel) : Word := swap ch.cmdptrReg

def Channel.has (ch : Channel) (bit : BitVec 16) : Bool := ch.status &&& bit != 0

def Channel.clear (ch : Channel) (bit : BitVec 16) : Channel := { ch with status := ch.status &&& ~~~bit }

def Channel.set (ch : Channel) (bit : BitVec 16) : Channel := { ch with status := ch.status ||| bit }

def Channel.did (ch : Channel) (d : Deed) : Channel := { ch with deeds := d :: ch.deeds }

/-! ### The current command -/

def Channel.command (ch : Channel) (mem : Mem) : BitVec 16 := ldLe16 mem (ch.curCmd + 2)

def opcode (command : BitVec 16) : BitVec 16 := command &&& 0xf000

def isInput (command : BitVec 16) : Bool := opcode command == 0x2000 || opcode command == 0x3000

def isOutput (command : BitVec 16) : Bool := opcode command == 0x0000 || opcode command == 0x1000

/-! ## Ending a command -/

def stampStatus (ch : Channel) (mem : Mem) : Channel × Mem :=
  if ch.idle || ch.curCmdInRom then (ch, mem)
  else
    let cmd := ch.command mem
    let moves := isInput cmd || isOutput cmd
    let resCount := if moves then ch.io.reqCount - ch.io.resCount else 0
    let mem := stLe16 mem (ch.curCmd + 14) ch.status
    let mem := stLe16 mem (ch.curCmd + 12) (BitVec.ofNat 16 resCount)
    (ch.did (.stamp ch.fetched (ldLe16 mem (ch.curCmd + 12)) moves), mem)

def goIdle (ch : Channel) : Channel :=
  { ch with identifier := ch.identifier + 1, phase := .idling, idle := true }

def killChannel (ch : Channel) : Channel :=
  goIdle (((ch.set DEAD).clear ACTIVE).did (.kill ch.fetched))

def selected (reg : Word) (status : BitVec 16) (cmd set clr : BitVec 16) : Bool :=
  let sStatus : Word := (status &&& 0xff).setWidth 32
  let sel := reg &&& 0x0f0f
  let cond := sStatus &&& (sel >>> 16) == sStatus &&& sel
  (cond && (sel != 0 && cmd &&& set != 0)) || (!cond && (sel == 0 && cmd &&& clr != 0))

def conditionalInterrupt (ch : Channel) (mem : Mem) : Bool :=
  let cmd := ch.command mem &&& 0xf000
  selected ch.intrSel ch.status cmd 0x0010 0x0020

def advance (ch : Channel) (mem : Mem) : Channel :=
  let taken := ch.mayBranch && selected ch.brSel ch.status (ch.command mem) 0x0004 0x0008
  let ch := if ch.mayBranch then ch.clear BT else ch
  if taken then { ch with cmdptrReg := ldBe32 mem (ch.curCmd + 8) }.set BT
  else { ch with cmdptrReg := swap (ch.cmdptr + 16) }

def finishCmd (ch : Channel) (mem : Mem) : Option (Channel × Mem) :=
  if selected ch.waitSel ch.status (ch.command mem) 0x0001 0x0002 then none
  else
    let (ch, mem) := stampStatus (advance ch mem) mem
    some ({ ch with phase := .preparing }, mem)

/-! ## Starting a command -/

def prepareCmd (m : Memory) (ch : Channel) : Channel :=
  let next := { ch with fetched := ch.fetched + 1, curCmdInRom := false }
  match mphysToLvptr m ch.cmdptr with
  | none => killChannel next
  | some (region, lvptr) =>
    { next with curCmd := lvptr, curCmdInRom := region = .rom, phase := .starting }

inductive Access where
  | load (len : Nat)
  | store
  deriving DecidableEq, Repr

def accessed (ch : Channel) (mem : Mem) (identifier : Nat) (access : Access) (val : Word) :
    Channel × Mem :=
  if identifier % 2 ^ 32 = ch.identifier % 2 ^ 32 ∧ ch.phase = .ioaccessing then
    match access with
    | .load len =>
      let dep := ldBe32 mem (ch.curCmd + 8)
      let val := if len = 2 then (val <<< 16) + (dep &&& 0xffff)
        else if len = 1 then (val <<< 24) + (dep &&& 0xffffff) else val
      ({ ch.did (.load ch.fetched) with phase := .finishing }, stBe32 mem (ch.curCmd + 8) val)
    | .store => ({ ch with phase := .finishing }, mem)
  else (ch, mem)

def keyRegs : BitVec 16 := 0x500
def keySystem : BitVec 16 := 0x600

/-- `load_word`; the access is there when the lock is released for it. -/
def loadWord (m : Memory) (ch : Channel) (mem : Mem) (key : BitVec 16) (macPhys : Word) (len : Nat) :
    Channel × Mem × Option Access :=
  if key ≠ keySystem then (killChannel ch, mem, none)
  else
    let ch := { ch with phase := .ioaccessing, identifier := ch.identifier + 1 }
    match mphysToLvptr m macPhys with
    | some (_, src) =>
      let (ch, mem) := accessed ch mem ch.identifier (.load len) (readMem mem src len)
      (ch, mem, none)
    | none => (ch, mem, some (.load len))

def storeWord (m : Memory) (ch : Channel) (mem : Mem) (key : BitVec 16) (macPhys data : Word)
    (len : Nat) : Channel × Mem × Option Access :=
  -- a key that is not implemented kills the channel, but nothing returns here
  let ch := if key ≠ keySystem then killChannel ch else ch
  let ch := { ch with phase := .ioaccessing, identifier := ch.identifier + 1 }
  match mphysToLvptr m macPhys with
  | some (.ram, dest) =>
    let (ch, mem) := accessed (ch.did (.store ch.fetched)) (writeMem mem dest data len)
      ch.identifier .store 0
    (ch, mem, none)
  | some (.rom, _) =>
    let (ch, mem) := accessed ch mem ch.identifier .store 0
    (ch, mem, none)
  | none => (ch.did (.store ch.fetched), mem, some .store)

def startInput (m : Memory) (ch : Channel) (key : BitVec 16) (mphys : Word) (reqCount : Nat)
    (isLast : Bool) : Channel :=
  let ch := { ch with io := { ch.io with buf := translMphys m mphys } }
  match Dma.startInput m key mphys reqCount isLast with
  | none => killChannel ch
  | some io =>
    { ch.did (.start ch.fetched io.reqCount io.buf) with io := io, phase := .inputing }

def startOutput (m : Memory) (ch : Channel) (key : BitVec 16) (mphys : Word) (reqCount : Nat)
    (isLast : Bool) : Channel :=
  let ch := { ch with io := { ch.io with buf := translRoMphys m mphys } }
  match Dma.startOutput m key mphys reqCount isLast with
  | none => killChannel ch
  | some io =>
    { ch.did (.start ch.fetched io.reqCount io.buf) with io := io, phase := .outputing }

def startIo (m : Memory) (ch : Channel) (mem : Mem) : Channel :=
  let ch := { ch with mayBranch := true }
  let cmd := ch.command mem
  let key := cmd &&& 0x700
  let reqCount := (ldLe16 mem ch.curCmd).toNat
  let addr := ldLe32 mem (ch.curCmd + 4)
  if key = 0x400 then killChannel ch
  else if isInput cmd then startInput m ch key addr reqCount (opcode cmd = 0x3000)
  else startOutput m ch key addr reqCount (opcode cmd = 0x1000)

def startAccess (m : Memory) (ch : Channel) (mem : Mem) (load : Bool) : Channel × Mem × Option Access :=
  let key := ch.command mem &&& 0x700
  let key := if key < keyRegs then keySystem else key
  let addr := ldLe32 mem (ch.curCmd + 4)
  let reqCount := ldLe16 mem ch.curCmd &&& 7
  let (len, addr) :=
    if reqCount &&& 4 ≠ 0 then (4, addr &&& ~~~3)
    else if reqCount &&& 2 ≠ 0 then (2, addr &&& ~~~1) else (1, addr)
  if load then loadWord m ch mem key addr len
  else
    let value := ldBe32 mem (ch.curCmd + 8)
    let value := if len = 2 then value >>> 16 else if len = 1 then value >>> 24 else value
    storeWord m ch mem key addr value len

/-- The channel and the memory, whether the loop goes on, and an access to a device. -/
def startCmd (m : Memory) (ch : Channel) (mem : Mem) : Channel × Mem × Bool × Option Access :=
  let cmd := ch.command mem
  let ch := { ch.clear WAKE with mayBranch := false }
  if isInput cmd || isOutput cmd then (startIo m ch mem, mem, true, none)
  else if opcode cmd = 0x4000 ∨ opcode cmd = 0x5000 then
    let (ch, mem, access) := startAccess m ch mem (opcode cmd = 0x5000)
    (ch, mem, true, access)
  else if opcode cmd = 0x6000 then
    ({ ch with mayBranch := true, phase := .finishing }, mem, true, none)
  else if opcode cmd = 0x7000 then
    ({ ch.clear ACTIVE with idle := true, phase := .idling }, mem, false, none)
  else (killChannel ch, mem, false, none)

/-! ## Requests -/

/-- `struct dma_write_pb` and `struct dma_read_pb`, with the number of the command. -/
structure Pb where
  io : IoState
  identifier : Nat
  input : Bool
  asked : Nat
  deriving DecidableEq, Repr

def fill (ch : Channel) (input : Bool) : Channel × Pb :=
  let ch := { ch with identifier := ch.identifier + 1 }
  (ch, ⟨ch.io, ch.identifier, input, ch.fetched⟩)

def ioPhase (input : Bool) : Phase := if input then .inputing else .outputing

def accepts (ch : Channel) (pb : Pb) (input : Bool) : Bool :=
  pb.identifier % 2 ^ 32 == ch.identifier % 2 ^ 32 && ch.phase == ioPhase input

def writeAck (ch : Channel) (mem : Mem) (pb : Pb) (buf : List Byte) : Channel × Mem :=
  let (vec, io) := Dma.dmaWriteAck ch.io buf.length
  let bytes := buf.take (io.resCount - ch.io.resCount)
  let mem := store mem vec.base bytes
  let ch := { ch.did (.copy ch.fetched pb.asked vec.base bytes) with io := io }
  (if io.reqCount ≤ io.resCount then { ch with phase := .finishing } else ch, mem)

def readAck (ch : Channel) (pb : Pb) (len : Nat) : Channel :=
  let resCount := if ch.io.reqCount < ch.io.resCount + len then ch.io.reqCount
    else ch.io.resCount + len
  let ch : Channel := { ch.did (.take ch.fetched pb.asked (resCount - ch.io.resCount)) with
    io := { ch.io with resCount := resCount } }
  if ch.io.reqCount ≤ ch.io.resCount then { ch with phase := .finishing } else ch

/-! ## The control register -/

/-- `MASK_INSERT` of a value, after `status_bits_func` has returned `bits`. -/
def newStatus (status : BitVec 16) (v : Word) (bits : Byte) : BitVec 16 :=
  let mask : BitVec 16 := (v >>> 16).setWidth 16
  let status := if mask &&& 0xff ≠ 0 then (status &&& ~~~0xff) ||| bits.setWidth 16 else status
  (v.setWidth 16 &&& mask) ||| (status &&& ~~~mask)

def flush (ch : Channel) (mem : Mem) : Channel × Mem :=
  let (ch, mem) :=
    if ch.has FLUSH && !ch.idle && isInput (ch.command mem) then stampStatus ch mem else (ch, mem)
  (ch.clear FLUSH, mem)

def stopRun (ch : Channel) (mem : Mem) (mask : BitVec 16) : Channel × Mem :=
  if mask &&& RUN ≠ 0 ∧ ch.has RUN = false then
    let ch := ch.clear DEAD
    if ch.idle then (ch, mem)
    else
      let (ch, mem) := stampStatus ch mem
      (goIdle ch, mem)
  else (ch, mem)

def startRun (m : Memory) (ch : Channel) : Channel :=
  if ch.has RUN && ch.idle && !ch.has DEAD then { prepareCmd m ch with idle := false } else ch

/-- `control_write` up to the loop, and whether it comes to that. -/
def controlWrite (m : Memory) (ch : Channel) (mem : Mem) (mask : BitVec 16) : Channel × Mem × Bool :=
  let (ch, mem) := flush ch mem
  let (ch, mem) := stopRun ch mem mask
  let ch := (startRun m ch).clear ACTIVE
  if !ch.idle && !ch.has PAUSE && !ch.has DEAD then (ch.set ACTIVE, mem, true) else (ch, mem, false)

/-! ## The machine -/

inductive After where
  | done
  | request (input : Bool)
  deriving DecidableEq, Repr

structure Holder where
  after : After
  run : Bool
  deriving DecidableEq, Repr

structure Sleeper where
  after : After
  access : Access
  identifier : Nat
  deriving DecidableEq, Repr

/-- `pbs` are the requests that were filled, `spent` those that ended a command. -/
structure Machine where
  ch : Channel
  mem : Mem
  holder : Option Holder
  sleeping : List Sleeper
  pbs : List Pb
  spent : List Nat

inductive Sel where
  | intr
  | br
  | wait
  deriving DecidableEq, Repr

inductive Action where
  /-- A write to the control register; `bits` is what `status_bits_func` returns. -/
  | control (v : Word) (bits : Byte)
  | setCmdptr (v : Word)
  | setSel (reg : Sel) (v : Word)
  | request (input : Bool)
  | writeAck (pb : Pb) (buf : List Byte)
  | readAck (pb : Pb) (len : Nat)
  | sbitsChanged (bits : Byte)
  | guest (mem : Mem)
  | iterate
  /-- The thread with number `i` has done its access, and has read `val`. -/
  | resume (i : Nat) (val : Word)

def Machine.loop (s : Machine) (after : After) : Machine := { s with holder := some ⟨after, true⟩ }

def Machine.fill (s : Machine) (input : Bool) : Machine :=
  { s with ch := (Dbdma.fill s.ch input).1, pbs := (Dbdma.fill s.ch input).2 :: s.pbs }

def Machine.control (m : Memory) (s : Machine) (v : Word) (bits : Byte) : Machine :=
  let ch := { s.ch with status := newStatus s.ch.status v bits }
  let (ch, mem, go) := controlWrite m ch s.mem ((v >>> 16).setWidth 16)
  { s with ch := ch, mem := mem, holder := if go then some ⟨.done, true⟩ else none }

/-- `v` is what `ld_le32` reads of the word that was written. -/
def Machine.setCmdptr (s : Machine) (v : Word) : Machine :=
  -- the old value is stored as it was read, without `ld_le32`
  let reg := if s.ch.status &&& (RUN ||| ACTIVE) ≠ 0 then swap s.ch.cmdptrReg else swap (v &&& ~~~0xf)
  { s with ch := { s.ch with cmdptrReg := reg } }

def Machine.request (s : Machine) (input : Bool) : Machine :=
  if s.ch.has PAUSE then s
  else if s.ch.phase = ioPhase input then s.fill input
  else s.loop (.request input)

def Machine.acked (s : Machine) (pb : Pb) : Machine :=
  if s.ch.phase = .finishing then { s.loop .done with spent := pb.identifier :: s.spent } else s

def Machine.writeAck (s : Machine) (pb : Pb) (buf : List Byte) : Machine :=
  if accepts s.ch pb true then
    let (ch, mem) := Dbdma.writeAck s.ch s.mem pb buf
    { s with ch := ch, mem := mem }.acked pb
  else s

def Machine.readAck (s : Machine) (pb : Pb) (len : Nat) : Machine :=
  if accepts s.ch pb false then { s with ch := Dbdma.readAck s.ch pb len }.acked pb else s

def Machine.sbitsChanged (s : Machine) (bits : Byte) : Machine :=
  let status := (s.ch.status &&& ~~~0xff) ||| bits.setWidth 16
  let changed := status &&& 0xff != s.ch.status &&& 0xff
  { s with
    ch := { s.ch with status := status }, holder := if changed then some ⟨.done, true⟩ else none }

def enter (m : Memory) (s : Machine) : Action → Machine
  | .control v bits => s.control m v bits
  | .setCmdptr v => s.setCmdptr v
  | .setSel .intr v => { s with ch := { s.ch with intrSel := v } }
  | .setSel .br v => { s with ch := { s.ch with brSel := v } }
  | .setSel .wait v => { s with ch := { s.ch with waitSel := v } }
  | .request input => s.request input
  | .writeAck pb buf => s.writeAck pb buf
  | .readAck pb len => s.readAck pb len
  | .sbitsChanged bits => s.sbitsChanged bits
  | _ => s

def iterate (m : Memory) (s : Machine) (h : Holder) : Machine :=
  if h.run && !s.ch.has PAUSE then
    match s.ch.phase with
    | .preparing => { s with ch := prepareCmd m s.ch }
    | .starting =>
      match startCmd m s.ch s.mem with
      | (ch, mem, run, none) => { s with ch := ch, mem := mem, holder := some { h with run := run } }
      | (ch, mem, _, some access) =>
        { s with
          ch := ch, mem := mem, holder := none
          sleeping := s.sleeping ++ [⟨h.after, access, ch.identifier⟩] }
    | .finishing =>
      match finishCmd s.ch s.mem with
      | some (ch, mem) => { s with ch := ch, mem := mem }
      | none => { s with holder := some { h with run := false } }
    | _ => { s with holder := some { h with run := false } }
  else
    let s := { s with holder := none }
    match h.after with
    | .done => s
    | .request input => if s.ch.phase = ioPhase input then s.fill input else s

def Machine.resume (s : Machine) (i : Nat) (val : Word) : Option Machine :=
  match s.holder, s.sleeping[i]? with
  | none, some t =>
    let (ch, mem) := accessed s.ch s.mem t.identifier t.access val
    some { s with
      ch := ch, mem := mem, sleeping := s.sleeping.eraseIdx i, holder := some ⟨t.after, true⟩ }
  | _, _ => none

/-- `none` when the thread would have to wait for the lock. -/
def step (m : Memory) (s : Machine) : Action → Option Machine
  | .guest mem => some { s with mem := mem }
  | .iterate => s.holder.map (iterate m s)
  | .resume i val => s.resume i val
  | a => if s.holder.isNone then some (enter m s a) else none

/-- `allocate_dbdma`, with what the guest finds in memory. -/
def allocated (mem : Mem) : Machine where
  ch := ⟨0, true, .idling, 0, 0, 0, 0, 0, 0, false, false, ⟨0, 0, 0, false, 0⟩, 0, []⟩
  mem := mem
  holder := none
  sleeping := []
  pbs := []
  spent := []

/-! ## Byte orders -/

@[simp] theorem swap_swap (w : Word) : swap (swap w) = w := by
  apply eq_of_getLsbD_eq
  intro i hi
  simp only [swap, byte, getLsbD_append, getLsbD_setWidth, getLsbD_ushiftRight]
  grind

theorem swap_ldBe32 (mem : Mem) (a : Word) : swap (ldBe32 mem a) = ldLe32 mem a := by
  apply eq_of_getLsbD_eq
  intro i hi
  simp only [swap, byte, ldBe32, ldLe32, getLsbD_append, getLsbD_setWidth, getLsbD_ushiftRight]
  grind

theorem ldLe16_stLe16 (mem : Mem) (a : Word) (v : BitVec 16) : ldLe16 (stLe16 mem a v) a = v := by
  have hnext : a + 1 - a = 1 := by ring
  unfold ldLe16 stLe16 store
  rw [hnext, sub_self]
  apply eq_of_getLsbD_eq
  intro i hi
  show (setWidth 8 (v >>> 8) ++ setWidth 8 v).getLsbD i = _
  simp only [getLsbD_append, getLsbD_setWidth, getLsbD_ushiftRight]
  grind

/-! ## What a function leaves alone -/

section Frames

variable (ch : Channel) (mem : Mem)

theorem stampStatus_frame : ∃ deeds, (stampStatus ch mem).1 = { ch with deeds := deeds } := by
  unfold stampStatus
  split
  · exact ⟨_, rfl⟩
  · exact ⟨_, rfl⟩

theorem advance_frame :
    ∃ reg status, advance ch mem = { ch with cmdptrReg := reg, status := status } := by
  have hbt : ∃ status, (if ch.mayBranch then ch.clear BT else ch) = { ch with status := status } := by
    split
    · exact ⟨_, rfl⟩
    · exact ⟨_, rfl⟩
  obtain ⟨status, hbt⟩ := hbt
  unfold advance
  dsimp only
  rw [hbt]
  split
  · exact ⟨_, _, rfl⟩
  · exact ⟨_, _, rfl⟩

theorem finishCmd_eq {ch' : Channel} {mem' : Mem} (hfin : finishCmd ch mem = some (ch', mem')) :
    ch' = { (stampStatus (advance ch mem) mem).1 with phase := .preparing } := by
  unfold finishCmd at hfin
  split at hfin
  · cases hfin
  · exact (Prod.mk.inj (Option.some.inj hfin)).1.symm

theorem flush_frame : ∃ deeds, (flush ch mem).1 = { ch with deeds := deeds }.clear FLUSH := by
  obtain ⟨deeds, hstamp⟩ := stampStatus_frame ch mem
  unfold flush
  dsimp only
  split
  · exact ⟨deeds, by rw [hstamp]⟩
  · exact ⟨ch.deeds, rfl⟩

end Frames

/-! ## Status bits -/

section Bits

variable {ch : Channel} {b b' status : BitVec 16} {v : Word} {bits : Byte}

theorem and_clear (hb : b' &&& b = 0#16) : status &&& ~~~b &&& b' = status &&& b' := by
  apply eq_of_getLsbD_eq
  intro i hi
  have hbit := congrArg (getLsbD · i) hb
  grind

theorem and_set (hb : b' &&& b = 0#16) : (status ||| b) &&& b' = status &&& b' := by
  apply eq_of_getLsbD_eq
  intro i hi
  have hbit := congrArg (getLsbD · i) hb
  grind

theorem has_clear (ch : Channel) (hb : b' &&& b = 0#16) : (ch.clear b).has b' = ch.has b' := by
  unfold Channel.has Channel.clear
  rw [and_clear hb]

theorem has_of_clear (hb : (ch.clear b).has b' = true) : ch.has b' = true := by
  unfold Channel.has Channel.clear at *
  rw [bne_iff_ne] at hb ⊢
  intro hzero
  apply hb
  rw [BitVec.and_assoc, BitVec.and_comm (~~~b), ← BitVec.and_assoc]
  exact (congrArg (· &&& ~~~b) hzero).trans zero_and

theorem has_set (ch : Channel) (hb : b' &&& b = 0#16) : (ch.set b).has b' = ch.has b' := by
  unfold Channel.has Channel.set
  rw [and_set hb]

theorem has_clear_self (ch : Channel) (b : BitVec 16) : (ch.clear b).has b = false := by
  have hzero : ch.status &&& ~~~b &&& b = 0#16 := by
    rw [BitVec.and_assoc, BitVec.and_comm (~~~b)]
    exact (congrArg (ch.status &&& ·) (and_not_self b)).trans BitVec.and_zero
  exact bne_eq_false_iff_eq.mpr hzero

theorem has_set_self (ch : Channel) (hb : b ≠ 0#16) : (ch.set b).has b = true := by
  have hself : (ch.status ||| b) &&& b = b := by
    apply eq_of_getLsbD_eq
    intro i hi
    rw [getLsbD_and, getLsbD_or]
    cases getLsbD b i <;> simp
  unfold Channel.has Channel.set
  rw [hself]
  exact bne_iff_ne.mpr hb

theorem sbits_low (bits : Byte) : bits.setWidth 16 = bits.setWidth 16 &&& (0xff : BitVec 16) := by
  apply eq_of_getLsbD_eq
  intro i hi
  have hmask : ∀ j : Fin 16, getLsbD (0xff : BitVec 16) j = decide (j.val < 8) := by decide
  have hmask := hmask ⟨i, hi⟩
  simp only [getLsbD_and, getLsbD_setWidth] at hmask ⊢
  rw [hmask]
  by_cases hi8 : i < 8
  · simp [hi8]
  · rw [getLsbD_of_ge bits i (by omega)]
    simp

theorem sbits_and (bits : Byte) (hb : b &&& 0xff = 0#16) :
    ((status &&& ~~~0xff) ||| bits.setWidth 16) &&& b = status &&& b := by
  have hzero : bits.setWidth 16 &&& b = 0#16 := by
    rw [sbits_low, BitVec.and_assoc, BitVec.and_comm _ b, hb, BitVec.and_zero]
  rw [BitVec.and_or_distrib_right, and_clear hb, hzero, or_zero]

theorem newStatus_and (hmask : (v >>> 16).setWidth 16 &&& b = 0#16) (hb : b &&& 0xff = 0#16) :
    newStatus status v bits &&& b = status &&& b := by
  have hnew : ∀ w : BitVec 16, ((v.setWidth 16 &&& (v >>> 16).setWidth 16) |||
      (w &&& ~~~(v >>> 16).setWidth 16)) &&& b = w &&& b := by
    intro w
    rw [BitVec.and_or_distrib_right, BitVec.and_assoc, hmask, BitVec.and_zero, BitVec.zero_or]
    exact and_clear ((BitVec.and_comm ..).trans hmask)
  unfold newStatus
  rw [hnew]
  split
  · exact sbits_and bits hb
  · rfl

end Bits

end MacOnLinux.Dbdma
