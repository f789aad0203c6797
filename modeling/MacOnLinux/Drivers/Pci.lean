import MacOnLinux.Lib.File
import MacOnLinux.Mtable.Code

/-! # PCI configuration space (`drivers/pci.c`) -/

namespace MacOnLinux.Pci

open List Option

/-! ## Registers -/

def readByte {w : Nat} (x : BitVec w) (j : Nat) : Byte := (x >>> (j * 8)).setWidth 8

def insByte {w : Nat} (x : BitVec w) (v : Byte) (j : Nat) : BitVec w :=
  (x &&& ~~~((0xff : Byte).setWidth w <<< (j * 8))) ||| (v.setWidth w <<< (j * 8))

def baseAddressMemMask : Word := ~~~0xf#32
def baseAddressIoMask : Word := ~~~0x3#32
def romAddressMask : Word := ~~~0x7ff#32
def romAddressEnable : Word := 1
def commandIo : BitVec 16 := 1
def commandMemory : BitVec 16 := 2

structure BaseReg where
  r : Word
  oldR : Word
  mask : Word
  mapped : Bool

inductive MapCall where
  | base (reg : Fin 6) (addr : Word) (add : Bool)
  | rom (base : Word) (add : Bool)

/-- `struct pci_device`, without hooks. -/
structure Device where
  addr : Word
  config : List Byte
  romFd : Bool
  romSize : Word
  cmd : BitVec 16
  base : Fin 6 → BaseReg
  rombase : BaseReg
  mapProc : Fin 6 → Bool
  calls : List MapCall

def BaseReg.set (b : BaseReg) (val : Word) : BaseReg :=
  let val := val &&& b.mask
  if b.mask &&& 1 = 1 then { b with r := (val &&& baseAddressIoMask) ||| (b.mask &&& ~~~baseAddressIoMask) }
  else { b with r := (val &&& baseAddressMemMask) ||| (b.mask &&& ~~~baseAddressMemMask) }

def Device.mapAddr (d : Device) (i : Fin 6) : Option Word :=
  let r := (d.base i).r
  if d.cmd &&& commandIo ≠ 0 ∧ r &&& 1 ≠ 0 then some (r &&& baseAddressIoMask)
  else if d.cmd &&& commandMemory ≠ 0 ∧ r &&& 1 = 0 then
    if 0x100000 < r then some (r &&& baseAddressMemMask) else none
  else none

def updateBaseRegister (d : Device) (i : Fin 6) : Device :=
  let br := d.base i
  match d.mapAddr i with
  | none =>
    if br.mapped then
      { d with
        base := Function.update d.base i { br with mapped := false }
        calls := if d.mapProc i then d.calls ++ [.base i 0 false] else d.calls }
    else d
  | some addr =>
    if br.mapped ∧ br.r = br.oldR then d
    else
      { d with
        base := Function.update d.base i { br with oldR := br.r, mapped := true }
        calls := if d.mapProc i then d.calls ++ [.base i addr true] else d.calls }

/-- `old_r` of the ROM register is never set. -/
def updateRom (d : Device) : Device :=
  let rb := d.rombase
  let map := decide (rb.r &&& romAddressEnable ≠ 0) && decide (d.cmd &&& commandMemory ≠ 0)
  let moved := map && rb.mapped && rb.r != rb.oldR
  let calls := if moved then d.calls ++ [.rom 0 false] else d.calls
  let mapped := rb.mapped && !moved
  let calls := if map != mapped then calls ++ [.rom (rb.r &&& romAddressMask) map] else calls
  { d with rombase := { rb with mapped := map }, calls := calls }

def updateBaseRegisters (d : Device) : Device := updateRom ((finRange 6).foldl updateBaseRegister d)

/-! ## Config access -/

inductive Reg where
  | base (i : Fin 6)
  | rom
  | command
  deriving DecidableEq, Repr

def regOf (offs : Nat) : Option Reg :=
  let rr := offs / 4
  if h : 4 ≤ rr ∧ rr ≤ 9 then some (.base ⟨rr - 4, by omega⟩)
  else if rr = 12 then some .rom
  else if offs / 2 = 2 then some .command
  else none

def doWriteConfig (d : Device) (offs : Nat) (val : Byte) : Device :=
  match regOf offs with
  | some (.base i) =>
    { d with base := Function.update d.base i ((d.base i).set (insByte (d.base i).r val (offs % 4))) }
  | some .rom =>
    let r := insByte d.rombase.r val (offs % 4) &&& d.rombase.mask
    { d with rombase := { d.rombase with r := r &&& (romAddressMask ||| romAddressEnable) } }
  | some .command => { d with cmd := insByte d.cmd val (offs % 2) }
  | none => d

def Device.regByte (d : Device) (offs : Nat) : Option Byte :=
  match regOf offs with
  | some (.base i) => some (readByte (d.base i).r (offs % 4))
  | some .rom => some (readByte d.rombase.r (offs % 4))
  | some .command => some (readByte d.cmd (offs % 2))
  | none => none

/-- `do_read_config`; `none` is a value that was not initialised. -/
def doReadConfig (d : Device) (offs : Nat) : Option Byte :=
  if offs < d.config.length then d.config[offs]? else d.regByte offs

def writeLoop (offs : Nat) : Nat → Word → Device → Device
  | 0, _, d => d
  | i + 1, val, d => writeLoop offs i (val >>> 8) (doWriteConfig d (offs + i) (val.setWidth 8))

def readLoop (byte : Nat → Option Byte) (offs len : Nat) : Option Word :=
  (range len).foldlM (fun val i => (byte (offs + i)).map fun b => (val <<< 8) ||| b.setWidth 32) 0

/-! ## The devices -/

abbrev Bus := List Device

def findDevice (bus : Bus) (addr : Word) : Option Device := bus.find? fun d => d.addr = addr

def update (addr : Word) (f : Device → Device) : Bus → Bus
  | [] => []
  | d :: bus => if d.addr = addr then f d :: bus else d :: update addr f bus

def writePciConfig (bus : Bus) (addr : Word) (offs : Nat) (val : Word) (len : Nat) : Bus :=
  update addr (fun d => updateBaseRegisters (writeLoop offs len val d)) bus

def readPciConfig (bus : Bus) (addr : Word) (offs len : Nat) : Option Word :=
  match findDevice bus addr with
  | none => some 0xffffffff
  | some d => readLoop (doReadConfig d) offs len

structure Info where
  vendorId : BitVec 16
  deviceId : BitVec 16
  revision : Byte
  classProg : Byte
  deviceClass : BitVec 16

/-- The header of `add_pci_device`, of length `PCI_BASE_ADDRESS_0`. -/
def header (info : Info) (multi : Bool) : List Byte :=
  [readByte info.vendorId 0, readByte info.vendorId 1, readByte info.deviceId 0, readByte info.deviceId 1,
    0, 0, 0, 0,
    info.revision, info.classProg, readByte info.deviceClass 0, readByte info.deviceClass 1,
    0x08, 0x20, if multi then 0x80 else 0, 0]

def markMulti (d : Device) : Device := { d with config := d.config.modify 0x0e (· ||| 0x80) }

def newDevice (addr : Word) (config : List Byte) : Device where
  addr := addr
  config := config
  romFd := false
  romSize := 0
  cmd := 0
  base := fun _ => ⟨0, 0, 0, false⟩
  rombase := ⟨0, 0, 0, false⟩
  mapProc := fun _ => false
  calls := []

def addPciDevice (addr : Word) (info : Info) (bus : Bus) : Bus :=
  if (findDevice bus addr).isSome then bus
  else if addr &&& 7 ≠ 0 then newDevice addr (header info false) :: update (addr &&& ~~~7) markMulti bus
  else
    let multi := (range 7).any fun i => (findDevice bus (addr + BitVec.ofNat 32 (i + 1))).isSome
    newDevice addr (header info multi) :: bus

def setPciBase (addr : Word) (i : Fin 6) (bmask : Word) (proc : Bool) (bus : Bus) : Bus :=
  update addr (fun d => updateBaseRegisters { d with
    base := Function.update d.base i ({ d.base i with mask := bmask }.set 0)
    mapProc := Function.update d.mapProc i proc }) bus

def makeMask (size : Word) : Word :=
  let b := (((range 32).reverse.map fun i => (1 : Word) <<< i).find? fun b => size &&& b ≠ 0).getD 0
  let b := if size &&& ~~~b ≠ 0 then b <<< 1 else b
  ~~~(b - 1)

def usePciRom (addr : Word) (size : Word) (bus : Bus) : Bus :=
  update addr (fun d =>
    if d.romFd then d
    else updateBaseRegisters { d with
      romFd := true
      romSize := size
      rombase := { d.rombase with mask := makeMask size ||| romAddressEnable } }) bus

/-! ## Assigned addresses -/

def ldLe16 (x : BitVec 16) : BitVec 16 := (readByte x 0).setWidth 16 <<< 8 ||| (readByte x 1).setWidth 16
def ldLe32 (x : Word) : Word :=
  (readByte x 0).setWidth 32 <<< 24 ||| (readByte x 1).setWidth 32 <<< 16 ||| (readByte x 2).setWidth 32 <<< 8 |||
    (readByte x 3).setWidth 32

/-- What `pci_device_loc` says and the property `assigned-addresses`. -/
structure Node where
  loc : Word
  assigned : Option (List Word)

structure Range where
  reg0 : Word
  breg : Word
  deriving DecidableEq, Repr

def Node.ranges (n : Node) : List Range :=
  match n.assigned with
  | none => []
  | some p =>
    if p.length = 0 ∨ p.length % 5 ≠ 0 ∨ n.loc.msb then []
    else (range (p.length / 5)).map fun i => ⟨p.getD (i * 5) 0, p.getD (i * 5 + 2) 0⟩

/-- The two bits of the address space: 1 is I/O, 2 and 3 are memory. -/
def Range.space (g : Range) : Word := (g.reg0 >>> 24) &&& 3

def Range.enable (g : Range) : BitVec 16 := if g.space = 2 then commandMemory else commandIo

def assignRange (addr : Word) (bus : Bus) (g : Range) : Bus :=
  let r := (g.reg0 &&& 0xff).toNat
  let breg :=
    if g.space = 2 then
      if r ≠ 0x30 then g.breg &&& baseAddressMemMask else (g.breg &&& romAddressMask) ||| romAddressEnable
    else g.breg ||| 1
  let bus := if r ≠ 0 then writePciConfig bus addr r (ldLe32 breg) 4 else bus
  let cmd := ldLe16 (((readPciConfig bus addr 4 2).getD 0).setWidth 16)
  let cmd := cmd ||| g.enable
  writePciConfig bus addr 4 ((ldLe16 cmd).setWidth 32) 2

def pciAssignAddresses (tree : List Node) (bus : Bus) : Bus :=
  tree.foldl (fun bus n => n.ranges.foldl (assignRange n.loc) bus) bus

/-! ## Runs -/

def Header : Type := { config : List Byte // 0x10 ≤ config.length }

inductive Op where
  | add (addr : Word) (info : Info)
  | config (addr : Word) (h : Header)
  | setBase (addr : Word) (i : Fin 6) (bmask : Word) (proc : Bool)
  | useRom (addr size : Word)
  | write (addr : Word) (offs : Nat) (val : Word) (len : Nat)
  | assign (tree : List Node)

def step : Op → Bus → Bus
  | .add addr info, bus => addPciDevice addr info bus
  | .config addr h, bus => update addr (fun d => { d with config := h.val }) bus
  | .setBase addr i bmask proc, bus => setPciBase addr i bmask proc bus
  | .useRom addr size, bus => usePciRom addr size bus
  | .write addr offs val len, bus => writePciConfig bus addr offs val len
  | .assign tree, bus => pciAssignAddresses tree bus

def after : List Op → Bus
  | [] => []
  | o :: os => step o (after os)

/-! ## What should be read -/

/-- A call of `write_pci_config` inside one dword. -/
structure Write where
  offs : Nat
  val : Word
  len : Nat
  size : len = 1 ∨ len = 2 ∨ len = 4
  dword : offs % 4 + len ≤ 4

def Write.byte (w : Write) (o : Nat) : Option Byte :=
  if w.offs ≤ o ∧ o < w.offs + w.len then some (readByte w.val (w.len - 1 - (o - w.offs))) else none

def lastWritten : List Write → Nat → Option Byte
  | [], _ => none
  | w :: ws, o => match w.byte o with
    | some v => some v
    | none => lastWritten ws o

def writes (addr : Word) : List Write → Bus → Bus
  | [], bus => bus
  | w :: ws, bus => writePciConfig (writes addr ws bus) addr w.offs w.val w.len

/-- The address bits that are decoded, and the fixed bits of the type. -/
def BaseReg.decoded (b : BaseReg) : Word :=
  b.mask &&& if b.mask &&& 1 = 1 then baseAddressIoMask else baseAddressMemMask
def BaseReg.type (b : BaseReg) : Word :=
  b.mask &&& ~~~(if b.mask &&& 1 = 1 then baseAddressIoMask else baseAddressMemMask)

def BaseReg.romBits (b : BaseReg) : Word := b.mask &&& (romAddressMask ||| romAddressEnable)

/-- What a register keeps of a byte that is written to it. -/
def Device.keeps (d : Device) (offs : Nat) (v : Byte) : Option Byte :=
  match regOf offs with
  | some (.base i) => some (v &&& readByte (d.base i).decoded (offs % 4) ||| readByte (d.base i).type (offs % 4))
  | some .rom => some (v &&& readByte d.rombase.romBits (offs % 4))
  | some .command => some v
  | none => none

def expected (d : Device) (ws : List Write) (offs : Nat) : Option Byte :=
  match lastWritten ws offs with
  | some v => d.keeps offs v
  | none => d.regByte offs

/-- All reads of 1, 2 or 4 bytes of the registers give what was written. -/
def ReadsBack (bus : Bus) (addr : Word) (d : Device) (ws : List Write) : Prop :=
  ∀ offs len, (len = 1 ∨ len = 2 ∨ len = 4) → (∀ i < len, (regOf (offs + i)).isSome) →
    readPciConfig (writes addr ws bus) addr offs len = readLoop (expected d ws) offs len

def rangesAt (tree : List Node) (addr : Word) : List Range :=
  tree.flatMap fun n => if n.loc = addr then n.ranges else []

def BothKinds (tree : List Node) (addr : Word) : Prop :=
  (∃ g ∈ rangesAt tree addr, g.space = 1) ∧ ∃ g ∈ rangesAt tree addr, g.space = 2 ∨ g.space = 3

instance (tree : List Node) (addr : Word) : Decidable (BothKinds tree addr) := inferInstanceAs (Decidable (_ ∧ _))

def EnablesBoth (bus : Bus) (addr : Word) (tree : List Node) : Prop :=
  BothKinds tree addr → ∀ d, findDevice (pciAssignAddresses tree bus) addr = some d →
    d.cmd &&& (commandIo ||| commandMemory) = commandIo ||| commandMemory

def Device.headerCmd (d : Device) : BitVec 16 :=
  (d.config.getD 5 0).setWidth 16 <<< 8 ||| (d.config.getD 4 0).setWidth 16

/-! ## Bytes -/

section Bytes

variable {w : Nat}

theorem getLsbD_readByte (x : BitVec w) (j : Nat) {i : Nat} (hi : i < 8) :
    (readByte x j).getLsbD i = x.getLsbD (j * 8 + i) := by
  simp [readByte, hi]

theorem getLsbD_insByte (x : BitVec w) (v : Byte) (j : Nat) {k : Nat} (hk : k < w) :
    (insByte x v j).getLsbD k = if j * 8 ≤ k ∧ k < j * 8 + 8 then v.getLsbD (k - j * 8) else x.getLsbD k := by
  have hff (i : Nat) : (0xff : Byte).getLsbD i = decide (i < 8) := by
    have hlow : ∀ i < 8, (0xff : Byte).getLsbD i = true := by decide
    by_cases hi : i < 8
    · rw [hlow i hi, decide_eq_true hi]
    · rw [BitVec.getLsbD_of_ge _ _ (not_lt.mp hi), decide_eq_false hi]
  simp only [insByte, BitVec.getLsbD_or, BitVec.getLsbD_and, BitVec.getLsbD_not,
    BitVec.getLsbD_shiftLeft, BitVec.getLsbD_setWidth, hff, hk]
  by_cases hlow : k < j * 8
  · simp [hlow]
  by_cases hin : k < j * 8 + 8
  · have hsub : k - j * 8 < 8 ∧ k - j * 8 < w := by omega
    simp [hlow, hin, hsub]
  · have hsub : ¬ k - j * 8 < 8 := by omega
    have hzero : v.getLsbD (k - j * 8) = false := BitVec.getLsbD_of_ge _ _ (not_lt.mp hsub)
    simp [hsub, hin, hzero]

theorem readByte_insByte (x : BitVec w) (v : Byte) {j j' : Nat} (hj : j' * 8 + 8 ≤ w) :
    readByte (insByte x v j) j' = if j' = j then v else readByte x j' := by
  apply BitVec.eq_of_getLsbD_eq
  intro i hi
  rw [getLsbD_readByte _ _ hi, getLsbD_insByte _ _ _ (by omega)]
  by_cases heq : j' = j
  · subst heq
    have hsub : j' * 8 + i - j' * 8 = i := by omega
    rw [if_pos (by omega), if_pos rfl, hsub]
  · rw [if_neg (by omega), if_neg heq, getLsbD_readByte _ _ hi]

@[simp] theorem readByte_and (x y : BitVec w) (j : Nat) : readByte (x &&& y) j = readByte x j &&& readByte y j := by
  simp [readByte, BitVec.ushiftRight_and_distrib]

@[simp] theorem readByte_or (x y : BitVec w) (j : Nat) : readByte (x ||| y) j = readByte x j ||| readByte y j := by
  simp [readByte, BitVec.ushiftRight_or_distrib]

theorem readByte_ushiftRight (x : BitVec w) (j : Nat) : readByte (x >>> 8) j = readByte x (j + 1) := by
  have hj : (j + 1) * 8 = 8 + j * 8 := by omega
  rw [readByte, readByte, hj, BitVec.shiftRight_add]

end Bytes

theorem BaseReg.set_r (b : BaseReg) (val : Word) : (b.set val).r = val &&& b.decoded ||| b.type := by
  unfold BaseReg.set BaseReg.decoded BaseReg.type
  split <;> simp [BitVec.and_assoc]

@[simp] theorem BaseReg.set_mask (b : BaseReg) (val : Word) : (b.set val).mask = b.mask := by
  unfold BaseReg.set
  split <;> rfl

/-! ## Well-formed devices -/

variable {d d' d'' : Device} {b b' : BaseReg} {o : Nat} {addr a : Word} {bus : Bus}
variable {gs : List Range}

structure Same (d d' : Device) : Prop where
  addr : d'.addr = d.addr
  config : d'.config = d.config
  romFd : d'.romFd = d.romFd
  cmd : d'.cmd = d.cmd
  base : ∀ i, (d'.base i).r = (d.base i).r ∧ (d'.base i).mask = (d.base i).mask
  rombase : d'.rombase.r = d.rombase.r ∧ d'.rombase.mask = d.rombase.mask

theorem Same.refl (d : Device) : Same d d := ⟨rfl, rfl, rfl, rfl, fun _ => ⟨rfl, rfl⟩, rfl, rfl⟩

theorem Same.trans (h : Same d d') (h' : Same d' d'') : Same d d'' where
  addr := h'.addr.trans h.addr
  config := h'.config.trans h.config
  romFd := h'.romFd.trans h.romFd
  cmd := h'.cmd.trans h.cmd
  base := fun i => ⟨(h'.base i).1.trans (h.base i).1, (h'.base i).2.trans (h.base i).2⟩
  rombase := ⟨h'.rombase.1.trans h.rombase.1, h'.rombase.2.trans h.rombase.2⟩

theorem updateBaseRegister_same (d : Device) (i : Fin 6) : Same d (updateBaseRegister d i) := by
  have hbase (b : BaseReg) (hb : b.r = (d.base i).r ∧ b.mask = (d.base i).mask) (i' : Fin 6) :
      (Function.update d.base i b i').r = (d.base i').r ∧ (Function.update d.base i b i').mask = (d.base i').mask := by
    by_cases heq : i' = i
    · subst heq
      simpa using hb
    · simp [heq]
  unfold updateBaseRegister
  simp only
  split
  · split
    · exact ⟨rfl, rfl, rfl, rfl, hbase _ ⟨rfl, rfl⟩, rfl, rfl⟩
    · exact Same.refl d
  · split
    · exact Same.refl d
    · exact ⟨rfl, rfl, rfl, rfl, hbase _ ⟨rfl, rfl⟩, rfl, rfl⟩

theorem updateBaseRegisters_same (d : Device) : Same d (updateBaseRegisters d) := by
  have hfold (is : List (Fin 6)) (e : Device) : Same e (is.foldl updateBaseRegister e) := by
    induction is generalizing e with
    | nil => exact Same.refl e
    | cons i is ih => exact (updateBaseRegister_same e i).trans (ih _)
  exact (hfold _ d).trans ⟨rfl, rfl, rfl, rfl, fun _ => ⟨rfl, rfl⟩, rfl, rfl⟩

structure Ok (d : Device) : Prop where
  config : 0x10 ≤ d.config.length
  base : ∀ i, (d.base i).r = (d.base i).r &&& (d.base i).decoded ||| (d.base i).type
  rom : d.rombase.r = d.rombase.r &&& d.rombase.romBits
  noRom : d.romFd = false → d.rombase.mask = 0

theorem BaseReg.decoded_congr (h : b'.mask = b.mask) : b'.decoded = b.decoded := by
  rw [BaseReg.decoded, BaseReg.decoded, h]

theorem BaseReg.type_congr (h : b'.mask = b.mask) : b'.type = b.type := by
  rw [BaseReg.type, BaseReg.type, h]

theorem BaseReg.romBits_congr (h : b'.mask = b.mask) : b'.romBits = b.romBits := by
  rw [BaseReg.romBits, BaseReg.romBits, h]

theorem Same.ok (h : Same d d') (hd : Ok d) : Ok d' where
  config := by
    rw [h.config]
    exact hd.config
  base := fun i => by
    rw [(h.base i).1, BaseReg.decoded_congr (h.base i).2, BaseReg.type_congr (h.base i).2]
    exact hd.base i
  rom := by
    rw [h.rombase.1, BaseReg.romBits_congr h.rombase.2]
    exact hd.rom
  noRom := by
    rw [h.romFd, h.rombase.2]
    exact hd.noRom

theorem Same.regByte (h : Same d d') (o : Nat) : d'.regByte o = d.regByte o := by
  unfold Device.regByte
  rw [h.rombase.1, h.cmd]
  split
  · rw [(h.base _).1]
  all_goals rfl

theorem keeps_congr (hbase : ∀ i, (d'.base i).mask = (d.base i).mask) (hrom : d'.rombase.mask = d.rombase.mask)
    (o : Nat) (v : Byte) : d'.keeps o v = d.keeps o v := by
  unfold Device.keeps
  rw [BaseReg.romBits_congr hrom]
  split
  · rw [BaseReg.decoded_congr (hbase _), BaseReg.type_congr (hbase _)]
  all_goals rfl

/-! ## Writing a byte -/

theorem doWriteConfig_config (d : Device) (o : Nat) (v : Byte) :
    (doWriteConfig d o v).addr = d.addr ∧ (doWriteConfig d o v).config = d.config ∧
    (doWriteConfig d o v).romFd = d.romFd := by
  unfold doWriteConfig
  split <;> exact ⟨rfl, rfl, rfl⟩

theorem doWriteConfig_masks (d : Device) (o : Nat) (v : Byte) :
    (∀ i, ((doWriteConfig d o v).base i).mask = (d.base i).mask) ∧
    (doWriteConfig d o v).rombase.mask = d.rombase.mask := by
  unfold doWriteConfig
  split
  · rename_i i _
    refine ⟨fun i' => ?_, rfl⟩
    by_cases heq : i' = i
    · subst heq
      simp
    · simp [heq]
  all_goals exact ⟨fun _ => rfl, rfl⟩

theorem keep_keep (x a b : Word) : x &&& a ||| b = (x &&& a ||| b) &&& a ||| b := by
  apply BitVec.eq_of_getLsbD_eq
  intro i _
  simp only [BitVec.getLsbD_or, BitVec.getLsbD_and]
  cases x.getLsbD i <;> cases a.getLsbD i <;> cases b.getLsbD i <;> rfl

theorem doWriteConfig_ok (h : Ok d) (o : Nat) (v : Byte) : Ok (doWriteConfig d o v) := by
  obtain ⟨-, hconfig, hfd⟩ := doWriteConfig_config d o v
  obtain ⟨hmask, hrmask⟩ := doWriteConfig_masks d o v
  refine ⟨by rw [hconfig]; exact h.config, ?_, ?_, by rw [hfd, hrmask]; exact h.noRom⟩
  · intro i
    rw [BaseReg.decoded_congr (hmask i), BaseReg.type_congr (hmask i)]
    unfold doWriteConfig
    split
    · rename_i i' _
      by_cases heq : i = i'
      · subst heq
        simp only [Function.update_self, BaseReg.set_r]
        exact keep_keep _ _ _
      · simpa [heq] using h.base i
    all_goals exact h.base i
  · unfold doWriteConfig
    split
    · exact h.rom
    · simp [BaseReg.romBits, BitVec.and_assoc]
    all_goals exact h.rom

theorem regOf_range {reg : Reg} (h : regOf o = some reg) : match reg with
    | .base i => o / 4 = i.val + 4
    | .rom => o / 4 = 12
    | .command => o / 2 = 2 := by
  unfold regOf at h
  dsimp only at h
  split_ifs at h <;> cases h
  · dsimp only
    omega
  · assumption
  · assumption

theorem doWriteConfig_regByte (h : Ok d) (o : Nat) (v : Byte) (o' : Nat) :
    (doWriteConfig d o v).regByte o' = if o' = o then d.keeps o v else d.regByte o' := by
  have hmod (k : Nat) : k % 4 * 8 + 8 ≤ 32 := by omega
  have hmod' (k : Nat) : k % 2 * 8 + 8 ≤ 16 := by omega
  unfold doWriteConfig Device.regByte Device.keeps
  by_cases heq : o' = o
  · subst heq
    rw [if_pos rfl]
    cases hreg : regOf o' with
    | none => rfl
    | some reg =>
      cases reg with
      | base i => simp [BaseReg.set_r, readByte_insByte _ _ (hmod o')]
      | rom => simp [BaseReg.romBits, readByte_insByte _ _ (hmod o'), BitVec.and_assoc]
      | command => simp [readByte_insByte _ _ (hmod' o')]
  · rw [if_neg heq]
    cases hreg : regOf o with
    | none => rfl
    | some reg =>
      have hat := regOf_range hreg
      cases hreg' : regOf o' with
      | none => cases reg <;> rfl
      | some reg' =>
        have hat' := regOf_range hreg'
        cases reg <;> cases reg' <;> dsimp only at hat hat' <;> try rfl
        case base.base i i' =>
          by_cases hi : i' = i
          · subst hi
            have hne : o' % 4 ≠ o % 4 := by omega
            have hold := congrArg (readByte · (o' % 4)) (h.base i')
            simp only [readByte_or, readByte_and] at hold
            simp [BaseReg.set_r, readByte_insByte _ _ (hmod o'), hne, ← hold]
          · simp [hi]
        case rom.rom =>
          have hne : o' % 4 ≠ o % 4 := by omega
          have hold := congrArg (readByte · (o' % 4)) h.rom
          simp only [BaseReg.romBits, readByte_or, readByte_and] at hold
          simp [readByte_insByte _ _ (hmod o'), hne, BitVec.and_assoc, ← hold]
        case command.command =>
          have hne : o' % 2 ≠ o % 2 := by omega
          simp [readByte_insByte _ _ (hmod' o'), hne]

/-! ## Writing -/

structure Wrote (d : Device) (f : Nat → Option Byte) (d' : Device) : Prop where
  addr : d'.addr = d.addr
  config : d'.config = d.config
  ok : Ok d'
  keeps : ∀ o v, d'.keeps o v = d.keeps o v
  regByte : ∀ o, d'.regByte o = match f o with
    | some v => d.keeps o v
    | none => d.regByte o

variable {f g : Nat → Option Byte}

theorem Same.wrote (h : Same d d') (hd : Ok d) : Wrote d (fun _ => none) d' :=
  ⟨h.addr, h.config, h.ok hd, keeps_congr (fun i => (h.base i).2) h.rombase.2, h.regByte⟩

theorem doWriteConfig_wrote (h : Ok d) (o : Nat) (v : Byte) :
    Wrote d (fun o' => if o' = o then some v else none) (doWriteConfig d o v) := by
  obtain ⟨haddr, hconfig, -⟩ := doWriteConfig_config d o v
  obtain ⟨hbase, hrom⟩ := doWriteConfig_masks d o v
  refine ⟨haddr, hconfig, doWriteConfig_ok h o v, keeps_congr hbase hrom, fun o' => ?_⟩
  rw [doWriteConfig_regByte h]
  by_cases heq : o' = o
  · simp [heq]
  · simp [heq]

theorem Wrote.trans (h : Wrote d f d') (h' : Wrote d' g d'') : Wrote d (fun o => (g o).or (f o)) d'' where
  addr := h'.addr.trans h.addr
  config := h'.config.trans h.config
  ok := h'.ok
  keeps := fun o v => (h'.keeps o v).trans (h.keeps o v)
  regByte := fun o => by
    rw [h'.regByte]
    cases hg : g o with
    | some v => simp [h.keeps]
    | none => simpa using h.regByte o

theorem Wrote.congr (h : Wrote d f d') (hfg : ∀ o, g o = f o) : Wrote d g d' :=
  { h with regByte := fun o => by rw [hfg, h.regByte] }

def spread (offs n : Nat) (val : Word) (o : Nat) : Option Byte :=
  if offs ≤ o ∧ o < offs + n then some (readByte val (n - 1 - (o - offs))) else none

theorem writeLoop_wrote (h : Ok d) (offs n : Nat) (val : Word) :
    Wrote d (spread offs n val) (writeLoop offs n val d) := by
  induction n generalizing d val with
  | zero =>
    refine ((Same.refl d).wrote h).congr fun o => if_neg (by omega)
  | succ n ih =>
    have hfirst := doWriteConfig_wrote h (offs + n) (val.setWidth 8)
    refine (hfirst.trans (ih hfirst.ok (val >>> 8))).congr fun o => ?_
    unfold spread
    by_cases hin : offs ≤ o ∧ o < offs + n
    · have hbyte : n - 1 - (o - offs) + 1 = n + 1 - 1 - (o - offs) := by omega
      rw [if_pos hin, if_pos (by omega), readByte_ushiftRight, hbyte]
      rfl
    · rw [if_neg hin, none_or]
      by_cases heq : o = offs + n
      · subst heq
        simp [readByte]
      · rw [if_neg (by omega), if_neg heq]

/-! ## The list of devices -/

theorem findDevice_update {f : Device → Device} (hf : ∀ d, (f d).addr = d.addr) (bus : Bus) (a : Word) :
    findDevice (update addr f bus) a = if a = addr then (findDevice bus a).map f else findDevice bus a := by
  induction bus with
  | nil => simp [update, findDevice]
  | cons d bus ih =>
    unfold findDevice at ih ⊢
    by_cases hd : d.addr = addr
    · by_cases ha : a = addr
      · simp [update, hd, ha, hf]
      · simp [update, hd, ha, hf, Ne.symm ha]
    · by_cases ha : d.addr = a
      · have hne : ¬ a = addr := fun h => hd (ha.trans h)
        simp [update, ha, hne]
      · simp [update, hd, ha, ih]

theorem forall_update {P Q : Device → Prop} {f : Device → Device} (h : ∀ d ∈ bus, P d)
    (hf : ∀ d, d.addr = addr → P d → Q (f d)) (hother : ∀ d, P d → Q d) : ∀ d ∈ update addr f bus, Q d := by
  induction bus with
  | nil => exact nofun
  | cons e bus ih =>
    rw [forall_mem_cons] at h
    rw [update]
    split
    · exact forall_mem_cons.mpr ⟨hf e ‹_› h.1, fun d hd => hother d (h.2 d hd)⟩
    · exact forall_mem_cons.mpr ⟨hother e h.1, ih h.2⟩

def AllOk (bus : Bus) : Prop := ∀ d ∈ bus, Ok d

theorem AllOk.update {f : Device → Device} (h : AllOk bus) (hf : ∀ d, Ok d → Ok (f d)) :
    AllOk (update addr f bus) := forall_update h (fun d _ => hf d) fun _ => id

theorem AllOk.find (h : AllOk bus) (hd : findDevice bus addr = some d) : Ok d :=
  h d (mem_of_find?_eq_some hd)

def writeDevice (offs : Nat) (val : Word) (len : Nat) (d : Device) : Device :=
  updateBaseRegisters (writeLoop offs len val d)

theorem writeDevice_wrote (h : Ok d) (offs : Nat) (val : Word) (len : Nat) :
    Wrote d (spread offs len val) (writeDevice offs val len d) := by
  have hloop := writeLoop_wrote h offs len val
  exact (hloop.trans ((updateBaseRegisters_same _).wrote hloop.ok)).congr fun o => by simp

theorem writeLoop_addr (offs n : Nat) (val : Word) (d : Device) : (writeLoop offs n val d).addr = d.addr := by
  induction n generalizing d val with
  | zero => rfl
  | succ n ih =>
    rw [writeLoop, ih]
    exact (doWriteConfig_config d _ _).1

theorem writeDevice_addr (offs : Nat) (val : Word) (len : Nat) (d : Device) :
    (writeDevice offs val len d).addr = d.addr :=
  ((updateBaseRegisters_same _).addr).trans (writeLoop_addr offs len val d)

theorem findDevice_write (bus : Bus) (addr : Word) (offs : Nat) (val : Word) (len : Nat) (a : Word) :
    findDevice (writePciConfig bus addr offs val len) a =
      if a = addr then (findDevice bus a).map (writeDevice offs val len) else findDevice bus a :=
  findDevice_update (writeDevice_addr offs val len) bus a

theorem AllOk.write (h : AllOk bus) (addr : Word) (offs : Nat) (val : Word) (len : Nat) :
    AllOk (writePciConfig bus addr offs val len) :=
  h.update fun _ hd => (writeDevice_wrote hd offs val len).ok

theorem writes_wrote (hbus : AllOk bus) (hd : findDevice bus addr = some d) (ws : List Write) :
    ∃ d', findDevice (writes addr ws bus) addr = some d' ∧ Wrote d (lastWritten ws) d' := by
  induction ws with
  | nil => exact ⟨d, hd, (Same.refl d).wrote (hbus.find hd)⟩
  | cons w ws ih =>
    obtain ⟨d', hd', hw⟩ := ih
    refine ⟨writeDevice w.offs w.val w.len d', ?_, ?_⟩
    · rw [writes, findDevice_write, if_pos rfl, hd', map_some]
    · refine (hw.trans (writeDevice_wrote hw.ok w.offs w.val w.len)).congr fun o => ?_
      have hbyte : w.byte o = spread w.offs w.len w.val o := rfl
      rw [lastWritten, hbyte]
      cases spread w.offs w.len w.val o <;> rfl

/-! ## Reading -/

theorem readLoop_congr {offs len : Nat} (h : ∀ i < len, f (offs + i) = g (offs + i)) :
    readLoop f offs len = readLoop g offs len := by
  unfold readLoop
  induction len with
  | zero => rfl
  | succ n ih =>
    rw [range_succ, foldlM_append, ih fun i hi => h i (by omega)]
    simp [h n (by omega)]

theorem readLoop_one (f : Nat → Option Byte) (o : Nat) : readLoop f o 1 = (f o).map (·.setWidth 32) := by
  unfold readLoop
  cases hf : f o <;> simp [range_succ, hf]

theorem setWidth_inj {a b : Byte} (h : a.setWidth 32 = b.setWidth 32) : a = b := by
  have hlow := congrArg (fun x : Word => x.setWidth 8) h
  simpa using hlow

/-- The registers read back what was written where the static header does not say otherwise. -/
theorem readsBack_iff (hbus : AllOk bus) (hd : findDevice bus addr = some d) (ws : List Write) :
    ReadsBack bus addr d ws ↔
      ∀ o, (regOf o).isSome → ∀ b, d.config[o]? = some b → expected d ws o = some b := by
  obtain ⟨d', hd', hw⟩ := writes_wrote hbus hd ws
  have hreg (o : Nat) : d'.regByte o = expected d ws o := hw.regByte o
  have hread (o len : Nat) : readPciConfig (writes addr ws bus) addr o len = readLoop (doReadConfig d') o len := by
    rw [readPciConfig, hd']
  constructor
  · intro h o ho b hb
    have hone := h o 1 (.inl rfl) fun i hi => by
      obtain rfl : i = 0 := by omega
      exact ho
    have hlen : o < d.config.length := (List.getElem?_eq_some_iff.mp hb).1
    rw [hread, readLoop_one, readLoop_one, doReadConfig, hw.config, if_pos hlen, hb] at hone
    obtain ⟨b', hb', heq⟩ := map_eq_some_iff.mp hone.symm
    rw [hb', setWidth_inj heq]
  · intro h o len _ hregs
    rw [hread]
    apply readLoop_congr
    intro i hi
    rw [doReadConfig, hw.config]
    split_ifs with hlen
    · rw [getElem?_eq_getElem hlen]
      exact (h (o + i) (hregs i hi) _ (getElem?_eq_getElem hlen)).symm
    · exact hreg (o + i)

/-! ## Assigned addresses -/

theorem eq_of_bytes {x y : BitVec 16} (h0 : readByte x 0 = readByte y 0) (h1 : readByte x 1 = readByte y 1) :
    x = y := by
  apply BitVec.eq_of_getLsbD_eq
  intro i hi
  by_cases hlow : i < 8
  · have hbit := congrArg (·.getLsbD i) h0
    simpa [getLsbD_readByte _ _ hlow] using hbit
  · have hbit := congrArg (·.getLsbD (i - 8)) h1
    have hi8 : i - 8 < 8 := by omega
    have hidx : 1 * 8 + (i - 8) = i := by omega
    simpa [getLsbD_readByte _ _ hi8, hidx] using hbit

theorem readByte_join (hi lo : Byte) :
    readByte (hi.setWidth 16 <<< 8 ||| lo.setWidth 16) 0 = lo ∧
      readByte (hi.setWidth 16 <<< 8 ||| lo.setWidth 16) 1 = hi := by
  constructor
  · apply BitVec.eq_of_getLsbD_eq
    intro i hi'
    rw [getLsbD_readByte _ _ hi']
    simp [hi']
    omega
  · apply BitVec.eq_of_getLsbD_eq
    intro i hi'
    rw [getLsbD_readByte _ _ hi']
    have hlt : 8 + i < 16 := by omega
    simp [hlt]

theorem Wrote.cmd {val : BitVec 16} (h : Wrote d (spread 4 2 ((ldLe16 val).setWidth 32)) d') : d'.cmd = val := by
  obtain ⟨hlow, hhigh⟩ := readByte_join (readByte val 0) (readByte val 1)
  have h4 := h.regByte 4
  have h5 := h.regByte 5
  simp [Device.regByte, Device.keeps, regOf, spread] at h4 h5
  exact eq_of_bytes (h4.trans hhigh) (h5.trans hlow)

theorem readPciConfig_command (hd : findDevice bus addr = some d) (h : Ok d) :
    ldLe16 (((readPciConfig bus addr 4 2).getD 0).setWidth 16) = d.headerCmd := by
  have hlen := h.config
  have hbyte (o : Nat) (ho : o < 16) : doReadConfig d o = some (d.config.getD o 0) := by
    rw [doReadConfig, if_pos (by omega), getD_eq_getElem _ _ (by omega), getElem?_eq_getElem]
  have hread : readPciConfig bus addr 4 2 =
      some ((((0 : Word) <<< 8 ||| (d.config.getD 4 0).setWidth 32) <<< 8) ||| (d.config.getD 5 0).setWidth 32) := by
    rw [readPciConfig, hd]
    simp [readLoop, range_succ, hbyte 4 (by decide), hbyte 5 (by decide)]
  have hcut (a b : Byte) : ((((0 : Word) <<< 8 ||| a.setWidth 32) <<< 8) ||| b.setWidth 32).setWidth 16 =
      a.setWidth 16 <<< 8 ||| b.setWidth 16 := by
    apply BitVec.eq_of_getLsbD_eq
    intro i hi
    simp [hi]
  obtain ⟨hlow, hhigh⟩ := readByte_join (d.config.getD 4 0) (d.config.getD 5 0)
  rw [hread, getD_some, hcut, ldLe16, hlow, hhigh, Device.headerCmd]

theorem findDevice_assignRange (hbus : AllOk bus) (hd : findDevice bus addr = some d) (g : Range) :
    ∃ d', findDevice (assignRange addr bus g) addr = some d' ∧ d'.config = d.config ∧
      d'.cmd = d.headerCmd ||| g.enable := by
  unfold assignRange
  extract_lets r breg bus' cmd cmd'
  have hbus' : ∃ e, findDevice bus' addr = some e ∧ Ok e ∧ e.config = d.config := by
    unfold bus'
    split
    · have hw := writeDevice_wrote (hbus.find hd) r (ldLe32 breg) 4
      refine ⟨_, ?_, hw.ok, hw.config⟩
      rw [findDevice_write, if_pos rfl, hd, map_some]
    · exact ⟨d, hd, hbus.find hd, rfl⟩
  obtain ⟨e, he, hok, hconfig⟩ := hbus'
  have hcmd : cmd = d.headerCmd := by
    rw [show cmd = e.headerCmd from readPciConfig_command he hok, Device.headerCmd, Device.headerCmd, hconfig]
  have hw := writeDevice_wrote hok 4 ((ldLe16 cmd').setWidth 32) 2
  refine ⟨writeDevice 4 ((ldLe16 cmd').setWidth 32) 2 e, ?_, hw.config.trans hconfig, ?_⟩
  · rw [findDevice_write, if_pos rfl, he, map_some]
  · rw [hw.cmd, show cmd' = cmd ||| g.enable from rfl, hcmd]

theorem findDevice_assignRange_ne (ha : a ≠ addr) (g : Range) :
    findDevice (assignRange addr bus g) a = findDevice bus a := by
  unfold assignRange
  extract_lets r breg bus' cmd cmd'
  rw [findDevice_write, if_neg ha]
  unfold bus'
  split
  · rw [findDevice_write, if_neg ha]
  · rfl

theorem AllOk.assignRange (h : AllOk bus) (addr : Word) (g : Range) : AllOk (assignRange addr bus g) := by
  unfold Pci.assignRange
  extract_lets r breg bus' cmd cmd'
  have hbus' : AllOk bus' := by
    unfold bus'
    split
    · exact h.write _ _ _ _
    · exact h
  exact hbus'.write _ _ _ _

theorem AllOk.assignNode (h : AllOk bus) (addr : Word) (gs : List Range) :
    AllOk (gs.foldl (Pci.assignRange addr) bus) := by
  induction gs generalizing bus with
  | nil => exact h
  | cons g gs ih => exact ih (h.assignRange addr g)

theorem AllOk.assign (h : AllOk bus) (tree : List Node) : AllOk (pciAssignAddresses tree bus) := by
  induction tree generalizing bus with
  | nil => exact h
  | cons n tree ih => exact ih (h.assignNode n.loc n.ranges)

/-- The device after a list of ranges: only the last one counts. -/
structure Assigned (d : Device) (gs : List Range) (d' : Device) : Prop where
  config : d'.config = d.config
  cmd : d'.cmd = match gs.getLast? with
    | some g => d.headerCmd ||| g.enable
    | none => d.cmd

theorem Assigned.refl (d : Device) : Assigned d [] d := ⟨rfl, rfl⟩

theorem Assigned.headerCmd (h : Assigned d gs d') : d'.headerCmd = d.headerCmd := by
  rw [Device.headerCmd, Device.headerCmd, h.config]

theorem Assigned.trans {gs' : List Range} (h : Assigned d gs d') (h' : Assigned d' gs' d'') :
    Assigned d (gs ++ gs') d'' := by
  refine ⟨h'.config.trans h.config, ?_⟩
  rw [h'.cmd, h.headerCmd, getLast?_append]
  cases gs'.getLast? with
  | some g => rfl
  | none => simpa using h.cmd

theorem findDevice_assignNode (hbus : AllOk bus) (hd : findDevice bus addr = some d) (gs : List Range) :
    ∃ d', findDevice (gs.foldl (assignRange addr) bus) addr = some d' ∧ Assigned d gs d' := by
  induction gs generalizing bus d with
  | nil => exact ⟨d, hd, Assigned.refl d⟩
  | cons g gs ih =>
    obtain ⟨e, he, hconfig, hcmd⟩ := findDevice_assignRange hbus hd g
    obtain ⟨d', hd', has⟩ := ih (hbus.assignRange addr g) he
    have hone : Assigned d [g] e := ⟨hconfig, hcmd⟩
    exact ⟨d', hd', hone.trans has⟩

theorem findDevice_assignNode_ne (ha : a ≠ addr) (gs : List Range) (bus : Bus) :
    findDevice (gs.foldl (assignRange addr) bus) a = findDevice bus a := by
  induction gs generalizing bus with
  | nil => rfl
  | cons g gs ih => rw [foldl_cons, ih, findDevice_assignRange_ne ha]

theorem findDevice_assign (hbus : AllOk bus) (hd : findDevice bus addr = some d) (tree : List Node) :
    ∃ d', findDevice (pciAssignAddresses tree bus) addr = some d' ∧ Assigned d (rangesAt tree addr) d' := by
  unfold pciAssignAddresses rangesAt
  induction tree generalizing bus d with
  | nil => exact ⟨d, hd, Assigned.refl d⟩
  | cons n tree ih =>
    rw [flatMap_cons]
    have hnode := hbus.assignNode n.loc n.ranges
    by_cases hn : n.loc = addr
    · subst hn
      obtain ⟨e, he, has⟩ := findDevice_assignNode hbus hd n.ranges
      obtain ⟨d', hd', has'⟩ := ih hnode he
      rw [if_pos rfl]
      exact ⟨d', hd', has.trans has'⟩
    · rw [if_neg hn]
      exact ih hnode (by rw [findDevice_assignNode_ne (Ne.symm hn), hd])

theorem enablesBoth_iff (hbus : AllOk bus) (hd : findDevice bus addr = some d) (tree : List Node) :
    EnablesBoth bus addr tree ↔ (BothKinds tree addr → ∀ g, (rangesAt tree addr).getLast? = some g →
        (d.headerCmd ||| g.enable) &&& (commandIo ||| commandMemory) = commandIo ||| commandMemory) := by
  obtain ⟨d', hd', has⟩ := findDevice_assign hbus hd tree
  refine forall_congr' fun hboth => ?_
  obtain ⟨g, hg⟩ : ∃ g, (rangesAt tree addr).getLast? = some g := by
    obtain ⟨⟨g, hg, -⟩, -⟩ := hboth
    exact ⟨_, getLast?_eq_getLast_of_ne_nil (ne_nil_of_mem hg)⟩
  have hcmd : d'.cmd = d.headerCmd ||| g.enable := by rw [has.cmd, hg]
  rw [hg]
  constructor
  · intro h g' hg'
    cases hg'
    rw [← hcmd]
    exact h d' hd'
  · intro h e he
    obtain rfl : d' = e := some_inj.mp (hd'.symm.trans he)
    rw [hcmd]
    exact h g rfl

/-! ## Every run -/

theorem newDevice_ok (addr : Word) {config : List Byte} (h : 0x10 ≤ config.length) : Ok (newDevice addr config) := by
  refine ⟨h, fun i => ?_, ?_, fun _ => rfl⟩
  · simp [newDevice, BaseReg.type]
  · simp [newDevice]

theorem AllOk.step (h : AllOk bus) (o : Op) : AllOk (step o bus) := by
  cases o with
  | add addr info =>
    unfold Pci.step addPciDevice
    simp only
    split
    · exact h
    · split
      · refine forall_mem_cons.mpr ⟨newDevice_ok _ le_rfl, h.update fun e he => ?_⟩
        exact { he with config := by simpa [markMulti] using he.config }
      · exact forall_mem_cons.mpr ⟨newDevice_ok _ le_rfl, h⟩
  | config addr c => exact h.update fun e he => { he with config := c.property }
  | setBase addr i bmask proc =>
    refine h.update fun e he => (updateBaseRegisters_same _).ok { he with base := fun i' => ?_ }
    by_cases heq : i' = i
    · subst heq
      simp only [Function.update_self, BaseReg.decoded_congr (BaseReg.set_mask _ _),
        BaseReg.type_congr (BaseReg.set_mask _ _), BaseReg.set_r]
      exact keep_keep _ _ _
    · simpa [heq] using he.base i'
  | useRom addr size =>
    refine h.update fun e he => ?_
    split
    · exact he
    rename_i hfd
    refine (updateBaseRegisters_same _).ok { he with rom := ?_, noRom := ?_ }
    · have hr := he.rom
      rw [BaseReg.romBits, he.noRom (by simpa using hfd)] at hr
      have hzero : e.rombase.r = 0#32 := by simpa using hr
      simp [hzero]
    · simp
  | write addr offs val len => exact h.write _ _ _ _
  | assign tree => exact h.assign tree

theorem allOk_after (os : List Op) : AllOk (after os) := by
  induction os with
  | nil => exact fun d hd => absurd hd not_mem_nil
  | cons o os ih => exact ih.step o

theorem config_space_iff (os : List Op) (addr : Word) (d : Device) (hd : findDevice (after os) addr = some d)
    (ws : List Write)
    (tree : List Node) :
    (ReadsBack (after os) addr d ws ↔
      ∀ o, (regOf o).isSome → ∀ b, d.config[o]? = some b → expected d ws o = some b) ∧
    (EnablesBoth (after os) addr tree ↔
      (BothKinds tree addr → ∀ g, (rangesAt tree addr).getLast? = some g →
        (d.headerCmd ||| g.enable) &&& (commandIo ||| commandMemory) = commandIo ||| commandMemory)) :=
  ⟨readsBack_iff (allOk_after os) hd ws, enablesBoth_iff (allOk_after os) hd tree⟩

def plainInfo : Info := ⟨0x106b, 0x0e, 0, 0, 0xff00⟩
def plainTree : List Node := [⟨0x80, some [0x01008010, 0, 0x1000, 0, 0x100, 0x02008014, 0, 0x80000000, 0, 0x1000]⟩]

theorem config_space_iff_card : ∃ d, findDevice (after [.add 0x80 plainInfo]) 0x80 = some d ∧
      (ReadsBack (after [.add 0x80 plainInfo]) 0x80 d [] ↔
        ∀ o, (regOf o).isSome → ∀ b, d.config[o]? = some b → expected d [] o = some b) ∧
      (EnablesBoth (after [.add 0x80 plainInfo]) 0x80 plainTree ↔
        (BothKinds plainTree 0x80 → ∀ g, (rangesAt plainTree 0x80).getLast? = some g →
          (d.headerCmd ||| g.enable) &&& (commandIo ||| commandMemory) = commandIo ||| commandMemory)) :=
  ⟨newDevice 0x80 (header plainInfo false), rfl, config_space_iff [.add 0x80 plainInfo] 0x80 _ rfl [] plainTree⟩

/-- A memory enable bit is not read, and of two ranges only the second is enabled. -/
theorem command_not_read : ∃ d, findDevice (after [.add 0x80 plainInfo]) 0x80 = some d ∧
      ¬ ReadsBack (after [.add 0x80 plainInfo]) 0x80 d [⟨4, 0x0200, 2, by decide, by decide⟩] ∧
      ¬ EnablesBoth (after [.add 0x80 plainInfo]) 0x80 plainTree := by
  refine ⟨newDevice 0x80 (header plainInfo false), rfl, fun h => ?_, fun h => ?_⟩
  · exact absurd (h 4 2 (by decide) (by decide)) (by decide)
  · exact absurd (h (by decide) _ rfl) (by decide)

end MacOnLinux.Pci
