import MacOnLinux.Disk.Ablk
import Mathlib.Data.BitVec
import Mathlib.Tactic.Ring
import Mathlib.Tactic.SplitIfs

/-! # Transfers between devices and guest memory

The block ring and the synchronous block I/O (`drivers/disk/ablk.c`), the ethernet rings
(`drivers/net/enet2.c`, `drivers/net/packet.c`) and the DBDMA channels (`drivers/dbdma.c`).
-/

namespace MacOnLinux.Dma

open List BitVec

open Ablk (Iovec Desc Config Engine has bytes)

/-! ## Host buffers -/

/-- A host buffer, its region, and whether the transfer stores to it. -/
structure Access where
  region : Region
  writes : Bool
  vec : Iovec

def Access.Confined (m : Memory) (x : Access) : Prop :=
  (x.region = .rom → x.writes = false) ∧ ∀ p ∈ x.vec.bytes, (m.mapping x.region).holds p = true

instance (m : Memory) (x : Access) : Decidable (x.Confined m) :=
  @instDecidableAnd _ _ inferInstance (List.decidableBAll _ _)

/-! ## Block devices -/

def sgBuf (m : Memory) (write : Bool) (d : Desc) : Option (List Access) :=
  match mphysToLvptr m d.unit with
  | some (.ram, lv) => some [⟨.ram, !write, ⟨lv, d.param⟩⟩]
  | _ => none

structure SyncIo where
  write : Bool
  channel : Word
  ind : Word
  blk : Word
  mphys : Word
  size : Word
  deriving DecidableEq, Repr

def syncIo (c : Config) (q : SyncIo) (seekOk : Bool) : Option (List Access) :=
  if q.channel ≠ 0 ∨ c.ndevs ≤ q.ind.toNat then none
  else match mphysToLvptr c.mem q.mphys with
    | some (.ram, buf) =>
      if (c.fd q.ind).toInt < 0 ∨ !seekOk then none
      else some [⟨.ram, !q.write, ⟨buf, q.size⟩⟩]
    | _ => none

/-! ## Ethernet -/

structure RingEntry where
  buf : Word
  bsize : Word
  psize : Word
  flags : Word
  deriving DecidableEq, Repr

def splitBufferFlag : Word := 1

structure Iface where
  packetPad : Word
  ipPayload : Bool
  deriving DecidableEq, Repr

def iovecSkip (skip : Word) : List Iovec → List Iovec
  | [] => []
  | v :: vec =>
    if skip.toInt ≤ v.len.toInt then ⟨v.base + skip, v.len - skip⟩ :: vec
    else ⟨v.base, 0⟩ :: iovecSkip (skip - v.len) vec

def addPad (pad : Word) : List Iovec → List Iovec
  | [] => []
  | v :: vec => ⟨v.base - pad, v.len + pad⟩ :: vec

def sendPacket (is : Iface) (intercepted : Bool) (vec : List Iovec) : List Iovec :=
  if intercepted then []
  else
    let vec := if is.packetPad ≠ 0 then addPad is.packetPad vec else vec
    if is.ipPayload then iovecSkip 14 vec else vec

/-- `osip_enet2_kick`, one packet; `r2` is the entry of the overflow ring. -/
def kick (m : Memory) (r r2 : RingEntry) : Option (List Iovec) :=
  if r.psize = 0 then none
  else if translMphys m r.buf = 0 then none
  else if has r.flags splitBufferFlag then
    if translMphys m r2.buf = 0 then none
    else some [⟨translMphys m r.buf, r.psize⟩, ⟨translMphys m r2.buf, r2.psize⟩]
  else some [⟨translMphys m r.buf, r.psize⟩]

def prepareIovec (m : Memory) (r r2 : RingEntry) (pad : Word) : Option (List Iovec) :=
  if r.bsize = 0 ∨ translMphys m r.buf = 0 then none
  else if has r.flags splitBufferFlag then
    if translMphys m r2.buf = 0 then none
    else some [⟨translMphys m r.buf - pad, r.bsize + pad⟩, ⟨translMphys m r2.buf, r2.bsize⟩]
  else some [⟨translMphys m r.buf - pad, r.bsize + pad⟩]

/-- Where `memcpy_tovec` copies to. -/
def memcpyTovec (len : Word) : List Iovec → List Iovec
  | [] => []
  | v :: vec =>
    if len = 0 then []
    else
      let s := if len < v.len then len else v.len
      ⟨v.base, s⟩ :: memcpyTovec (len - s) vec

/-! ## DBDMA -/

structure DbdmaCmd where
  reqCount : BitVec 16
  command : BitVec 16
  phyAddr : Word
  deriving DecidableEq, Repr

structure IoState where
  reqCount : Nat
  resCount : Nat
  key : BitVec 16
  isLast : Bool
  buf : Word
  deriving DecidableEq, Repr

def keyStream3 : BitVec 16 := 0x300

def startInput (m : Memory) (key : BitVec 16) (mphys : Word) (reqCount : Nat) (isLast : Bool) : Option IoState :=
  if translMphys m mphys = 0 ∨ keyStream3 < key then none
  else some ⟨reqCount, 0, key, isLast, translMphys m mphys⟩

def startOutput (m : Memory) (key : BitVec 16) (mphys : Word) (reqCount : Nat) (isLast : Bool) : Option IoState :=
  if translRoMphys m mphys = 0 ∨ keyStream3 < key then none
  else some ⟨reqCount, 0, key, isLast, translRoMphys m mphys⟩

inductive DbdmaOp where
  | outputMore
  | outputLast
  | inputMore
  | inputLast
  deriving DecidableEq, Repr

def DbdmaCmd.op (cmd : DbdmaCmd) : Option DbdmaOp :=
  let c := cmd.command &&& 0xf000
  if c = 0x0000 then some .outputMore
  else if c = 0x1000 then some .outputLast
  else if c = 0x2000 then some .inputMore
  else if c = 0x3000 then some .inputLast
  else none

def DbdmaCmd.key (cmd : DbdmaCmd) : BitVec 16 := cmd.command &&& 0x700

/-- For these commands: whether the transfer stores to memory, and its state. -/
def startCmd (m : Memory) (cmd : DbdmaCmd) : Option (Bool × IoState) :=
  match cmd.op with
  | none => none
  | some op =>
    if cmd.key = 0x400 then none
    else match op with
      | .outputMore => (startOutput m cmd.key cmd.phyAddr cmd.reqCount.toNat false).map (false, ·)
      | .outputLast => (startOutput m cmd.key cmd.phyAddr cmd.reqCount.toNat true).map (false, ·)
      | .inputMore => (startInput m cmd.key cmd.phyAddr cmd.reqCount.toNat false).map (true, ·)
      | .inputLast => (startInput m cmd.key cmd.phyAddr cmd.reqCount.toNat true).map (true, ·)

/-- The buffer that `dma_read_req` hands out and that `dma_write_ack` copies to. -/
def IoState.vec (io : IoState) : Iovec := ⟨io.buf, BitVec.ofNat 32 io.reqCount⟩

/-- `dma_write_ack` with `len` bytes: where they are copied to, and the state then. -/
def dmaWriteAck (io : IoState) (len : Nat) : Iovec × IoState :=
  let len := if io.reqCount < io.resCount + len then io.reqCount - io.resCount else len
  (⟨io.buf + BitVec.ofNat 32 io.resCount, BitVec.ofNat 32 len⟩, { io with resCount := io.resCount + len })

/-! ## The transfers -/

structure Machine where
  cfg : Config
  iface : Iface

inductive Transfer where
  | sgBuf (write : Bool) (d : Desc)
  | syncIo (q : SyncIo) (seekOk : Bool)
  | tx (r r2 : RingEntry) (intercepted : Bool)
  | rx (r r2 : RingEntry)
  | inject (r r2 : RingEntry) (len : Word)
  | dbdma (cmd : DbdmaCmd)

def roRegion (m : Memory) (mphys : Word) : Region := if m.ram.covers mphys then .ram else .rom

/-- The host buffers that are passed on if the descriptor is accepted. -/
def Transfer.accesses (e : Machine) : Transfer → Option (List Access)
  | .sgBuf write d => Dma.sgBuf e.cfg.mem write d
  | .syncIo q seekOk => Dma.syncIo e.cfg q seekOk
  | .tx r r2 intercepted =>
    (kick e.cfg.mem r r2).map fun vec => (vec ++ sendPacket e.iface intercepted vec).map (⟨.ram, false, ·⟩)
  | .rx r r2 =>
    if r.psize ≠ 0 then none
    else (prepareIovec e.cfg.mem r r2 e.iface.packetPad).map fun vec => vec.map (⟨.ram, true, ·⟩)
  | .inject r r2 len =>
    if r.psize ≠ 0 then none
    else (prepareIovec e.cfg.mem r r2 0).map fun vec => (memcpyTovec len vec).map (⟨.ram, true, ·⟩)
  | .dbdma cmd =>
    (startCmd e.cfg.mem cmd).map fun (writes, io) =>
      [⟨if writes then .ram else roRegion e.cfg.mem cmd.phyAddr, writes, io.vec⟩]

/-! ## Guest buffers -/

def Spans (m : Mapping) (v : Iovec) : Prop :=
  v.len = 0 ∨ (v.base - m.mbase).toNat + v.len.toNat ≤ m.size.toNat

instance (m : Mapping) (v : Iovec) : Decidable (Spans m v) := inferInstanceAs (Decidable (_ ∨ _))

def hostVec (m : Mapping) (v : Iovec) : Iovec := ⟨v.base + (m.lvbase - m.mbase), v.len⟩

def txVec (r r2 : RingEntry) : List Iovec :=
  ⟨r.buf, r.psize⟩ :: if has r.flags splitBufferFlag then [⟨r2.buf, r2.psize⟩] else []

def rxVec (r r2 : RingEntry) (pad : Word) : List Iovec :=
  ⟨r.buf - pad, r.bsize + pad⟩ :: if has r.flags splitBufferFlag then [⟨r2.buf, r2.bsize⟩] else []

def DbdmaCmd.isInput (cmd : DbdmaCmd) : Bool := cmd.op = some .inputMore ∨ cmd.op = some .inputLast

def Transfer.writes : Transfer → Bool
  | .sgBuf write _ => !write
  | .syncIo q _ => !q.write
  | .tx _ _ _ => false
  | .rx _ _ | .inject _ _ _ => true
  | .dbdma cmd => cmd.isInput

def Transfer.guest (e : Machine) : Transfer → List (Region × Iovec)
  | .sgBuf _ d => [(.ram, ⟨d.unit, d.param⟩)]
  | .syncIo q _ => [(.ram, ⟨q.mphys, q.size⟩)]
  | .tx r r2 intercepted => (txVec r r2 ++ sendPacket e.iface intercepted (txVec r r2)).map (.ram, ·)
  | .rx r r2 => (rxVec r r2 e.iface.packetPad).map (.ram, ·)
  | .inject r r2 len => (memcpyTovec len (rxVec r r2 0)).map (.ram, ·)
  | .dbdma cmd =>
    [(if cmd.isInput then .ram else roRegion e.cfg.mem cmd.phyAddr, ⟨cmd.phyAddr, cmd.reqCount.setWidth 32⟩)]

/-- Each buffer is inside the region that it starts in. -/
def Transfer.Fits (e : Machine) (t : Transfer) : Prop := ∀ g ∈ t.guest e, Spans (e.cfg.mem.mapping g.1) g.2

instance (e : Machine) (t : Transfer) : Decidable (t.Fits e) := inferInstanceAs (Decidable (∀ g ∈ _, _))

variable {m : Memory} {e : Machine} {t : Transfer} {l : List Access} {v : Iovec} {vec : List Iovec} {r r2 : RingEntry}

variable {n : Nat} {mphys : Word} {key : BitVec 16} {isLast : Bool} {io : IoState} {p : Mapping}

theorem lvptr_eq (p : Mapping) (mphys : Word) : p.lvptr mphys = mphys + (p.lvbase - p.mbase) := by
  rw [Mapping.lvptr]
  ring

theorem forall_lt_iff {off size : Word} :
    (∀ i < n, (off + BitVec.ofNat 32 i) < size) ↔ n = 0 ∨ off.toNat + n ≤ size.toNat := by
  constructor
  · intro h
    by_contra hcon
    have hend := h (size.toNat - off.toNat) (by omega)
    simp only [lt_def, toNat_add, toNat_ofNat] at hend
    omega
  · rintro (rfl | hle) i hi
    · exact absurd hi (Nat.not_lt_zero i)
    · simp only [lt_def, toNat_add, toNat_ofNat]
      omega

theorem hostVec_inside (p : Mapping) (v : Iovec) : (∀ x ∈ (hostVec p v).bytes, p.holds x = true) ↔ Spans p v := by
  have hoff (i : Nat) : v.base + (p.lvbase - p.mbase) + BitVec.ofNat 32 i - p.lvbase =
    v.base - p.mbase + BitVec.ofNat 32 i := by
    ring
  have hlen : v.len.toNat = 0 ↔ v.len = 0 := toNat_inj (y := 0)
  simp [Iovec.bytes, hostVec, mem_map, mem_range, forall_exists_index, and_imp, Mapping.holds, hoff,
    decide_eq_true_eq, forall_lt_iff, Spans, hlen]

/-! ## From the guest buffers to the host buffers -/

theorem iovecSkip_host (skip : Word) (vec : List Iovec) :
    iovecSkip skip (vec.map (hostVec p)) = (iovecSkip skip vec).map (hostVec p) := by
  induction vec generalizing skip with
  | nil => rfl
  | cons v vec ih =>
    simp only [map_cons, iovecSkip, hostVec]
    split
    · congr 1
      simp only [hostVec, Iovec.mk.injEq, and_true]
      ring
    · rw [ih]
      rfl

theorem addPad_host (pad : Word) (vec : List Iovec) :
    addPad pad (vec.map (hostVec p)) = (addPad pad vec).map (hostVec p) := by
  cases vec with
  | nil => rfl
  | cons v vec =>
    simp only [map_cons, addPad, hostVec]
    congr 2
    ring

theorem memcpyTovec_host (len : Word) (vec : List Iovec) :
    memcpyTovec len (vec.map (hostVec p)) = (memcpyTovec len vec).map (hostVec p) := by
  induction vec generalizing len with
  | nil => rfl
  | cons v vec ih =>
    simp only [map_cons, memcpyTovec]
    split
    · rfl
    · rw [map_cons, ← ih]
      rfl

theorem sendPacket_host (is : Iface) (intercepted : Bool) (vec : List Iovec) :
    sendPacket is intercepted (vec.map (hostVec p)) = (sendPacket is intercepted vec).map (hostVec p) := by
  unfold sendPacket
  split
  · rfl
  · split <;> split <;> simp only [addPad_host, iovecSkip_host]

theorem translMphys_host (h : translMphys m mphys ≠ 0) : translMphys m mphys = mphys +
    (m.ram.lvbase - m.ram.mbase) := by
  unfold translMphys at h ⊢
  split_ifs at h with hc
  · rw [if_pos hc, lvptr_eq]
  · exact absurd rfl h

theorem translRoMphys_host (h : translRoMphys m mphys ≠ 0) :
    translRoMphys m mphys = mphys + ((m.mapping (roRegion m mphys)).lvbase - (m.mapping (roRegion m mphys)).mbase) := by
  unfold translRoMphys at h ⊢
  unfold roRegion
  split at h
  · rename_i hc
    rw [if_pos hc, if_pos hc, lvptr_eq]
    rfl
  · rename_i hc
    split_ifs at h with hrom
    · rw [if_neg hc, if_pos hrom, if_neg hc, lvptr_eq]
      rfl
    · exact absurd rfl h

theorem mphysToLvptr_ram {lv : Word} (h : mphysToLvptr m mphys = some (.ram, lv)) :
    lv = mphys + (m.ram.lvbase - m.ram.mbase) := by
  unfold mphysToLvptr at h
  split at h
  · cases h
    exact lvptr_eq _ _
  · split at h <;> cases h

theorem kick_host (h : kick m r r2 = some vec) : vec = (txVec r r2).map (hostVec m.ram) := by
  unfold kick at h
  split_ifs at h with hsize hbuf hsplit hbuf2
  · cases h
    simp [txVec, hsplit, map_nil, hostVec, translMphys_host hbuf, translMphys_host hbuf2]
  · cases h
    simp only [txVec, hsplit, translMphys_host hbuf]
    rfl

theorem prepareIovec_host {pad : Word} (h : prepareIovec m r r2 pad = some vec) :
    vec = (rxVec r r2 pad).map (hostVec m.ram) := by
  have hpad (x y : Word) : x + y - pad = x - pad + y := by ring
  unfold prepareIovec at h
  split_ifs at h with hbuf hsplit hbuf2
  · cases h
    have hbuf' := (not_or.mp hbuf).2
    simp [rxVec, hsplit, map_nil, hostVec, translMphys_host hbuf', translMphys_host hbuf2,
      hpad]
  · cases h
    have hbuf' := (not_or.mp hbuf).2
    simp only [rxVec, hsplit, translMphys_host hbuf', hpad]
    rfl

theorem startInput_host (h : startInput m key mphys n isLast = some io) : io.vec = hostVec m.ram
    ⟨mphys, BitVec.ofNat 32 n⟩ := by
  unfold startInput at h
  split_ifs at h with hbuf
  cases h
  simp [IoState.vec, hostVec, translMphys_host (not_or.mp hbuf).1]

theorem startOutput_host (h : startOutput m key mphys n isLast = some io) :
    io.vec = hostVec (m.mapping (roRegion m mphys)) ⟨mphys, BitVec.ofNat 32 n⟩ := by
  unfold startOutput at h
  split_ifs at h with hbuf
  cases h
  simp [IoState.vec, hostVec, translRoMphys_host (not_or.mp hbuf).1]

theorem startCmd_host {cmd : DbdmaCmd} {writes : Bool} (h : startCmd m cmd = some (writes, io)) :
    writes = cmd.isInput ∧
      io.vec = hostVec (m.mapping (if cmd.isInput then .ram else roRegion m cmd.phyAddr))
        ⟨cmd.phyAddr, cmd.reqCount.setWidth 32⟩ := by
  have hlen : BitVec.ofNat 32 cmd.reqCount.toNat = cmd.reqCount.setWidth 32 := BitVec.ofNat_toNat 32 cmd.reqCount
  unfold startCmd at h
  cases hop : cmd.op with
  | none => simp only [hop] at h; cases h
  | some op =>
    simp only [hop] at h
    split at h
    · cases h
    cases op with
    | outputMore | outputLast =>
      obtain ⟨io', hio, heq⟩ := Option.map_eq_some_iff.mp h
      cases heq
      have hin : cmd.isInput = false := by simp [DbdmaCmd.isInput, hop]
      rw [hin, ← hlen]
      exact ⟨rfl, startOutput_host hio⟩
    | inputMore | inputLast =>
      obtain ⟨io', hio, heq⟩ := Option.map_eq_some_iff.mp h
      cases heq
      have hin : cmd.isInput = true := by simp [DbdmaCmd.isInput, hop]
      rw [hin, ← hlen]
      exact ⟨rfl, startInput_host hio⟩

theorem accesses_eq (h : t.accesses e = some l) :
    l = (t.guest e).map fun g => ⟨g.1, t.writes, hostVec (e.cfg.mem.mapping g.1) g.2⟩ := by
  cases t with
  | sgBuf write d =>
    simp only [Transfer.accesses, sgBuf] at h
    split at h
    · rename_i lv hlv
      cases h
      simp [Transfer.guest, Transfer.writes, map_nil, hostVec, mphysToLvptr_ram hlv, Memory.mapping]
    · cases h
  | syncIo q seekOk =>
    simp only [Transfer.accesses, syncIo] at h
    split at h
    · cases h
    split at h
    · rename_i buf hbuf
      split at h
      · cases h
      · cases h
        simp [Transfer.guest, Transfer.writes, map_nil, hostVec, mphysToLvptr_ram hbuf, Memory.mapping]
    · cases h
  | tx r r2 intercepted =>
    obtain ⟨vec, hvec, rfl⟩ := Option.map_eq_some_iff.mp h
    rw [kick_host hvec, sendPacket_host, ← map_append, map_map, Transfer.guest, map_map]
    rfl
  | rx r r2 =>
    simp only [Transfer.accesses] at h
    split at h
    · cases h
    obtain ⟨vec, hvec, rfl⟩ := Option.map_eq_some_iff.mp h
    rw [prepareIovec_host hvec, map_map, Transfer.guest, map_map]
    rfl
  | inject r r2 len =>
    simp only [Transfer.accesses] at h
    split at h
    · cases h
    obtain ⟨vec, hvec, rfl⟩ := Option.map_eq_some_iff.mp h
    rw [prepareIovec_host hvec, memcpyTovec_host, map_map, Transfer.guest, map_map]
    rfl
  | dbdma cmd =>
    obtain ⟨⟨writes, io⟩, hio, rfl⟩ := Option.map_eq_some_iff.mp h
    obtain ⟨rfl, hvec⟩ := startCmd_host hio
    simp [Transfer.guest, Transfer.writes, map_nil, hvec]

theorem guest_region {g : Region × Iovec} (h : g ∈ t.guest e) (hrom : g.1 = .rom) : t.writes = false := by
  have hram (vec : List Iovec) (hg : g ∈ vec.map (Region.ram, ·)) : False := by
    obtain ⟨v, -, rfl⟩ := mem_map.mp hg
    nomatch hrom
  cases t with
  | sgBuf write d | syncIo q seekOk =>
    obtain rfl := mem_singleton.mp h
    nomatch hrom
  | tx r r2 intercepted | rx r r2 | inject r r2 len => exact (hram _ h).elim
  | dbdma cmd =>
    obtain rfl := mem_singleton.mp h
    cases hin : cmd.isInput with
    | false => exact hin
    | true =>
      rw [hin] at hrom
      nomatch hrom

/-! ## Confinement -/

/-- A transfer stays inside the memory iff each buffer ends in the region it starts in. -/
theorem confined_iff_fits (h : t.accesses e = some l) : (∀ x ∈ l, x.Confined e.cfg.mem) ↔ t.Fits e := by
  rw [accesses_eq h]
  constructor
  · intro hconf g hg
    exact (hostVec_inside _ _).mp (hconf _ (mem_map_of_mem hg)).2
  · intro hfits x hx
    obtain ⟨g, hg, rfl⟩ := mem_map.mp hx
    exact ⟨guest_region hg, (hostVec_inside _ _).mpr (hfits g hg)⟩

def smallMachine : Machine := ⟨⟨⟨⟨0, 0x10000, 16⟩, ⟨0, 0, 0⟩⟩, 1, fun _ => 3, fun _ => true⟩, ⟨0, false⟩⟩

theorem confined_of_fits_sgBuf : ∃ l, (Transfer.sgBuf false ⟨Ablk.sgBuf, 0, 8, 8⟩).accesses smallMachine = some l ∧
    ∀ x ∈ l, x.Confined smallMachine.cfg.mem :=
  ⟨_, rfl, (confined_iff_fits (t := .sgBuf false ⟨Ablk.sgBuf, 0, 8, 8⟩) rfl).mpr (by decide)⟩

def overruns : List Transfer :=
  [.sgBuf false ⟨Ablk.sgBuf, 0, 12, 8⟩, .syncIo ⟨false, 0, 0, 0, 12, 8⟩ true, .tx ⟨12, 0, 8, 0⟩ ⟨0, 0, 0, 0⟩ false,
    .rx ⟨12, 8, 0, 0⟩ ⟨0, 0, 0, 0⟩, .inject ⟨12, 8, 0, 0⟩ ⟨0, 0, 0, 0⟩ 8, .dbdma ⟨8, 0x3000, 12⟩, .dbdma ⟨8, 0x1000,
      12⟩]

/-- All of them are accepted and leave the RAM, which ends at 16. -/
theorem overruns_escape : overruns.Forall fun t => ∃ l, t.accesses smallMachine = some l ∧
    ¬ ∀ x ∈ l, x.Confined smallMachine.cfg.mem := by
  refine forall_iff_forall_mem.mpr ?_
  intro t ht
  simp only [overruns, mem_cons, not_mem_nil, or_false] at ht
  obtain rfl | rfl | rfl | rfl | rfl | rfl | rfl := ht <;> exact ⟨_, rfl, by decide⟩

end MacOnLinux.Dma
