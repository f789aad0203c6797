import MacOnLinux.Disk.Reserve
import MacOnLinux.Qcow.Code

/-! # Write access to the disks (`drivers/disk/blkdev.c`, `drivers/disk/disk_open.c`)

What the system answers to a call of `disk_open` and to what follows it is a `Host`.
-/

namespace MacOnLinux.Disk

open Option List

/-! ## Flags -/

abbrev Flags := BitVec 32

def bfEnableWrite : Flags := 1
def bfForce : Flags := 2
def bfCdRom : Flags := 4
def bfBoot : Flags := 8
def bfBoot1 : Flags := 16
def bfSubdevice : Flags := 32
def bfIgnore : Flags := 64
def bfWholeDisk : Flags := 256
def bfEncrypted : Flags := 2048

def hasFlag (flags f : Flags) : Bool := flags &&& f != 0

/-! ## The system -/

structure Fd where
  num : Nat
  rdwr : Bool
  deriving DecidableEq, Repr

inductive Errno where
  | erofs
  | other
  deriving DecidableEq, Repr

inductive Flock where
  | ok
  | wouldBlock
  | error
  deriving DecidableEq, Repr

inductive Reader where
  | raw
  | qcow
  | dmg
  deriving DecidableEq, Repr

inductive Writer where
  | raw
  | qcow
  deriving DecidableEq, Repr

/-- What `dmg_open` meets: whether there is memory for its state, the number of chunks that it finds
unless it gives up on the tables, whether there is memory for its buffers, and what zlib says. -/
structure DmgHost where
  state : Bool
  chunks : Option Nat
  buffers : Bool
  inflateInit : Bool

structure Host where
  mounts : Option (List Char)
  open64 : Nat → Bool → Except Errno Nat
  /-- Whether the first bytes can be read, at each attempt. -/
  readable : Nat → Bool
  flock : Flock
  /-- Another process has locked the volume. -/
  locked : Bool
  lock_free : flock = .ok → locked = false
  /-- What `ro_fallback` holds in `open_mac_disk`, which does not set it. -/
  stack : Bool
  memory : Bool
  file : File
  /-- Whether the first block can be read. -/
  pread : Bool
  fileBlocks : Nat
  qcow : Qcow.Host
  dmg : DmgHost
  /-- A read of 512 bytes at a block. -/
  block : Reader → Nat → Option (List Byte)

/-! ## linux_mount_check -/

def fgets (buf : List Char) : List Char → List (List Char)
  | [] => if buf = [] then [] else [buf]
  | c :: cs =>
    let buf := buf ++ [c]
    if c = '\n' ∨ buf.length = 79 then buf :: fgets [] cs else fgets buf cs

def strsep (buf : List Char) : List Char × Option (List Char) :=
  (buf.takeWhile (· ≠ ' '), (buf.dropWhile (· ≠ ' ')).tail?)

def strstr (s needle : List Char) : Bool := s.tails.any needle.isPrefixOf

/-- Whether a line counts as a mount for writing; `none` if a blank is missing. -/
def mountLine (name : Name) (rwall : Bool) (buf : List Char) : Option Bool :=
  let (s1, s2) := strsep buf
  if !devDir.isPrefixOf s1 then some false
  else if s1 = name then s2.map (strstr · [' ', 'r', 'w'])
  else if s1.take 8 = name.take 8 ∧ name.length = 8 then
    -- partial match (/dev/sda for instance)
    s2.map fun s2 => strstr s2 [' ', 'r', 'w'] && (strstr s2 [' ', 'h', 'f', 's', ' '] || rwall)
  else some false

def mountLoop (name : Name) (rwall : Bool) : List (List Char) → Option Bool
  | [] => some false
  | buf :: bufs => do
    if ← mountLine name rwall buf then some true else mountLoop name rwall bufs

def linuxMountCheck (mounts : Option (List Char)) (name : Name) (rwall : Bool) : Option Bool :=
  mountLoop name rwall (fgets [] (mounts.getD []))

/-! ## disk_open -/

inductive Attempt where
  | opened (fd : Fd) (rw : Bool)
  | failed
  | retry

def attempt (h : Host) (n : Nat) (cd roFallback rw : Bool) : Attempt :=
  let (fd, rw) : Option Fd × Bool :=
    match h.open64 (2 * n) rw with
    | .ok k => (some ⟨k, rw⟩, rw)
    | .error e =>
      if e = .erofs ∧ roFallback then ((h.open64 (2 * n + 1) false).toOption.map (⟨·, false⟩), false)
      else (none, rw)
  match fd with
  | none => .failed
  | some fd =>
    if cd then .opened fd rw
    else if !h.readable n then .failed
    else if rw && h.flock = .wouldBlock then (if roFallback then .retry else .failed)
    else .opened fd rw

structure Opened where
  fd : Option Fd
  roFallback : Bool
  devs : List DevEntry

/-- Whether write access is refused, and the list of devices then. -/
def writeCheck (h : Host) (devs : List DevEntry) (name : Name) (rw rwall : Bool) :
    Option (Bool × List DevEntry) :=
  if rw then
    let (clash, devs) := reserveDev devs name
    if clash then some (true, devs) else (linuxMountCheck h.mounts name rwall).map (·, devs)
  else some (false, devs)

def openLoop (h : Host) (cd roFallback rw : Bool) : Attempt :=
  match attempt h 0 cd roFallback rw with
  | .retry => attempt h 1 cd roFallback false
  | a => a

def diskOpen (h : Host) (devs : List DevEntry) (name : Name) (flags : Flags) (roFallback : Bool) :
    Option Opened := do
  let rw := hasFlag flags bfEnableWrite
  let rwall := hasFlag flags bfForce && rw
  let (refused, devs) ← writeCheck h devs name rw rwall
  if refused && !roFallback then some ⟨none, roFallback, devs⟩
  else match openLoop h (hasFlag flags bfCdRom) roFallback (rw && !refused) with
    | .opened fd rw => some ⟨some fd, !rw, devs⟩
    | _ => some ⟨none, roFallback, devs⟩

/-! ## Images -/

structure Bdev where
  fd : Fd
  flags : Flags
  size : Nat
  devName : Name
  volName : Option (List Byte)
  read : Reader
  write : Option Writer

def rawOpen (h : Host) (fd : Fd) (b : Bdev) : Bdev :=
  { b with read := .raw, write := some .raw, size := h.fileBlocks * 512, fd := fd }

/-- What `qcow_open` does to `bdev` before it looks at the tables. Without memory it fails by a null
pointer. -/
def qcowInstall (h : Host) (fd : Fd) (b : Bdev) : Option Bdev :=
  if !h.qcow.malloc 0 then none
  else
    let b := { b with read := .qcow, write := some .qcow, fd := fd }
    match Qcow.checkedHeader h.file with
    | none => some b
    | some header =>
      some { b with
        size := header.size
        flags := if header.cryptMethod ≠ 0 then b.flags &&& bfEncrypted else b.flags }

/-- What `dmg_open` does to `bdev`. -/
def dmgInstall (h : Host) (fd : Fd) (b : Bdev) : Bdev :=
  if !h.dmg.state then b
  else
    let b := { b with fd := fd, read := .dmg, write := none, flags := b.flags &&& ~~~bfEnableWrite }
    match h.dmg.chunks with
    | none => b
    | some n => { b with size := n * 512 }

def be16 (buf : List Byte) (i : Nat) : BitVec 16 := buf.getD i 0 ++ buf.getD (i + 1) 0

inductive ImageType where
  | unknown
  | raw
  | qcow
  | dmg
  deriving DecidableEq, Repr

def moldisk : Name :=
  ['i', 'm', 'a', 'g', 'e', 's', '/', 'm', 'o', 'l', 'd', 'i', 's', 'k', '.', 'd', 'm', 'g']

def moldiskX : Name :=
  ['i', 'm', 'a', 'g', 'e', 's', '/', 'm', 'o', 'l', 'd', 'i', 's', 'k', 'X', '.', 'd', 'm', 'g']

def isDmgName (name : Name) : Bool :=
  4 < name.length && name.drop (name.length - 4) == ['.', 'd', 'm', 'g']

def imageType (h : Host) (name : Name) : ImageType :=
  if !h.pread || h.file.size < 512 then .unknown
  else if moldisk.isPrefixOf name || moldiskX.isPrefixOf name then .raw
  else if h.file.read 0 4 = [0x51, 0x46, 0x49, 0xfb] then .qcow
  else if isDmgName name then .dmg
  else .raw

def findDiskType (h : Host) (fd : Fd) (name : Name) (b : Bdev) : Option (ImageType × Bdev) :=
  let b := rawOpen h fd b
  match imageType h name with
  | .qcow => (qcowInstall h fd b).map (.qcow, ·)
  | .dmg => some (.dmg, dmgInstall h fd b)
  | type => some (type, b)

inductive VolumeType where
  | unknown
  | partitioned
  | hfsPlus
  | hfsx
  | hfs
  deriving DecidableEq, Repr

def ascii (s : List Char) : List Byte := s.map fun c => BitVec.ofNat 8 c.toNat

def volumeName (mdb : List Byte) : List Byte :=
  ((mdb.drop 37).take (mdb.getD 36 0).toNat).takeWhile (· ≠ 0)

def inspectDisk (h : Host) (b : Bdev) (type : ImageType) : VolumeType × Option (List Byte) :=
  if type = .unknown then (.unknown, some (ascii ['-', ' ', 'U', 'n', 'k', 'n', 'o', 'w', 'n', ' ', '-']))
  else match h.block b.read 0 with
    | none => (.unknown, none)
    | some dmap =>
      if be16 dmap 0 = 0x4552 then
        (.partitioned, some (ascii ['-', ' ', 'P', 'a', 'r', 't', 'i', 'o', 'n', 'e', 'd', ' ', '-']))
      else match h.block b.read 2 with
        | none => (.unknown, none)
        | some mdb =>
          let signature := be16 mdb 0
          if signature = 0x482b then (.hfsPlus, none)
          else if signature = 0x4858 then (.hfsx, none)
          else if signature = 0x4244 then
            (if be16 mdb 124 = 0x482b then .hfsPlus else .hfs, some (volumeName mdb))
          else (.unknown, none)

/-! ## Registration -/

def cleared (fd : Fd) : Bdev := ⟨fd, 0, 0, [], none, .raw, none⟩

def registerDisk (b : Bdev) (name : Name) (volName : Option (List Byte)) (fd : Fd) (flags : Flags)
    (blocks : Nat) : Bdev :=
  { b with
    devName := name
    volName := volName
    fd := fd
    flags := b.flags ||| flags
    size := 512 * (blocks % 2 ^ 32) }

def fallbackFlags (flags : Flags) (roFallback : Bool) : Flags :=
  if roFallback then flags &&& ~~~bfEnableWrite else flags

/-- `ret` of `open_mac_disk`, for a disk that is not to be registered. -/
def rejected (type : VolumeType) (b : Bdev) (flags : Flags) (constructed : Bool) : Bool :=
  let kind := match type with
    | .hfsPlus | .hfsx | .hfs => false
    | .partitioned => constructed
    | .unknown => !hasFlag flags bfForce
  let bootstrap := hasFlag flags bfEnableWrite && (type = .hfsPlus || type = .hfs) &&
    b.size / 1024 < 20 * 1024 && !hasFlag flags bfForce
  kind || bootstrap

/-- `open_mac_disk`: the disk, if one is registered, and the list of devices. -/
def openMacDisk (h : Host) (devs : List DevEntry) (name : Name) (flags : Flags) (constructed : Bool) :
    Option (Option Bdev × List DevEntry) := do
  let o ← diskOpen h devs name flags h.stack
  match o.fd with
  | none => some (none, o.devs)
  | some fd =>
    if !h.memory then some (none, o.devs)
    else
      let (type, b) ← findDiskType h fd name (cleared fd)
      let (volume, volName) := inspectDisk h b type
      let flags := fallbackFlags flags o.roFallback
      if rejected volume b flags constructed then some (none, o.devs)
      else some (some (registerDisk b name volName b.fd flags (b.size / 512)), o.devs)

def setupLinuxDisk (h : Host) (devs : List DevEntry) (name : Name) (flags : Flags) :
    Option (Option Bdev × List DevEntry) := do
  let o ← diskOpen h devs name flags false
  match o.fd with
  | none => some (none, o.devs)
  | some fd =>
    let flags := fallbackFlags flags o.roFallback
    some (some (registerDisk (rawOpen h fd (cleared fd)) name none fd flags h.fileBlocks), o.devs)

/-! ## setup_disks -/

structure Call where
  host : Host
  devs : List DevEntry
  name : Name
  flags : Flags
  mac : Option Bool

def Call.run (c : Call) : Option (Option Bdev × List DevEntry) :=
  match c.mac with
  | some constructed => openMacDisk c.host c.devs c.name c.flags constructed
  | none => setupLinuxDisk c.host c.devs c.name c.flags

/-- A disk of the list with the call that registered it, or nothing if it is a CD. -/
structure Registered where
  bdev : Bdev
  call : Option Call

/-- `devs` and `s_all_disks`, with the number of times that `disk_open` was called. -/
structure Blk where
  devs : List DevEntry
  allDisks : List Registered
  opens : Nat

def Blk.open (host : Nat → Host) (s : Blk) (name : Name) (flags : Flags) (mac : Option Bool) : Option Blk := do
  let c : Call := ⟨host s.opens, s.devs, name, flags, mac⟩
  let (bdev, devs) ← c.run
  some {
    devs := devs
    allDisks := (bdev.map (⟨·, some c⟩)).toList ++ s.allDisks
    opens := s.opens + 1 }

def partNames (name : Name) : List Name := (List.range' 1 31).map fun i => name ++ Nat.toDigits 10 i

def devList : List Name := [['/', 'd', 'e', 'v', '/', 's', 'd'], ['/', 'd', 'e', 'v', '/', 'h', 'd']]

def setupMacDisk (host : Nat → Host) (s : Blk) (name : Name) (flags : Flags) : Option Blk :=
  if !hasFlag flags bfWholeDisk && devList.any fun d => d.isPrefixOf name && name.length = d.length + 1 then
    let flags := (flags ||| bfSubdevice) &&& ~~~bfForce
    (partNames name).foldlM (fun s part => s.open host part flags (some true)) s
  else s.open host name flags (some false)

inductive BootType where
  | macVolumes
  | linuxDisks

/-- A CD. The fallback flag stays from one CD to the next. -/
def setupCd (host : Nat → Host) (s : Blk) (roFallback : Bool) (name : Name) (flags : Flags) :
    Option (Blk × Bool) := do
  let flags := flags &&& ~~~bfEnableWrite
  let h := host s.opens
  let o ← diskOpen h s.devs name flags roFallback
  let cd := o.fd.map fun fd =>
    registerDisk (rawOpen h fd (cleared fd)) name (some (ascii ['C', 'D', '/', 'D', 'V', 'D'])) fd flags 0
  some ({
    devs := o.devs
    allDisks := (cd.map (⟨·, none⟩)).toList ++ s.allDisks
    opens := s.opens + 1 }, o.roFallback)

def setupDisk (host : Nat → Host) (type : BootType) (s : Blk) (name : Name) (flags : Flags) : Option Blk :=
  match type with
  | .macVolumes => setupMacDisk host s name flags
  | .linuxDisks => s.open host name flags none

def setupLoop (host : Nat → Host) (type : BootType) : Blk → Bool → List (Name × Flags) → Option Blk
  | s, _, [] => some s
  | s, roFallback, (name, flags) :: entries =>
    if hasFlag flags bfIgnore then setupLoop host type s roFallback entries
    else if hasFlag flags bfCdRom then do
      let (s, roFallback) ← setupCd host s roFallback name flags
      setupLoop host type s roFallback entries
    else do
      let s ← setupDisk host type s name flags
      setupLoop host type s roFallback entries

def Registered.mask (f : Flags) (d : Registered) : Registered :=
  { d with bdev := { d.bdev with flags := d.bdev.flags &&& f } }

def bootOverride (disks : List Registered) : List Registered :=
  if disks.any fun d => hasFlag d.bdev.flags bfBoot1 then
    disks.map fun d => if hasFlag d.bdev.flags bfBoot1 then d else d.mask (~~~bfBoot)
  else disks

def setupDisks (host : Nat → Host) (type : BootType) (s : Blk) (entries : List (Name × Flags)) :
    Option Blk := do
  let s ← setupLoop host type s false entries
  some { s with allDisks := bootOverride s.allDisks }

def blkdevInit (host : Nat → Host) (macBoot linuxBoot : Bool) (blkdevMol blkdev : List (Name × Flags)) :
    Option Blk :=
  let s : Blk := ⟨[], [], 0⟩
  let mac := if macBoot then
      (setupDisks host .macVolumes s blkdevMol).bind fun s => setupDisks host .macVolumes s blkdev
    else some s
  mac.bind fun s => if linuxBoot then setupDisks host .linuxDisks s blkdev else some s

/-! ## What is asked of a disk for writing -/

variable {h : Host} {devs : List DevEntry} {name : Name} {roFallback rw : Bool} {fd : Fd}
variable {flags : Flags} {b : Bdev} {c : Call} {mac : Option Bool} {type : BootType}

/-- The disk was opened for writing, after every check, and can be written. -/
structure Granted (c : Call) (b : Bdev) : Prop where
  rdwr : b.fd.rdwr = true
  reserved : (reserveDev c.devs c.name).1 = false
  mounts : linuxMountCheck c.host.mounts c.name (hasFlag c.flags bfForce) = some false
  locked : c.host.locked = false
  write : b.write ≠ none

def dmgImage (c : Call) : Prop := c.mac ≠ none ∧ imageType c.host c.name = .dmg ∧ c.host.dmg.state = true

/-- No DMG image, and no lock that `flock` has not found for another reason. -/
def Sound (c : Call) : Prop := ¬ dmgImage c ∧ (c.host.flock = .error → c.host.locked = false)

/-! ## One call -/

theorem hasFlag_write (flags : Flags) : hasFlag flags bfEnableWrite = flags.getLsbD 0 := by
  have hone : flags &&& bfEnableWrite = if flags.getLsbD 0 then 1 else 0 := by
    apply BitVec.eq_of_getLsbD_eq
    intro i hi
    rw [BitVec.getLsbD_and, show bfEnableWrite = 1#32 from rfl]
    by_cases hz : i = 0
    · subst hz
      cases flags.getLsbD 0 <;> rfl
    · cases flags.getLsbD 0 <;> simp [hz]
  unfold hasFlag
  rw [hone]
  cases flags.getLsbD 0 <;> rfl

theorem hasFlag_zero (f : Flags) : hasFlag 0#32 f = false := by
  unfold hasFlag
  rw [BitVec.zero_and]
  rfl

theorem hasFlag_zero_and (g f : Flags) : hasFlag (0#32 &&& g) f = false := by rw [BitVec.zero_and, hasFlag_zero]

theorem write_fallbackFlags (flags : Flags) (roFallback : Bool) :
    hasFlag (fallbackFlags flags roFallback) bfEnableWrite = (hasFlag flags bfEnableWrite && !roFallback) := by
  rw [hasFlag_write, hasFlag_write]
  unfold fallbackFlags
  cases roFallback with
  | false => simp
  | true =>
    simp [bfEnableWrite]

theorem writeCheck_passed {devs' : List DevEntry} {rwall : Bool}
    (hc : writeCheck h devs name true rwall = some (false, devs')) :
    (reserveDev devs name).1 = false ∧ linuxMountCheck h.mounts name rwall = some false := by
  unfold writeCheck at hc
  cases hclash : (reserveDev devs name).1 with
  | true =>
    simp only [hclash, if_true, some.injEq, Prod.mk.injEq, Bool.true_eq_false, false_and] at hc
  | false =>
    simp only [hclash] at hc
    obtain ⟨m, hm, hpair⟩ := map_eq_some_iff.mp hc
    obtain ⟨rfl, -⟩ := Prod.mk.inj hpair
    exact ⟨rfl, hm⟩

theorem attempt_opened {n : Nat} (ha : attempt h n false roFallback rw = .opened fd true) :
    rw = true ∧ fd.rdwr = true ∧ h.flock ≠ .wouldBlock := by
  unfold attempt at ha
  cases hopen : h.open64 (2 * n) rw with
  | ok k =>
    simp only [hopen, Bool.false_eq_true, if_false] at ha
    split at ha
    · cases ha
    split at ha
    · split at ha <;> cases ha
    rename_i hlock
    cases ha
    exact ⟨rfl, rfl, fun hw => hlock (by rw [hw]; rfl)⟩
  | error e =>
    simp only [hopen] at ha
    by_cases he : e = .erofs ∧ roFallback = true
    · simp only [he, and_self, if_true] at ha
      -- opened without write access, so it is not kept
      cases hfd : (h.open64 (2 * n + 1) false).toOption with
      | none => simp [hfd] at ha
      | some k =>
        simp only [hfd, map_some, Bool.false_eq_true, if_false] at ha
        split at ha <;> cases ha
    · simp only [he] at ha
      cases ha

theorem openLoop_opened (ha : openLoop h false roFallback rw = .opened fd true) :
    rw = true ∧ fd.rdwr = true ∧ h.flock ≠ .wouldBlock := by
  unfold openLoop at ha
  split at ha
  · cases (attempt_opened ha).1
  · exact attempt_opened ha

theorem diskOpen_write {o : Opened} (ho : diskOpen h devs name flags roFallback = some o)
    (hfd : o.fd = some fd) (hcd : hasFlag flags bfCdRom = false) (hkept : o.roFallback = false) :
    fd.rdwr = true ∧ (reserveDev devs name).1 = false ∧
      linuxMountCheck h.mounts name (hasFlag flags bfForce) = some false ∧ h.flock ≠ .wouldBlock := by
  obtain ⟨⟨refused, devs'⟩, hcheck, ho⟩ := bind_eq_some_iff.mp ho
  simp only [hcd] at ho
  split at ho
  · cases ho
    cases hfd
  split at ho
  · rename_i fd' rw' hloop
    cases ho
    cases hfd
    obtain rfl : rw' = true := by simpa using hkept
    obtain ⟨hrw, hmode, hlock⟩ := openLoop_opened hloop
    simp only [Bool.and_eq_true, Bool.not_eq_true'] at hrw
    obtain ⟨hwrite, rfl⟩ := hrw
    rw [hwrite, Bool.and_true] at hcheck
    obtain ⟨hreserve, hmounts⟩ := writeCheck_passed hcheck
    exact ⟨hmode, hreserve, hmounts, hlock⟩
  · cases ho
    cases hfd

theorem findDiskType_spec {type : ImageType}
    (hb : findDiskType h fd name (cleared fd) = some (type, b)) :
    b.fd = fd ∧ hasFlag b.flags bfEnableWrite = false ∧
      (b.write = none ↔ imageType h name = .dmg ∧ h.dmg.state = true) := by
  unfold findDiskType at hb
  cases htype : imageType h name with
  | unknown | raw =>
    simp only [htype] at hb
    cases hb
    exact ⟨rfl, hasFlag_zero _, by simp [rawOpen]⟩
  | qcow =>
    simp only [htype] at hb
    obtain ⟨b', hq, hpair⟩ := map_eq_some_iff.mp hb
    cases hpair
    unfold qcowInstall at hq
    split at hq
    · cases hq
    dsimp only at hq
    split at hq
    · cases hq
      exact ⟨rfl, hasFlag_zero _, by simp⟩
    · cases hq
      refine ⟨rfl, ?_, by simp⟩
      split
      · exact hasFlag_zero_and _ _
      · exact hasFlag_zero _
  | dmg =>
    simp only [htype] at hb
    cases hb
    unfold dmgInstall
    split
    · rename_i hstate
      exact ⟨rfl, hasFlag_zero _, by simpa [rawOpen] using hstate⟩
    rename_i hstate
    have hstate : h.dmg.state = true := by simpa using hstate
    dsimp only
    split <;> exact ⟨rfl, hasFlag_zero_and _ _, by simp [hstate]⟩

structure Checked (c : Call) (b : Bdev) : Prop where
  rdwr : b.fd.rdwr = true
  reserved : (reserveDev c.devs c.name).1 = false
  mounts : linuxMountCheck c.host.mounts c.name (hasFlag c.flags bfForce) = some false
  lock : c.host.flock ≠ .wouldBlock
  write : b.write = none ↔ dmgImage c

theorem write_registerDisk (hb : hasFlag b.flags bfEnableWrite = false) (name : Name)
    (volName : Option (List Byte)) (fd : Fd) (flags : Flags) (roFallback : Bool) (blocks : Nat) :
    hasFlag (registerDisk b name volName fd (fallbackFlags flags roFallback) blocks).flags bfEnableWrite =
      (hasFlag flags bfEnableWrite && !roFallback) := by
  rw [← write_fallbackFlags]
  rw [hasFlag_write] at hb ⊢
  rw [hasFlag_write]
  unfold registerDisk
  simp only [BitVec.getLsbD_or, hb, Bool.false_or]

theorem Call.run_checked (hrun : c.run = some (some b, devs))
    (hcd : hasFlag c.flags bfCdRom = false) (hwrite : hasFlag b.flags bfEnableWrite = true) :
    Checked c b := by
  unfold run at hrun
  cases hmac : c.mac with
  | none =>
    simp only [hmac] at hrun
    obtain ⟨o, ho, hrun⟩ := bind_eq_some_iff.mp hrun
    cases hfd : o.fd with
    | none =>
      simp only [hfd] at hrun
      cases hrun
    | some fd =>
      simp only [hfd] at hrun
      cases hrun
      rw [write_registerDisk (hasFlag_zero _), Bool.and_eq_true, Bool.not_eq_true'] at hwrite
      obtain ⟨h1, h2, h3, h4⟩ := diskOpen_write ho hfd hcd hwrite.2
      exact ⟨h1, h2, h3, h4, by simp [registerDisk, rawOpen, dmgImage, hmac]⟩
  | some constructed =>
    simp only [hmac] at hrun
    obtain ⟨o, ho, hrun⟩ := bind_eq_some_iff.mp hrun
    cases hfd : o.fd with
    | none =>
      simp only [hfd] at hrun
      cases hrun
    | some fd =>
      simp only [hfd] at hrun
      split at hrun
      · cases hrun
      obtain ⟨⟨type, b'⟩, hfind, hrun⟩ := bind_eq_some_iff.mp hrun
      obtain ⟨hbfd, hbflags, hbwrite⟩ := findDiskType_spec hfind
      split at hrun
      · cases hrun
      cases hrun
      rw [write_registerDisk hbflags, Bool.and_eq_true, Bool.not_eq_true'] at hwrite
      obtain ⟨h1, h2, h3, h4⟩ := diskOpen_write ho hfd hcd hwrite.2
      refine ⟨by rw [← hbfd] at h1; exact h1, h2, h3, h4, ?_⟩
      simpa [dmgImage, hmac, registerDisk] using hbwrite

theorem Checked.granted_iff (h : Checked c b) : Granted c b ↔ Sound c := by
  constructor
  · intro hg
    exact ⟨fun hdmg => hg.write (h.write.mpr hdmg), fun _ => hg.locked⟩
  rintro ⟨hdmg, hlock⟩
  refine ⟨h.rdwr, h.reserved, h.mounts, ?_, fun hnone => hdmg (h.write.mp hnone)⟩
  cases hf : c.host.flock with
  | ok => exact c.host.lock_free hf
  | wouldBlock => exact absurd hf h.lock
  | error => exact hlock hf

/-! ## The configuration -/

def AllChecked (disks : List Registered) : Prop :=
  ∀ d ∈ disks, hasFlag d.bdev.flags bfEnableWrite = true → ∃ c, d.call = some c ∧ Checked c d.bdev

section Setup

variable {host : Nat → Host} {s s' : Blk}

theorem Blk.open_checked (hs : AllChecked s.allDisks) (hcd : hasFlag flags bfCdRom = false)
    (h : s.open host name flags mac = some s') :
    AllChecked s'.allDisks := by
  obtain ⟨⟨bdev, devs⟩, hrun, h⟩ := bind_eq_some_iff.mp h
  cases h
  refine forall_mem_append.mpr ⟨fun d hd hwrite => ?_, hs⟩
  obtain ⟨b, rfl, rfl⟩ := map_eq_some_iff.mp (mem_toList.mp hd)
  exact ⟨_, rfl, Call.run_checked hrun hcd hwrite⟩

theorem foldlM_checked (hcd : hasFlag flags bfCdRom = false) (names : List Name)
    (hs : AllChecked s.allDisks)
    (h : names.foldlM (fun s part => s.open host part flags mac) s = some s') :
    AllChecked s'.allDisks := by
  induction names generalizing s with
  | nil =>
    cases h
    exact hs
  | cons name names ih =>
    obtain ⟨s1, h1, h2⟩ := bind_eq_some_iff.mp h
    exact ih (Blk.open_checked hs hcd h1) h2

theorem setupMacDisk_checked (hs : AllChecked s.allDisks) (hcd : hasFlag flags bfCdRom = false)
    (h : setupMacDisk host s name flags = some s') :
    AllChecked s'.allDisks := by
  unfold setupMacDisk at h
  split at h
  · refine foldlM_checked ?_ _ hs h
    -- the bits that change are not that of a CD
    have hbit : ((flags ||| bfSubdevice) &&& ~~~bfForce) &&& bfCdRom = flags &&& bfCdRom := by
      have hkeep : ~~~bfForce &&& bfCdRom = bfCdRom := by decide
      have hnew : bfSubdevice &&& bfCdRom = 0#32 := by decide
      rw [BitVec.and_assoc, hkeep, BitVec.and_comm, BitVec.and_or_distrib_left, BitVec.and_comm _ bfSubdevice,
        hnew, BitVec.or_zero, BitVec.and_comm]
    rw [hasFlag, hbit]
    exact hcd
  · exact Blk.open_checked hs hcd h

theorem setupCd_checked (hs : AllChecked s.allDisks) {roFallback' : Bool}
    (h : setupCd host s roFallback name flags = some (s', roFallback')) :
    AllChecked s'.allDisks := by
  obtain ⟨o, -, h⟩ := bind_eq_some_iff.mp h
  cases h
  refine forall_mem_append.mpr ⟨fun d hd hwrite => ?_, hs⟩
  obtain ⟨b, hb, rfl⟩ := map_eq_some_iff.mp (mem_toList.mp hd)
  obtain ⟨fd, -, rfl⟩ := map_eq_some_iff.mp hb
  rw [show flags &&& ~~~bfEnableWrite = fallbackFlags flags true from rfl, write_registerDisk (hasFlag_zero _),
    Bool.not_true, Bool.and_false] at hwrite
  cases hwrite

theorem setupLoop_checked (entries : List (Name × Flags)) :
    ∀ {s : Blk} {roFallback : Bool}, AllChecked s.allDisks →
      setupLoop host type s roFallback entries = some s' → AllChecked s'.allDisks := by
  induction entries with
  | nil =>
    intro s _ hs h
    cases h
    exact hs
  | cons entry entries ih =>
    intro s roFallback hs h
    unfold setupLoop at h
    split at h
    · exact ih hs h
    split_ifs at h with hcd
    · obtain ⟨⟨s1, rf⟩, h1, h2⟩ := bind_eq_some_iff.mp h
      exact ih (setupCd_checked hs h1) h2
    rw [Bool.not_eq_true] at hcd
    obtain ⟨s1, h1, h2⟩ := bind_eq_some_iff.mp h
    refine ih ?_ h2
    cases type with
    | macVolumes => exact setupMacDisk_checked hs hcd h1
    | linuxDisks => exact Blk.open_checked hs hcd h1

theorem bootOverride_checked {disks : List Registered} (hs : AllChecked disks) :
    AllChecked (bootOverride disks) := by
  unfold bootOverride
  split
  · intro d hd hwrite
    obtain ⟨d0, hd0, rfl⟩ := mem_map.mp hd
    split_ifs at hwrite with hboot
    · rw [if_pos hboot]
      exact hs d0 hd0 hwrite
    rw [if_neg hboot]
    have hwrite0 : hasFlag d0.bdev.flags bfEnableWrite = true := by
      rw [hasFlag_write] at hwrite ⊢
      rw [Registered.mask, BitVec.getLsbD_and, Bool.and_eq_true] at hwrite
      exact hwrite.1
    obtain ⟨c, hc, hchecked⟩ := hs d0 hd0 hwrite0
    exact ⟨c, hc, { hchecked with }⟩
  · exact hs

theorem setupDisks_checked {entries : List (Name × Flags)} (hs : AllChecked s.allDisks)
    (h : setupDisks host type s entries = some s') : AllChecked s'.allDisks := by
  obtain ⟨s1, h1, h2⟩ := bind_eq_some_iff.mp h
  cases h2
  exact bootOverride_checked (setupLoop_checked entries hs h1)

theorem blkdevInit_checked {macBoot linuxBoot : Bool} {blkdevMol blkdev : List (Name × Flags)}
    (h : blkdevInit host macBoot linuxBoot blkdevMol blkdev = some s) : AllChecked s.allDisks := by
  have hnil : AllChecked [] := fun d hd => by cases hd
  obtain ⟨s1, h1, h⟩ := bind_eq_some_iff.mp h
  have hmac : AllChecked s1.allDisks := by
    split at h1
    · obtain ⟨s0, h0, h1⟩ := bind_eq_some_iff.mp h1
      exact setupDisks_checked (setupDisks_checked hnil h0) h1
    · cases h1
      exact hnil
  split at h
  · exact setupDisks_checked hmac h
  · cases h
    exact hmac

end Setup

/-- When a disk with BF_ENABLE_WRITE has obtained its write access. -/
theorem write_granted_iff (host : Nat → Host) (macBoot linuxBoot : Bool)
    (blkdevMol blkdev : List (Name × Flags)) (s : Blk)
    (h : blkdevInit host macBoot linuxBoot blkdevMol blkdev = some s) (d : Registered) (hd : d ∈ s.allDisks)
    (hwrite : hasFlag d.bdev.flags bfEnableWrite = true) :
    ∃ c, d.call = some c ∧ (Granted c d.bdev ↔ Sound c) := by
  obtain ⟨c, hc, hchecked⟩ := blkdevInit_checked h d hd hwrite
  exact ⟨c, hc, hchecked.granted_iff⟩

def plainHost (flock : Flock) (locked : Bool) (hfree : flock = .ok → locked = false) : Host where
  mounts := none
  open64 := fun _ _ => .ok 3
  readable := fun _ => true
  flock := flock
  locked := locked
  lock_free := hfree
  stack := false
  memory := true
  file := ⟨512, fun _ => 0, fun _ _ => rfl⟩
  pread := true
  fileBlocks := 65536
  qcow := ⟨fun _ => 0, fun _ => true, fun _ => none, fun _ _ => true⟩
  dmg := ⟨true, none, true, true⟩
  block := fun _ _ => none

def rawName : Name := ['/', 'a']

def dmgName : Name := ['/', 'a', '.', 'd', 'm', 'g']

theorem write_granted_raw : ∃ s d c,
    blkdevInit (fun _ => plainHost .ok false fun _ => rfl) true false [] [(rawName, bfEnableWrite ||| bfForce)] =
      some s ∧ d ∈ s.allDisks ∧ hasFlag d.bdev.flags bfEnableWrite = true ∧ d.call = some c ∧
      Granted c d.bdev := by
  obtain ⟨c, hc, hiff⟩ := write_granted_iff (fun _ => plainHost .ok false fun _ => rfl) true false []
    [(rawName, bfEnableWrite ||| bfForce)] _ rfl _ mem_cons_self rfl
  refine ⟨_, _, c, rfl, mem_cons_self, rfl, hc, hiff.mpr ?_⟩
  cases hc
  exact ⟨fun hdmg => absurd hdmg.2.1 (by decide), fun herr => by cases herr⟩

/-- A DMG image with -rw, and a locked volume when `flock` fails with ENOLCK. -/
theorem write_without_access :
    (∃ s d c, blkdevInit (fun _ => plainHost .ok false fun _ => rfl) true false []
        [(dmgName, bfEnableWrite ||| bfForce)] = some s ∧ d ∈ s.allDisks ∧
      hasFlag d.bdev.flags bfEnableWrite = true ∧ d.call = some c ∧ d.bdev.write = none ∧
      ¬ Granted c d.bdev) ∧
    ∃ s d c, blkdevInit (fun _ => plainHost .error true fun h => by cases h) true false []
        [(rawName, bfEnableWrite ||| bfForce)] = some s ∧ d ∈ s.allDisks ∧
      hasFlag d.bdev.flags bfEnableWrite = true ∧ d.call = some c ∧ ¬ Granted c d.bdev := by
  constructor
  · exact ⟨_, _, _, rfl, mem_cons_self, rfl, rfl, rfl, fun h => h.write rfl⟩
  · exact ⟨_, _, _, rfl, mem_cons_self, rfl, rfl, fun h => by cases h.locked⟩

/-! ## Images that cannot be opened -/

def openFails (h : Host) (name : Name) : Bool :=
  match imageType h name with
  | .qcow => (Qcow.qcowOpen h.qcow h.file).isNone
  | .dmg => !h.dmg.state || h.dmg.chunks.isNone || !h.dmg.buffers || !h.dmg.inflateInit
  | _ => false

/-- The functions that `inspect_disk` reads and seeks through, if it knows the type. -/
def inspectedBy (h : Host) (fd : Fd) (name : Name) : Option (Option Reader) :=
  (findDiskType h fd name (cleared fd)).map fun (type, b) => if type = .unknown then none else some b.read

/-- `open_mac_disk` returns, and uses the disk as a raw one if at all. -/
structure RawOnly (h : Host) (devs : List DevEntry) (name : Name) (flags : Flags) (constructed : Bool)
    (fd : Fd) : Prop where
  inspect : inspectedBy h fd name = some (some .raw)
  register : ∃ disk devs', openMacDisk h devs name flags constructed = some (disk, devs') ∧
    ∀ b, disk = some b → b.read = .raw ∧ b.write = some .raw

theorem openMacDisk_reader {o : Opened} {constructed : Bool} {t : ImageType}
    (ho : diskOpen h devs name flags h.stack = some o) (hfd : o.fd = some fd) (hmem : h.memory = true)
    (hb : findDiskType h fd name (cleared fd) = some (t, b)) :
    ∃ disk devs', openMacDisk h devs name flags constructed = some (disk, devs') ∧
      ∀ b', disk = some b' → b'.read = b.read ∧ b'.write = b.write := by
  unfold openMacDisk
  simp only [ho, hfd, hmem, hb, Option.bind_eq_bind, bind_some, Bool.not_true, Bool.false_eq_true, if_false]
  split
  · exact ⟨none, _, rfl, fun b' h' => by cases h'⟩
  · refine ⟨_, _, rfl, fun b' h' => ?_⟩
    cases h'
    exact ⟨rfl, rfl⟩

theorem qcowInstall_read {b' : Bdev} (hb : qcowInstall h fd b = some b') : b'.read = .qcow := by
  unfold qcowInstall at hb
  split at hb
  · cases hb
  dsimp only at hb
  split at hb <;> cases hb <;> rfl

theorem dmgInstall_read (fd : Fd) (b : Bdev) (hstate : h.dmg.state = true) : (dmgInstall h fd b).read = .dmg := by
  unfold dmgInstall
  rw [if_neg (by simp [hstate])]
  dsimp only
  split <;> rfl

end MacOnLinux.Disk
