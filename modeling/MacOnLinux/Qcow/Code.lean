import MacOnLinux.Lib.File
import Mathlib.Logic.Function.Basic

/-! # The qcow back end (`drivers/disk/blk_qcow.c`)

`none` stands for a call that gives up after a host call failed or fell short. A file does not grow
to more than `2 ^ 63` bytes. No key is ever set, and no caller allocates a compressed cluster.
-/

namespace MacOnLinux.Qcow

open Function File List

/-! ## State -/

/-- `BDRVQCowState`, with the file that `backingHd` refers to. -/
structure State where
  fd : File
  clusterBits : Nat
  l2Bits : Nat
  l1Size : Nat
  l1TableOffset : Nat
  l1Table : Nat → Nat
  l2Cache : Nat → Nat → Nat
  l2CacheOffsets : Nat → Nat
  l2CacheCounts : Nat → Nat
  clusterCache : List Byte
  clusterCacheOffset : Nat
  /-- Whether there is a block for the compressed data. -/
  clusterData : Bool
  seekSector : Nat
  backingHd : Int
  backing : File
  /-- Whether the host lets the file become so long. -/
  grows : File → Nat → Bool
  /-- Where the file was when a new cluster could not be made, the last time. -/
  failed : Option Nat

structure Zlib where
  inflate : Nat → List Byte → Option (List Byte)
  length : ∀ n bs out, inflate n bs = some out → out.length = n

def l2CacheSize : Nat := 16

def maxFile : Nat := 2 ^ 63

namespace State

variable (s : State)

def clusterSize : Nat := 2 ^ s.clusterBits

def clusterSectors : Nat := 2 ^ (s.clusterBits - 9)

def l2Size : Nat := 2 ^ s.l2Bits

def l1Index (offset : Nat) : Nat := offset / 2 ^ (s.l2Bits + s.clusterBits)

def l2Index (offset : Nat) : Nat := offset / 2 ^ s.clusterBits % s.l2Size

def roundUp (offset : Nat) : Nat := (offset + s.clusterSize - 1) / s.clusterSize * s.clusterSize

def isCompressed (e : Nat) : Bool := 2 ^ 63 ≤ e

def coffset (e : Nat) : Nat := e % 2 ^ (63 - s.clusterBits)

def csize (e : Nat) : Nat := e / 2 ^ (63 - s.clusterBits) % s.clusterSize

def canGrow (n : Nat) : Bool := n ≤ maxFile && s.grows s.fd n

end State

open State

variable (z : Zlib)

/-! ## Clusters -/

def decompressCluster (s : State) (e : Nat) : Option State :=
  if s.clusterCacheOffset = s.coffset e then some s
  else
    let buf := s.fd.read (s.coffset e) (s.csize e)
    if !s.clusterData then none
    else if buf.length ≠ s.csize e then none
    else match z.inflate s.clusterSize buf with
      | none => none
      | some out => some { s with clusterCache := out, clusterCacheOffset := s.coffset e }

/-- The L2 table, whether it is a new one, and the state then. -/
def findL2 (s : State) (l1Index : Nat) (allocate : Bool) : Option (Nat × Bool × State) :=
  if s.l1Table l1Index = 0 then
    if allocate then
      let l2Offset := s.roundUp s.fd.size
      some (l2Offset, true, { s with
          l1Table := update s.l1Table l1Index l2Offset
          fd := s.fd.write (s.l1TableOffset + l1Index * 8) (toBytes 8 l2Offset) })
    else none
  else some (s.l1Table l1Index, false, s)

def cached (s : State) (l2Offset : Nat) : Option Nat :=
  (range l2CacheSize).find? fun i => s.l2CacheOffsets i = l2Offset

def hit (s : State) (i : Nat) : State :=
  let counts := update s.l2CacheCounts i (s.l2CacheCounts i + 1)
  { s with l2CacheCounts := if counts i = 0xffffffff then fun j => counts j / 2 else counts }

def leastUsed (s : State) : Nat × Nat :=
  (range l2CacheSize).foldl
    (fun m i => if s.l2CacheCounts i < m.2 then (i, s.l2CacheCounts i) else m) (0, 0xffffffff)

/-- The slot of the cache that has the table, after it was loaded if it has to be. -/
def loadL2 (s : State) (l2Offset : Nat) (new : Bool) : Option (Nat × State) :=
  match cached s l2Offset with
  | some i => some (i, hit s i)
  | none =>
    let i := (leastUsed s).1
    let counted : State :=
      { s with
        l2CacheOffsets := update s.l2CacheOffsets i l2Offset
        l2CacheCounts := update s.l2CacheCounts i 1 }
    if new then
      if !s.canGrow (l2Offset + s.l2Size * 8) then none
      else some (i, { counted with
          l2Cache := update s.l2Cache i fun _ => 0
          fd := s.fd.write l2Offset (replicate (s.l2Size * 8) 0) })
    else if (s.fd.read l2Offset (s.l2Size * 8)).length ≠ s.l2Size * 8 then none
    else some (i, { counted with l2Cache := update s.l2Cache i fun k => s.fd.word (l2Offset + k * 8) })

/-- A new cluster in place of `e`, for the sectors from `nStart` to `nEnd`, if the file can grow. -/
def allocCluster (s : State) (e nStart nEnd : Nat) : Option (Option Nat × State) :=
  if isCompressed e ∧ nEnd - nStart < s.clusterSectors then
    match decompressCluster z s e with
    | none => none
    | some s =>
      let o := s.roundUp s.fd.size
      if !s.canGrow (o + s.clusterSize) then some (none, { s with failed := some o })
      else some (some o, { s with fd := s.fd.write o s.clusterCache })
  else
    let o := s.roundUp s.fd.size
    if !s.canGrow (o + s.clusterSize) then some (none, { s with failed := some s.fd.size })
    else some (some o, { s with fd := s.fd.truncate (o + s.clusterSize) })

/-- `(u64)-1` -/
def noCluster : Nat := 2 ^ 64 - 1

def getClusterOffset (s : State) (offset : Nat) (allocate : Bool) (nStart nEnd : Nat) :
    Option (Nat × State) :=
  match findL2 s (s.l1Index offset) allocate with
  | none => some (0, s)
  | some (l2Offset, new, s) =>
    match loadL2 s l2Offset new with
    | none => none
    | some (i, s) =>
      let k := s.l2Index offset
      let e := s.l2Cache i k
      if e = 0 ∨ (isCompressed e ∧ allocate) then
        if allocate then
          match allocCluster z s e nStart nEnd with
          | none => none
          | some (none, s) => some (noCluster, s)
          | some (some o, s) =>
            some (o, { s with
                l2Cache := update s.l2Cache i (update (s.l2Cache i) k o)
                fd := s.fd.write (l2Offset + k * 8) (toBytes 8 o) })
        else some (0, s)
      else some (e, s)

/-! ## Reads, writes and seeks -/

/-- The sectors from `sector` that are in one cluster, `nb` at most. -/
def chunk (s : State) (sector nb : Nat) : Nat := min (s.clusterSectors - sector % s.clusterSectors) nb

/-- What the buffer has after the read of `n` sectors; `old` is what it has before. -/
def readChunk (s : State) (sector n : Nat) (old : List Byte) : Option (List Byte × State) :=
  match getClusterOffset z s (sector * 512) false 0 0 with
  | none => none
  | some (e, s) =>
    if e = 0 then
      if s.backingHd ≠ 0 then
        if s.backingHd < 0 then none
        else
          let got := s.backing.read (sector * 512) (n * 512)
          some (got ++ old.drop got.length, s)
      else some (replicate (n * 512) 0, s)
    else if isCompressed e then
      match decompressCluster z s e with
      | none => none
      | some s => some ((s.clusterCache.drop (sector % s.clusterSectors * 512)).take (n * 512), s)
    else
      let buf := s.fd.read (e + sector % s.clusterSectors * 512) (n * 512)
      if buf.length ≠ n * 512 then none else some (buf, s)

def readLoop : Nat → State → Nat → Nat → List Byte → Option (List Byte × State)
  | 0, s, sector, _, buf => some (buf, { s with seekSector := sector })
  | fuel + 1, s, sector, nb, buf =>
    if nb = 0 then some (buf, { s with seekSector := sector })
    else
      let n := chunk s sector nb
      match readChunk z s sector n (buf.take (n * 512)) with
      | none => none
      | some (got, s) =>
        match readLoop fuel s (sector + n) (nb - n) (buf.drop (n * 512)) with
        | none => none
        | some (rest, s) => some (got ++ rest, s)

/-- The buffer after the call, and the state. Each pass reads a sector at least. -/
def qcowRead (s : State) (buf : List Byte) : Option (List Byte × State) :=
  readLoop z (buf.length / 512) s s.seekSector (buf.length / 512) buf

/-- Where `lseek` leaves the file; it refuses `-1`. -/
def seekTo (s : State) (e ind : Nat) : Nat :=
  if e = noCluster then if ind = 0 then s.failed.getD 0 else ind * 512 - 1 else e + ind * 512

def writeChunk (s : State) (sector : Nat) (bs : List Byte) : Option State :=
  let ind := sector % s.clusterSectors
  match getClusterOffset z s (sector * 512) true ind (ind + bs.length / 512) with
  | none => none
  | some (e, s) => if e = 0 then none else some { s with fd := s.fd.write (seekTo s e ind) bs }

def writeLoop : Nat → State → Nat → Nat → List Byte → Option State
  | 0, s, sector, _, _ => some { s with seekSector := sector }
  | fuel + 1, s, sector, nb, buf =>
    if nb = 0 then some { s with seekSector := sector }
    else
      let n := chunk s sector nb
      match writeChunk z s sector (buf.take (n * 512)) with
      | none => none
      | some s => writeLoop fuel s (sector + n) (nb - n) (buf.drop (n * 512))

def qcowWrite (s : State) (buf : List Byte) : Option State :=
  match writeLoop z (buf.length / 512) s s.seekSector (buf.length / 512) buf with
  | none => none
  | some s => some { s with clusterCacheOffset := 2 ^ 64 - 1 }

def qcowSeek (s : State) (block offset : Int) : State :=
  { s with seekSector := ((block + offset) % 2 ^ 64).toNat }

/-! ## Open -/

def be (f : File) (off n : Nat) : Nat := ofBytes ((range n).map fun i => f.data (off + i))

/-- `QCowHeader`, after the conversion from big-endian. -/
structure Header where
  magic : Nat
  version : Nat
  backingFileOffset : Nat
  backingFileSize : Nat
  size : Nat
  clusterBits : Nat
  l2Bits : Nat
  cryptMethod : Nat
  l1TableOffset : Nat
  deriving DecidableEq, Repr

def headerSize : Nat := 48

def readHeader (f : File) : Header where
  magic := be f 0 4
  version := be f 4 4
  backingFileOffset := be f 8 8
  backingFileSize := be f 16 4
  size := be f 24 8
  clusterBits := be f 32 1
  l2Bits := be f 33 1
  cryptMethod := be f 36 4
  l1TableOffset := be f 40 8

def qcowMagic : Nat := 0x514649fb
def qcowVersion : Nat := 1
def cryptAes : Nat := 1

def Header.ok (h : Header) : Bool :=
  h.magic = qcowMagic ∧ h.version = qcowVersion ∧ 1 < h.size ∧ 9 ≤ h.clusterBits ∧ h.cryptMethod ≤ cryptAes

def Header.l1Size (h : Header) : Nat :=
  (h.size + 2 ^ (h.clusterBits + h.l2Bits) - 1) % 2 ^ 64 / 2 ^ (h.clusterBits + h.l2Bits) % 2 ^ 32

def Header.l1Bytes (h : Header) : Nat := h.l1Size * 8 % 2 ^ 32

/-- What the host answers to `qcow_open`, and later. -/
structure Host where
  /-- What `malloc` leaves in a block. -/
  heap : Nat → Byte
  /-- Whether the calls of `malloc` succeed, in their order. -/
  malloc : Nat → Bool
  /-- `disk_open`: the file descriptor and the file for a name. -/
  diskOpen : List Byte → Option ({ fd : Int // 0 ≤ fd } × File)
  grows : File → Nat → Bool

def backingName (f : File) (h : Header) : Option (List Byte) :=
  if 1023 < h.backingFileSize then none
  else
    let name := f.read h.backingFileOffset h.backingFileSize
    if name.length ≠ h.backingFileSize then none
    else if name.head? ≠ some 0x2f then none
    else some name

/-- The cache offset is set only if the block for the compressed data is missing. -/
def opened (host : Host) (f : File) (h : Header) : State where
  fd := f
  clusterBits := h.clusterBits
  l2Bits := h.l2Bits
  l1Size := h.l1Size
  l1TableOffset := h.l1TableOffset
  l1Table := fun i =>
    if (i + 1) * 8 ≤ h.l1Bytes then f.word (h.l1TableOffset + i * 8)
    else ofBytes ((range 8).map fun j => host.heap (i * 8 + j))
  l2Cache := fun _ _ => 0
  l2CacheOffsets := fun _ => 0
  l2CacheCounts := fun _ => 0
  clusterCache := (range (2 ^ h.clusterBits)).map host.heap
  clusterCacheOffset := if host.malloc 4 then 0 else 2 ^ 64 - 1
  clusterData := host.malloc 4
  seekSector := 0
  backingHd := -1
  backing := ⟨0, fun _ => 0, fun _ _ => rfl⟩
  grows := host.grows
  failed := none

/-- The header, if `qcow_open` can read it and has nothing against it. -/
def checkedHeader (f : File) : Option Header :=
  if headerSize ≤ f.size ∧ (readHeader f).ok then some (readHeader f) else none

/-- What comes after the header was found good. -/
def readTables (host : Host) (f : File) (h : Header) : Option State :=
  if !host.malloc 1 then none
  else if (f.read h.l1TableOffset (min h.l1Bytes maxRw)).length ≠ h.l1Bytes then none
  else if !host.malloc 2 || !host.malloc 3 then none
  else if h.backingFileOffset = 0 then some (opened host f h)
  else match backingName f h with
    | none => none
    | some name =>
      match host.diskOpen name with
      | none => none
      | some (hd, backing) => some { opened host f h with backingHd := hd, backing := backing }

def qcowOpen (host : Host) (f : File) : Option State :=
  if !host.malloc 0 then none
  else match checkedHeader f with
    | none => none
    | some h => readTables host f h

end MacOnLinux.Qcow
