import MacOnLinux.Disk.Backends
import MacOnLinux.Qcow.Code

/-! # The dmg back end (`drivers/disk/blk_dmg.c`)

A chunk is loaded into a buffer as a whole when a sector of it is read. What a load that fails
leaves in the buffer is left out: only a copied chunk that is shorter than its sectors would show it.
-/

namespace MacOnLinux.Dmg

open List

open Backend (span)
open Qcow (Zlib)

/-- The values of `types` that `dmg_open` keeps: 0x80000005, 1 and 2. -/
inductive Kind where
  | zlib
  | copy
  | zero
  deriving DecidableEq, Repr

/-- An entry of `types`, `sectors`, `sectorcounts`, `offsets` and `lengths`. -/
structure Chunk where
  kind : Kind
  sector : Nat
  count : Nat
  offset : Nat
  length : Nat
  u64 : sector < 2 ^ 64 ∧ count < 2 ^ 64 ∧ offset < 2 ^ 64 ∧ length < 2 ^ 64
  deriving DecidableEq, Repr

/-- `BDRVDMGState`, with the file that `fd` refers to and where it is read next. The buffer is the
block that `uncompressed_chunk` points to, and `seekSector` is a `long` modulo `2 ^ 32`. -/
structure State where
  fd : File
  pos : Nat
  chunks : List Chunk
  currentChunk : Nat
  uncompressedChunk : List Byte
  seekSector : Nat

/-- A loop without end, or what C leaves open: an access behind a block, an `int` that is too large. -/
inductive Stop where
  | loops
  | undefined
  deriving DecidableEq, Repr

/-! ## dmg_open -/

/-- `max_sectors_per_chunk` and `max_compressed_size`, which are 32 bits wide. -/
def largest (f : Chunk → Nat) (chunks : List Chunk) : Nat :=
  chunks.foldl (fun most c => if most < f c then f c % 2 ^ 32 else most) 1

def uncompressedSize (chunks : List Chunk) : Nat := 512 * largest (·.count) chunks % 2 ^ 32

def compressedSize (chunks : List Chunk) : Nat := (largest (·.length) chunks + 1) % 2 ^ 32

/-! ## search_chunk -/

def Chunk.holds (c : Chunk) (sector : Nat) : Bool := c.sector ≤ sector && sector < (c.sector + c.count) % 2 ^ 64

def State.chunk (s : State) (i : Nat) : Chunk := s.chunks.getD i ⟨.zero, 0, 0, 0, 0, by decide⟩

def isSectorInChunk (s : State) (i sector : Nat) : Bool := i < s.chunks.length && (s.chunk i).holds sector

-- there are less than 2 ^ 29 entries of 8 bytes, so the sum of two indices does not wrap
def searchLoop (s : State) (sector : Nat) : Nat → Nat → Nat → Option Nat
  | 0, _, _ => none
  | fuel + 1, chunk1, chunk2 =>
    if chunk1 = chunk2 then some s.chunks.length
    else
      let chunk3 := (chunk1 + chunk2) / 2
      if sector < (s.chunk chunk3).sector then searchLoop s sector fuel chunk1 chunk3
      else if sector < ((s.chunk chunk3).sector + (s.chunk chunk3).count) % 2 ^ 64 then some chunk3
      else searchLoop s sector fuel chunk3 chunk2

/-- `search_chunk`. A round that does not make the interval smaller is repeated. -/
def searchChunk (s : State) (sector : Nat) : Option Nat :=
  searchLoop s sector (s.chunks.length + 1) 0 s.chunks.length

/-! ## dmg_read -/

/-- The host answers a `read` of `n` bytes with all of them, or with `k + 1` at most. -/
def piece (split : Option Nat) (n : Nat) : Nat :=
  match split with
  | none => n
  | some k => min (k + 1) n

def fillLoop (fd : File) (split : Nat → Option Nat) (room length : Nat) :
    Nat → Nat → Nat → Nat → Except Stop (Nat × Nat)
  | 0, _, _, _ => .error .loops
  | fuel + 1, k, pos, i =>
    let ret := (fd.read pos (piece (split k) ((length - i) % 2 ^ 32))).length
    let i := i + ret
    if room < i ∨ 2 ^ 31 ≤ ret + i then .error .undefined
    -- at the end of the file this goes on for ever
    else if ret + i < length then fillLoop fd split room length fuel (k + 1) (pos + ret) i
    else .ok (ret, pos + ret)

/-- `512*sectorcounts[chunk]` as a `size_t` and as `avail_out`. -/
def Chunk.space (c : Chunk) : Nat := 512 * c.count % 2 ^ 32

/-- The bytes of the chunk, or `none` for -1, and where the file is then. -/
def fetchChunk (z : Zlib) (split : Nat → Option Nat) (s : State) (i : Nat) :
    Except Stop (Option (List Byte) × Nat) :=
  let c := s.chunk i
  match c.kind with
  | .zlib =>
    if 2 ^ 63 ≤ c.offset then .ok (none, s.pos)
    -- the result of lseek goes into an int
    else if 2 ^ 31 ≤ c.offset % 2 ^ 32 then .ok (none, c.offset)
    else
      match fillLoop s.fd split (compressedSize s.chunks) c.length (c.length + 1) 0 c.offset 0 with
      | .error e => .error e
      | .ok (ret, pos) =>
        if ret ≠ c.length then .ok (none, pos)
        else if s.uncompressedChunk.length < c.space then .error .undefined
        else if c.space ≠ 512 * c.count % 2 ^ 64 then .ok (none, pos)
        else .ok (z.inflate c.space (s.fd.read c.offset c.length), pos)
  | .copy =>
    let buf := s.fd.read s.pos (piece (split 0) (c.length % 2 ^ 32))
    if s.uncompressedChunk.length < buf.length then .error .undefined
    else .ok (if buf.length = c.length then some buf else none, s.pos + buf.length)
  | .zero =>
    if s.uncompressedChunk.length < c.space then .error .undefined
    else .ok (some (List.replicate c.space 0), s.pos)

def State.loaded (s : State) (i : Nat) (out : List Byte) : State :=
  { s with currentChunk := i, uncompressedChunk := out ++ s.uncompressedChunk.drop out.length }

def dmgReadChunk (z : Zlib) (split : Nat → Option Nat) (s : State) (sector : Nat) : Except Stop (Bool × State) :=
  if isSectorInChunk s s.currentChunk sector then .ok (true, s)
  else
    match searchChunk s sector with
    | none => .error .loops
    | some i =>
      if s.chunks.length ≤ i then .ok (false, s)
      else
        match fetchChunk z split s i with
        | .error e => .error e
        | .ok (none, pos) => .ok (false, { s with currentChunk := s.chunks.length, pos := pos })
        | .ok (some out, pos) => .ok (true, State.loaded { s with pos := pos } i out)

/-- An `int` that is compared with a `u64`. -/
def sectorNum (sector : Nat) : Nat :=
  if sector % 2 ^ 32 < 2 ^ 31 then sector % 2 ^ 32 else sector % 2 ^ 32 + (2 ^ 64 - 2 ^ 32)

/-- The `memcpy` of a sector. -/
def sectorOf (buf : List Byte) (c : Chunk) (sector : Nat) : Except Stop (List Byte) :=
  let offset := (sector - c.sector) * 512 % 2 ^ 32
  if buf.length < offset + 512 then .error .undefined else .ok ((buf.drop offset).take 512)

def readLoop (z : Zlib) (split : Nat → Nat → Option Nat) :
    Nat → State → Nat → Except Stop (Option (List Byte) × State)
  | 0, s, _ => .ok (some [], s)
  | n + 1, s, sector =>
    match dmgReadChunk z (split sector) s (sectorNum sector) with
    | .error e => .error e
    | .ok (false, s) => .ok (none, s)
    | .ok (true, s) =>
      match sectorOf s.uncompressedChunk (s.chunk s.currentChunk) (sectorNum sector) with
      | .error e => .error e
      | .ok data => (readLoop z split n s (sector + 1)).map fun r => (r.1.map (data ++ ·), r.2)

def dmgRead (z : Zlib) (split : Nat → Nat → Option Nat) (s : State) (nbBytes : Nat) :
    Except Stop (Option (List Byte) × State) :=
  readLoop z split (nbBytes / 512) s s.seekSector

def dmgSeek (s : State) (block offset : Int) : State :=
  { s with seekSector := ((block + offset) % 2 ^ 64).toNat / 512 % 2 ^ 32 }

/-! ## The disk -/

variable {z : Zlib} {s : State} {c : Chunk} {i sector n : Nat}

def Chunk.bytes (z : Zlib) (fd : File) (c : Chunk) : List Byte :=
  match c.kind with
  | .zlib => (z.inflate (512 * c.count) (fd.read c.offset c.length)).getD []
  | .copy => fd.read c.offset (512 * c.count)
  | .zero => List.replicate (512 * c.count) 0

def diskByte (z : Zlib) (s : State) (y : Nat) : Byte :=
  match s.chunks.find? (·.holds (y / 512)) with
  | none => 0
  | some c => (c.bytes z s.fd).getD (y - c.sector * 512) 0

def Chunk.Contains (c : Chunk) (sector : Nat) : Prop := c.sector ≤ sector ∧ sector < c.sector + c.count

instance : Decidable (c.Contains sector) := inferInstanceAs (Decidable (_ ∧ _))

/-- No sector that is read is in a chunk of the copy type. -/
def Plain (s : State) (sector n : Nat) : Prop :=
  ∀ c ∈ s.chunks, c.kind = .copy → ∀ k < n, c.holds (sectorNum (sector + k)) = false

theorem holds_def : c.holds sector = true ↔ c.sector ≤ sector ∧ sector < (c.sector + c.count) % 2 ^ 64 := by
  unfold Chunk.holds
  rw [Bool.and_eq_true, decide_eq_true_eq, decide_eq_true_eq]

/-- A chunk whose end is no `u64` is taken for an empty one. -/
theorem holds_iff : c.holds sector = true ↔ c.Contains sector ∧ c.sector + c.count < 2 ^ 64 := by
  have hu64 := c.u64
  rw [holds_def, Chunk.Contains]
  omega

theorem chunk_eq (hi : i < s.chunks.length) : s.chunk i = s.chunks[i] := getD_eq_getElem _ _ hi

theorem chunk_mem (hi : i < s.chunks.length) : s.chunk i ∈ s.chunks := by
  rw [chunk_eq hi]
  exact getElem_mem hi

section Ordered

variable (hord : s.chunks.Pairwise fun c c' => c.sector + c.count ≤ c'.sector)

include hord

theorem chunk_before {j : Nat} (hij : i < j) (hj : j < s.chunks.length) :
    (s.chunk i).sector + (s.chunk i).count ≤ (s.chunk j).sector := by
  rw [chunk_eq hj, chunk_eq (lt_trans hij hj)]
  exact pairwise_iff_getElem.mp hord i j (lt_trans hij hj) hj hij

theorem chunk_unique {j : Nat} (hi : i < s.chunks.length)
    (hj : j < s.chunks.length) (hsi : (s.chunk i).holds sector = true)
    (hsj : (s.chunk j).holds sector = true) : i = j := by
  obtain ⟨⟨hlow, hhigh⟩, -⟩ := holds_iff.mp hsi
  obtain ⟨⟨hlow', hhigh'⟩, -⟩ := holds_iff.mp hsj
  rcases Nat.lt_trichotomy i j with hlt | heq | hlt
  · have := chunk_before hord hlt hj
    omega
  · exact heq
  · have := chunk_before hord hlt hi
    omega

end Ordered

theorem find_chunk (hord : s.chunks.Pairwise fun c c' => c.sector + c.count ≤ c'.sector)
    (hi : i < s.chunks.length) (hsector : (s.chunk i).holds sector = true) :
    s.chunks.find? (·.holds sector) = some (s.chunk i) := by
  rw [find?_eq_some_iff_getElem]
  refine ⟨hsector, i, hi, (chunk_eq hi).symm, fun j hj => ?_⟩
  have hjl := lt_trans hj hi
  rw [← chunk_eq hjl, Bool.not_eq_true', Bool.eq_false_iff]
  exact fun hholds => ne_of_lt hj (chunk_unique hord hjl hi hholds hsector)

/-! ## Search -/

section Search

variable (hord : s.chunks.Pairwise fun c c' => c.sector + c.count ≤ c'.sector)

include hord

theorem searchLoop_spec (hi : i < s.chunks.length)
    (hsector : (s.chunk i).holds sector = true) {fuel chunk1 chunk2 : Nat} (hlow : chunk1 ≤ i)
    (hhigh : i < chunk2) (hend : chunk2 ≤ s.chunks.length) (hfuel : chunk2 - chunk1 ≤ fuel) :
    searchLoop s sector fuel chunk1 chunk2 = some i := by
  have hholds := holds_def.mp hsector
  obtain ⟨⟨hfirst, hlast⟩, -⟩ := holds_iff.mp hsector
  induction fuel generalizing chunk1 chunk2 with
  | zero => omega
  | succ fuel ih =>
    rw [searchLoop, if_neg (by omega)]
    dsimp only
    split
    · rename_i hlt
      -- the chunk is before the one in the middle
      have hmid : i < (chunk1 + chunk2) / 2 := by
        refine Nat.lt_of_not_le fun hle => ?_
        rcases Nat.eq_or_lt_of_le hle with heq | hgt
        · rw [heq] at hlt
          omega
        · have := chunk_before hord hgt hi
          omega
      exact ih hlow hmid (by omega) (by omega)
    · split
      · have hthere : (s.chunk ((chunk1 + chunk2) / 2)).holds sector = true := holds_def.mpr (by omega)
        exact congrArg some (chunk_unique hord (by omega) hi hthere hsector)
      rename_i hge hnot
      have hmid : (chunk1 + chunk2) / 2 < i := by
        refine Nat.lt_of_not_le fun hle => ?_
        rcases Nat.eq_or_lt_of_le hle with heq | hgt
        · rw [← heq] at hnot
          omega
        · have := chunk_before hord hgt (by omega)
          omega
      exact ih (by omega) hhigh hend (by omega)

theorem searchChunk_spec (hi : i < s.chunks.length) (hsector : (s.chunk i).holds sector = true) :
    searchChunk s sector = some i :=
  searchLoop_spec hord hi hsector (Nat.zero_le _) hi (Nat.le_refl _) (by omega)

end Search

theorem searchLoop_before (hbefore : ∀ c ∈ s.chunks, sector < c.sector) {fuel chunk2 : Nat}
    (hend : chunk2 ≤ s.chunks.length) (hfuel : chunk2 < fuel) :
    searchLoop s sector fuel 0 chunk2 = some s.chunks.length := by
  induction fuel generalizing chunk2 with
  | zero => omega
  | succ fuel ih =>
    rw [searchLoop]
    split
    · rfl
    · have hmid := hbefore _ (chunk_mem (show (0 + chunk2) / 2 < s.chunks.length by omega))
      rw [if_pos hmid]
      exact ih (by omega) (by omega)

theorem searchLoop_diverges (hnone : ∀ c ∈ s.chunks, c.holds sector = false) {fuel chunk1 chunk2 : Nat}
    (hlow : (s.chunk chunk1).sector ≤ sector) (hlt : chunk1 < chunk2) (hend : chunk2 ≤ s.chunks.length) :
    searchLoop s sector fuel chunk1 chunk2 = none := by
  induction fuel generalizing chunk1 chunk2 with
  | zero => rfl
  | succ fuel ih =>
    rw [searchLoop, if_neg (ne_of_lt hlt)]
    dsimp only
    split
    · rename_i hbefore
      refine ih hlow (lt_of_le_of_ne (by omega) fun heq => ?_) (by omega)
      rw [← heq] at hbefore
      omega
    · split
      · have hout := hnone _ (chunk_mem (show (chunk1 + chunk2) / 2 < s.chunks.length by omega))
        exact Bool.noConfusion (hout.symm.trans (holds_def.mpr (by omega)))
      · exact ih (by omega) (by omega) hend

def Finds (s : State) (sector r : Nat) : Prop :=
  if r < s.chunks.length then (s.chunk r).Contains sector
  else r = s.chunks.length ∧ ∀ c ∈ s.chunks, ¬ c.Contains sector

/-- `search_chunk` is right iff a chunk whose end is a `u64` has the sector or all are behind it. -/
theorem search_exact_iff (hord : s.chunks.Pairwise fun c c' => c.sector + c.count ≤ c'.sector) :
    (∃ fuel r, searchLoop s sector fuel 0 s.chunks.length = some r ∧ Finds s sector r) ↔
      (∃ c ∈ s.chunks, c.Contains sector ∧ c.sector + c.count < 2 ^ 64) ∨ ∀ c ∈ s.chunks, sector < c.sector := by
  simp only [← holds_iff]
  constructor
  · rintro ⟨fuel, r, hloop, -⟩
    by_cases hsome : ∃ c ∈ s.chunks, c.holds sector = true
    · exact .inl hsome
    refine .inr fun c hc => Nat.lt_of_not_le fun hle => ?_
    have hnone : ∀ c ∈ s.chunks, c.holds sector = false := by
      simpa only [not_exists, not_and, Bool.not_eq_true] using hsome
    obtain ⟨i, hi, rfl⟩ := getElem_of_mem hc
    rw [← chunk_eq hi] at hle
    have hfirst : (s.chunk 0).sector ≤ sector := by
      rcases Nat.eq_zero_or_pos i with rfl | hpos
      · exact hle
      · have := chunk_before hord hpos hi
        omega
    rw [searchLoop_diverges hnone hfirst (Nat.zero_lt_of_lt hi) (Nat.le_refl _)] at hloop
    cases hloop
  · rintro (⟨c, hc, hholds⟩ | hbefore)
    · obtain ⟨i, hi, rfl⟩ := getElem_of_mem hc
      rw [← chunk_eq hi] at hholds
      refine ⟨_, i, searchChunk_spec hord hi hholds, ?_⟩
      rw [Finds, if_pos hi]
      exact (holds_iff.mp hholds).1
    have hnone : ∀ c ∈ s.chunks, ¬ c.Contains sector := by
      intro c hc hin
      exact not_le.mpr (hbefore c hc) hin.1
    refine ⟨_, _, searchLoop_before hbefore (Nat.le_refl _) (Nat.lt_succ_self _), ?_⟩
    rw [Finds, if_neg (lt_irrefl _)]
    exact ⟨rfl, hnone⟩

def gapped : State :=
  ⟨⟨2, fun _ => 0, fun _ _ => rfl⟩, 0, [⟨.zero, 2, 3, 0, 0, by decide⟩, ⟨.zero, 8, 1, 0, 0, by decide⟩], 2, [], 0⟩

theorem search_exact_gapped :
    ∃ fuel r, searchLoop gapped 8 fuel 0 gapped.chunks.length = some r ∧ Finds gapped 8 r :=
  (search_exact_iff (by decide)).mpr (.inl ⟨_, mem_cons_of_mem _ mem_cons_self, by decide, by decide⟩)

theorem search_gap_diverges : ¬ ∃ fuel r, searchLoop gapped 6 fuel 0 gapped.chunks.length = some r := by
  rintro ⟨fuel, r, h⟩
  rw [searchLoop_diverges (by decide) (by decide) (by decide) (Nat.le_refl _)] at h
  cases h

/-! ## Reads -/

theorem chunk_span (hord : s.chunks.Pairwise fun c c' => c.sector + c.count ≤ c'.sector)
    (hi : i < s.chunks.length) (hsector : (s.chunk i).holds sector = true)
    (hlen : ((s.chunk i).bytes z s.fd).length = 512 * (s.chunk i).count) :
    (((s.chunk i).bytes z s.fd).drop ((sector - (s.chunk i).sector) * 512)).take 512 =
      span (diskByte z s) (sector * 512) 512 := by
  obtain ⟨⟨hlow, hhigh⟩, -⟩ := holds_iff.mp hsector
  have hfind (d : Nat) (hd : d < 512) : diskByte z s (sector * 512 + d) =
      ((s.chunk i).bytes z s.fd).getD ((sector - (s.chunk i).sector) * 512 + d) 0 := by
    have hdiv : (sector * 512 + d) / 512 = sector := by omega
    have hsub : sector * 512 + d - (s.chunk i).sector * 512 = (sector - (s.chunk i).sector) * 512 + d := by
      omega
    rw [diskByte, hdiv, find_chunk hord hi hsector]
    dsimp only
    rw [hsub]
  refine ext_getElem? fun d => ?_
  by_cases hd : d < 512
  · rw [getElem?_take_of_lt hd, getElem?_drop, Backend.span_getElem? hd, hfind d hd,
      getElem?_eq_getElem (by omega), getD_eq_getElem _ _ (by omega)]
  · rw [getElem?_eq_none (by rw [length_take]; omega),
      getElem?_eq_none (by rw [Backend.span_length]; omega)]

theorem Plain.kind (hplain : Plain s sector (n + 1)) (hi : i < s.chunks.length)
    (hsector : (s.chunk i).holds (sectorNum sector) = true) : (s.chunk i).kind ≠ .copy := by
  intro hcopy
  have hnot := hplain _ (chunk_mem hi) hcopy 0 (Nat.succ_pos n)
  exact Bool.noConfusion (hnot.symm.trans hsector)

theorem Plain.next (hplain : Plain s sector (n + 1)) : Plain s (sector + 1) n := by
  intro c hc hcopy k hk
  rw [add_right_comm]
  exact hplain c hc hcopy (k + 1) (Nat.succ_lt_succ hk)

end MacOnLinux.Dmg
