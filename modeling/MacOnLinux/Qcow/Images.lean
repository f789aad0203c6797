import MacOnLinux.Disk.Backends
import MacOnLinux.Qcow.Runs
import Mathlib.Tactic.IntervalCases

/-! # The headers that `qcow_open` accepts, and those that `create_img_qcow` makes -/

namespace MacOnLinux.Qcow

open State List File Nat

/-! ## Sizes -/

def oneShift (n : Nat) : Int := Int.bmod (2 ^ n) (2 ^ 32)

namespace Header

variable (h : Header)

def shift : Nat := h.clusterBits + h.l2Bits

def l2CacheBytes : Nat := 2 ^ h.l2Bits * l2CacheSize * 8 % 2 ^ 32

def l1IndexOf (offset : Nat) : Int := Int.bmod (offset / 2 ^ h.shift : Nat) (2 ^ 32)
def l2IndexOf (offset : Nat) : Nat := offset / 2 ^ h.clusterBits % 2 ^ h.l2Bits

structure Sufficient : Prop where
  shifts : h.clusterBits < 32 ∧ h.l2Bits < 32 ∧ h.shift < 64
  clusterSize : oneShift h.clusterBits = 2 ^ h.clusterBits
  l2Size : oneShift h.l2Bits = 2 ^ h.l2Bits
  l1 : ∀ offset < h.size, 0 ≤ h.l1IndexOf offset ∧ h.l1IndexOf offset < Int.bmod h.l1Size (2 ^ 32) ∧
    (h.l1IndexOf offset + 1) * 8 ≤ h.l1Bytes
  l2 : ∀ offset < h.size, h.l2IndexOf offset < 2 ^ h.l2Bits ∧
    ∀ i < l2CacheSize, (i * 2 ^ h.l2Bits + h.l2IndexOf offset + 1) * 8 ≤ h.l2CacheBytes

structure Sized : Prop where
  clusterBits : h.clusterBits ≤ 30
  l2Bits : h.l2Bits ≤ 24
  size : h.size + 2 ^ h.shift ≤ 2 ^ 64
  l1Size : h.size ≤ (2 ^ 29 - 1) * 2 ^ h.shift

variable {h}

theorem l1Size_eq (hsize : h.size + 2 ^ h.shift ≤ 2 ^ 64) (hl1 : h.size ≤ (2 ^ 29 - 1) * 2 ^ h.shift) :
    h.l1Size = (h.size + 2 ^ h.shift - 1) / 2 ^ h.shift ∧ h.l1Size < 2 ^ 29 := by
  have hpos := Nat.two_pow_pos h.shift
  have hlt : (h.size + 2 ^ h.shift - 1) / 2 ^ h.shift < 2 ^ 29 := by
    rw [div_lt_iff_lt_mul hpos]
    omega
  have heq : h.l1Size = (h.size + 2 ^ h.shift - 1) / 2 ^ h.shift := by
    show (h.size + 2 ^ h.shift - 1) % 2 ^ 64 / 2 ^ h.shift % 2 ^ 32 = _
    rw [mod_eq_of_lt (a := _ + _ - 1) (by omega), mod_eq_of_lt (by omega)]
  exact ⟨heq, heq ▸ hlt⟩

theorem oneShift_eq {n : Nat} (hn : n ≤ 30) : oneShift n = 2 ^ n := by
  interval_cases n <;> decide

theorem index_lt {p size offset : Nat} (hp : 0 < p) (hoffset : offset < size) : offset / p < (size + p - 1) / p := by
  rw [div_lt_iff_lt_mul hp]
  have := lt_mul_div_succ (size + p - 1) hp
  rw [mul_succ, mul_comm] at this
  omega

theorem Sized.sufficient (hs : h.Sized) : h.Sufficient := by
  obtain ⟨hcluster, hl2, hsize, hl1⟩ := hs
  obtain ⟨heq, hlt⟩ := l1Size_eq hsize hl1
  refine ⟨⟨by omega, by omega, by unfold shift; omega⟩, oneShift_eq hcluster, oneShift_eq (by omega), ?_, ?_⟩
  · intro offset hoffset
    have hindex := index_lt (Nat.two_pow_pos h.shift) hoffset
    unfold l1IndexOf l1Bytes
    generalize offset / 2 ^ h.shift = i at hindex
    rw [Int.bmod_eq_of_le (by omega) (by omega), Int.bmod_eq_of_le (by omega) (by omega)]
    omega
  intro offset _
  have hindex : h.l2IndexOf offset < 2 ^ h.l2Bits := Nat.mod_lt _ (Nat.two_pow_pos _)
  refine ⟨hindex, fun i hi => ?_⟩
  unfold l2CacheBytes l2CacheSize at *
  have hle : 2 ^ h.l2Bits ≤ 2 ^ 24 := Nat.pow_le_pow_right (by decide) hl2
  have hmul : i * 2 ^ h.l2Bits ≤ 15 * 2 ^ h.l2Bits := mul_le_mul_right _ (by omega)
  omega

theorem Sufficient.sized (hs : h.Sufficient) (hpos : 0 < h.size) (hlt : h.size < 2 ^ 64) : h.Sized := by
  obtain ⟨⟨hc, hl, -⟩, hcluster, hl2, hl1, hcache⟩ := hs
  have hc30 : h.clusterBits ≤ 30 := by
    by_contra hgt
    rw [show h.clusterBits = 31 by omega] at hcluster
    exact absurd hcluster (by decide)
  have hl24 : h.l2Bits ≤ 24 := by
    by_contra hgt
    have hroom := (hcache 0 hpos).2 15 (by decide)
    unfold l2CacheBytes l2CacheSize at hroom
    generalize h.l2Bits = n at *
    interval_cases n <;> omega
  have hp := Nat.two_pow_pos h.shift
  have hsize : h.size + 2 ^ h.shift ≤ 2 ^ 64 := by
    by_contra hgt
    have hzero : h.l1Size = 0 := by
      show (h.size + 2 ^ h.shift - 1) % 2 ^ 64 / 2 ^ h.shift % 2 ^ 32 = _
      rw [div_eq_of_lt (by omega), zero_mod]
    obtain ⟨-, hin, -⟩ := hl1 0 hpos
    rw [hzero] at hin
    unfold l1IndexOf at hin
    simp at hin
  refine ⟨hc30, hl24, hsize, ?_⟩
  by_contra hgt
  -- the table has an entry whose end is 2 ^ 32 bytes behind its start
  obtain ⟨-, -, hroom⟩ := hl1 ((2 ^ 29 - 1) * 2 ^ h.shift) (by omega)
  have hbytes : h.l1Bytes < 2 ^ 32 := Nat.mod_lt _ (by decide)
  unfold l1IndexOf at hroom
  rw [Nat.mul_div_cancel _ hp, Int.bmod_eq_of_le (by decide) (by decide)] at hroom
  omega

end Header

theorem be_lt (f : File) (off n : Nat) : be f off n < 256 ^ n := by
  have h := ofBytes_lt ((range n).map fun i => f.data (off + i))
  rwa [length_map, length_range] at h

theorem Header.ok_iff {h : Header} : h.ok = true ↔
    h.magic = qcowMagic ∧ h.version = qcowVersion ∧ 1 < h.size ∧ 9 ≤ h.clusterBits ∧ h.cryptMethod ≤ cryptAes := by
  exact decide_eq_true_iff

theorem header_sufficient_iff {f : File} (hok : (readHeader f).ok = true) :
    (readHeader f).Sufficient ↔ (readHeader f).Sized := by
  refine ⟨fun h => h.sized ?_ (be_lt f 24 8), Header.Sized.sufficient⟩
  exact lt_trans one_pos (Header.ok_iff.mp hok).2.2.1

/-- L2 tables of `2 ^ 25` entries: the cache gets a block of no bytes. -/
theorem header_insufficient : ∃ f : File, (qcowOpen lone f).isSome = true ∧ ¬ (readHeader f).Sufficient := by
  refine ⟨blankImage 0 0 512 9 25 1 [], by decide +kernel, fun h => ?_⟩
  have hroom := (h.l2 0 (by decide +kernel)).2 0 (by decide)
  exact absurd hroom (by decide +kernel)

theorem header_sufficient_one : ∃ f : File, (readHeader f).ok = true ∧ (readHeader f).Sufficient := by
  have hok : (readHeader (blankImage 0 0 512 9 0 1 [])).ok = true := by decide +kernel
  refine ⟨_, hok, (header_sufficient_iff hok).mpr ⟨?_, ?_, ?_, ?_⟩⟩ <;> decide +kernel

/-! ## New images -/

def imgL1Size (size : Nat) : Nat := (size + 2 ^ 21 - 1) / 2 ^ 21

def imgHeader (size : Nat) : List Byte :=
  toBytes 4 qcowMagic ++ toBytes 4 qcowVersion ++ toBytes 8 0 ++ toBytes 4 0 ++ toBytes 4 0 ++
    toBytes 8 size ++ toBytes 1 12 ++ toBytes 1 9 ++ toBytes 2 0 ++ toBytes 4 0 ++
    toBytes 8 headerSize

/-- `create_img_qcow`, if the file can be made; `ok` says which writes succeed. -/
def createImgQcow (ok : Nat → Bool) (size : Nat) : Option File :=
  if (List.range (imgL1Size size + 1)).all ok then
    some (ofList (imgHeader size ++ List.replicate (imgL1Size size * 8) 0))
  else none

structure OpensEmpty (f : File) (size : Nat) : Prop where
  read : (f.read (readHeader f).l1TableOffset (min (readHeader f).l1Bytes maxRw)).length = (readHeader f).l1Bytes
  sized : (readHeader f).size = size
  inside : ∀ o < size, 0 ≤ (readHeader f).l1IndexOf o ∧ ((readHeader f).l1IndexOf o + 1) * 8 ≤ (readHeader f).l1Bytes
  empty : ∀ z host, (∀ n, host.malloc n = true) → ∃ s, qcowOpen host f = some s ∧
    ∀ o < size, getClusterOffset z s o false 0 0 = some (0, s)

section Created

variable {ok : Nat → Bool} {size : Nat} {f : File}

theorem be_skip {a b : List Byte} {off n : Nat} (h : a.length ≤ off) :
    be (ofList (a ++ b)) off n = be (ofList b) (off - a.length) n := by
  unfold be ofList
  congr 2
  funext i
  dsimp only
  rw [getD_append_right _ _ _ _ (by omega), Nat.sub_add_comm h]

theorem be_here {b : List Byte} {n v : Nat} (h : v < 256 ^ n) : be (ofList (toBytes n v ++ b)) 0 n = v := by
  have hmap : ((range n).map fun i => (toBytes n v ++ b).getD (0 + i) 0) = toBytes n v := by
    apply ext_getElem
    · simp
    · intro i hi hi'
      rw [getElem_map, getElem_range, zero_add, getD_append _ _ _ _ hi', getD_eq_getElem]
  unfold be ofList
  rw [hmap, ofBytes_toBytes h]

section Made

variable (h : createImgQcow ok size = some f)

include h

theorem created_header (hlt : size < 2 ^ 64) :
    readHeader f = ⟨qcowMagic, qcowVersion, 0, 0, size, 12, 9, 0, headerSize⟩ := by
  unfold createImgQcow at h
  split at h
  · cases h
    unfold readHeader imgHeader
    simp (disch := first | decide | simp) [be_skip, be_here]
    exact be_here hlt
  · cases h

theorem created_data :
    f.size = headerSize + imgL1Size size * 8 ∧ ∀ i, headerSize ≤ i → f.data i = 0 := by
  unfold createImgQcow at h
  split at h
  · cases h
    have hlen : (imgHeader size).length = headerSize := by
      rfl
    refine ⟨?_, fun i hi => ?_⟩
    · show length (_ ++ _) = _
      rw [length_append, length_replicate, hlen]
    · show getD (_ ++ _) i 0 = 0
      rw [getD_append_right _ _ _ _ (by omega), getD_eq_getElem?_getD, getElem?_replicate]
      split <;> rfl
  · cases h

omit h in
theorem imgL1Size_le_iff {n : Nat} : imgL1Size size ≤ n ↔ size ≤ n * 2 ^ 21 := by
  unfold imgL1Size
  omega

theorem created_l1Size (hl1 : imgL1Size size < 2 ^ 31) :
    (readHeader f).l1Size = imgL1Size size := by
  have hsize := imgL1Size_le_iff.mp (le_of_lt hl1)
  rw [created_header h (by omega)]
  show (size + 2 ^ 21 - 1) % 2 ^ 64 / 2 ^ 21 % 2 ^ 32 = imgL1Size size
  unfold imgL1Size at *
  omega

theorem created_empty (hsize : 1 < size) (hle : imgL1Size size ≤ maxRw / 8) (z : Zlib)
    (host : Host) (hmalloc : ∀ n, host.malloc n = true) :
    ∃ s, qcowOpen host f = some s ∧ ∀ o < size, getClusterOffset z s o false 0 0 = some (0, s) := by
  unfold maxRw at hle
  have hl1 : imgL1Size size < 2 ^ 31 := by omega
  have hbound := imgL1Size_le_iff.mp (le_of_lt hl1)
  have hheader := created_header h (by omega)
  have hl1Size := created_l1Size h hl1
  have hbytes : (readHeader f).l1Bytes = imgL1Size size * 8 := by
    unfold Header.l1Bytes
    omega
  obtain ⟨hlen, hzero⟩ := created_data h
  have hok : (readHeader f).ok = true := by
    rw [Header.ok_iff, hheader]
    exact ⟨rfl, rfl, hsize, show 9 ≤ 12 by decide, zero_le _⟩
  have hread : (f.read (readHeader f).l1TableOffset (min (readHeader f).l1Bytes maxRw)).length =
      (readHeader f).l1Bytes := by
    rw [hbytes, min_eq_left (by unfold maxRw; omega)]
    apply length_read_of_le
    rw [hheader, hlen]
  refine ⟨opened host f (readHeader f), ?_, fun o ho => ?_⟩
  · have hchecked : checkedHeader f = some (readHeader f) := if_pos ⟨by omega, hok⟩
    rw [qcowOpen, if_neg (by simp [hmalloc]), hchecked]
    show readTables host f (readHeader f) = _
    rw [readTables, if_neg (by simp [hmalloc]), if_neg (by simp [hread]), if_neg (by simp [hmalloc]),
      if_pos (by rw [hheader])]
  have hindex : (opened host f (readHeader f)).l1Index o < (opened host f (readHeader f)).l1Size := by
    have := Header.index_lt (Nat.two_pow_pos 21) ho
    show o / 2 ^ ((readHeader f).l2Bits + (readHeader f).clusterBits) < (readHeader f).l1Size
    rw [hl1Size, hheader]
    exact this
  have hnone : (opened host f (readHeader f)).l1Table ((opened host f (readHeader f)).l1Index o) = 0 := by
    have hin : (opened host f (readHeader f)).l1Index o < (readHeader f).l1Size := hindex
    refine (if_pos (by rw [hbytes, ← hl1Size]; omega)).trans ?_
    apply word_eq_zero
    intro i _
    apply hzero
    rw [hheader]
    exact le_trans (le_add_right _ _) (le_add_right _ _)
  unfold getClusterOffset findL2
  rw [if_pos hnone]
  rfl

theorem created_l1IndexOf (hl1 : imgL1Size size < 2 ^ 31) {o : Nat} (ho : o < size) :
    (readHeader f).l1IndexOf o = (o / 2 ^ 21 : Nat) ∧ o / 2 ^ 21 < imgL1Size size := by
  have hsize := imgL1Size_le_iff.mp (le_of_lt hl1)
  have hlt := Header.index_lt (Nat.two_pow_pos 21) ho
  refine ⟨?_, hlt⟩
  rw [created_header h (by omega)]
  show Int.bmod (o / 2 ^ 21 : Nat) (2 ^ 32) = _
  exact Int.bmod_eq_of_le (by omega) (by unfold imgL1Size at hl1; omega)

end Made

theorem OpensEmpty.bounded (hopens : OpensEmpty f size) (h : createImgQcow ok size = some f) (hsize : 0 < size)
    (hl1 : imgL1Size size < 2 ^ 31) : size ≤ maxRw / 8 * 2 ^ 21 := by
  obtain ⟨hindex, -⟩ := created_l1IndexOf h hl1 (sub_one_lt_of_lt hsize)
  have hinside := (hopens.inside (size - 1) (sub_one_lt_of_lt hsize)).2
  have hread := hopens.read
  rw [File.read, length_map, length_range] at hread
  omega

/-- A new image is an empty disk as long as one call can read its L1 table. -/
theorem created_opens_iff (h : createImgQcow ok size = some f) (hsize : 2 ≤ size) (hl1 : imgL1Size size < 2 ^ 31) :
    OpensEmpty f size ↔ size ≤ maxRw / 8 * 2 ^ 21 := by
  refine ⟨fun hopens => hopens.bounded h (by omega) hl1, fun hle => ?_⟩
  have hle := imgL1Size_le_iff.mpr hle
  have hheader := created_header h (by have := imgL1Size_le_iff.mp hle; unfold maxRw at *; omega)
  have hbytes : (readHeader f).l1Bytes = imgL1Size size * 8 := by
    unfold Header.l1Bytes
    rw [created_l1Size h hl1]
    unfold maxRw at hle
    omega
  refine ⟨?_, by rw [hheader], fun o ho => ?_, created_empty h hsize hle⟩
  · rw [hbytes, min_eq_left (by omega)]
    apply length_read_of_le
    rw [(created_data h).1, hheader]
  · obtain ⟨hindex, hlt⟩ := created_l1IndexOf h hl1 ho
    omega

theorem created_opens_small : ∃ f, createImgQcow (fun _ => true) 5000000 = some f ∧ OpensEmpty f 5000000 := by
  have h : createImgQcow (fun _ => true) 5000000 = some _ := if_pos rfl
  exact ⟨_, h, (created_opens_iff h (by decide) (by decide)).mpr (by decide)⟩

theorem created_not_opened : ∃ f size, 2 ≤ size ∧ imgL1Size size < 2 ^ 31 ∧
    createImgQcow (fun _ => true) size = some f ∧ ¬ OpensEmpty f size := by
  have h : createImgQcow (fun _ => true) (2 ^ 49) = some _ := if_pos (all_eq_true.mpr fun _ _ => rfl)
  refine ⟨_, 2 ^ 49, by decide, by decide, h, fun hopens => ?_⟩
  exact absurd (hopens.bounded h (by decide) (by decide)) (by decide)

end Created

end MacOnLinux.Qcow
