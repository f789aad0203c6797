import MacOnLinux.Qcow.Flat

/-! # Runs of seeks, reads and writes -/

namespace MacOnLinux.Qcow

open State List Option File

variable {full : Prop} {z : Zlib} {s s' s0 : State} {size x y : Nat} {buf : List Byte} {f : File}
  {host : Host}

/-! ## Images -/

/-- The sizes fit, and everything has its own bytes. -/
structure Sound (s : State) : Prop where
  bits : s.clusterBits ≤ 30 ∧ s.l2Bits ≤ 24
  l1Size : s.l1Size < 2 ^ 29
  laid : s.Laid

/-- The tables cover the disk, and the clusters can be decompressed. -/
structure WellFormed (z : Zlib) (s : State) (size : Nat) : Prop extends Sound s where
  covers : size ≤ s.l1Size * 2 ^ (s.l2Bits + s.clusterBits)
  packed : ∀ i k, s.HasCluster i k → isCompressed (s.entry i k) = true →
    0 < s.csize (s.entry i k) ∧ (unpack z s (s.entry i k)).isSome

theorem WellFormed.indexed (h : WellFormed z s size) : Indexed s size := by
  intro y hy
  rw [l1Index, Nat.div_lt_iff_lt_mul (Nat.two_pow_pos _)]
  exact lt_of_lt_of_le hy h.covers

theorem readTables_spec {header : Header} (h : readTables host f header = some s) :
    ∃ hd b, s = { opened host f header with backingHd := hd, backing := b } := by
  unfold readTables at h
  split at h
  · cases h
  split at h
  · cases h
  split at h
  · cases h
  split at h
  · obtain rfl := some.inj h
    exact ⟨_, _, rfl⟩
  split at h
  · cases h
  split at h
  · cases h
  · obtain rfl := some.inj h
    exact ⟨_, _, rfl⟩

theorem qcowOpen_spec (h : qcowOpen host f = some s) :
    (readHeader f).ok = true ∧ ∃ hd b, s = { opened host f (readHeader f) with backingHd := hd, backing := b } := by
  unfold qcowOpen checkedHeader at h
  split at h
  · cases h
  split at h
  · cases h
  rename_i header hchecked
  split at hchecked
  · rename_i hok
    obtain rfl := some.inj hchecked
    refine ⟨hok.2, ?_⟩
    exact readTables_spec h
  · cases hchecked

theorem inv_of_open (h : qcowOpen host f = some s) (hsound : Sound s)
    (hpacked : full → ∀ i k, s.HasCluster i k → isCompressed (s.entry i k) = true →
      0 < s.csize (s.entry i k) ∧ (unpack z s (s.entry i k)).isSome) : Inv full z s := by
  obtain ⟨hok, hd, b, rfl⟩ := qcowOpen_spec h
  have hbits : 9 ≤ (readHeader f).clusterBits := by
    simp only [Header.ok, decide_eq_true_eq] at hok
    exact hok.2.2.2.1
  have hl1 : (readHeader f).l1Size < 2 ^ 29 := hsound.l1Size
  have hlaid := hsound.laid
  refine ⟨hbits, hlaid, ?_, ⟨fun j _ hne => absurd rfl hne, fun j j' _ _ hne _ => absurd rfl hne⟩, ?_, hpacked, ?_⟩
  · intro i hi
    have hi : i < (readHeader f).l1Size := hi
    exact if_pos (by unfold Header.l1Bytes; omega)
  · show ((range (2 ^ (readHeader f).clusterBits)).map host.heap).length = 2 ^ (readHeader f).clusterBits
    rw [length_map, length_range]
  intro hfull i k hc he hoff
  cases hdata : host.malloc 4 with
  | false =>
    obtain ⟨out, hout⟩ := isSome_iff_exists.mp (hpacked hfull i k hc he).2
    exact absurd ((unpack_eq_some hout).1.symm.trans hdata) (by decide)
  | true =>
  have hzero : (if host.malloc 4 then 0 else 2 ^ 64 - 1) = (opened host f (readHeader f)).coffset _ := hoff
  rw [hdata, if_pos rfl] at hzero
  -- the cache is not marked invalid, but no compressed cluster is where the header is
  have hpos := (hpacked hfull i k hc he).1
  refine absurd (hlaid.disjoint .header (.cluster i k) 0 ?_ ⟨hc, ?_, ?_⟩) (by nofun)
  · show 0 < headerSize
    decide
  · simp only [start, he]
    exact le_of_eq hzero.symm
  · simp only [len, he]
    exact lt_of_lt_of_le hpos (Nat.le_add_left _ _)

/-! ## Runs -/

abbrev History := List (Nat × List Byte)

def lastWrite : History → Nat → Option Byte
  | [], _ => none
  | (sector, buf) :: t, y => if Covers sector buf.length y then some (buf.getD (y - sector * 512) 0) else lastWrite t y

/-- Every read finds its bytes, every write the rest of its clusters and the room for new ones. -/
inductive Run (z : Zlib) (size : Nat) (s0 : State) : History → State → Prop
  | opened : Run z size s0 [] s0
  | seek {t : History} {s : State} (block offset : Int) (hrun : Run z size s0 t s) :
      Run z size s0 t (qcowSeek s block offset)
  | write {t : History} {s s' : State} {buf : List Byte} (hrun : Run z size s0 t s) (hin : InDisk s size buf)
      (hsafe : ∀ y, y < size → Complete s s.seekSector buf.length y) (hw : qcowWrite z s buf = some s')
      (hok : s'.failed = none) : Run z size s0 ((s.seekSector, buf) :: t) s'
  | read {t : History} {s s' : State} {buf out : List Byte} (hrun : Run z size s0 t s) (hin : InDisk s size buf)
      (hsafe : ∀ y, Covers s.seekSector buf.length y → Available s y) (hr : qcowRead z s buf = some (out, s')) :
      Run z size s0 t s'

/-- What holds along a run. -/
structure Follows (z : Zlib) (size : Nat) (s0 : State) (t : History) (s : State) : Prop where
  inv : Inv True z s
  indexed : Indexed s size
  byte : ∀ y, y < size → diskByte z s y = (lastWrite t y).getD (diskByte z s0 y)

theorem Indexed.keeps (h : Indexed s size) (hkeeps : Keeps s s') : Indexed s' size := by
  intro y hy
  rw [hkeeps.l1Index, hkeeps.l1Size]
  exact h y hy

theorem follows_of_run {t : History} (hinv : Inv True z s0) (hidx : Indexed s0 size) (hrun : Run z size s0 t s) :
    Follows z size s0 t s := by
  induction hrun with
  | opened => exact ⟨hinv, hidx, fun _ _ => rfl⟩
  | seek block offset _ ih => exact ⟨ih.inv.seek _, ih.indexed, ih.byte⟩
  | write _ hin hsafe hw hok ih =>
    obtain ⟨hinv', hkeeps, hbyte⟩ := qcowWrite_spec ih.inv (fun y hy => hin.covers ih.indexed hy) hw hok
    refine ⟨hinv', ih.indexed.keeps hkeeps, ?_⟩
    intro y hy
    rw [← hin.length] at hbyte
    rw [hbyte trivial y (ih.indexed y hy) (hsafe y hy), lastWrite, ih.byte y hy]
    split
    · rfl
    · rfl
  | read _ hin hsafe hr ih =>
    obtain ⟨s', hread, hreads⟩ := qcowRead_spec ih.inv trivial ih.indexed hin hsafe
    rw [hread] at hr
    obtain ⟨-, rfl⟩ := Prod.mk.inj (some.inj hr)
    refine ⟨hreads.inv, ih.indexed.keeps hreads.keeps, ?_⟩
    intro y hy
    rw [hreads.byte]
    exact ih.byte y hy

/-! ## Empty images -/

def Blank (s : State) (size : Nat) : Prop :=
  ((s.clusterBits ≤ 30 ∧ s.l2Bits ≤ 24) ∧ s.l1Size < 2 ^ 29) ∧ size ≤ s.l1Size * 2 ^ (s.l2Bits + s.clusterBits) ∧
    (∀ i, i < s.l1Size → s.l1Table i = 0) ∧ headerSize ≤ s.l1TableOffset ∧ s.l1TableOffset + s.l1Size * 8 ≤ s.fd.size

instance : Decidable (Blank s size) := inferInstanceAs (Decidable (_ ∧ _))

theorem Blank.wellFormed (z : Zlib) (h : Blank s size) : WellFormed z s size := by
  obtain ⟨⟨hbits, hl1⟩, hcovers, hempty, hheader, hend⟩ := h
  have hno (i : Nat) (hl2 : s.HasL2 i) : False := hl2.2 (hempty i hl2.1)
  refine ⟨⟨hbits, hl1, ⟨?_, ?_⟩⟩, hcovers, fun i k hc => (hno i hc.1).elim⟩
  · intro x y a hx hy
    cases x with
    | header =>
      cases y with
      | header => rfl
      | l1 => exact absurd (lt_of_lt_of_le hx hheader) (not_lt.mpr hy.1)
      | l2 i => exact (hno i hy.1).elim
      | cluster i k => exact (hno i hy.1.1).elim
    | l1 =>
      cases y with
      | header => exact absurd (lt_of_lt_of_le hy hheader) (not_lt.mpr hx.1)
      | l1 => rfl
      | l2 i => exact (hno i hy.1).elim
      | cluster i k => exact (hno i hy.1.1).elim
    | l2 i => exact (hno i hx.1).elim
    | cluster i k => exact (hno i hx.1.1).elim
  · intro x a hx
    cases x with
    | header => exact lt_of_lt_of_le hx (le_trans hheader (le_trans (Nat.le_add_right _ _) hend))
    | l1 => exact lt_of_lt_of_le hx.2 hend
    | l2 i => exact (hno i hx.1).elim
    | cluster i k => exact (hno i hx.1.1).elim

def ofList (bs : List Byte) : File := ⟨bs.length, fun i => bs.getD i 0, fun _ hi => getD_eq_default _ _ hi⟩

def blankImage (backingFileOffset backingFileSize size clusterBits l2Bits l1Size : Nat) (name : List Byte) :
    File :=
  ofList (toBytes 4 qcowMagic ++ toBytes 4 qcowVersion ++ toBytes 8 backingFileOffset ++
    toBytes 4 backingFileSize ++ toBytes 4 0 ++ toBytes 8 size ++ toBytes 1 clusterBits ++
    toBytes 1 l2Bits ++ toBytes 2 0 ++ toBytes 4 0 ++ toBytes 8 headerSize ++
    replicate (l1Size * 8) 0 ++ name)

def noZlib : Zlib := ⟨fun _ _ => none, by nofun⟩

def lone : Host := ⟨fun _ => 0, fun _ => true, fun _ => none, fun _ _ => true⟩

def ones : Host := { lone with diskOpen := fun _ => some (⟨7, by decide⟩, ofList (replicate 1024 1)) }

/-! ## Results -/

/-- A read gives what was written last, or what the image had when it was opened. -/
theorem reads_flat {t : History} (hopen : qcowOpen host f = some s0) (hwf : WellFormed z s0 (readHeader f).size)
    (hrun : Run z (readHeader f).size s0 t s) (hin : InDisk s (readHeader f).size buf)
    (hsafe : ∀ y, Covers s.seekSector buf.length y → Available s y) :
    ∃ s', qcowRead z s buf = some
      ((range buf.length).map fun d =>
        (lastWrite t (s.seekSector * 512 + d)).getD (diskByte z s0 (s.seekSector * 512 + d)), s') := by
  have hfollows := follows_of_run (inv_of_open hopen hwf.toSound (fun _ => hwf.packed)) hwf.indexed hrun
  obtain ⟨s', hread, -⟩ := qcowRead_spec hfollows.inv trivial hfollows.indexed hin hsafe
  refine ⟨s', hread.trans ?_⟩
  congr 2
  apply map_congr_left
  intro d hd
  have hlt := mem_range.mp hd
  have hle := hin.2
  exact hfollows.byte _ (by omega)

/-- The first sector of an overlay is written, and then both sectors are read. -/
theorem reads_flat_overlay :
    ∃ s s', Run noZlib 1024 s [(0, replicate 512 2)] s' ∧ ∃ s'', qcowRead noZlib s' (replicate 1024 3) = some
      ((range 1024).map fun d => (lastWrite [(0, replicate 512 2)] d).getD (diskByte noZlib s d), s'') := by
  have heval : ((qcowOpen ones (blankImage 64 2 1024 9 0 2 [0x2f, 0x62])).any fun s =>
      decide (Blank s 1024) && decide (s.clusterBits = 9) && decide (s.seekSector = 0) &&
        (qcowWrite noZlib s (replicate 512 2)).any fun s' =>
          decide (s'.failed = none) && decide (lookup s' 0 ≠ 0) && decide (s'.clusterBits = 9) &&
            decide (0 < s'.backingHd) &&
            decide (s'.backing.size = 1024)) = true := by
    decide +kernel
  have hsize : (readHeader (blankImage 64 2 1024 9 0 2 [0x2f, 0x62])).size = 1024 := by decide +kernel
  obtain ⟨s, hopen, hs⟩ := (any_eq_true _ _).mp heval
  simp only [Bool.and_eq_true, decide_eq_true_eq] at hs
  obtain ⟨⟨⟨hblank, hbits⟩, hseek⟩, hwrite⟩ := hs
  obtain ⟨s1, hw, hs1⟩ := (any_eq_true _ _).mp hwrite
  simp only [Bool.and_eq_true, decide_eq_true_eq] at hs1
  obtain ⟨⟨⟨⟨hok, hlook⟩, hbits1⟩, hhd⟩, hback⟩ := hs1
  have hcluster : s.clusterSize = 512 := by rw [clusterSize, hbits]; rfl
  have hcluster1 : s1.clusterSize = 512 := by rw [clusterSize, hbits1]; rfl
  have hrun : Run noZlib 1024 s [(0, replicate 512 2)] (qcowSeek s1 0 0) := by
    have hin : InDisk s 1024 (replicate 512 2) := by
      rw [InDisk, hseek, length_replicate]
      decide
    have hsafe (y : Nat) (_ : y < 1024) : Complete s s.seekSector (replicate 512 (2 : Byte)).length y := by
      rw [Complete, hcluster, hseek, length_replicate]
      rintro hmissed ⟨y', hin', hsame⟩
      unfold Covers at hmissed hin'
      omega
    have hstep := Run.write .opened hin hsafe hw hok
    rw [hseek] at hstep
    exact .seek 0 0 hstep
  refine ⟨s, qcowSeek s1 0 0, hrun, ?_⟩
  have hwf : WellFormed noZlib s (readHeader (blankImage 64 2 1024 9 0 2 [0x2f, 0x62])).size := by
    rw [hsize]
    exact hblank.wellFormed noZlib
  rw [← hsize] at hrun
  have hzero : (qcowSeek s1 0 0).seekSector = 0 := rfl
  have hin : InDisk (qcowSeek s1 0 0) (readHeader (blankImage 64 2 1024 9 0 2 [0x2f, 0x62])).size
    (replicate 1024 3) := by
    rw [InDisk, hsize, hzero, length_replicate]
    decide
  have havail (y : Nat) (hy : Covers (qcowSeek s1 0 0).seekSector (replicate 1024 (3 : Byte)).length y) :
      Available (qcowSeek s1 0 0) y := by
    rw [hzero, length_replicate] at hy
    obtain ⟨-, hlt⟩ := hy
    by_cases hfirst : y < 512
    · refine .inl ?_
      have hsame : lookup s1 y = lookup s1 0 := lookup_congr (by rw [hcluster1]; omega)
      show lookup s1 y ≠ 0
      rwa [hsame]
    · exact .inr ⟨hhd, by show y < s1.backing.size; omega⟩
  obtain ⟨s'', hread⟩ := reads_flat hopen hwf hrun hin havail
  rw [hzero, length_replicate] at hread
  simp only [zero_mul, zero_add] at hread
  exact ⟨s'', hread⟩

/-- A disk that was never written cannot be read, and the rest of a cluster is lost. -/
theorem unallocated_lost :
    (∃ s, qcowOpen lone (blankImage 0 0 512 9 0 1 []) = some s ∧ WellFormed noZlib s 512 ∧
      qcowRead noZlib s (replicate 512 1) = none) ∧
    ∃ s s' out s'', qcowOpen ones (blankImage 56 2 1024 10 0 1 [0x2f, 0x62]) = some s ∧
      WellFormed noZlib s 1024 ∧ diskByte noZlib s 512 = 1 ∧ qcowWrite noZlib s (replicate 512 2) = some s' ∧
      qcowRead noZlib (qcowSeek s' 1 0) (replicate 512 3) = some (out, s'') ∧ out.head? = some 0 := by
  constructor
  · have heval : ((qcowOpen lone (blankImage 0 0 512 9 0 1 [])).any fun s =>
        decide (Blank s 512) && (qcowRead noZlib s (replicate 512 1)).isNone) = true := by
      decide +kernel
    obtain ⟨s, hopen, hs⟩ := (any_eq_true _ _).mp heval
    simp only [Bool.and_eq_true, decide_eq_true_eq, isNone_iff_eq_none] at hs
    exact ⟨s, hopen, hs.1.wellFormed noZlib, hs.2⟩
  have heval : ((qcowOpen ones (blankImage 56 2 1024 10 0 1 [0x2f, 0x62])).any fun s =>
      decide (Blank s 1024) && decide (diskByte noZlib s 512 = 1) &&
        (qcowWrite noZlib s (replicate 512 2)).any fun s' =>
          (qcowRead noZlib (qcowSeek s' 1 0) (replicate 512 3)).any fun r => decide (r.1.head? = some 0)) = true := by
    decide +kernel
  obtain ⟨s, hopen, hs⟩ := (any_eq_true _ _).mp heval
  simp only [Bool.and_eq_true, decide_eq_true_eq] at hs
  obtain ⟨s', hw, hs'⟩ := (any_eq_true _ _).mp hs.2
  obtain ⟨⟨out, s''⟩, hr, hzero⟩ := (any_eq_true _ _).mp hs'
  exact ⟨s, s', out, s'', hopen, hs.1.1.wellFormed noZlib, hs.1.2, hw, hr, of_decide_eq_true hzero⟩

/-! ## Layout -/

/-- The states that successful writes inside the L1 table lead to, if the file can always grow. -/
inductive Writes (z : Zlib) (s0 : State) : State → Prop
  | opened : Writes z s0 s0
  | seek {s : State} (block offset : Int) (hrun : Writes z s0 s) : Writes z s0 (qcowSeek s block offset)
  | write {s s' : State} {buf : List Byte} (hrun : Writes z s0 s)
      (hx : ∀ y, Covers s.seekSector (buf.length / 512 * 512) y → s.l1Index y < s.l1Size)
      (hw : qcowWrite z s buf = some s') (hok : s'.failed = none) : Writes z s0 s'

/-- The tables in memory are those of the file. -/
structure Synced (s : State) : Prop where
  l1 : ∀ i, i < s.l1Size → s.l1Table i = s.fd.word (s.l1TableOffset + i * 8)
  l2 : ∀ j, j < l2CacheSize → s.l2CacheOffsets j ≠ 0 →
    (∃ i, s.HasL2 i ∧ s.l1Table i = s.l2CacheOffsets j) ∧
      ∀ k, k < s.l2Size → s.l2Cache j k = s.fd.word (s.l2CacheOffsets j + k * 8)

/-- An image of two sectors with an empty L2 table at 512, and no room behind it. -/
def tableImage : File :=
  ofList (((blankImage 0 0 1024 10 0 0 []).read 0 headerSize ++ toBytes 8 512) ++ replicate 464 0)

def crowded : Host := { lone with grows := fun _ _ => false }

theorem laid_tableImage (h : qcowOpen crowded tableImage = some s) : Sound s := by
  obtain ⟨-, hd, b, rfl⟩ := qcowOpen_spec h
  have hl1 : (readHeader tableImage).l1Size = 1 := by decide +kernel
  have hoff : (readHeader tableImage).l1TableOffset = 48 := by decide +kernel
  have hl2 : (readHeader tableImage).l2Bits = 0 := by decide +kernel
  have htable : (opened crowded tableImage (readHeader tableImage)).l1Table 0 = 512 := by decide +kernel
  have hentry : tableImage.word (512 + 0 * 8) = 0 := by decide +kernel
  have hbits : (readHeader tableImage).clusterBits = 10 := by decide +kernel
  have hfd : tableImage.size = 520 := by decide +kernel
  generalize hs : ({ opened crowded tableImage (readHeader tableImage) with backingHd := hd, backing := b } : State) = s
  have hsize : s.l1Size = 1 ∧ s.l1TableOffset = 48 ∧ s.l2Bits = 0 ∧ s.l1Table 0 = 512 ∧ s.entry 0 0 = 0 ∧
      s.clusterBits = 10 ∧ s.fd.size = 520 := by
    subst hs
    refine ⟨hl1, hoff, hl2, htable, ?_, hbits, hfd⟩
    show tableImage.word ((opened crowded tableImage (readHeader tableImage)).l1Table 0 + 0 * 8) = 0
    rw [htable]
    exact hentry
  obtain ⟨hl1, hoff, hl2, htable, hentry, hbits, hfd⟩ := hsize
  have hl2Size : s.l2Size = 1 := by rw [l2Size, hl2]; rfl
  have howns : ∀ x a, s.Owns x a → (x = .header ∧ a < 48) ∨ (x = .l1 ∧ 48 ≤ a ∧ a < 56) ∨
      (x = .l2 0 ∧ 512 ≤ a ∧ a < 520) := by
    intro x a hx
    cases x with
    | header => exact .inl ⟨rfl, hx⟩
    | l1 =>
      have hx : s.l1TableOffset ≤ a ∧ a < s.l1TableOffset + s.l1Size * 8 := hx
      exact .inr (.inl ⟨rfl, by omega, by omega⟩)
    | l2 i =>
      obtain ⟨⟨hi, -⟩, hge, hlt⟩ := hx
      obtain rfl : i = 0 := by omega
      exact .inr (.inr ⟨rfl, by omega, by omega⟩)
    | cluster i k =>
      obtain ⟨⟨⟨hi, -⟩, hk, hne⟩, -⟩ := hx
      obtain rfl : i = 0 := by omega
      obtain rfl : k = 0 := by omega
      exact absurd hentry hne
  refine ⟨⟨by omega, by omega⟩, by omega, ⟨?_, ?_⟩⟩
  · intro x y a hx hy
    rcases howns x a hx with ⟨rfl, _⟩ | ⟨rfl, _, _⟩ | ⟨rfl, _, _⟩ <;>
    rcases howns y a hy with ⟨rfl, _⟩ | ⟨rfl, _, _⟩ | ⟨rfl, _, _⟩ <;>
    first | rfl | omega
  · intro x a hx
    rcases howns x a hx with ⟨-, _⟩ | ⟨-, _, _⟩ | ⟨-, _, _⟩ <;> omega

end MacOnLinux.Qcow
