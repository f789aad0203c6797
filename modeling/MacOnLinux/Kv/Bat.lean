import Mathlib.Data.List.InsertIdx
import MacOnLinux.Kv.Blocks

/-! # The BAT of the framebuffer -/

namespace MacOnLinux.Kv

open List Nat Prod

/-! ## bat_align -/

def batLengthLoop (size : Word) : Nat → Word → Word
  | 0, s => s
  | rounds + 1, s => if s < size then batLengthLoop size rounds (s <<< 1) else s

/-- The size is at most 0x10000000 then, which 11 rounds reach. -/
def batLength (size : Word) : Word :=
  batLengthLoop (if size > 0x10000000 then 0x10000000 else size) 11 0x20000

def batUpper (ea s : Word) : Word := (ea &&& ~~~(s - 1)) ||| (((s - 1) >>> 17) <<< 2) ||| 3

def batLower (forceCache : Bool) (lphys s : Word) : Word :=
  (lphys &&& ~~~(s - 1)) ||| 2 ||| 0x10 ||| (if forceCache then 0x40 else 0x20)

def batAlign (forceCache : Bool) (ea lphys size : Word) : Option (Word × Word) :=
  if 0x20000 > size then none
  else
    let s := batLength size
    if ea &&& (s - 1) ≠ lphys &&& (s - 1) then none
    else some (batUpper ea s, batLower forceCache lphys s)

/-! ## transl_dbat0 -/

/-- The map with `transl_dbat0` and the MAPPING_DBAT flag of each row of the table. -/
structure BatKv where
  kv : Kv
  rows : List (Block × Bool)
  word0 : Word
  word1 : Word

def BatKv.addBlockTrans (s : BatKv) (mbase lvbase size : Word) (flags : MapFlags) (dbat ok : Bool) :
    Option (BatKv × Option Nat) := do
  let r ← s.kv.addBlockTrans mbase lvbase size flags ok
  match r.2 with
  | none => some ({ s with kv := r.1 }, none)
  | some id =>
    -- remove illegal combinations; scratch pages have no DBAT
    let dbat := dbat && flags.physical && !flags.scratch
    let b := s.kv.newBlock mbase lvbase size flags
    let bat := if dbat then batAlign flags.forceCache mbase lvbase size else none
    let words := bat.getD (s.word0, s.word1)
    some ({
      kv := r.1
      rows := s.rows.insertIdx (place s.kv.io mbase b.flags) (b, dbat)
      word0 := words.1
      word1 := words.2 }, some id)

def BatKv.removeBlockTrans (s : BatKv) (id : Nat) : Option BatKv := do
  let kv ← s.kv.removeBlockTrans id
  let dbat := (s.rows.find? (·.1.id = id)).any (·.2)
  some {
    kv := kv
    rows := s.rows.eraseP (·.1.id = id)
    word0 := if dbat then 0 else s.word0
    word1 := if dbat then 0 else s.word1 }

/-! ## What a BAT translates -/

def batTarget (word0 word1 ea : Word) : Word :=
  ea - (macBat word0 word1).base + (macBat word0 word1).mbase

/-- `ea` is an address of the block, and goes to the same place in it. -/
structure InBlock (b : Block) (word0 word1 ea : Word) : Prop where
  lower : b.mbase.toNat ≤ ea.toNat
  upper : ea.toNat < b.mbase.toNat + b.size.toNat
  target : batTarget word0 word1 ea = b.lvbase + (ea - b.mbase)

def BatKv.BatOk (s : BatKv) : Prop :=
  (s.word0 ≠ 0 ∨ s.word1 ≠ 0) → ∀ svMode ea, (macBat s.word0 s.word1).hits svMode ea →
    ∃ b, (b, true) ∈ s.rows ∧ b.flags.physical = true ∧ InBlock b s.word0 s.word1 ea

/-! ## The length -/

variable {i id : Nat} {size mbase lvbase : Word} {b : Block} {s s' : BatKv} {flags : MapFlags}
variable {dbat ok : Bool} {r : Option Nat}

theorem batLengthLoop_spec (size : Word) : ∀ rounds n, n + rounds ≤ 31 → size.toNat ≤ 2 ^ (n + rounds) →
    ∃ m, n ≤ m ∧ m ≤ n + rounds ∧ batLengthLoop size rounds (BitVec.ofNat 32 (2 ^ n)) = BitVec.ofNat 32 (2 ^ m) ∧
      size.toNat ≤ 2 ^ m ∧ (m = n ∨ 2 ^ (m - 1) < size.toNat) := by
  intro rounds
  induction rounds with
  | zero =>
    intro n hn hsize
    exact ⟨n, le_refl n, le_refl n, rfl, hsize, .inl rfl⟩
  | succ rounds ih =>
    intro n hn hsize
    have hpow : 2 ^ n < 2 ^ 32 := Nat.pow_lt_pow_right (by omega) (by omega)
    have hval : (BitVec.ofNat 32 (2 ^ n)).toNat = 2 ^ n := by
      rw [BitVec.toNat_ofNat, mod_eq_of_lt hpow]
    unfold batLengthLoop
    by_cases hlt : BitVec.ofNat 32 (2 ^ n) < size
    · have hdouble : BitVec.ofNat 32 (2 ^ n) <<< 1 = BitVec.ofNat 32 (2 ^ (n + 1)) := by
        apply BitVec.eq_of_toNat_eq
        rw [BitVec.toNat_shiftLeft, hval, BitVec.toNat_ofNat, shiftLeft_eq, pow_succ 2 n]
      rw [if_pos hlt, hdouble]
      obtain ⟨m, h1, h2, h3, h4, h5⟩ := ih (n + 1) (by omega) (by rwa [add_assoc, add_comm 1])
      refine ⟨m, by omega, by omega, h3, h4, .inr ?_⟩
      rcases h5 with rfl | h5
      · rw [BitVec.lt_def, hval] at hlt
        exact hlt
      · exact h5
    · rw [if_neg hlt]
      rw [BitVec.lt_def] at hlt
      exact ⟨n, le_refl n, by omega, rfl, by omega, .inl rfl⟩

theorem batLength_spec (size : Word) : ∃ n, 17 ≤ n ∧ n ≤ 28 ∧ batLength size = BitVec.ofNat 32 (2 ^ n) ∧
    min size.toNat (2 ^ 28) ≤ 2 ^ n ∧ (n = 17 ∨ 2 ^ (n - 1) < min size.toNat (2 ^ 28)) := by
  have hmin : (if size > 0x10000000 then 0x10000000 else size : Word).toNat = min size.toNat (2 ^ 28) := by
    split
    · next h =>
      have h' : 2 ^ 28 < size.toNat := h
      rw [min_eq_right (le_of_lt h')]
      rfl
    · next h =>
      have h' : ¬ 2 ^ 28 < size.toNat := h
      rw [Nat.min_eq_left (Nat.le_of_not_lt h')]
  obtain ⟨n, h1, h2, h3, h4, h5⟩ := batLengthLoop_spec _ 11 17 (by omega)
    (hmin.trans_le (min_le_right ..))
  rw [hmin] at h4 h5
  exact ⟨n, h1, h2, h3, h4, h5⟩

/-! ## The words -/

section Words

variable {n : Nat}

theorem pow_sub_one (n : Nat) : BitVec.ofNat 32 (2 ^ n) - 1 = BitVec.ofNat 32 (2 ^ n - 1) :=
  BitVec.ofNat_sub_ofNat_of_le _ _ (by decide) (Nat.two_pow_pos n)

theorem pow_sub_one_bit (hn : n < 32) (i : Nat) :
    (BitVec.ofNat 32 (2 ^ n) - 1).getLsbD i = decide (i < n) := by
  rw [pow_sub_one, BitVec.getLsbD_ofNat]
  by_cases hi : i < n
  · simp [lt_trans hi hn]
  · simp [hi]

theorem not_pow_sub_one (hn : n < 32) : ~~~(BitVec.ofNat 32 (2 ^ n) - 1) = BitVec.allOnes 32 <<< n := by
  apply BitVec.eq_of_getLsbD_eq
  intro i hi
  simp only [BitVec.getLsbD_not, pow_sub_one_bit hn, BitVec.getLsbD_shiftLeft, BitVec.getLsbD_allOnes]
  by_cases h : i < n
  · simp [h]
  · simp [h]
    omega

theorem batUpper_bit (h1 : 17 ≤ n) (h2 : n ≤ 28) (ea : Word) (hi : i < 32) :
    (batUpper ea (BitVec.ofNat 32 (2 ^ n))).getLsbD i =
      (ea.getLsbD i && decide (n ≤ i) || decide (i < n - 15)) := by
  have hthree : (3 : Word).getLsbD i = decide (i < 2) := by
    have : (3 : Word) = BitVec.ofNat 32 (2 ^ 2) - 1 := by decide
    rw [this, pow_sub_one_bit (by omega)]
  unfold batUpper
  simp only [BitVec.getLsbD_or, BitVec.getLsbD_and, BitVec.getLsbD_not, BitVec.getLsbD_shiftLeft,
    BitVec.getLsbD_ushiftRight, pow_sub_one_bit (show n < 32 by omega), hthree, hi]
  rcases lt_or_ge i 2 with h | h
  · simp [h, show i < n - 15 by omega]
  · simp [show ¬ i < 2 by omega, show (17 + (i - 2) < n ↔ i < n - 15) by omega, ← decide_not]

theorem batLower_bit (h1 : 17 ≤ n) (h2 : n ≤ 28) (forceCache : Bool) (lphys : Word) (h17 : 17 ≤ i)
    (hi : i < 32) :
    (batLower forceCache lphys (BitVec.ofNat 32 (2 ^ n))).getLsbD i =
      (lphys.getLsbD i && decide (n ≤ i)) := by
  have hsmall : ∀ c : Word, c.toNat < 2 ^ 17 → c.getLsbD i = false := fun c hc =>
    testBit_lt_two_pow (hc.trans_le (Nat.pow_le_pow_right (by omega) h17))
  have hcache : (if forceCache then 0x40 else 0x20 : Word).getLsbD i = false := by
    cases forceCache <;> exact hsmall _ (by decide)
  unfold batLower
  simp only [BitVec.getLsbD_or, BitVec.getLsbD_and, BitVec.getLsbD_not, hcache,
    pow_sub_one_bit (show n < 32 by omega), hsmall 2 (by decide), hsmall 0x10 (by decide), hi]
  simp [← decide_not]

theorem bat_bl (h1 : 17 ≤ n) (h2 : n ≤ 28) (ea : Word) :
    (batUpper ea (BitVec.ofNat 32 (2 ^ n)) >>> 2) &&& 0x7ff = BitVec.ofNat 32 (2 ^ (n - 17)) - 1 := by
  have hseven : (0x7ff : Word) = BitVec.ofNat 32 (2 ^ 11) - 1 := by decide
  apply BitVec.eq_of_getLsbD_eq
  intro i hi
  rw [hseven, BitVec.getLsbD_and, BitVec.getLsbD_ushiftRight, pow_sub_one_bit (by omega),
    pow_sub_one_bit (by omega)]
  by_cases h : i < 11
  · rw [batUpper_bit h1 h2 ea (by omega)]
    simp [h, show ¬ n ≤ 2 + i by omega, show (2 + i < n - 15 ↔ i < n - 17) by omega]
  · simp [h]
    omega

theorem bat_field (h1 : 17 ≤ n) (h2 : n ≤ 28) {w x : Word}
    (hw : ∀ i, 17 ≤ i → i < 32 → w.getLsbD i = (x.getLsbD i && decide (n ≤ i))) :
    ((w >>> 17) &&& ~~~(BitVec.ofNat 32 (2 ^ (n - 17)) - 1)) <<< 17 =
      x &&& ~~~(BitVec.ofNat 32 (2 ^ n) - 1) := by
  apply BitVec.eq_of_getLsbD_eq
  intro i hi
  simp only [BitVec.getLsbD_shiftLeft, BitVec.getLsbD_and, BitVec.getLsbD_not,
    BitVec.getLsbD_ushiftRight, pow_sub_one_bit (show n < 32 by omega),
    pow_sub_one_bit (show n - 17 < 32 by omega), hi]
  by_cases h : i < 17
  · simp [h, show i < n by omega]
  rw [show 17 + (i - 17) = i by omega, hw i (by omega) hi]
  simp only [h, show i - 17 < 32 by omega, show (i - 17 < n - 17 ↔ i < n) by omega]
  by_cases hin : i < n
  · simp [hin]
  · simp [hin]
    omega

theorem bat_end (hn : n ≤ 32) (ea : Word) : ea.toNat / 2 ^ n * 2 ^ n + 2 ^ n ≤ 2 ^ 32 := by
  have hsplit : 2 ^ 32 = 2 ^ (32 - n) * 2 ^ n := by rw [← pow_add, Nat.sub_add_cancel hn]
  have hdiv : ea.toNat / 2 ^ n < 2 ^ (32 - n) := by
    rw [Nat.div_lt_iff_lt_mul (Nat.two_pow_pos n), ← hsplit]
    exact ea.isLt
  calc ea.toNat / 2 ^ n * 2 ^ n + 2 ^ n = (ea.toNat / 2 ^ n + 1) * 2 ^ n := (succ_mul ..).symm
    _ ≤ 2 ^ (32 - n) * 2 ^ n := mul_le_mul_right _ hdiv
    _ = 2 ^ 32 := hsplit.symm

variable (h1 : 17 ≤ n) (h2 : n ≤ 28) (forceCache : Bool) (ea lphys : Word)
include h1 h2

theorem macBat_words :
    let b := macBat (batUpper ea (BitVec.ofNat 32 (2 ^ n))) (batLower forceCache lphys (BitVec.ofNat 32 (2 ^ n)))
    b.valid = true ∧ b.vs = true ∧ b.vp = true ∧ b.base.toNat = ea.toNat / 2 ^ n * 2 ^ n ∧
      b.mbase.toNat = lphys.toNat / 2 ^ n * 2 ^ n ∧ b.size.toNat = 2 ^ n := by
  have hupper := fun i (hi : i < 32) => batUpper_bit h1 h2 ea hi
  have hbit1 := hupper 1 (by omega)
  have hbit0 := hupper 0 (by omega)
  rw [decide_eq_true (show 1 < n - 15 by omega), Bool.or_true] at hbit1
  rw [decide_eq_true (show 0 < n - 15 by omega), Bool.or_true] at hbit0
  refine ⟨?_, hbit1, hbit0, ?_, ?_, ?_⟩
  · unfold macBat
    simp only [hbit1, Bool.true_or]
  · unfold macBat
    simp only [bat_bl h1 h2]
    rw [bat_field h1 h2 (x := ea), not_pow_sub_one (by omega), and_high]
    intro i h17 hi
    rw [hupper i hi, decide_eq_false (show ¬ i < n - 15 by omega), Bool.or_false]
  · unfold macBat
    simp only [bat_bl h1 h2]
    rw [bat_field h1 h2 (x := lphys), not_pow_sub_one (by omega), and_high]
    intro i h17 hi
    exact batLower_bit h1 h2 forceCache lphys h17 hi
  unfold macBat
  simp only [bat_bl h1 h2, BitVec.sub_add_cancel]
  have hpow : 2 ^ n < 2 ^ 32 := Nat.pow_lt_pow_right (by omega) (by omega)
  have hsmall : 2 ^ (n - 17) < 2 ^ 32 := Nat.pow_lt_pow_right (by omega) (by omega)
  rw [BitVec.toNat_shiftLeft, BitVec.toNat_ofNat, mod_eq_of_lt hsmall, shiftLeft_eq, ← pow_add,
    Nat.sub_add_cancel h1, mod_eq_of_lt hpow]

theorem bat_hits (svMode : Bool) (a : Word) : (macBat (batUpper ea (BitVec.ofNat 32 (2 ^ n)))
      (batLower forceCache lphys (BitVec.ofNat 32 (2 ^ n)))).hits svMode a = true ↔
      ea.toNat / 2 ^ n * 2 ^ n ≤ a.toNat ∧ a.toNat < ea.toNat / 2 ^ n * 2 ^ n + 2 ^ n := by
  obtain ⟨hvalid, hvs, hvp, hbase, -, hsize⟩ := macBat_words h1 h2 forceCache ea lphys
  generalize macBat _ _ = b at *
  have hmode : (if svMode then b.vs else b.vp) = true := by
    cases svMode
    · exact hvp
    · exact hvs
  have hend := bat_end (show n ≤ 32 by omega) ea
  have hpos : 0 < 2 ^ n := Nat.two_pow_pos n
  have hlast : (b.base + b.size - 1).toNat = ea.toNat / 2 ^ n * 2 ^ n + 2 ^ n - 1 := by
    rw [BitVec.toNat_sub, BitVec.toNat_add, hbase, hsize]
    change (2 ^ 32 - 1 + (ea.toNat / 2 ^ n * 2 ^ n + 2 ^ n) % 2 ^ 32) % 2 ^ 32 = _
    omega
  unfold MacBat.hits
  rw [hvalid, hmode, Bool.true_and, Bool.true_and, decide_eq_true_eq, gt_iff_lt, BitVec.lt_def,
    BitVec.lt_def]
  omega

theorem bat_target (hsame : ea.toNat % 2 ^ n = lphys.toNat % 2 ^ n) (a : Word) :
    batTarget (batUpper ea (BitVec.ofNat 32 (2 ^ n))) (batLower forceCache lphys (BitVec.ofNat 32 (2 ^ n))) a =
      lphys + (a - ea) := by
  obtain ⟨-, -, -, hbase, hmbase, -⟩ := macBat_words h1 h2 forceCache ea lphys
  unfold batTarget
  have hea := div_add_mod' ea.toNat (2 ^ n)
  have hlphys := div_add_mod' lphys.toNat (2 ^ n)
  bv_omega

end Words

/-! ## Blocks that a BAT fits -/

/-- The block is too short for a BAT, or has no aligned length, or is aligned itself. -/
def BatFits (mbase lvbase size : Word) : Prop :=
  size.toNat < 2 ^ 17 ∨
    (∀ n, 17 ≤ n → n ≤ 28 → min size.toNat (2 ^ 28) ≤ 2 ^ n → mbase.toNat % 2 ^ n ≠ lvbase.toNat % 2 ^ n) ∨
    ∃ n, 17 ≤ n ∧ n ≤ 28 ∧ mbase.toNat % 2 ^ n = 0 ∧ (size.toNat = 2 ^ n ∨ n = 28 ∧ 2 ^ 28 ≤ size.toNat)

theorem batAlign_spec (forceCache : Bool) (ea lphys size : Word) (hsize : 2 ^ 17 ≤ size.toNat) :
    ∃ n, 17 ≤ n ∧ n ≤ 28 ∧ min size.toNat (2 ^ 28) ≤ 2 ^ n ∧
      (n = 17 ∨ 2 ^ (n - 1) < min size.toNat (2 ^ 28)) ∧
      batAlign forceCache ea lphys size = if ea.toNat % 2 ^ n = lphys.toNat % 2 ^ n then
        some (batUpper ea (BitVec.ofNat 32 (2 ^ n)), batLower forceCache lphys (BitVec.ofNat 32 (2 ^ n)))
        else none := by
  obtain ⟨n, h1, h2, hlen, hle, hleast⟩ := batLength_spec size
  refine ⟨n, h1, h2, hle, hleast, ?_⟩
  have hlong : ¬ (0x20000 : Word) > size := by
    have : ¬ size.toNat < 2 ^ 17 := by omega
    exact this
  have hoffs : ea &&& (BitVec.ofNat 32 (2 ^ n) - 1) = lphys &&& (BitVec.ofNat 32 (2 ^ n) - 1) ↔
      ea.toNat % 2 ^ n = lphys.toNat % 2 ^ n := by
    rw [← BitVec.toNat_inj, pow_sub_one, and_low _ n (by omega), and_low _ n (by omega)]
  unfold batAlign
  rw [if_neg hlong]
  simp only [hlen, hoffs, ite_not]

theorem offsets_eq {n m a b : Nat} (hnm : n ≤ m) (h : a % 2 ^ m = b % 2 ^ m) : a % 2 ^ n = b % 2 ^ n := by
  have hdvd : 2 ^ n ∣ 2 ^ m := Nat.pow_dvd_pow 2 hnm
  rw [← mod_mod_of_dvd a hdvd, h, mod_mod_of_dvd b hdvd]

theorem batAlign_fits_iff {forceCache : Bool} {w0 w1 : Word} (hsize : b.size = size)
    (h : batAlign forceCache b.mbase b.lvbase size = some (w0, w1)) :
    (∀ svMode ea, (macBat w0 w1).hits svMode ea = true → InBlock b w0 w1 ea) ↔
      BatFits b.mbase b.lvbase size := by
  subst hsize
  by_cases hshort : b.size.toNat < 2 ^ 17
  · have : (0x20000 : Word) > b.size := hshort
    rw [batAlign, if_pos this] at h
    cases h
  obtain ⟨n, h1, h2, hle, hleast, hbat⟩ := batAlign_spec forceCache b.mbase b.lvbase b.size (by omega)
  rw [hbat] at h
  split at h
  case isFalse => cases h
  rename_i hsame
  cases h
  have hsplit := div_add_mod' b.mbase.toNat (2 ^ n)
  constructor
  · intro hall
    -- the first and the last address of the BAT are in the block
    have hfirst : b.mbase.toNat % 2 ^ n = 0 := by
      have hin := hall true (BitVec.ofNat 32 (b.mbase.toNat / 2 ^ n * 2 ^ n)) (by
        rw [bat_hits h1 h2, BitVec.toNat_ofNat]
        omega)
      have := hin.lower
      rw [BitVec.toNat_ofNat] at this
      omega
    have hlong : 2 ^ n ≤ b.size.toNat := by
      have hend := bat_end (show n ≤ 32 by omega) b.mbase
      have hin := hall true (BitVec.ofNat 32 (b.mbase.toNat + (2 ^ n - 1))) (by
        rw [bat_hits h1 h2, BitVec.toNat_ofNat]
        omega)
      have := hin.upper
      rw [BitVec.toNat_ofNat] at this
      omega
    refine .inr (.inr ⟨n, h1, h2, hfirst, ?_⟩)
    rcases lt_or_ge n 28 with hn | hn
    · have : 2 ^ n < 2 ^ 28 := Nat.pow_lt_pow_right (by omega) hn
      omega
    · obtain rfl : n = 28 := by omega
      exact .inr ⟨rfl, hlong⟩
  · rintro (hfit | hfit | ⟨m, hm1, hm2, hmod0, hfit⟩) svMode ea hhits
    · omega
    · exact absurd hsame (hfit n h1 h2 hle)
    have hmin : min b.size.toNat (2 ^ 28) = 2 ^ m := by
      have : 2 ^ m ≤ 2 ^ 28 := Nat.pow_le_pow_right (by omega) hm2
      rcases hfit with hfit | ⟨rfl, hfit⟩
      · omega
      · omega
    rw [hmin] at hle hleast
    have hmn : m = n := by
      have hmle : m ≤ n := (Nat.pow_le_pow_iff_right (by omega)).mp hle
      rcases hleast with rfl | hleast
      · omega
      · have := (Nat.pow_lt_pow_iff_right (by omega)).mp hleast
        omega
    subst hmn
    rw [bat_hits h1 h2] at hhits
    exact ⟨by omega, by omega, bat_target h1 h2 forceCache _ _ hsame ea⟩

/-! ## Sequences of calls -/

inductive BatRun (fits : Word → Word → Word → Prop) : BatKv → Prop where
  | init {s : BatKv} : s.kv.io.btable = [] → s.rows = [] → s.word0 = 0 → s.word1 = 0 → BatRun fits s
  | addBlock {s s' : BatKv} {r : Option Nat} (mbase lvbase size : Word) (flags : MapFlags)
      (dbat ok : Bool) : BatRun fits s →
      (dbat = true → flags.physical = true → flags.scratch = false → fits mbase lvbase size) →
      s.addBlockTrans mbase lvbase size flags dbat ok = some (s', r) → BatRun fits s'
  | removeBlock {s s' : BatKv} (id : Nat) : BatRun fits s → s.removeBlockTrans id = some s' →
      BatRun fits s'

theorem placeLoop_le (bs : List Block) : ∀ ind i, ind ≤ i → placeLoop ind i bs ≤ i + bs.length := by
  induction bs with
  | nil => exact fun _ _ h => h
  | cons b bs ih =>
    intro ind i h
    unfold placeLoop
    rw [if_pos h]
    have := ih (if b.flags.putFirst then ind + 1 else ind) (i + 1) (by split <;> omega)
    rw [length_cons]
    omega

theorem place_le (io : IoData) (mbase : Word) (flags : MapFlags) : place io mbase flags ≤ io.btable.length := by
  unfold place
  split
  · have := placeLoop_le io.btable 0 0 (le_refl 0)
    omega
  · rw [placeLoop_end]

theorem BatKv.addBlockTrans_cases
    (h : s.addBlockTrans mbase lvbase size flags dbat ok = some (s', r)) :
    (r = none ∧ s' = s) ∨ ∃ b d, r = some b.id ∧ b.mbase = mbase ∧ b.size = size ∧
      (d = true ↔ dbat = true ∧ flags.physical = true ∧ flags.scratch = false) ∧
      (d = true → b.lvbase = lvbase ∧ b.flags.physical = true) ∧
      s'.kv.io.btable = s.kv.io.btable.insertIdx (place s.kv.io mbase b.flags) b ∧
      s'.rows = s.rows.insertIdx (place s.kv.io mbase b.flags) (b, d) ∧
      (s'.word0, s'.word1) =
        (if d then batAlign flags.forceCache mbase lvbase size else none).getD (s.word0, s.word1) := by
  obtain ⟨⟨k, id⟩, hk, h⟩ := Option.bind_eq_some_iff.mp h
  rcases addBlockTrans_io hk with ⟨rfl, rfl⟩ | ⟨rfl, -, hio⟩
  · cases h
    exact .inl ⟨rfl, rfl⟩
  cases h
  refine .inr ⟨s.kv.newBlock mbase lvbase size flags, dbat && flags.physical && !flags.scratch, rfl, rfl, rfl,
    ?_, ?_, ?_, rfl, rfl⟩
  · simp [Bool.and_eq_true, and_assoc]
  · intro hd
    simp only [Bool.and_eq_true, Bool.not_eq_true'] at hd
    simp [newBlock, hd.1.2, hd.2]
  · rw [hio]

theorem BatKv.removeBlockTrans_cases (h : s.removeBlockTrans id = some s') :
    s'.kv.io.btable = s.kv.io.btable.eraseP (·.id = id) ∧ s'.rows = s.rows.eraseP (·.1.id = id) ∧
      ((s'.word0 = 0 ∧ s'.word1 = 0) ∨
        (s'.word0 = s.word0 ∧ s'.word1 = s.word1 ∧ (s.rows.find? (·.1.id = id)).any (·.2) = false)) := by
  obtain ⟨k, hk, h⟩ := Option.bind_eq_some_iff.mp h
  cases h
  refine ⟨by rw [removeBlockTrans_io hk], rfl, ?_⟩
  cases hd : (s.rows.find? (·.1.id = id)).any (·.2) with
  | true => exact .inl ⟨rfl, rfl⟩
  | false => exact .inr ⟨rfl, rfl, rfl⟩

theorem mem_eraseP_of_dbat {rows : List (Block × Bool)}
    (h : (rows.find? (·.1.id = id)).any (·.2) = false) (hb : (b, true) ∈ rows) :
    (b, true) ∈ rows.eraseP (·.1.id = id) := by
  induction rows with
  | nil => cases hb
  | cons r rows ih =>
    by_cases hr : r.1.id = id
    · rw [find?_cons_of_pos (by simpa using hr)] at h
      rw [eraseP_cons_of_pos (by simpa using hr)]
      rcases mem_cons.mp hb with rfl | hb
      · cases h
      · exact hb
    · rw [find?_cons_of_neg (by simpa using hr)] at h
      rw [eraseP_cons_of_neg (by simpa using hr)]
      rcases mem_cons.mp hb with rfl | hb
      · exact mem_cons_self
      · exact mem_cons_of_mem _ (ih h hb)

theorem BatRun.rows_eq {fits : Word → Word → Word → Prop} (hrun : BatRun fits s) :
    s.rows.map fst = s.kv.io.btable := by
  induction hrun with
  | init htable hrows => rw [htable, hrows, map_nil]
  | addBlock mbase lvbase size flags dbat ok _ _ hadd ih =>
    rcases BatKv.addBlockTrans_cases hadd with ⟨-, rfl⟩ | ⟨b, d, -, -, -, -, -, htable, hrows, -⟩
    · exact ih
    · rw [htable, hrows, map_insertIdx, ih]
  | removeBlock id _ hremove ih =>
    obtain ⟨htable, hrows, -⟩ := BatKv.removeBlockTrans_cases hremove
    rw [htable, hrows, ← ih, eraseP_map]
    rfl

theorem BatKv.batOk_zero (h0 : s.word0 = 0) (h1 : s.word1 = 0) : s.BatOk := by
  rintro (hne | hne)
  · exact absurd h0 hne
  · exact absurd h1 hne

theorem BatKv.BatOk.keep (hok : s.BatOk) (h0 : s'.word0 = s.word0) (h1 : s'.word1 = s.word1)
    (hrows : ∀ b, (b, true) ∈ s.rows → (b, true) ∈ s'.rows) : s'.BatOk := by
  unfold BatOk
  rw [h0, h1]
  intro hne svMode ea hhits
  obtain ⟨b, hb, hin⟩ := hok hne svMode ea hhits
  exact ⟨b, hrows b hb, hin⟩

/-- One call to `add_block_trans` keeps the register right, if the new block fits. -/
theorem BatKv.BatOk.addBlock (hok : s.BatOk) (hrows : s.rows.map fst = s.kv.io.btable)
    (hfits : dbat = true → flags.physical = true → flags.scratch = false → BatFits mbase lvbase size)
    (h : s.addBlockTrans mbase lvbase size flags dbat ok = some (s', r)) : s'.BatOk := by
  rcases addBlockTrans_cases h with ⟨-, rfl⟩ | ⟨b, d, -, rfl, rfl, hd, hb, htable, hrows', hwords⟩
  · exact hok
  have hplace : place s.kv.io b.mbase b.flags ≤ s.rows.length := by
    have := place_le s.kv.io b.mbase b.flags
    rwa [← hrows, length_map] at this
  have hmem : ∀ x, x ∈ s'.rows ↔ x = (b, d) ∨ x ∈ s.rows := fun x => by
    rw [hrows', mem_insertIdx hplace]
  cases hbat : (if d then batAlign flags.forceCache b.mbase lvbase b.size else none) with
  | none =>
    rw [hbat] at hwords
    obtain ⟨h0, h1⟩ := Prod.mk.inj hwords
    exact hok.keep h0 h1 fun _ hb' => (hmem _).mpr (.inr hb')
  | some words =>
    rw [hbat] at hwords
    cases d with
    | false => cases hbat
    | true =>
      obtain ⟨rfl, hphys⟩ := hb rfl
      obtain ⟨hd1, hd2, hd3⟩ := hd.mp rfl
      rw [show words = (s'.word0, s'.word1) from hwords.symm] at hbat
      intro _ svMode ea hhits
      exact ⟨b, (hmem _).mpr (.inl rfl), hphys, (batAlign_fits_iff rfl hbat).mpr (hfits hd1 hd2 hd3) svMode ea hhits⟩

theorem BatKv.BatOk.removeBlock (hok : s.BatOk) (h : s.removeBlockTrans id = some s') : s'.BatOk := by
  obtain ⟨-, hrows, hzero | ⟨h0, h1, hkept⟩⟩ := removeBlockTrans_cases h
  · exact batOk_zero hzero.1 hzero.2
  · exact hok.keep h0 h1 fun _ hb => hrows ▸ mem_eraseP_of_dbat hkept hb

theorem batOk_run (hrun : BatRun BatFits s) : s.BatOk := by
  induction hrun with
  | init _ _ h0 h1 => exact BatKv.batOk_zero h0 h1
  | addBlock mbase lvbase size flags dbat ok hrun hfits hadd ih => exact ih.addBlock hrun.rows_eq hfits hadd
  | removeBlock id _ hremove ih => exact ih.removeBlock hremove

/-- The first block with a DBAT leaves the register right if and only if it fits. -/
theorem BatKv.batOk_first_iff (h0 : s.word0 = 0) (h1 : s.word1 = 0)
    (hnone : ∀ r ∈ s.rows, r.2 = false) (hrows : s.rows.map fst = s.kv.io.btable)
    (hphys : flags.physical = true) (hscratch : flags.scratch = false)
    (h : s.addBlockTrans mbase lvbase size flags true ok = some (s', some id)) :
    s'.BatOk ↔ BatFits mbase lvbase size := by
  constructor
  · intro hok
    rcases addBlockTrans_cases h with ⟨hid, -⟩ | ⟨b, d, -, rfl, rfl, hd, hb, -, hrows', hwords⟩
    · cases hid
    obtain rfl : d = true := hd.mpr ⟨rfl, hphys, hscratch⟩
    obtain ⟨rfl, -⟩ := hb rfl
    by_cases hshort : b.size.toNat < 2 ^ 17
    · exact .inl hshort
    cases hbat : batAlign flags.forceCache b.mbase b.lvbase b.size with
    | none =>
      -- no BAT, so the offsets differ in every length that is long enough
      obtain ⟨n, h1, h2, hle, hleast, heq⟩ :=
        batAlign_spec flags.forceCache b.mbase b.lvbase b.size (by omega)
      rw [hbat] at heq
      split at heq
      case isTrue => cases heq
      rename_i hdiff
      refine .inr (.inl fun m hm1 hm2 hm hsame => hdiff (offsets_eq ?_ hsame))
      rcases hleast with rfl | hleast
      · exact hm1
      · have := (Nat.pow_lt_pow_iff_right (by omega)).mp (hleast.trans_le hm)
        omega
    | some words =>
      rw [hbat] at hwords
      rw [show words = (s'.word0, s'.word1) from hwords.symm] at hbat
      refine (batAlign_fits_iff rfl hbat).mp fun svMode ea hhits => ?_
      have hset : s'.word0 ≠ 0 := by
        intro hzero
        rw [hzero] at hhits
        simp [MacBat.hits, macBat] at hhits
      obtain ⟨b', hb', -, hin⟩ := hok (.inl hset) svMode ea hhits
      rw [hrows'] at hb'
      rcases eq_or_mem_of_mem_insertIdx hb' with hb' | hb'
      · cases hb'
        exact hin
      · cases hnone _ hb'
  · intro hfits
    exact (batOk_zero h0 h1).addBlock hrows (fun _ _ _ => hfits) h

/-- The BAT maps nothing but blocks of the table, if the blocks with a DBAT fit. -/
theorem dbat_maps_block_iff (s : BatKv) :
    (BatRun BatFits s → s.rows.map fst = s.kv.io.btable ∧ s.BatOk) ∧
    ∀ (s' : BatKv) (mbase lvbase size : Word) (flags : MapFlags) (ok : Bool) (id : Nat),
      s.word0 = 0 → s.word1 = 0 → (∀ r ∈ s.rows, r.2 = false) → s.rows.map fst = s.kv.io.btable →
      flags.physical = true → flags.scratch = false →
      s.addBlockTrans mbase lvbase size flags true ok = some (s', some id) →
      (s'.BatOk ↔ BatFits mbase lvbase size) := by
  refine ⟨fun hrun => ⟨hrun.rows_eq, batOk_run hrun⟩, ?_⟩
  intro s' mbase lvbase size flags ok id h0 h1 hnone hrows hphys hscratch h
  exact BatKv.batOk_first_iff h0 h1 hnone hrows hphys hscratch h

def noBat : BatKv := ⟨emptyMap, [], 0, 0⟩

theorem noBat_run (fits : Word → Word → Word → Prop) : BatRun fits noBat := .init rfl rfl rfl rfl

/-- A framebuffer of 1M is mapped by the BAT and by nothing else. -/
theorem dbat_maps_block_1m : ∃ s id,
    noBat.addBlockTrans 0x80000000 0x90000000 0x100000 plainFlags true true = some (s, some id) ∧
    (macBat s.word0 s.word1).hits true 0x800fffff = true ∧ s.BatOk ∧
    (s.BatOk ↔ BatFits 0x80000000 0x90000000 0x100000) := by
  have hfits : BatFits 0x80000000 0x90000000 0x100000 :=
    .inr (.inr ⟨20, by decide, by decide, by decide, .inl (by decide)⟩)
  refine ⟨_, _, rfl, by decide, ?_, ?_⟩
  · exact ((dbat_maps_block_iff _).1 (.addBlock 0x80000000 0x90000000 0x100000 plainFlags true true
      (noBat_run _) (fun _ _ _ => hfits) rfl)).2
  · exact (dbat_maps_block_iff noBat).2 _ _ _ _ plainFlags true _ rfl rfl (fun _ h => by cases h) rfl rfl rfl rfl

/-- A framebuffer of 192K gets a BAT of 256K, with 64K that are not its own. -/
theorem dbat_past_block : ∃ s, BatRun (fun _ _ _ => True) s ∧
    (macBat s.word0 s.word1).hits true 0x80038000 = true ∧
    (∀ r ∈ s.rows, r.1.mbase.toNat + r.1.size.toNat ≤ (0x80038000 : Word).toNat) ∧ ¬ s.BatOk := by
  refine ⟨_, .addBlock (s := noBat) 0x80000000 0x80000000 0x30000 plainFlags true true (noBat_run _)
    (fun _ _ _ => trivial) rfl, by decide, by decide, fun hok => ?_⟩
  obtain ⟨b, hb, -, hin⟩ := hok (.inl (by decide)) true 0x80038000 (by decide)
  cases mem_singleton.mp hb
  exact absurd hin.upper (by decide)

end MacOnLinux.Kv
