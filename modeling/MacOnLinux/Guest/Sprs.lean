import MacOnLinux.Guest.Tlbie
import MacOnLinux.Mmu.Runs

/-! # Stores to SDR1 and to the BATs -/

namespace MacOnLinux

open BitVec List Option Function

/-! ## The mask -/

variable {mbase mask : Word} {hash : Nat}

theorem sdr1Scan_eq (value : Word) {n : Nat} (hn : n ≤ 9) :
    ∃ j ≤ n, sdr1Scan value n (BitVec.ofNat 32 (2 ^ n / 2)) = BitVec.ofNat 32 (2 ^ j / 2) := by
  induction n with
  | zero => exact ⟨0, le_refl _, rfl⟩
  | succ n ih =>
    have hshift : BitVec.ofNat 32 (2 ^ (n + 1) / 2) >>> 1 = BitVec.ofNat 32 (2 ^ n / 2) := by
      have hle : n ≤ 8 := Nat.le_of_succ_le_succ hn
      interval_cases n <;> rfl
    obtain ⟨j, hj, hscan⟩ := ih (Nat.le_of_succ_le hn)
    rw [sdr1Scan]
    split
    · rw [hshift]
      exact ⟨j, Nat.le_succ_of_le hj, hscan⟩
    · exact ⟨n + 1, le_refl _, rfl⟩

theorem sdr1Mask_eq (value : Word) : ∃ k, 16 ≤ k ∧ k ≤ 25 ∧ (sdr1Mask value).toNat = 2 ^ k - 1 := by
  obtain ⟨j, hj, hscan⟩ := sdr1Scan_eq value (le_refl 9)
  refine ⟨16 + j, Nat.le_add_right _ _, by omega, ?_⟩
  unfold sdr1Mask
  rw [show (0x100 : Word) = BitVec.ofNat 32 (2 ^ 9 / 2) from rfl, hscan]
  interval_cases j <;> rfl

structure HashAt (k : Nat) (mbase mask : Word) : Prop where
  low : 16 ≤ k
  high : k ≤ 25
  mask : mask.toNat = 2 ^ k - 1
  aligned : 2 ^ k ∣ mbase.toNat

theorem HashAt.toNat_add {k : Nat} (h : HashAt k mbase mask) :
    (mbase + mask).toNat = mbase.toNat + mask.toNat := by
  obtain ⟨hlow, hhigh, hmask, q, hq⟩ := h
  rw [BitVec.toNat_add]
  interval_cases k <;> omega

theorem sdr1Hash_at (value : Word) {ramSize : Word} (hram : 0x10000 < ramSize) :
    ∃ k, HashAt k (sdr1Hash value ramSize).1 (sdr1Hash value ramSize).2 ∧
      (sdr1Hash value ramSize).1.toNat + (sdr1Hash value ramSize).2.toNat < ramSize.toNat := by
  obtain ⟨k, hlow, hhigh, hmask⟩ := sdr1Mask_eq value
  have hcleared : (value &&& ~~~sdr1Mask value).toNat % 2 ^ k = 0 := by
    rw [← Nat.and_two_pow_sub_one_eq_mod, ← hmask, ← toNat_and, BitVec.and_assoc]
    simp
  have hat : HashAt k (value &&& ~~~sdr1Mask value) (sdr1Mask value) :=
    ⟨hlow, hhigh, hmask, Nat.dvd_of_mod_eq_zero hcleared⟩
  unfold sdr1Hash
  dsimp only
  split_ifs with hlt
  · refine ⟨16, ⟨by decide, by decide, rfl, Nat.dvd_zero _⟩, ?_⟩
    exact lt_trans (by decide) (lt_def.mp hram)
  · refine ⟨k, hat, ?_⟩
    rw [← hat.toNat_add]
    exact Nat.lt_of_not_le fun hle => hlt (le_def.mpr hle)

/-! ## The groups -/

/-- The hash functions of the architecture; the secondary one is the complement. -/
def archHash (vsid ea : Word) (sec : Bool) : Nat :=
  let h := (vsid.toNat % 2 ^ 19) ^^^ (ea.toNat / 2 ^ 12 % 2 ^ 16)
  if sec then 2 ^ 19 - 1 - h else h

/-- The offsets of the PTEs of a group of a hash of `2 ^ k` bytes. -/
def archGroup (k hash : Nat) : List Word :=
  (range 8).map fun i => BitVec.ofNat 32 (hash % 2 ^ (k - 6) * 64 + 8 * i)

theorem xor_ones {m x : Nat} (hx : x < 2 ^ m) : x ^^^ (2 ^ m - 1) = 2 ^ m - 1 - x := by
  refine Nat.eq_of_testBit_eq fun i => ?_
  rw [Nat.sub_sub, add_comm 1, Nat.testBit_two_pow_sub_succ hx]
  by_cases hi : i < m
  · simp [hi]
  · simp [hi, Nat.testBit_lt_two_pow (Nat.lt_of_lt_of_le hx (Nat.pow_le_pow_right (by decide) (Nat.le_of_not_lt hi)))]

theorem pageHash_toNat (vsid ea : Word) : (pageHash vsid (ea &&& 0x0ffff000)).toNat = archHash vsid ea false := by
  have hindex : (ea &&& 0x0ffff000) >>> 12 = ea >>> 12 &&& 0xffff := by
    rw [ushiftRight_and_distrib]
    rfl
  unfold pageHash archHash
  rw [hindex, toNat_xor, toNat_and, toNat_and, toNat_ushiftRight, Nat.shiftRight_eq_div_pow,
    show (0xffff : Word).toNat = 2 ^ 16 - 1 from rfl, show (0x7ffff : Word).toNat = 2 ^ 19 - 1 from rfl,
    Nat.and_two_pow_sub_one_eq_mod, Nat.and_two_pow_sub_one_eq_mod, Nat.xor_comm]
  rfl

theorem archHash_lt (vsid ea : Word) : archHash vsid ea false < 2 ^ 19 := by
  refine Nat.xor_lt_two_pow (Nat.mod_lt _ (by decide)) ?_
  exact lt_trans (Nat.mod_lt _ (by decide)) (by decide)

theorem HashAt.shifted {k : Nat} (h : HashAt k mbase mask) : (mask >>> 6).toNat = 2 ^ (k - 6) - 1 := by
  obtain ⟨hlow, hhigh, hmask, -⟩ := h
  rw [toNat_ushiftRight, hmask]
  interval_cases k <;> rfl

theorem HashAt.groups {k : Nat} (h : HashAt k mbase mask) (vsid ea : Word) :
    (pageHash vsid (ea &&& 0x0ffff000) &&& mask >>> 6).toNat = archHash vsid ea false % 2 ^ (k - 6) ∧
    ((pageHash vsid (ea &&& 0x0ffff000) &&& mask >>> 6) ^^^ mask >>> 6).toNat =
      archHash vsid ea true % 2 ^ (k - 6) := by
  have hprimary : (pageHash vsid (ea &&& 0x0ffff000) &&& mask >>> 6).toNat =
      archHash vsid ea false % 2 ^ (k - 6) := by
    rw [toNat_and, h.shifted, pageHash_toNat, Nat.and_two_pow_sub_one_eq_mod]
  refine ⟨hprimary, ?_⟩
  have hlt := archHash_lt vsid ea
  have hsec : archHash vsid ea true = 2 ^ 19 - 1 - archHash vsid ea false := rfl
  rw [toNat_xor, hprimary, h.shifted, xor_ones (Nat.mod_lt _ (Nat.two_pow_pos _))]
  have hhigh := h.high
  interval_cases k <;> omega

theorem findMacPte_group {x : Word} {k : Nat} (hx : x.toNat = hash % 2 ^ (k - 6))
    (pte0 : Word → Word) (cmp : Word) :
    findMacPte pte0 (x <<< 6) cmp = (archGroup k hash).find? fun o => pte0 o = cmp := by
  unfold findMacPte archGroup
  congr 1
  refine map_congr_left fun i hi => ?_
  apply eq_of_toNat_eq
  rw [BitVec.toNat_add, toNat_shiftLeft, toNat_ofNat, toNat_ofNat]
  omega

def archLookup (k : Nat) (pte0 : Word → Word) (vsid ea : Word) : Option Word :=
  ((archGroup k (archHash vsid ea false)).find? fun o => pte0 o = macPte0 vsid (ea &&& 0x0ffff000) false).or
    ((archGroup k (archHash vsid ea true)).find? fun o => pte0 o = macPte0 vsid (ea &&& 0x0ffff000) true)

theorem HashAt.lookup {k : Nat} {g : Guest} (h : HashAt k g.hashMbase g.hashMask) (vsid ea : Word) :
    lookupMacPte g vsid ea = if g.hashMapped then archLookup k g.pte0 vsid ea else none := by
  obtain ⟨hprimary, hsecondary⟩ := h.groups vsid ea
  unfold lookupMacPte
  split
  · dsimp only
    rw [← shiftLeft_xor_distrib]
    unfold archLookup
    rw [← findMacPte_group hprimary, ← findMacPte_group hsecondary]
    unfold macPte0 pageHash
    have hzero (w : Word) : w ||| 0 = w := or_zero
    rw [if_neg Bool.false_ne_true, if_pos rfl, hzero]
    split <;> rename_i hfind <;> simp only [hfind, some_or, none_or]
  · rfl

theorem archGroup_le {k : Nat} (hlow : 16 ≤ k) (hhigh : k ≤ 25) {o : Word} (ho : o ∈ archGroup k hash) :
    o.toNat + 8 ≤ 2 ^ k := by
  obtain ⟨i, hi, rfl⟩ := mem_map.mp ho
  have hi := mem_range.mp hi
  have hpow : 2 ^ k = 2 ^ (k - 6) * 64 := by rw [← Nat.pow_add _ _ 6, Nat.sub_add_cancel (by omega)]
  rw [toNat_ofNat]
  omega

theorem Kv.doMtsdr1_some {k : Kv} {g : Rings} {v : Skiplist.SlMap} (h : k.mmu.Inv g v) (value : Word)
    (mapped bitmap : Bool)
    (pte0 pte1 : Word → Word) : ∃ k', k.doMtsdr1 value mapped bitmap pte0 pte1 = some k' := by
  obtain ⟨mt, g', hmt, hrep, hdrops⟩ := flushLvRange_spec h.rep h.ranges
    (k.userspaceRamBase + (sdr1Hash value k.ramSize).1) ((sdr1Hash value k.ramSize).2 + 1)
  obtain ⟨s', hs', -⟩ := Mmu.clearAllVsids_spec (h.drops hrep hdrops)
  unfold doMtsdr1 Mmu.withMt withMmu
  simp only [hmt, map_some, some_bind, hs']
  exact ⟨_, rfl⟩

theorem Kv.doMtsdr1_guest {k k' : Kv} {value : Word} {mapped bitmap : Bool} {pte0 pte1 : Word → Word}
    (h : k.doMtsdr1 value mapped bitmap pte0 pte1 = some k') :
    k'.guest = { k.guest with
      hashMbase := (sdr1Hash value k.ramSize).1, hashMask := (sdr1Hash value k.ramSize).2,
      hashMapped := mapped, pte0 := pte0, pte1 := pte1 } := by
  obtain ⟨s, -, h⟩ := bind_eq_some_iff.mp h
  obtain ⟨s', -, rfl⟩ := map_eq_some_iff.mp h
  rfl

/-- Every value of SDR1 gives a hash of the architecture in RAM. -/
theorem Kv.doMtsdr1_hash {k : Kv} (hram : 0x10000 < k.ramSize) (value : Word) (mapped bitmap : Bool)
    (pte0 pte1 : Word → Word) :
    (∀ g v, k.mmu.Inv g v → ∃ k', k.doMtsdr1 value mapped bitmap pte0 pte1 = some k') ∧
    ∀ k', k.doMtsdr1 value mapped bitmap pte0 pte1 = some k' →
      k'.guest.hashMbase.toNat + k'.guest.hashMask.toNat < k.ramSize.toNat ∧
      ∃ n, HashAt n k'.guest.hashMbase k'.guest.hashMask ∧ ∀ vsid ea,
        lookupMacPte k'.guest vsid ea = (if mapped then archLookup n pte0 vsid ea else none) ∧
        ∀ sec, ∀ o ∈ archGroup n (archHash vsid ea sec), o.toNat + 7 ≤ k'.guest.hashMask.toNat := by
  refine ⟨fun g v hinv => doMtsdr1_some hinv value mapped bitmap pte0 pte1, fun k' h => ?_⟩
  rw [doMtsdr1_guest h]
  obtain ⟨n, hat, hlt⟩ := sdr1Hash_at value hram
  refine ⟨hlt, n, hat, fun vsid ea => ⟨hat.lookup (g := { k.guest with
    hashMbase := (sdr1Hash value k.ramSize).1, hashMask := (sdr1Hash value k.ramSize).2,
    hashMapped := mapped, pte0 := pte0, pte1 := pte1 }) vsid ea, fun sec o ho => ?_⟩⟩
  have hle := archGroup_le hat.low hat.high ho
  have hmask := hat.mask
  dsimp only
  omega

theorem Kv.doMtsdr1_hash_32m : ∃ k : Kv, 0x10000 < k.ramSize ∧
    ∃ k', k.doMtsdr1 0x12345 true true (fun _ => 0) (fun _ => 0) = some k' ∧
      k'.guest.hashMbase.toNat + k'.guest.hashMask.toNat < 0x2000000 := by
  let k : Kv := { emptyMap with ramSize := 0x2000000 }
  obtain ⟨g, v, hgood⟩ := Mmu.good_init (show 0 < maxNumSessions by decide) 0xffc0 (fun _ => 0) fun _ => 0
  obtain ⟨hsome, hhash⟩ := Kv.doMtsdr1_hash (k := k) (by decide) 0x12345 true true (fun _ => 0) fun _ => 0
  obtain ⟨k', hk'⟩ := hsome g v hgood.inv
  exact ⟨k, by decide, k', hk', (hhash k' hk').1⟩

/-! ## The BATs -/

def MacBat.Written (d : MacBat) : Prop := d.valid = true → ∃ batu batl, d = macBat batu batl

theorem macBat_base (batu batl : Word) : (macBat batu batl).base.toNat % 2 ^ 17 = 0 := by
  unfold macBat
  rw [toNat_shiftLeft]
  omega

theorem macBat_size (batu batl : Word) :
    0 < (macBat batu batl).size.toNat ∧ (macBat batu batl).size.toNat ≤ 2 ^ 28 := by
  have hbl : ((batu >>> 2) &&& 0x7ff).toNat < 2 ^ 11 := by
    rw [toNat_and, show (0x7ff : Word).toNat = 2 ^ 11 - 1 from rfl, Nat.and_two_pow_sub_one_eq_mod]
    exact Nat.mod_lt _ (by decide)
  unfold macBat
  rw [toNat_shiftLeft, BitVec.toNat_add, show (1 : Word).toNat = 1 from rfl]
  omega

theorem segment_base (base : Word) : (base &&& 0x0fffffff).toNat = base.toNat % 2 ^ 28 := by
  rw [toNat_and, show (0x0fffffff : Word).toNat = 2 ^ 28 - 1 from rfl, Nat.and_two_pow_sub_one_eq_mod]

theorem macBat_hits {batu batl ea : Word} {svMode : Bool} (h : (macBat batu batl).hits svMode ea = true) :
    ∃ e, ((macBat batu batl).base &&& 0x0fffffff).toNat ≤ e ∧
      e < ((macBat batu batl).base &&& 0x0fffffff).toNat + (macBat batu batl).size.toNat ∧
      pageOf ea.toNat = pageOf e := by
  have hsize := macBat_size batu batl
  generalize macBat batu batl = d at h hsize
  have hea : ¬ (ea < d.base ∨ ea > d.base + d.size - 1) := of_decide_eq_true (Bool.and_eq_true_iff.mp h).2
  have hlow : d.base.toNat ≤ ea.toNat := Nat.le_of_not_lt fun hlt => hea (.inl (lt_def.mpr hlt))
  have hhigh : ea.toNat ≤ (d.base + d.size - 1).toNat :=
    Nat.le_of_not_lt fun hlt => hea (.inr (lt_def.mpr hlt))
  rw [toNat_sub, BitVec.toNat_add, show (1 : Word).toNat = 1 from rfl] at hhigh
  rw [segment_base]
  refine ⟨ea.toNat - d.base.toNat / 2 ^ 28 * 2 ^ 28, ?_, ?_, ?_⟩
  · omega
  · omega
  · unfold pageOf
    omega

namespace Kv

variable {k : Kv} {g : Rings} {v : Skiplist.SlMap}

theorem flushBat_spec (h : k.mmu.Inv g v) {d : MacBat} (hd : d.Written) :
    ∃ k' g' P, k.flushBat true d = some k' ∧ k'.guest = k.guest ∧ k'.mmu.Inv g' v ∧
      Drops P k.mmu.mt g k'.mmu.mt g' ∧
      ∀ x key svMode ea, g'.role x = .ea key → d.hits svMode ea = true → key.page ≠ pageOf ea.toNat := by
  unfold flushBat
  cases hvalid : d.valid with
  | false =>
    refine ⟨k, g, _, rfl, rfl, h, Drops.refl _ _, ?_⟩
    intro x key svMode ea _ hhits
    simp [MacBat.hits, hvalid] at hhits
  | true =>
    obtain ⟨batu, batl, rfl⟩ := hd hvalid
    have hlt : ((macBat batu batl).base &&& 0x0fffffff).toNat < 2 ^ 28 := by
      rw [segment_base]
      exact Nat.mod_lt _ (by decide)
    have haligned : ((macBat batu batl).base &&& 0x0fffffff).toNat % 4096 = 0 := by
      have := macBat_base batu batl
      rw [segment_base]
      omega
    obtain ⟨mt, g', P, hflush, hinv, hdrops, -, hall⟩ := Mmu.flushEaRange_spec h hlt (macBat_size batu batl).2
    refine ⟨{ k with mmu := { k.mmu with mt := mt } }, g', P, ?_, rfl, hinv, hdrops, ?_⟩
    · exact congrArg (Option.map _) hflush
    · intro x key svMode ea hkey hhits hpage
      obtain ⟨hold, hnot⟩ := (hdrops.role x key).mp hkey
      obtain ⟨e, hlow, hhigh, he⟩ := macBat_hits hhits
      exact hnot (hall haligned x key hold ⟨e, hlow, hhigh, hpage.trans he⟩)

/-- A store to a BAT leaves no tracked PTE of a page that it translated or translates. -/
theorem doMtbat_flushes (h : k.mmu.Inv g v) {r : BatRegs} (hhack : r.useBatHack = false) {sprnum : Nat} {value : Word}
    {force : Bool} (hold : (k.guest.bats (batnumOf sprnum)).Written) (hstore : force = true ∨ r.spr sprnum ≠ value) :
    ∃ k' r' g' P, k.doMtbat r sprnum value force = some (k', r') ∧ k'.mmu.Inv g' v ∧
      Drops P k.mmu.mt g k'.mmu.mt g' ∧ r'.spr = update r.spr sprnum value ∧
      k'.guest.bats (batnumOf sprnum) = macBat (r'.spr (sprnum / 2 * 2)) (r'.spr (sprnum / 2 * 2 + 1)) ∧
      ∀ x key svMode ea, g'.role x = .ea key → (k.guest.bats (batnumOf sprnum)).hits svMode ea = true ∨
          (k'.guest.bats (batnumOf sprnum)).hits svMode ea = true →
        key.page ≠ pageOf ea.toNat := by
  obtain ⟨k1, g1, P1, hk1, hguest1, hinv1, hdrops1, hgone1⟩ := flushBat_spec h hold
  let r1 : BatRegs := { r with spr := update r.spr sprnum value }
  let d := macBat (r1.spr (sprnum / 2 * 2)) (r1.spr (sprnum / 2 * 2 + 1))
  have hd : d.Written := fun _ => ⟨_, _, rfl⟩
  let k2 : Kv := { k1 with guest := { k1.guest with bats := update k1.guest.bats (batnumOf sprnum) d } }
  obtain ⟨k3, g3, P3, hk3, hguest3, hinv3, hdrops3, hgone3⟩ := flushBat_spec (k := k2) hinv1 hd
  have hbat : k3.guest.bats (batnumOf sprnum) = d := by
    rw [hguest3]
    exact update_self ..
  have hhack1 : r1.batHack = (true, r1) := by
    unfold BatRegs.batHack
    rw [show r1.useBatHack = false from hhack]
    rfl
  have hgo : ¬ ((!force) = true ∧ r.spr sprnum = value) := by
    rintro ⟨hforce, heq⟩
    rcases hstore with rfl | hne
    · cases hforce
    · exact hne heq
  refine ⟨k3, r1, g3, _, ?_, hinv3, hdrops1.trans hdrops3, rfl, hbat, ?_⟩
  · unfold doMtbat
    rw [if_neg hgo]
    dsimp only
    rw [show BatRegs.batHack _ = (true, r1) from hhack1]
    rw [hk1, some_bind, hhack1]
    rw [show flushBat _ true _ = some k3 from hk3]
    rfl
  · rintro x key svMode ea hkey (hhits | hhits)
    · exact hgone1 x key svMode ea (hdrops3.tracked x key hkey) hhits
    · rw [hbat] at hhits
      exact hgone3 x key svMode ea hkey hhits

end Kv

theorem Mmu.tracked_page : ∃ (s : Mmu) (g : Rings) (v : Skiplist.SlMap) (x : Ptr) (key : Key),
    s.Inv g v ∧ g.role x = .ea key := by
  obtain ⟨s, hrun, -, ht, hfirst, -⟩ := run_insert
  obtain ⟨g, v, h, -⟩ := good_run hrun
  have hring := h.inv.rep.ea.ringAt (s := (10, 0, 1)) ht
  cases hlist : g.ea (10, 0, 1) with
  | nil =>
    rw [hlist] at hring
    have hnull := (hring.resolve_right fun h0 => h0.1 rfl).2
    rw [hfirst] at hnull
    cases hnull
  | cons x xs =>
    obtain ⟨key, hkey, -⟩ := (h.inv.rep.ea.mem (10, 0, 1) x).mp (by rw [hlist]; exact mem_cons_self)
    exact ⟨_, g, v, x, key, h.inv, hkey⟩

/-- The first BAT with `batu`, for the whole of segment 0 when that is 0x1fff. -/
def plainBats (s : Mmu) (batu : Word) : Kv × Kv.BatRegs :=
  ({ Kv.emptyMap with mmu := s, guest := { Kv.emptyMap.guest with bats := fun _ => macBat batu 0 } },
    ⟨fun n => if n = 528 then batu else 0, false, 0⟩)

theorem macBat_segment {page : Nat} (hpage : page < 2 ^ 16) :
    (macBat 0x1fff 0).hits true (BitVec.ofNat 32 (page * 4096)) = true ∧
    page = pageOf (BitVec.ofNat 32 (page * 4096)).toNat := by
  have hea : (BitVec.ofNat 32 (page * 4096)).toNat = page * 4096 := by
    rw [toNat_ofNat]
    omega
  constructor
  · show decide (¬ (BitVec.ofNat 32 (page * 4096) < 0 ∨ BitVec.ofNat 32 (page * 4096) > 0x0fffffff)) = true
    rw [decide_eq_true_iff]
    bv_omega
  · unfold pageOf
    omega

theorem Kv.doMtbat_flushes_segment : ∃ (k k' : Kv) (r r' : BatRegs) (g g' : Rings) (x : Ptr) (key : Key),
    g.role x = .ea key ∧ k.doMtbat r 528 0x1fff false = some (k', r') ∧ ∀ x key, g'.role x ≠ .ea key := by
  obtain ⟨s, g, v, x, key, hinv, hkey⟩ := Mmu.tracked_page
  obtain ⟨k', r', g', P, hk', hinv', -, hr', hbat, hgone⟩ := Kv.doMtbat_flushes
    (k := (plainBats s 0).1) (r := (plainBats s 0).2) hinv rfl (fun _ => ⟨0, 0, rfl⟩)
    (.inr (show (0 : Word) ≠ 0x1fff by decide) : false = true ∨ (plainBats s 0).2.spr 528 ≠ 0x1fff)
  refine ⟨_, k', _, r', g, g', x, key, hkey, hk', fun x key hx => ?_⟩
  obtain ⟨hhits, hpage⟩ := macBat_segment (hinv'.rep.ea.pent x key hx).1
  refine hgone x key true _ hx (.inr ?_) hpage
  rw [hbat, hr']
  exact hhits

/-- A store of the value that the BAT has flushes nothing. -/
theorem Kv.doMtbat_same : ∃ (k : Kv) (r : BatRegs) (g : Rings) (v : Skiplist.SlMap) (x : Ptr) (key : Key) (ea : Word),
    k.mmu.Inv g v ∧ r.useBatHack = false ∧ k.guest.bats 0 = macBat (r.spr 528) (r.spr 529) ∧
    k.doMtbat r 528 (r.spr 528) false = some (k, r) ∧
    g.role x = .ea key ∧ (k.guest.bats 0).hits true ea = true ∧ key.page = pageOf ea.toNat := by
  obtain ⟨s, g, v, x, key, hinv, hkey⟩ := Mmu.tracked_page
  obtain ⟨hhits, hpage⟩ := macBat_segment (hinv.rep.ea.pent x key hkey).1
  exact ⟨(plainBats s 0x1fff).1, (plainBats s 0x1fff).2, g, v, x, key, _, hinv, rfl, rfl, if_pos ⟨rfl, rfl⟩, hkey,
    hhits, hpage⟩

end MacOnLinux
