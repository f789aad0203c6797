import MacOnLinux.Kv.Blocks
import MacOnLinux.Mtable.Spec

/-! # The records of a block -/

namespace MacOnLinux.Kv

def indexOf (lvr : LvRange) (lvptr : Word) : Nat := ((lvptr - lvr.base) >>> 12).toNat

def Accepted (b : Block) : Prop :=
  ∃ (k k' : Kv) (mbase lvbase size : Word) (flags : MapFlags) (ok : Bool) (id : Nat),
    k.addBlockTrans mbase lvbase size flags ok = some (k', some id) ∧
      b = k.newBlock mbase lvbase size flags

/-- No use of `pents` is past the end, in an insertion or when a page goes away. -/
structure InBounds (b : Block) (lvr : LvRange) : Prop where
  insert : ∀ io mphys pte1 alloc io' m, pte1 &&& pte1Rpn = 0 →
    findBlock io (mphys &&& pte1Rpn) = some b → mphysToPte io mphys pte1 alloc = (io', some m) →
    m.lvrange = some lvr → indexOf lvr (m.pte1 &&& pte1Rpn) < lvr.pages
  flush : ∀ lvptr, lvr.contains lvptr = true → indexOf lvr lvptr < lvr.pages

/-- Whole pages, and the first page of the guest does not start below `lvbase`. -/
def Fits (b : Block) : Prop :=
  b.size.toNat % 4096 = 0 ∧ (b.size = 0 ∨ b.lvbase.toNat % 4096 = 0 ∨
    4096 ≤ (-b.mbase).toNat % 4096 + b.lvbase.toNat % 4096)

variable {b : Block} {lvr : LvRange}

theorem Accepted.lvrange (h : Accepted b) (hl : b.lvrange = some lvr) :
    lvr.base = b.lvbase ∧ lvr.size = b.size ∧ b.flags.scratch = false := by
  obtain ⟨k, k', mbase, lvbase, size, flags, ok, id, _, rfl⟩ := h
  cases hs : flags.scratch with
  | true =>
    simp [newBlock, blockRange, hs] at hl
  | false =>
    cases hphys : flags.physical with
    | true => simp [newBlock, blockRange, hs, hphys] at hl
    | false =>
      simp only [newBlock, blockRange, hs, hphys, Bool.false_eq_true, if_false, Option.some.injEq] at hl ⊢
      subst hl
      exact ⟨rfl, rfl, trivial⟩

theorem indexOf_eq (lvr : LvRange) (lvptr : Word) :
    indexOf lvr lvptr = (2 ^ 32 - lvr.base.toNat + lvptr.toNat) % 2 ^ 32 / 4096 := by
  simp [indexOf, Nat.shiftRight_eq_div_pow, BitVec.toNat_sub]

theorem pages_eq (lvr : LvRange) : lvr.pages = lvr.size.toNat / 4096 := by
  simp [LvRange.pages, Nat.shiftRight_eq_div_pow]

theorem mapping_lvptr {io io' : IoData} {mphys pte1 : Word} {alloc : Option Word} {m : Mapping}
    (hs : b.flags.scratch = false) (hpte : pte1 &&& pte1Rpn = 0)
    (hb : findBlock io (mphys &&& pte1Rpn) = some b) (hm : mphysToPte io mphys pte1 alloc = (io', some m))
    (hl : m.lvrange = some lvr) :
    m.pte1 &&& pte1Rpn = ((mphys &&& pte1Rpn) - b.mbase + b.lvbase) &&& pte1Rpn := by
  unfold mphysToPte at hm
  simp only [hb, hs] at hm
  split at hm
  · cases hm
    cases hl
  · cases hm
    rw [pte1Bits_frame, frame_of_or hpte, rpn_rpn]

section Tracked

variable (hbase : lvr.base = b.lvbase) (hsize : lvr.size = b.size) (hs : b.flags.scratch = false)

include hbase hsize hs

theorem fits_of_inBounds (hl : b.lvrange = some lvr) (h : InBounds b lvr) : Fits b := by
  have hpages : b.size.toNat % 4096 = 0 := by
    by_contra hne
    have hlast := h.flush (b.lvbase + (b.size - 1)) (by
      simp only [LvRange.contains, decide_eq_true_eq]
      bv_omega)
    rw [indexOf_eq, pages_eq, hbase, hsize] at hlast
    have hval : (b.lvbase + (b.size - 1)).toNat = (b.lvbase.toNat + (b.size.toNat - 1)) % 2 ^ 32 := by
      bv_omega
    omega
  refine ⟨hpages, ?_⟩
  by_contra hnot
  simp only [not_or] at hnot
  obtain ⟨h0, hlow, hsum⟩ := hnot
  have hpos : b.size.toNat ≠ 0 := fun he => h0 (BitVec.eq_of_toNat_eq he)
  -- the first page of the guest in the block
  have hneg : (-b.mbase).toNat = (2 ^ 32 - b.mbase.toNat) % 2 ^ 32 := BitVec.toNat_neg _
  let io : IoData := ⟨[b], 0, [], none, 0, 0⟩
  let d := (2 ^ 32 - b.mbase.toNat) % 4096
  have hd : (b.mbase + BitVec.ofNat 32 d).toNat = (b.mbase.toNat + d) % 2 ^ 32 := by
    rw [BitVec.toNat_add, BitVec.toNat_ofNat]
    omega
  have hpage : (b.mbase + BitVec.ofNat 32 d) &&& pte1Rpn = b.mbase + BitVec.ofNat 32 d := by
    refine BitVec.eq_of_toNat_eq ?_
    rw [rpn_toNat]
    omega
  have hoffs : (b.mbase + BitVec.ofNat 32 d - b.mbase).toNat = d := by
    rw [BitVec.toNat_sub]
    omega
  have hcov : findBlock io ((b.mbase + BitVec.ofNat 32 d) &&& pte1Rpn) = some b := by
    have hc : b.covers (b.mbase + BitVec.ofNat 32 d) = true := by
      simp only [Block.covers, decide_eq_true_eq, BitVec.lt_def]
      omega
    rw [hpage]
    exact List.find?_cons_of_pos hc
  obtain ⟨m, hmap, hlv⟩ : ∃ m, mphysToPte io (b.mbase + BitVec.ofNat 32 d) 0 none = (io, some m) ∧
      m.lvrange = some lvr := by
    have hemu : ¬ ((b.mbase + BitVec.ofNat 32 d) &&& pte1Rpn = io.emuaccelMphys ∧
        io.emuaccelPagePhys ≠ 0) := fun hh => hh.2 rfl
    unfold mphysToPte
    simp only [if_neg hemu, hcov, hs]
    exact ⟨_, rfl, hl⟩
  have hin := h.insert io _ 0 none io m (by decide) hcov hmap hlv
  rw [mapping_lvptr hs (by decide) hcov hmap hlv, hpage, indexOf_eq, pages_eq, hbase, rpn_toNat,
    BitVec.toNat_add] at hin
  omega

theorem inBounds_of_fits (h : Fits b) : InBounds b lvr := by
  obtain ⟨hpages, hfirst⟩ := h
  constructor
  · intro io mphys pte1 alloc io' m hpte hfind hmap hlv
    have hcov := List.find?_some hfind
    simp only [Block.covers, decide_eq_true_eq, BitVec.lt_def] at hcov
    rw [mapping_lvptr hs hpte hfind hmap hlv, indexOf_eq, pages_eq, hbase, hsize, rpn_toNat,
      BitVec.toNat_add]
    have hneg : (-b.mbase).toNat = (2 ^ 32 - b.mbase.toNat) % 2 ^ 32 := BitVec.toNat_neg _
    have hoffs : ((mphys &&& pte1Rpn) - b.mbase).toNat =
        (2 ^ 32 - b.mbase.toNat + mphys.toNat / 4096 * 4096) % 2 ^ 32 := by
      rw [BitVec.toNat_sub, rpn_toNat]
    have hne : b.size.toNat ≠ 0 := by omega
    have hne' : b.size ≠ 0 := fun he => hne (by rw [he]; rfl)
    rcases hfirst with h0 | hlow | hsum
    · exact absurd h0 hne'
    · omega
    · omega
  · intro lvptr hc
    simp only [LvRange.contains, decide_eq_true_eq, BitVec.lt_def, BitVec.toNat_sub, hbase, hsize] at hc
    rw [indexOf_eq, pages_eq, hbase, hsize]
    omega

end Tracked

/-- The records of an accepted block are indexed within bounds exactly when it fits. -/
theorem tracking_inBounds_iff (h : Accepted b) (hl : b.lvrange = some lvr) :
    InBounds b lvr ↔ Fits b := by
  obtain ⟨hbase, hsize, hs⟩ := h.lvrange hl
  exact ⟨fits_of_inBounds hbase hsize hs hl, inBounds_of_fits hbase hsize hs⟩

def ramFlags : MapFlags := { plainFlags with physical := false }

theorem tracking_inBounds_ram : ∃ b lvr, Accepted b ∧ b.lvrange = some lvr ∧ InBounds b lvr := by
  have ha : Accepted (emptyMap.newBlock 0 0x10000 0x4000 ramFlags) :=
    ⟨emptyMap, _, 0, 0x10000, 0x4000, ramFlags, true, 1, rfl, rfl⟩
  exact ⟨_, _, ha, rfl, (tracking_inBounds_iff ha rfl).mpr ⟨by decide, .inr (.inl (by decide))⟩⟩

/-- A block of a page and a half: the second page has no record. -/
theorem tracking_past_end : ∃ (b : Block) (lvr : LvRange) (io : IoData) (m : Mapping), Accepted b ∧
    b.lvrange = some lvr ∧ findBlock io 0x1000 = some b ∧ mphysToPte io 0x1000 0 none = (io, some m) ∧
    indexOf lvr (m.pte1 &&& pte1Rpn) = 1 ∧ lvr.pages = 1 := by
  have ha : Accepted (emptyMap.newBlock 0 0x10000 0x1800 ramFlags) :=
    ⟨emptyMap, _, 0, 0x10000, 0x1800, ramFlags, true, 1, rfl, rfl⟩
  exact ⟨_, _, ⟨[emptyMap.newBlock 0 0x10000 0x1800 ramFlags], 1, [], none, 0, 0⟩, _, ha, rfl, rfl, rfl,
    by decide, by decide⟩

end MacOnLinux.Kv
