import Mathlib.Tactic.IntervalCases
import MacOnLinux.Kv.Blocks

/-! # The page of a guest PTE -/

namespace MacOnLinux

open BitVec

/-! ## The mask -/

theorem or_and_low (x : Word) : (x ||| 0xffff) &&& 0xffff = 0xffff := by
  apply eq_of_getLsbD_eq
  intro i hi
  simp only [getLsbD_and, getLsbD_or]
  cases (0xffff : Word).getLsbD i <;> simp

theorem sdr1Mask_low (value : Word) : sdr1Mask value &&& 0xffff = 0xffff := by
  unfold sdr1Mask
  simp only
  split
  · exact or_and_low _
  · rfl

theorem sdr1Hash_low (value ramSize : Word) : (sdr1Hash value ramSize).2 &&& 0xffff = 0xffff := by
  unfold sdr1Hash
  simp only
  split
  · rfl
  · exact sdr1Mask_low value

theorem mask_bit {mask : Word} (h : mask &&& 0xffff = 0xffff) {i : Nat} (hi : i < 10) :
    (mask >>> 6).getLsbD i = true := by
  have hbit := congrArg (getLsbD · (6 + i)) h
  have hlow : (0xffff : Word).getLsbD (6 + i) = true := by interval_cases i <;> rfl
  simp only [getLsbD_and, hlow, Bool.and_true] at hbit
  rw [getLsbD_ushiftRight]
  exact hbit

/-! ## The place of a PTE -/

theorem offset_group {x : Word} (hx : x.toNat < 2 ^ 26) {i : Nat} (hi : i < 8) :
    (x <<< 6 + BitVec.ofNat 32 (8 * i)) >>> 6 = x := by
  apply BitVec.eq_of_toNat_eq
  simp only [toNat_ushiftRight, toNat_add, toNat_shiftLeft, toNat_ofNat]
  omega

theorem mask_lt (mask : Word) : (mask >>> 6).toNat < 2 ^ 26 := by
  rw [toNat_ushiftRight]
  omega

theorem and_mask_lt (x mask : Word) : (x &&& mask >>> 6).toNat < 2 ^ 26 := by
  exact Nat.and_lt_two_pow _ (mask_lt mask)

theorem xor_mask_lt (x mask : Word) : ((x &&& mask >>> 6) ^^^ mask >>> 6).toNat < 2 ^ 26 := by
  exact Nat.xor_lt_two_pow (and_mask_lt x mask) (mask_lt mask)

theorem findMacPte_some {pte0 : Word → Word} {p cmp o : Word} (h : findMacPte pte0 p cmp = some o) :
    pte0 o = cmp ∧ ∃ i < 8, o = p + BitVec.ofNat 32 (8 * i) := by
  have hcmp := List.find?_some h
  obtain ⟨i, hi, rfl⟩ := List.mem_map.mp (List.mem_of_find?_eq_some h)
  exact ⟨of_decide_eq_true hcmp, i, List.mem_range.mp hi, rfl⟩

/-! ## The inverse of the hash -/

def macPte0 (vsid ea : Word) (h : Bool) : Word :=
  0x80000000 ||| (vsid <<< 7) ||| ((ea &&& 0x0fffffff) >>> 22) ||| if h then 0x40 else 0

def pageHash (vsid ea : Word) : Word := (ea >>> 12) ^^^ (vsid &&& 0x7ffff)

theorem tlbieVsid_macPte0 (vsid ea : Word) (h : Bool) :
    tlbieVsid (macPte0 vsid ea h) = vsid &&& 0xffffff := by
  unfold tlbieVsid macPte0
  apply eq_of_getLsbD_eq
  intro i hi
  cases h <;> interval_cases i <;> simp

theorem macPte0_h (vsid ea : Word) (h : Bool) : (macPte0 vsid ea h).getLsbD 6 = h := by
  unfold macPte0
  cases h <;> simp

section Mask

variable {mask : Word} (hm : mask &&& 0xffff = 0xffff)

include hm

theorem page_bits (vsid ea : Word) (h : Bool) :
    ((((macPte0 vsid (ea &&& 0x0ffff000) h) <<< 10) &&& (0xfc00 : Word)) |||
      (((pageHash vsid (ea &&& 0x0ffff000) &&& mask >>> 6) ^^^
        (macPte0 vsid (ea &&& 0x0ffff000) h >>> 7)) &&& (0x3ff : Word))) <<< 12 = ea &&& 0x0ffff000 := by
  have hbit : ∀ i < 10, (mask >>> 6).getLsbD i = true := fun i hi => mask_bit hm hi
  unfold macPte0 pageHash
  apply eq_of_getLsbD_eq
  intro i hi
  cases h <;> interval_cases i <;> simp [-getLsbD_eq_getElem, hbit]

theorem not_group (x w : Word) : (~~~((x &&& mask >>> 6) ^^^ mask >>> 6) ^^^ w) &&& (0x3ff : Word) =
      ((x &&& mask >>> 6) ^^^ w) &&& (0x3ff : Word) := by
  have hbit : ∀ i < 10, (mask >>> 6).getLsbD i = true := fun i hi => mask_bit hm hi
  apply eq_of_getLsbD_eq
  intro i hi
  simp only [getLsbD_and, getLsbD_xor, getLsbD_not]
  by_cases hlow : i < 10
  · rw [hbit i hlow, decide_eq_true hi]
    cases x.getLsbD i <;> simp
  · have : (0x3ff : Word).getLsbD i = false := by
      interval_cases i <;> rfl
    rw [this, Bool.and_false, Bool.and_false]

theorem tlbieEa_primary (vsid ea : Word) {i : Nat} (hi : i < 8) :
    tlbieEa (macPte0 vsid (ea &&& 0x0ffff000) false)
      ((pageHash vsid (ea &&& 0x0ffff000) &&& mask >>> 6) <<< 6 + BitVec.ofNat 32 (8 * i)) =
      ea &&& 0x0ffff000 := by
  unfold tlbieEa
  simp only [macPte0_h, offset_group (and_mask_lt _ mask) hi]
  exact page_bits hm vsid ea false

theorem tlbieEa_secondary (vsid ea : Word) {i : Nat} (hi : i < 8) :
    tlbieEa (macPte0 vsid (ea &&& 0x0ffff000) true)
      (((pageHash vsid (ea &&& 0x0ffff000) &&& mask >>> 6) ^^^ mask >>> 6) <<< 6 +
        BitVec.ofNat 32 (8 * i)) = ea &&& 0x0ffff000 := by
  unfold tlbieEa
  simp only [macPte0_h, if_true, offset_group (xor_mask_lt _ mask) hi, not_group hm]
  exact page_bits hm vsid ea true

end Mask

theorem lookupMacPte_some {g : Guest} {vsid ea o : Word} (h : lookupMacPte g vsid ea = some o) :
    ∃ sec : Bool, g.pte0 o = macPte0 vsid (ea &&& 0x0ffff000) sec ∧ ∃ i < 8,
      o = (if sec then (pageHash vsid (ea &&& 0x0ffff000) &&& g.hashMask >>> 6) ^^^ g.hashMask >>> 6
        else pageHash vsid (ea &&& 0x0ffff000) &&& g.hashMask >>> 6) <<< 6 + BitVec.ofNat 32 (8 * i) := by
  unfold lookupMacPte at h
  split at h
  · simp only at h
    split at h
    · rename_i o' hfind
      cases h
      obtain ⟨hcmp, i, hi, ho⟩ := findMacPte_some hfind
      refine ⟨false, ?_, i, hi, ho⟩
      rw [hcmp]
      unfold macPte0
      simp
    · obtain ⟨hcmp, i, hi, ho⟩ := findMacPte_some h
      refine ⟨true, ?_, i, hi, ?_⟩
      · rw [hcmp]
        rfl
      · rw [ho, if_pos rfl, shiftLeft_xor_distrib]
        rfl
  · cases h

theorem tlbie_of_lookup {g : Guest} (hm : g.hashMask &&& 0xffff = 0xffff) {vsid ea o : Word}
    (h : lookupMacPte g vsid ea = some o) :
    tlbieVsid (g.pte0 o) = vsid &&& 0xffffff ∧ tlbieEa (g.pte0 o) o = ea &&& 0x0ffff000 := by
  obtain ⟨sec, hpte, i, hi, ho⟩ := lookupMacPte_some h
  rw [hpte, ho]
  refine ⟨tlbieVsid_macPte0 vsid _ sec, ?_⟩
  cases sec with
  | false => exact tlbieEa_primary hm vsid ea hi
  | true => exact tlbieEa_secondary hm vsid ea hi

/-- A store to the PTE of a page flushes that page. -/
theorem Kv.doInterceptTlbie_spec (k : Kv) {value ramSize vsid ea o : Word}
    (hmask : k.guest.hashMask = (sdr1Hash value ramSize).2) (hvsid : vsid.toNat < 2 ^ 24)
    (h : lookupMacPte k.guest vsid ea = some o) :
    k.doInterceptTlbie (k.guest.pte0 o) (k.guest.pte1 o) o =
      (k.clearInuse o).withMmu (·.flushVsidEa vsid.toNat (ea &&& 0x0ffff000).toNat) := by
  have hm : k.guest.hashMask &&& 0xffff = 0xffff := by
    rw [hmask]
    exact sdr1Hash_low value ramSize
  obtain ⟨h1, h2⟩ := tlbie_of_lookup hm h
  have hv : vsid &&& 0xffffff = vsid := by
    apply BitVec.eq_of_toNat_eq
    rw [toNat_and, show (0xffffff : Word).toNat = 2 ^ 24 - 1 by rfl, Nat.and_two_pow_sub_one_eq_mod]
    omega
  unfold doInterceptTlbie
  rw [h1, h2, hv]

/-- A hash with one PTE, of page 0x3000 in segment 5. -/
theorem Kv.doInterceptTlbie_one : ∃ k : Kv, k.guest.hashMask = (sdr1Hash 0 0x2000000).2 ∧
    lookupMacPte k.guest 5 0x3000 = some 0x180 ∧
    k.doInterceptTlbie (k.guest.pte0 0x180) (k.guest.pte1 0x180) 0x180 =
      (k.clearInuse 0x180).withMmu (·.flushVsidEa 5 0x3000) := by
  let k : Kv := { emptyMap with
    guest := { emptyMap.guest with
      hashMapped := true
      hashMask := 0xffff
      pte0 := fun o => if o = 0x180 then 0x80000280 else 0 }
    ramSize := 0x2000000 }
  have hmask : k.guest.hashMask = (sdr1Hash 0 0x2000000).2 := by decide
  have hfind : lookupMacPte k.guest 5 0x3000 = some 0x180 := by decide
  exact ⟨k, hmask, hfind, Kv.doInterceptTlbie_spec k hmask (by decide) hfind⟩

end MacOnLinux
