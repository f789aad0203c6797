import MacOnLinux.Qcow.Tables
import Mathlib.Tactic.Ring

/-! # An image as a flat disk -/

namespace MacOnLinux.Qcow

open State List Nat

variable {full : Prop} {z : Zlib} {s s' : State} {n nb sector size y : Nat} {bs buf : List Byte}

/-! ## Places in a cluster -/

def Covers (sector len y : Nat) : Prop := sector * 512 ≤ y ∧ y < sector * 512 + len

instance : Decidable (Covers sector n y) := inferInstanceAs (Decidable (_ ∧ _))

section Place

variable {c d len : Nat}

theorem place (hd : sector % c * 512 + d < c * 512) :
    (sector * 512 + d) / (c * 512) = sector / c ∧ (sector * 512 + d) % (c * 512) = sector % c * 512 + d := by
  have hpos : 0 < c * 512 := by omega
  have hsplit : sector * 512 + d = c * 512 * (sector / c) + (sector % c * 512 + d) := by
    calc sector * 512 + d
        = (c * (sector / c) + sector % c) * 512 + d := by rw [div_add_mod]
      _ = _ := by ring
  rw [hsplit, mul_add_div hpos, div_eq_of_lt hd, mul_add_mod, mod_eq_of_lt hd]
  exact ⟨rfl, rfl⟩

theorem place_behind (hc : 0 < c) (hge : (sector + (c - sector % c)) * 512 ≤ y) : sector / c < y / (c * 512) := by
  have hmod := mod_lt sector hc
  have hdiv := div_add_mod sector c
  have hend : sector + (c - sector % c) = c * (sector / c + 1) := by
    rw [mul_add]
    omega
  rw [hend] at hge
  apply (le_div_iff_mul_le (by omega)).mpr
  calc (sector / c + 1) * (c * 512) = c * (sector / c + 1) * 512 := by ring
    _ ≤ y := hge

theorem place_iff (hlen : sector % c * 512 + len ≤ c * 512) :
    (y / (c * 512) = sector / c ∧ sector % c * 512 ≤ y % (c * 512) ∧ y % (c * 512) < sector % c * 512 + len) ↔
      Covers sector len y := by
  constructor
  · rintro ⟨hdiv, hge, hlt⟩
    have hy := div_add_mod y (c * 512)
    have hx : c * 512 * (sector / c) + sector % c * 512 = sector * 512 := by
      calc c * 512 * (sector / c) + sector % c * 512
          = (c * (sector / c) + sector % c) * 512 := by ring
        _ = sector * 512 := by rw [div_add_mod]
    rw [hdiv] at hy
    unfold Covers
    omega
  · rintro ⟨hge, hlt⟩
    obtain ⟨d, rfl⟩ := Nat.exists_eq_add_of_le hge
    have hd : d < len := lt_of_add_lt_add_left hlt
    obtain ⟨hdiv, hmod⟩ := place (lt_of_lt_of_le (Nat.add_lt_add_left hd _) hlen)
    rw [hdiv, hmod]
    exact ⟨rfl, Nat.le_add_right _ _, Nat.add_lt_add_left hd _⟩

theorem partial_of_missed (hc : 0 < c) (hn : n ≤ c - sector % c) (hy : y / (c * 512) = sector / c)
    (hmissed : ¬ Covers sector (n * 512) y) : n < c := by
  by_contra hall
  have hzero : sector % c = 0 := by omega
  have hnc : n = c := by omega
  have hmod := mod_lt y (mul_pos hc (by decide : 0 < 512))
  apply hmissed
  apply (place_iff _).mp
  · rw [hzero, Nat.zero_add, hnc]
    exact ⟨hy, zero_le _, hmod⟩
  · rw [hzero, Nat.zero_add, hnc]

theorem covers_split (sector y : Nat) (hlen : n * 512 ≤ len) :
    Covers sector len y ↔ Covers sector (n * 512) y ∨ Covers (sector + n) (len - n * 512) y := by
  unfold Covers
  omega

theorem covers_same (hc : 0 < c) (hn : n ≤ c - sector % c) (hy : Covers sector (n * 512) y) :
    y / (c * 512) = sector / c := by
  have hmod := mod_lt sector hc
  exact ((place_iff (by omega)).mpr hy).1

theorem covers_behind (hc : 0 < c) (hn : n = min (c - sector % c) nb)
    (hy : Covers (sector + n) (nb * 512 - n * 512) y) :
    sector / c < y / (c * 512) := by
  obtain ⟨hge, hlt⟩ := hy
  have hfull : n = c - sector % c := by omega
  rw [hfull] at hge
  exact place_behind hc hge

end Place

theorem clusterSize_eq (h : Inv full z s) : s.clusterSize = s.clusterSectors * 512 := by
  have hbits := h.bits
  rw [clusterSize, clusterSectors, show 512 = 2 ^ 9 from rfl, ← pow_add, Nat.sub_add_cancel hbits]

theorem clusterSectors_pos (s : State) : 0 < s.clusterSectors := Nat.two_pow_pos _

theorem chunk_bounds (s : State) (sector : Nat) (hnb : 0 < nb) :
    chunk s sector nb ≤ s.clusterSectors - sector % s.clusterSectors ∧ chunk s sector nb ≤ nb ∧
      0 < chunk s sector nb := by
  have hmod := mod_lt sector (clusterSectors_pos s)
  unfold chunk
  omega

/-! ## Writes -/

theorem writeChunk_failed (hw : writeChunk z s sector bs = some s') (hok : s'.failed = none) : s.failed = none := by
  unfold writeChunk at hw
  dsimp only at hw
  split at hw
  · cases hw
  rename_i e s1 hget
  split at hw
  · cases hw
  · cases hw
    exact getClusterOffset_failed hget hok

theorem writeChunk_spec (h : Inv full z s) (hlen : bs.length = n * 512)
    (hn : n ≤ s.clusterSectors - sector % s.clusterSectors) (hx : s.l1Index (sector * 512) < s.l1Size)
    (hw : writeChunk z s sector bs = some s') (hok : s'.failed = none) :
    Inv full z s' ∧ Keeps s s' ∧ (full → ∀ y, s.l1Index y < s.l1Size →
      (¬ Covers sector bs.length y → y / s.clusterSize = sector / s.clusterSectors → lookup s y ≠ 0 ∨ s.backingHd < 0) →
      diskByte z s' y = if Covers sector bs.length y then bs.getD (y - sector * 512) 0 else diskByte z s y) := by
  unfold writeChunk at hw
  dsimp only at hw
  split at hw
  · cases hw
  rename_i e s1 hget
  have hok1 : s1.failed = none := by
    split at hw
    · cases hw
    · cases hw
      exact hok
  obtain ⟨hinv, hkeeps, rfl, hne, hcomp, hkept⟩ := getClusterOffset_write h hx hget hok1
  have hseek : seekTo s1 (lookup s1 (sector * 512)) (sector % s.clusterSectors) =
      lookup s1 (sector * 512) + sector % s.clusterSectors * 512 := by
    refine if_neg fun he => ?_
    rw [he] at hcomp
    exact absurd hcomp (by decide)
  rw [if_neg hne, hseek] at hw
  obtain rfl := Option.some.inj hw
  have hx' : s1.l1Index (sector * 512) < s1.l1Size := by rwa [hkeeps.l1Index, hkeeps.l1Size]
  obtain ⟨hc, hlook⟩ := hasCluster_of_lookup hx' hne
  have hsize := clusterSize_eq h
  have hpos := clusterSectors_pos s
  have hmod := mod_lt sector hpos
  have hfit : sector % s.clusterSectors * 512 + bs.length ≤ s.clusterSectors * 512 := by
    omega
  have hoff : sector % s.clusterSectors * 512 + bs.length ≤ s1.clusterSize := by rwa [hkeeps.clusterSize, hsize]
  refine ⟨?_, hkeeps.trans ⟨rfl, rfl, rfl, rfl, rfl, ?_⟩, ?_⟩
  · rw [hlook] at hcomp ⊢
    exact hinv.write hc hcomp hoff
  · intro y hy hney
    rw [hlook] at hcomp ⊢
    rwa [lookup_write hinv hc hcomp hoff hy]
  intro hfull y hy hcond
  have hy' : s1.l1Index y < s1.l1Size := by rwa [hkeeps.l1Index, hkeeps.l1Size]
  rw [diskByte_write hinv hx' hne hcomp hoff hy', hkeeps.clusterSize, hsize,
    Nat.mul_div_mul_right _ _ (by decide : 0 < 512)]
  by_cases hin : Covers sector bs.length y
  · rw [if_pos ((place_iff hfit).mpr hin), if_pos hin]
    obtain ⟨d, rfl⟩ := Nat.exists_eq_add_of_le hin.1
    have hd := lt_of_lt_of_le (Nat.add_lt_add_left (lt_of_add_lt_add_left hin.2) _) hfit
    rw [(place hd).2, Nat.add_sub_cancel_left, Nat.add_sub_cancel_left]
  rw [if_neg (fun hplace => hin ((place_iff hfit).mp hplace)), if_neg hin]
  apply hkept hfull y hy
  intro hsame
  have hcond' := hcond hin (by rwa [hsize, Nat.mul_div_mul_right _ _ (by decide : 0 < 512), ← hsize] at hsame)
  rw [lookup_congr hsame] at hcond'
  split_ifs with h0
  · exact hcond'.resolve_left (not_not_intro h0)
  · intro _
    rw [hlen, Nat.add_sub_cancel_left, Nat.mul_div_cancel _ (by decide : 0 < 512)]
    rw [hsize, Nat.mul_div_mul_right _ _ (by decide : 0 < 512)] at hsame
    rw [hlen] at hin
    exact partial_of_missed hpos hn hsame hin

theorem Inv.seek (h : Inv full z s) (q : Nat) : Inv full z { s with seekSector := q } where
  bits := h.bits
  laid := ⟨h.laid.disjoint, h.laid.below⟩
  l1 := h.l1
  packed := h.packed
  coherent := ⟨h.coherent.table, h.coherent.distinct⟩
  cache := h.cache
  unpacked := h.unpacked

def Complete (s : State) (sector len y : Nat) : Prop :=
  ¬ Covers sector len y → (∃ y', Covers sector len y' ∧ y' / s.clusterSize = y / s.clusterSize) →
    lookup s y ≠ 0 ∨ s.backingHd < 0

theorem Complete.split (h : Inv full z s) (hkeeps : Keeps s s') (hn : n = chunk s sector nb) (hnb : 0 < nb)
    (hy : s.l1Index y < s.l1Size) (hc : Complete s sector (nb * 512) y) :
    (¬ Covers sector (n * 512) y → y / s.clusterSize = sector / s.clusterSectors → lookup s y ≠ 0 ∨ s.backingHd < 0) ∧
      Complete s' (sector + n) (nb * 512 - n * 512) y := by
  have hpos := clusterSectors_pos s
  have hsize := clusterSize_eq h
  have hn' := chunk_bounds s sector hnb
  rw [← hn] at hn'
  have hsplit (y : Nat) := covers_split sector y (mul_le_mul_right 512 hn'.2.1)
  constructor
  · intro hmissed hsame
    apply hc
    · rw [hsplit]
      rintro (hin | hin)
      · exact hmissed hin
      · have hlt := covers_behind hpos hn hin
        rw [← hsize, hsame] at hlt
        exact lt_irrefl _ hlt
    · have hfirst : Covers sector (n * 512) (sector * 512) := ⟨le_refl _, by omega⟩
      refine ⟨sector * 512, (hsplit _).mpr (.inl hfirst), ?_⟩
      rw [hsame, hsize]
      exact covers_same hpos hn'.1 hfirst
  · rintro hmissed ⟨y', hin, hsame⟩
    rw [hkeeps.clusterSize] at hsame
    have hlt := covers_behind hpos hn hin
    have hfirst : ¬ Covers sector (n * 512) y := by
      intro hfirst
      have heq := covers_same hpos hn'.1 hfirst
      rw [← hsize] at hlt heq
      omega
    have hcase := hc (fun hcov => ((hsplit y).mp hcov).elim hfirst hmissed) ⟨y', (hsplit y').mpr (.inr hin), hsame⟩
    rw [hkeeps.backingHd]
    exact hcase.imp_left (hkeeps.lookup y hy)

theorem writeLoop_failed (fuel : Nat) (hw : writeLoop z fuel s sector nb buf = some s') (hok : s'.failed = none) :
    s.failed = none := by
  induction fuel generalizing s sector nb buf with
  | zero =>
    cases hw
    exact hok
  | succ fuel ih =>
    rw [writeLoop] at hw
    split at hw
    · cases hw
      exact hok
    dsimp only at hw
    split at hw
    · cases hw
    · rename_i hchunk
      exact writeChunk_failed hchunk (ih hw)

theorem writeLoop_spec (fuel : Nat) (h : Inv full z s) (hfuel : nb ≤ fuel) (hlen : nb * 512 ≤ buf.length)
    (hx : ∀ y, Covers sector (nb * 512) y → s.l1Index y < s.l1Size)
    (hw : writeLoop z fuel s sector nb buf = some s') (hok : s'.failed = none) :
    Inv full z s' ∧ Keeps s s' ∧ s'.seekSector = sector + nb ∧
      (full → ∀ y, s.l1Index y < s.l1Size → Complete s sector (nb * 512) y →
        diskByte z s' y = if Covers sector (nb * 512) y then buf.getD (y - sector * 512) 0 else diskByte z s y) := by
  induction fuel generalizing s sector nb buf with
  | zero =>
    obtain rfl := le_zero.mp hfuel
    obtain rfl := Option.some.inj hw
    refine ⟨h.seek sector, ⟨rfl, rfl, rfl, rfl, rfl, fun _ _ hne => hne⟩, rfl, fun _ y _ _ => ?_⟩
    rw [if_neg (by unfold Covers; omega)]
    rfl
  | succ fuel ih =>
    by_cases hnb : nb = 0
    · subst hnb
      simp only [writeLoop, if_true, Option.some.injEq] at hw
      subst hw
      refine ⟨h.seek sector, ⟨rfl, rfl, rfl, rfl, rfl, fun _ _ hne => hne⟩, rfl, fun _ y _ _ => ?_⟩
      rw [if_neg (by unfold Covers; omega)]
      rfl
    simp only [writeLoop, if_neg hnb] at hw
    split at hw
    · cases hw
    rename_i s1 hchunk
    have hpos : 0 < nb := pos_of_ne_zero hnb
    obtain ⟨hfit, hle, hn⟩ := chunk_bounds s sector hpos
    have hsplit (y : Nat) := covers_split sector y (mul_le_mul_right 512 hle)
    generalize hchunk' : chunk s sector nb = n at *
    have htake : (buf.take (n * 512)).length = n * 512 :=
      length_take_of_le (le_trans (mul_le_mul_right 512 hle) hlen)
    have hdrop : (nb - n) * 512 ≤ (buf.drop (n * 512)).length := by
      rw [length_drop, Nat.sub_mul]
      exact Nat.sub_le_sub_right hlen _
    have hfirst : Covers sector (n * 512) (sector * 512) := ⟨le_refl _, by omega⟩
    obtain ⟨hinv, hkeeps, hbyte⟩ := writeChunk_spec h htake hfit (hx _ ((hsplit _).mpr (.inl hfirst))) hchunk
      (writeLoop_failed fuel hw hok)
    rw [← Nat.sub_mul] at hsplit
    have hx' : ∀ y, Covers (sector + n) ((nb - n) * 512) y → s1.l1Index y < s1.l1Size := by
      intro y hy
      rw [hkeeps.l1Index, hkeeps.l1Size]
      exact hx y ((hsplit y).mpr (.inr hy))
    obtain ⟨hinv', hkeeps', hseek, hbyte'⟩ := ih hinv (by omega) hdrop hx' hw
    refine ⟨hinv', hkeeps.trans hkeeps', by omega, ?_⟩
    intro hfull y hy hc
    obtain ⟨hfirst, hrest⟩ := hc.split h hkeeps hchunk'.symm hpos hy
    rw [← Nat.sub_mul] at hrest
    rw [htake] at hbyte
    rw [hbyte' hfull y (by rwa [hkeeps.l1Index, hkeeps.l1Size]) hrest, hbyte hfull y hy hfirst]
    by_cases hin : Covers (sector + n) ((nb - n) * 512) y
    · rw [if_pos hin, if_pos ((hsplit y).mpr (.inr hin))]
      unfold Covers at hin
      rw [getD_eq_getElem?_getD, getElem?_drop]
      congr 2
      omega
    rw [if_neg hin]
    by_cases hin' : Covers sector (n * 512) y
    · rw [if_pos hin', if_pos ((hsplit y).mpr (.inl hin'))]
      unfold Covers at hin'
      rw [getD_eq_getElem?_getD, getD_eq_getElem?_getD, getElem?_take_of_lt (by omega)]
    · rw [if_neg hin', if_neg (fun hcov => ((hsplit y).mp hcov).elim hin' hin)]

/-! ## Reads -/

/-- A byte of the image, or of a backing file that reaches so far. -/
def Available (s : State) (y : Nat) : Prop := lookup s y ≠ 0 ∨ (0 < s.backingHd ∧ y < s.backing.size)

structure Reads (full : Prop) (z : Zlib) (s s' : State) : Prop where
  inv : Inv full z s'
  keeps : Keeps s s'
  lookup : ∀ y, lookup s' y = lookup s y
  byte : ∀ y, diskByte z s' y = diskByte z s y

theorem Inv.reads_seek (h : Inv full z s) (sector : Nat) : Reads full z s { s with seekSector := sector } :=
  ⟨h.seek sector, ⟨rfl, rfl, rfl, rfl, rfl, fun _ _ hne => hne⟩, fun _ => rfl, fun _ => rfl⟩

theorem Reads.trans {s'' : State} (h : Reads full z s s') (h' : Reads full z s' s'') : Reads full z s s'' where
  inv := h'.inv
  keeps := h.keeps.trans h'.keeps
  lookup := fun y => (h'.lookup y).trans (h.lookup y)
  byte := fun y => (h'.byte y).trans (h.byte y)

theorem Reads.available (h : Reads full z s s') : Available s' y ↔ Available s y := by
  rw [Available, Available, h.lookup, h.keeps.backingHd, h.keeps.backing]

def diskBytes (z : Zlib) (s : State) (sector len : Nat) : List Byte :=
  (List.range len).map fun d => diskByte z s (sector * 512 + d)

theorem take_drop_eq_map (l : List Byte) {k m : Nat} (h : k + m ≤ l.length) :
    (l.drop k).take m = (range m).map fun d => l.getD (k + d) 0 := by
  apply ext_getElem
  · simp only [length_take, length_drop, length_map, length_range]
    omega
  · intro d hd hd'
    simp only [length_map, length_range] at hd'
    simp only [getElem_take, getElem_drop, getElem_map, getElem_range]
    rw [getD_eq_getElem _ _ (by omega)]

theorem readChunk_spec {old : List Byte} (h : Inv full z s) (hfull : full) (hold : old.length = n * 512)
    (hn : n ≤ s.clusterSectors - sector % s.clusterSectors) (hpos : 0 < n) (hdisk : s.l1Index (sector * 512) < s.l1Size)
    (hav : ∀ y, Covers sector (n * 512) y → Available s y) :
    ∃ s', readChunk z s sector n old = some (diskBytes z s sector (n * 512), s') ∧ Reads full z s s' := by
  have hsize := clusterSize_eq h
  have hc := clusterSectors_pos s
  have hmod := mod_lt sector hc
  have hfit : sector % s.clusterSectors * 512 + n * 512 ≤ s.clusterSectors * 512 := by
    omega
  have hcov (d : Nat) (hd : d < n * 512) : Covers sector (n * 512) (sector * 512 + d) :=
    ⟨Nat.le_add_right _ _, Nat.add_lt_add_left hd _⟩
  have hplace (d : Nat) (hd : d < n * 512) :
      (sector * 512 + d) / s.clusterSize = sector * 512 / s.clusterSize ∧
        (sector * 512 + d) % s.clusterSize = sector % s.clusterSectors * 512 + d := by
    rw [hsize, Nat.mul_div_mul_right _ _ (by decide : 0 < 512)]
    exact place (lt_of_lt_of_le (Nat.add_lt_add_left hd _) hfit)
  have hlook (d : Nat) (hd : d < n * 512) : lookup s (sector * 512 + d) = lookup s (sector * 512) :=
    lookup_congr (hplace d hd).1
  obtain ⟨c, os, m, hget, hinv⟩ := getClusterOffset_read h hdisk
  have hreads : Reads full z s { s with l2Cache := c, l2CacheOffsets := os, l2CacheCounts := m } :=
    ⟨hinv, ⟨rfl, rfl, rfl, rfl, rfl, fun _ _ hne => hne⟩, fun _ => rfl, fun _ => rfl⟩
  simp only [readChunk, hget]
  by_cases h0 : lookup s (sector * 512) = 0
  · have hback (d : Nat) (hd : d < n * 512) : 0 < s.backingHd ∧ sector * 512 + d < s.backing.size :=
      (hav _ (hcov d hd)).resolve_left (not_not_intro ((hlook d hd).trans h0))
    have hhd := (hback 0 (by omega)).1
    have hlast := (hback (n * 512 - 1) (by omega)).2
    have hend : sector * 512 + n * 512 ≤ s.backing.size := by
      clear hfit hmod hn
      omega
    refine ⟨_, ?_, hreads⟩
    rw [if_pos h0, if_pos (by omega), if_neg (by omega), File.length_read_of_le hend, ← hold, drop_length,
      append_nil, hold, File.read_eq_map hend]
    congr 2
    apply map_congr_left
    intro d hd
    rw [diskByte, hlook d (mem_range.mp hd), if_pos h0, base, if_pos (by omega)]
  · rw [if_neg h0]
    obtain ⟨hcl, heq⟩ := hasCluster_of_lookup hdisk h0
    have hbyte (d : Nat) (hd : d < n * 512) : diskByte z s (sector * 512 + d) =
        clusterByte z s (lookup s (sector * 512)) (sector % s.clusterSectors * 512 + d) := by
      rw [diskByte, hlook d hd, if_neg h0, (hplace d hd).2]
    cases he : isCompressed (lookup s (sector * 512)) with
    | true =>
      obtain ⟨s1, hdec⟩ := Option.isSome_iff_exists.mp (decompressCluster_isSome hinv hfull hcl heq.symm he)
      obtain ⟨out, rfl, hlen, hinv', hout⟩ := decompressCluster_some hinv hcl heq.symm he hdec
      replace hout := (unpack_eq_some (hout hfull)).2
      change out.length = s.clusterSize at hlen
      refine ⟨_, ?_, hreads.trans ⟨hinv', ⟨rfl, rfl, rfl, rfl, rfl, fun _ _ hne => hne⟩, fun _ => rfl, fun _ => rfl⟩⟩
      simp only [if_true, hdec]
      congr 2
      show (out.drop (sector % s.clusterSectors * 512)).take (n * 512) = _
      rw [take_drop_eq_map out (by rw [hlen, hsize]; exact hfit)]
      apply map_congr_left
      intro d hd
      rw [hbyte d (mem_range.mp hd), clusterByte, if_pos he]
      change z.inflate s.clusterSize (s.fd.read (s.coffset (lookup s (sector * 512)))
        (s.csize (lookup s (sector * 512)))) =
        some out at hout
      rw [hout, Option.getD_some]
    | false =>
      have hend : lookup s (sector * 512) + sector % s.clusterSectors * 512 + n * 512 ≤ s.fd.size := by
        have hbelow := cluster_below h.laid hcl
        simp only [← heq, start, len, he, Bool.false_eq_true, if_false] at hbelow
        omega
      refine ⟨_, ?_, hreads⟩
      show (if (s.fd.read (lookup s (sector * 512) + sector % s.clusterSectors * 512)
        (n * 512)).length ≠ n * 512 then none
        else some (s.fd.read (lookup s (sector * 512) + sector % s.clusterSectors * 512) (n * 512), _)) = _
      rw [File.length_read_of_le hend, if_neg (not_not_intro rfl), File.read_eq_map hend]
      congr 2
      apply map_congr_left
      intro d hd
      rw [hbyte d (mem_range.mp hd), clusterByte, if_neg (by rw [he]; exact Bool.false_ne_true), add_assoc]

theorem diskBytes_append (z : Zlib) (s : State) (sector n len : Nat) :
    diskBytes z s sector (n * 512) ++ diskBytes z s (sector + n) len = diskBytes z s sector (n * 512 + len) := by
  unfold diskBytes
  rw [range_add, map_append, map_map, append_cancel_left_eq]
  apply map_congr_left
  intro d _
  have hsum : (sector + n) * 512 + d = sector * 512 + (n * 512 + d) := by ring
  exact congrArg (diskByte z s) hsum

theorem readLoop_spec (fuel : Nat) (h : Inv full z s) (hfull : full) (hfuel : nb ≤ fuel) (hlen : buf.length = nb * 512)
    (hdisk : ∀ y, Covers sector (nb * 512) y → s.l1Index y < s.l1Size)
    (hav : ∀ y, Covers sector (nb * 512) y → Available s y) :
    ∃ s', readLoop z fuel s sector nb buf = some (diskBytes z s sector (nb * 512), s') ∧ Reads full z s s' ∧
      s'.seekSector = sector + nb := by
  induction fuel generalizing s sector nb buf with
  | zero =>
    obtain rfl := le_zero.mp hfuel
    obtain rfl := length_eq_zero_iff.mp (hlen.trans (zero_mul _))
    exact ⟨_, rfl, h.reads_seek sector, rfl⟩
  | succ fuel ih =>
    by_cases hnb : nb = 0
    · subst hnb
      obtain rfl := length_eq_zero_iff.mp (hlen.trans (zero_mul _))
      exact ⟨_, rfl, h.reads_seek sector, rfl⟩
    have hpos : 0 < nb := pos_of_ne_zero hnb
    obtain ⟨hfit, hle, hn⟩ := chunk_bounds s sector hpos
    have hsplit (y : Nat) := covers_split sector y (mul_le_mul_right 512 hle)
    simp only [readLoop, if_neg hnb]
    generalize chunk s sector nb = n at *
    rw [← Nat.sub_mul] at hsplit
    have htake : (buf.take (n * 512)).length = n * 512 := by
      rw [length_take]
      omega
    have hdrop : (buf.drop (n * 512)).length = (nb - n) * 512 := by
      rw [length_drop]
      omega
    obtain ⟨s1, hchunk, hreads⟩ := readChunk_spec h hfull htake hfit hn (hdisk _ ⟨le_refl _, by omega⟩)
      (fun y hy => hav y ((hsplit y).mpr (.inl hy)))
    obtain ⟨s2, hloop, hreads', hseek⟩ := ih hreads.inv (by omega) hdrop
      (fun y hy => by rw [hreads.keeps.l1Index, hreads.keeps.l1Size]; exact hdisk y ((hsplit y).mpr (.inr hy)))
      (fun y hy => hreads.available.mpr (hav y ((hsplit y).mpr (.inr hy))))
    refine ⟨s2, ?_, hreads.trans hreads', by omega⟩
    have hsame : diskBytes z s1 (sector + n) ((nb - n) * 512) = diskBytes z s (sector + n) ((nb - n) * 512) :=
      map_congr_left fun d _ => hreads.byte _
    have hsum : n * 512 + (nb - n) * 512 = nb * 512 := by omega
    rw [hchunk]
    dsimp only
    rw [hloop]
    dsimp only
    rw [hsame, diskBytes_append, hsum]

/-! ## Calls -/

def InDisk (s : State) (size : Nat) (buf : List Byte) : Prop :=
  buf.length % 512 = 0 ∧ s.seekSector * 512 + buf.length ≤ size

def Indexed (s : State) (size : Nat) : Prop := ∀ y, y < size → s.l1Index y < s.l1Size

theorem InDisk.covers (h : InDisk s size buf) (hidx : Indexed s size)
    (hy : Covers s.seekSector (buf.length / 512 * 512) y) :
    s.l1Index y < s.l1Size := by
  obtain ⟨-, hlt⟩ := hy
  obtain ⟨hmod, hle⟩ := h
  exact hidx y (by omega)

theorem InDisk.length (h : InDisk s size buf) : buf.length = buf.length / 512 * 512 := by
  have := h.1
  omega

theorem qcowRead_spec (h : Inv full z s) (hfull : full) (hidx : Indexed s size) (hin : InDisk s size buf)
    (hav : ∀ y, Covers s.seekSector buf.length y → Available s y) :
    ∃ s', qcowRead z s buf = some (diskBytes z s s.seekSector buf.length, s') ∧ Reads full z s s' := by
  have hlen := hin.length
  rw [hlen] at hav
  obtain ⟨s', hread, hreads, -⟩ :=
    readLoop_spec (buf.length / 512) h hfull (le_refl _) hlen (fun y hy => hin.covers hidx hy) hav
  rw [← hlen] at hread
  exact ⟨s', hread, hreads⟩

theorem Inv.uncache (h : Inv full z s) : Inv full z { s with clusterCacheOffset := 2 ^ 64 - 1 } where
  bits := h.bits
  laid := ⟨h.laid.disjoint, h.laid.below⟩
  l1 := h.l1
  packed := h.packed
  coherent := ⟨h.coherent.table, h.coherent.distinct⟩
  cache := h.cache
  unpacked := by
    intro _ i k _ _ hoff
    have hlt : s.coffset (s.entry i k) < 2 ^ (63 - s.clusterBits) := mod_lt _ (Nat.two_pow_pos _)
    have hle : 2 ^ (63 - s.clusterBits) ≤ 2 ^ 63 := Nat.pow_le_pow_right (by decide) (sub_le _ _)
    change 2 ^ 64 - 1 = s.coffset (s.entry i k) at hoff
    omega

theorem qcowWrite_spec (h : Inv full z s)
    (hx : ∀ y, Covers s.seekSector (buf.length / 512 * 512) y → s.l1Index y < s.l1Size)
    (hw : qcowWrite z s buf = some s') (hok : s'.failed = none) :
    Inv full z s' ∧ Keeps s s' ∧
      (full → ∀ y, s.l1Index y < s.l1Size → Complete s s.seekSector (buf.length / 512 * 512) y →
      diskByte z s' y =
        if Covers s.seekSector (buf.length / 512 * 512) y then buf.getD (y - s.seekSector * 512) 0
        else diskByte z s y) := by
  unfold qcowWrite at hw
  split at hw
  · cases hw
  rename_i s1 hloop
  obtain rfl := Option.some.inj hw
  obtain ⟨hinv, hkeeps, -, hbyte⟩ :=
    writeLoop_spec (buf.length / 512) h (le_refl _) (div_mul_le_self _ _) hx hloop hok
  exact ⟨hinv.uncache, hkeeps.trans ⟨rfl, rfl, rfl, rfl, rfl, fun _ _ hne => hne⟩, hbyte⟩

end MacOnLinux.Qcow
