import MacOnLinux.Disk.History
import MacOnLinux.Qcow.Runs

/-! # One cursor for all back ends -/

namespace MacOnLinux.Backend

open List Option Prod Nat

variable {disk : Nat → Byte} {vec : List Nat} {calls : List (List Nat)} {b : Nat}

/-! ## qcow -/

section Qcow

open Qcow (Zlib Inv Reads Available Covers Indexed diskByte diskBytes)

variable {z : Zlib} {s s' : Qcow.State} {sector n nb fuel size : Nat} {old buf out : List Byte}

def Filled (z : Zlib) (s : Qcow.State) (sector : Nat) (old out : List Byte) : Prop :=
  out.length = old.length ∧ ∀ d < old.length,
    (Available s (sector * 512 + d) → out[d]? = some (diskByte z s (sector * 512 + d))) ∧
    (¬Available s (sector * 512 + d) → out[d]? = old[d]?)

theorem filled_of_available (hlen : old.length = n * 512)
    (hav : ∀ y, Covers sector (n * 512) y → Available s y) :
    Filled z s sector old (diskBytes z s sector (n * 512)) := by
  refine ⟨?_, fun d hd => ⟨fun _ => ?_, fun hnot => ?_⟩⟩
  · rw [hlen]
    exact span_length ..
  · rw [hlen] at hd
    exact span_getElem? hd
  · rw [hlen] at hd
    exact absurd (hav _ ⟨Nat.le_add_right _ _, Nat.add_lt_add_left hd _⟩) hnot

theorem lookup_chunk (h : Inv True z s) (hn : n ≤ s.clusterSectors - sector % s.clusterSectors)
    {d : Nat} (hd : d < n * 512) :
    Qcow.lookup s (sector * 512 + d) = Qcow.lookup s (sector * 512) := by
  have hc := Qcow.clusterSectors_pos s
  have hsame : ∀ {y}, Covers sector (n * 512) y → y / s.clusterSize = sector / s.clusterSectors := by
    intro y hy
    rw [Qcow.clusterSize_eq h]
    exact Qcow.covers_same hc hn hy
  refine Qcow.lookup_congr ((hsame ⟨Nat.le_add_right _ _, Nat.add_lt_add_left hd _⟩).trans
    (hsame ⟨le_refl _, ?_⟩).symm)
  exact Nat.lt_add_of_pos_right (lt_of_le_of_lt (Nat.zero_le _) hd)

theorem filled_of_backing (hold : old.length = n * 512) (hhd : 0 < s.backingHd)
    (hnone : ∀ d < n * 512, Qcow.lookup s (sector * 512 + d) = 0) :
    Filled z s sector old (s.backing.read (sector * 512) (n * 512) ++
      old.drop (s.backing.read (sector * 512) (n * 512)).length) := by
  have hgot : (s.backing.read (sector * 512) (n * 512)).length =
      min (n * 512) (s.backing.size - sector * 512) := by
    rw [File.read, length_map, length_range]
  refine ⟨?_, fun d hd => ⟨fun hav => ?_, fun hnot => ?_⟩⟩
  · rw [length_append, length_drop]
    omega
  · rw [hold] at hd
    have hlt := (hav.resolve_left (not_not_intro (hnone d hd))).2
    rw [getElem?_append_left (by omega), File.read, getElem?_map,
      getElem?_range (by omega), diskByte, if_pos (hnone d hd), Qcow.base, if_pos (by omega)]
    rfl
  · have hge : s.backing.size ≤ sector * 512 + d :=
      Nat.le_of_not_lt fun hlt => hnot (.inr ⟨hhd, hlt⟩)
    rw [getElem?_append_right (by omega), getElem?_drop]
    congr 1
    omega

theorem readChunk_filled (h : Inv True z s) (hhd : s.backingHd ≠ 0) (hold : old.length = n * 512)
    (hn : n ≤ s.clusterSectors - sector % s.clusterSectors) (hpos : 0 < n)
    (hdisk : s.l1Index (sector * 512) < s.l1Size)
    (hread : Qcow.readChunk z s sector n old = some (out, s')) :
    Filled z s sector old out ∧ Reads True z s s' := by
  have hlook := fun d => lookup_chunk h hn (d := d)
  by_cases h0 : Qcow.lookup s (sector * 512) = 0
  · obtain ⟨c, os, m, hget, hinv⟩ := Qcow.getClusterOffset_read h hdisk
    simp only [Qcow.readChunk, hget] at hread
    rw [if_pos h0, if_pos hhd] at hread
    split at hread
    · cases hread
    · obtain ⟨rfl, rfl⟩ := mk.inj (some.inj hread)
      refine ⟨filled_of_backing hold (by omega) fun d hd => (hlook d hd).trans h0, ?_⟩
      exact ⟨hinv, ⟨rfl, rfl, rfl, rfl, rfl, fun _ _ hne => hne⟩, fun _ => rfl, fun _ => rfl⟩
  · have hav : ∀ y, Covers sector (n * 512) y → Available s y := by
      rintro y ⟨hge, hlt⟩
      obtain ⟨d, rfl⟩ := Nat.exists_eq_add_of_le hge
      refine .inl ?_
      rw [hlook d (lt_of_add_lt_add_left hlt)]
      exact h0
    obtain ⟨s1, hread', hreads⟩ := Qcow.readChunk_spec h trivial hold hn hpos hdisk hav
    obtain ⟨rfl, rfl⟩ := mk.inj (some.inj (hread'.symm.trans hread))
    exact ⟨filled_of_available hold hav, hreads⟩

theorem Filled.append {k : Nat} {rest : List Byte} (hk : k * 512 ≤ buf.length)
    (h : Filled z s sector (buf.take (k * 512)) out)
    (h' : Filled z s (sector + k) (buf.drop (k * 512)) rest) :
    Filled z s sector buf (out ++ rest) := by
  obtain ⟨hlen, hbyte⟩ := h
  obtain ⟨hlen', hbyte'⟩ := h'
  rw [length_take, min_eq_left hk] at hlen hbyte
  rw [length_drop] at hlen' hbyte'
  refine ⟨by rw [length_append]; omega, fun d hd => ?_⟩
  by_cases hin : d < k * 512
  · rw [getElem?_append_left (by omega)]
    have hthis := hbyte d hin
    rw [getElem?_take_of_lt hin] at hthis
    exact hthis
  · have hthis := hbyte' (d - k * 512) (by omega)
    have hsum : (sector + k) * 512 + (d - k * 512) = sector * 512 + d := by omega
    rw [getElem?_drop, Nat.add_sub_cancel' (Nat.le_of_not_lt hin), hsum] at hthis
    rw [getElem?_append_right (by omega), hlen]
    exact hthis

theorem Filled.congr (h : Filled z s' sector buf out) (hreads : Reads True z s s') :
    Filled z s sector buf out := by
  refine ⟨h.1, fun d hd => ?_⟩
  have hthis := h.2 d hd
  rw [hreads.available, hreads.byte] at hthis
  exact hthis

theorem readLoop_filled (h : Inv True z s) (hhd : s.backingHd ≠ 0) (hlen : buf.length = nb * 512)
    (hdisk : ∀ y, Covers sector (nb * 512) y → s.l1Index y < s.l1Size) (hfuel : nb ≤ fuel)
    (hread : Qcow.readLoop z fuel s sector nb buf = some (out, s')) :
    Filled z s sector buf out ∧ Reads True z s s' ∧ s'.seekSector = sector + nb := by
  have hempty : ∀ (s : Qcow.State) (sector : Nat), Filled z s sector [] [] := fun s sector => ⟨rfl, nofun⟩
  induction fuel generalizing s sector nb buf out with
  | zero =>
    obtain rfl := le_zero.mp hfuel
    obtain rfl := length_eq_zero_iff.mp (hlen.trans (zero_mul _))
    cases hread
    exact ⟨hempty s sector, h.reads_seek sector, rfl⟩
  | succ fuel ih =>
    by_cases hnb : nb = 0
    · subst hnb
      obtain rfl := length_eq_zero_iff.mp (hlen.trans (zero_mul _))
      cases hread
      exact ⟨hempty s sector, h.reads_seek sector, rfl⟩
    obtain ⟨hfit, hle, hn⟩ := Qcow.chunk_bounds s sector (pos_of_ne_zero hnb)
    have hsplit (y : Nat) := Qcow.covers_split sector y (mul_le_mul_right 512 hle)
    simp only [Qcow.readLoop, if_neg hnb] at hread
    generalize Qcow.chunk s sector nb = k at *
    rw [← Nat.sub_mul] at hsplit
    have hk : k * 512 ≤ buf.length := by omega
    have htake : (buf.take (k * 512)).length = k * 512 := by
      rw [length_take]
      omega
    have hdrop : (buf.drop (k * 512)).length = (nb - k) * 512 := by
      rw [length_drop]
      omega
    split at hread
    · cases hread
    rename_i got s1 hchunk
    obtain ⟨hfilled, hreads⟩ := readChunk_filled h hhd htake hfit hn
      (hdisk _ ⟨le_refl _, by omega⟩) hchunk
    split at hread
    · cases hread
    rename_i rest s2 hloop
    obtain ⟨rfl, rfl⟩ := mk.inj (some.inj hread)
    obtain ⟨hfilled', hreads', hseek⟩ := ih hreads.inv (by rw [hreads.keeps.backingHd]; exact hhd) hdrop
      (fun y hy => by
        rw [hreads.keeps.l1Index, hreads.keeps.l1Size]
        exact hdisk y ((hsplit y).mpr (.inr hy)))
      (by omega) hloop
    exact ⟨hfilled.append hk (hfilled'.congr hreads), hreads.trans hreads', by omega⟩

def qcowRealRead (z : Zlib) (s : Qcow.State) (buf : List Byte) : Option (Nat × List Byte × Qcow.State) :=
  (Qcow.qcowRead z s buf).map fun (out, s) => (buf.length / 512 * 512, out, s)

structure QcowAt (z : Zlib) (size : Nat) (disk : Nat → Byte) (s : Qcow.State) (c : Nat) : Prop where
  inv : Inv True z s
  indexed : Indexed s size
  seek : s.seekSector = c
  byte : ∀ y, diskByte z s y = disk y

theorem QcowAt.next {c : Nat} (h : QcowAt z size disk s c) (hreads : Reads True z s s')
    (hseek : s'.seekSector = advance c vec) : QcowAt z size disk s' (advance c vec) :=
  ⟨hreads.inv, h.indexed.keeps hreads.keeps, hseek, fun y => (hreads.byte y).trans (h.byte y)⟩

theorem QcowAt.covers {c n : Nat} (h : QcowAt z size disk s c) (hwhole : n / 512 * 512 = n)
    (hin : c * 512 + n ≤ size) (y : Nat) (hy : Covers c (n / 512 * 512) y) : s.l1Index y < s.l1Size :=
  h.indexed y (lt_of_lt_of_le (hwhole ▸ hy.2) hin)

theorem QcowAt.read {c m : Nat} {heap : Nat → Byte} {outs : List (List Byte)}
    (h : QcowAt z size disk s c) (hhd : s.backingHd ≠ 0) (hfits : Fits vec) (hin : c * 512 + vec.sum ≤ size)
    (hread : wrapRead (qcowRealRead z) s heap vec = some (m, outs, s')) :
    QcowAt z size disk s' (advance c vec) ∧ Reads True z s s' ∧
      ∃ out, outs = scatter vec out ∧ Filled z s c ((range vec.sum).map heap) out := by
  obtain ⟨hlen, hwhole⟩ := hfits.lengths heap
  unfold wrapRead qcowRealRead Qcow.qcowRead at hread
  rw [hfits.totalBytes_eq] at hread
  dsimp only at hread
  split at hread
  · cases hread
  rename_i m' out s1 hcall
  obtain ⟨⟨out', s2⟩, hloop, he⟩ := map_eq_some_iff.mp hcall
  obtain ⟨-, rfl, rfl⟩ : _ ∧ _ ∧ _ := by
    simpa only [mk.injEq] using he
  rw [hlen, h.seek] at hloop
  obtain ⟨hfilled, hreads, hseek⟩ := readLoop_filled h.inv hhd (hlen.trans hwhole.symm) (h.covers hwhole hin)
    (le_refl _) hloop
  split at hread
  · cases hread
  · obtain ⟨-, rfl, rfl⟩ : _ ∧ _ ∧ _ := by
      simpa only [some.injEq, mk.injEq] using hread
    exact ⟨h.next hreads hseek, hreads, out', rfl, hfilled⟩

theorem QcowAt.read_available {c : Nat} (h : QcowAt z size disk s c) (hfits : Fits vec)
    (hin : c * 512 + vec.sum ≤ size)
    (hav : ∀ y, c * 512 ≤ y → y < c * 512 + vec.sum → Available s y) (heap : Nat → Byte) :
    ∃ s', wrapRead (qcowRealRead z) s heap vec =
        some (vec.sum, scatter vec (span disk (c * 512) vec.sum), s') ∧
      QcowAt z size disk s' (advance c vec) ∧ Reads True z s s' := by
  obtain ⟨hlen, hwhole⟩ := hfits.lengths heap
  obtain ⟨s', hloop, hreads, hseek⟩ := Qcow.readLoop_spec (vec.sum / 512) h.inv trivial (le_refl _)
    (hlen.trans hwhole.symm) (h.covers hwhole hin) (fun y hy => by
      rw [hwhole] at hy
      exact hav y hy.1 hy.2)
  refine ⟨s', ?_, h.next hreads hseek, hreads⟩
  have hbytes : diskBytes z s c (vec.sum / 512 * 512) = span disk (c * 512) vec.sum := by
    rw [hwhole]
    exact map_congr_left fun d _ => h.byte _
  unfold wrapRead qcowRealRead Qcow.qcowRead
  rw [hfits.totalBytes_eq]
  dsimp only
  rw [hlen, h.seek, hloop, hbytes, hwhole]
  dsimp only [map_some]
  rw [if_neg (not_not_intro rfl)]

theorem Filled.available {off : Nat} (h : Filled z s sector (replicate off 1) out) (hhd : s.backingHd ≠ 0)
    (heq : out = span (diskByte z s) (sector * 512) off) {d : Nat} (hd : d < off) :
    Available s (sector * 512 + d) := by
  by_contra hnot
  obtain ⟨-, hbyte⟩ := h
  have hone := (hbyte d (by rw [length_replicate]; exact hd)).2 hnot
  rw [heq, span_getElem? hd, getElem?_replicate_of_lt hd] at hone
  have hzero : diskByte z s (sector * 512 + d) = 0 := by
    unfold Available at hnot
    push Not at hnot
    rw [diskByte, if_pos hnot.1, Qcow.base]
    split_ifs with hle
    · exact s.backing.zero _ (hnot.2 (lt_of_le_of_ne hle (Ne.symm hhd)))
    · rfl
  rw [hzero] at hone
  exact absurd (some.inj hone) (by decide)

theorem qcow_available {c : Nat} {outs : List (Nat × List (List Byte))} (h : QcowAt z size disk s c)
    (hhd : s.backingHd ≠ 0) (hfits : ∀ vec ∈ calls, Fits vec) (hin : c * 512 + total calls ≤ size)
    (hcalls : readCalls (wrapRead (qcowRealRead z)) (fun _ _ => 1) s calls = some (outs, s'))
    (hdata : (outs.map snd).flatten.flatten = span disk (c * 512) (total calls)) :
    ∀ y, c * 512 ≤ y → y < c * 512 + total calls → Available s y := by
  induction calls generalizing s c outs with
  | nil =>
    intro y hge hlt
    rw [show total [] = 0 from rfl, add_zero] at hlt
    exact absurd hlt (not_lt.mpr hge)
  | cons vec calls ih =>
    rw [total_cons] at hin hdata ⊢
    have hvec := hfits vec mem_cons_self
    unfold readCalls at hcalls
    split at hcalls
    · cases hcalls
    rename_i m data s1 hread
    obtain ⟨⟨rest, s2⟩, hrest, he⟩ := map_eq_some_iff.mp hcalls
    obtain ⟨rfl, rfl⟩ := mk.inj he
    have hfit : c * 512 + vec.sum ≤ size := by
      omega
    obtain ⟨hat, hreads, out, rfl, hfilled⟩ := h.read hhd hvec hfit hread
    have hlen : out.length = vec.sum := by
      rw [hfilled.1, length_map, length_range]
    have hnext := (hvec.advance_mul c).symm
    rw [map_cons, flatten_cons, flatten_append, scatter_flatten hlen, ← span_append] at hdata
    obtain ⟨hout, hdata⟩ := append_inj hdata (by rw [hlen, span_length])
    have hones : (range vec.sum).map (fun _ => (1 : Byte)) = replicate vec.sum 1 := by
      rw [map_const', length_range]
    rw [hones] at hfilled
    rw [show disk = diskByte z s from (funext h.byte).symm] at hout
    rw [hnext] at hdata
    rw [← add_assoc, hnext] at hin ⊢
    have hav := ih hat (by rw [hreads.keeps.backingHd]; exact hhd)
      (forall_mem_cons.mp hfits).2 hin hrest hdata
    intro y hge hlt
    by_cases hy : y < advance c vec * 512
    · rw [← hnext] at hy
      obtain ⟨d, rfl⟩ := Nat.exists_eq_add_of_le hge
      exact hfilled.available hhd hout (lt_of_add_lt_add_left hy)
    · exact hreads.available.mp (hav y (Nat.le_of_not_lt hy) hlt)

theorem qcow_serves_iff (h : QcowAt z size disk s b) (hhd : s.backingHd ≠ 0)
    (hfits : ∀ vec ∈ calls, Fits vec) (hin : b * 512 + total calls ≤ size) :
    Serves (wrapRead (qcowRealRead z)) disk s b calls ↔
      ∀ y, b * 512 ≤ y → y < b * 512 + total calls → Available s y := by
  constructor
  · intro hserves
    obtain ⟨outs, s', hcalls, -, hdata⟩ := hserves fun _ _ => 1
    exact qcow_available h hhd hfits hin hcalls hdata
  intro hav
  refine serves_of_advance (fun s c calls => QcowAt z size disk s c ∧ (∀ vec ∈ calls, Fits vec) ∧
    c * 512 + total calls ≤ size ∧ ∀ y, c * 512 ≤ y → y < c * 512 + total calls → Available s y)
    ?_ ⟨h, hfits, hin, hav⟩ hfits
  rintro s c vec calls heap ⟨h, hfits, hin, hav⟩
  rw [total_cons, ← add_assoc] at hin hav
  have hvec := hfits vec mem_cons_self
  have hnext := hvec.advance_mul c
  obtain ⟨s', hread, hat, hreads⟩ := h.read_available hvec (le_trans (Nat.le_add_right _ _) hin)
    (fun y hge hlt => hav y hge (lt_of_lt_of_le hlt (Nat.le_add_right _ _))) heap
  rw [← hnext] at hin hav
  refine ⟨s', hread, hat, (forall_mem_cons.mp hfits).2, hin, fun y hge hlt => ?_⟩
  refine hreads.available.mpr (hav y (le_trans ?_ hge) hlt)
  rw [hnext]
  exact Nat.le_add_right _ _

end Qcow

/-! ## dmg -/

section Dmg

open Qcow (Zlib)
open Dmg (Opened Complete After Plain diskByte dmgRead dmgReadChunk dmgSeek readLoop sectorNum)

variable {z : Zlib} {s s0 s' : Dmg.State} {q sectors : Nat} {plain : Bool}

/-- `dmg_read` behind the wrapper. A call that does not come back gives nothing either. -/
def dmgRealRead (z : Zlib) (s : Dmg.State) (buf : List Byte) : Option (Nat × List Byte × Dmg.State) :=
  match dmgRead z Dmg.whole s buf.length with
  | .ok (some data, s) => some (buf.length, data ++ buf.drop data.length, s)
  | _ => none

theorem dmgReadChunk_seek {split : Nat → Option Nat} {sector : Nat} {r : Bool × Dmg.State}
    (h : dmgReadChunk z split s sector = .ok r) : r.2.seekSector = s.seekSector := by
  unfold dmgReadChunk at h
  split at h
  · cases h
    rfl
  split at h
  · cases h
  split at h
  · cases h
    rfl
  split at h
  · cases h
  all_goals cases h; rfl

theorem readLoop_seek {split : Nat → Nat → Option Nat} {n sector : Nat} {r : Option (List Byte) × Dmg.State}
    (h : readLoop z split n s sector = .ok r) : r.2.seekSector = s.seekSector := by
  induction n generalizing s sector r with
  | zero =>
    cases h
    rfl
  | succ n ih =>
    rw [readLoop] at h
    split at h
    · cases h
    · rename_i hc
      cases h
      exact dmgReadChunk_seek hc
    · rename_i hc
      split at h
      · cases h
      · obtain ⟨r', hr, rfl⟩ := Result.map_eq_ok.mp h
        exact (ih hr).trans (dmgReadChunk_seek hc)

theorem dmg_read (h0 : Opened s0) (h : After z s0 s) (hfits : Fits vec)
    (hsound : Complete z s0 s.seekSector (vec.sum / 512)) (hend : s.seekSector + vec.sum / 512 ≤ 2 ^ 31)
    (hplain : Plain s0 s.seekSector (vec.sum / 512)) (heap : Nat → Byte) :
    ∃ s', wrapRead (dmgRealRead z) s heap vec =
        some (vec.sum, scatter vec (span (diskByte z s0) (s.seekSector * 512) vec.sum), s') ∧
      After z s0 s' ∧ s'.seekSector = s.seekSector := by
  obtain ⟨hlen, hwhole⟩ := hfits.lengths heap
  obtain ⟨hanswer, hafter⟩ := Dmg.readLoop_answer h0 hplain h
  rw [Dmg.answer_sound h0 hplain hend hsound, hwhole] at hanswer
  obtain ⟨⟨data, s'⟩, hloop, rfl⟩ := Result.map_eq_ok.mp hanswer
  refine ⟨s', ?_, hafter _ hloop, readLoop_seek hloop⟩
  unfold wrapRead dmgRealRead dmgRead
  rw [hfits.totalBytes_eq]
  dsimp only
  rw [hlen, hloop]
  dsimp only
  rw [if_neg (not_not_intro rfl), drop_of_length_le (by rw [span_length, hlen]), append_nil]

def stay (c : Nat) (_vec : List Nat) : Nat := c

theorem dmg_readCalls (h0 : Opened s0) (h : After z s0 s) (hfits : ∀ vec ∈ calls, Fits vec)
    (hsound : Complete z s0 s.seekSector (total calls / 512)) (hend : s.seekSector + total calls / 512 ≤ 2 ^ 31)
    (hplain : Plain s0 s.seekSector (total calls / 512)) (heap : Nat → Nat → Byte) :
    ∃ s', readCalls (wrapRead (dmgRealRead z)) heap s calls =
      some (expected stay (diskByte z s0) s.seekSector calls, s') := by
  refine readCalls_eq (fun s' c calls' => After z s0 s' ∧ s'.seekSector = s.seekSector ∧ c = s.seekSector ∧
    (∀ vec ∈ calls', Fits vec) ∧ total calls' ≤ total calls) ?_ ⟨h, rfl, rfl, hfits, le_refl _⟩ heap
  rintro s' c vec calls' heap ⟨h', hseek, rfl, hfits, hle⟩
  rw [total_cons] at hle
  have hdiv : vec.sum / 512 ≤ total calls / 512 := Nat.div_le_div_right (by omega)
  obtain ⟨s1, hread, h1, hseek1⟩ := dmg_read h0 h' (hfits vec mem_cons_self)
    (by rw [hseek]; exact fun k hk => hsound k (lt_of_lt_of_le hk hdiv)) (by omega)
    (by rw [hseek]; exact fun c hc hcopy k hk => hplain c hc hcopy k (lt_of_lt_of_le hk hdiv)) heap
  rw [hseek] at hread
  exact ⟨s1, hread, h1, hseek1.trans hseek, rfl, (forall_mem_cons.mp hfits).2, by omega⟩

theorem expected_stay (disk : Nat → Byte) (q : Nat) (calls : List (List Nat)) :
    ((expected stay disk q calls).map snd).flatten.flatten =
      calls.flatMap fun vec => span disk (q * 512) vec.sum := by
  induction calls with
  | nil => rfl
  | cons vec calls ih =>
    rw [expected, map_cons, flatten_cons, flatten_append, scatter_flatten (span_length ..),
      flatMap_cons, stay, ih]

/-- Nothing is read, or only the first sectors and by one call. -/
def Once (b : Nat) (calls : List (List Nat)) : Prop :=
  total calls = 0 ∨ b = 0 ∧ (calls.filter fun vec => vec.sum ≠ 0).length ≤ 1

instance : Decidable (Once b calls) := inferInstanceAs (Decidable (_ ∨ _))

theorem length_flatMap_span (disk : Nat → Byte) (off : Nat) (calls : List (List Nat)) :
    (calls.flatMap fun vec => span disk off vec.sum).length = total calls := by
  induction calls with
  | nil => rfl
  | cons vec calls ih => rw [flatMap_cons, length_append, span_length, ih, total_cons]

theorem flatMap_empty (h : total calls = 0) (off : Nat) :
    (calls.flatMap fun vec => span disk off vec.sum) = [] :=
  eq_nil_of_length_eq_zero ((length_flatMap_span disk off calls).trans h)

theorem total_eq_zero_iff : total calls = 0 ↔ ∀ vec ∈ calls, vec.sum = 0 := by
  induction calls with
  | nil => exact ⟨fun _ => nofun, fun _ => rfl⟩
  | cons vec calls ih =>
    rw [total_cons, Nat.add_eq_zero_iff, ih, forall_mem_cons]

theorem flatMap_once (h : (calls.filter fun vec => vec.sum ≠ 0).length ≤ 1) :
    (calls.flatMap fun vec => span disk 0 vec.sum) = span disk 0 (total calls) := by
  induction calls with
  | nil => rfl
  | cons vec calls ih =>
    rw [flatMap_cons, total_cons]
    by_cases hvec : vec.sum = 0
    · rw [filter_cons_of_neg (by simpa using hvec)] at h
      rw [ih h, hvec, zero_add]
      rfl
    rw [filter_cons_of_pos (by simpa using hvec)] at h
    have hrest : total calls = 0 := by
      rw [total_eq_zero_iff]
      have hnil := eq_nil_of_length_eq_zero (le_zero.mp (le_of_succ_le_succ h))
      intro v hv
      simpa using filter_eq_nil_iff.mp hnil v hv
    rw [flatMap_empty hrest, hrest, append_nil, add_zero]

theorem exists_missed (hfits : ∀ vec ∈ calls, Fits vec) (h : ¬Once b calls) :
    ∃ front vec rest, calls = front ++ vec :: rest ∧ vec.sum ≠ 0 ∧ b + total front / 512 ≠ b / 512 := by
  unfold Once at h
  push Not at h
  obtain ⟨htotal, hone⟩ := h
  by_cases hb : b = 0
  · obtain ⟨v1, v2, vs, hfilter⟩ : ∃ v1 v2 vs, (calls.filter fun vec => vec.sum ≠ 0) = v1 :: v2 :: vs := by
      have hlen := hone hb
      match hf : calls.filter fun vec => vec.sum ≠ 0 with
      | [] => rw [hf] at hlen; exact absurd hlen (not_lt_zero _)
      | [_] => rw [hf] at hlen; exact absurd hlen (lt_irrefl 1)
      | v1 :: v2 :: vs => exact ⟨v1, v2, vs, hf⟩
    obtain ⟨l1, l2, rfl, -, hv1, hfilter⟩ := filter_eq_cons_iff.mp hfilter
    obtain ⟨l3, l4, rfl, -, hv2, -⟩ := filter_eq_cons_iff.mp hfilter
    refine ⟨l1 ++ v1 :: l3, v2, l4, by rw [append_assoc]; rfl, by simpa using hv2, ?_⟩
    have hsum : v1.sum ≠ 0 := by simpa using hv1
    have hwhole := (hfits v1 (mem_append_right _ mem_cons_self)).1
    rw [total_append, total_cons]
    omega
  · obtain ⟨vec, hvec, hsum⟩ : ∃ vec ∈ calls, vec.sum ≠ 0 := by
      rw [Ne, total_eq_zero_iff] at htotal
      push Not at htotal
      exact htotal
    obtain ⟨front, rest, rfl⟩ := append_of_mem hvec
    exact ⟨front, vec, rest, rfl, hsum, by omega⟩

/-! ### Images that tell the sectors apart

The chunks have `2 ^ 20` sectors each. Of compressed chunks only the sector `p` is not clear. -/

def tile (kind : Dmg.Kind) (p j : Nat) : Dmg.Chunk :=
  ⟨kind, j * 2 ^ 20 % 2 ^ 64, 2 ^ 20, if j = p / 2 ^ 20 then 1 else 0, if kind = .copy then 2 ^ 29 else 1, by
    split <;> split <;> omega⟩

def tiled (kind : Dmg.Kind) (p sectors : Nat) : Dmg.State where
  fd := ⟨2 ^ 29 + 1, fun i => if i = 1 then 1 else 0, fun i hi => if_neg (by omega)⟩
  pos := 2 ^ 29 + 1
  chunks := (range (sectors / 2 ^ 20 + 1)).map (tile kind p)
  currentChunk := sectors / 2 ^ 20 + 1
  uncompressedChunk := replicate (Dmg.uncompressedSize ((range (sectors / 2 ^ 20 + 1)).map (tile kind p))) 0
  seekSector := 0

def markedZlib (p : Nat) : Zlib :=
  ⟨fun n bs => some ((range n).map fun i => if bs = [1] ∧ i / 512 = p % 2 ^ 20 then 1 else 0), by
    rintro n bs out ⟨⟩
    rw [length_map, length_range]⟩

theorem markedZlib_inflate (p n : Nat) (bs : List Byte) : (markedZlib p).inflate n bs =
    some ((range n).map fun i => if bs = [1] ∧ i / 512 = p % 2 ^ 20 then 1 else 0) := rfl

theorem tile_bytes {p j : Nat} : (tile .zlib p j).bytes (markedZlib p) (tiled .zlib p sectors).fd =
    (range (512 * 2 ^ 20)).map fun i => if j = p / 2 ^ 20 ∧ i / 512 = p % 2 ^ 20 then 1 else 0 := by
  have hread (off : Nat) (hoff : off ≤ 1) : (tiled .zlib p sectors).fd.read off 1 = [if off = 1 then 1 else 0] := by
    rw [File.read_eq_map (show off + 1 ≤ 2 ^ 29 + 1 by omega)]
    rfl
  unfold Dmg.Chunk.bytes
  dsimp only [tile]
  rw [if_neg (show ¬ Dmg.Kind.zlib = .copy by decide), hread _ (by split <;> omega), markedZlib_inflate, getD_some]
  refine map_congr_left fun i _ => if_congr (and_congr_left fun _ => ?_) rfl rfl
  by_cases hj : j = p / 2 ^ 20 <;> simp [hj]

section Tiled

variable {kind : Dmg.Kind} {p k : Nat} (hend : sectors ≤ 2 ^ 31)

include hend

theorem tiled_opened : Opened (tiled kind p sectors) := by
  refine ⟨pairwise_iff_getElem.mpr fun i j hi hj hij => ?_, fun c hc => ?_, ?_, length_replicate⟩
  · simp only [tiled, length_map, length_range] at hi hj
    simp only [tiled, getElem_map, getElem_range, tile]
    omega
  · obtain ⟨j, -, rfl⟩ := mem_map.mp hc
    simp only [tile]
    split <;> decide
  · simp [tiled]

theorem tiled_chunk (kind : Dmg.Kind) (p : Nat) (hk : k < sectors) : k / 2 ^ 20 < (tiled kind p sectors).chunks.length ∧
    (tiled kind p sectors).chunk (k / 2 ^ 20) = tile kind p (k / 2 ^ 20) ∧
    (tile kind p (k / 2 ^ 20)).holds k = true := by
  have hlt : k / 2 ^ 20 < (tiled kind p sectors).chunks.length := by
    simp only [tiled, length_map, length_range]
    omega
  refine ⟨hlt, ?_, ?_⟩
  · rw [Dmg.chunk_eq hlt]
    simp [tiled]
  · rw [Dmg.holds_iff, Dmg.Chunk.Contains]
    simp only [tile]
    omega

theorem tiled_complete (hin : b + q ≤ sectors) : Complete (markedZlib p) (tiled kind p sectors) b q := by
  intro k hk
  obtain ⟨hlt, hchunk, hholds⟩ := tiled_chunk hend kind p (show b + k < sectors by omega)
  refine ⟨_, Dmg.chunk_mem hlt, hchunk ▸ hholds, ?_⟩
  rw [hchunk, Dmg.Chunk.Sound]
  cases kind with
  | zlib =>
    simp only [tile, tiled]
    refine ⟨?_, rfl⟩
    split <;> decide
  | copy =>
    simp only [tile, tiled]
    refine ⟨rfl, ?_⟩
    split <;> decide
  | zero => exact trivial

theorem marked_byte {y : Nat} (hy : y / 512 < sectors) :
    diskByte (markedZlib p) (tiled .zlib p sectors) y = if y / 512 = p then 1 else 0 := by
  obtain ⟨hlt, hchunk, hholds⟩ := tiled_chunk hend .zlib p hy
  obtain ⟨⟨hlow, hhigh⟩, -⟩ := Dmg.holds_iff.mp hholds
  simp only [tile] at hlow hhigh
  rw [diskByte, Dmg.find_chunk (tiled_opened hend).ordered hlt (hchunk ▸ hholds), hchunk]
  dsimp only
  rw [tile_bytes, getD_eq_getElem?_getD, getElem?_map, getElem?_range (by simp only [tile]; omega), map_some,
    getD_some]
  refine if_congr ?_ rfl rfl
  simp only [tile]
  omega

/-- A chunk that is to be copied is not read where the file ends. -/
theorem copied_fails (hs : s = { tiled .copy p sectors with seekSector := q }) (hk : k < sectors) {n : Nat} :
    ∃ t, readLoop z Dmg.whole (n + 1) s k = .ok (none, t) := by
  obtain ⟨hlt, hchunk, hholds⟩ := tiled_chunk hend .copy p hk
  have hnum : sectorNum k = k := by
    unfold sectorNum
    rw [if_pos (by omega), mod_eq_of_lt (by omega)]
  have hchunks : s.chunks = (tiled .copy p sectors).chunks := by rw [hs]
  have hsame (i : Nat) : s.chunk i = (tiled .copy p sectors).chunk i := by rw [hs]; rfl
  have hout : ¬ Dmg.isSectorInChunk s s.currentChunk k = true := by
    unfold Dmg.isSectorInChunk
    rw [Bool.and_eq_true, decide_eq_true_eq, hchunks, hs]
    exact fun hin => absurd hin.1 (by simp [tiled])
  have hsearch : Dmg.searchChunk s k = some (k / 2 ^ 20) := by
    refine Dmg.searchChunk_spec ?_ (hchunks ▸ hlt) (by rw [hsame, hchunk]; exact hholds)
    rw [hchunks]
    exact (tiled_opened hend).ordered
  have hempty (len : Nat) : s.fd.read s.pos len = [] := by
    rw [hs]
    simp [File.read, tiled]
  have hfetch : Dmg.fetchChunk z (Dmg.whole k) s (k / 2 ^ 20) = .ok (none, s.pos) := by
    unfold Dmg.fetchChunk
    rw [hsame, hchunk]
    simp only [tile, if_true, Dmg.whole, hempty, length_nil, not_lt_zero, if_false, add_zero]
    rfl
  have hread : dmgReadChunk z (Dmg.whole k) s k =
      .ok (false, { s with currentChunk := s.chunks.length, pos := s.pos }) := by
    rw [dmgReadChunk, if_neg hout, hsearch]
    dsimp only
    rw [if_neg (not_le.mpr (hchunks ▸ hlt)), hfetch]
  exact ⟨_, by rw [readLoop, hnum, hread]⟩

theorem copied_calls (hs : s = { tiled .copy p sectors with seekSector := q }) (hq : q < sectors)
    (hfits : ∀ vec ∈ calls, Fits vec) (htotal : total calls ≠ 0) (heap : Nat → Nat → Byte) :
    readCalls (wrapRead (dmgRealRead z)) heap s calls = none := by
  induction calls generalizing heap with
  | nil => exact absurd rfl htotal
  | cons vec calls ih =>
    obtain ⟨hfit, hfits⟩ := forall_mem_cons.mp hfits
    obtain ⟨hlen, hwhole⟩ := hfit.lengths (heap 0)
    have hseek : s.seekSector = q := by rw [hs]
    rw [readCalls, wrapRead, hfit.totalBytes_eq]
    dsimp only
    rw [dmgRealRead, dmgRead, hlen, hseek]
    cases hn : vec.sum / 512 with
    | zero =>
      have hzero : vec.sum = 0 := by omega
      rw [total_cons, hzero, zero_add] at htotal
      rw [readLoop]
      dsimp only
      rw [if_neg (not_not_intro rfl)]
      dsimp only
      rw [ih hfits htotal]
      rfl
    | succ n =>
      obtain ⟨t, ht⟩ := copied_fails (z := z) (n := n) hend hs hq
      rw [ht]

end Tiled

theorem dmgSeek_seek (hb : b < 2 ^ 31) (s : Dmg.State) : (dmgSeek s b 0).seekSector = b / 512 := by
  show ((b + 0 : Int) % 2 ^ 64).toNat / 512 % 2 ^ 32 = b / 512
  omega

theorem dmg_expected (hb : b < 2 ^ 31) (h : Opened s) (hfits : ∀ vec ∈ calls, Fits vec)
    (hsound : Complete z s (b / 512) (total calls / 512)) (hend : b + total calls / 512 ≤ 2 ^ 31)
    (hplain : Plain s (b / 512) (total calls / 512)) (heap : Nat → Nat → Byte) :
    ∃ s', readCalls (wrapRead (dmgRealRead z)) heap (dmgSeek s b 0) calls =
      some (expected stay (diskByte z s) (b / 512) calls, s') := by
  have hseek := dmgSeek_seek hb s
  have hend' : b / 512 + total calls / 512 ≤ 2 ^ 31 := by omega
  rw [← hseek] at hsound hplain hend' ⊢
  exact dmg_readCalls h (h.after.seek _) hfits hsound hend' hplain heap

/-- If a call has to begin with another sector, an image shows that it does not. -/
theorem dmg_misses (hb : b < 2 ^ 31) (hfits : ∀ vec ∈ calls, Fits vec) (hin : b + total calls / 512 ≤ sectors)
    (hend : sectors ≤ 2 ^ 31) (hnot : ¬ Once b calls) :
    ∃ z s, Opened s ∧ Complete z s 0 sectors ∧ (∀ q n, Plain s q n) ∧
      ¬ Serves (wrapRead (dmgRealRead z)) (diskByte z s) (dmgSeek s b 0) b calls := by
  obtain ⟨front, vec, rest, rfl, hsum, hmissed⟩ := exists_missed hfits hnot
  have hfront := total_whole fun v hv => hfits v (mem_append_left _ hv)
  have hwhole := (hfits vec (mem_append_right _ mem_cons_self)).1
  have htotal : total (front ++ vec :: rest) = total front + (vec.sum + total rest) := by
    rw [total_append, total_cons]
  have hp : b + total front / 512 < sectors := by omega
  -- the sector that this call has to begin with is the only one that is not clear
  generalize hpe : b + total front / 512 = p at *
  have hplain (q n : Nat) : Plain (tiled .zlib p sectors) q n := by
    intro c hc hcopy
    obtain ⟨j, -, rfl⟩ := mem_map.mp hc
    cases hcopy
  refine ⟨markedZlib p, tiled .zlib p sectors, tiled_opened hend, tiled_complete hend (by omega), hplain, ?_⟩
  intro hserves
  obtain ⟨outs, s', hcalls, -, hdata⟩ := hserves fun _ _ => 0
  obtain ⟨s'', hcalls'⟩ := dmg_expected hb (tiled_opened hend) hfits (tiled_complete hend (by omega))
    (by omega) (hplain _ _) fun _ _ => 0
  obtain ⟨rfl, -⟩ := mk.inj (some.inj (hcalls'.symm.trans hcalls))
  rw [expected_stay, flatMap_append, flatMap_cons] at hdata
  have hlen := length_flatMap_span (diskByte (markedZlib p) (tiled .zlib p sectors)) (b / 512 * 512) front
  have hget := congrArg (fun bs : List Byte => bs[total front]?) hdata
  rw [getElem?_append_right (Nat.le_of_eq hlen), hlen, Nat.sub_self,
    getElem?_append_left (by rw [span_length]; omega), span_getElem? (by omega),
    span_getElem? (by omega)] at hget
  have hone : (b * 512 + total front) / 512 = p := by
    rw [mul_comm, mul_add_div (by decide), hpe]
  have hzero : (b / 512 * 512 + 0) / 512 = b / 512 := by
    rw [add_zero, Nat.mul_div_cancel _ (by decide)]
  rw [marked_byte hend (by omega), marked_byte hend (by omega), hone, hzero, if_pos rfl,
    if_neg (fun he => hmissed he.symm)] at hget
  exact absurd (some.inj hget) (by decide)

/-- For the images in which no sector is to be copied, and for those in which one is. -/
theorem dmg_serves_iff (hb : b < 2 ^ 31) (hfits : ∀ vec ∈ calls, Fits vec) (hin : b + total calls / 512 ≤ sectors)
    (hend : sectors ≤ 2 ^ 31) :
    (∀ z s, Opened s → Complete z s 0 sectors → (Plain s b (total calls / 512) ↔ plain = true) →
      Serves (wrapRead (dmgRealRead z)) (diskByte z s) (dmgSeek s b 0) b calls) ↔
      total calls = 0 ∨ plain = true ∧ Once b calls := by
  constructor
  · intro hserves
    by_contra hnot
    push Not at hnot
    obtain ⟨htotal, hnot⟩ := hnot
    cases plain with
    | true =>
      obtain ⟨z, s, hopened, hcomplete, hplain, hmisses⟩ := dmg_misses hb hfits hin hend (hnot rfl)
      exact hmisses (hserves z s hopened hcomplete ⟨fun _ => rfl, fun _ => hplain _ _⟩)
    | false =>
      -- every sector is to be copied, and the file is at its end
      have hwhole := total_whole hfits
      have hfirst : b < sectors := by omega
      have hseek := dmgSeek_seek hb (tiled .copy 0 sectors)
      have hcopied : ¬ Plain (tiled .copy 0 sectors) b (total calls / 512) := by
        intro hplain
        obtain ⟨hlt, hchunk, hholds⟩ := tiled_chunk hend .copy 0 hfirst
        have hnum : sectorNum (b + 0) = b := by
          unfold sectorNum
          rw [if_pos (by omega), mod_eq_of_lt (by omega), add_zero]
        have hnone := hplain _ (Dmg.chunk_mem hlt) (by rw [hchunk]; rfl) 0 (by omega)
        rw [hchunk, hnum] at hnone
        exact Bool.noConfusion (hnone.symm.trans hholds)
      obtain ⟨outs, s', hcalls, -⟩ := hserves (markedZlib 0) (tiled .copy 0 sectors) (tiled_opened hend)
        (tiled_complete hend (by omega)) ⟨fun h => absurd h hcopied, nofun⟩ fun _ _ => 0
      rw [copied_calls (q := b / 512) hend (by rw [← hseek]; rfl) (by omega) hfits htotal] at hcalls
      cases hcalls
  · intro honce z s hopened hcomplete hplain
    by_cases htotal : total calls = 0
    · have hz : total calls / 512 = 0 := by omega
      intro heap
      obtain ⟨s', hcalls⟩ := dmg_expected (z := z) hb hopened hfits (by rw [hz]; exact nofun) (by omega)
        (by rw [hz]; exact fun _ _ _ _ => nofun) heap
      refine ⟨_, s', hcalls, expected_fst .., ?_⟩
      rw [expected_stay, flatMap_empty htotal, htotal]
      rfl
    obtain ⟨hcopies, hfirst⟩ := honce.resolve_left htotal
    obtain ⟨rfl, hlen⟩ := hfirst.resolve_left htotal
    intro heap
    obtain ⟨s', hcalls⟩ := dmg_expected (z := z) hb hopened hfits (fun k hk => hcomplete k (by omega)) (by omega)
      (hplain.mpr hcopies) heap
    refine ⟨_, s', hcalls, expected_fst .., ?_⟩
    rw [expected_stay]
    exact flatMap_once hlen

end Dmg

/-! ## All back ends -/

end MacOnLinux.Backend
