import MacOnLinux.Qcow.Layout

/-! # The tables of an image and their caches -/

namespace MacOnLinux.Qcow

open Function State Option List File Prod

variable {full : Prop} {z : Zlib} {s s' : State} {i j k a e m o x y : Nat} {f : File}

variable {t n : Nat → Nat} {c : Nat → Nat → Nat} {nStart nEnd : Nat}

/-! ## The cache of L2 tables -/

structure Coherent (s : State) : Prop where
  table : ∀ j, j < l2CacheSize → s.l2CacheOffsets j ≠ 0 → ∃ i, s.HasL2 i ∧ s.l1Table i = s.l2CacheOffsets j ∧
    ∀ k, k < s.l2Size → s.l2Cache j k = s.entry i k
  distinct : ∀ j j', j < l2CacheSize → j' < l2CacheSize → s.l2CacheOffsets j ≠ 0 →
    s.l2CacheOffsets j = s.l2CacheOffsets j' → j = j'

theorem Coherent.entry (h : Coherent s) (hj : j < l2CacheSize) (hl2 : s.HasL2 i)
    (hoff : s.l2CacheOffsets j = s.l1Table i)
    (hk : k < s.l2Size) : s.l2Cache j k = s.entry i k := by
  obtain ⟨i', -, hi', hcopy⟩ := h.table j hj (by rw [hoff]; exact hl2.2)
  rw [hcopy k hk, State.entry, State.entry, hi', hoff]

theorem cached_some (h : cached s o = some j) : j < l2CacheSize ∧ s.l2CacheOffsets j = o := by
  refine ⟨mem_range.mp (mem_of_find?_eq_some h), ?_⟩
  simpa using find?_some h

theorem cached_none (h : cached s o = none) (hj : j < l2CacheSize) : s.l2CacheOffsets j ≠ o := by
  simpa using find?_eq_none.mp h j (mem_range.mpr hj)

theorem leastUsed_lt (s : State) : (leastUsed s).1 < l2CacheSize := by
  suffices hall : ∀ l : List Nat, (∀ i ∈ l, i < l2CacheSize) → ∀ m : Nat × Nat, m.1 < l2CacheSize →
      (l.foldl (fun m i => if s.l2CacheCounts i < m.2 then (i, s.l2CacheCounts i) else m) m).1 < l2CacheSize from
    hall _ (fun i hi => mem_range.mp hi) _ (by decide)
  intro l
  induction l with
  | nil => exact fun _ m hm => hm
  | cons i l ih =>
    intro hl m hm
    refine ih (forall_mem_cons.mp hl).2 _ ?_
    dsimp only
    split
    · exact hl i mem_cons_self
    · exact hm

theorem Coherent.fill (h : Coherent s) (hm : m < l2CacheSize) (hl2 : s.HasL2 i)
    (ho : s.l1Table i = o) (hnew : ∀ j, j < l2CacheSize → s.l2CacheOffsets j ≠ o)
    (ht : ∀ k, k < s.l2Size → t k = s.entry i k) :
    Coherent { s with
      l2Cache := update s.l2Cache m t
      l2CacheOffsets := update s.l2CacheOffsets m o
      l2CacheCounts := n } := by
  subst ho
  constructor
  · intro j hj hne
    by_cases hjm : j = m
    · subst hjm
      refine ⟨i, hl2, ?_, ?_⟩
      · exact (update_self (β := fun _ => Nat) _ _ _).symm
      · intro k hk
        show update s.l2Cache j t j k = _
        rw [update_self]
        exact ht k hk
    · change update s.l2CacheOffsets m (s.l1Table i) j ≠ 0 at hne
      rw [update_of_ne hjm] at hne
      obtain ⟨i', hi', hoff, hcopy⟩ := h.table j hj hne
      refine ⟨i', hi', ?_, ?_⟩
      · show _ = update s.l2CacheOffsets m (s.l1Table i) j
        rw [update_of_ne hjm]
        exact hoff
      · intro k hk
        show update s.l2Cache m t j k = _
        rw [update_of_ne hjm]
        exact hcopy k hk
  · intro j j' hj hj' hne heq
    change update s.l2CacheOffsets m (s.l1Table i) j ≠ 0 at hne
    change update s.l2CacheOffsets m (s.l1Table i) j = update s.l2CacheOffsets m (s.l1Table i) j' at heq
    rw [update_apply, update_apply] at heq
    rw [update_apply] at hne
    split at heq
    · split at heq
      · simp_all
      · exact absurd heq.symm (hnew j' hj')
    · rename_i hjm
      rw [if_neg hjm] at hne
      split at heq
      · exact absurd heq (hnew j hj)
      · exact h.distinct j j' hj hj' hne heq

theorem Coherent.congr (h : Coherent s) (ht : ∀ i, s.HasL2 i → t i = s.l1Table i)
    (hentry : ∀ i k, s.HasL2 i → k < s.l2Size → State.entry { s with fd := f, l1Table := t } i k = s.entry i k) :
    Coherent { s with fd := f, l1Table := t } := by
  refine ⟨?_, h.distinct⟩
  intro j hj hne
  obtain ⟨i, hi, hoff, hcopy⟩ := h.table j hj hne
  refine ⟨i, ⟨hi.1, ?_⟩, (ht i hi).trans hoff, ?_⟩
  · show t i ≠ 0
    rw [ht i hi]
    exact hi.2
  · intro k hk
    rw [hentry i k hi hk]
    exact hcopy k hk

theorem Coherent.link (h : Coherent s) (hlaid : s.Laid) (hj : j < l2CacheSize) (hl2 : s.HasL2 i)
    (hoff : s.l2CacheOffsets j = s.l1Table i) (hk : k < s.l2Size) (hf : Extends s f o) :
    Coherent { s with
      fd := linked s f i k o
      l2Cache := update s.l2Cache j (update (s.l2Cache j) k o) } := by
  refine ⟨?_, h.distinct⟩
  intro j' hj' hne
  by_cases hjj : j' = j
  · subst hjj
    refine ⟨i, hl2, hoff.symm, ?_⟩
    intro k' hk'
    show update s.l2Cache j' (update (s.l2Cache j') k o) j' k' = State.entry { s with fd := linked s f i k o } i k'
    rw [update_self]
    by_cases hkk : k' = k
    · subst hkk
      rw [update_self, hf.entry_new]
    · rw [update_of_ne hkk, hf.entry_old hlaid hl2 hk hl2 hk' (fun heq => hkk heq.2)]
      exact h.entry hj hl2 hoff hk'
  · obtain ⟨i', hi', hoff', hcopy⟩ := h.table j' hj' hne
    -- two slots do not have one table
    have hii : i' ≠ i := by
      rintro rfl
      exact hjj (h.distinct j' j hj' hj hne (hoff'.symm.trans hoff.symm))
    refine ⟨i', hi', hoff', ?_⟩
    intro k' hk'
    show update s.l2Cache j (update (s.l2Cache j) k o) j' k' = State.entry { s with fd := linked s f i k o } i' k'
    rw [update_of_ne hjj, hf.entry_old hlaid hl2 hk hi' hk' (fun heq => hii heq.1)]
    exact hcopy k' hk'

/-! ## The invariant -/

def unpack (z : Zlib) (s : State) (e : Nat) : Option (List Byte) :=
  if s.clusterData then z.inflate s.clusterSize (s.fd.read (s.coffset e) (s.csize e)) else none

theorem unpack_eq_some {out : List Byte} (h : unpack z s e = some out) :
    s.clusterData = true ∧ z.inflate s.clusterSize (s.fd.read (s.coffset e) (s.csize e)) = some out := by
  unfold unpack at h
  split at h
  · exact ⟨‹_›, h⟩
  · cases h

/-- What holds between calls; `full` if all compressed clusters can be decompressed. -/
structure Inv (full : Prop) (z : Zlib) (s : State) : Prop where
  bits : 9 ≤ s.clusterBits
  laid : s.Laid
  l1 : ∀ i, i < s.l1Size → s.l1Table i = s.fd.word (s.l1TableOffset + i * 8)
  coherent : Coherent s
  cache : s.clusterCache.length = s.clusterSize
  packed : full → ∀ i k, s.HasCluster i k → isCompressed (s.entry i k) = true →
    0 < s.csize (s.entry i k) ∧ (unpack z s (s.entry i k)).isSome
  unpacked : full → ∀ i k, s.HasCluster i k → isCompressed (s.entry i k) = true →
    s.clusterCacheOffset = s.coffset (s.entry i k) → unpack z s (s.entry i k) = some s.clusterCache

theorem Inv.recache {os : Nat → Nat} (h : Inv full z s)
    (hcoh : Coherent { s with l2Cache := c, l2CacheOffsets := os, l2CacheCounts := n }) :
    Inv full z { s with l2Cache := c, l2CacheOffsets := os, l2CacheCounts := n } where
  bits := h.bits
  laid := ⟨h.laid.disjoint, h.laid.below⟩
  l1 := h.l1
  coherent := hcoh
  cache := h.cache
  packed := h.packed
  unpacked := h.unpacked

theorem Inv.change (h : Inv full z s) (hsize : s.fd.size ≤ f.size)
    (hlaid : State.Laid { s with fd := f, l1Table := t })
    (hl1 : ∀ i, i < s.l1Size → t i = f.word (s.l1TableOffset + i * 8))
    (hpacked : ∀ i k, State.HasCluster { s with fd := f, l1Table := t } i k →
      isCompressed (State.entry { s with fd := f, l1Table := t } i k) = true →
      s.HasCluster i k ∧ State.entry { s with fd := f, l1Table := t } i k = s.entry i k ∧
        ∀ a, s.Owns (.cluster i k) a → f.data a = s.fd.data a)
    (hcoh : Coherent { s with fd := f, l1Table := t, l2Cache := c }) :
    Inv full z { s with fd := f, l1Table := t, l2Cache := c } := by
  have hunpack (i k : Nat) (hc : State.HasCluster { s with fd := f, l1Table := t } i k)
      (he : isCompressed (State.entry { s with fd := f, l1Table := t } i k) = true) :
      s.HasCluster i k ∧ isCompressed (s.entry i k) = true ∧
      State.entry { s with fd := f, l1Table := t } i k = s.entry i k ∧
        unpack z { s with fd := f, l1Table := t } (s.entry i k) = unpack z s (s.entry i k) := by
    obtain ⟨hold, hentry, hdata⟩ := hpacked i k hc he
    rw [hentry] at he
    refine ⟨hold, he, hentry, ?_⟩
    have hread := read_compressed he (cluster_below h.laid hold) hsize (fun a ha ha' => hdata a ⟨hold, ha, ha'⟩)
    show (if s.clusterData then z.inflate s.clusterSize (f.read (s.coffset (s.entry i k)) (s.csize (s.entry i k)))
      else none) = _
    rw [hread, unpack]
  refine ⟨h.bits, ⟨hlaid.disjoint, hlaid.below⟩, hl1, hcoh, h.cache, ?_, ?_⟩
  · intro hfull i k hc he
    obtain ⟨hold, hcomp, hentry, hu⟩ := hunpack i k hc he
    show 0 < s.csize (State.entry { s with fd := f, l1Table := t } i k) ∧
      (unpack z { s with fd := f, l1Table := t } (State.entry { s with fd := f, l1Table := t } i k)).isSome
    rw [hentry, hu]
    exact h.packed hfull i k hold hcomp
  intro hfull i k hc he hoff
  obtain ⟨hold, hcomp, hentry, hu⟩ := hunpack i k hc he
  change s.clusterCacheOffset = s.coffset (State.entry { s with fd := f, l1Table := t } i k) at hoff
  show unpack z { s with fd := f, l1Table := t } (State.entry { s with fd := f, l1Table := t } i k) = _
  rw [hentry] at hoff ⊢
  rw [hu]
  exact h.unpacked hfull i k hold hcomp hoff

/-! ## Lookups -/

theorem l2Index_lt (s : State) (x : Nat) : s.l2Index x < s.l2Size := Nat.mod_lt _ (l2Size_pos s)

theorem hasCluster_of_lookup (hx : s.l1Index x < s.l1Size) (h : lookup s x ≠ 0) :
    s.HasCluster (s.l1Index x) (s.l2Index x) ∧ lookup s x = s.entry (s.l1Index x) (s.l2Index x) := by
  unfold lookup at h ⊢
  split_ifs at h with hne
  · exact absurd rfl h
  · rw [if_neg hne]
    exact ⟨⟨⟨hx, hne⟩, l2Index_lt s x, h⟩, rfl⟩

theorem lookup_of_hasL2 (h : s.HasL2 (s.l1Index x)) : lookup s x = s.entry (s.l1Index x) (s.l2Index x) := if_neg h.2

theorem index_eq_iff (s : State) (x y : Nat) :
    s.l1Index y = s.l1Index x ∧ s.l2Index y = s.l2Index x ↔ y / s.clusterSize = x / s.clusterSize := by
  have hl1 (x : Nat) : s.l1Index x = x / s.clusterSize / s.l2Size := by
    rw [l1Index, Nat.div_div_eq_div_mul, add_comm, pow_add]
    rfl
  have hl2 (x : Nat) : s.l2Index x = x / s.clusterSize % s.l2Size := rfl
  rw [hl1, hl1, hl2, hl2]
  constructor
  · rintro ⟨hdiv, hmod⟩
    rw [← Nat.div_add_mod (y / s.clusterSize) s.l2Size, hdiv, hmod, Nat.div_add_mod]
  · intro h
    rw [h]
    exact ⟨rfl, rfl⟩

theorem lookup_congr (h : y / s.clusterSize = x / s.clusterSize) : lookup s y = lookup s x := by
  obtain ⟨hl1, hl2⟩ := (index_eq_iff s x y).mpr h
  rw [lookup, lookup, hl1, hl2]

theorem lookup_of_entry (hx : s.l1Index x < s.l1Size) (ht : t (s.l1Index x) = s.l1Table (s.l1Index x))
    (hentry : s.HasL2 (s.l1Index x) →
      State.entry { s with fd := f, l1Table := t } (s.l1Index x) (s.l2Index x) = s.entry (s.l1Index x) (s.l2Index x)) :
    lookup { s with fd := f, l1Table := t, l2Cache := c } x = lookup s x := by
  unfold lookup
  show (if t (s.l1Index x) = 0 then 0
    else State.entry { s with fd := f, l1Table := t } (s.l1Index x) (s.l2Index x)) = _
  rw [ht]
  split
  · rfl
  · rename_i hne
    exact hentry ⟨hx, hne⟩

section Kept

variable (h : Inv full z s)

include h

theorem diskByte_congr (hsize : s.fd.size ≤ f.size) (hx : s.l1Index x < s.l1Size)
    (hlookup : lookup { s with fd := f, l1Table := t, l2Cache := c } x = lookup s x)
    (hdata : ∀ a, s.Owns (.cluster (s.l1Index x) (s.l2Index x)) a → f.data a = s.fd.data a) :
    diskByte z { s with fd := f, l1Table := t, l2Cache := c } x = diskByte z s x := by
  rw [diskByte, diskByte, hlookup]
  by_cases he : lookup s x = 0
  · rw [if_pos he, if_pos he]
    rfl
  · rw [if_neg he, if_neg he]
    obtain ⟨hc, heq⟩ := hasCluster_of_lookup hx he
    rw [heq]
    exact clusterByte_congr (Nat.mod_lt _ (clusterSize_pos s)) (cluster_below h.laid hc) hsize
      (fun a ha ha' => hdata a ⟨hc, ha, ha'⟩)

/-! ## Compressed clusters -/

theorem Inv.cached (hc : s.HasCluster i k) (he : isCompressed (s.entry i k) = true) {out : List Byte}
    (hout : unpack z s (s.entry i k) = some out) :
    Inv full z { s with clusterCache := out, clusterCacheOffset := s.coffset (s.entry i k) } := by
  refine ⟨h.bits, ⟨h.laid.disjoint, h.laid.below⟩, h.l1, ⟨h.coherent.table, h.coherent.distinct⟩,
    z.length _ _ _ (unpack_eq_some hout).2, h.packed, ?_⟩
  intro hfull i' k' hc' he' hoff
  -- compressed clusters at one place are one cluster
  have hown (i k : Nat) (hc : s.HasCluster i k) (he : isCompressed (s.entry i k) = true) :
      s.Owns (.cluster i k) (s.coffset (s.entry i k)) := by
    have hpos := (h.packed hfull i k hc he).1
    refine ⟨hc, ?_, ?_⟩
    · simp [start, he]
    · simp only [start, len, he, if_true]
      omega
  have hown' := hown i' k' hc' he'
  rw [← show s.coffset (s.entry i k) = s.coffset (s.entry i' k') from hoff] at hown'
  obtain ⟨rfl, rfl⟩ := Extent.cluster.inj (h.laid.disjoint _ _ _ (hown i k hc he) hown')
  exact hout

theorem decompressCluster_some (hc : s.HasCluster i k) (hentry : s.entry i k = e)
    (he : isCompressed e = true) (hdec : decompressCluster z s e = some s') :
    ∃ out, s' = { s with clusterCache := out, clusterCacheOffset := s.coffset e } ∧ out.length = s.clusterSize ∧
      Inv full z s' ∧ (full → unpack z s e = some out) := by
  subst hentry
  unfold decompressCluster at hdec
  split at hdec
  · rename_i hhit
    obtain rfl := some.inj hdec
    exact ⟨s.clusterCache, by rw [← hhit], h.cache, h, fun hfull => h.unpacked hfull i k hc he hhit⟩
  dsimp only at hdec
  split at hdec
  · cases hdec
  rename_i hdata
  split at hdec
  · cases hdec
  split at hdec
  · cases hdec
  rename_i out hout
  obtain rfl := some.inj hdec
  have hunpack : unpack z s (s.entry i k) = some out := by
    rw [unpack, if_pos (by simpa using hdata)]
    exact hout
  exact ⟨out, rfl, z.length _ _ _ hout, h.cached hc he hunpack, fun _ => hunpack⟩

theorem decompressCluster_isSome (hfull : full) (hc : s.HasCluster i k) (hentry : s.entry i k = e)
    (he : isCompressed e = true) : (decompressCluster z s e).isSome := by
  subst hentry
  obtain ⟨hpos, hsome⟩ := h.packed hfull i k hc he
  obtain ⟨out, hout⟩ := isSome_iff_exists.mp hsome
  have hlen0 : 0 < s.len (s.entry i k) := by rwa [len, if_pos he]
  have hbelow := cluster_below h.laid hc hlen0
  simp only [start, len, he, if_true] at hbelow
  obtain ⟨hdata, hinflate⟩ := unpack_eq_some hout
  unfold decompressCluster
  split
  · rfl
  · simp [hdata, length_read_of_le hbelow, ne_eq, hinflate, isSome_some]

/-! ## L2 tables -/

theorem loadL2_old (hl2 : s.HasL2 i) :
    ∃ j c os n, loadL2 s (s.l1Table i) false =
      some (j, { s with l2Cache := c, l2CacheOffsets := os, l2CacheCounts := n }) ∧
      j < l2CacheSize ∧ os j = s.l1Table i ∧
      Coherent { s with l2Cache := c, l2CacheOffsets := os, l2CacheCounts := n } := by
  cases hcached : cached s (s.l1Table i) with
  | some j =>
    obtain ⟨hj, hoff⟩ := cached_some hcached
    refine ⟨j, s.l2Cache, s.l2CacheOffsets, (hit s j).l2CacheCounts, ?_, hj, hoff, h.coherent.table,
      h.coherent.distinct⟩
    simp only [loadL2, hcached]
    rfl
  | none =>
    have hlen := length_read_of_le (l2_below h.laid hl2)
    refine ⟨(leastUsed s).1, update s.l2Cache (leastUsed s).1 fun k => s.entry i k,
      update s.l2CacheOffsets (leastUsed s).1 (s.l1Table i), update s.l2CacheCounts (leastUsed s).1 1,
      ?_, leastUsed_lt s, update_self _ _ _, ?_⟩
    · simp only [loadL2, hcached, hlen, ne_eq, not_true_eq_false, if_false, Bool.false_eq_true]
      rfl
    · exact h.coherent.fill (leastUsed_lt s) hl2 rfl (fun j hj => cached_none hcached hj) (fun _ _ => rfl)

section Tabled

variable (hi : i < s.l1Size) (hnone : s.l1Table i = 0) (ho : s.fd.size ≤ o)

include hi hnone ho

theorem Inv.table (ho' : o < 2 ^ 64) :
    Inv full z { s with fd := tabled s i o, l1Table := update s.l1Table i o } := by
  have hother (i' : Nat) (hl2 : s.HasL2 i') : i' ≠ i := by
    rintro rfl
    exact hl2.2 hnone
  refine h.change (size_tabled s i o).1 (laid_tabled h.laid hi ho) ?_ ?_ ?_
  · intro i' hi'
    rw [word_tabled h.laid hi ho ho' hi', update_apply, h.l1 i' hi']
  · rintro i' k ⟨⟨hi', hne⟩, hk, hentry⟩ -
    change k < s.l2Size at hk
    by_cases heq : i' = i
    · subst heq
      exact absurd (entry_tabled_new hk) hentry
    · change update s.l1Table i o i' ≠ 0 at hne
      rw [update_of_ne heq] at hne
      have hsame := entry_tabled_old (k := k) h.laid hi ho heq ⟨hi', hne⟩ hk
      rw [hsame] at hentry
      exact ⟨⟨⟨hi', hne⟩, hk, hentry⟩, hsame, fun a hown => data_tabled_owned h.laid hi ho (by nofun) hown⟩
  · exact h.coherent.congr (fun i' hl2 => update_of_ne (hother i' hl2) _ _)
      (fun i' k hl2 hk => entry_tabled_old h.laid hi ho (hother i' hl2) hl2 hk)

theorem lookup_tabled (hx : s.l1Index x < s.l1Size) :
    lookup { s with fd := tabled s i o, l1Table := update s.l1Table i o } x = lookup s x := by
  by_cases heq : s.l1Index x = i
  · have hold : lookup s x = 0 := if_pos (by rw [heq]; exact hnone)
    rw [hold]
    unfold lookup
    split
    · rfl
    · show State.entry _ (s.l1Index x) (s.l2Index x) = 0
      rw [heq]
      exact entry_tabled_new (l2Index_lt s x)
  · exact lookup_of_entry hx (update_of_ne heq _ _)
      (fun hl2 => entry_tabled_old h.laid hi ho heq hl2 (l2Index_lt s x))

theorem diskByte_tabled (hx : s.l1Index x < s.l1Size) :
    diskByte z { s with fd := tabled s i o, l1Table := update s.l1Table i o } x = diskByte z s x :=
  diskByte_congr h (size_tabled s i o).1 hx (lookup_tabled h hi hnone ho hx)
    (fun _ hown => data_tabled_owned h.laid hi ho (by nofun) hown)

end Tabled

theorem roundUp_ne_zero : s.roundUp s.fd.size ≠ 0 := by
  have hround := le_roundUp s s.fd.size
  have hsize := size_pos h.laid
  unfold headerSize at hsize
  omega

theorem Inv.cached_new (hj : j < l2CacheSize) : s.l2CacheOffsets j ≠ s.roundUp s.fd.size := by
  intro heq
  have hne : s.l2CacheOffsets j ≠ 0 := by
    rw [heq]
    exact roundUp_ne_zero h
  obtain ⟨i, hl2, hoff, -⟩ := h.coherent.table j hj hne
  have hpos := l2Size_pos s
  have hbelow := l2_below h.laid hl2
  have hround := le_roundUp s s.fd.size
  omega

omit h in
theorem le_of_canGrow (hgrow : ¬ (!s.canGrow o) = true) : o ≤ 2 ^ 63 := by
  simp only [canGrow, Bool.not_eq_true', Bool.not_eq_false, Bool.and_eq_true, decide_eq_true_eq] at hgrow
  exact hgrow.1

theorem loadL2_new (hi : i < s.l1Size) (hnone : s.l1Table i = 0) (hload : loadL2 { s with
        l1Table := update s.l1Table i (s.roundUp s.fd.size)
        fd := s.fd.write (s.l1TableOffset + i * 8) (toBytes 8 (s.roundUp s.fd.size)) } (s.roundUp s.fd.size) true =
      some (j, s')) :
    ∃ c os n, s' = { s with
        fd := tabled s i (s.roundUp s.fd.size)
        l1Table := update s.l1Table i (s.roundUp s.fd.size)
        l2Cache := c
        l2CacheOffsets := os
        l2CacheCounts := n } ∧ j < l2CacheSize ∧ os j = s.roundUp s.fd.size ∧ Inv full z s' := by
  unfold loadL2 at hload
  split at hload
  · rename_i j' hcached
    obtain ⟨hj', hoff⟩ := cached_some hcached
    exact absurd hoff (h.cached_new hj')
  simp only [if_true] at hload
  split at hload
  · cases hload
  rename_i hgrow
  obtain ⟨rfl, rfl⟩ := mk.inj (some.inj hload)
  have hmax : s.roundUp s.fd.size + s.l2Size * 8 ≤ 2 ^ 63 := le_of_canGrow hgrow
  have hinv := h.table hi hnone (le_roundUp s s.fd.size) (by omega)
  have htable : update s.l1Table i (s.roundUp s.fd.size) i = s.roundUp s.fd.size := update_self _ _ _
  have hzero (k : Nat) (hk : k < s.l2Size) : 0 = State.entry { s with
      fd := tabled s i (s.roundUp s.fd.size)
      l1Table := update s.l1Table i (s.roundUp s.fd.size) } i k := (entry_tabled_new hk).symm
  have hne : update s.l1Table i (s.roundUp s.fd.size) i ≠ 0 := by
    rw [htable]
    exact roundUp_ne_zero h
  have hcoh := hinv.coherent.fill (t := fun _ => 0) (n := update s.l2CacheCounts (leastUsed s).1 1) (leastUsed_lt s)
    ⟨hi, hne⟩ htable (fun j hj => h.cached_new hj) hzero
  exact ⟨_, _, _, rfl, leastUsed_lt s, update_self _ _ _, hinv.recache hcoh⟩

/-! ## New clusters -/

theorem Inv.link (hl2 : s.HasL2 i) (hk : k < s.l2Size) (hj : j < l2CacheSize)
    (hoff : s.l2CacheOffsets j = s.l1Table i) (hf : Extends s f o) :
    Inv full z { s with
      fd := linked s f i k o
      l2Cache := update s.l2Cache j (update (s.l2Cache j) k o) } := by
  refine h.change hf.size_le (hf.laid h.laid hl2 hk) ?_ ?_ (h.coherent.link h.laid hj hl2 hoff hk hf)
  · intro i' hi'
    rw [h.l1 i' hi']
    symm
    apply word_congr
    intro n hn
    exact hf.data_owned h.laid hl2 hk (by nofun) (owns_l1_word hi' hn)
  rintro i' k' ⟨hl2', hk', hne⟩ he
  change k' < s.l2Size at hk'
  -- the new cluster is not compressed
  have hother : ¬ (i' = i ∧ k' = k) := by
    rintro ⟨rfl, rfl⟩
    rw [hf.entry_new, isCompressed_small hf.small] at he
    exact Bool.false_ne_true he
  have hsame := hf.entry_old h.laid hl2 hk hl2' hk' hother
  rw [hsame] at hne
  exact ⟨⟨hl2', hk', hne⟩, hsame, fun a hown => hf.data_owned h.laid hl2 hk (by nofun) hown⟩

end Kept

theorem lookup_linked (c : Nat → Nat → Nat) (h : Inv full z s) (hl2 : s.HasL2 i) (hk : k < s.l2Size)
    (hf : Extends s f o) (hx : s.l1Index x < s.l1Size) :
    lookup { s with fd := linked s f i k o, l2Cache := c } x =
      if s.l1Index x = i ∧ s.l2Index x = k then o else lookup s x := by
  by_cases heq : s.l1Index x = i ∧ s.l2Index x = k
  · rw [if_pos heq]
    obtain ⟨rfl, rfl⟩ := heq
    exact (if_neg hl2.2).trans hf.entry_new
  · rw [if_neg heq]
    exact lookup_of_entry hx rfl (fun hl2' => hf.entry_old h.laid hl2 hk hl2' (l2Index_lt s x) heq)

theorem Extends.ne_zero (hf : Extends s f o) (h : Inv full z s) : o ≠ 0 := by
  have hbehind := hf.behind
  have hsize := size_pos h.laid
  unfold headerSize at hsize
  omega

theorem diskByte_linked_new (c : Nat → Nat → Nat) (h : Inv full z s) (hl2 : s.HasL2 (s.l1Index x))
    (hf : Extends s f o) :
    diskByte z { s with fd := linked s f (s.l1Index x) (s.l2Index x) o, l2Cache := c } x =
      f.data (o + x % s.clusterSize) := by
  have hlookup := lookup_linked c h hl2 (l2Index_lt s x) hf hl2.1
  rw [if_pos ⟨rfl, rfl⟩] at hlookup
  rw [diskByte, hlookup, if_neg (hf.ne_zero h), clusterByte, isCompressed_small hf.small]
  exact hf.data_new h.laid hl2 (l2Index_lt s x) (Nat.le_add_right _ _)

theorem diskByte_linked_old (c : Nat → Nat → Nat) (h : Inv full z s) (hl2 : s.HasL2 i) (hk : k < s.l2Size)
    (hf : Extends s f o)
    (hx : s.l1Index x < s.l1Size) (hother : ¬ (s.l1Index x = i ∧ s.l2Index x = k)) :
    diskByte z { s with fd := linked s f i k o, l2Cache := c } x = diskByte z s x := by
  refine diskByte_congr h hf.size_le hx ?_ (fun a hown => hf.data_owned h.laid hl2 hk (by nofun) hown)
  have hlookup := lookup_linked c h hl2 hk hf hx
  rwa [if_neg hother] at hlookup

/-- What the new cluster has: zeros, or what was in the cluster it replaces. -/
def fresh (z : Zlib) (s : State) (e nStart nEnd r : Nat) : Byte :=
  if isCompressed e ∧ nEnd - nStart < s.clusterSectors then clusterByte z s e r else 0

theorem allocCluster_spec (h : Inv full z s) (hl2 : s.HasL2 i) (hk : k < s.l2Size)
    (halloc : allocCluster z s (s.entry i k) nStart nEnd = some (some o, s')) :
    ∃ f cc co, s' = { s with fd := f, clusterCache := cc, clusterCacheOffset := co } ∧
      Inv full z { s with clusterCache := cc, clusterCacheOffset := co } ∧
      Extends { s with clusterCache := cc, clusterCacheOffset := co } f o ∧
      (full → ∀ r, r < s.clusterSize → f.data (o + r) = fresh z s (s.entry i k) nStart nEnd r) := by
  have hround := le_roundUp s s.fd.size
  have hpos := clusterSize_pos s
  unfold allocCluster at halloc
  split at halloc
  · rename_i hpart
    have hc : s.HasCluster i k := by
      refine ⟨hl2, hk, fun h0 => ?_⟩
      rw [h0] at hpart
      exact absurd hpart.1 (by decide)
    split at halloc
    · cases halloc
    rename_i s1 hdec
    obtain ⟨out, rfl, hlen, hinv, hout⟩ := decompressCluster_some h hc rfl hpart.1 hdec
    dsimp only at halloc
    split at halloc
    · cases halloc
    rename_i hgrow
    obtain ⟨ho, rfl⟩ := mk.inj (some.inj halloc)
    obtain rfl := some.inj ho
    have hmax : s.roundUp s.fd.size + s.clusterSize ≤ 2 ^ 63 := le_of_canGrow hgrow
    have hne : out ≠ [] := by
      rintro rfl
      rw [length_nil] at hlen
      omega
    refine ⟨_, out, s.coffset (s.entry i k), rfl, hinv, ⟨?_, ?_, hround, ?_⟩, ?_⟩
    · intro a ha
      exact data_write_of_lt (lt_of_lt_of_le ha hround)
    · have hsize := le_size_write s.fd (s.roundUp s.fd.size) hne
      rwa [hlen] at hsize
    · show s.roundUp s.fd.size < 2 ^ 63
      omega
    · intro hfull r hr
      rw [data_write_of_mem (by omega) (by omega), Nat.add_sub_cancel_left, fresh, if_pos hpart, clusterByte,
        if_pos hpart.1]
      rw [(unpack_eq_some (hout hfull)).2, getD_some]
  · rename_i hpart
    dsimp only at halloc
    split at halloc
    · cases halloc
    rename_i hgrow
    obtain ⟨ho, rfl⟩ := mk.inj (some.inj halloc)
    obtain rfl := some.inj ho
    have hmax : s.roundUp s.fd.size + s.clusterSize ≤ 2 ^ 63 := le_of_canGrow hgrow
    refine ⟨_, s.clusterCache, s.clusterCacheOffset, rfl, h, ⟨?_, le_refl _, hround, ?_⟩, ?_⟩
    · intro a ha
      exact data_truncate (by omega)
    · omega
    · intro _ r hr
      rw [data_truncate (by omega), fresh, if_neg hpart]
      exact s.fd.zero _ (by omega)

/-! ## `get_cluster_offset` -/

/-- The disk is the same one, and what was allocated is. -/
structure Keeps (s s' : State) : Prop where
  clusterBits : s'.clusterBits = s.clusterBits
  l2Bits : s'.l2Bits = s.l2Bits
  l1Size : s'.l1Size = s.l1Size
  backingHd : s'.backingHd = s.backingHd
  backing : s'.backing = s.backing
  lookup : ∀ x, s.l1Index x < s.l1Size → lookup s x ≠ 0 → lookup s' x ≠ 0

namespace Keeps

theorem clusterSize (h : Keeps s s') : s'.clusterSize = s.clusterSize := by
  rw [State.clusterSize, State.clusterSize, h.clusterBits]

theorem clusterSectors (h : Keeps s s') : s'.clusterSectors = s.clusterSectors := by
  rw [State.clusterSectors, State.clusterSectors, h.clusterBits]

theorem l1Index (h : Keeps s s') (x : Nat) : s'.l1Index x = s.l1Index x := by
  rw [State.l1Index, State.l1Index, h.clusterBits, h.l2Bits]

theorem trans {s'' : State} (h : Keeps s s') (h' : Keeps s' s'') : Keeps s s'' where
  clusterBits := h'.clusterBits.trans h.clusterBits
  l2Bits := h'.l2Bits.trans h.l2Bits
  l1Size := h'.l1Size.trans h.l1Size
  backingHd := h'.backingHd.trans h.backingHd
  backing := h'.backing.trans h.backing
  lookup := fun x hx hne => h'.lookup x (by rwa [h.l1Index, h.l1Size]) (h.lookup x hx hne)

end Keeps

theorem getClusterOffset_read (h : Inv full z s) (hx : s.l1Index x < s.l1Size) :
    ∃ c os n, getClusterOffset z s x false 0 0 =
        some (lookup s x, { s with l2Cache := c, l2CacheOffsets := os, l2CacheCounts := n }) ∧
      Inv full z { s with l2Cache := c, l2CacheOffsets := os, l2CacheCounts := n } := by
  by_cases hnone : s.l1Table (s.l1Index x) = 0
  · refine ⟨s.l2Cache, s.l2CacheOffsets, s.l2CacheCounts, ?_, h⟩
    simp only [getClusterOffset, findL2, hnone, if_true, lookup, Bool.false_eq_true, if_false]
  have hl2 : s.HasL2 (s.l1Index x) := ⟨hx, hnone⟩
  obtain ⟨j, c, os, n, hload, hj, hoff, hcoh⟩ := loadL2_old h hl2
  have hentry : c j (s.l2Index x) = s.entry (s.l1Index x) (s.l2Index x) := hcoh.entry hj hl2 hoff (l2Index_lt s x)
  refine ⟨c, os, n, ?_, h.recache hcoh⟩
  rw [lookup_of_hasL2 hl2, ← hentry]
  simp only [getClusterOffset, findL2, hnone, if_false, hload, Bool.false_eq_true, and_false, or_false]
  split
  · rename_i h0
    change c j (s.l2Index x) = 0 at h0
    rw [h0]
  · rfl

theorem locate_spec {s1 s2 : State} {new : Bool} (h : Inv full z s) (hi : i < s.l1Size)
    (hfind : findL2 s i true = some (o, new, s1))
    (hload : loadL2 s1 o new = some (j, s2)) :
    Inv full z s2 ∧ Keeps s s2 ∧ s2.HasL2 i ∧ s2.l1Table i = o ∧ j < l2CacheSize ∧ s2.l2CacheOffsets j = o ∧
      ∀ x, s.l1Index x < s.l1Size → lookup s2 x = lookup s x ∧ diskByte z s2 x = diskByte z s x := by
  unfold findL2 at hfind
  split at hfind
  · rename_i hnone
    have hround := le_roundUp s s.fd.size
    obtain ⟨rfl, rfl, rfl⟩ : s.roundUp s.fd.size = o ∧ true = new ∧ _ = s1 := by simpa using hfind
    obtain ⟨c, os, n, rfl, hj, hoff, hinv⟩ := loadL2_new h hi hnone hload
    have htable : update s.l1Table i (s.roundUp s.fd.size) i = s.roundUp s.fd.size := update_self _ _ _
    refine ⟨hinv, ⟨rfl, rfl, rfl, rfl, rfl, ?_⟩, ⟨hi, ?_⟩, htable, hj, hoff, ?_⟩
    · intro x hx hne
      rw [← lookup_tabled h hi hnone hround hx] at hne
      exact hne
    · show update s.l1Table i (s.roundUp s.fd.size) i ≠ 0
      rw [htable]
      exact roundUp_ne_zero h
    · intro x hx
      exact ⟨lookup_tabled h hi hnone hround hx, diskByte_tabled h hi hnone hround hx⟩
  · rename_i hne
    obtain ⟨rfl, rfl, rfl⟩ : s.l1Table i = o ∧ false = new ∧ s = s1 := by simpa using hfind
    have hl2 : s.HasL2 i := ⟨hi, hne⟩
    obtain ⟨j', c, os, n, hload', hj, hoff, hcoh⟩ := loadL2_old h hl2
    rw [hload'] at hload
    obtain ⟨rfl, rfl⟩ := mk.inj (some.inj hload)
    exact ⟨h.recache hcoh, ⟨rfl, rfl, rfl, rfl, rfl, fun _ _ hne => hne⟩, hl2, rfl, hj, hoff, fun _ _ => ⟨rfl, rfl⟩⟩

def Carried (s : State) (x nStart nEnd y : Nat) : Prop :=
  y / s.clusterSize = x / s.clusterSize →
    if lookup s x = 0 then s.backingHd < 0 else isCompressed (lookup s x) = true → nEnd - nStart < s.clusterSectors

theorem relocate_spec {t : State} (h : Inv full z s) (hl2 : s.HasL2 (s.l1Index x))
    (hj : j < l2CacheSize) (hoff : s.l2CacheOffsets j = s.l1Table (s.l1Index x))
    (hnew : lookup s x = 0 ∨ isCompressed (lookup s x) = true)
    (halloc : allocCluster z s (lookup s x) nStart nEnd = some (some o, s'))
    (ht : t = { s' with
      l2Cache := update s'.l2Cache j (update (s'.l2Cache j) (s.l2Index x) o)
      fd := s'.fd.write (s.l1Table (s.l1Index x) + s.l2Index x * 8) (toBytes 8 o) }) :
    Inv full z t ∧ Keeps s t ∧ lookup t x = o ∧ o ≠ 0 ∧ isCompressed o = false ∧
      (full → ∀ y, s.l1Index y < s.l1Size → Carried s x nStart nEnd y → diskByte z t y = diskByte z s y) := by
  have hk := l2Index_lt s x
  have hlook := lookup_of_hasL2 hl2
  rw [hlook] at halloc
  obtain ⟨f, cc, co, rfl, hinv, hext, hfresh⟩ := allocCluster_spec h hl2 hk halloc
  change t = { s with
    fd := linked s f (s.l1Index x) (s.l2Index x) o
    l2Cache := update s.l2Cache j (update (s.l2Cache j) (s.l2Index x) o)
    clusterCache := cc
    clusterCacheOffset := co } at ht
  have hinv' : Inv full z t := by
    rw [ht]
    exact hinv.link hl2 hk hj hoff hext
  generalize update s.l2Cache j _ = c at ht
  have hlooked (y : Nat) (hy : s.l1Index y < s.l1Size) :
      lookup t y = if s.l1Index y = s.l1Index x ∧ s.l2Index y = s.l2Index x then o else lookup s y := by
    have hlinked := lookup_linked c hinv hl2 hk hext hy
    rw [ht]
    exact hlinked
  have hkeeps : Keeps s t := by
    refine ⟨by rw [ht], by rw [ht], by rw [ht], by rw [ht], by rw [ht], ?_⟩
    intro y hy hne
    rw [hlooked y hy]
    split
    · exact hext.ne_zero hinv
    · exact hne
  refine ⟨hinv', hkeeps, ?_, hext.ne_zero hinv, isCompressed_small hext.small, ?_⟩
  · rw [hlooked x hl2.1, if_pos ⟨rfl, rfl⟩]
  intro hfull y hy hcarried
  by_cases hin : s.l1Index y = s.l1Index x ∧ s.l2Index y = s.l2Index x
  · have hsame := (index_eq_iff s x y).mp hin
    have hbyte : diskByte z t y = f.data (o + y % s.clusterSize) := by
      rw [ht, ← hin.1, ← hin.2]
      rw [← hin.1] at hl2
      have hlinked := diskByte_linked_new c hinv hl2 hext
      exact hlinked
    rw [hbyte, hfresh hfull _ (Nat.mod_lt _ (clusterSize_pos s)), fresh, ← hlook, diskByte, lookup_congr hsame]
    have hcase := hcarried hsame
    obtain h0 | hcomp := hnew
    · rw [if_pos h0] at hcase
      rw [h0, if_pos rfl, if_neg (fun hc => absurd hc.1 (by decide)), base, if_neg (by omega)]
    have hne : lookup s x ≠ 0 := by
      intro h0
      rw [h0] at hcomp
      exact absurd hcomp (by decide)
    rw [if_neg hne] at hcase ⊢
    rw [if_pos ⟨hcomp, hcase hcomp⟩]
  · have hlinked := diskByte_linked_old c hinv hl2 hk hext hy hin
    rw [ht]
    exact hlinked

/-! A cluster that could not be made is noted, and stays so. -/

theorem loadL2_failed {new : Bool} (hload : loadL2 s o new = some (j, s')) : s'.failed = s.failed := by
  unfold loadL2 at hload
  split at hload
  · obtain ⟨-, rfl⟩ := mk.inj (some.inj hload)
    rfl
  dsimp only at hload
  split at hload
  · split at hload
    · cases hload
    · obtain ⟨-, rfl⟩ := mk.inj (some.inj hload)
      rfl
  · split at hload
    · cases hload
    · obtain ⟨-, rfl⟩ := mk.inj (some.inj hload)
      rfl

theorem decompressCluster_failed (hdec : decompressCluster z s e = some s') : s'.failed = s.failed := by
  unfold decompressCluster at hdec
  split at hdec
  · cases hdec
    rfl
  dsimp only at hdec
  split at hdec
  · cases hdec
  split at hdec
  · cases hdec
  split at hdec
  · cases hdec
  · cases hdec
    rfl

theorem allocCluster_failed {r : Option Nat} (halloc : allocCluster z s e nStart nEnd = some (r, s'))
    (hok : s'.failed = none) : s.failed = none ∧ r ≠ none := by
  unfold allocCluster at halloc
  split at halloc
  · split at halloc
    · cases halloc
    rename_i hdec
    dsimp only at halloc
    split at halloc
    · cases halloc
      cases hok
    · cases halloc
      exact ⟨(decompressCluster_failed hdec).symm.trans hok, nofun⟩
  · dsimp only at halloc
    split at halloc
    · cases halloc
      cases hok
    · cases halloc
      exact ⟨hok, nofun⟩

theorem getClusterOffset_failed {allocate : Bool}
    (hget : getClusterOffset z s x allocate nStart nEnd = some (e, s')) (hok : s'.failed = none) :
    s.failed = none := by
  unfold getClusterOffset at hget
  split at hget
  · cases hget
    exact hok
  rename_i s1 hfind
  have h1 : s1.failed = s.failed := by
    unfold findL2 at hfind
    split at hfind
    · split at hfind <;> cases hfind
      rfl
    · cases hfind
      rfl
  split at hget
  · cases hget
  rename_i s2 hload
  rw [← h1, ← loadL2_failed hload]
  dsimp only at hget
  split at hget
  · split at hget
    · split at hget
      · cases hget
      · rename_i halloc
        cases hget
        exact (allocCluster_failed halloc hok).1
      · rename_i halloc
        cases hget
        exact (allocCluster_failed halloc hok).1
    · cases hget
      exact hok
  · cases hget
    exact hok

theorem getClusterOffset_write (h : Inv full z s) (hx : s.l1Index x < s.l1Size)
    (hget : getClusterOffset z s x true nStart nEnd = some (e, s')) (hok : s'.failed = none) :
    Inv full z s' ∧ Keeps s s' ∧ lookup s' x = e ∧ e ≠ 0 ∧ isCompressed e = false ∧
      (full → ∀ y, s.l1Index y < s.l1Size → Carried s x nStart nEnd y → diskByte z s' y = diskByte z s y) := by
  unfold getClusterOffset at hget
  split at hget
  · rename_i hfind
    unfold findL2 at hfind
    split at hfind <;> cases hfind
  rename_i l2Offset new s1 hfind
  split at hget
  · cases hget
  rename_i j s2 hload
  obtain ⟨hinv, hkeeps, hl2, rfl, hj, hoff, hcontent⟩ := locate_spec h hx hfind hload
  rw [← hkeeps.l1Index] at hl2 hoff
  dsimp only at hget
  rw [hinv.coherent.entry hj hl2 hoff (l2Index_lt s2 x), ← lookup_of_hasL2 hl2] at hget
  split at hget
  · rename_i hnew
    simp only [if_true] at hget
    split at hget
    · cases hget
    · rename_i halloc
      cases hget
      exact absurd rfl (allocCluster_failed halloc hok).2
    rename_i o s3 halloc
    obtain ⟨rfl, hs'⟩ := mk.inj (some.inj hget)
    rw [← hkeeps.l1Index] at hs'
    obtain ⟨hinv', hkeeps', hlook, hne, hcomp, hkept⟩ :=
      relocate_spec hinv hl2 hj hoff (hnew.imp_right And.left) halloc hs'.symm
    refine ⟨hinv', hkeeps.trans hkeeps', hlook, hne, hcomp, ?_⟩
    intro hfull y hy hcarried
    have hcarried' : Carried s2 x nStart nEnd y := by
      unfold Carried at hcarried ⊢
      rwa [hkeeps.clusterSize, (hcontent x hx).1, hkeeps.backingHd, hkeeps.clusterSectors]
    rw [hkept hfull y (by rwa [hkeeps.l1Index, hkeeps.l1Size]) hcarried', (hcontent y hy).2]
  · rename_i hold
    obtain ⟨rfl, rfl⟩ := mk.inj (some.inj hget)
    obtain ⟨hne, hcomp⟩ := not_or.mp hold
    exact ⟨hinv, hkeeps, rfl, hne, by simpa using hcomp, fun _ y hy _ => (hcontent y hy).2⟩

/-! ## Writes to a cluster -/

section Data

variable {off : Nat} {bs : List Byte}

section Written

variable (h : Inv full z s) (hc : s.HasCluster i k) (he : isCompressed (s.entry i k) = false)
variable (hoff : off + bs.length ≤ s.clusterSize)

include h hc he hoff

theorem Inv.write : Inv full z { s with fd := s.fd.write (s.entry i k + off) bs } := by
  refine h.change size_le_write (laid_write_cluster h.laid hc he hoff) ?_ ?_ ?_
  · intro i' hi'
    rw [h.l1 i' hi']
    symm
    apply word_congr
    intro n hn
    exact data_write_cluster h.laid hc he hoff (by nofun) (owns_l1_word hi' hn)
  · rintro i' k' ⟨hl2', hk', hne⟩ hcomp
    have hsame := entry_write_cluster h.laid hc he hoff hl2' hk'
    rw [hsame] at hne hcomp
    have hother : Extent.cluster i' k' ≠ .cluster i k := by
      intro heq
      obtain ⟨rfl, rfl⟩ := Extent.cluster.inj heq
      rw [he] at hcomp
      exact Bool.false_ne_true hcomp
    exact ⟨⟨hl2', hk', hne⟩, hsame, fun a hown => data_write_cluster h.laid hc he hoff hother hown⟩
  · exact h.coherent.congr (fun _ _ => rfl) (fun _ _ hl2 hk => entry_write_cluster h.laid hc he hoff hl2 hk)

theorem lookup_write (hy : s.l1Index y < s.l1Size) :
    lookup { s with fd := s.fd.write (s.entry i k + off) bs } y = lookup s y :=
  lookup_of_entry hy rfl (fun hl2 => entry_write_cluster h.laid hc he hoff hl2 (l2Index_lt s y))

end Written

theorem diskByte_write (h : Inv full z s) (hx : s.l1Index x < s.l1Size) (hne : lookup s x ≠ 0)
    (he : isCompressed (lookup s x) = false) (hoff : off + bs.length ≤ s.clusterSize) (hy : s.l1Index y < s.l1Size) :
    diskByte z { s with fd := s.fd.write (lookup s x + off) bs } y =
      if y / s.clusterSize = x / s.clusterSize ∧ off ≤ y % s.clusterSize ∧ y % s.clusterSize < off + bs.length then
        bs.getD (y % s.clusterSize - off) 0
      else diskByte z s y := by
  obtain ⟨hc, hlook⟩ := hasCluster_of_lookup hx hne
  rw [hlook] at he ⊢
  by_cases hsame : y / s.clusterSize = x / s.clusterSize
  · have hlook' : lookup s y = s.entry (s.l1Index x) (s.l2Index x) := (lookup_congr hsame).trans hlook
    rw [diskByte, lookup_write h hc he hoff hy, hlook', if_neg hc.2.2, clusterByte,
      if_neg (by rw [he]; exact Bool.false_ne_true)]
    show (s.fd.write (s.entry (s.l1Index x) (s.l2Index x) + off) bs).data
      (s.entry (s.l1Index x) (s.l2Index x) + y % s.clusterSize) = _
    split
    · rename_i hin
      rw [data_write_of_mem (by omega) (by omega)]
      congr 1
      omega
    · rename_i hout
      rw [diskByte, hlook', if_neg hc.2.2, clusterByte, if_neg (by rw [he]; exact Bool.false_ne_true)]
      by_cases hlt : y % s.clusterSize < off
      · exact data_write_of_lt (by omega)
      · exact data_write_of_ge (by omega)
  · rw [if_neg (fun hin => hsame hin.1)]
    refine diskByte_congr h size_le_write hy (lookup_write h hc he hoff hy) ?_
    intro a hown
    refine data_write_cluster h.laid hc he hoff ?_ hown
    intro heq
    exact hsame ((index_eq_iff s x y).mp (Extent.cluster.inj heq))

end Data

end MacOnLinux.Qcow
