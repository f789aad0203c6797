import MacOnLinux.Qcow.Code

/-! # The layout of an image

The header, the tables and the clusters own the bytes of the file, and no byte has two owners.
-/

namespace MacOnLinux.Qcow

open Function List File

/-- What a byte of the file can belong to, by its indices in the tables. -/
inductive Extent where
  | header
  | l1
  | l2 (i : Nat)
  | cluster (i k : Nat)
  deriving DecidableEq, Repr

namespace State

variable (s : State)

def entry (i k : Nat) : Nat := s.fd.word (s.l1Table i + k * 8)

def HasL2 (i : Nat) : Prop := i < s.l1Size ∧ s.l1Table i ≠ 0

def HasCluster (i k : Nat) : Prop := s.HasL2 i ∧ k < s.l2Size ∧ s.entry i k ≠ 0

def start (e : Nat) : Nat := if isCompressed e then s.coffset e else e

def len (e : Nat) : Nat := if isCompressed e then s.csize e else s.clusterSize

def Owns : Extent → Nat → Prop
  | .header, a => a < headerSize
  | .l1, a => s.l1TableOffset ≤ a ∧ a < s.l1TableOffset + s.l1Size * 8
  | .l2 i, a => s.HasL2 i ∧ s.l1Table i ≤ a ∧ a < s.l1Table i + s.l2Size * 8
  | .cluster i k, a =>
    s.HasCluster i k ∧ s.start (s.entry i k) ≤ a ∧ a < s.start (s.entry i k) + s.len (s.entry i k)

structure Laid : Prop where
  disjoint : ∀ x y a, s.Owns x a → s.Owns y a → x = y
  below : ∀ x a, s.Owns x a → a < s.fd.size

end State

open State

variable {z : Zlib} {s s' : State} {i k a e o : Nat} {f : File} {x : Extent}

theorem clusterSize_pos (s : State) : 0 < s.clusterSize := Nat.two_pow_pos _

theorem l2Size_pos (s : State) : 0 < s.l2Size := Nat.two_pow_pos _

theorem le_roundUp (s : State) (n : Nat) : n ≤ s.roundUp n := by
  have hpos := clusterSize_pos s
  have hmod := Nat.mod_lt (n + s.clusterSize - 1) hpos
  have hdiv := Nat.div_add_mod' (n + s.clusterSize - 1) s.clusterSize
  unfold roundUp
  omega

theorem size_pos (h : s.Laid) : headerSize ≤ s.fd.size := by
  have hlt : headerSize - 1 < headerSize := by decide
  have := h.below .header (headerSize - 1) hlt
  omega

theorem owns_l2_word (h : s.HasL2 i) (hk : k < s.l2Size) {j : Nat} (hj : j < 8) :
    s.Owns (.l2 i) (s.l1Table i + k * 8 + j) :=
  ⟨h, by omega, by omega⟩

theorem owns_l1_word (hi : i < s.l1Size) {j : Nat} (hj : j < 8) : s.Owns .l1 (s.l1TableOffset + i * 8 + j) :=
  ⟨by omega, by omega⟩

/-! ## What the bytes stand for -/

def base (s : State) (x : Nat) : Byte := if 0 ≤ s.backingHd then s.backing.data x else 0

def lookup (s : State) (x : Nat) : Nat :=
  if s.l1Table (s.l1Index x) = 0 then 0 else s.entry (s.l1Index x) (s.l2Index x)

def clusterByte (z : Zlib) (s : State) (e r : Nat) : Byte :=
  if isCompressed e then ((z.inflate s.clusterSize (s.fd.read (s.coffset e) (s.csize e))).getD []).getD r 0
  else s.fd.data (e + r)

def diskByte (z : Zlib) (s : State) (x : Nat) : Byte :=
  if lookup s x = 0 then base s x else clusterByte z s (lookup s x) (x % s.clusterSize)

theorem read_compressed (he : isCompressed e = true) (hsize : 0 < s.len e → s.start e + s.len e ≤ s.fd.size)
    (hf : s.fd.size ≤ f.size) (hdata : ∀ a, s.start e ≤ a → a < s.start e + s.len e → f.data a = s.fd.data a) :
    f.read (s.coffset e) (s.csize e) = s.fd.read (s.coffset e) (s.csize e) := by
  unfold start len at hsize hdata
  simp only [he] at hsize hdata
  by_cases hpos : 0 < s.csize e
  · exact read_congr (hsize hpos) (le_trans (hsize hpos) hf) hdata
  · have hzero : s.csize e = 0 := Nat.eq_zero_of_not_pos hpos
    simp [File.read, hzero, map_nil]

theorem clusterByte_congr {r : Nat} (hr : r < s.clusterSize) (hsize : 0 < s.len e → s.start e + s.len e ≤ s.fd.size)
    (hf : s.fd.size ≤ f.size) (hdata : ∀ a, s.start e ≤ a → a < s.start e + s.len e → f.data a = s.fd.data a) :
    clusterByte z { s with fd := f } e r = clusterByte z s e r := by
  cases he : isCompressed e with
  | true =>
    simp only [clusterByte, he, if_true]
    show ((z.inflate s.clusterSize (f.read (s.coffset e) (s.csize e))).getD []).getD r 0 = _
    rw [read_compressed he hsize hf hdata]
  | false =>
    unfold start len at hdata
    simp only [he] at hdata
    simp only [clusterByte, he]
    exact hdata _ (Nat.le_add_right _ _) (Nat.add_lt_add_left hr _)

theorem cluster_below (h : s.Laid) (hc : s.HasCluster i k) (hlen : 0 < s.len (s.entry i k)) :
    s.start (s.entry i k) + s.len (s.entry i k) ≤ s.fd.size := by
  have := h.below (.cluster i k) (s.start (s.entry i k) + s.len (s.entry i k) - 1) ⟨hc, by omega, by omega⟩
  omega

theorem l2_below (h : s.Laid) (hl2 : s.HasL2 i) : s.l1Table i + s.l2Size * 8 ≤ s.fd.size := by
  have hpos := l2Size_pos s
  have := h.below (.l2 i) (s.l1Table i + s.l2Size * 8 - 1) ⟨hl2, by omega, by omega⟩
  omega

theorem entry_congr {t : Nat → Nat} (ht : t i = s.l1Table i)
    (hdata : ∀ a, s.l1Table i + k * 8 ≤ a → a < s.l1Table i + k * 8 + 8 → f.data a = s.fd.data a) :
    State.entry { s with fd := f, l1Table := t } i k = s.entry i k := by
  show f.word (t i + k * 8) = _
  rw [ht]
  exact word_congr fun j hj => hdata _ (by omega) (by omega)

/-! ## Changes of the file -/

def Stays (s : State) (f : File) (t : Nat → Nat) : Extent → Prop
  | .header | .l1 => True
  | .l2 i => t i = s.l1Table i
  | .cluster i k =>
    t i = s.l1Table i ∧ (s.HasL2 i → k < s.l2Size → State.entry { s with fd := f, l1Table := t } i k = s.entry i k)

theorem owns_of_stays {t : Nat → Nat} (hx : Stays s f t x) :
    State.Owns { s with fd := f, l1Table := t } x a ↔ s.Owns x a := by
  cases x with
  | header | l1 => exact Iff.rfl
  | l2 i =>
    have ht : t i = s.l1Table i := hx
    simp only [Owns, HasL2, ht]
    exact Iff.rfl
  | cluster i k =>
    obtain ⟨ht, hent⟩ := hx
    have hl2 : State.HasL2 { s with fd := f, l1Table := t } i ↔ s.HasL2 i := by simp only [HasL2, ht]
    constructor
    · rintro ⟨⟨hi, hk, hne⟩, ha⟩
      rw [hent (hl2.mp hi) hk] at hne ha
      exact ⟨⟨hl2.mp hi, hk, hne⟩, ha⟩
    · rintro ⟨⟨hi, hk, hne⟩, ha⟩
      rw [← hent hi hk] at hne ha
      exact ⟨⟨hl2.mpr hi, hk, hne⟩, ha⟩

theorem laid_of_moves {t : Nat → Nat} (h : s.Laid) (x : Extent) (hsize : s.fd.size ≤ f.size)
    (hstays : ∀ y a, State.Owns { s with fd := f, l1Table := t } y a → y ≠ x → s.Owns y a)
    (hmoves : ∀ a, State.Owns { s with fd := f, l1Table := t } x a →
      (s.Owns x a ∨ s.fd.size ≤ a) ∧ a < f.size) :
    State.Laid { s with fd := f, l1Table := t } := by
  constructor
  · intro y y' a hy hy'
    by_cases hyx : y = x
    · by_cases hyx' : y' = x
      · rw [hyx, hyx']
      · subst hyx
        have hold := hstays y' a hy' hyx'
        obtain hown | hend := (hmoves a hy).1
        · exact h.disjoint _ _ a hown hold
        · exact absurd (h.below _ a hold) (not_lt.mpr hend)
    · have hold := hstays y a hy hyx
      by_cases hyx' : y' = x
      · subst hyx'
        obtain hown | hend := (hmoves a hy').1
        · exact h.disjoint _ _ a hold hown
        · exact absurd (h.below _ a hold) (not_lt.mpr hend)
      · exact h.disjoint _ _ a hold (hstays y' a hy' hyx')
  · intro y a hy
    by_cases hyx : y = x
    · subst hyx
      exact (hmoves a hy).2
    · exact lt_of_lt_of_le (h.below _ a (hstays y a hy hyx)) hsize

/-! ### A write to a cluster -/

section Data

variable {off : Nat} {bs : List Byte}

section Cluster

variable (h : s.Laid) (hc : s.HasCluster i k) (he : isCompressed (s.entry i k) = false)
variable (hoff : off + bs.length ≤ s.clusterSize)

include h hc he hoff

theorem data_write_cluster (hx : x ≠ .cluster i k) (hown : s.Owns x a) :
    (s.fd.write (s.entry i k + off) bs).data a = s.fd.data a := by
  by_cases hlt : a < s.entry i k + off
  · exact data_write_of_lt hlt
  by_cases hge : s.entry i k + off + bs.length ≤ a
  · exact data_write_of_ge hge
  -- the cluster owns what is between
  refine absurd (h.disjoint x (.cluster i k) a hown ⟨hc, ?_, ?_⟩) hx
  · rw [start, he]
    simp only [Bool.false_eq_true, if_false]
    omega
  · rw [start, len, he]
    simp only [Bool.false_eq_true, if_false]
    omega

theorem entry_write_cluster {i' k' : Nat} (hl2 : s.HasL2 i') (hk : k' < s.l2Size) :
    State.entry { s with fd := s.fd.write (s.entry i k + off) bs } i' k' = s.entry i' k' := by
  apply entry_congr rfl
  intro a ha ha'
  obtain ⟨j, rfl⟩ := Nat.exists_eq_add_of_le ha
  exact data_write_cluster h hc he hoff (by nofun) (owns_l2_word hl2 hk (by omega))

theorem laid_write_cluster : State.Laid { s with fd := s.fd.write (s.entry i k + off) bs } := by
  have hstays (y : Extent) : Stays s (s.fd.write (s.entry i k + off) bs) s.l1Table y := by
    cases y with
    | header | l1 => trivial
    | l2 i' => rfl
    | cluster i' k' => exact ⟨rfl, entry_write_cluster h hc he hoff⟩
  refine laid_of_moves h (.cluster i k) size_le_write (fun y a hy _ => (owns_of_stays (hstays y)).mp hy) ?_
  intro a ha
  have hown := (owns_of_stays (hstays _)).mp ha
  exact ⟨.inl hown, lt_of_lt_of_le (h.below _ a hown) size_le_write⟩

end Cluster

end Data

/-! ### A new cluster -/

section NewCluster

/-- The file `f` has a new cluster at `o`, behind what was there. -/
structure Extends (s : State) (f : File) (o : Nat) : Prop where
  old : ∀ a, a < s.fd.size → f.data a = s.fd.data a
  size : o + s.clusterSize ≤ f.size
  behind : s.fd.size ≤ o
  small : o < 2 ^ 63

def linked (s : State) (f : File) (i k o : Nat) : File := f.write (s.l1Table i + k * 8) (toBytes 8 o)

theorem Extends.size_le (hf : Extends s f o) : s.fd.size ≤ (linked s f i k o).size := by
  have hle : f.size ≤ (linked s f i k o).size := size_le_write
  have := hf.size
  have := hf.behind
  omega

theorem Extends.data_new (h : s.Laid) (hl2 : s.HasL2 i) (hk : k < s.l2Size) (hf : Extends s f o) (ha : o ≤ a) :
    (linked s f i k o).data a = f.data a := by
  have hbelow := l2_below h hl2
  have hbehind := hf.behind
  apply data_write_of_ge
  rw [length_toBytes]
  omega

theorem Extends.data_old (hf : Extends s f o) (ha : a < s.fd.size)
    (hword : a < s.l1Table i + k * 8 ∨ s.l1Table i + k * 8 + 8 ≤ a) : (linked s f i k o).data a = s.fd.data a := by
  rw [← hf.old a ha]
  obtain hlt | hge := hword
  · exact data_write_of_lt hlt
  · exact data_write_of_ge (by rwa [length_toBytes])

theorem Extends.data_owned (h : s.Laid) (hl2 : s.HasL2 i) (hk : k < s.l2Size) (hf : Extends s f o) (hx : x ≠ .l2 i)
    (hown : s.Owns x a) : (linked s f i k o).data a = s.fd.data a := by
  apply hf.data_old (h.below x a hown)
  by_contra hcon
  refine hx (h.disjoint x (.l2 i) a hown ⟨hl2, ?_, ?_⟩)
  · omega
  · omega

theorem Extends.entry_new (hf : Extends s f o) : State.entry { s with fd := linked s f i k o } i k = o := by
  have hsmall := hf.small
  exact word_write_self (by omega)

theorem Extends.entry_old (h : s.Laid) (hl2 : s.HasL2 i) (hk : k < s.l2Size) (hf : Extends s f o) {i' k' : Nat}
    (hl2' : s.HasL2 i') (hk' : k' < s.l2Size) (hne : ¬ (i' = i ∧ k' = k)) :
    State.entry { s with fd := linked s f i k o } i' k' = s.entry i' k' := by
  apply entry_congr rfl
  intro a ha ha'
  obtain ⟨j, rfl⟩ := Nat.exists_eq_add_of_le ha
  have hown := owns_l2_word (k := k') hl2' hk' (j := j) (by omega)
  by_cases hi : i' = i
  · subst hi
    apply hf.data_old (h.below _ _ hown)
    omega
  · exact hf.data_owned h hl2 hk (fun heq => hi (Extent.l2.inj heq)) hown

theorem isCompressed_small (h : o < 2 ^ 63) : isCompressed o = false := decide_eq_false (not_le.mpr h)

theorem Extends.laid (h : s.Laid) (hl2 : s.HasL2 i) (hk : k < s.l2Size) (hf : Extends s f o) :
    State.Laid { s with fd := linked s f i k o } := by
  have hstays (y : Extent) (hy : y ≠ .cluster i k) : Stays s (linked s f i k o) s.l1Table y := by
    cases y with
    | header | l1 => trivial
    | l2 i' => rfl
    | cluster i' k' =>
      refine ⟨rfl, fun hl2' hk' => hf.entry_old h hl2 hk hl2' hk' ?_⟩
      rintro ⟨rfl, rfl⟩
      exact hy rfl
  refine laid_of_moves h (.cluster i k) hf.size_le (fun y a hown hy => (owns_of_stays (hstays y hy)).mp hown) ?_
  rintro a ⟨-, hge, hlt⟩
  have hentry : State.entry { s with fd := linked s f i k o } i k = o := hf.entry_new
  have hnormal := isCompressed_small hf.small
  rw [hentry, start, hnormal] at hge hlt
  rw [len, hnormal] at hlt
  change o ≤ a at hge
  change a < o + s.clusterSize at hlt
  have hsize := hf.size
  have hbehind := hf.behind
  have hle : f.size ≤ (linked s f i k o).size := size_le_write
  exact ⟨.inr (by omega), by omega⟩

end NewCluster

/-! ### A new table -/

section NewTable

/-- The file with an empty table at the end, which the L1 table refers to. -/
def tabled (s : State) (i o : Nat) : File :=
  (s.fd.write (s.l1TableOffset + i * 8) (toBytes 8 o)).write o (List.replicate (s.l2Size * 8) 0)

theorem size_tabled (s : State) (i o : Nat) :
    s.fd.size ≤ (tabled s i o).size ∧ o + s.l2Size * 8 ≤ (tabled s i o).size := by
  have hpos := l2Size_pos s
  constructor
  · exact le_trans size_le_write size_le_write
  · have hne : replicate (s.l2Size * 8) (0 : Byte) ≠ [] := by
      simp only [ne_eq, replicate_eq_nil_iff]
      omega
    have hle := le_size_write (s.fd.write (s.l1TableOffset + i * 8) (toBytes 8 o)) o hne
    rwa [length_replicate] at hle

theorem data_tabled_new (hge : o ≤ a) (hlt : a < o + s.l2Size * 8) : (tabled s i o).data a = 0 := by
  have hlen : a < o + (replicate (s.l2Size * 8) (0 : Byte)).length := by rwa [length_replicate]
  rw [tabled, data_write_of_mem hge hlen, getD_replicate _ (by omega)]

theorem data_tabled_old (ho : s.fd.size ≤ o) (ha : a < s.fd.size)
    (hword : a < s.l1TableOffset + i * 8 ∨ s.l1TableOffset + i * 8 + 8 ≤ a) : (tabled s i o).data a = s.fd.data a := by
  rw [tabled, data_write_of_lt (by omega)]
  obtain hlt | hge := hword
  · exact data_write_of_lt hlt
  · exact data_write_of_ge (by rwa [length_toBytes])

theorem data_tabled_owned (h : s.Laid) (hi : i < s.l1Size) (ho : s.fd.size ≤ o) (hx : x ≠ .l1) (hown : s.Owns x a) :
    (tabled s i o).data a = s.fd.data a := by
  apply data_tabled_old ho (h.below x a hown)
  by_contra hcon
  refine hx (h.disjoint x .l1 a hown ⟨?_, ?_⟩)
  · omega
  · omega

theorem word_tabled (h : s.Laid) (hi : i < s.l1Size) (ho : s.fd.size ≤ o) (ho' : o < 2 ^ 64) {i' : Nat}
    (hi' : i' < s.l1Size) :
    (tabled s i o).word (s.l1TableOffset + i' * 8) =
      if i' = i then o else s.fd.word (s.l1TableOffset + i' * 8) := by
  have hbelow := h.below .l1 _ (owns_l1_word hi' (j := 7) (by omega))
  split_ifs with heq
  · subst heq
    rw [tabled, word_write_of_disjoint (by omega), word_write_self ho']
  · apply word_congr
    intro j hj
    exact data_tabled_old ho (h.below .l1 _ (owns_l1_word hi' hj)) (by omega)

theorem entry_tabled_new (hk : k < s.l2Size) :
    State.entry { s with fd := tabled s i o, l1Table := update s.l1Table i o } i k = 0 := by
  show (tabled s i o).word (update s.l1Table i o i + k * 8) = 0
  rw [update_self]
  exact word_eq_zero fun j hj => data_tabled_new (by omega) (by omega)

theorem entry_tabled_old (h : s.Laid) (hi : i < s.l1Size) (ho : s.fd.size ≤ o) {i' : Nat} (hne : i' ≠ i)
    (hl2 : s.HasL2 i')
    (hk : k < s.l2Size) :
    State.entry { s with fd := tabled s i o, l1Table := update s.l1Table i o } i' k = s.entry i' k := by
  apply entry_congr (update_of_ne hne _ _)
  intro a ha ha'
  obtain ⟨j, rfl⟩ := Nat.exists_eq_add_of_le ha
  exact data_tabled_owned h hi ho (by nofun) (owns_l2_word hl2 hk (by omega))

theorem laid_tabled (h : s.Laid) (hi : i < s.l1Size) (ho : s.fd.size ≤ o) :
    State.Laid { s with fd := tabled s i o, l1Table := update s.l1Table i o } := by
  refine laid_of_moves h (.l2 i) (size_tabled s i o).1 (fun y a hown hy => ?_) ?_
  · cases y with
    | header | l1 => exact hown
    | l2 i' =>
      have hne : i' ≠ i := fun heq => hy (by rw [heq])
      have hstays : Stays s (tabled s i o) (update s.l1Table i o) (.l2 i') := update_of_ne hne _ _
      exact (owns_of_stays hstays).mp hown
    | cluster i' k' =>
      by_cases heq : i' = i
      · subst heq
        have hk : k' < s.l2Size := hown.1.2.1
        exact absurd (entry_tabled_new hk) hown.1.2.2
      · have hstays : Stays s (tabled s i o) (update s.l1Table i o) (.cluster i' k') :=
          ⟨update_of_ne heq _ _, entry_tabled_old h hi ho heq⟩
        exact (owns_of_stays hstays).mp hown
  · rintro a ⟨-, hge, hlt⟩
    change update s.l1Table i o i ≤ a at hge
    change a < update s.l1Table i o i + s.l2Size * 8 at hlt
    rw [update_self] at hge hlt
    have hsize := (size_tabled s i o).2
    exact ⟨.inr (by omega), by show a < (tabled s i o).size; omega⟩

end NewTable

end MacOnLinux.Qcow
