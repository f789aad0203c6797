import Mathlib.Order.MinMax
import MacOnLinux.Kv.Code
import MacOnLinux.Lib.LeMem

/-! # The I/O pages

The sorted list of `io_page_t` as a map. A page that is not there stands for 512 zeros.
-/

namespace MacOnLinux.Kv

open List BitVec Option

/-! ## The list as a map -/

structure PagesOk (ps : List IoPage) : Prop where
  sorted : ps.Pairwise (·.mphys < ·.mphys)
  aligned : ∀ p ∈ ps, p.mphys &&& pte1Rpn = p.mphys

def pageAt (ps : List IoPage) (mb : Word) : Option IoPage := ps.find? (·.mphys = mb)

def slotAt (ps : List IoPage) (a : Word) : Option Word :=
  (pageAt ps (a &&& pte1Rpn)).map (·.usrData (ioIndex a))

def slot (ps : List IoPage) (a : Word) : Word := (slotAt ps a).getD 0

variable {ps : List IoPage} {mb : Word}

variable {p q : IoPage} {l ps' ps'' ps : List IoPage} {a base mbase : Word} {m n num : Nat}

theorem PagesOk.tail (h : PagesOk (p :: ps)) : PagesOk ps :=
  ⟨(pairwise_cons.mp h.sorted).2, (forall_mem_cons.mp h.aligned).2⟩

theorem PagesOk.lt (h : PagesOk (p :: ps)) (hq : q ∈ ps) : p.mphys < q.mphys :=
  (pairwise_cons.mp h.sorted).1 q hq

theorem PagesOk.gt (h : PagesOk (p :: ps)) (hlt : mb < p.mphys) : ∀ q ∈ p :: ps, mb < q.mphys :=
  forall_mem_cons.mpr ⟨hlt, fun _ hq => BitVec.lt_trans hlt (h.lt hq)⟩

theorem pageAt_of_lt (h : ∀ q ∈ ps, mb < q.mphys) : pageAt ps mb = none := by
  unfold pageAt
  rw [find?_eq_none]
  intro q hq
  have hlt := h q hq
  have : q.mphys ≠ mb := by bv_omega
  simpa using this

theorem pageAt_cons : pageAt (p :: ps) mb = if p.mphys = mb then some p else pageAt ps mb := by
  unfold pageAt
  split <;> simp_all

theorem findIoPage_eq (h : PagesOk ps) (mphys : Word) : findIoPage mphys ps = pageAt ps mphys := by
  induction ps with
  | nil => rfl
  | cons p ps ih =>
    unfold findIoPage
    split
    · rw [pageAt_cons]
      split
      · rfl
      · exact ih h.tail
    · exact (pageAt_of_lt (h.gt (by bv_omega))).symm

theorem hasIoPage_eq (h : PagesOk ps) (mb : Word) : hasIoPage mb ps = (pageAt ps mb).isSome := by
  induction ps with
  | nil => rfl
  | cons p ps ih =>
    unfold hasIoPage
    split
    · rw [pageAt_cons, if_neg (by bv_omega), ih h.tail]
    · by_cases he : p.mphys = mb
      · rw [pageAt_cons, if_pos he, decide_eq_true he, isSome_some]
      · rw [pageAt_of_lt (h.gt (by bv_omega)), decide_eq_false he, isSome_none]

/-! ## Changing one page -/

structure One (mb : Word) (l : List IoPage) : Prop where
  mphys : ∀ p ∈ l, p.mphys = mb
  length : l.length ≤ 1

theorem One.nil : One mb [] := ⟨nofun, Nat.zero_le 1⟩

def newPage (found : IoPage → List IoPage) (missing : List IoPage) : Option IoPage → List IoPage
  | some p => found p
  | none => missing

theorem One.pageAt_eq (h : One mb l) (x : Word) : pageAt l x = if x = mb then l.head? else none := by
  match l, h with
  | [], _ => exact (ite_self none).symm
  | [p], h =>
    have hp := h.mphys p mem_cons_self
    rw [pageAt_cons, hp]
    simp only [eq_comm (a := mb)]
    rfl
  | _ :: _ :: _, h => exact absurd h.length (by simp)

theorem One.append (h : One mb l) (hmb : mb &&& pte1Rpn = mb) (hps : PagesOk ps)
    (hgt : ∀ p ∈ ps, mb < p.mphys) :
    PagesOk (l ++ ps) ∧ ∀ x, pageAt (l ++ ps) x = if x = mb then l.head? else pageAt ps x := by
  refine ⟨⟨?_, ?_⟩, ?_⟩
  · refine pairwise_append.mpr ⟨?_, hps.sorted, ?_⟩
    · match l, h.length with
      | [], _ => exact List.Pairwise.nil
      | [p], _ => exact pairwise_singleton _ p
    · intro p hp q hq
      rw [h.mphys p hp]
      exact hgt q hq
  · intro p hp
    rcases mem_append.mp hp with hp | hp
    · rw [h.mphys p hp]
      exact hmb
    · exact hps.aligned p hp
  intro x
  have happ : pageAt (l ++ ps) x = (pageAt l x).or (pageAt ps x) := find?_append
  rw [happ, h.pageAt_eq]
  split
  · subst_vars
    rw [pageAt_of_lt hgt, or_none]
  · rfl

theorem withIoPage_spec {found : IoPage → List IoPage} {missing : List IoPage} (h : PagesOk ps)
    (hmb : mb &&& pte1Rpn = mb) (hf : ∀ p, p.mphys = mb → One mb (found p)) (hm : One mb missing) :
    PagesOk (withIoPage mb found missing ps) ∧ ∀ x, pageAt (withIoPage mb found missing ps) x =
        if x = mb then (newPage found missing (pageAt ps mb)).head? else pageAt ps x := by
  induction ps with
  | nil =>
    obtain ⟨h1, h2⟩ := hm.append hmb h nofun
    rw [append_nil] at h1 h2
    exact ⟨h1, h2⟩
  | cons p ps ih =>
    unfold withIoPage
    split
    · rename_i hlt
      obtain ⟨h1, h2⟩ := ih h.tail
      refine ⟨⟨pairwise_cons.mpr ⟨?_, h1.sorted⟩, ?_⟩, ?_⟩
      · intro q hq
        by_cases hqm : q.mphys = mb
        · rw [hqm]
          exact hlt
        have hsome : (pageAt ps q.mphys).isSome := by
          rw [← (h2 q.mphys).trans (if_neg hqm)]
          exact find?_isSome.mpr ⟨q, hq, by simp⟩
        obtain ⟨q', hq', he⟩ := find?_isSome.mp hsome
        rw [← of_decide_eq_true he]
        exact h.lt hq'
      · intro q hq
        rcases mem_cons.mp hq with rfl | hq
        · exact h.aligned q mem_cons_self
        · exact h1.aligned q hq
      intro x
      have hne : p.mphys ≠ mb := by bv_omega
      rw [pageAt_cons, h2 x, pageAt_cons, pageAt_cons, if_neg hne]
      by_cases hx : x = mb
      · subst hx
        rw [if_neg hne, if_pos rfl, if_pos rfl]
      · rw [if_neg hx, if_neg hx]
    · split_ifs with he
      · obtain ⟨h1, h2⟩ := (hf p he).append hmb h.tail (fun q hq => he ▸ h.lt hq)
        refine ⟨h1, fun x => ?_⟩
        rw [h2 x, pageAt_cons, pageAt_cons, if_pos he]
        by_cases hx : x = mb
        · rw [if_pos hx, if_pos hx]
          rfl
        · rw [if_neg hx, if_neg hx, if_neg (fun hp => hx (hp.symm.trans he))]
      · have hgt : mb < p.mphys := by bv_omega
        rw [pageAt_of_lt (h.gt hgt)]
        exact hm.append hmb h (h.gt hgt)

/-! ## Addresses -/

theorem rpn_toNat (a : Word) : (a &&& pte1Rpn).toNat = a.toNat / 4096 * 4096 := and_high a 12

theorem rpn_eq_iff {b : Word} : a &&& pte1Rpn = b &&& pte1Rpn ↔ a.toNat / 4096 = b.toNat / 4096 := by
  rw [← toNat_inj, rpn_toNat, rpn_toNat]
  omega

theorem rpn_rpn (a : Word) : a &&& pte1Rpn &&& pte1Rpn = a &&& pte1Rpn := by
  rw [BitVec.and_assoc, BitVec.and_self]

theorem ioIndex_eq (a : Word) : ioIndex a = a.toNat % 4096 / 8 := by
  unfold ioIndex
  rw [toNat_ushiftRight, Nat.shiftRight_eq_div_pow]
  exact congrArg (· / 8) (and_low a 12 (by decide))

def Inside (base : Word) (n : Nat) (a : Word) : Prop := (a - base).toNat < n

instance (base : Word) (n : Nat) (a : Word) : Decidable (Inside base n a) := Nat.decLt _ _

theorem not_inside_zero (base a : Word) : ¬ Inside base 0 a := Nat.not_lt_zero _

theorem inside_append (h : m + n ≤ 2 ^ 32) (a : Word) :
    Inside base (m + n) a ↔ Inside base m a ∨ Inside (base + BitVec.ofNat 32 m) n a := by
  unfold Inside
  rw [toNat_sub, toNat_sub, toNat_add, toNat_ofNat]
  omega

theorem inside_page (h8 : mbase.toNat % 8 = 0) (hpage : mbase.toNat % 4096 + 8 * num ≤ 4096) :
    Inside mbase (8 * num) a ↔ a &&& pte1Rpn = mbase &&& pte1Rpn ∧
      ioIndex mbase ≤ ioIndex a ∧ ioIndex a < ioIndex mbase + num := by
  unfold Inside
  rw [rpn_eq_iff, ioIndex_eq, ioIndex_eq, toNat_sub]
  omega

/-! ## One round of the loops -/

structure Filled (ps ps' : List IoPage) (base : Word) (n : Nat) (data : Word) : Prop where
  slot : ∀ a, slot ps' a = if Inside base n a then data else slot ps a
  pages : ∀ x p, pageAt ps x = some p → ∃ p', pageAt ps' x = some p' ∧ p'.mePhys = p.mePhys
  covered : ∀ a, Inside base n a → (pageAt ps' (a &&& pte1Rpn)).isSome

theorem Filled.refl (ps : List IoPage) (base data : Word) : Filled ps ps base 0 data :=
  ⟨fun a => (if_neg (not_inside_zero base a)).symm, fun _ p hp => ⟨p, hp, rfl⟩,
    fun a h => absurd h (not_inside_zero base a)⟩

theorem Filled.trans {data : Word} (hmn : m + n ≤ 2 ^ 32) (h : Filled ps ps' base m data)
    (h' : Filled ps' ps'' (base + BitVec.ofNat 32 m) n data) :
    Filled ps ps'' base (m + n) data := by
  refine ⟨?_, ?_, ?_⟩
  · intro a
    rw [h'.slot, h.slot]
    simp only [inside_append hmn]
    split <;> split <;> simp_all
  · intro x p hp
    obtain ⟨p', hp', he'⟩ := h.pages x p hp
    obtain ⟨p'', hp'', he''⟩ := h'.pages x p' hp'
    exact ⟨p'', hp'', he''.trans he'⟩
  intro a ha
  rcases (inside_append hmn a).mp ha with ha | ha
  · obtain ⟨p, hp⟩ := isSome_iff_exists.mp (h.covered a ha)
    obtain ⟨p', hp', _⟩ := h'.pages _ p hp
    rw [hp', isSome_some]
  · exact h'.covered a ha

theorem slot_of_pageAt (h : pageAt ps (a &&& pte1Rpn) = some p) : slot ps a = p.usrData (ioIndex a) := by
  unfold slot slotAt
  rw [h]
  rfl

theorem slot_of_none (h : pageAt ps (a &&& pte1Rpn) = none) : slot ps a = 0 := by
  unfold slot slotAt
  rw [h]
  rfl

theorem slot_congr (h : pageAt ps' (a &&& pte1Rpn) = pageAt ps (a &&& pte1Rpn)) :
    slot ps' a = slot ps a := by
  unfold slot slotAt
  rw [h]

theorem fill_one (h : p.mphys = mb) (i num : Nat) (data : Word) : One mb [p.fill i num data] :=
  ⟨fun q hq => by rw [mem_singleton.mp hq]; exact h, le_refl 1⟩

theorem fillPage_spec (h : PagesOk ps) (h8 : mbase.toNat % 8 = 0)
    (hpage : mbase.toNat % 4096 + 8 * num ≤ 4096) (data page : Word) (missing : List IoPage)
    (hm : missing = [] ∧ (pageAt ps (mbase &&& pte1Rpn)).isSome ∨
      missing = [IoPage.fill ⟨page, mbase &&& pte1Rpn, fun _ => 0⟩ (ioIndex mbase) num data]) :
    PagesOk (withIoPage (mbase &&& pte1Rpn) (fun p => [p.fill (ioIndex mbase) num data]) missing ps) ∧
      Filled ps (withIoPage (mbase &&& pte1Rpn) (fun p => [p.fill (ioIndex mbase) num data]) missing ps)
        mbase (8 * num) data := by
  have hone : One (mbase &&& pte1Rpn) missing := by
    rcases hm with ⟨rfl, _⟩ | rfl
    · exact One.nil
    · exact fill_one (p := ⟨page, mbase &&& pte1Rpn, fun _ => 0⟩) rfl _ _ _
  obtain ⟨hok, hat⟩ := withIoPage_spec h (rpn_rpn mbase)
    (fun p hp => fill_one hp (ioIndex mbase) num data) hone
  -- the page that is there afterwards
  obtain ⟨q, hq, hslots, hold⟩ : ∃ q : IoPage,
      (newPage (fun p => [p.fill (ioIndex mbase) num data]) missing
        (pageAt ps (mbase &&& pte1Rpn))).head? = some q ∧
      (∀ a, a &&& pte1Rpn = mbase &&& pte1Rpn → q.usrData (ioIndex a) =
        if ioIndex mbase ≤ ioIndex a ∧ ioIndex a < ioIndex mbase + num then data else slot ps a) ∧
      ∀ p, pageAt ps (mbase &&& pte1Rpn) = some p → q.mePhys = p.mePhys := by
    cases hp : pageAt ps (mbase &&& pte1Rpn) with
    | some p =>
      refine ⟨_, rfl, ?_, ?_⟩
      · intro a ha
        rw [slot_of_pageAt (ha ▸ hp)]
        rfl
      · rintro _ ⟨⟩
        rfl
    | none =>
      rcases hm with ⟨_, hs⟩ | rfl
      · rw [hp] at hs
        cases hs
      · refine ⟨_, rfl, ?_, nofun⟩
        intro a ha
        rw [slot_of_none (ha ▸ hp)]
        rfl
  refine ⟨hok, ?_, ?_, ?_⟩
  · intro a
    simp only [inside_page h8 hpage]
    by_cases ha : a &&& pte1Rpn = mbase &&& pte1Rpn
    · have hpa := hat (a &&& pte1Rpn)
      rw [if_pos ha, hq] at hpa
      rw [slot_of_pageAt hpa, hslots a ha]
      simp [ha]
    · rw [if_neg (fun hc => ha hc.1)]
      refine slot_congr ?_
      rw [hat, if_neg ha]
  · intro x p hp
    rw [hat]
    split_ifs with hx
    · rw [hx] at hp
      exact ⟨q, hq, hold p hp⟩
    · exact ⟨p, hp, rfl⟩
  · intro a ha
    rw [hat, if_pos ((inside_page h8 hpage).mp ha).1, hq]
    rfl

structure Emptied (ps ps' : List IoPage) (base : Word) (n : Nat) : Prop where
  slot : ∀ a, slot ps' a = if Inside base n a then 0 else slot ps a
  pages : ∀ x p', pageAt ps' x = some p' → ∃ p, pageAt ps x = some p ∧ p'.mePhys = p.mePhys

theorem Emptied.trans (hmn : m + n ≤ 2 ^ 32) (h : Emptied ps ps' base m)
    (h' : Emptied ps' ps'' (base + BitVec.ofNat 32 m) n) :
    Emptied ps ps'' base (m + n) := by
  refine ⟨?_, ?_⟩
  · intro a
    rw [h'.slot, h.slot]
    simp only [inside_append hmn]
    split <;> split <;> simp_all
  · intro x p'' hp''
    obtain ⟨p', hp', he'⟩ := h'.pages x p'' hp''
    obtain ⟨p, hp, he⟩ := h.pages x p' hp'
    exact ⟨p, hp, he'.trans he⟩

def clearPage (i num : Nat) (p : IoPage) : List IoPage :=
  if (p.fill i num 0).isEmpty then [] else [p.fill i num 0]

theorem isEmpty_usrData (h : p.isEmpty) (a : Word) : p.usrData (ioIndex a) = 0 := by
  have hlt : ioIndex a < 512 := by
    rw [ioIndex_eq]
    omega
  exact of_decide_eq_true (all_eq_true.mp h _ (mem_range.mpr hlt))

theorem clearPage_one (h : p.mphys = mb) (i num : Nat) : One mb (clearPage i num p) := by
  unfold clearPage
  split
  · exact One.nil
  · exact fill_one h i num 0

theorem clearPage_spec (h : PagesOk ps) (h8 : mbase.toNat % 8 = 0)
    (hpage : mbase.toNat % 4096 + 8 * num ≤ 4096) (hp : pageAt ps (mbase &&& pte1Rpn) = some p) :
    PagesOk (withIoPage (mbase &&& pte1Rpn) (clearPage (ioIndex mbase) num) [] ps) ∧
      Emptied ps (withIoPage (mbase &&& pte1Rpn) (clearPage (ioIndex mbase) num) [] ps)
        mbase (8 * num) := by
  obtain ⟨hok, hat⟩ := withIoPage_spec h (rpn_rpn mbase) (fun p hp => clearPage_one hp (ioIndex mbase) num) One.nil
  simp only [hp, newPage] at hat
  have hslots : ∀ a, a &&& pte1Rpn = mbase &&& pte1Rpn →
      slot (withIoPage (mbase &&& pte1Rpn) (clearPage (ioIndex mbase) num) [] ps) a =
        (p.fill (ioIndex mbase) num 0).usrData (ioIndex a) := by
    intro a ha
    have hpa := hat (a &&& pte1Rpn)
    rw [if_pos ha] at hpa
    by_cases hempty : (p.fill (ioIndex mbase) num 0).isEmpty
    · rw [isEmpty_usrData hempty]
      refine slot_of_none (hpa.trans ?_)
      unfold clearPage
      rw [if_pos hempty]
      rfl
    · refine slot_of_pageAt (hpa.trans ?_)
      unfold clearPage
      rw [if_neg hempty]
      rfl
  refine ⟨hok, ?_, ?_⟩
  · intro a
    simp only [inside_page h8 hpage]
    by_cases ha : a &&& pte1Rpn = mbase &&& pte1Rpn
    · rw [hslots a ha, slot_of_pageAt (ha ▸ hp)]
      simp only [ha, true_and]
      rfl
    · rw [if_neg (fun hc => ha hc.1)]
      refine slot_congr ?_
      rw [hat, if_neg ha]
  · intro x p' hp'
    rw [hat] at hp'
    split at hp'
    · rename_i hx
      unfold clearPage at hp'
      split at hp'
      · cases hp'
      · cases hp'
        rw [hx]
        exact ⟨p, hp, rfl⟩
    · exact ⟨p', hp', rfl⟩

theorem noPage_emptied (hn : mbase.toNat % 4096 + n ≤ 4096)
    (hp : pageAt ps (mbase &&& pte1Rpn) = none) : Emptied ps ps mbase n := by
  refine ⟨?_, fun x p hx => ⟨p, hx, rfl⟩⟩
  intro a
  split_ifs with hin
  · unfold Inside at hin
    have hpage : a &&& pte1Rpn = mbase &&& pte1Rpn := by
      rw [rpn_eq_iff]
      rw [toNat_sub] at hin
      omega
    exact slot_of_none (hpage ▸ hp)
  · rfl

/-! ## The loops -/

def ioPagesOf (mbase : Word) (size : Int) : Nat :=
  if size ≤ 0 then 0 else (mbase.toNat % 4096 + size.toNat + 4095) / 4096

theorem ioNum_spec {size : Int} (h8 : mbase.toNat % 8 = 0) (hs8 : size % 8 = 0) (hpos : 0 < size)
    (hmax : size ≤ 2 ^ 31) :
    mbase.toNat % 4096 + 8 * ioNum mbase size ≤ 4096 ∧ (8 * ioNum mbase size : Int) ≤ size ∧
      (mbase + BitVec.ofNat 32 (8 * ioNum mbase size)).toNat % 8 = 0 ∧
      ioPagesOf (mbase + BitVec.ofNat 32 (8 * ioNum mbase size)) (size - 8 * ioNum mbase size) + 1 =
        ioPagesOf mbase size := by
  obtain ⟨k, rfl⟩ : ∃ k : Nat, size = 8 * k := ⟨(size / 8).toNat, by omega⟩
  have hnum : ioNum mbase (8 * k) = min k (512 - mbase.toNat % 4096 / 8) := by
    unfold ioNum
    rw [ioIndex_eq, Int.mul_ediv_cancel_left _ (by decide), Int.toNat_natCast]
  have hk : ioNum mbase (8 * k) ≤ k := hnum ▸ min_le_left _ _
  have hpage : ioNum mbase (8 * k) ≤ 512 - mbase.toNat % 4096 / 8 := hnum ▸ min_le_right _ _
  have hend : ioNum mbase (8 * k) = k ∨ ioNum mbase (8 * k) = 512 - mbase.toNat % 4096 / 8 :=
    hnum ▸ min_choice k _
  generalize ioNum mbase (8 * k) = num at hk hpage hend ⊢
  have hbase : (mbase + BitVec.ofNat 32 (8 * num)).toNat = (mbase.toNat + 8 * num) % 2 ^ 32 := by
    rw [toNat_add, toNat_ofNat]
    omega
  have hin : mbase.toNat % 4096 + 8 * num ≤ 4096 := by omega
  refine ⟨hin, by omega, by omega, ?_⟩
  unfold ioPagesOf
  have hpos' : ¬ (8 * k : Int) ≤ 0 := by omega
  rw [if_neg hpos']
  by_cases hlast : num = k
  · rw [if_pos (by omega)]
    omega
  · rw [if_neg (by omega)]
    omega

def FillsPart (ps : List IoPage) (mbase : Word) (size : Int) (data : Word) (room : Nat) (ps' : List IoPage) (rc : Nat) :
    Prop :=
  ∃ n, PagesOk ps' ∧ n ≤ size.toNat ∧ Filled ps ps' mbase n data ∧ (ioPagesOf mbase size ≤ room → rc = 0) ∧
    (rc = 0 → n = size.toNat)

theorem addIoLoop_spec (data : Word) : ∀ (fuel : Nat) (ps : List IoPage) (pages : List Word)
    (mbase : Word) (size : Int), PagesOk ps → mbase.toNat % 8 = 0 → size % 8 = 0 → size ≤ 2 ^ 31 →
    ioPagesOf mbase size < fuel →
    ∃ ps' rc, addIoLoop data fuel ps pages mbase size = some (ps', rc) ∧
      FillsPart ps mbase size data pages.length ps' rc := by
  intro fuel
  induction fuel with
  | zero =>
    intros
    omega
  | succ fuel ih =>
    intro ps pages mbase size h h8 hs8 hmax hfuel
    unfold addIoLoop
    split_ifs with hpos
    · obtain ⟨hin, hle, h8', hrounds⟩ := ioNum_spec h8 hs8 hpos hmax
      -- one more page, then the rest of the range
      have hnext : ∀ (missing : List IoPage) (pages' : List Word) (page : Word),
          (missing = [] ∧ (pageAt ps (mbase &&& pte1Rpn)).isSome ∨ missing =
            [IoPage.fill ⟨page, mbase &&& pte1Rpn, fun _ => 0⟩ (ioIndex mbase) (ioNum mbase size) data]) →
          pages.length ≤ pages'.length + 1 →
          ∃ ps' rc, addIoLoop data fuel (withIoPage (mbase &&& pte1Rpn)
              (fun p => [p.fill (ioIndex mbase) (ioNum mbase size) data]) missing ps) pages'
              (mbase + BitVec.ofNat 32 (8 * ioNum mbase size)) (size - 8 * ioNum mbase size) =
                some (ps', rc) ∧ FillsPart ps mbase size data pages.length ps' rc := by
        intro missing pages' page hm hlen
        obtain ⟨hok, hfill⟩ := fillPage_spec h h8 hin data page missing hm
        obtain ⟨ps', rc, hrun, n, hok', hn, hfill', henough, hall⟩ :=
          ih _ pages' _ (size - 8 * ioNum mbase size) hok h8' (by omega) (by omega) (by omega)
        refine ⟨ps', rc, hrun, 8 * ioNum mbase size + n, hok', by omega, hfill.trans (by omega) hfill',
          fun hpages => henough (by omega), ?_⟩
        intro hrc
        omega
      simp only [hasIoPage_eq h]
      split_ifs with hhas
      · exact hnext [] pages 0 (.inl ⟨rfl, hhas⟩) (Nat.le_succ _)
      cases pages with
      | nil =>
        refine ⟨ps, 1, rfl, 0, h, Nat.zero_le _, Filled.refl ps mbase data, ?_, fun h1 => by cases h1⟩
        intro hpages
        rw [length_nil] at hpages
        omega
      | cons page pages => exact hnext _ pages page (.inr rfl) (le_refl _)
    · refine ⟨ps, 0, rfl, 0, h, Nat.zero_le _, Filled.refl ps mbase data, fun _ => rfl, ?_⟩
      intro _
      omega

theorem ioNum_pos {size : Int} (h8 : mbase.toNat % 8 = 0) (hs8 : size % 8 = 0) (hpos : 0 < size) :
    0 < ioNum mbase size := by
  unfold ioNum
  rw [ioIndex_eq]
  omega

def Untouched (ps ps' : List IoPage) (base : Word) (n : Nat) : Prop :=
  ∀ x, (∀ a, a &&& pte1Rpn = x → ¬ Inside base n a) → pageAt ps' x = pageAt ps x

theorem Untouched.refl (ps : List IoPage) (base : Word) (n : Nat) : Untouched ps ps base n :=
  fun _ _ => rfl

theorem Untouched.trans (hmn : m + n ≤ 2 ^ 32) (h : Untouched ps ps' base m)
    (h' : Untouched ps' ps'' (base + BitVec.ofNat 32 m) n) :
    Untouched ps ps'' base (m + n) := by
  intro x hx
  rw [h' x fun a ha hin => hx a ha ((inside_append hmn a).mpr (.inr hin)),
    h x fun a ha hin => hx a ha ((inside_append hmn a).mpr (.inl hin))]

theorem clearPage_untouched (h : PagesOk ps) (mbase : Word) (hnum : 0 < num) :
    Untouched ps (withIoPage (mbase &&& pte1Rpn) (clearPage (ioIndex mbase) num) [] ps)
      mbase (8 * num) := by
  intro x hx
  have hne : x ≠ mbase &&& pte1Rpn := by
    rintro rfl
    refine hx mbase rfl ?_
    unfold Inside
    rw [BitVec.sub_self]
    exact mul_pos (by decide) hnum
  have hspec := withIoPage_spec h (rpn_rpn mbase) (fun p hp => clearPage_one hp (ioIndex mbase) num) One.nil
  rw [hspec.2, if_neg hne]

theorem removeIoLoop_spec : ∀ (fuel : Nat) (ps : List IoPage) (mbase : Word) (size : Int), PagesOk ps →
    mbase.toNat % 8 = 0 → size % 8 = 0 → size ≤ 2 ^ 31 → ioPagesOf mbase size < fuel →
    ∃ ps', removeIoLoop fuel ps mbase size = some ps' ∧ PagesOk ps' ∧
      Emptied ps ps' mbase size.toNat ∧ Untouched ps ps' mbase size.toNat := by
  intro fuel
  induction fuel with
  | zero =>
    intros
    omega
  | succ fuel ih =>
    intro ps mbase size h h8 hs8 hmax hfuel
    unfold removeIoLoop
    split_ifs with hpos
    · obtain ⟨hin, hle, h8', hrounds⟩ := ioNum_spec h8 hs8 hpos hmax
      have hnum := ioNum_pos h8 hs8 hpos
      have hsize : 8 * ioNum mbase size + (size - 8 * ioNum mbase size).toNat = size.toNat := by omega
      simp only [hasIoPage_eq h]
      cases hp : pageAt ps (mbase &&& pte1Rpn) with
      | some p =>
        obtain ⟨hok, hempty⟩ := clearPage_spec h h8 hin hp
        obtain ⟨ps', hrun, hok', hempty', hsame'⟩ :=
          ih _ _ (size - 8 * ioNum mbase size) hok h8' (by omega) (by omega) (by omega)
        have hsame := clearPage_untouched h mbase hnum
        refine ⟨ps', hrun, hok', ?_⟩
        rw [← hsize]
        exact ⟨hempty.trans (by omega) hempty', hsame.trans (by omega) hsame'⟩
      | none =>
        have hrest : (0x1000 - (mbase &&& 0xfff)).toNat = 4096 - mbase.toNat % 4096 := by
          rw [toNat_sub, show (mbase &&& 0xfff).toNat = mbase.toNat % 2 ^ 12 from and_low mbase 12 (by decide)]
          show (2 ^ 32 - _ + 4096) % 2 ^ 32 = _
          omega
        generalize 0x1000 - (mbase &&& 0xfff) = rest at hrest ⊢
        have hbase : (mbase + rest).toNat = (mbase.toNat + (4096 - mbase.toNat % 4096)) % 2 ^ 32 := by
          rw [toNat_add, hrest]
        have hfuel' : ioPagesOf (mbase + rest) (size - rest.toNat) < fuel := by
          unfold ioPagesOf at hfuel ⊢
          rw [if_neg (by omega)] at hfuel
          split <;> omega
        obtain ⟨ps', hrun, hok', hempty', hsame'⟩ :=
          ih ps (mbase + rest) (size - rest.toNat) h (by omega) (by omega) (by omega) hfuel'
        refine ⟨ps', hrun, hok', ?_⟩
        by_cases hmore : (4096 - mbase.toNat % 4096 : Nat) < size
        · have hempty := noPage_emptied (n := 4096 - mbase.toNat % 4096) (by omega) hp
          have hofNat : rest = BitVec.ofNat 32 (4096 - mbase.toNat % 4096) := by
            rw [← hrest, ofNat_toNat, setWidth_eq]
          rw [hrest] at hempty' hsame'
          rw [hofNat] at hempty' hsame'
          rw [show size.toNat = 4096 - mbase.toNat % 4096 +
            (size - (4096 - mbase.toNat % 4096 : Nat)).toNat by omega]
          exact ⟨hempty.trans (by omega) hempty', (Untouched.refl ps _ _).trans (by omega) hsame'⟩
        · have hzero : (size - rest.toNat).toNat = 0 := by omega
          rw [hzero] at hempty' hsame'
          have hempty := noPage_emptied (n := size.toNat) (by omega) hp
          refine ⟨⟨fun a => ?_, fun x p' hp' => hempty'.pages x p' hp'⟩,
            fun x _ => hsame' x fun a _ => not_inside_zero _ a⟩
          rw [hempty'.slot]
          exact hempty.slot a
    · refine ⟨ps, rfl, h, ?_⟩
      rw [show size.toNat = 0 by omega]
      exact ⟨⟨fun a => (if_neg (not_inside_zero mbase a)).symm, fun _ p hp => ⟨p, hp, rfl⟩⟩,
        Untouched.refl ps mbase 0⟩

/-! ## add_io_trans and remove_io_trans -/

theorem ioBase_toNat (mbase : Word) : (ioBase mbase).toNat = mbase.toNat / 8 * 8 := by
  unfold ioBase
  rw [toNat_sub, toNat_and, show (7 : Word).toNat = 2 ^ 3 - 1 by rfl, Nat.and_two_pow_sub_one_eq_mod]
  omega

theorem ioSize_spec (mbase : Word) (size : Int) :
    ioSize mbase size % 8 = 0 ∧ ioSize mbase size < 2 ^ 31 := by
  unfold ioSize
  generalize BitVec.ofInt 32 size + (mbase &&& 7) + 7 = x
  have h8 : (x &&& ~~~(7 : Word)).toNat = x.toNat / 8 * 8 := and_high x 3
  rw [toInt_eq_toNat_cond]
  split <;> omega

theorem ioRounds_gt (mbase : Word) (size : Int) :
    ioPagesOf (ioBase mbase) (ioSize mbase size) < ioRounds := by
  have := (ioSize_spec mbase size).2
  unfold ioPagesOf ioRounds
  split <;> omega

/-- Without a page for each new one, only the first part of the range is filled. -/
theorem addIoTrans_spec {k : Kv} (h : PagesOk k.io.ioPages) (mbase : Word) (size : Int) (data : Word)
    (pages : List Word) :
    ∃ ps rc, k.addIoTrans mbase size data pages = some ({ k with io := { k.io with ioPages := ps } }, rc) ∧
      FillsPart k.io.ioPages (ioBase mbase) (ioSize mbase size) data pages.length ps rc := by
  obtain ⟨h8, hmax⟩ := ioSize_spec mbase size
  obtain ⟨ps, rc, hrun, hfills⟩ := addIoLoop_spec data ioRounds k.io.ioPages
    pages (ioBase mbase) (ioSize mbase size) h (by rw [ioBase_toNat]; omega) h8 (by omega)
    (ioRounds_gt mbase size)
  refine ⟨ps, rc, ?_, hfills⟩
  unfold addIoTrans
  rw [hrun, some_bind]

theorem removeIoTrans_spec {k : Kv} (h : PagesOk k.io.ioPages) (mbase : Word) (size : Int) :
    ∃ ps, k.removeIoTrans mbase size = some { k with io := { k.io with ioPages := ps } } ∧
      PagesOk ps ∧ Emptied k.io.ioPages ps (ioBase mbase) (ioSize mbase size).toNat ∧
      Untouched k.io.ioPages ps (ioBase mbase) (ioSize mbase size).toNat := by
  obtain ⟨h8, hmax⟩ := ioSize_spec mbase size
  obtain ⟨ps, hrun, hok, hempty, hsame⟩ := removeIoLoop_spec ioRounds k.io.ioPages (ioBase mbase)
    (ioSize mbase size) h (by rw [ioBase_toNat]; omega) h8 (by omega) (ioRounds_gt mbase size)
  refine ⟨ps, ?_, hok, hempty, hsame⟩
  unfold removeIoTrans
  rw [hrun, some_bind]

end MacOnLinux.Kv
