import MacOnLinux.Lib.Linked
import Mathlib.Data.List.Perm.Subperm

/-! # Host interrupts (`drivers/hostirq.c`)

The mapped interrupts are on a list that runs through the table, with -1 for its end; -1 is also the
link of an entry that is not in use. `kmod/Linux/hostirq.c` holds the interrupts.
-/

namespace MacOnLinux.HostIrq

open Function Linked List Option

def hostIrqCount : Int := 64

/-- `hostirq_mapping` with the two ends of the list, and the bits of `mapped_irqs`. -/
structure State where
  next : Int → Int
  vmirq : Int → Int
  first : Int
  last : Int
  grabbed : Int → Bool

def outside (hostirq : Int) : Bool := hostirq < 0 || hostirq ≥ hostIrqCount

/-! ## The kernel module -/

/-- `grab_host_irq`; `refused` is the result of `request_irq`. -/
def grabHostIrq (irq : Int) (refused : Bool) (s : State) : Bool × State :=
  if outside irq || s.grabbed irq then (false, s)
  else if refused then (true, s)
  else (false, { s with grabbed := update s.grabbed irq true })

def releaseHostIrq (irq : Int) (s : State) : State :=
  if outside irq || !s.grabbed irq then s
  else { s with grabbed := update s.grabbed irq false }

/-! ## The table -/

def hostirqInit : State := ⟨fun _ => -1, fun _ => 0, -1, -1, fun _ => false⟩

def record (hostirq vmirq : Int) (s : State) : State :=
  let s := { s with vmirq := update s.vmirq hostirq vmirq }
  if s.next hostirq = -1 then
    { s with
      next := if s.last ≠ -1 then update s.next s.last hostirq else s.next
      last := hostirq
      first := if s.first = -1 then hostirq else s.first }
  else s

def hostirqMap (hostirq vmirq : Int) (refused : Bool) (s : State) : Int × State :=
  if outside hostirq then (-1, s)
  else
    let r := grabHostIrq hostirq refused s
    if r.1 then (-1, r.2) else (0, record hostirq vmirq r.2)

-- Enough for a walk over the whole table.
def rounds : Nat := 65

def unlink (hostirq : Int) (s : State) : Option State := do
  let i ← scan s.next (fun i => i = -1 || s.next i = hostirq) rounds s.first
  if i = -1 then some s
  else
    some { s with
      next := update s.next i (s.next hostirq)
      last := if hostirq = s.last then i else s.last }

/-- `hostirq_unmap` after the release; `none` when the walk does not end. -/
def delist (hostirq : Int) (s : State) : Option State := do
  let s ←
    if hostirq = s.first then
      some { s with first := s.next hostirq, last := if hostirq = s.last then -1 else s.last }
    else unlink hostirq s
  some { s with next := update s.next hostirq (-1) }

def hostirqUnmap (hostirq : Int) (s : State) : Option State :=
  if outside hostirq then some s else delist hostirq (releaseHostIrq hostirq s)

def updateLoop (s : State) (bits : Int → Bool) : Nat → Int → Option (List (Int × Bool))
  | 0, _ => none
  | fuel + 1, i =>
    if i = -1 then some []
    else (updateLoop s bits fuel (s.next i)).map ((s.vmirq i, bits i) :: ·)

def hostirqUpdateIrqs (s : State) (bits : Int → Bool) : Option (List (Int × Bool)) :=
  updateLoop s bits rounds s.first

def cleanupLoop : Nat → Int → State → Option State
  | 0, _, _ => none
  | fuel + 1, i, s =>
    if i = -1 then some s
    else
      let s := releaseHostIrq i s
      let s := { s with next := update s.next i (-1) }
      cleanupLoop fuel (s.next i) s

def hostirqCleanup (s : State) : Option State :=
  (cleanupLoop rounds s.first s).map fun s => { s with first := -1, last := -1 }

/-! ## Histories -/

inductive Call
  | map (hostirq vmirq : Int) (refused : Bool)
  | unmap (hostirq : Int)
  deriving DecidableEq, Repr

def step : Call → State → Option State
  | .map hostirq vmirq refused, s => some (hostirqMap hostirq vmirq refused s).2
  | .unmap hostirq, s => hostirqUnmap hostirq s

def after : List Call → Option State
  | [] => some hostirqInit
  | c :: cs => (after cs).bind (step c)

def mapping : List Call → Int → Option Int
  | [] => fun _ => none
  | .map hostirq vmirq refused :: cs =>
    if !outside hostirq && ((mapping cs hostirq).isSome || !refused) then
      update (mapping cs) hostirq (some vmirq)
    else mapping cs
  | .unmap hostirq :: cs => update (mapping cs) hostirq none

/-- The list has each mapped interrupt once and ends at `last_mapping`. -/
def Listed (s : State) (m : Int → Option Int) : Prop :=
  ∃ irqs : List Int, Seg s.next s.first irqs (-1) ∧ irqs.Nodup ∧ (∀ i, i ∈ irqs ↔ (m i).isSome) ∧
    s.last = irqs.getLastD (-1) ∧
    ∀ bits, hostirqUpdateIrqs s bits = some (irqs.map fun i => ((m i).getD 0, bits i))

def Released (s : State) (m : Int → Option Int) : Prop :=
  ∃ s', hostirqCleanup s = some s' ∧ ∀ i, (m i).isSome → s'.grabbed i = false

/-- No call maps the interrupt that is the last one of the list. -/
def NoRemap (cs : List Call) : Prop :=
  ∀ hostirq vmirq refused cs', (.map hostirq vmirq refused :: cs') <:+ cs → ∀ s, after cs' = some s →
    outside hostirq = false → hostirq ≠ s.last

variable {s s' : State} {m : Int → Option Int} {cs : List Call} {hostirq vmirq i : Int} {refused : Bool}

/-! ## The list -/

def State.link (s : State) : Int → Int := update s.next (-1) s.first

structure OnList (s : State) (irqs : List Int) : Prop where
  ring : Chain s.link (-1) irqs (-1)
  nodup : irqs.Nodup
  inside : ∀ i ∈ irqs, outside i = false
  unused : ∀ i, i ∉ irqs → s.next i = -1
  last : s.last = irqs.getLastD (-1)

/-- The list and the table agree with the mapping. -/
structure Inv (s : State) (m : Int → Option Int) (irqs : List Int) : Prop extends OnList s irqs where
  mem : ∀ i, i ∈ irqs ↔ (m i).isSome
  vmirq : ∀ i v, m i = some v → s.vmirq i = v
  grabbed : ∀ i, s.grabbed i = (m i).isSome

theorem outside_iff : outside i = false ↔ 0 ≤ i ∧ i < 64 := by
  simp [outside, hostIrqCount]

theorem ne_end (h : outside i = false) : i ≠ -1 := by
  rw [outside_iff] at h
  omega

theorem link_of_ne (h : i ≠ -1) : s.link i = s.next i := update_of_ne h _ _

theorem length_lt_rounds {irqs : List Int} (hd : irqs.Nodup) (hin : ∀ i ∈ irqs, outside i = false) :
    irqs.length < rounds := by
  have hsub : irqs ⊆ (range 64).map Int.ofNat := by
    intro i hi
    have h := outside_iff.mp (hin i hi)
    exact mem_map.mpr ⟨i.toNat, mem_range.mpr (by omega), by simp; omega⟩
  have hle := (subperm_of_subset hd hsub).length_le
  exact Nat.lt_succ_of_le hle

variable {irqs : List Int}

namespace OnList

section List

variable (h : OnList s irqs)

include h

theorem end_notMem : -1 ∉ irqs := fun hm => ne_end (h.inside _ hm) rfl

theorem cells_nodup : (-1 :: irqs).Nodup :=
  nodup_cons.mpr ⟨h.end_notMem, h.nodup⟩

theorem seg : Seg s.next s.first irqs (-1) := by
  have hring := h.ring
  exact (seg_update h.end_notMem).mp hring

theorem length_lt : irqs.length < rounds := length_lt_rounds h.nodup h.inside

theorem link_last : s.link s.last = -1 := by
  rw [h.last]
  exact chain_last h.ring

theorem link_unused (hi : i ∉ irqs) (hne : i ≠ -1) : s.link i = -1 := by
  rw [link_of_ne hne]
  exact h.unused i hi

theorem last_of_end (hi : i ∈ irqs) (hnext : s.next i = -1) : i = s.last := by
  rw [h.last]
  apply chain_next_eq_end h.ring h.end_notMem (mem_cons_of_mem _ hi)
  rw [link_of_ne (ne_end (h.inside i hi)), hnext]

theorem last_mem (hne : s.last ≠ -1) : s.last ∈ irqs := by
  rw [h.last] at hne ⊢
  exact (mem_cons.mp (getLastD_mem (-1) irqs)).resolve_left hne

theorem first_mem (hne : s.first ≠ -1) : s.first ∈ irqs := by
  have hhead := seg_head h.seg
  cases irqs with
  | nil => exact absurd hhead hne
  | cons x irqs => exact hhead ▸ mem_cons_self

theorem gone {xs ys : List Int} (hirqs : irqs = xs ++ i :: ys) : i ∉ xs ++ ys :=
  (nodup_cons.mp (nodup_middle.mp (hirqs ▸ h.nodup))).1

theorem setGrabbed (grabbed : Int → Bool) : OnList { s with grabbed := grabbed } irqs :=
  ⟨h.ring, h.nodup, h.inside, h.unused, h.last⟩

theorem first_iff_last : s.first = -1 ↔ s.last = -1 := by
  rw [seg_head h.seg, h.last]
  cases irqs with
  | nil => rfl
  | cons x irqs =>
    have hx : x ≠ -1 := ne_end (h.inside x mem_cons_self)
    have hlast : (x :: irqs).getLastD (-1) ≠ -1 := by
      rw [getLastD_cons]
      exact ne_end (h.inside _ (getLastD_mem x irqs))
    exact iff_of_false hx hlast

end List

end OnList

theorem updateLoop_seg {bits : Int → Bool} {fuel : Nat} (hs : Seg s.next i irqs (-1))
    (hend : -1 ∉ irqs) (hf : irqs.length < fuel) :
    updateLoop s bits fuel i = some (irqs.map fun i => (s.vmirq i, bits i)) := by
  induction irqs generalizing i fuel with
  | nil =>
    obtain _ | fuel := fuel
    · cases hf
    obtain rfl : i = -1 := hs
    rfl
  | cons x irqs ih =>
    obtain _ | fuel := fuel
    · cases hf
    obtain ⟨rfl, hs⟩ := hs
    have hne : i ≠ -1 := by
      rintro rfl
      exact hend mem_cons_self
    rw [updateLoop, if_neg hne, ih hs (fun hm => hend (mem_cons_of_mem _ hm)) (by simpa using hf)]
    rfl

theorem Inv.listed (h : Inv s m irqs) : Listed s m := by
  refine ⟨irqs, h.seg, h.nodup, h.mem, h.last, fun bits => ?_⟩
  rw [hostirqUpdateIrqs, updateLoop_seg h.seg h.end_notMem h.length_lt]
  congr 1
  apply map_congr_left
  intro i hi
  obtain ⟨v, hv⟩ := isSome_iff_exists.mp ((h.mem i).mp hi)
  rw [h.vmirq i v hv, hv]
  rfl

theorem inv_init : Inv hostirqInit (mapping []) [] where
  ring := rfl
  nodup := nodup_nil
  inside := by simp
  mem := by simp [mapping]
  unused := by simp [hostirqInit]
  last := rfl
  vmirq := by simp [mapping]
  grabbed := by simp [hostirqInit, mapping]

/-! ## hostirq_map -/

theorem grabHostIrq_eq (hin : outside hostirq = false) : grabHostIrq hostirq refused s =
    if s.grabbed hostirq || !refused then
      (false, { s with grabbed := update s.grabbed hostirq true })
    else (true, s) := by
  unfold grabHostIrq
  rw [hin, Bool.false_or]
  cases hg : s.grabbed hostirq with
  | true =>
    have hsame : update s.grabbed hostirq true = s.grabbed := by
      rw [← hg, update_eq_self]
    rw [if_pos rfl, if_pos (by simp), hsame]
  | false => cases refused <;> rfl

theorem OnList.record_new (h : OnList s irqs) (hin : outside hostirq = false) (hnew : hostirq ∉ irqs) :
    OnList (record hostirq vmirq s) (irqs ++ [hostirq]) := by
  have hne := ne_end hin
  have hlink : (record hostirq vmirq s).link = update s.link s.last hostirq := by
    unfold record
    rw [if_pos (h.unused _ hnew)]
    unfold State.link
    by_cases hlast : s.last = -1
    · rw [if_neg (not_not.mpr hlast), if_pos (h.first_iff_last.mpr hlast), hlast, update_idem]
    · rw [if_pos hlast, if_neg (fun hf => hlast (h.first_iff_last.mp hf)),
        update_comm hlast]
  have hnext : ∀ i, (record hostirq vmirq s).next i =
      if s.last ≠ -1 then update s.next s.last hostirq i else s.next i := by
    intro i
    unfold record
    rw [if_pos (h.unused _ hnew)]
    split <;> rfl
  refine ⟨?_, ?_, ?_, ?_, ?_⟩
  · have hcells : hostirq ∉ -1 :: (irqs ++ []) := by
      rw [append_nil]
      exact not_mem_cons_of_ne_of_not_mem hne hnew
    have hring := chain_link (by rw [append_nil]; exact h.ring)
      (by rw [append_nil]; exact h.cells_nodup) hcells
    have hsame : update s.link hostirq (-1) = s.link :=
      update_eq_self_iff.mpr (h.link_unused hnew hne).symm
    rw [← h.last, h.link_last, hsame] at hring
    rw [hlink]
    exact hring
  · exact nodup_append.mpr ⟨h.nodup, nodup_singleton _, by
      rintro a ha b hb rfl
      exact hnew (mem_singleton.mp hb ▸ ha)⟩
  · intro i hi
    rcases mem_append.mp hi with hi | hi
    · exact h.inside i hi
    · exact mem_singleton.mp hi ▸ hin
  · intro i hi
    rw [mem_append, not_or] at hi
    rw [hnext]
    split
    · have hil : i ≠ s.last := by
        rintro rfl
        exact hi.1 (h.last_mem ‹_›)
      rw [update_of_ne hil]
      exact h.unused i hi.1
    · exact h.unused i hi.1
  · rw [getLastD_concat]
    unfold record
    rw [if_pos (h.unused _ hnew)]

theorem OnList.record_again (h : OnList s irqs) (hold : hostirq ∈ irqs) (hne : hostirq ≠ s.last) :
    record hostirq vmirq s = { s with vmirq := update s.vmirq hostirq vmirq } := by
  unfold record
  rw [if_neg fun hnext => hne (h.last_of_end hold hnext)]

theorem OnList.record_last (h : OnList s irqs) (hold : hostirq ∈ irqs) (hlast : hostirq = s.last) :
    (record hostirq vmirq s).next hostirq = hostirq := by
  subst hlast
  have hne := ne_end (h.inside _ hold)
  have hnext : s.next s.last = -1 := by rw [← link_of_ne hne, h.link_last]
  unfold record
  rw [if_pos hnext]
  dsimp only
  rw [if_pos hne, update_self]

/-! ## hostirq_unmap -/

theorem releaseHostIrq_eq (hin : outside hostirq = false) :
    releaseHostIrq hostirq s = { s with grabbed := update s.grabbed hostirq false } := by
  unfold releaseHostIrq
  rw [hin]
  cases hg : s.grabbed hostirq with
  | true => rfl
  | false =>
    have hsame : update s.grabbed hostirq false = s.grabbed := by
      rw [← hg, update_eq_self]
    rw [hsame]
    rfl

namespace OnList

theorem link_mem (h : OnList s irqs) (hi : i ∈ irqs) : s.next i ∈ irqs ∨ s.next i = -1 := by
  obtain ⟨xs, ys, rfl⟩ := append_of_mem hi
  have hrest : Chain s.link i ([] ++ ys) (-1) := (chain_append_cons.mp h.ring).2
  have hnext : s.link i = ys.headD (-1) := chain_next_last hrest
  rw [← link_of_ne (ne_end (h.inside i hi)), hnext]
  cases ys with
  | nil => exact .inr rfl
  | cons y ys => exact .inl (by simp)

theorem delist_unused (h : OnList s irqs) (hin : outside hostirq = false) (hno : hostirq ∉ irqs) :
    delist hostirq s = some s := by
  have hne := ne_end hin
  have hfirst : hostirq ≠ s.first := by
    rintro rfl
    exact hno (h.first_mem hne)
  have hscan : scan s.next (fun i => i = -1 || s.next i = hostirq) rounds s.first = some (-1) := by
    apply scan_seg h.seg
    · intro x hx
      have hxe := ne_end (h.inside x hx)
      have hxh : s.next x ≠ hostirq := by
        rintro rfl
        rcases h.link_mem hx with hm | he
        · exact hno hm
        · exact hne he
      simp [hxe, hxh]
    · simp
    · exact h.length_lt
  have hsame : update s.next hostirq (-1) = s.next :=
    update_eq_self_iff.mpr (h.unused _ hno).symm
  simp [delist, if_neg hfirst, unlink, hscan, hsame]

def cut (hostirq q : Int) (s : State) : State :=
  if q = -1 then { s with first := s.next hostirq, last := if hostirq = s.last then q else s.last }
  else { s with
    next := update s.next q (s.next hostirq)
    last := if hostirq = s.last then q else s.last }

theorem delist_eq (h : OnList s irqs) {xs ys : List Int} (hirqs : irqs = xs ++ hostirq :: ys) :
    delist hostirq s = some { cut hostirq (xs.getLastD (-1)) s with
      next := update (cut hostirq (xs.getLastD (-1)) s).next hostirq (-1) } := by
  rcases eq_nil_or_concat xs with rfl | ⟨ws, q, rfl⟩
  · have hfirst : hostirq = s.first := by rw [seg_head h.seg, hirqs]; rfl
    simp only [delist, if_pos hfirst]
    rfl
  rw [concat_eq_append] at *
  have hq : q ≠ -1 := ne_end (h.inside q (by simp [hirqs]))
  have hno : hostirq ∉ ws ++ [q] := fun hm => h.gone hirqs (mem_append_left _ hm)
  have hring := h.ring
  rw [hirqs] at hring
  obtain ⟨hpre, -⟩ := chain_append_cons.mp hring
  have hwalk : Chain s.link (-1) ws q := (chain_append_cons.mp hpre).1
  have hseg : Seg s.next s.first ws q := by
    have hend : -1 ∉ ws := fun hm => h.end_notMem (by simp [hirqs, hm])
    exact (seg_update hend).mp hwalk
  have hnext : s.next q = hostirq := by
    rw [← link_of_ne hq]
    have := chain_last hpre
    rwa [getLastD_concat] at this
  have hfirst : hostirq ≠ s.first := by
    rw [seg_head h.seg, hirqs]
    intro he
    apply hno
    rw [he]
    cases ws <;> simp
  have hscan : scan s.next (fun i => i = -1 || s.next i = hostirq) rounds s.first = some q := by
    apply scan_seg hseg
    · intro x hx
      have hxi : x ∈ irqs := by simp [hirqs, hx]
      have hxe := ne_end (h.inside x hxi)
      have hxh : s.next x ≠ hostirq := by
        intro he
        have hxq := chain_next_eq_end hpre hno (q := x) (by simp [hx]) (by rw [link_of_ne hxe, he])
        rw [getLastD_concat] at hxq
        have hnd := (nodup_append.mp (hirqs ▸ h.nodup)).1
        exact (nodup_append.mp hnd).2.2 x hx q (by simp) hxq
      simp [hxe, hxh]
    · simp [hnext]
    · have hlen := h.length_lt
      rw [hirqs] at hlen
      simp at hlen
      omega
  simp [delist, if_neg hfirst, unlink, hscan, some_bind, if_neg hq, cut]

theorem cut_link {q : Int} (hne : hostirq ≠ -1) :
    (cut hostirq q s).link = update s.link q (s.link hostirq) := by
  rw [link_of_ne hne]
  unfold cut State.link
  split
  · subst_vars
    rw [update_idem]
  · rw [update_comm ‹_›]

theorem delist_listed (h : OnList s irqs) {xs ys : List Int} (hirqs : irqs = xs ++ hostirq :: ys) :
    ∃ s', delist hostirq s = some s' ∧ OnList s' (xs ++ ys) ∧ s'.vmirq = s.vmirq ∧
      s'.grabbed = s.grabbed := by
  have hin := h.inside hostirq (by simp [hirqs])
  have hne := ne_end hin
  have hnodup : (xs ++ hostirq :: ys).Nodup := hirqs ▸ h.nodup
  have hgone := h.gone hirqs
  let q := xs.getLastD (-1)
  have hlast : (cut hostirq q s).last = if hostirq = s.last then q else s.last := by
    unfold cut
    split <;> rfl
  refine ⟨_, h.delist_eq hirqs, ⟨?_, ?_, ?_, ?_, ?_⟩, ?_, ?_⟩
  · have hlink : State.link { cut hostirq q s with
        next := update (cut hostirq q s).next hostirq (-1) } =
        update (cut hostirq q s).link hostirq (-1) := by
      exact update_comm hne _ _ _
    have hcells : hostirq ∉ -1 :: (xs ++ ys) := not_mem_cons_of_ne_of_not_mem hne hgone
    rw [hlink, chain_update hcells, cut_link hne]
    exact chain_unlink (hirqs ▸ h.ring) (hirqs ▸ h.cells_nodup)
  · exact (nodup_cons.mp (nodup_middle.mp hnodup)).2
  · intro i hi
    refine h.inside i ?_
    rw [hirqs]
    rcases mem_append.mp hi with hi | hi <;> simp [hi]
  · intro i hi
    dsimp only
    by_cases hih : i = hostirq
    · rw [hih, update_self]
    rw [update_of_ne hih]
    have hiq : i = q → q = -1 := by
      intro he
      rcases mem_cons.mp (getLastD_mem (-1) xs) with hq | hq
      · exact hq
      · exact absurd (mem_append_left _ (he ▸ hq)) hi
    have hout : s.next i = -1 := by
      apply h.unused
      rw [hirqs]
      simp only [mem_append, mem_cons, not_or] at hi ⊢
      exact ⟨hi.1, hih, hi.2⟩
    unfold cut
    split
    · exact hout
    · rename_i hq
      dsimp only
      rw [update_of_ne fun he => hq (hiq he)]
      exact hout
  · have hold : s.last = ys.getLastD hostirq := by rw [h.last, hirqs, getLastD_append_cons]
    rw [hlast, hold]
    cases ys with
    | nil =>
      rw [append_nil]
      exact if_pos rfl
    | cons y ys =>
      rw [getLastD_append_cons, getLastD_cons, if_neg]
      intro he
      exact hgone (mem_append_right _ (he ▸ getLastD_mem y ys))
  · unfold cut
    split <;> rfl
  · unfold cut
    split <;> rfl

end OnList

/-! ## Runs -/

theorem record_frame (hostirq vmirq : Int) (s : State) :
    (record hostirq vmirq s).vmirq = update s.vmirq hostirq vmirq ∧
      (record hostirq vmirq s).grabbed = s.grabbed := by
  unfold record
  dsimp only
  split <;> exact ⟨rfl, rfl⟩

theorem Inv.changed {irqs' : List Int} {o : Option Int} (h : Inv s m irqs) (hl : OnList s' irqs')
    (hmem : ∀ i, i ∈ irqs' ↔ if i = hostirq then o.isSome else i ∈ irqs)
    (hvm : s'.vmirq = update s.vmirq hostirq (o.getD (s.vmirq hostirq)))
    (hg : s'.grabbed = update s.grabbed hostirq o.isSome) : Inv s' (update m hostirq o) irqs' := by
  refine ⟨hl, fun i => ?_, fun i v hv => ?_, fun i => ?_⟩
  · rw [hmem]
    by_cases hi : i = hostirq
    · simp [hi]
    · simp [hi, h.mem]
  · rw [hvm]
    by_cases hi : i = hostirq
    · subst hi
      rw [update_self] at hv ⊢
      rw [hv]
      rfl
    · rw [update_of_ne hi] at hv ⊢
      exact h.vmirq i v hv
  · rw [hg]
    by_cases hi : i = hostirq
    · simp [hi]
    · simp [hi, h.grabbed]

theorem Inv.map (h : Inv s m irqs) (hne : outside hostirq = false → hostirq ≠ s.last) :
    ∃ irqs', Inv (hostirqMap hostirq vmirq refused s).2
      (if !outside hostirq && ((m hostirq).isSome || !refused) then
        update m hostirq (some vmirq) else m) irqs' := by
  unfold hostirqMap
  cases hin : outside hostirq with
  | true => exact ⟨irqs, h⟩
  | false =>
    rw [grabHostIrq_eq hin, h.grabbed]
    cases hok : (m hostirq).isSome || !refused with
    | false => exact ⟨irqs, h⟩
    | true =>
      dsimp only [if_true]
      have hl := h.setGrabbed (update s.grabbed hostirq true)
      obtain ⟨hvm, hg⟩ :=
        record_frame hostirq vmirq { s with grabbed := update s.grabbed hostirq true }
      by_cases hold : hostirq ∈ irqs
      · refine ⟨irqs, h.changed ?_ (fun i => ?_) hvm hg⟩
        · have hsame : record hostirq vmirq _ = _ := hl.record_again hold (hne hin)
          refine hsame ▸ ?_
          exact ⟨h.ring, h.nodup, h.inside, h.unused, h.last⟩
        · by_cases hi : i = hostirq <;> simp [hi, hold]
      · refine ⟨irqs ++ [hostirq], h.changed (hl.record_new hin hold) (fun i => ?_) hvm hg⟩
        by_cases hi : i = hostirq <;> simp [hi]

theorem Inv.unmap (h : Inv s m irqs) : ∃ s' irqs', hostirqUnmap hostirq s = some s' ∧
    Inv s' (update m hostirq none) irqs' := by
  unfold hostirqUnmap
  -- an entry that is not listed was not mapped
  have hfree (hno : hostirq ∉ irqs) : update m hostirq none = m := by
    rw [h.mem, not_isSome_iff_eq_none] at hno
    exact update_eq_self_iff.mpr hno.symm
  cases hin : outside hostirq with
  | true =>
    have hno : hostirq ∉ irqs := by
      intro hm
      rw [h.inside _ hm] at hin
      cases hin
    rw [hfree hno]
    exact ⟨s, irqs, rfl, h⟩
  | false =>
    rw [releaseHostIrq_eq hin]
    have hl := h.setGrabbed (update s.grabbed hostirq false)
    by_cases hold : hostirq ∈ irqs
    · obtain ⟨xs, ys, hirqs⟩ := append_of_mem hold
      obtain ⟨s', hs', hl', hvm, hg⟩ := hl.delist_listed hirqs
      refine ⟨s', xs ++ ys, hs', h.changed hl' (fun i => ?_) (hvm.trans (update_eq_self _ _).symm) hg⟩
      by_cases hi : i = hostirq
      · simpa [hi] using h.gone hirqs
      · simp [hi, hirqs]
    · have hno : (m hostirq).isSome = false := by
        rw [h.mem, Bool.not_eq_true] at hold
        exact hold
      refine ⟨_, irqs, hl.delist_unused hin hold, ?_⟩
      have hsame : update s.grabbed hostirq false = s.grabbed :=
        update_eq_self_iff.mpr (by rw [h.grabbed, hno])
      rw [hfree hold, hsame]
      exact h

theorem NoRemap.tail {c : Call} (h : NoRemap (c :: cs)) : NoRemap cs :=
  fun hostirq vmirq refused cs' hsuf => h hostirq vmirq refused cs' (hsuf.trans (suffix_cons c cs))

theorem NoRemap.inv (h : NoRemap cs) : ∃ s irqs, after cs = some s ∧ Inv s (mapping cs) irqs := by
  induction cs with
  | nil => exact ⟨_, _, rfl, inv_init⟩
  | cons c cs ih =>
    obtain ⟨s, irqs, hs, hinv⟩ := ih h.tail
    rw [after, hs]
    cases c with
    | map hostirq vmirq refused =>
      obtain ⟨irqs', hinv'⟩ := hinv.map (h hostirq vmirq refused cs suffix_rfl s hs)
      exact ⟨_, irqs', rfl, hinv'⟩
    | unmap hostirq =>
      obtain ⟨s', irqs', hs', hinv'⟩ := hinv.unmap
      exact ⟨s', irqs', hs', hinv'⟩

theorem seg_stuck {a b : Int} (hself : s.next a = a) (hne : a ≠ b) : ¬ Seg s.next a irqs b := by
  intro hs
  induction irqs with
  | nil => exact hne hs
  | cons x irqs ih =>
    obtain ⟨rfl, hs⟩ := hs
    rw [hself] at hs
    exact ih hs

theorem Listed.next_ne (h : Listed s m) (hm : (m i).isSome) (hne : i ≠ -1) : s.next i ≠ i := by
  intro hself
  obtain ⟨irqs, hseg, -, hmem, -⟩ := h
  obtain ⟨xs, ys, rfl⟩ := append_of_mem ((hmem i).mpr hm)
  obtain ⟨a, -, ha⟩ := seg_append.mp hseg
  obtain rfl : a = i := ha.1
  exact seg_stuck hself hne ha

theorem Inv.map_last (h : Inv s m irqs) (hin : outside hostirq = false) (hlast : hostirq = s.last) :
    ¬ Listed (hostirqMap hostirq vmirq refused s).2 (update m hostirq (some vmirq)) := by
  have hne := ne_end hin
  have hold : hostirq ∈ irqs := hlast ▸ h.last_mem (hlast ▸ hne)
  have hsome : (m hostirq).isSome = true := (h.mem hostirq).mp hold
  have hl := h.setGrabbed (update s.grabbed hostirq true)
  intro hlisted
  refine hlisted.next_ne (i := hostirq) (by simp) hne ?_
  unfold hostirqMap
  rw [if_neg (by rw [hin]; exact Bool.false_ne_true), grabHostIrq_eq hin, h.grabbed, hsome]
  exact hl.record_last hold hlast

theorem noRemap_of_listed (h : ∀ cs', cs' <:+ cs → ∃ s, after cs' = some s ∧ Listed s (mapping cs')) :
    NoRemap cs := by
  induction cs with
  | nil =>
    intro hostirq vmirq refused cs' hsuf
    cases suffix_nil.mp hsuf
  | cons c cs ih =>
    have htail := ih fun cs' hsuf => h cs' (hsuf.trans (suffix_cons c cs))
    intro hostirq vmirq refused cs' hsuf s hs hin hlast
    rcases suffix_cons_iff.mp hsuf with heq | hsuf
    · obtain ⟨rfl, rfl⟩ := cons.inj heq
      obtain ⟨s0, irqs, hs0, hinv⟩ := htail.inv
      obtain rfl : s0 = s := some.inj (hs0.symm.trans hs)
      have hsome : (mapping cs' hostirq).isSome = true := by
        rw [← hinv.mem, hlast]
        exact hinv.last_mem (hlast ▸ ne_end hin)
      obtain ⟨s', hs', hlisted⟩ := h _ suffix_rfl
      rw [after, hs] at hs'
      obtain rfl : (hostirqMap hostirq vmirq refused s0).2 = s' := some.inj hs'
      rw [mapping, hin, hsome] at hlisted
      exact hinv.map_last hin hlast hlisted
    · exact htail hostirq vmirq refused cs' hsuf s hs hin hlast

/-! ## hostirq_cleanup -/

theorem hostirqCleanup_grabbed (h : Inv s m irqs) : ∃ s', hostirqCleanup s = some s' ∧
    ∀ i, s'.grabbed i = (decide (i ≠ s.first) && s.grabbed i) := by
  unfold hostirqCleanup rounds
  by_cases hfirst : s.first = -1
  · rw [cleanupLoop, if_pos hfirst]
    refine ⟨_, rfl, fun i => ?_⟩
    by_cases hi : i = s.first
    · have hno : (m i).isSome = false := by
        rw [← Bool.not_eq_true, ← h.mem, hi, hfirst]
        exact h.end_notMem
      rw [h.grabbed, hno, Bool.and_false]
    · simp [hi]
  · rw [cleanupLoop, if_neg hfirst]
    dsimp only
    rw [update_self]
    refine ⟨_, rfl, fun i => ?_⟩
    rw [releaseHostIrq_eq (h.inside _ (h.first_mem hfirst))]
    by_cases hi : i = s.first
    · simp [hi]
    · simp [hi]

theorem Inv.released_iff (h : Inv s m irqs) :
    Released s m ↔ ∀ i j, (m i).isSome → (m j).isSome → i = j := by
  obtain ⟨s', hs', hg⟩ := hostirqCleanup_grabbed h
  have hreleased : Released s m ↔ ∀ i, (m i).isSome → i = s.first := by
    unfold Released
    rw [hs']
    simp only [some.injEq, exists_eq_left', hg, h.grabbed]
    refine forall_congr' fun i => imp_congr_right fun hi => ?_
    simp [hi]
  rw [hreleased]
  constructor
  · intro hfirst i j hi hj
    rw [hfirst i hi, hfirst j hj]
  intro hone i hi
  refine hone i s.first hi ?_
  have hhead := seg_head h.seg
  cases irqs with
  | nil => nomatch (h.mem i).mpr hi
  | cons x irqs => exact (h.mem _).mp (hhead ▸ mem_cons_self)

/-- When the list is right, and when `hostirq_cleanup` releases everything. -/
theorem hostirqs_listed_iff (cs : List Call) :
    ((∀ cs', cs' <:+ cs → ∃ s, after cs' = some s ∧ Listed s (mapping cs')) ↔ NoRemap cs) ∧
      (NoRemap cs → ∃ s, after cs = some s ∧
        (Released s (mapping cs) ↔ ∀ i j, (mapping cs i).isSome → (mapping cs j).isSome → i = j)) := by
  refine ⟨⟨noRemap_of_listed, fun h cs' hsuf => ?_⟩, fun h => ?_⟩
  · have htail : NoRemap cs' := fun hostirq vmirq refused cs'' hsuf' =>
      h hostirq vmirq refused cs'' (hsuf'.trans hsuf)
    obtain ⟨s, irqs, hs, hinv⟩ := htail.inv
    exact ⟨s, hs, hinv.listed⟩
  · obtain ⟨s, irqs, hs, hinv⟩ := h.inv
    exact ⟨s, hs, hinv.released_iff⟩

set_option maxRecDepth 4000 in
/-- Interrupt 5 mapped twice is its own successor, and of two one is released. -/
theorem remapped_and_held :
    ((after [.map 5 9 false, .map 5 8 false]).any fun s =>
      s.first = 5 && s.next 5 = 5 && hostirqUpdateIrqs s (fun _ => true) = none) = true ∧
    ((after [.map 4 9 false, .map 3 8 false]).any fun s =>
      (hostirqCleanup s).any fun s' => !s'.grabbed 3 && s'.grabbed 4) = true := by
  decide

end MacOnLinux.HostIrq
