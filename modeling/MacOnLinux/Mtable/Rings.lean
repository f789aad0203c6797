import Mathlib.Data.List.Perm.Subperm
import MacOnLinux.Mtable.Spec

/-! # Rings and lists under writes -/

namespace MacOnLinux

open Function Linked Mtable List

variable {m m' m'' : Mtable} {g g' g'' : Rings} {x y p : Ptr} {s : Slot} {k : Key} {t : Nat}
variable {xs ys zs : List Ptr}

/-! ## Rings in memory -/

theorem RingAt.congr (hr : m.RingAt p xs) (hn : ∀ q ∈ p :: xs, m'.eaNext q = m.eaNext q)
    (hl : ∀ q ∈ xs, (m'.pent q).eaLast = (m.pent q).eaLast) : m'.RingAt p xs := by
  rcases hr with ⟨hx, h0⟩ | ⟨hx, hc, hlast⟩
  · exact .inl ⟨hx, by rw [hn p mem_cons_self, h0]⟩
  · refine .inr ⟨hx, (chain_congr hn).mpr hc, ?_⟩
    intro q hq
    rw [hl q hq]
    exact hlast q hq

theorem length_lt_fuel (hd : xs.Nodup) (hx : ∀ x ∈ xs, ∃ i < m.nextRec, x = .pterec i) :
    xs.length + 1 < m.fuel := by
  have hsub : xs ⊆ (range m.nextRec).map Ptr.pterec := by
    intro x hm
    obtain ⟨i, hi, rfl⟩ := hx x hm
    exact mem_map.mpr ⟨i, mem_range.mpr hi, rfl⟩
  have hlen := (subperm_of_subset hd hsub).length_le
  rw [length_map, length_range] at hlen
  unfold Mtable.fuel
  omega

section Ea

variable (h : EaPart m g)

include h

theorem EaPart.ringAt (ht : m.lev2 s.1 s.2.1 = some t) : m.RingAt (.slot t s.2.2) (g.ea s) := by
  have hr := h.ring s
  unfold EaRing at hr
  rwa [ht] at hr

theorem EaPart.lev2_of_mem (hx : x ∈ g.ea s) : ∃ t, m.lev2 s.1 s.2.1 = some t := by
  have hr := h.ring s
  unfold EaRing at hr
  cases ht : m.lev2 s.1 s.2.1 with
  | none => rw [ht] at hr; simp [show g.ea s = [] from hr] at hx
  | some t => exact ⟨t, rfl⟩

theorem EaPart.slot_notMem (s : Slot) (t j : Nat) : Ptr.slot t j ∉ g.ea s := by
  intro hm
  obtain ⟨k, hk, _⟩ := (h.mem s _).mp hm
  obtain ⟨i, _, hi⟩ := h.record _ k hk
  exact Ptr.noConfusion hi

theorem EaPart.mem_unique {s' : Slot} (hx : x ∈ g.ea s) (hx' : x ∈ g.ea s') : s = s' := by
  obtain ⟨k, hk, rfl⟩ := (h.mem _ _).mp hx
  obtain ⟨k', hk', rfl⟩ := (h.mem _ _).mp hx'
  rw [hk] at hk'
  cases hk'
  rfl

theorem EaPart.ring_length (s : Slot) : (g.ea s).length + 1 < m.fuel := by
  refine length_lt_fuel (h.nodup s) fun x hx => ?_
  obtain ⟨k, hk, _⟩ := (h.mem s x).mp hx
  exact h.record x k hk

/-- A write touched the cells of one ring only, and left it as the ring `xs`. -/
structure EaChange (s : Slot) (t : Nat) (xs : List Ptr) (m : Mtable) (g : Rings) (m' : Mtable) (g' : Rings) :
    Prop where
  table : m.lev2 s.1 s.2.1 = some t
  inj : ∀ r i r' i' t, m.lev2 r i = some t → m.lev2 r' i' = some t → r = r' ∧ i = i'
  lev2 : m'.lev2 = m.lev2
  nextRec : m'.nextRec = m.nextRec
  frame : ∀ q ∉ Ptr.slot t s.2.2 :: (g.ea s ++ xs), m'.eaNext q = m.eaNext q ∧ m'.pent q = m.pent q
  role : ∀ q ∉ g.ea s ++ xs, g'.role q = g.role q
  ea : g'.ea = update g.ea s xs
  ring : m'.RingAt (.slot t s.2.2) xs
  nodup : xs.Nodup
  fresh : ∀ y ∈ xs, ∀ k, g.role y = .ea k → y ∈ g.ea s
  new : ∀ y ∈ xs, ∃ k i, g'.role y = .ea k ∧ k.slot = s ∧ k.page < 2 ^ 16 ∧
    (m'.pent y).Tracks k ∧ i < m.nextRec ∧ y = .pterec i
  old : ∀ y ∈ g.ea s, y ∉ xs → ∀ k, g'.role y ≠ .ea k
  uniq : ∀ y ∈ xs, ∀ z ∈ xs, ∀ k, g'.role y = .ea k → g'.role z = .ea k → y = z

namespace EaChange

variable {s' : Slot} (hc : EaChange s t xs m g m' g')
include hc

omit h in
theorem slot_of_mem (hy : y ∈ xs) (hk : g'.role y = .ea k) :
    k.slot = s ∧ k.page < 2 ^ 16 ∧ (m'.pent y).Tracks k := by
  obtain ⟨k', _, hk', hslot, hpage, htracks, _⟩ := hc.new y hy
  rw [hk] at hk'
  cases hk'
  exact ⟨hslot, hpage, htracks⟩

/-- A record outside `xs` has the role it had, and is on another ring. -/
theorem of_notMem (hy : y ∉ xs) (hk : g'.role y = .ea k) : g.role y = .ea k ∧ k.slot ≠ s := by
  have hys : y ∉ g.ea s := fun hm => hc.old y hm hy k hk
  rw [hc.role y (by simp [hys, hy])] at hk
  exact ⟨hk, fun hks => hys ((h.mem s y).mpr ⟨k, hk, hks⟩)⟩

/-- A record of another ring is none of the cells written. -/
theorem other (hk : g.role y = .ea k) (hks : k.slot ≠ s) :
    y ∉ Ptr.slot t s.2.2 :: (g.ea s ++ xs) ∧ g'.role y = .ea k := by
  have hys : y ∉ g.ea s := fun hm => hks (h.mem_unique ((h.mem _ _).mpr ⟨k, hk, rfl⟩) hm)
  have hyx : y ∉ xs := fun hm => hys (hc.fresh y hm k hk)
  have hyp : y ≠ .slot t s.2.2 := by
    rintro rfl
    exact h.slot_notMem _ _ _ ((h.mem _ _).mpr ⟨k, hk, rfl⟩)
  exact ⟨by simp [hys, hyx, hyp], by rw [hc.role y (by simp [hys, hyx]), hk]⟩

theorem slot_other {t' : Nat} (hss : s' ≠ s) (ht' : m.lev2 s'.1 s'.2.1 = some t') :
    Ptr.slot t' s'.2.2 ∉ Ptr.slot t s.2.2 :: (g.ea s ++ xs) := by
  intro hm
  rcases mem_cons.mp hm with he | hm
  · obtain ⟨rfl, hj⟩ := Ptr.slot.injEq .. |>.mp he
    obtain ⟨hr', hi'⟩ := hc.inj _ _ _ _ _ ht' hc.table
    exact hss (Prod.ext hr' (Prod.ext hi' hj))
  rcases mem_append.mp hm with hm | hm
  · exact h.slot_notMem _ _ _ hm
  · obtain ⟨_, _, _, _, _, _, _, he⟩ := hc.new _ hm
    exact Ptr.noConfusion he

theorem eaRing (s' : Slot) : m'.EaRing s' (g'.ea s') := by
  unfold EaRing
  rw [hc.lev2, hc.ea]
  by_cases hss : s' = s
  · subst hss
    rw [hc.table, update_self]
    exact hc.ring
  rw [update_of_ne hss]
  have hr := h.ring s'
  unfold EaRing at hr
  cases ht' : m.lev2 s'.1 s'.2.1 with
  | none => rwa [ht'] at hr
  | some t' =>
    rw [ht'] at hr
    have hcell : ∀ q ∈ g.ea s', q ∉ Ptr.slot t s.2.2 :: (g.ea s ++ xs) := by
      intro q hq
      obtain ⟨k, hk, hks⟩ := (h.mem _ _).mp hq
      exact (hc.other h hk (hks ▸ hss)).1
    refine RingAt.congr hr ?_ ?_
    · intro q hq
      rcases mem_cons.mp hq with rfl | hq
      · exact (hc.frame _ (hc.slot_other h hss ht')).1
      · exact (hc.frame q (hcell q hq)).1
    · intro q hq
      rw [(hc.frame q (hcell q hq)).2]

theorem mem (s' : Slot) (y : Ptr) : y ∈ g'.ea s' ↔ ∃ k, g'.role y = .ea k ∧ k.slot = s' := by
  rw [hc.ea, update_apply]
  split_ifs with hss
  · subst hss
    constructor
    · intro hy
      obtain ⟨k, _, hk, hks, _⟩ := hc.new y hy
      exact ⟨k, hk, hks⟩
    · rintro ⟨k, hk, hks⟩
      by_contra hy
      exact (hc.of_notMem h hy hk).2 hks
  rw [h.mem s' y]
  constructor
  · rintro ⟨k, hk, hks⟩
    exact ⟨k, (hc.other h hk (hks ▸ hss)).2, hks⟩
  · rintro ⟨k, hk, rfl⟩
    have hy : y ∉ xs := fun hy => hss (hc.slot_of_mem hy hk).1
    exact ⟨k, (hc.of_notMem h hy hk).1, rfl⟩

theorem eaPart : EaPart m' g' where
  ring := hc.eaRing h
  nodup := by
    intro s'
    rw [hc.ea, update_apply]
    split
    · exact hc.nodup
    · exact h.nodup s'
  mem := hc.mem h
  pent := by
    intro y k hk
    by_cases hy : y ∈ xs
    · exact (hc.slot_of_mem hy hk).2
    · obtain ⟨hk, hks⟩ := hc.of_notMem h hy hk
      rw [(hc.frame y (hc.other h hk hks).1).2]
      exact h.pent y k hk
  uniq := by
    intro y z k hy hz
    by_cases hyx : y ∈ xs <;> by_cases hzx : z ∈ xs
    · exact hc.uniq y hyx z hzx k hy hz
    · exact absurd (hc.slot_of_mem hyx hy).1 (hc.of_notMem h hzx hz).2
    · exact absurd (hc.slot_of_mem hzx hz).1 (hc.of_notMem h hyx hy).2
    · exact h.uniq y z k (hc.of_notMem h hyx hy).1 (hc.of_notMem h hzx hz).1
  record := by
    intro y k hk
    rw [hc.nextRec]
    by_cases hy : y ∈ xs
    · obtain ⟨_, i, _, _, _, _, hi, he⟩ := hc.new y hy
      exact ⟨i, hi, he⟩
    · exact h.record y k (hc.of_notMem h hy hk).1

end EaChange

omit h in
theorem getLastD_eq_self_iff (hp : p ∉ ys) : ys.getLastD p = p ↔ ys = [] := by
  constructor
  · intro he
    cases ys with
    | nil => rfl
    | cons y ys =>
      rw [getLastD_cons] at he
      exact absurd (he ▸ getLastD_mem y ys) hp
  · rintro rfl
    rfl

theorem EaPart.ringOf (ht : m.lev2 s.1 s.2.1 = some t) (hs : g.ea s = ys ++ x :: zs) :
    Chain m.eaNext (.slot t s.2.2) (ys ++ x :: zs) (.slot t s.2.2) ∧
      ∀ q ∈ ys ++ x :: zs, ((m.pent q).eaLast = true ↔ q = zs.getLastD x) := by
  obtain ⟨_, hring⟩ := (h.ringAt ht).resolve_left (fun h0 => by simp [hs] at h0)
  rwa [hs, getLastD_append_cons] at hring

theorem EaPart.isLast_iff (ht : m.lev2 s.1 s.2.1 = some t) (hs : g.ea s = ys ++ x :: zs) :
    (m.pent x).eaLast = true ↔ zs = [] := by
  have hd := h.nodup s
  rw [hs] at hd
  rw [(h.ringOf ht hs).2 x (by simp)]
  have hx : x ∉ zs := (nodup_cons.mp (nodup_append.mp hd).2.1).1
  exact eq_comm.trans (getLastD_eq_self_iff hx)

/-- Taking `x` off its ring; the mark moves, or the slot becomes NULL. -/
theorem EaPart.unlink (ht : m.lev2 s.1 s.2.1 = some t)
    (hinj : ∀ r i r' i' t, m.lev2 r i = some t → m.lev2 r' i' = some t → r = r' ∧ i = i')
    (hs : g.ea s = ys ++ x :: zs) (hlev2 : m'.lev2 = m.lev2) (hrec : m'.nextRec = m.nextRec)
    (hnext : ∀ q ≠ x, m'.eaNext q =
      if q = ys.getLastD (.slot t s.2.2) then
        if (m.pent x).eaLast = true ∧ ys.getLastD (.slot t s.2.2) = .slot t s.2.2 then .null else m.eaNext x
      else m.eaNext q)
    (hpent : ∀ y ≠ x, m'.pent y =
      if (m.pent x).eaLast = true ∧ ys.getLastD (.slot t s.2.2) ≠ .slot t s.2.2 ∧ y = ys.getLastD (.slot t s.2.2) then
        { m.pent y with eaLast := true }
      else m.pent y)
    (hea : g'.ea = update g.ea s (ys ++ zs))
    (hrole : ∀ y ≠ x, g'.role y = g.role y) (hx : ∀ k, g'.role x ≠ .ea k) : EaPart m' g' := by
  have hnd : (ys ++ x :: zs).Nodup := hs ▸ h.nodup s
  have hxn : x ∉ ys ++ zs := (nodup_middle.mp hnd).notMem
  have hsub : ∀ y ∈ ys ++ zs, y ∈ g.ea s ∧ y ≠ x := by
    intro y hy
    have hys : y ∈ g.ea s := by rw [hs]; simp at hy ⊢; tauto
    exact ⟨hys, fun he => hxn (he ▸ hy)⟩
  have hp : (Ptr.slot t s.2.2 :: (ys ++ x :: zs)).Nodup :=
    nodup_cons.mpr ⟨hs ▸ h.slot_notMem s t s.2.2, hnd⟩
  have hpx : Ptr.slot t s.2.2 ≠ x := by
    rintro rfl; exact (nodup_cons.mp hp).1 (by simp)
  have hys : Ptr.slot t s.2.2 ∉ ys := fun hm => (nodup_cons.mp hp).1 (mem_append_left _ hm)
  simp only [h.isLast_iff ht hs, getLastD_eq_self_iff hys, ne_eq] at hnext hpent
  have hlast : ys.getLastD (.slot t s.2.2) ∈ Ptr.slot t s.2.2 :: g.ea s := hs ▸ getLastD_mem_append ..
  refine EaChange.eaPart h ⟨ht, hinj, hlev2, hrec, ?_, ?_, hea, ?_, (nodup_middle.mp hnd).of_cons, ?_, ?_, ?_, ?_⟩
  · intro q hq
    have hqx : q ≠ x := by rintro rfl; exact hq (by simp [hs])
    have hql : q ≠ ys.getLastD (.slot t s.2.2) := by
      rintro rfl
      exact hq (mem_cons.mpr ((mem_cons.mp hlast).imp_right (mem_append_left _)))
    rw [hnext q hqx, if_neg hql, hpent q hqx, if_neg (fun hh => hql hh.2.2)]
    exact ⟨rfl, rfl⟩
  · intro q hq
    exact hrole q (by rintro rfl; exact hq (by simp [hs]))
  · obtain ⟨hc, hmark⟩ := h.ringOf ht hs
    by_cases h0 : zs = [] ∧ ys = []
    · refine .inl ⟨by simp [h0], ?_⟩
      rw [hnext _ hpx]
      simp [h0]
    refine .inr ⟨fun he => h0 (append_eq_nil_iff.mp he).symm, ?_, ?_⟩
    · refine (chain_congr ?_).mpr (chain_unlink hc hp)
      intro q hq
      have hqx : q ≠ x := by
        rcases mem_cons.mp hq with rfl | hq
        · exact hpx
        · exact (hsub q hq).2
      rw [hnext q hqx, if_neg h0, update_apply]
    · intro q hq
      obtain ⟨hqs, hqx⟩ := hsub q hq
      have hold := hmark q (hs ▸ hqs)
      rw [hpent q hqx]
      cases zs with
      | nil =>
        have hnl : ¬ (m.pent q).eaLast = true := fun hl => hqx (hold.mp hl)
        have hqb : (m.pent q).eaLast = false := by simpa using hnl
        rw [append_nil]
        by_cases hq' : q = ys.getLastD (.slot t s.2.2)
        · rw [if_pos ⟨rfl, fun hy => h0 ⟨rfl, hy⟩, hq'⟩]
          exact iff_of_true rfl hq'
        · rw [if_neg (fun hh => hq' hh.2.2), hqb]
          exact iff_of_false Bool.false_ne_true hq'
      | cons z zs =>
        rw [if_neg (by simp), getLastD_append_cons, hold, getLastD_cons]
  · intro y hy k _
    exact (hsub y hy).1
  · intro y hy
    obtain ⟨hys, hyx⟩ := hsub y hy
    obtain ⟨k, hk, hks⟩ := (h.mem _ _).mp hys
    obtain ⟨hpage, htracks⟩ := h.pent y k hk
    obtain ⟨i, hi, he⟩ := h.record y k hk
    refine ⟨k, i, by rw [hrole y hyx, hk], hks, hpage, ?_, hi, he⟩
    rw [hpent y hyx]
    split
    · exact ⟨htracks.topea, htracks.sv, htracks.bit⟩
    · exact htracks
  · intro y hy hyn k hk
    have hyx : y = x := by
      rw [hs] at hy
      simp only [mem_append, mem_cons] at hy hyn
      tauto
    exact hx k (hyx ▸ hk)
  · intro y hy z hz k hky hkz
    rw [hrole y (hsub y hy).2] at hky
    rw [hrole z (hsub z hz).2] at hkz
    exact h.uniq y z k hky hkz

end Ea

/-! ## Records and lv rings -/

section Lv

variable (h : LvPart m g)

include h

theorem LvPart.not_head (hx : m.IsPlain x) : ¬ m.IsHead x := by
  intro hh
  have h1 := (h.head x hh).1
  rw [(h.plain x hx).1] at h1
  exact Bool.noConfusion h1

theorem LvPart.ne_null (hx : m.IsHead x ∨ m.IsPlain x) : x ≠ .null := by
  obtain ⟨i, _, rfl⟩ := h.bound x hx
  exact Ptr.noConfusion

theorem LvPart.ring_nodup (hh : m.IsHead p) : (p :: g.lv p).Nodup := by
  refine nodup_cons.mpr ⟨?_, h.nodup p⟩
  intro hm
  exact h.not_head (h.member p p ((h.mem p p).mp hm)).2.1 hh

theorem LvPart.ring_length (p : Ptr) : (g.lv p).length + 1 < m.fuel :=
  length_lt_fuel (h.nodup p) fun y hy => h.bound y (.inr (h.member p y ((h.mem p y).mp hy)).2.1)

theorem LvPart.ring_split (hx : g.ring x = some p) :
    ∃ as bs, g.lv p = as ++ x :: bs ∧ Chain m.lvNext p (as ++ x :: bs) p ∧
      (p :: (as ++ x :: bs)).Nodup ∧ (as ++ x :: bs).length < m.fuel := by
  obtain ⟨hh, _, _⟩ := h.member p x hx
  obtain ⟨as, bs, hs⟩ := append_of_mem ((h.mem p x).mpr hx)
  have hlen := h.ring_length p
  have hc := h.ring p hh
  have hd := h.ring_nodup hh
  rw [hs] at hc hd hlen
  exact ⟨as, bs, hs, hc, hd, Nat.lt_of_succ_lt hlen⟩

theorem LvPart.lvNext_ne_null (hx : g.ring x = some p) : m.lvNext x ≠ .null := by
  obtain ⟨hh, _, _⟩ := h.member p x hx
  obtain ⟨as, bs, hs, hc, _, _⟩ := h.ring_split hx
  have hc : Chain m.lvNext x ([] ++ bs) p := (chain_append_cons.mp hc).2
  have hn : m.lvNext x = bs.headD p := chain_next_last hc
  rw [hn]
  cases bs with
  | nil => exact h.ne_null (.inl hh)
  | cons b bs =>
    have hb : g.ring b = some p := (h.mem p b).mp (by rw [hs]; simp)
    exact h.ne_null (.inr (h.member p b hb).2.1)

end Lv

def Rings.setRole (g : Rings) (x : Ptr) (r : Role) : Rings :=
  { g with role := Function.update g.role x r }

theorem setRole_role (g : Rings) (x y : Ptr) (r : Role) :
    (g.setRole x r).role y = if y = x then r else g.role y := update_apply ..

theorem SameRecs.refl (m : Mtable) : SameRecs m m := ⟨rfl, rfl, rfl, rfl, rfl, rfl⟩

theorem SameRecs.trans (h : SameRecs m m') (h' : SameRecs m' m'') : SameRecs m m'' :=
  ⟨h'.lvranges.trans h.lvranges, h'.allocations.trans h.allocations,
    h'.allocSize.trans h.allocSize, h'.allocLimit.trans h.allocLimit, h'.nextRec.trans h.nextRec,
    h'.nextTab.trans h.nextTab⟩

theorem SameRecs.isHead (h : SameRecs m m') : m'.IsHead x ↔ m.IsHead x := by
  unfold IsHead; rw [h.lvranges]

theorem SameRecs.isPlain (h : SameRecs m m') : m'.IsPlain x ↔ m.IsPlain x := by
  unfold IsPlain; rw [h.allocations]

/-- A write to the record `x` only, which is on no lv ring if its `lv_next` changes. -/
theorem LvPart.recast (h : LvPart m g) (hsame : SameRecs m m')
    (hnext : ∀ y ≠ x, m'.lvNext y = m.lvNext y) (hpent : ∀ y ≠ x, m'.pent y = m.pent y)
    (hrole : ∀ y ≠ x, g'.role y = g.role y) (hring : g'.ring = g.ring) (hlv : g'.lv = g.lv)
    (hkept : m'.lvNext x = m.lvNext x ∨ m.IsPlain x ∧ g.ring x = none)
    (hmember : g.ring x = none ∨ g'.role x ≠ .free)
    (hlist : Seg m'.lvNext m'.freePents g'.free .null) (hnodup : g'.free.Nodup)
    (hfree : ∀ y ≠ x, y ∈ g'.free ↔ y ∈ g.free) (hfreex : x ∈ g'.free ↔ g'.role x = .free)
    (hhead : m.IsHead x →
      (m'.pent x).lvHead = true ∧ g'.role x ≠ .free ∧ ((m'.pent x).unused = true ↔ g'.role x = .idle))
    (hplain : m.IsPlain x → (m'.pent x).lvHead = false ∧ g'.role x ≠ .idle ∧
      ∀ k, g'.role x = .ea k → g.ring x = none → m'.lvNext x = .null)
    (howned : g'.role x ≠ .idle → m.IsHead x ∨ m.IsPlain x) : LvPart m' g' := by
  refine ⟨?_, hlv ▸ h.nodup, by rw [hlv, hring]; exact h.mem, ?_, hlist, hnodup, ?_, ?_, ?_, ?_, ?_⟩
  · intro q hq
    have hq := hsame.isHead.mp hq
    rw [hlv]
    refine (chain_congr fun y hy => ?_).mpr (h.ring q hq)
    by_cases hyx : y = x
    · subst hyx
      refine hkept.resolve_right ?_
      rintro ⟨hp, hr⟩
      rcases mem_cons.mp hy with rfl | hm
      · exact h.not_head hp hq
      · rw [h.mem, hr] at hm
        cases hm
    · exact hnext y hyx
  · intro q y hy
    rw [hring] at hy
    obtain ⟨h1, h2, h3⟩ := h.member q y hy
    refine ⟨hsame.isHead.mpr h1, hsame.isPlain.mpr h2, ?_⟩
    by_cases hyx : y = x
    · subst hyx
      exact hmember.resolve_left (by rw [hy]; exact nofun)
    · rw [hrole y hyx]
      exact h3
  · intro y
    by_cases hyx : y = x
    · subst hyx
      exact hfreex
    · rw [hfree y hyx, hrole y hyx]
      exact h.freeMem y
  · intro q hq
    have hq := hsame.isHead.mp hq
    by_cases hqx : q = x
    · subst hqx
      exact hhead hq
    · rw [hpent q hqx, hrole q hqx]
      exact h.head q hq
  · intro y hy
    have hy := hsame.isPlain.mp hy
    rw [hring]
    by_cases hyx : y = x
    · subst hyx
      exact hplain hy
    · rw [hpent y hyx, hrole y hyx, hnext y hyx]
      exact h.plain y hy
  · intro y hy
    rw [hsame.isHead, hsame.isPlain]
    by_cases hyx : y = x
    · subst hyx
      exact howned hy
    · rw [hrole y hyx] at hy
      exact h.owned y hy
  · intro y hy
    rw [hsame.isHead, hsame.isPlain] at hy
    rw [hsame.nextRec]
    exact h.bound y hy

theorem setRole_self (g : Rings) (x : Ptr) (r : Role) : (g.setRole x r).role x = r := update_self ..

theorem setRole_of_ne {r : Role} (hy : y ≠ x) : (g.setRole x r).role y = g.role y := update_of_ne hy ..

theorem LvPart.setRole (h : LvPart m g) {r : Role} (hx : g.role x ≠ .free) (hx' : g.role x ≠ .idle)
    (hr : r ≠ .free) (hr' : r ≠ .idle)
    (hnull : ∀ k, r = .ea k → m.IsPlain x → g.ring x = none → m.lvNext x = .null) :
    LvPart m (g.setRole x r) := by
  refine h.recast (SameRecs.refl m) (fun _ _ => rfl) (fun _ _ => rfl) (fun _ => setRole_of_ne) rfl rfl
    (.inl rfl) (.inr ?_) h.freeList h.freeNodup (fun _ _ => Iff.rfl) ?_ ?_ ?_ fun _ => h.owned x hx'
  all_goals rw [setRole_self]
  · exact hr
  · exact iff_of_false (fun hm => hx ((h.freeMem x).mp hm)) hr
  · intro hh
    obtain ⟨h1, _, h3⟩ := h.head x hh
    exact ⟨h1, hr, h3.trans (iff_of_false hx' hr')⟩
  · exact fun hp => ⟨(h.plain x hp).1, hr', fun k hk => hnull k hk hp⟩

def Rings.leave (g : Rings) (x : Ptr) : Rings :=
  { g with ring := Function.update g.ring x none, lv := fun h => (g.lv h).erase x }

theorem leave_ring (g : Rings) (x y : Ptr) :
    (g.leave x).ring y = if y = x then none else g.ring y := update_apply ..

theorem LvPart.leave_of_none (h : LvPart m g) (hr : g.ring x = none) : g.leave x = g := by
  have hlv : (fun q => (g.lv q).erase x) = g.lv := by
    funext q
    refine erase_of_not_mem ?_
    rw [h.mem q x, hr]
    exact nofun
  have hring : update g.ring x none = g.ring := by
    rw [← hr, update_eq_self]
  unfold Rings.leave
  rw [hlv, hring]

/-- The record `x` comes to the ring of `p` or leaves it. -/
theorem LvPart.rering (h : LvPart m g) (hl : g.role x = .limbo) (hx : m.IsPlain x) (hp : m.IsHead p)
    {f : Ptr → Ptr} {o : Option Ptr} (hxq : ∀ q ≠ p, x ∉ g.lv q)
    (hf : ∀ y ≠ x, y ∉ p :: g.lv p → f y = m.lvNext y) (hc : Chain f p ys p) (hnd : ys.Nodup)
    (hself : x ∈ ys ↔ o = some p) (hother : ∀ y ≠ x, y ∈ ys ↔ y ∈ g.lv p) (ho : ∀ q, o = some q → q = p) :
    LvPart { m with lvNext := f } { g with ring := update g.ring x o, lv := update g.lv p ys } := by
  refine ⟨fun q hq => ?_, fun q => ?_, fun q y => ?_, fun q y hy => ?_, ?_, h.freeNodup, h.freeMem, h.head,
    fun y hy => ?_, h.owned, h.bound⟩
  · show Chain f q (update g.lv p ys q) q
    by_cases hqp : q = p
    · rw [hqp, update_self]
      exact hc
    rw [update_of_ne hqp]
    refine (chain_congr fun y hy => hf y ?_ fun hm => ?_).mpr (h.ring q hq)
    · rintro rfl
      rcases mem_cons.mp hy with rfl | hy
      · exact h.not_head hx hq
      · exact hxq q hqp hy
    -- no cell is on two rings
    rcases mem_cons.mp hy with rfl | hy
    · rcases mem_cons.mp hm with he | hm
      · exact hqp he
      · exact h.not_head (h.member p y ((h.mem p y).mp hm)).2.1 hq
    · have hy := (h.mem q y).mp hy
      rcases mem_cons.mp hm with rfl | hm
      · exact h.not_head (h.member q y hy).2.1 hp
      · rw [(h.mem p y).mp hm] at hy
        exact hqp (Option.some.inj hy).symm
  · show (update g.lv p ys q).Nodup
    rw [update_apply]
    split
    · exact hnd
    · exact h.nodup q
  · show y ∈ update g.lv p ys q ↔ update g.ring x o y = some q
    rw [update_apply, update_apply]
    split_ifs with hqp hyx hyx
    · rw [hqp, hyx]
      exact hself
    · rw [hqp, hother y hyx, h.mem]
    · rw [hyx]
      exact iff_of_false (hxq q hqp) fun he => hqp (ho q he)
    · exact h.mem q y
  · change update g.ring x o y = some q at hy
    rw [update_apply] at hy
    split at hy
    · obtain rfl := ho q hy
      subst y
      exact ⟨hp, hx, by rw [show Rings.role _ x = _ from hl]; exact nofun⟩
    · exact h.member q y hy
  · refine (seg_congr fun y hy => hf y ?_ fun hm => ?_).mpr h.freeList
    · rintro rfl
      rw [h.freeMem, hl] at hy
      cases hy
    rw [h.freeMem] at hy
    rcases mem_cons.mp hm with rfl | hm
    · exact (h.head y hp).2.1 hy
    · exact (h.member p y ((h.mem p y).mp hm)).2.2 hy
  · obtain ⟨h1, h2, h3⟩ := h.plain y hy
    refine ⟨h1, h2, fun k hk hring => ?_⟩
    have hyx : y ≠ x := by
      rintro rfl
      cases hl.symm.trans hk
    have hring : g.ring y = none := (update_of_ne hyx _ _).symm.trans hring
    refine (hf y hyx fun hm => ?_).trans (h3 k hk hring)
    rcases mem_cons.mp hm with rfl | hm
    · exact h.not_head hy hp
    · cases hring.symm.trans ((h.mem p y).mp hm)

theorem LvPart.leave_of_some (h : LvPart m g) (hl : g.role x = .limbo) (hr : g.ring x = some p)
    {as bs : List Ptr} (hs : g.lv p = as ++ x :: bs) (hc : Chain m.lvNext p (as ++ x :: bs) p)
    (hd : (p :: (as ++ x :: bs)).Nodup) :
    LvPart (m.setLvNext (as.getLastD p) (m.lvNext x)) (g.leave x) := by
  obtain ⟨hp, hx, -⟩ := h.member p x hr
  have hxq : ∀ q ≠ p, x ∉ g.lv q := by
    intro q hq
    rw [h.mem q x, hr]
    exact fun he => hq (Option.some.inj he).symm
  have hnd := h.nodup p
  have herase : (g.lv p).erase x = as ++ bs := by
    rw [hs] at hnd ⊢
    have hxa : x ∉ as := fun hm => (nodup_append.mp hnd).2.2 x hm x mem_cons_self rfl
    rw [erase_append_right _ hxa, erase_cons_head]
  have hleave : g.leave x = { g with ring := update g.ring x none, lv := update g.lv p (as ++ bs) } := by
    have hlv : (fun q => (g.lv q).erase x) = update g.lv p (as ++ bs) := by
      funext q
      by_cases hq : q = p
      · rw [hq, herase, update_self]
      · rw [update_of_ne hq, erase_of_not_mem (hxq q hq)]
    rw [Rings.leave, hlv]
  rw [hleave]
  refine h.rering hl hx hp hxq (fun y _ hy => update_of_ne ?_ _ _) (chain_unlink hc hd) (herase ▸ hnd.erase x)
    ?_ (fun y hy => ?_) nofun
  · rintro rfl
    rw [hs] at hy
    exact hy (getLastD_mem_append ..)
  · rw [← herase]
    exact iff_of_false hnd.not_mem_erase nofun
  · rw [← herase, mem_erase_of_ne hy]

theorem LvPart.unlinkLv (h : LvPart m g) (hl : g.role x = .limbo)
    (hnull : g.ring x = none → m.lvNext x = .null) :
    ∃ f, m.unlinkLv x = some { m with lvNext := f } ∧ LvPart { m with lvNext := f } (g.leave x) := by
  unfold Mtable.unlinkLv
  cases hr : g.ring x with
  | none =>
    rw [if_pos (hnull hr), h.leave_of_none hr]
    exact ⟨m.lvNext, rfl, h⟩
  | some q =>
    obtain ⟨as, bs, hs, hc, hd, hlen⟩ := h.ring_split hr
    have hdrot : (x :: (bs ++ q :: as)).Nodup := by
      refine (List.Perm.nodup_iff ?_).mp hd
      rw [← cons_append, ← cons_append]
      exact perm_append_comm
    have hscan : scan m.lvNext (fun z => decide (m.lvNext z = x)) m.fuel (m.lvNext x) =
        some (as.getLastD q) := by
      rw [scan_pred (ring_rotate hc) hdrot (by simp at hlen ⊢; omega), getLastD_append_cons]
    rw [if_neg (h.lvNext_ne_null hr), hscan]
    exact ⟨_, rfl, h.leave_of_some hl hr hs hc hd⟩

theorem LvPart.pushFree (h : LvPart m g) (hl : g.role x = .limbo) (hp : m.IsPlain x)
    (hr : g.ring x = none) :
    LvPart { m.setLvNext x m.freePents with freePents := x }
      { g.setRole x .free with free := x :: g.free } := by
  have hxf : x ∉ g.free := by rw [h.freeMem, hl]; exact Role.noConfusion
  refine h.recast ⟨rfl, rfl, rfl, rfl, rfl, rfl⟩ (fun y hy => update_of_ne hy ..) (fun _ _ => rfl)
    (fun _ => setRole_of_ne) rfl rfl (.inr ⟨hp, hr⟩) (.inl hr) ?_ (nodup_cons.mpr ⟨hxf, h.freeNodup⟩)
    (fun y hy => by rw [mem_cons, or_iff_right hy])
    (iff_of_true mem_cons_self (setRole_self ..)) (fun hh => absurd hh (h.not_head hp))
    (fun _ => ?_) fun _ => .inr hp
  · refine seg_cons.mpr ⟨rfl, ?_⟩
    show Seg (update m.lvNext x m.freePents) (update m.lvNext x m.freePents x) _ _
    rw [update_self, seg_update hxf]
    exact h.freeList
  · rw [show Rings.role { g.setRole x .free with free := x :: g.free } x = .free from setRole_self ..]
    exact ⟨(h.plain x hp).1, nofun, nofun⟩

theorem LvPart.setHead (h : LvPart m g) (hx : m.IsHead x) {v : Pent} {r : Role} (hv : v.lvHead = true)
    (hr : r ≠ .free) (hu : v.unused = true ↔ r = .idle) : LvPart (m.setPent x v) (g.setRole x r) := by
  refine h.recast ⟨rfl, rfl, rfl, rfl, rfl, rfl⟩ (fun _ _ => rfl) (fun y hy => update_of_ne hy ..)
    (fun _ => setRole_of_ne) rfl rfl (.inl rfl) (.inr ?_) h.freeList h.freeNodup (fun _ _ => Iff.rfl) ?_
    (fun _ => ?_) (fun hp => absurd hx (h.not_head hp)) fun _ => .inl hx
  all_goals rw [setRole_self]
  · exact hr
  · exact iff_of_false (fun hm => (h.head x hx).2.1 ((h.freeMem x).mp hm)) hr
  · rw [show (m.setPent x v).pent x = v from update_self ..]
    exact ⟨hv, hr, hu⟩

/-! ## Frames -/

theorem SameTables.refl (m : Mtable) : SameTables m m := ⟨SameRecs.refl m, rfl, rfl, rfl⟩

theorem SameTables.trans (h : SameTables m m') (h' : SameTables m' m'') : SameTables m m'' :=
  ⟨h.toSameRecs.trans h'.toSameRecs, h'.lev2.trans h.lev2, h'.freePentTables.trans h.freePentTables,
    h'.tlbied.trans h.tlbied⟩

theorem SameTables.setEaNext (m : Mtable) (p q : Ptr) : SameTables m (m.setEaNext p q) :=
  ⟨⟨rfl, rfl, rfl, rfl, rfl, rfl⟩, rfl, rfl, rfl⟩

theorem SameTables.setLvNext (m : Mtable) (p q : Ptr) : SameTables m (m.setLvNext p q) :=
  ⟨⟨rfl, rfl, rfl, rfl, rfl, rfl⟩, rfl, rfl, rfl⟩

theorem SameTables.setPent (m : Mtable) (p : Ptr) (v : Pent) : SameTables m (m.setPent p v) :=
  ⟨⟨rfl, rfl, rfl, rfl, rfl, rfl⟩, rfl, rfl, rfl⟩

theorem SameTables.zeroPte (m : Mtable) (i : Nat) : SameTables m (m.zeroPte i) :=
  ⟨⟨rfl, rfl, rfl, rfl, rfl, rfl⟩, rfl, rfl, rfl⟩

theorem SameTables.setFree (m : Mtable) (p : Ptr) : SameTables m { m with freePents := p } :=
  ⟨⟨rfl, rfl, rfl, rfl, rfl, rfl⟩, rfl, rfl, rfl⟩

/-- The rings are as they were, and each record on one is still for its page. -/
theorem EaPart.transport (h : EaPart m g) (hlev2 : m'.lev2 = m.lev2) (hrec : m.nextRec ≤ m'.nextRec)
    (hslot : ∀ r i t j, m.lev2 r i = some t → m'.eaNext (.slot t j) = m.eaNext (.slot t j))
    (hpent : ∀ x k, g.role x = .ea k → m'.eaNext x = m.eaNext x ∧ (m'.pent x).eaLast = (m.pent x).eaLast ∧
      ((m.pent x).Tracks k → (m'.pent x).Tracks k))
    (hea : g'.ea = g.ea) (hrole : ∀ x k, g'.role x = .ea k ↔ g.role x = .ea k) : EaPart m' g' := by
  refine ⟨fun s => ?_, fun s => ?_, fun s x => ?_, fun x k hk => ?_, fun x y k hx hy => ?_, fun x k hk => ?_⟩
  · have hr := h.ring s
    have hmem : ∀ q ∈ g.ea s, m'.eaNext q = m.eaNext q ∧ (m'.pent q).eaLast = (m.pent q).eaLast := by
      intro q hq
      obtain ⟨k, hk, _⟩ := (h.mem _ _).mp hq
      exact ⟨(hpent q k hk).1, (hpent q k hk).2.1⟩
    unfold EaRing at hr ⊢
    rw [hlev2, hea]
    cases ht : m.lev2 s.1 s.2.1 with
    | none => rwa [ht] at hr
    | some t =>
      rw [ht] at hr
      refine RingAt.congr hr ?_ fun q hq => (hmem q hq).2
      exact forall_mem_cons.mpr ⟨hslot _ _ t _ ht, fun q hq => (hmem q hq).1⟩
  · rw [hea]
    exact h.nodup s
  · rw [hea, h.mem]
    simp [hrole]
  · rw [hrole] at hk
    obtain ⟨hpage, htracks⟩ := h.pent x k hk
    exact ⟨hpage, (hpent x k hk).2.2 htracks⟩
  · exact h.uniq x y k ((hrole x k).mp hx) ((hrole y k).mp hy)
  · obtain ⟨i, hi, he⟩ := h.record x k ((hrole x k).mp hk)
    exact ⟨i, by omega, he⟩

theorem EaPart.congr (h : EaPart m g) (hnext : m'.eaNext = m.eaNext) (hlev2 : m'.lev2 = m.lev2)
    (hrec : m'.nextRec = m.nextRec)
    (hpent : ∀ x k, g.role x = .ea k → (m'.pent x).eaLast = (m.pent x).eaLast ∧
      ((m.pent x).Tracks k → (m'.pent x).Tracks k))
    (hea : g'.ea = g.ea) (hrole : ∀ x k, g'.role x = .ea k ↔ g.role x = .ea k) : EaPart m' g' :=
  h.transport hlev2 hrec.ge (fun _ _ _ _ _ => by rw [hnext]) (fun x k hk => ⟨by rw [hnext], hpent x k hk⟩) hea hrole

theorem LvPart.transport (h : LvPart m g) (hh : ∀ x, m'.IsHead x ↔ m.IsHead x)
    (hp : ∀ x, m'.IsPlain x ↔ m.IsPlain x) (hrec : m'.nextRec = m.nextRec)
    (hnext : m'.lvNext = m.lvNext) (hfree : m'.freePents = m.freePents)
    (hpent : ∀ x, m.IsHead x ∨ m.IsPlain x → (m'.pent x).lvHead = (m.pent x).lvHead ∧
      (m.IsHead x → (m'.pent x).unused = (m.pent x).unused))
    (hlv : g'.lv = g.lv) (hring : g'.ring = g.ring) (hf : g'.free = g.free)
    (hrole : g'.role = g.role) : LvPart m' g' := by
  refine ⟨?_, ?_, ?_, ?_, ?_, ?_, ?_, ?_, ?_, ?_, ?_⟩
  · intro q hq
    rw [hnext, hlv]
    exact h.ring q ((hh q).mp hq)
  · rw [hlv]; exact h.nodup
  · rw [hlv, hring]; exact h.mem
  · intro q y hy
    rw [hring] at hy
    rw [hh, hp, hrole]
    exact h.member q y hy
  · rw [hnext, hfree, hf]; exact h.freeList
  · rw [hf]; exact h.freeNodup
  · rw [hf, hrole]; exact h.freeMem
  · intro q hq
    have hq := (hh q).mp hq
    rw [(hpent q (.inl hq)).1, (hpent q (.inl hq)).2 hq, hrole]
    exact h.head q hq
  · intro y hy
    have hy := (hp y).mp hy
    rw [(hpent y (.inr hy)).1, hrole, hring, hnext]
    exact h.plain y hy
  · intro y hy
    rw [hrole] at hy
    rw [hh, hp]
    exact h.owned y hy
  · intro y hy
    rw [hh, hp] at hy
    rw [hrec]
    exact h.bound y hy

theorem LvPart.congr (h : LvPart m g) (hsame : SameRecs m m') (hnext : m'.lvNext = m.lvNext)
    (hfree : m'.freePents = m.freePents)
    (hpent : ∀ x, m.IsHead x ∨ m.IsPlain x → (m'.pent x).lvHead = (m.pent x).lvHead ∧
      (m.IsHead x → (m'.pent x).unused = (m.pent x).unused))
    (hlv : g'.lv = g.lv) (hring : g'.ring = g.ring) (hf : g'.free = g.free)
    (hrole : g'.role = g.role) : LvPart m' g' :=
  h.transport (fun _ => hsame.isHead) (fun _ => hsame.isPlain) hsame.nextRec hnext hfree hpent hlv
    hring hf hrole

theorem TabPart.congr (h : TabPart m g) (hlev2 : m'.lev2 = m.lev2)
    (hfree : m'.freePentTables = m.freePentTables) (htab : m'.nextTab = m.nextTab)
    (hnext : ∀ t ∈ g.tabs, ∀ j, m'.eaNext (.slot t j) = m.eaNext (.slot t j))
    (htabs : g'.tabs = g.tabs) : TabPart m' g' := by
  refine ⟨?_, ?_, ?_, ?_, ?_, ?_, ?_⟩
  · rw [hfree, htabs]
    refine (seg_congr ?_).mpr h.list
    intro q hq
    obtain ⟨t, ht, rfl⟩ := mem_map.mp hq
    exact hnext t ht 0
  · rw [htabs]; exact h.nodup
  · intro t ht j hj
    rw [htabs] at ht
    rw [hnext t ht j]
    exact h.empty t ht j hj
  · rw [htabs, htab]; exact h.bound
  · rw [htabs, hlev2, htab]; exact h.used
  · rw [hlev2]; exact h.inj
  · rw [hlev2]; exact h.ind

/-! ## Addresses and pages -/

theorem setLev2_lev2 (m : Mtable) (r i : Nat) (o : Option Nat) (r' i' : Nat) :
    (m.setLev2 r i o).lev2 r' i' = if r' = r ∧ i' = i then o else m.lev2 r' i' := by
  show update m.lev2 r (update (m.lev2 r) i o) r' i' = _
  by_cases h1 : r' = r
  · subst h1
    by_cases h2 : i' = i <;> simp [h2]
  · simp [h1]

theorem lev2Ind_eq (ea : Nat) : lev2Ind ea = pageOf ea / 32 % 64 := by
  unfold lev2Ind pageOf; omega

theorem pelistInd_eq (ea : Nat) : pelistInd ea = pageOf ea % 32 := by
  unfold pelistInd pageOf; omega

theorem topeaOf_eq (ea : Nat) : topeaOf ea = pageOf ea / 2 ^ 11 := by
  unfold topeaOf pageOf; omega

theorem eaBit14Of_eq (ea : Nat) : eaBit14Of ea = decide (pageOf ea / 32 % 2 = 1) := by
  unfold eaBit14Of pageOf
  congr 2
  omega

theorem pageOf_lt (ea : Nat) : pageOf ea < 2 ^ 16 := Nat.mod_lt _ (by decide)

theorem slotOf_pageOf (r ea : Nat) : slotOf r (pageOf ea) = (r, lev2Ind ea, pelistInd ea) := by
  rw [slotOf, lev2Ind_eq, pelistInd_eq]

theorem page_eq_iff {p q : Nat} :
    p = q ↔ p / 2 ^ 11 = q / 2 ^ 11 ∧ p / 32 % 64 = q / 32 % 64 ∧ p % 32 = q % 32 := by
  omega

theorem key_ext {k k' : Key} (hr : k.slot = k'.slot) (htop : k.page / 2 ^ 11 = k'.page / 2 ^ 11)
    (hsv : k.sv = k'.sv) : k = k' := by
  simp only [Key.slot, slotOf, Prod.mk.injEq] at hr
  have hpage : k.page = k'.page := page_eq_iff.mpr ⟨htop, hr.2⟩
  cases k
  cases k'
  simp_all

/-! ## What a flush drops -/

section Drops

variable {P Q : Ptr → Prop}

theorem Invalidated.of_eq (h : m'.tlbied = m.tlbied) : Invalidated m g m' :=
  ⟨[], by rw [h, append_nil], fun _ hc => absurd hc not_mem_nil⟩

theorem Invalidated.trans (h : Invalidated m g m') (h' : Invalidated m' g' m'')
    (hrole : ∀ x k, g'.role x = .ea k → g.role x = .ea k) : Invalidated m g m'' := by
  obtain ⟨cs, he, hcs⟩ := h
  obtain ⟨cs', he', hcs'⟩ := h'
  refine ⟨cs ++ cs', by rw [he', he, append_assoc], ?_⟩
  intro c hc
  rcases mem_append.mp hc with hc | hc
  · exact hcs c hc
  · obtain ⟨k, hk, hof⟩ := hcs' c hc
    exact ⟨k, hrole _ _ hk, hof⟩

theorem Drops.refl (m : Mtable) (g : Rings) : Drops (fun _ => False) m g m g :=
  ⟨fun _ _ => (and_iff_left not_false).symm, fun _ _ _ => ⟨rfl, rfl, rfl⟩, fun _ _ _ h => h.elim,
    fun _ => .inl rfl, id, id, fun _ _ _ => id, SameRecs.refl m, .of_eq rfl⟩

theorem Drops.trans (h : Drops P m g m' g') (h' : Drops Q m' g' m'' g'') :
    Drops (fun x => P x ∨ Q x) m g m'' g'' := by
  refine ⟨?_, ?_, ?_, ?_, fun h0 => h'.pents (h.pents h0), fun h0 => h'.tables (h.tables h0),
    fun r i t ht => h.lev2 r i t (h'.lev2 r i t ht), h.same.trans h'.same,
    h.tlbies.trans h'.tlbies h.tracked⟩
  · intro x k
    rw [h'.role, h.role, and_assoc, not_or]
  · intro x k hk
    obtain ⟨e1, e2, e3⟩ := h'.kept x k hk
    obtain ⟨d1, d2, d3⟩ := h.kept x k (h'.tracked x k hk)
    exact ⟨e1.trans d1, e2.trans d2, e3.trans d3⟩
  · intro x k hk hx
    by_cases hp : P x
    · have h0 := h.zeroed x k hk hp
      rcases h'.pte0 (m.pent x).index with he | ⟨he, _⟩
      · rw [he, h0]
      · exact he
    · have hk' := (h.role x k).mpr ⟨hk, hp⟩
      rw [← (h.kept x k hk').1]
      exact h'.zeroed x k hk' (hx.resolve_left hp)
  · intro i
    rcases h'.pte0 i with he | ⟨h0, x, k, hk, hq, hi⟩
    · rcases h.pte0 i with hd | ⟨hd, x, k, hk, hp, hi⟩
      · exact .inl (he.trans hd)
      · exact .inr ⟨he.trans hd, x, k, hk, .inl hp, hi⟩
    · refine .inr ⟨h0, x, k, h.tracked x k hk, .inr hq, ?_⟩
      rw [← (h.kept x k hk).1]
      exact hi

theorem Drops.congr (h : Drops P m g m' g') (hpq : ∀ x k, g.role x = .ea k → (P x ↔ Q x)) :
    Drops Q m g m' g' := by
  refine ⟨?_, h.kept, ?_, ?_, h.pents, h.tables, h.lev2, h.same, h.tlbies⟩
  · intro x k
    rw [h.role]
    exact and_congr_right fun hk => not_congr (hpq x k hk)
  · intro x k hk hq
    exact h.zeroed x k hk ((hpq x k hk).mpr hq)
  · intro i
    rcases h.pte0 i with he | ⟨h0, x, k, hk, hp, hi⟩
    · exact .inl he
    · exact .inr ⟨h0, x, k, hk, (hpq x k hk).mp hp, hi⟩

theorem Drops.seq {R : Ptr → Prop} (h : Drops P m g m' g') (h' : Drops Q m' g' m'' g'')
    (hp : ∀ x k, g.role x = .ea k → P x → R x)
    (hq : ∀ x k, g'.role x = .ea k → ¬ P x → (Q x ↔ R x)) : Drops R m g m'' g'' := by
  refine (h.trans h').congr ?_
  intro x k hk
  by_cases hx : P x
  · exact iff_of_true (.inl hx) (hp x k hk hx)
  · rw [or_iff_right hx]
    exact hq x k ((h.role x k).mpr ⟨hk, hx⟩) hx

end Drops

end MacOnLinux
