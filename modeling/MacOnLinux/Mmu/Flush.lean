import MacOnLinux.Mmu.Contexts
import MacOnLinux.Mtable.Alloc
import MacOnLinux.Skiplist.Runs

/-! # The invariant of the MMU state -/

namespace MacOnLinux

open Skiplist List

def Mmu.vsidOf (s : Mmu) (e : Nat) (sv : Bool) : Nat :=
  ((if sv then s.linuxVsidSv e else s.linuxVsid e) &&& 0xffffff).toNat

def Skiplist.SlMap.owned (v : SlMap) : List Nat := v.live.map (·.2) ++ v.free

/-- The entries `es` have VSIDs of their own, none of them the one of `illegal_sr`. -/
structure VsidsOk (s : Mmu) (es : List Nat) : Prop where
  issued : ∀ e ∈ es, ∀ sv, ∃ m, (m, s.vsidOf e sv) ∈ s.ctx.issued ∧ m ≠ s.ctx.first
  inj : ∀ e ∈ es, ∀ e' ∈ es, ∀ sv sv', s.vsidOf e sv = s.vsidOf e' sv' → e = e' ∧ sv = sv'

namespace Mmu

structure Inv (s : Mmu) (g : Rings) (v : SlMap) : Prop where
  rep : MacOnLinux.Rep s.mt g
  sl : Skiplist.Rep v s.vsidSl
  datasize : s.vsidSl.datasize = sizeofVsidEnt
  live : ∀ r i t, s.mt.lev2 r i = some t → r ∈ v.live.map (·.2)
  ranges : PageSized s.mt
  sess : s.sessionIndex < maxNumSessions
  ctx : CtxOk s.sessionIndex s.ctx
  vsids : VsidsOk s v.owned

variable {s s' : Mmu} {g g' : Rings} {v : SlMap} {mt : Mtable} {P : Ptr → Prop}

theorem Inv.withMt (h : Inv s g v) (hr : MacOnLinux.Rep mt g')
    (hlev2 : ∀ r i t, mt.lev2 r i = some t → r ∈ v.live.map (·.2)) (hok : PageSized mt) :
    Inv { s with mt := mt } g' v :=
  ⟨hr, h.sl, h.datasize, hlev2, hok, h.sess, h.ctx, h.vsids.issued, h.vsids.inj⟩

theorem Inv.congr (h : Inv s g v) (hmt : s'.mt = s.mt) (hsl : s'.vsidSl = s.vsidSl)
    (hsess : s'.sessionIndex = s.sessionIndex) (hctx : s'.ctx = s.ctx)
    (hv : s'.linuxVsid = s.linuxVsid) (hsv : s'.linuxVsidSv = s.linuxVsidSv) : Inv s' g v := by
  have hof : ∀ e sv, s'.vsidOf e sv = s.vsidOf e sv := by
    intro e sv
    unfold vsidOf
    rw [hv, hsv]
  constructor
  · rw [hmt]; exact h.rep
  · rw [hsl]; exact h.sl
  · rw [hsl]; exact h.datasize
  · rw [hmt]; exact h.live
  · rw [hmt]; exact h.ranges
  · rw [hsess]; exact h.sess
  · rw [hsess, hctx]; exact h.ctx
  · constructor
    · simp only [hof, hctx]; exact h.vsids.issued
    · simp only [hof]; exact h.vsids.inj

theorem Inv.drops (h : Inv s g v) (hr : MacOnLinux.Rep mt g') (hd : Drops P s.mt g mt g') :
    Inv { s with mt := mt } g' v :=
  h.withMt hr (fun r i t ht => h.live r i t (hd.lev2 r i t ht)) (h.ranges.congr hd.same.lvranges)

/-! ## Lookup -/

theorem entryOf_toNode (e : Option Nat) : entryOf (toNode e) = e := by
  cases e <;> rfl

theorem vsidEntLookup_spec (h : Inv s g v) {key : Int} (hk : key < skiplistEnd) :
    s.vsidEntLookup key = some (v.lookup key) := by
  unfold vsidEntLookup
  rw [skiplist_lookup_spec h.sl hk, Option.map_some, entryOf_toNode]

theorem flushVsidEa_spec (h : Inv s g v) {key : Int} (hk : key < skiplistEnd) (ea : Nat) :
    ∃ mt g', s.flushVsidEa key ea = some { s with mt := mt } ∧ Inv { s with mt := mt } g' v ∧
      Drops (fun x => ∃ r, v.lookup key = some r ∧ OfPage g r ea x) s.mt g mt g' := by
  unfold flushVsidEa
  rw [vsidEntLookup_spec h hk, some_bind]
  cases hl : v.lookup key with
  | none =>
    refine ⟨s.mt, g, rfl, h, (Drops.refl s.mt g).congr ?_⟩
    intro x k _
    exact iff_of_false id nofun
  | some r =>
    obtain ⟨mt, g', hmt, hr, hd, _⟩ := MacOnLinux.flushVsidEa_spec h.rep r ea
    refine ⟨mt, g', ?_, h.drops hr hd, hd.congr ?_⟩
    · simp only [withMt, hmt, Option.map_some]
    intro x k _
    constructor
    · intro hx
      exact ⟨r, rfl, hx⟩
    · rintro ⟨_, he, hx⟩
      cases he
      exact hx

theorem flushLvptr_spec (h : Inv s g v) (lvptr : Word) : ∃ mt g', s.flushLvptr lvptr = some { s with
        mt := mt
        lvptrReservationLost := s.lvptrReservationLost || decide (lvptr = s.lvptrReservation) } ∧
      Inv { s with
        mt := mt
        lvptrReservationLost := s.lvptrReservationLost || decide (lvptr = s.lvptrReservation) } g' v ∧
      Drops (OnHost s.mt g lvptr) s.mt g mt g' := by
  obtain ⟨mt, g', hmt, hr, hd⟩ := MacOnLinux.flushLvptr_spec h.rep
    (fun lvr hf => h.ranges.find_isHead hf)
  refine ⟨mt, g', ?_, (h.drops hr hd).congr rfl rfl rfl rfl rfl rfl, hd⟩
  unfold flushLvptr
  by_cases he : lvptr = s.lvptrReservation
  · simp [he, withMt, he ▸ hmt]
  · simp [he, withMt, hmt]

/-! ## All entries -/

/-- A loop that drops the keys in `Hi r`, and none outside of `Lo r`, for each entry `r`. -/
theorem foldlM_drops {f : Mtable → Nat → Option Mtable} {Lo Hi : Nat → Key → Prop}
    {Done : Mtable → Nat → Prop}
    (hf : ∀ m g r, MacOnLinux.Rep m g → ∃ m' g' P, f m r = some m' ∧ MacOnLinux.Rep m' g' ∧
      Drops P m g m' g' ∧ (∀ x k, g.role x = .ea k → P x → Lo r k) ∧
      (∀ x k, g.role x = .ea k → Hi r k → P x) ∧ Done m' r)
    (hdone : ∀ m g m' g' P r, Drops P m g m' g' → Done m r → Done m' r) (rs : List Nat) :
    ∀ {m : Mtable} {g : Rings}, MacOnLinux.Rep m g →
      ∃ m' g' P, rs.foldlM f m = some m' ∧ MacOnLinux.Rep m' g' ∧ Drops P m g m' g' ∧
        (∀ x k, g.role x = .ea k → P x → ∃ r ∈ rs, Lo r k) ∧
        (∀ x k, g.role x = .ea k → (∃ r ∈ rs, Hi r k) → P x) ∧ ∀ r ∈ rs, Done m' r := by
  induction rs with
  | nil =>
    intro m g hr
    refine ⟨m, g, _, rfl, hr, Drops.refl m g, ?_, ?_, ?_⟩
    · exact nofun
    · rintro x k _ ⟨r, hr, _⟩
      cases hr
    · exact nofun
  | cons r rs ih =>
    intro m g hr
    obtain ⟨m1, g1, P1, hm1, hr1, hd1, hlo1, hhi1, hdone1⟩ := hf m g r hr
    obtain ⟨m2, g2, P2, hm2, hr2, hd2, hlo2, hhi2, hdone2⟩ := ih hr1
    refine ⟨m2, g2, fun x => P1 x ∨ (¬ P1 x ∧ P2 x), ?_, hr2, ?_, ?_, ?_, ?_⟩
    · rw [foldlM_cons, hm1, some_bind, hm2]
    · refine hd1.seq hd2 (fun x k _ hx => .inl hx) ?_
      intro x k _ hx
      simp [hx]
    · rintro x k hk (hx | ⟨hx, hx'⟩)
      · exact ⟨r, mem_cons_self, hlo1 x k hk hx⟩
      · obtain ⟨r', hr', hlo⟩ := hlo2 x k ((hd1.role x k).mpr ⟨hk, hx⟩) hx'
        exact ⟨r', mem_cons_of_mem _ hr', hlo⟩
    · rintro x k hk ⟨r', hr', hhi⟩
      by_cases hx : P1 x
      · exact .inl hx
      · refine .inr ⟨hx, ?_⟩
        rcases mem_cons.mp hr' with rfl | hr'
        · exact absurd (hhi1 x k hk hhi) hx
        · exact hhi2 x k ((hd1.role x k).mpr ⟨hk, hx⟩) ⟨r', hr', hhi⟩
    · intro r' hr'
      rcases mem_cons.mp hr' with rfl | hr'
      · exact hdone m1 g1 m2 g2 P2 r' hd2 hdone1
      · exact hdone2 r' hr'

theorem filterMap_entryOf (v : SlMap) :
    (v.live.map (Node.el ·.2)).filterMap entryOf = v.live.map (·.2) := by
  rw [filterMap_map]
  exact congrFun filterMap_eq_map' v.live

theorem forEachEntry_eq (h : Inv s g v) (f : Mtable → Nat → Option Mtable) :
    s.forEachEntry f = ((v.live.map (·.2)).foldlM f s.mt).map fun mt => { s with mt := mt } := by
  unfold forEachEntry withMt
  rw [skiplist_elements_spec h.sl, some_bind, filterMap_entryOf]

def PageIn (lo hi : Nat) (k : Key) : Prop := ∃ e, lo ≤ e ∧ e < hi ∧ k.page = pageOf e

theorem flushEaRange_spec (h : Inv s g v) {orgEa size : Nat} (hea : orgEa < 2 ^ 28)
    (hsize : size ≤ 2 ^ 28) :
    ∃ mt g' P, s.flushEaRange orgEa size = some { s with mt := mt } ∧ Inv { s with mt := mt } g' v ∧
      Drops P s.mt g mt g' ∧
      (∀ x k, g.role x = .ea k → P x → PageIn orgEa (orgEa + size) k) ∧
      (orgEa % 4096 = 0 → ∀ x k, g.role x = .ea k → PageIn orgEa (orgEa + size) k → P x) := by
  have hloop : ∀ m g r, MacOnLinux.Rep m g → ∃ m' g' P,
      m.flushEaRangeOf r orgEa size = some m' ∧ MacOnLinux.Rep m' g' ∧ Drops P m g m' g' ∧
      (∀ x k, g.role x = .ea k → P x → k.r = r ∧ PageIn orgEa (orgEa + size) k) ∧
      (∀ x k, g.role x = .ea k → orgEa % 4096 = 0 ∧ k.r = r ∧ PageIn orgEa (orgEa + size) k →
        P x) ∧ True := by
    intro m g r hr
    obtain ⟨m', g', P, hm, hr', hd, hlo, hhi⟩ := flushEaRangeOf_spec hr r hea hsize
    refine ⟨m', g', P, hm, hr', hd, ?_, ?_, trivial⟩
    · intro x k hk hx
      obtain ⟨k', e, hk', h1, h2, h3, h4⟩ := hlo x hx
      rw [hk] at hk'
      cases hk'
      exact ⟨h1, e, h2, h3, h4⟩
    · rintro x k hk ⟨ha, h1, e, h2, h3, h4⟩
      exact hhi ha x ⟨k, e, hk, h1, h2, h3, h4⟩
  obtain ⟨mt, g', P, hmt, hr, hd, hlo, hhi, _⟩ := foldlM_drops hloop
    (fun _ _ _ _ _ _ _ _ => trivial) (v.live.map (·.2)) h.rep
  refine ⟨mt, g', P, ?_, h.drops hr hd, hd, ?_, ?_⟩
  · unfold flushEaRange
    rw [forEachEntry_eq h, hmt, Option.map_some]
  · intro x k hk hx
    obtain ⟨r, _, _, hin⟩ := hlo x k hk hx
    exact hin
  · intro ha x k hk hin
    obtain ⟨t, ht⟩ := h.rep.ea.lev2_of_mem ((h.rep.ea.mem k.slot x).mpr ⟨k, hk, rfl⟩)
    exact hhi x k hk ⟨k.r, h.live _ _ _ ht, ha, rfl, hin⟩

/-! ## clear_all_vsids -/

structure SameHost (s s' : Mmu) : Prop where
  pte1 : s'.pte1 = s.pte1
  ptegMask : s'.ptegMask = s.ptegMask
  grabAdd : s'.grabAdd = s.grabAdd
  sessionIndex : s'.sessionIndex = s.sessionIndex
  first : s'.ctx.first = s.ctx.first
  last : s'.ctx.last = s.ctx.last
  lvranges : s'.mt.lvranges = s.mt.lvranges
  reservation : s'.lvptrReservation = s.lvptrReservation
  lost : s'.lvptrReservationLost = s.lvptrReservationLost

theorem SameHost.refl (s : Mmu) : SameHost s s := ⟨rfl, rfl, rfl, rfl, rfl, rfl, rfl, rfl, rfl⟩

theorem SameHost.trans {s'' : Mmu} (h : SameHost s s') (h' : SameHost s' s'') : SameHost s s'' :=
  ⟨h'.pte1.trans h.pte1, h'.ptegMask.trans h.ptegMask, h'.grabAdd.trans h.grabAdd,
    h'.sessionIndex.trans h.sessionIndex, h'.first.trans h.first, h'.last.trans h.last,
    h'.lvranges.trans h.lvranges, h'.reservation.trans h.reservation, h'.lost.trans h.lost⟩

/-- Every tracked PTE is gone, and nothing refers to an entry. -/
structure Cleared (s : Mmu) (g : Rings) (s' : Mmu) (g' : Rings) : Prop where
  untracked : ∀ x k, g'.role x ≠ .ea k
  zeroed : ∀ x k, g.role x = .ea k → s'.mt.pte0 (s.mt.pent x).index = 0
  pte0 : ∀ i, s'.mt.pte0 i = s.mt.pte0 i ∨ s'.mt.pte0 i = 0
  noVsid : ∀ i, s'.vsid i = none ∧ s'.unmappedVsid i = none
  host : SameHost s s'

theorem flushAll_spec (h : Inv s g v) :
    ∃ mt g', (v.live.map (·.2)).foldlM (fun m r => m.flushVsid r) s.mt = some mt ∧
      MacOnLinux.Rep mt g' ∧ Drops (fun _ => True) s.mt g mt g' ∧ ∀ r i, mt.lev2 r i = none := by
  have hloop : ∀ m g r, MacOnLinux.Rep m g → ∃ m' g' P, m.flushVsid r = some m' ∧
      MacOnLinux.Rep m' g' ∧ Drops P m g m' g' ∧ (∀ x k, g.role x = .ea k → P x → k.r = r) ∧
      (∀ x k, g.role x = .ea k → k.r = r → P x) ∧ ∀ i, m'.lev2 r i = none := by
    intro m g r hr
    obtain ⟨m', g', hm, hr', hd, hnone⟩ := flushVsid_spec hr r
    refine ⟨m', g', _, hm, hr', hd, ?_, fun x k hk he => ⟨k, hk, he⟩, hnone⟩
    rintro x k hk ⟨k', hk', he⟩
    rw [hk] at hk'
    cases hk'
    exact he
  have hstable : ∀ (m : Mtable) g m' g' P r, Drops P m g m' g' → (∀ i, m.lev2 r i = none) →
      ∀ i, m'.lev2 r i = none := by
    intro m g m' g' P r hd hnone i
    cases ht : m'.lev2 r i with
    | none => rfl
    | some t =>
      have := hd.lev2 r i t ht
      rw [hnone i] at this
      cases this
  obtain ⟨mt, g', P, hmt, hr, hd, _, hhi, hdone⟩ := foldlM_drops hloop hstable (v.live.map (·.2)) h.rep
  refine ⟨mt, g', hmt, hr, hd.congr ?_, ?_⟩
  · intro x k hk
    obtain ⟨t, ht⟩ := h.rep.ea.lev2_of_mem ((h.rep.ea.mem k.slot x).mpr ⟨k, hk, rfl⟩)
    exact iff_of_true (hhi x k hk ⟨k.r, h.live _ _ _ ht, rfl⟩) trivial
  intro r i
  cases ht : mt.lev2 r i with
  | none => rfl
  | some t =>
    have hold := hd.lev2 r i t ht
    rw [hdone r (h.live r i t hold) i] at ht
    cases ht

theorem clearAllVsids_spec (h : Inv s g v) : ∃ s', s.clearAllVsids = some s' ∧
      Inv s' .empty { live := [], free := [], ht := v.ht } ∧ Cleared s g s' .empty := by
  obtain ⟨mt, g', hmt, hr, hd, hnone⟩ := flushAll_spec h
  unfold clearAllVsids
  rw [forEachEntry_eq h, hmt]
  have hlr : mt.lvranges = s.mt.lvranges := hd.same.lvranges
  refine ⟨_, rfl, ⟨hr.release hnone, skiplist_init_spec _ _ _ h.sl.height, rfl, ?_, h.ranges.congr hlr,
    h.sess, h.ctx.clear, nofun, nofun⟩, nofun, ?_, ?_, fun _ => ⟨rfl, rfl⟩,
    rfl, rfl, rfl, rfl, rfl, rfl, hlr, rfl, rfl⟩
  · intro r i t ht
    have ht' : mt.lev2 r i = some t := ht
    rw [hnone] at ht'
    cases ht'
  · intro x k hk
    exact hd.zeroed x k hk trivial
  · intro i
    rcases hd.pte0 i with he | ⟨he, _⟩
    · exact .inl he
    · exact .inr he

end Mmu

end MacOnLinux
