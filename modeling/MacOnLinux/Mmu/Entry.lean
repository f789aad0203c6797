import MacOnLinux.Mmu.Vsids

/-! # The other entry points -/

namespace MacOnLinux.Mmu

open Skiplist Linked List

variable {s s' s'' : Mmu} {g g' g'' : Rings} {v v' v'' : SlMap} {mt : Mtable}

/-! ## pte_inserted -/

def LvOk (s : Mmu) (lv : Option (LvRange × Word)) : Prop :=
  ∀ l ∈ lv, l.1 ∈ s.mt.lvranges ∧ l.1.contains l.2 = true

theorem pteInserted_spec (h : Inv s g v) (hf : s.mt.freePents ≠ .null)
    (hft : s.mt.freePentTables ≠ .null) (ea : Nat) {lv : Option (LvRange × Word)} (hlv : LvOk s lv)
    (index : Nat) {r : Nat} (hr : r ∈ v.live.map (·.2)) (segreg : Word) :
    ∃ mt g', s.pteInserted ea lv index r segreg = some { s with mt := mt } ∧
      Inv { s with mt := mt } g' v ∧ mt.lvranges = s.mt.lvranges ∧
      (if lv.isSome ∧ s.lvptrReservationLost then mt = s.mt.zeroPte index ∧ g' = g
        else Inserted ⟨r, pageOf ea, s.usesSv r segreg⟩ index (lv.map fun l => l.1.headOf l.2)
          s.mt g mt g') := by
  unfold pteInserted
  split
  · refine ⟨_, g, rfl, ?_, rfl, rfl, rfl⟩
    exact h.withMt (h.rep.withHost _ _) h.live (h.ranges.congr rfl)
  have hhead : ∀ l ∈ lv, s.mt.IsHead (l.1.headOf l.2) := by
    intro l hl
    obtain ⟨hm, hc⟩ := hlv l hl
    exact LvRange.isHead hm (h.ranges _ hm) hc
  obtain ⟨mt, g', hmt, hrep, hins⟩ := ptInsert_spec h.rep hf hft r ea (s.usesSv r segreg) lv
    index hhead
  refine ⟨mt, g', ?_, h.withMt hrep ?_ (h.ranges.congr hins.same.lvranges),
    hins.same.lvranges, hins⟩
  · simp only [withMt, hmt, Option.map_some]
  · intro r' i t ht
    rcases hins.lev2 r' i t ht with ht | rfl
    · exact h.live r' i t ht
    · exact hr

/-! ## Lvranges -/

structure NewRange (s : Mmu) (lvbase size : Word) : Prop where
  sized : size.toNat % 4096 = 0 ∧ size.toNat < 2 ^ 31
  apart : ∀ lvr ∈ s.mt.lvranges, ∀ p : Word, lvr.contains p = true → ¬ p - lvbase < size

theorem registerLvrange_inv (h : Inv s g v) (lvbase : Word) {size : Word}
    (hs : size.toNat % 4096 = 0) : Inv { s with mt := (s.mt.registerLvrange lvbase size).1 } g v := by
  obtain ⟨hrep, hk⟩ := registerLvrange_spec h.rep lvbase size
  refine h.withMt hrep ?_ ?_
  · exact h.live
  · intro lvr hl
    rcases mem_cons.mp hl with rfl | hl
    · exact hs
    · exact h.ranges lvr hl

theorem NewRange.rangesOk {lvbase size : Word} (hn : NewRange s lvbase size) (h : RangesOk s.mt) :
    RangesOk (s.mt.registerLvrange lvbase size).1 := by
  constructor
  · intro lvr hl
    rcases mem_cons.mp hl with rfl | hl
    · exact hn.sized
    · exact h.sized lvr hl
  intro a ha b hb p hpa hpb
  rcases mem_cons.mp ha with ha' | ha' <;> rcases mem_cons.mp hb with hb' | hb'
  · rw [ha', hb']
  · subst ha'
    exact absurd (of_decide_eq_true hpa) (hn.apart b hb' p hpb)
  · subst hb'
    exact absurd (of_decide_eq_true hpb) (hn.apart a ha' p hpa)
  · exact h.apart a ha' b hb' p hpa hpb

theorem rangesOk_erase {m m' : Mtable} (h : RangesOk m) {lvr : LvRange}
    (he : m'.lvranges = m.lvranges.erase lvr) : RangesOk m' := by
  have hsub : ∀ a ∈ m'.lvranges, a ∈ m.lvranges := by
    rw [he]
    exact fun a ha => mem_of_mem_erase ha
  exact ⟨fun a ha => h.sized a (hsub a ha), fun a ha b hb => h.apart a (hsub a ha) b (hsub b hb)⟩

theorem flushLvRange_spec (h : Inv s g v) (lvbase size : Word) :
    ∃ mt g', s.withMt (·.flushLvRange lvbase size) = some { s with mt := mt } ∧
      Inv { s with mt := mt } g' v ∧
      Drops (fun x => ∃ n : Nat, (4096 * n : Int) < size.toInt ∧
        OnHost s.mt g (lvbase + BitVec.ofNat 32 (4096 * n)) x) s.mt g mt g' := by
  obtain ⟨mt, g', hmt, hr, hd⟩ := MacOnLinux.flushLvRange_spec h.rep h.ranges lvbase size
  refine ⟨mt, g', ?_, h.drops hr hd, hd⟩
  simp only [withMt, hmt, Option.map_some]

theorem freeLvrange_spec (h : Inv s g v) (hok : RangesOk s.mt) {lvr : LvRange}
    (hl : lvr ∈ s.mt.lvranges) :
    ∃ mt g', s.withMt (·.freeLvrange lvr) =
        some { s with mt := { mt with lvranges := s.mt.lvranges.erase lvr } } ∧
      Inv { s with mt := { mt with lvranges := s.mt.lvranges.erase lvr } } g' v ∧
      Drops (fun x => ∃ q, lvr.HeadIn q ∧ host s.mt g x = some q) s.mt g mt g' ∧
      ∀ q, lvr.HeadIn q → g'.role q = .idle ∧ g'.lv q = [] := by
  obtain ⟨mt, g', hmt, hr, _, hd, hgone⟩ := MacOnLinux.freeLvrange_spec h.rep hok hl
  refine ⟨mt, g', ?_, h.withMt hr ?_ ?_, hd, hgone⟩
  · simp only [withMt, hmt, Option.map_some]
  · intro r i t ht
    exact h.live r i t (hd.lev2 r i t ht)
  · intro a ha
    exact h.ranges a (mem_of_mem_erase ha)

/-! ## mtable_reclaim -/

theorem ea_empty {m : Mtable} (hr : MacOnLinux.Rep m g) {r i t : Nat} (ht : m.lev2 r i = some t)
    (hnull : ∀ j < 32, m.eaNext (.slot t j) = .null) (j : Nat) : g.ea (r, i, j) = [] := by
  refine eq_nil_iff_forall_not_mem.mpr fun x hx => ?_
  obtain ⟨k, hk, hks⟩ := (hr.ea.mem _ _).mp hx
  have hj : j < 32 := by
    have : k.page % 32 = j := congrArg (·.2.2) hks
    omega
  have hhead := hr.ea.slot_eaNext (s := (r, i, j)) ht
  rw [hnull j hj] at hhead
  exact hr.ea.head_ne_null (ne_nil_of_mem hx) hhead.symm

theorem reclaimTables_spec (r left : Nat) : ∀ {m : Mtable} {g : Rings}, MacOnLinux.Rep m g → left ≤ 64 →
      ∃ m' done g', reclaimTables r left m = (m', done) ∧ MacOnLinux.Rep m' g' ∧
        Drops (fun _ => False) m g m' g' ∧
        (done = true → ∀ i, 64 - left ≤ i → m'.lev2 r i = none) := by
  induction left with
  | zero =>
    intro m g hr _
    refine ⟨m, true, g, rfl, hr, Drops.refl m g, fun _ i hi => ?_⟩
    cases ht : m.lev2 r i with
    | none => rfl
    | some t =>
      have := hr.tab.ind r i t ht
      omega
  | succ left ih =>
    intro m g hr hle
    -- the entries after this one, and this one
    have hstep : ∀ {m1 : Mtable} {g1 : Rings}, MacOnLinux.Rep m1 g1 → Drops (fun _ => False) m g m1 g1 →
        m1.lev2 r (64 - (left + 1)) = none → ∃ m' done g', reclaimTables r left m1 = (m', done) ∧
          MacOnLinux.Rep m' g' ∧ Drops (fun _ => False) m g m' g' ∧
          (done = true → ∀ i, 64 - (left + 1) ≤ i → m'.lev2 r i = none) := by
      intro m1 g1 hr1 hd1 hnone
      obtain ⟨m', done, g', hm', hr', hd', hrest⟩ := ih hr1 (by omega)
      refine ⟨m', done, g', hm', hr', (hd1.trans hd').congr (fun _ _ _ => or_self_iff), ?_⟩
      intro hdone i hi
      rcases eq_or_lt_of_le hi with rfl | hi
      · cases ht : m'.lev2 r (64 - (left + 1)) with
        | none => rfl
        | some t =>
          rw [hd'.lev2 _ _ _ ht] at hnone
          cases hnone
      · exact hrest hdone i (by omega)
    unfold reclaimTables
    cases ht : m.lev2 r (64 - (left + 1)) with
    | none =>
      simp only [ht]
      exact hstep hr (Drops.refl m g) ht
    | some t =>
      simp only [ht]
      split_ifs with hall
      · simp only [all_eq_true, mem_range, decide_eq_true_eq] at hall
        refine hstep (hr.freeTable ht (ea_empty hr ht hall)) (freeTable_drops ..) ?_
        have hlev2 := setLev2_lev2 m r (64 - (left + 1)) none r (64 - (left + 1))
        rw [if_pos ⟨rfl, rfl⟩] at hlev2
        exact hlev2
      · exact ⟨m, false, g, rfl, hr, Drops.refl m g, nofun⟩

/-- Empty tables, and entries without any, are given back. -/
structure Shrunk (s : Mmu) (g : Rings) (v : SlMap) (s' : Mmu) (g' : Rings) (v' : SlMap) : Prop where
  drops : Drops (fun _ => False) s.mt g s'.mt g'
  owned : ∀ e, e ∈ v'.owned ↔ e ∈ v.owned
  live : ∀ p ∈ v.live, p ∈ v'.live ∨ 0 ≤ p.1 ∧ p.1 ≤ vsidMask ∧ ∀ i < 16, s.vsid i ≠ some p.2
  old : ∀ p ∈ v'.live, p ∈ v.live
  same : s' = { s with mt := s'.mt, vsidSl := s'.vsidSl }

theorem Shrunk.refl (s : Mmu) (g : Rings) (v : SlMap) : Shrunk s g v s g v :=
  ⟨Drops.refl s.mt g, fun _ => Iff.rfl, fun _ hp => .inl hp, fun _ hp => hp, rfl⟩

theorem Shrunk.trans (h : Shrunk s g v s' g' v') (h' : Shrunk s' g' v' s'' g'' v'') :
    Shrunk s g v s'' g'' v'' := by
  refine ⟨(h.drops.trans h'.drops).congr (fun _ _ _ => or_self_iff),
    fun e => (h'.owned e).trans (h.owned e), ?_, fun p hp => h.old p (h'.old p hp), ?_⟩
  · intro p hp
    rcases h.live p hp with hp | hp
    · have hv : s'.vsid = s.vsid := by rw [h.same]
      rw [← hv]
      exact h'.live p hp
    · exact .inr hp
  · rw [h'.same, h.same]

theorem delete_live_eq {key : Int} {e : Nat} (hl : v.lookup key = some e) :
    (v.delete key).live = v.live.filter (·.1 ≠ key) := by
  unfold SlMap.delete
  rw [hl]

def iterAt (ys : List (Int × Nat)) : Node := (ys.map (Node.el ·.2)).headD .nil

def reclaimEnt (s : Mmu) (r : Nat) : Option Mmu :=
  let (mt, done) := reclaimTables r 64 s.mt
  let s := { s with mt := mt }
  let vsid : Int := s.vsidSl.key (.el r)
  if done ∧ (List.range 16).all (fun i => s.vsid i ≠ some r) ∧ 0 ≤ vsid ∧ vsid ≤ vsidMask then
    (skiplistDelete s.vsidSl vsid).map fun r => { s with vsidSl := r.1 }
  else some s

def reclaimTrace : Nat → Mmu → Node → Option (Mmu × List Nat)
  | 0, _, _ => none
  | fuel + 1, s, iter =>
    match skiplistGetnext s.vsidSl iter with
    | (false, _, _) => some (s, [])
    | (true, el, iter) =>
      match entryOf el with
      | none => none
      | some r => do
        let s ← s.reclaimEnt r
        let (s, visited) ← reclaimTrace fuel s iter
        some (s, r :: visited)

theorem reclaimTrace_loop (fuel : Nat) :
    ∀ s iter, (reclaimTrace fuel s iter).map Prod.fst = reclaimLoop fuel s iter := by
  induction fuel with
  | zero => exact fun _ _ => rfl
  | succ fuel ih =>
    intro s iter
    rw [reclaimTrace, reclaimLoop]
    rcases hnext : skiplistGetnext s.vsidSl iter with ⟨more, el, iter'⟩
    cases more with
    | false => rfl
    | true =>
      cases el with
      | el r =>
        have hrest : ∀ s', ((reclaimTrace fuel s' iter').bind fun p => some (p.1, r :: p.2)).map Prod.fst =
            reclaimLoop fuel s' iter' := by
          intro s'
          rw [← ih]
          cases reclaimTrace fuel s' iter' <;> rfl
        simp only [entryOf, reclaimEnt]
        split
        · cases skiplistDelete s.vsidSl (s.vsidSl.key (.el r)) with
          | none => rfl
          | some p => exact hrest _
        · exact hrest _
      | _ => rfl

/-- One element: its empty tables, and the element itself when nothing needs it. -/
theorem reclaimEnt_spec (h : Inv s g v) {xs ys : List (Int × Nat)} {y : Int × Nat}
    (hv : v.live = xs ++ y :: ys) :
    ∃ s' g' v' xs', s.reclaimEnt y.2 = some s' ∧ s.vsidSl.next 0 (.el y.2) = iterAt ys ∧
      Inv s' g' v' ∧ Shrunk s g v s' g' v' ∧ v'.live = xs' ++ ys := by
  have hmem : y ∈ v.live := by rw [hv]; simp
  obtain ⟨mt, done, g', hmt, hr, hd, hdone⟩ := reclaimTables_spec y.2 64 h.rep (le_refl 64)
  have hkey : s.vsidSl.key (.el y.2) = y.1 := (h.sl.keys y hmem).1
  have hnext : s.vsidSl.next 0 (.el y.2) = iterAt ys := by
    have hc := h.sl.levels 0 (by decide)
    rw [levelNodes_zero, hv, map_append, map_cons, chain_append_cons] at hc
    exact seg_head hc.2
  have h1 := h.drops hr hd
  have hmt1 : Shrunk s g v { s with mt := mt } g' v :=
    ⟨hd, fun _ => Iff.rfl, fun _ hp => .inl hp, fun _ hp => hp, rfl⟩
  by_cases hdel : done = true ∧ (range 16).all (fun i => s.vsid i ≠ some y.2) ∧ 0 ≤ y.1 ∧ y.1 ≤ vsidMask
  · have hend : y.1 < skiplistEnd := by
      have := hdel.2.2.2
      unfold vsidMask at this
      unfold skiplistEnd
      omega
    obtain ⟨sl, hsl, hrep, hfresh, hds⟩ := skiplist_delete_spec h.sl hend
    have hlook : v.lookup y.1 = some y.2 := (lookup_eq_some h.sl.sorted).mpr hmem
    have hperm : ∀ e, e ∈ (v.delete y.1).owned ↔ e ∈ v.owned :=
      fun e => (delete_perm h.sl.sorted y.1).mem_iff
    have hother : ∀ p ∈ v.live, p ≠ y → p ∈ (v.delete y.1).live := by
      intro p hp hne
      rw [delete_live_eq hlook, mem_filter]
      refine ⟨hp, decide_eq_true fun hk => hne ?_⟩
      have hp' := (lookup_eq_some h.sl.sorted).mpr hp
      rw [hk, hlook] at hp'
      exact Prod.ext hk (Option.some.inj hp').symm
    refine ⟨{ s with mt := mt, vsidSl := sl }, g', v.delete y.1, xs, ?_, hnext, ?_, ?_, ?_⟩
    · simp only [reclaimEnt, hmt, hkey]
      rw [if_pos hdel, hsl, Option.map_some]
    · refine ⟨hr, hrep, hds.trans h.datasize, ?_, h1.ranges, h.sess, h.ctx,
        h.vsids.mono rfl fun e he => ⟨(hperm e).mp he, fun _ => rfl⟩⟩
      intro r i t ht
      obtain ⟨p, hp, rfl⟩ := mem_map.mp (h1.live r i t ht)
      refine mem_map_of_mem (hother p hp ?_)
      rintro rfl
      have ht' : mt.lev2 p.2 i = some t := ht
      rw [hdone hdel.1 i (Nat.zero_le i)] at ht'
      cases ht'
    · refine ⟨hd, hperm, ?_, ?_, rfl⟩
      · intro p hp
        by_cases hpy : p = y
        · subst hpy
          refine .inr ⟨hdel.2.2.1, hdel.2.2.2, fun i hi => ?_⟩
          have := all_eq_true.mp hdel.2.1 i (mem_range.mpr hi)
          exact of_decide_eq_true this
        · exact .inl (hother p hp hpy)
      · intro p hp
        rw [delete_live_eq hlook] at hp
        exact mem_of_mem_filter hp
    · have hsorted := h.sl.sorted
      rw [hv, pairwise_append] at hsorted
      rw [delete_live_eq hlook, hv, filter_append, filter_cons_of_neg (by simp)]
      congr 1
      · rw [filter_eq_self]
        intro x hx
        have := hsorted.2.2 x hx y mem_cons_self
        exact decide_eq_true (by omega)
      · rw [filter_eq_self]
        intro x hx
        have := (pairwise_cons.mp hsorted.2.1).1 x hx
        exact decide_eq_true (by omega)
  · refine ⟨{ s with mt := mt }, g', v, xs ++ [y], ?_, hnext, h1, hmt1, by rw [hv]; simp⟩
    simp only [reclaimEnt, hmt, hkey]
    rw [if_neg hdel]

theorem reclaimTrace_spec (ys : List (Int × Nat)) :
    ∀ {s : Mmu} {g : Rings} {v : SlMap} {xs : List (Int × Nat)} {fuel : Nat}, Inv s g v →
      v.live = xs ++ ys → ys.length < fuel →
      ∃ s' g' v', reclaimTrace fuel s (iterAt ys) = some (s', ys.map (·.2)) ∧ Inv s' g' v' ∧
        Shrunk s g v s' g' v' := by
  induction ys with
  | nil =>
    intro s g v xs fuel h hv hf
    obtain _ | fuel := fuel
    · cases hf
    exact ⟨s, g, v, rfl, h, Shrunk.refl s g v⟩
  | cons y ys ih =>
    intro s g v xs fuel h hv hf
    obtain _ | fuel := fuel
    · cases hf
    obtain ⟨s1, g1, v1, xs1, hs1, hnext, h1, hsh1, hv1⟩ := reclaimEnt_spec h hv
    obtain ⟨s2, g2, v2, hs2, h2, hsh2⟩ := ih h1 hv1 (by simpa using hf)
    refine ⟨s2, g2, v2, ?_, h2, hsh1.trans hsh2⟩
    show reclaimTrace (fuel + 1) s (.el y.2) = _
    simp [reclaimTrace, skiplistGetnext, ne_eq, reduceCtorEq, decide_true, entryOf, hnext, hs1,
      some_bind, hs2, map_cons]

def mtableReclaimTrace (s : Mmu) : Option (Mmu × List Nat) :=
  reclaimTrace (s.vsidSl.fresh + 1) s (skiplistIterate s.vsidSl)

theorem mtableReclaimTrace_eq (s : Mmu) : s.mtableReclaimTrace.map Prod.fst = s.mtableReclaim :=
  reclaimTrace_loop ..

theorem mtableReclaimTrace_spec (h : Inv s g v) :
    ∃ s' g' v', s.mtableReclaimTrace = some (s', v.live.map (·.2)) ∧ Inv s' g' v' ∧
      Shrunk s g v s' g' v' := by
  have hlen := h.sl.length_live
  have hc := h.sl.levels 0 (by decide)
  rw [levelNodes_zero] at hc
  have hiter : skiplistIterate s.vsidSl = iterAt v.live := seg_head hc
  unfold mtableReclaimTrace
  rw [hiter]
  exact reclaimTrace_spec v.live h (nil_append _).symm (by omega)

theorem mtableReclaim_spec (h : Inv s g v) :
    ∃ s' g' v', s.mtableReclaim = some s' ∧ Inv s' g' v' ∧ Shrunk s g v s' g' v' := by
  obtain ⟨s', g', v', hs', h', hsh⟩ := mtableReclaimTrace_spec h
  refine ⟨s', g', v', ?_, h', hsh⟩
  rw [← mtableReclaimTrace_eq, hs', Option.map_some]

end MacOnLinux.Mmu
