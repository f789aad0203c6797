import MacOnLinux.Mtable.Flush

/-! # Flushing ranges -/

namespace MacOnLinux

open Function Linked Mtable List

variable {m m' : Mtable} {g g' : Rings} {x h : Ptr} {s : Slot} {k : Key} {t : Nat}

variable {r b o stop e ea n j i : Nat} {lvr : LvRange} {lvptr : Word}

/-! ## Host pages -/

def PageSized (m : Mtable) : Prop := ∀ lvr ∈ m.lvranges, lvr.size.toNat % 4096 = 0

theorem PageSized.congr (hp : PageSized m) (he : m'.lvranges = m.lvranges) : PageSized m' := by
  unfold PageSized
  rw [he]
  exact hp

theorem SameRecs.pageSized (h : SameRecs m m') (hp : PageSized m) : PageSized m' := by
  unfold PageSized
  rw [h.lvranges]
  exact hp

theorem LvRange.isHead (hm : lvr ∈ m.lvranges) (hs : lvr.size.toNat % 4096 = 0)
    (hc : lvr.contains lvptr = true) :
    m.IsHead (lvr.headOf lvptr) := by
  refine ⟨lvr, hm, ((lvptr - lvr.base) >>> 12).toNat, ?_, rfl⟩
  have hlt : (lvptr - lvr.base).toNat < lvr.size.toNat := by
    simpa [LvRange.contains, BitVec.lt_def] using hc
  simp only [LvRange.pages, BitVec.toNat_ushiftRight]
  omega

theorem PageSized.find_isHead (hp : PageSized m)
    (hf : m.lvranges.find? (·.contains lvptr) = some lvr) : m.IsHead (lvr.headOf lvptr) := by
  have hc := find?_some hf
  have hm := mem_of_find?_eq_some hf
  exact LvRange.isHead hm (hp lvr hm) hc

def OnHost (m : Mtable) (g : Rings) (lvptr : Word) (x : Ptr) : Prop :=
  ∃ lvr, m.lvranges.find? (·.contains lvptr) = some lvr ∧ host m g x = some (lvr.headOf lvptr)

theorem Drops.onHost {P : Ptr → Prop} (hd : Drops P m g m' g') (hk : g'.role x = .ea k)
    (lvptr : Word) : OnHost m' g' lvptr x ↔ OnHost m g lvptr x := by
  obtain ⟨_, e2, e3⟩ := hd.kept x k hk
  unfold OnHost host
  rw [hd.same.lvranges, e2, e3]

theorem flushLvRangeLoop_spec :
    ∀ (fuel : Nat) (m : Mtable) (g : Rings) (lvbase : Word) (size : Int), Rep m g → PageSized m →
      size ≤ 4096 * fuel →
      ∃ m' g', flushLvRangeLoop (fuel + 1) m lvbase size = some m' ∧ Rep m' g' ∧
        Drops (fun x => ∃ n : Nat, (4096 * n : Int) < size ∧
          OnHost m g (lvbase + BitVec.ofNat 32 (4096 * n)) x) m g m' g' := by
  intro fuel
  induction fuel with
  | zero =>
    intro m g lvbase size hr _ hsize
    refine ⟨m, g, ?_, hr, (Drops.refl m g).congr ?_⟩
    · rw [flushLvRangeLoop, if_neg (by omega)]
    · intro x k _
      refine iff_of_false id ?_
      rintro ⟨n, hn, _⟩
      omega
  | succ fuel ih =>
    intro m g lvbase size hr hp hsize
    rw [flushLvRangeLoop]
    by_cases hpos : size > 0
    · obtain ⟨m1, g1, hm1, hr1, hd1⟩ := flushLvptr_spec hr fun lvr hf => hp.find_isHead hf
      obtain ⟨m', g', hm', hr', hd'⟩ :=
        ih m1 g1 (lvbase + 0x1000) (size - 0x1000) hr1 (hd1.same.pageSized hp) (by omega)
      -- page `n` of the rest is page `n + 1`
      have hstep : ∀ n : Nat, lvbase + 0x1000 + BitVec.ofNat 32 (4096 * n) =
          lvbase + BitVec.ofNat 32 (4096 * (n + 1)) := by
        intro n
        rw [BitVec.add_assoc, Nat.mul_add, Nat.add_comm, BitVec.ofNat_add]
        rfl
      rw [if_pos hpos, hm1]
      refine ⟨m', g', hm', hr', hd1.seq hd' ?_ ?_⟩
      · intro x k _ hx
        refine ⟨0, by omega, ?_⟩
        rw [BitVec.add_zero]
        exact hx
      intro x k hk hx
      constructor
      · rintro ⟨n, hn, hon⟩
        rw [hstep, hd1.onHost hk] at hon
        exact ⟨n + 1, by push_cast; omega, hon⟩
      rintro ⟨n, hn, hon⟩
      cases n with
      | zero =>
        rw [BitVec.add_zero] at hon
        exact absurd hon hx
      | succ n =>
        refine ⟨n, by push_cast at hn; omega, ?_⟩
        rw [hstep, hd1.onHost hk]
        exact hon
    · refine ⟨m, g, if_neg hpos, hr, (Drops.refl m g).congr ?_⟩
      intro x k _
      refine iff_of_false id ?_
      rintro ⟨n, hn, _⟩
      omega

theorem flushLvRange_spec (hr : Rep m g) (hp : PageSized m) (lvbase size : Word) :
    ∃ m' g', m.flushLvRange lvbase size = some m' ∧ Rep m' g' ∧
      Drops (fun x => ∃ n : Nat, (4096 * n : Int) < size.toInt ∧
        OnHost m g (lvbase + BitVec.ofNat 32 (4096 * n)) x) m g m' g' := by
  refine flushLvRangeLoop_spec (2 ^ 19) m g lvbase size.toInt hr hp ?_
  have hlt : size.toInt < 2147483648 := by simpa using BitVec.toInt_lt (x := size)
  omega

/-! ## Effective addresses -/

def InRange (g : Rings) (r lo hi : Nat) (x : Ptr) : Prop :=
  ∃ k e, g.role x = .ea k ∧ k.r = r ∧ lo ≤ e ∧ e < hi ∧ k.page = pageOf e

theorem flushPelist_spec {more : Nat → Bool} (ho : o < 4096) (hb : b % 2 ^ 17 = 0)
    (hb' : b < 2 ^ 30) (hmore : ∀ e, e / 2 ^ 17 * 2 ^ 17 = b → (more e = true ↔ e < stop)) :
    ∀ (fuel : Nat) (m : Mtable) (g : Rings) (i : Nat), Rep m g →
      m.lev2 r (b / 2 ^ 17 % 64) = some t → i ≤ 32 → 32 - i < fuel →
      ∃ m' g' j, flushPelist r t more fuel m i (b + 4096 * i + o) = some (m', b + 4096 * j + o) ∧
        Rep m' g' ∧ i ≤ j ∧ j ≤ 32 ∧ (j = 32 ∨ stop ≤ b + 4096 * j + o) ∧
        (i < j → b + 4096 * (j - 1) + o < stop) ∧
        Drops (fun x => ∃ n k, i ≤ n ∧ n < j ∧ g.role x = .ea k ∧ k.r = r ∧
          k.page = pageOf (b + 4096 * n)) m g m' g' := by
  intro fuel
  induction fuel with
  | zero => intro m g i _ _ _ hf; omega
  | succ fuel ih =>
    intro m g i hr ht hi hf
    rw [flushPelist]
    by_cases hgo : i < 32 ∧ b + 4096 * i + o < stop
    · have hea : lev2Ind (b + 4096 * i + o) = b / 2 ^ 17 % 64 := by unfold lev2Ind; omega
      have hpe : pelistInd (b + 4096 * i + o) = i := by unfold pelistInd; omega
      have hpage : pageOf (b + 4096 * i + o) = pageOf (b + 4096 * i) := by unfold pageOf; omega
      have hcond : i < 32 ∧ more (b + 4096 * i + o) = true :=
        ⟨hgo.1, (hmore _ (by omega)).mpr hgo.2⟩
      obtain ⟨m1, g1, hm1, hr1, hd1, hsame⟩ := flushVsidEa_spec hr r (b + 4096 * i + o)
      have hm1' : m.flushSlot r t i (b + 4096 * i + o) = some m1 := by
        rw [← hm1]
        unfold flushSlot flushVsidEa_
        rw [hea, ht, hpe]
        split_ifs with h0
        · simp [h0]
        · rfl
      have hnext : (b + 4096 * i + o + 0x1000) % 2 ^ 32 = b + 4096 * (i + 1) + o := by omega
      obtain ⟨m', g', j, hm', hr', hij, hj, hjs, hlast, hd'⟩ :=
        ih m1 g1 (i + 1) hr1 (by rw [hsame.lev2]; exact ht) (by omega) (by omega)
      rw [if_pos hcond, hnext, hm1']
      refine ⟨m', g', j, hm', hr', by omega, hj, hjs, ?_, hd1.seq hd' ?_ ?_⟩
      · intro _
        by_cases hj' : i + 1 < j
        · exact hlast hj'
        · obtain rfl : j = i + 1 := by omega
          simpa using hgo.2
      · rintro x k hk ⟨k', hk', hkr, hkp⟩
        exact ⟨i, k', le_refl i, by omega, hk', hkr, hkp.trans hpage⟩
      intro x k hk hx
      have hkg := hd1.tracked x k hk
      constructor
      · rintro ⟨n, k', hn, hnj, hk', hkr, hkp⟩
        rw [hk] at hk'
        cases hk'
        exact ⟨n, k, by omega, hnj, hkg, hkr, hkp⟩
      rintro ⟨n, k', hn, hnj, hk', hkr, hkp⟩
      rw [hkg] at hk'
      cases hk'
      have hni : n ≠ i := by
        rintro rfl
        exact hx ⟨k, hkg, hkr, hkp.trans hpage.symm⟩
      exact ⟨n, k, by omega, hnj, hk, hkr, hkp⟩
    · have hcond : ¬ (i < 32 ∧ more (b + 4096 * i + o) = true) := by
        rintro ⟨h1, h2⟩
        exact hgo ⟨h1, (hmore _ (by omega)).mp h2⟩
      rw [if_neg hcond]
      refine ⟨m, g, i, rfl, hr, le_refl i, hi, by omega, by omega, (Drops.refl m g).congr ?_⟩
      intro x k _
      refine iff_of_false id ?_
      rintro ⟨n, _, h1, h2, _⟩
      omega

theorem EaPart.no_record (h : EaPart m g) (ht : m.lev2 r (lev2Ind e) = none)
    (hk : g.role x = .ea k) (hr : k.r = r) : k.page ≠ pageOf e := by
  intro hp
  obtain ⟨t, ht'⟩ := h.lev2_of_mem ((h.mem _ x).mpr ⟨k, hk, rfl⟩)
  rw [Key.slot, hp, slotOf_pageOf, hr] at ht'
  rw [show m.lev2 r (lev2Ind e) = some t from ht'] at ht
  cases ht

theorem ea_split (ea : Nat) : ea = ea / 2 ^ 17 * 2 ^ 17 + 4096 * pelistInd ea + ea % 4096 := by
  unfold pelistInd; omega

theorem pageOf_slot (ea : Nat) : pageOf (ea / 2 ^ 17 * 2 ^ 17 + 4096 * pelistInd ea) = pageOf ea := by
  unfold pageOf pelistInd; omega

theorem lt_slot (hn : pelistInd ea < n) : ea < ea / 2 ^ 17 * 2 ^ 17 + 4096 * n := by
  unfold pelistInd at hn; omega

theorem exists_slot (ha : ea % 4096 = 0) (he : ea ≤ e) (hj : e < ea / 2 ^ 17 * 2 ^ 17 + 4096 * j) :
    ∃ n, pelistInd ea ≤ n ∧ n < j ∧ pageOf e = pageOf (ea / 2 ^ 17 * 2 ^ 17 + 4096 * n) := by
  refine ⟨(e - ea / 2 ^ 17 * 2 ^ 17) / 4096, ?_, ?_, ?_⟩
  · unfold pelistInd; omega
  · omega
  · unfold pageOf; omega

theorem slot_lt (hn : n < j) (hl : b + 4096 * (j - 1) + o < stop) : b + 4096 * n < stop := by omega

/-- From a page boundary the loop drops the whole range, from elsewhere a part of it. -/
theorem flushEaLoop_spec (r stop : Nat) (more : Nat → Bool) (hstop : stop ≤ 2 ^ 30)
    (hmore : ∀ e, e / 2 ^ 17 * 2 ^ 17 < stop → (more e = true ↔ e < stop)) :
    ∀ (fuel : Nat) (m : Mtable) (g : Rings) (ea : Nat), Rep m g →
      (stop + 131071) / 2 ^ 17 ≤ ea / 2 ^ 17 + fuel ∨ stop ≤ ea →
      ∃ m' g' P, flushEaLoop r stop more (fuel + 1) m ea = some m' ∧ Rep m' g' ∧
        Drops P m g m' g' ∧ (∀ x, P x → InRange g r ea stop x) ∧
        (ea % 4096 = 0 → ∀ x, InRange g r ea stop x → P x) := by
  intro fuel
  induction fuel with
  | zero =>
    intro m g ea hr hf
    refine ⟨m, g, _, ?_, hr, Drops.refl m g, fun _ => False.elim, ?_⟩
    · rw [flushEaLoop, if_neg (by omega)]
    · rintro _ x ⟨k, e, _, _, h1, h2, _⟩
      omega
  | succ fuel ih =>
    intro m g ea hr hf
    rw [flushEaLoop]
    by_cases hlt : ea < stop
    · rw [if_pos hlt]
      have hlev : ∀ e, e / 2 ^ 17 = ea / 2 ^ 17 → lev2Ind e = lev2Ind ea := by
        intro e he
        unfold lev2Ind
        rw [he]
      split
      · rename_i ht
        -- no table: nothing to drop up to the next one
        have hnext : (ea / 2 ^ 17 * 2 ^ 17 + 2 ^ 17) % 2 ^ 32 = ea / 2 ^ 17 * 2 ^ 17 + 2 ^ 17 := by
          omega
        obtain ⟨m', g', P, hm', hr', hd, hsound, hcompl⟩ :=
          ih m g (ea / 2 ^ 17 * 2 ^ 17 + 2 ^ 17) hr (by omega)
        rw [hnext]
        refine ⟨m', g', P, hm', hr', hd, ?_, ?_⟩
        · intro x hx
          obtain ⟨k, e, hk, hkr, h1, h2, hp⟩ := hsound x hx
          exact ⟨k, e, hk, hkr, by omega, h2, hp⟩
        · rintro _ x ⟨k, e, hk, hkr, h1, h2, hp⟩
          refine hcompl (by omega) x ⟨k, e, hk, hkr, ?_, h2, hp⟩
          by_contra hlow
          have he : e / 2 ^ 17 = ea / 2 ^ 17 := by omega
          exact hr.ea.no_record (by rw [hlev e he]; exact ht) hk hkr hp
      · rename_i t ht
        have hsplit := ea_split ea
        obtain ⟨m1, g1, j, hm1, hr1, hij, hj, hjs, hlast, hd1⟩ :=
          flushPelist_spec (o := ea % 4096) (Nat.mod_lt _ (by decide))
            (show ea / 2 ^ 17 * 2 ^ 17 % 2 ^ 17 = 0 by omega) (by omega)
            (fun e he => hmore e (by omega)) 33 m g (pelistInd ea) hr
            (show m.lev2 r (ea / 2 ^ 17 * 2 ^ 17 / 2 ^ 17 % 64) = some t by
              rw [Nat.mul_div_cancel _ (by decide)]; exact ht) (by omega) (by omega)
        obtain ⟨m', g', P, hm', hr', hd', hsound, hcompl⟩ :=
          ih m1 g1 (ea / 2 ^ 17 * 2 ^ 17 + 4096 * j + ea % 4096) hr1 (by omega)
        rw [← hsplit] at hm1
        rw [hm1]
        refine ⟨m', g', _, hm', hr', hd1.trans hd', ?_, ?_⟩
        · rintro x (⟨n, k, h1, h2, hk, hkr, hp⟩ | hx)
          · by_cases hn : n = pelistInd ea
            · refine ⟨k, ea, hk, hkr, le_refl ea, hlt, hp.trans ?_⟩
              rw [hn, pageOf_slot]
            · have he := lt_slot (lt_of_le_of_ne h1 (Ne.symm hn))
              have he' := slot_lt h2 (hlast (lt_of_le_of_lt h1 h2))
              exact ⟨k, _, hk, hkr, le_of_lt he, he', hp⟩
          · obtain ⟨k, e, hk, hkr, h1, h2, hp⟩ := hsound x hx
            exact ⟨k, e, hd1.tracked x k hk, hkr, by omega, h2, hp⟩
        · rintro halign x ⟨k, e, hk, hkr, h1, h2, hp⟩
          by_cases hx : ∃ n k, pelistInd ea ≤ n ∧ n < j ∧ g.role x = .ea k ∧ k.r = r ∧
              k.page = pageOf (ea / 2 ^ 17 * 2 ^ 17 + 4096 * n)
          · exact .inl hx
          · refine .inr (hcompl (by omega) x ⟨k, e, (hd1.role x k).mpr ⟨hk, hx⟩, hkr, ?_, h2, hp⟩)
            by_contra hlow
            rw [halign, add_zero] at hlow
            obtain ⟨n, hn, hnj, hpage⟩ := exists_slot halign h1 (Nat.lt_of_not_le hlow)
            exact hx ⟨n, k, hn, hnj, hk, hkr, hp.trans hpage⟩
    · refine ⟨m, g, _, if_neg hlt, hr, Drops.refl m g, fun _ => False.elim, ?_⟩
      rintro _ x ⟨k, e, _, _, h1, h2, _⟩
      omega

theorem flushEaRangeOf_spec (hr : Rep m g) (r : Nat) {orgEa size : Nat} (hea : orgEa < 2 ^ 28)
    (hsize : size ≤ 2 ^ 28) :
    ∃ m' g' P, m.flushEaRangeOf r orgEa size = some m' ∧ Rep m' g' ∧ Drops P m g m' g' ∧
      (∀ x, P x → InRange g r orgEa (orgEa + size) x) ∧
      (orgEa % 4096 = 0 → ∀ x, InRange g r orgEa (orgEa + size) x → P x) := by
  have hmod : (orgEa + size) % 2 ^ 32 = orgEa + size := Nat.mod_eq_of_lt (by omega)
  obtain ⟨m', g', P, hm', hrest⟩ :=
    flushEaLoop_spec r (orgEa + size) (· < orgEa + size) (by omega) (fun e _ => decide_eq_true_iff)
      (2 ^ 15) m g orgEa hr (by omega)
  refine ⟨m', g', P, ?_, hrest⟩
  unfold flushEaRangeOf
  rw [hmod]
  exact hm'

theorem flushVsidLoop_spec (hr : Rep m g) (r : Nat) :
    ∃ m' g', flushEaLoop r 0x10000000 (fun _ => true) eaRounds m 0 = some m' ∧ Rep m' g' ∧
      Drops (fun x => ∃ k, g.role x = .ea k ∧ k.r = r) m g m' g' := by
  obtain ⟨m', g', P, hm', hr', hd, hsound, hcompl⟩ :=
    flushEaLoop_spec r 0x10000000 (fun _ => true) (by decide)
      (fun e he => iff_of_true rfl (by omega)) (2 ^ 15) m g 0 hr (by omega)
  refine ⟨m', g', hm', hr', hd.congr ?_⟩
  intro x k hk
  constructor
  · intro hx
    obtain ⟨k', e, hk', hkr, _⟩ := hsound x hx
    exact ⟨k', hk', hkr⟩
  · rintro ⟨k', hk', hkr⟩
    have hlt := (hr.ea.pent x k' hk').1
    refine hcompl rfl x ⟨k', k'.page * 4096, hk', hkr, Nat.zero_le _, by omega, ?_⟩
    unfold pageOf
    omega

/-! ## Level 2 tables -/

theorem Rep.freeTable (hr : Rep m g) (ht : m.lev2 r i = some t) (hempty : ∀ j, g.ea (r, i, j) = []) :
    Rep ((m.setLev2 r i none).pushLev2 t) { g with tabs := t :: g.tabs } := by
  have hlev2 : ∀ r' i', ((m.setLev2 r i none).pushLev2 t).lev2 r' i' =
      if r' = r ∧ i' = i then none else m.lev2 r' i' := setLev2_lev2 m r i none
  have hnext : ∀ q ≠ Ptr.slot t 0, ((m.setLev2 r i none).pushLev2 t).eaNext q = m.eaNext q :=
    fun q hq => update_of_ne hq ..
  have hother : ∀ r' i' t', ((m.setLev2 r i none).pushLev2 t).lev2 r' i' = some t' →
      m.lev2 r' i' = some t' ∧ t' ≠ t := by
    intro r' i' t' ht'
    rw [hlev2] at ht'
    split at ht'
    · cases ht'
    · rename_i hne
      refine ⟨ht', ?_⟩
      rintro rfl
      exact hne (hr.tab.inj _ _ _ _ _ ht' ht)
  refine ⟨⟨?_, hr.ea.nodup, hr.ea.mem, hr.ea.pent, hr.ea.uniq, hr.ea.record⟩, ?_, ?_, hr.settled⟩
  · intro s
    have hring := hr.ea.ring s
    unfold EaRing at hring ⊢
    cases ht' : ((m.setLev2 r i none).pushLev2 t).lev2 s.1 s.2.1 with
    | none =>
      rw [hlev2] at ht'
      split at ht'
      · rename_i he
        obtain ⟨r', i', j⟩ := s
        obtain ⟨rfl, rfl⟩ := he
        exact hempty j
      · rwa [ht'] at hring
    | some t' =>
      obtain ⟨ht', hne⟩ := hother _ _ _ ht'
      rw [ht'] at hring
      refine RingAt.congr hring ?_ (fun _ _ => rfl)
      intro q hq
      refine hnext q ?_
      rintro rfl
      rcases mem_cons.mp hq with he | hq
      · exact hne (Ptr.slot.inj he).1.symm
      · exact hr.ea.slot_notMem s t 0 hq
  · exact hr.lv.congr ⟨rfl, rfl, rfl, rfl, rfl, rfl⟩ rfl rfl (fun _ _ => ⟨rfl, fun _ => rfl⟩) rfl rfl rfl
      rfl
  have htt := hr.tab.used r i t ht
  have hnull : ∀ j, m.eaNext (.slot t j) = .null := by
    intro j
    have hring := hr.ea.ringAt (s := (r, i, j)) ht
    rw [hempty j] at hring
    exact (hring.resolve_right fun h0 => h0.1 rfl).2
  refine ⟨?_, ?_, ?_, ?_, ?_, ?_, ?_⟩
  · refine seg_cons.mpr ⟨rfl, ?_⟩
    show Seg (update m.eaNext (.slot t 0) m.freePentTables)
      (update m.eaNext (.slot t 0) m.freePentTables (.slot t 0)) _ _
    rw [update_self, seg_update]
    · exact hr.tab.list
    · intro hm
      obtain ⟨t', ht', he⟩ := mem_map.mp hm
      cases he
      exact htt.1 ht'
  · exact nodup_cons.mpr ⟨htt.1, hr.tab.nodup⟩
  · intro t' ht' j hj
    rw [hnext _ (by simp [hj])]
    rcases mem_cons.mp ht' with rfl | ht'
    · exact hnull j
    · exact hr.tab.empty t' ht' j hj
  · intro t' ht'
    rcases mem_cons.mp ht' with rfl | ht'
    · exact htt.2
    · exact hr.tab.bound t' ht'
  · intro r' i' t' ht'
    obtain ⟨ht', hne⟩ := hother _ _ _ ht'
    obtain ⟨h1, h2⟩ := hr.tab.used _ _ _ ht'
    exact ⟨by simp [hne, h1], h2⟩
  · intro r1 i1 r2 i2 t' h1 h2
    exact hr.tab.inj _ _ _ _ _ (hother _ _ _ h1).1 (hother _ _ _ h2).1
  · intro r' i' t' ht'
    exact hr.tab.ind _ _ _ (hother _ _ _ ht').1

theorem freeTable_drops (m : Mtable) (g : Rings) (r i t : Nat) (tabs : List Nat) :
    Drops (fun _ => False) m g ((m.setLev2 r i none).pushLev2 t) { g with tabs := tabs } := by
  refine ⟨fun _ _ => (and_iff_left not_false).symm, fun _ _ _ => ⟨rfl, rfl, rfl⟩,
    fun _ _ _ h => h.elim, fun _ => .inl rfl, id, fun _ => nofun, ?_,
    ⟨rfl, rfl, rfl, rfl, rfl, rfl⟩, .of_eq rfl⟩
  intro r' i' t' ht'
  have ht' : update m.lev2 r (update (m.lev2 r) i none) r' i' = some t' := ht'
  rw [update_apply] at ht'
  split at ht'
  · rename_i hr
    rw [update_apply] at ht'
    split at ht'
    · cases ht'
    · rw [hr]; exact ht'
  · exact ht'

theorem freeLev2_spec (hr : Rep m g) (hempty : ∀ j, g.ea (r, i, j) = []) :
    ∃ tabs, Rep (m.freeLev2 r i) { g with tabs := tabs } ∧
      Drops (fun _ => False) m g (m.freeLev2 r i) { g with tabs := tabs } ∧
      (m.freeLev2 r i).lev2 r i = none := by
  unfold freeLev2
  cases ht : m.lev2 r i with
  | none => exact ⟨g.tabs, hr, Drops.refl m g, ht⟩
  | some t =>
    refine ⟨t :: g.tabs, hr.freeTable ht hempty, freeTable_drops .., ?_⟩
    show update m.lev2 r (update (m.lev2 r) i none) r i = none
    simp

theorem freeLev2s_spec (is : List Nat) :
    ∀ {m : Mtable} {g : Rings}, Rep m g → (∀ i j, g.ea (r, i, j) = []) →
      ∃ tabs, Rep (is.foldl (fun m i => m.freeLev2 r i) m) { g with tabs := tabs } ∧
        Drops (fun _ => False) m g (is.foldl (fun m i => m.freeLev2 r i) m) { g with tabs := tabs } ∧
        ∀ i ∈ is, (is.foldl (fun m i => m.freeLev2 r i) m).lev2 r i = none := by
  induction is with
  | nil => intro m g hr _; exact ⟨g.tabs, hr, Drops.refl m g, nofun⟩
  | cons i is ih =>
    intro m g hr hempty
    obtain ⟨tabs, hr1, hd1, hnone⟩ := freeLev2_spec hr (hempty i)
    obtain ⟨tabs', hr2, hd2, hnone'⟩ := ih hr1 hempty
    refine ⟨tabs', hr2, (hd1.trans hd2).congr (fun _ _ _ => or_self_iff), ?_⟩
    intro i' hi'
    rcases mem_cons.mp hi' with rfl | hi'
    · cases ht : (foldl (fun m i => m.freeLev2 r i) (m.freeLev2 r i') is).lev2 r i' with
      | none => exact ht
      | some t =>
        rw [hd2.lev2 _ _ _ ht] at hnone
        cases hnone
    · exact hnone' i' hi'

theorem flushVsid_spec (hr : Rep m g) (r : Nat) : ∃ m' g', m.flushVsid r = some m' ∧ Rep m' g' ∧
      Drops (fun x => ∃ k, g.role x = .ea k ∧ k.r = r) m g m' g' ∧ ∀ i, m'.lev2 r i = none := by
  obtain ⟨m1, g1, hm1, hr1, hd1⟩ := flushVsidLoop_spec hr r
  have hempty : ∀ i j, g1.ea (r, i, j) = [] := by
    intro i j
    refine eq_nil_iff_forall_not_mem.mpr fun x hx => ?_
    obtain ⟨k, hk, hks⟩ := (hr1.ea.mem _ _).mp hx
    obtain ⟨hk, hne⟩ := (hd1.role x k).mp hk
    exact hne ⟨k, hk, congrArg Prod.fst hks⟩
  obtain ⟨tabs, hr2, hd2, hnone⟩ := freeLev2s_spec (range 64) hr1 hempty
  refine ⟨_, _, ?_, hr2, hd1.seq hd2 (fun _ _ _ => id) ?_, ?_⟩
  · unfold flushVsid
    rw [hm1, some_bind]
  · intro x k _ hx
    exact iff_of_false id hx
  intro i
  cases ht : ((range 64).foldl (fun m i => m.freeLev2 r i) m1).lev2 r i with
  | none => rfl
  | some t =>
    rw [hnone i (mem_range.mpr (hr2.tab.ind _ _ _ ht))] at ht
    cases ht

end MacOnLinux
