import MacOnLinux.Mtable.Rings

/-! # Flushing -/

namespace MacOnLinux

open Function Linked Mtable List

variable {m m' m'' : Mtable} {g g' g'' : Rings} {x y h p : Ptr} {s : Slot} {k : Key} {t : Nat}
variable {xs ys zs : List Ptr}

/-! ## One record -/

structure Released (x : Ptr) (m : Mtable) (g : Rings) (m' : Mtable) (g' : Rings) : Prop where
  eaNext : m'.eaNext = m.eaNext
  pent : ∀ y ≠ x, m'.pent y = m.pent y
  pte0 : m'.pte0 = m.pte0
  pents : m.freePents ≠ .null → m'.freePents ≠ .null
  same : SameTables m m'
  ea : g'.ea = g.ea
  tabs : g'.tabs = g.tabs
  role : ∀ y ≠ x, g'.role y = g.role y
  gone : g'.role x = .idle ∨ g'.role x = .free
  ring : ∀ y ≠ x, g'.ring y = g.ring y

theorem Released.not_ea (h : Released x m g m' g') (k : Key) : g'.role x ≠ .ea k := by
  rcases h.gone with he | he <;> rw [he] <;> exact nofun

theorem releaseLv_spec (h : LvPart m g) (hx : g.role x = .ea k) :
    ∃ m' g', m.releaseLv x (m.pent x) = some m' ∧ LvPart m' g' ∧ Released x m g m' g' := by
  unfold releaseLv
  have hown : m.IsHead x ∨ m.IsPlain x := h.owned x (by rw [hx]; exact nofun)
  rcases hown with hh | hp
  · rw [if_pos (h.head x hh).1]
    refine ⟨_, _, rfl, h.setHead (r := .idle) hh rfl nofun (iff_of_true rfl rfl), ?_⟩
    refine ⟨rfl, fun y hy => update_of_ne hy _ _, rfl, id, SameTables.setPent .., rfl, rfl,
      fun y hy => update_of_ne hy _ _, .inl ?_, fun _ _ => rfl⟩
    rw [setRole_role, if_pos rfl]
  have hnull := (h.plain x hp).2.2 k hx
  have hl : LvPart m (g.setRole x .limbo) :=
    h.setRole (by rw [hx]; exact nofun) (by rw [hx]; exact nofun) nofun nofun nofun
  have hlx : (g.setRole x .limbo).role x = .limbo := by rw [setRole_role, if_pos rfl]
  obtain ⟨f, hf, hl⟩ := hl.unlinkLv hlx hnull
  have hring : ((g.setRole x .limbo).leave x).ring x = none := by rw [leave_ring, if_pos rfl]
  have hl := hl.pushFree hlx hp hring
  rw [if_neg (by rw [(h.plain x hp).1]; exact Bool.false_ne_true), hf]
  refine ⟨_, _, rfl, hl, ?_⟩
  refine ⟨rfl, fun _ _ => rfl, rfl, fun _ => h.ne_null (.inr hp),
    ⟨⟨rfl, rfl, rfl, rfl, rfl, rfl⟩, rfl, rfl, rfl⟩, rfl, rfl, ?_, ?_, ?_⟩
  · intro y hy
    rw [setRole_role, if_neg hy]
    exact (setRole_role ..).trans (if_neg hy)
  · refine .inr ?_
    rw [setRole_role, if_pos rfl]
  · intro y hy
    exact (leave_ring (g.setRole x .limbo) x y).trans (if_neg hy)

/-- The mark of the last record moves to the cell `pp` before it, or the slot becomes NULL. -/
def passMark (m : Mtable) (p pp : Ptr) (last : Bool) : Mtable :=
  if last then if pp = p then m.setEaNext p .null else m.markEaLast pp else m

theorem passMark_frame (m : Mtable) (p pp : Ptr) (last : Bool) :
    SameTables m (passMark m p pp last) ∧ (passMark m p pp last).lvNext = m.lvNext ∧
      (passMark m p pp last).freePents = m.freePents ∧ (passMark m p pp last).pte0 = m.pte0 := by
  unfold passMark markEaLast
  split
  · split <;> exact ⟨⟨⟨rfl, rfl, rfl, rfl, rfl, rfl⟩, rfl, rfl, rfl⟩, rfl, rfl, rfl⟩
  · exact ⟨SameTables.refl m, rfl, rfl, rfl⟩

theorem passMark_eaNext (m : Mtable) (p pp q : Ptr) (last : Bool) :
    (passMark m p pp last).eaNext q =
      if last = true ∧ pp = p ∧ q = p then .null else m.eaNext q := by
  unfold passMark markEaLast
  split
  · split
    · rename_i hl hp
      simp only [hl, hp, true_and]
      exact update_apply ..
    · rename_i hl hp
      rw [if_neg (fun hh => hp hh.2.1)]
      rfl
  · rename_i hl
    rw [if_neg (fun hh => hl hh.1)]

theorem passMark_pent (m : Mtable) (p pp y : Ptr) (last : Bool) :
    (passMark m p pp last).pent y =
      if last = true ∧ pp ≠ p ∧ y = pp then { m.pent y with eaLast := true } else m.pent y := by
  unfold passMark markEaLast
  split
  · split
    · rename_i hl hp
      rw [if_neg (fun hh => hh.2.1 hp)]
      rfl
    · rename_i hl hp
      simp only [hl, ne_eq, hp, not_false_eq_true, true_and]
      by_cases hy : y = pp
      · rw [if_pos hy, hy]; exact update_self ..
      · rw [if_neg hy]; exact update_of_ne hy ..
  · rename_i hl
    rw [if_neg (fun hh => hl hh.1)]

/-- Only `x` was dropped, and its PTE is zero. -/
theorem Drops.one (hx : g.role x = .ea k) (hgone : ∀ k, g'.role x ≠ .ea k) (hrole : ∀ y ≠ x, g'.role y = g.role y)
    (hkept : ∀ y ≠ x, (m'.pent y).index = (m.pent y).index ∧ (m'.pent y).lvHead = (m.pent y).lvHead ∧
      g'.ring y = g.ring y) (hpte : m'.pte0 = update m.pte0 (m.pent x).index 0)
    (hpents : m.freePents ≠ .null → m'.freePents ≠ .null) (hsame : SameRecs m m')
    (htables : m'.freePentTables = m.freePentTables) (hlev2 : m'.lev2 = m.lev2)
    (hcalls : Invalidated m g m') : Drops (· = x) m g m' g' := by
  refine ⟨?_, ?_, ?_, ?_, hpents, ?_, ?_, hsame, hcalls⟩
  · intro y k'
    by_cases hyx : y = x
    · subst hyx
      exact iff_of_false (hgone k') (fun hh => hh.2 rfl)
    · rw [hrole y hyx]
      exact (and_iff_left hyx).symm
  · intro y k' hk'
    refine hkept y ?_
    rintro rfl
    exact hgone k' hk'
  · rintro y k' _ rfl
    rw [hpte, update_self]
  · intro i
    rw [hpte]
    by_cases hi : i = (m.pent x).index
    · exact .inr ⟨by rw [hi, update_self], x, k, hx, rfl, hi.symm⟩
    · exact .inl (update_of_ne hi ..)
  · rw [htables]
    exact id
  · rw [hlev2]
    exact fun _ _ _ => id

theorem TabPart.slot_ne_prev (htab : TabPart m g) (h : EaPart m g) (ht : m.lev2 s.1 s.2.1 = some t)
    (hs : g.ea s = ys ++ zs) {t' j : Nat} (ht' : t' ∈ g.tabs) : Ptr.slot t' j ≠ ys.getLastD (.slot t s.2.2) := by
  intro he
  rcases mem_cons.mp (getLastD_mem (.slot t s.2.2) ys) with he' | hm
  · cases he.trans he'
    exact (htab.used _ _ _ ht).1 ht'
  · exact h.slot_notMem s t' j (by rw [hs, he]; exact mem_append_left _ hm)

theorem drop_spec (hr : Rep m g) (hx : g.role x = .ea k)
    (ht : m.lev2 k.slot.1 k.slot.2.1 = some t) (hs : g.ea k.slot = ys ++ x :: zs) :
    ∃ m1, (m.setEaNext (ys.getLastD (.slot t k.slot.2.2)) (m.eaNext x)).releaseLv x (m.pent x) =
      some m1 ∧
    ∃ g', let m' := passMark (m1.zeroPte (m.pent x).index) (.slot t k.slot.2.2)
            (ys.getLastD (.slot t k.slot.2.2)) (m.pent x).eaLast
      Rep m' g' ∧ g'.ea = update g.ea k.slot (ys ++ zs) ∧ Drops (· = x) m g m' g' ∧
        SameTables m m' ∧ ∀ y ≠ x, (m'.pent y).topea = (m.pent y).topea := by
  set p := Ptr.slot t k.slot.2.2 with hp
  set pp := ys.getLastD p with hpp
  have hl0 : LvPart (m.setEaNext pp (m.eaNext x)) g :=
    hr.lv.congr (SameTables.setEaNext ..).toSameRecs rfl rfl (fun _ _ => ⟨rfl, fun _ => rfl⟩)
      rfl rfl rfl rfl
  obtain ⟨m1, g1, hm1, hl1, hrel⟩ := releaseLv_spec hl0 hx
  refine ⟨m1, hm1, { g1 with ea := update g.ea k.slot (ys ++ zs) }, ?_⟩
  obtain ⟨hsame, hlvn, hfree, hpte⟩ :=
    passMark_frame (m1.zeroPte (m.pent x).index) p pp (m.pent x).eaLast
  have hnext := passMark_eaNext (m1.zeroPte (m.pent x).index) p pp
  have hpent := passMark_pent (m1.zeroPte (m.pent x).index) p pp
  set m' := passMark (m1.zeroPte (m.pent x).index) p pp (m.pent x).eaLast with hm'
  have hsame' : SameTables m m' := by
    exact ((SameTables.setEaNext ..).trans hrel.same).trans ((SameTables.zeroPte ..).trans hsame)
  have hpent' : ∀ y ≠ x, m'.pent y =
      if (m.pent x).eaLast = true ∧ pp ≠ p ∧ y = pp then { m.pent y with eaLast := true }
      else m.pent y := by
    intro y hy
    have h1 : (m1.zeroPte (m.pent x).index).pent y = m.pent y := hrel.pent y hy
    rw [hpent y, h1]
  have hea : EaPart m' { g1 with ea := update g.ea k.slot (ys ++ zs) } := by
    refine hr.ea.unlink ht hr.tab.inj hs hsame'.lev2 hsame'.nextRec ?_ ?_ rfl hrel.role hrel.not_ea
    · intro q hq
      have h1 : (m1.zeroPte (m.pent x).index).eaNext q =
          if q = pp then m.eaNext x else m.eaNext q := by
        show m1.eaNext q = _
        rw [hrel.eaNext]
        exact update_apply ..
      rw [hnext q, h1]
      by_cases hqp : q = pp
      · have hmark : pp = p ∧ q = p ↔ pp = p := and_iff_left_of_imp hqp.trans
        simp only [hmark]
        rw [if_pos hqp, if_pos hqp]
      · rw [if_neg hqp, if_neg hqp, if_neg (fun hh => hqp (hh.2.2.trans hh.2.1.symm))]
    · exact hpent'
  have hlv : LvPart m' { g1 with ea := update g.ea k.slot (ys ++ zs) } := by
    refine hl1.congr ((SameTables.zeroPte ..).trans hsame).toSameRecs hlvn hfree ?_ rfl rfl rfl rfl
    intro y _
    rw [hpent y]
    split <;> exact ⟨rfl, fun _ => rfl⟩
  have htab : TabPart m' { g1 with ea := update g.ea k.slot (ys ++ zs) } := by
    refine hr.tab.congr hsame'.lev2 hsame'.freePentTables hsame'.nextTab ?_ hrel.tabs
    intro t' ht' j
    have hne : Ptr.slot t' j ≠ pp := hr.tab.slot_ne_prev hr.ea ht hs ht'
    have h1 : (m1.zeroPte (m.pent x).index).eaNext (.slot t' j) = m.eaNext (.slot t' j) := by
      show m1.eaNext _ = _
      rw [hrel.eaNext]
      exact update_of_ne hne ..
    rw [hnext, h1, if_neg (fun hh => hne (hh.2.2.trans hh.2.1.symm))]
  have hset : ∀ y, g1.role y ≠ .limbo := by
    intro y
    by_cases hyx : y = x
    · subst hyx
      rcases hrel.gone with he | he <;> rw [he] <;> exact nofun
    · rw [hrel.role y hyx]
      exact hr.settled y
  refine ⟨⟨hea, hlv, htab, hset⟩, rfl, .one hx hrel.not_ea hrel.role ?_ ?_ ?_ hsame'.toSameRecs
    hsame'.freePentTables hsame'.lev2 (.of_eq hsame'.tlbied), hsame', ?_⟩
  · intro y hyx
    rw [hpent' y hyx]
    split <;> exact ⟨rfl, rfl, hrel.ring y hyx⟩
  · rw [hpte, zeroPte, hrel.pte0]
    rfl
  · rw [hfree]
    exact hrel.pents
  · intro y hyx
    rw [hpent' y hyx]; split <;> rfl

/-! ## flush_vsid_ea_ -/

theorem EaPart.eaNext_eq (h : EaPart m g) (ht : m.lev2 s.1 s.2.1 = some t)
    (hs : g.ea s = ys ++ x :: zs) : m.eaNext x = zs.headD (.slot t s.2.2) := by
  have hc : Chain m.eaNext x ([] ++ zs) (.slot t s.2.2) := (chain_append_cons.mp (h.ringOf ht hs).1).2
  exact chain_next_last hc

theorem EaPart.slot_eaNext (h : EaPart m g) (ht : m.lev2 s.1 s.2.1 = some t) :
    m.eaNext (.slot t s.2.2) = (g.ea s).headD .null := by
  rcases h.ringAt ht with ⟨he, h0⟩ | ⟨hne, hc, _⟩
  · rw [he, h0]
    rfl
  · obtain ⟨x, xs, hx⟩ := exists_cons_of_ne_nil hne
    rw [hx] at hc ⊢
    exact (chain_cons.mp hc).1

theorem EaPart.head_ne_null (h : EaPart m g) {s : Slot} (hne : g.ea s ≠ []) :
    (g.ea s).headD .null ≠ .null := by
  obtain ⟨y, ys, hy⟩ := exists_cons_of_ne_nil hne
  obtain ⟨k, hk, _⟩ := (h.mem s y).mp (by rw [hy]; exact mem_cons_self)
  obtain ⟨i, _, rfl⟩ := h.record y k hk
  rw [hy]
  simp

theorem flushVsidEaLoop_spec (topea : Nat) :
    ∀ {zs ys : List Ptr} {m : Mtable} {g : Rings} {fuel : Nat}, Rep m g →
      m.lev2 s.1 s.2.1 = some t → g.ea s = ys ++ zs → zs ≠ [] → zs.length < fuel →
      ∃ m' g', flushVsidEaLoop topea (.slot t s.2.2) fuel m (ys.getLastD (.slot t s.2.2))
          (zs.headD .null) = some m' ∧
        Rep m' g' ∧ Drops (fun x => x ∈ zs ∧ (m.pent x).topea = topea) m g m' g' ∧
        SameTables m m' := by
  intro zs
  induction zs with
  | nil => intro ys m g fuel _ _ _ h0; exact absurd rfl h0
  | cons x zs ih =>
    intro ys m g fuel hr ht hs _ hfuel
    obtain _ | fuel := fuel
    · cases hfuel
    have hfuel : zs.length < fuel := by simpa using hfuel
    obtain ⟨k, hk, hks⟩ := (hr.ea.mem s x).mp (by rw [hs]; simp)
    have hlast := hr.ea.isLast_iff ht hs
    have hnext := hr.ea.eaNext_eq ht hs
    rw [headD_cons, flushVsidEaLoop]
    by_cases hm : (m.pent x).topea = topea
    · subst hks
      obtain ⟨m1, hm1, g', hr', hea', hdrop, hsame, hpent⟩ := drop_spec hr hk ht hs
      simp only [if_pos hm, hm1, some_bind]
      by_cases hz : zs = []
      · have hl : (m.pent x).eaLast = true := hlast.mpr hz
        refine ⟨_, g', ?_, hr', hdrop.congr ?_, hsame⟩
        · rw [passMark, if_pos hl]
          split <;> rfl
        intro y _ _
        subst hz
        constructor
        · rintro rfl
          exact ⟨by simp, hm⟩
        · rintro ⟨hy, _⟩
          simpa using hy
      · have hl : ¬ (m.pent x).eaLast = true := fun h => hz (hlast.mp h)
        rw [passMark, if_neg hl] at hr' hdrop hsame hpent
        have ht' : (m1.zeroPte (m.pent x).index).lev2 k.slot.1 k.slot.2.1 = some t := by
          rw [hsame.lev2]; exact ht
        have hs' : g'.ea k.slot = ys ++ zs := by rw [hea', update_self]
        obtain ⟨m', g'', hm', hr'', hdrop', hsame'⟩ := ih hr' ht' hs' hz hfuel
        obtain ⟨z, zs', rfl⟩ := exists_cons_of_ne_nil hz
        refine ⟨m', g'', ?_, hr'', (hdrop.trans hdrop').congr ?_, hsame.trans hsame'⟩
        · rw [if_neg hl, hnext]
          exact hm'
        intro y _ _
        by_cases hyx : y = x
        · subst hyx
          exact iff_of_true (.inl rfl) ⟨by simp, hm⟩
        · rw [hpent y hyx]
          simp [hyx]
    · rw [if_neg hm]
      by_cases hz : zs = []
      · subst hz
        rw [if_pos (hlast.mpr rfl)]
        refine ⟨m, g, rfl, hr, (Drops.refl m g).congr ?_, SameTables.refl m⟩
        intro y _ _
        refine iff_of_false id ?_
        rintro ⟨hy, hy'⟩
        rw [mem_singleton.mp hy] at hy'
        exact hm hy'
      · rw [if_neg (fun h => hz (hlast.mp h))]
        have hs' : g.ea s = (ys ++ [x]) ++ zs := by rw [hs]; simp
        obtain ⟨m', g', hm', hr', hdrop, hsame⟩ := ih hr ht hs' hz hfuel
        rw [getLastD_concat] at hm'
        obtain ⟨z, zs', rfl⟩ := exists_cons_of_ne_nil hz
        refine ⟨m', g', ?_, hr', hdrop.congr ?_, hsame⟩
        · rw [hnext]
          exact hm'
        · intro y _ _
          refine and_congr_left fun hy' => ?_
          have hyx : y ≠ x := by rintro rfl; exact hm hy'
          simp [hyx]

def OfPage (g : Rings) (r ea : Nat) (x : Ptr) : Prop :=
  ∃ k, g.role x = .ea k ∧ k.r = r ∧ k.page = pageOf ea

theorem ofPage_iff (hr : EaPart m g) {r ea : Nat} (hk : g.role x = .ea k) :
    OfPage g r ea x ↔ x ∈ g.ea (slotOf r (pageOf ea)) ∧ (m.pent x).topea = topeaOf ea := by
  obtain ⟨_, htop, _⟩ := hr.pent x k hk
  rw [hr.mem, htop, topeaOf_eq]
  constructor
  · rintro ⟨k', hk', rfl, hpage⟩
    rw [hk] at hk'
    cases hk'
    exact ⟨⟨k, hk, by rw [Key.slot, hpage]⟩, by rw [hpage]⟩
  rintro ⟨⟨k', hk', hslot⟩, htop⟩
  rw [hk] at hk'
  cases hk'
  unfold Key.slot slotOf at hslot
  simp only [Prod.mk.injEq] at hslot
  exact ⟨k, hk, hslot.1, page_eq_iff.mpr ⟨htop, hslot.2⟩⟩

theorem flushVsidEa_spec (hr : Rep m g) (r ea : Nat) :
    ∃ m' g', m.flushVsidEa_ r ea = some m' ∧ Rep m' g' ∧ Drops (OfPage g r ea) m g m' g' ∧
      SameTables m m' := by
  unfold flushVsidEa_
  have hslot := slotOf_pageOf r ea
  cases ht : m.lev2 r (lev2Ind ea) with
  | none =>
    refine ⟨m, g, rfl, hr, (Drops.refl m g).congr ?_, SameTables.refl m⟩
    intro x k hk
    rw [ofPage_iff hr.ea hk, hslot]
    refine iff_of_false id ?_
    rintro ⟨hm, _⟩
    obtain ⟨t, ht'⟩ := hr.ea.lev2_of_mem hm
    rw [show m.lev2 r (lev2Ind ea) = some t from ht'] at ht
    cases ht
  | some t =>
    have ht' : m.lev2 (r, lev2Ind ea, pelistInd ea).1 (r, lev2Ind ea, pelistInd ea).2.1 = some t := ht
    have hfst := hr.ea.slot_eaNext ht'
    simp only at hfst ⊢
    rw [hfst]
    by_cases hz : g.ea (r, lev2Ind ea, pelistInd ea) = []
    · rw [hz]
      refine ⟨m, g, rfl, hr, (Drops.refl m g).congr ?_, SameTables.refl m⟩
      intro x k hk
      rw [ofPage_iff hr.ea hk, hslot, hz]
      simp
    rw [if_neg (hr.ea.head_ne_null hz)]
    obtain ⟨m', g', hm', hr', hdrop, hsame⟩ :=
      flushVsidEaLoop_spec (topeaOf ea) hr ht' (nil_append _).symm hz
        (Nat.lt_of_succ_lt (hr.ea.ring_length _))
    refine ⟨m', g', hm', hr', hdrop.congr ?_, hsame⟩
    intro x k hk
    rw [ofPage_iff hr.ea hk, hslot]

/-! ## pent_flush_unlink_ea -/

/-- The two search loops: the last record of the ring, then the cell before `x`. -/
theorem find_prev_spec (h : EaPart m g) (ht : m.lev2 s.1 s.2.1 = some t)
    (hs : g.ea s = ys ++ x :: zs) :
    scan m.eaNext (fun q => (m.pent q).eaLast) m.fuel x = some (zs.getLastD x) ∧
      m.eaNext (zs.getLastD x) = .slot t s.2.2 ∧
      scan m.eaNext (fun q => decide (m.eaNext q = x)) m.fuel (zs.getLastD x) =
        some (ys.getLastD (.slot t s.2.2)) := by
  obtain ⟨hc, hmark⟩ := h.ringOf ht hs
  have hd := h.nodup s
  have hlen := h.ring_length s
  have hps := h.slot_notMem s t s.2.2
  rw [hs] at hd hlen hps
  -- `x :: zs` ends in the last record `l`
  obtain ⟨ws, l, hws⟩ : ∃ ws l, x :: zs = ws ++ [l] :=
    ⟨_, _, (dropLast_append_getLast (cons_ne_nil x zs)).symm⟩
  have hl : zs.getLastD x = l := by
    have he : (x :: zs).getLastD .null = zs.getLastD x := getLastD_cons
    rw [← he, hws, getLastD_concat]
  have hhead : ws.headD l = x := by
    cases ws with
    | nil | cons w ws => exact (cons.inj hws).1.symm
  rw [hl] at hmark ⊢
  rw [hws] at hc hmark hd hlen hps
  have hxl := chain_append_cons.mp (show Chain _ _ ((ys ++ ws) ++ l :: []) _ by simpa using hc)
  refine ⟨?_, hxl.2, ?_⟩
  · obtain ⟨a, hya, haw⟩ := seg_append.mp hxl.1
    have ha : a = x := by
      rw [← hhead]
      cases ws with
      | nil => exact haw
      | cons w ws => exact haw.1
    subst ha
    refine scan_seg haw ?_ ((hmark l (by simp)).mpr rfl) ?_
    · intro w hw
      have hwl : w ≠ l := by
        rintro rfl
        exact (nodup_append.mp (nodup_append.mp hd).2.1).2.2 w hw w (by simp) rfl
      have := mt (hmark w (by simp [hw])).mp hwl
      simpa using this
    · simp at hlen
      omega
  · have hrot : Chain m.eaNext l ((.slot t s.2.2 :: ys) ++ ws) l :=
      ring_rotate (show Chain m.eaNext (.slot t s.2.2) ((ys ++ ws) ++ l :: []) _ by simpa using hc)
    have hxm : x ∈ ws ++ [l] := by rw [← hws]; simp
    have hx : x ∉ Ptr.slot t s.2.2 :: ys := by
      intro hm
      rcases mem_cons.mp hm with rfl | hm
      · exact hps (mem_append_right _ hxm)
      · exact (nodup_append.mp hd).2.2 x hm x hxm rfl
    rw [scan_before hrot hx hhead, getLastD_cons]
    simp at hlen ⊢
    omega

theorem unlinkEa_eaNext (m : Mtable) (x pp p q : Ptr) (hq : q ≠ x) :
    (m.unlinkEa x pp p).eaNext q =
      if q = pp then if (m.pent x).eaLast = true ∧ pp = p then .null else m.eaNext x
      else m.eaNext q := by
  unfold unlinkEa markEaLast
  by_cases hl : (m.pent x).eaLast = true
  · by_cases hp : pp = p
    · simp [hl, hp, setEaNext, update_apply, hq, and_self]
    · simp [hl, hp, setEaNext, setPent, update_apply]
  · simp [hl, setEaNext, update_apply, false_and]

theorem unlinkEa_pent (m : Mtable) (x pp p y : Ptr) :
    (m.unlinkEa x pp p).pent y =
      if (m.pent x).eaLast = true ∧ pp ≠ p ∧ y = pp then { m.pent y with eaLast := true }
      else m.pent y := by
  rw [← passMark_pent]
  unfold unlinkEa passMark
  split
  · split <;> rfl
  · rfl

theorem unlinkEa_frame (m : Mtable) (x pp p : Ptr) :
    SameTables m (m.unlinkEa x pp p) ∧ (m.unlinkEa x pp p).lvNext = m.lvNext ∧
      (m.unlinkEa x pp p).freePents = m.freePents ∧ (m.unlinkEa x pp p).pte0 = m.pte0 := by
  unfold unlinkEa markEaLast
  split
  · split <;> exact ⟨⟨⟨rfl, rfl, rfl, rfl, rfl, rfl⟩, rfl, rfl, rfl⟩, rfl, rfl, rfl⟩
  · exact ⟨SameTables.setEaNext .., rfl, rfl, rfl⟩

structure Unlinked (xs : List Ptr) (m : Mtable) (g : Rings) (m' : Mtable) (g' : Rings) : Prop where
  lvNext : m'.lvNext = m.lvNext
  freePents : m'.freePents = m.freePents
  lvBits : ∀ y, (m'.pent y).lvHead = (m.pent y).lvHead ∧ (m'.pent y).unused = (m.pent y).unused
  lv : g'.lv = g.lv
  ring : g'.ring = g.ring
  free : g'.free = g.free
  tabs : g'.tabs = g.tabs
  role : ∀ y, g'.role y = if y ∈ xs then .limbo else g.role y

theorem Unlinked.trans (h : Unlinked xs m g m' g') (h' : Unlinked ys m' g' m'' g'') :
    Unlinked (xs ++ ys) m g m'' g'' := by
  refine ⟨h'.lvNext.trans h.lvNext, h'.freePents.trans h.freePents, ?_, h'.lv.trans h.lv,
    h'.ring.trans h.ring, h'.free.trans h.free, h'.tabs.trans h.tabs, ?_⟩
  · intro y
    exact ⟨(h'.lvBits y).1.trans (h.lvBits y).1, (h'.lvBits y).2.trans (h.lvBits y).2⟩
  · intro y
    rw [h'.role, h.role]
    by_cases hy : y ∈ ys <;> by_cases hx : y ∈ xs <;> simp [hx, hy]

theorem pentFlushUnlinkEa_spec (h : EaPart m g) (htab : TabPart m g) (hx : g.role x = .ea k) :
    ∃ m' g', m.pentFlushUnlinkEa x = some m' ∧ EaPart m' g' ∧ TabPart m' g' ∧
      Drops (· = x) m g m' g' ∧ Unlinked [x] m g m' g' := by
  obtain ⟨t, ht⟩ := h.lev2_of_mem ((h.mem _ _).mpr ⟨k, hx, rfl⟩)
  obtain ⟨ys, zs, hs⟩ := append_of_mem ((h.mem _ _).mpr ⟨k, hx, rfl⟩)
  obtain ⟨hlast, hhead, hprev⟩ := find_prev_spec h ht hs
  unfold pentFlushUnlinkEa
  simp only [hlast, some_bind, hhead, hprev]
  obtain ⟨hsame, hlv, hfree, hpte⟩ :=
    unlinkEa_frame m x (ys.getLastD (.slot t k.slot.2.2)) (.slot t k.slot.2.2)
  have hnext := unlinkEa_eaNext m x (ys.getLastD (.slot t k.slot.2.2)) (.slot t k.slot.2.2)
  have hpent := unlinkEa_pent m x (ys.getLastD (.slot t k.slot.2.2)) (.slot t k.slot.2.2)
  set m1 := m.unlinkEa x (ys.getLastD (.slot t k.slot.2.2)) (.slot t k.slot.2.2)
  have hsame' : SameTables m (m1.zeroPte (m1.pent x).index) := hsame.trans (SameTables.zeroPte ..)
  have hidx : (m1.pent x).index = (m.pent x).index := by rw [hpent]; split <;> rfl
  have hgone : ∀ k', update g.role x .limbo x ≠ .ea k' := by
    intro k'
    rw [update_self]
    exact nofun
  refine ⟨_, { g with
    ea := update g.ea k.slot (ys ++ zs), role := update g.role x .limbo },
    rfl, ?_, ?_, .one hx hgone (fun y hy => update_of_ne hy ..) ?_ ?_ ?_
      ⟨hsame'.lvranges, hsame'.allocations, hsame'.allocSize, hsame'.allocLimit, hsame'.nextRec,
        hsame'.nextTab⟩ hsame'.freePentTables hsame'.lev2
      ⟨[⟨x, .slot t k.slot.2.2, (m1.pent x).eaBit14⟩], ?_, ?_⟩,
    ⟨hlv, hfree, ?_, rfl, rfl, rfl, rfl, ?_⟩⟩
  · exact h.unlink ht htab.inj hs hsame'.lev2 hsame'.nextRec hnext (fun y _ => hpent y) rfl
      (fun y hy => update_of_ne hy ..) hgone
  · refine htab.congr hsame'.lev2 hsame'.freePentTables hsame'.nextTab ?_ rfl
    intro t' ht' j
    show m1.eaNext _ = _
    have hxs : Ptr.slot t' j ≠ x := by
      rintro rfl
      exact h.slot_notMem _ _ _ ((h.mem _ _).mpr ⟨k, hx, rfl⟩)
    rw [hnext _ hxs, if_neg (htab.slot_ne_prev h ht hs ht')]
  · intro y _
    show (m1.pent y).index = _ ∧ (m1.pent y).lvHead = _ ∧ _
    rw [hpent]; split <;> exact ⟨rfl, rfl, rfl⟩
  · rw [zeroPte, hidx, hpte]
  · intro h0
    show m1.freePents ≠ _
    rw [hfree]
    exact h0
  · rw [← hsame'.tlbied]
    rfl
  · rintro c hc
    rw [mem_singleton.mp hc]
    refine ⟨k, hx, ⟨t, rfl⟩, ?_⟩
    show (m1.pent x).eaBit14 = _
    rw [← (h.pent x k hx).2.bit, hpent]
    split <;> rfl
  · intro y
    show (m1.pent y).lvHead = _ ∧ (m1.pent y).unused = _
    rw [hpent]; split <;> exact ⟨rfl, rfl⟩
  · intro y
    simp only [mem_singleton]
    exact update_apply ..

/-! ## flush_lvptr_ -/

theorem flushLvRing_spec :
    ∀ {bs as : List Ptr} {m : Mtable} {g : Rings} {fuel : Nat}, EaPart m g → TabPart m g →
      Chain m.lvNext p (as ++ bs) p → (p :: (as ++ bs)).Nodup → bs ≠ [] → bs.length < fuel →
      (∀ y ∈ bs, ∃ k, g.role y = .ea k) →
      ∃ m' g', flushLvRing p fuel m (as.getLastD p) = some (m', (as ++ bs).getLastD p) ∧
        EaPart m' g' ∧ TabPart m' g' ∧ Drops (· ∈ bs) m g m' g' ∧ Unlinked bs m g m' g' := by
  intro bs
  induction bs with
  | nil => intro as m g fuel _ _ _ _ h0; exact absurd rfl h0
  | cons b bs ih =>
    intro as m g fuel hea htab hc hd _ hfuel hrole
    obtain _ | fuel := fuel
    · cases hfuel
    have hfuel : bs.length < fuel := by simpa using hfuel
    obtain ⟨k, hk⟩ := hrole b mem_cons_self
    obtain ⟨m1, g1, hm1, hea1, htab1, hdrop1, hunl1⟩ := pentFlushUnlinkEa_spec hea htab hk
    have hb : m.lvNext (as.getLastD p) = b := chain_next_last hc
    have hc1 : Chain m1.lvNext p ((as ++ [b]) ++ bs) p := by
      rw [hunl1.lvNext, append_assoc]
      exact hc
    have hd1 : (p :: ((as ++ [b]) ++ bs)).Nodup := by rwa [append_assoc]
    have hnext : m1.lvNext b = bs.headD p := by
      have := chain_next_last hc1
      rwa [getLastD_concat] at this
    simp only [flushLvRing, hb, hm1, some_bind, hnext]
    by_cases hz : bs = []
    · subst hz
      refine ⟨m1, g1, ?_, hea1, htab1, hdrop1.congr ?_, hunl1⟩
      · rw [headD_nil, if_pos rfl, getLastD_concat]
      · intro y _ _
        exact mem_singleton.symm
    have hbne : bs.headD p ≠ p := by
      obtain ⟨c, cs, rfl⟩ := exists_cons_of_ne_nil hz
      rintro he
      exact (nodup_cons.mp hd).1 (by rw [← he]; simp)
    have hrole1 : ∀ y ∈ bs, ∃ k, g1.role y = .ea k := by
      intro y hy
      obtain ⟨k', hk'⟩ := hrole y (mem_cons_of_mem _ hy)
      have hyb : y ≠ b := by
        rintro rfl
        have := (nodup_append.mp (nodup_cons.mp hd).2).2.1
        exact (nodup_cons.mp this).1 hy
      exact ⟨k', (hdrop1.role y k').mpr ⟨hk', hyb⟩⟩
    obtain ⟨m', g', hm', hea', htab', hdrop', hunl'⟩ := ih hea1 htab1 hc1 hd1 hz hfuel hrole1
    rw [getLastD_concat, append_assoc] at hm'
    refine ⟨m', g', ?_, hea', htab', (hdrop1.trans hdrop').congr ?_, hunl1.trans hunl'⟩
    · rw [if_neg hbne]
      exact hm'
    · intro y _ _
      exact mem_cons.symm

/-- The records on the lv ring of `p` went in front of the free list, and `p` is unused. -/
structure Emptied (p : Ptr) (m : Mtable) (g : Rings) (m' : Mtable) (g' : Rings) : Prop where
  same : SameRecs m m'
  lvNext : ∀ q, m'.lvNext q = if q = p then p
    else if g.lv p ≠ [] ∧ q = (g.lv p).getLastD p then m.freePents else m.lvNext q
  freePents : m'.freePents = (g.lv p).headD m.freePents
  pent : m'.pent p = .unusedHead
  bits : ∀ y ≠ p, (m'.pent y).lvHead = (m.pent y).lvHead ∧ (m'.pent y).unused = (m.pent y).unused
  lv : g'.lv = update g.lv p []
  free : g'.free = g.lv p ++ g.free
  ring : ∀ y, g'.ring y = if y ∈ g.lv p then none else g.ring y
  role : ∀ y, g'.role y = if y = p then .idle else if y ∈ g.lv p then .free else g.role y

theorem LvPart.mem_ring (h : LvPart m g) (hx : x ∈ g.lv p) : m.IsPlain x ∧ x ∉ g.free := by
  obtain ⟨-, hplain, hrole⟩ := h.member p x ((h.mem p x).mp hx)
  exact ⟨hplain, fun hf => hrole ((h.freeMem x).mp hf)⟩

namespace Emptied

theorem lvNext_of_ne (he : Emptied p m g m' g') (hq : x ≠ p) (hql : x ∉ g.lv p) : m'.lvNext x = m.lvNext x := by
  rw [he.lvNext, if_neg hq, if_neg]
  rintro ⟨h0, rfl⟩
  obtain ⟨z, zs, hz⟩ := exists_cons_of_ne_nil h0
  rw [hz, getLastD_cons] at hql
  exact hql (getLastD_mem z zs)

section Emptied

variable (he : Emptied p m g m' g') (hl : LvPart m g) (hp : m.IsHead p)
include he hl

theorem mem (q y : Ptr) : y ∈ g'.lv q ↔ g'.ring y = some q := by
  rw [he.lv, he.ring, update_apply]
  by_cases hqp : q = p
  · subst hqp
    rw [if_pos rfl]
    refine iff_of_false not_mem_nil ?_
    split_ifs with hy
    · exact nofun
    · exact fun hq => hy ((hl.mem q y).mpr hq)
  rw [if_neg hqp, hl.mem q y]
  split_ifs with hy
  · refine iff_of_false ?_ nofun
    intro hq
    rw [(hl.mem p y).mp hy] at hq
    exact hqp (Option.some.inj hq).symm
  · rfl

theorem member {q y : Ptr} (hy : g'.ring y = some q) : m'.IsHead q ∧ m'.IsPlain y ∧ g'.role y ≠ .free := by
  rw [he.ring] at hy
  split at hy
  · cases hy
  obtain ⟨h1, h2, h3⟩ := hl.member q y hy
  refine ⟨he.same.isHead.mpr h1, he.same.isPlain.mpr h2, ?_⟩
  rw [he.role]
  split
  · exact nofun
  · exact h3

include hp

theorem chain {q : Ptr} (hq : m.IsHead q) : Chain m'.lvNext q (g'.lv q) q := by
  rw [he.lv]
  by_cases hqp : q = p
  · subst hqp
    rw [update_self]
    exact (he.lvNext q).trans (if_pos rfl)
  rw [update_of_ne hqp]
  refine (chain_congr ?_).mpr (hl.ring q hq)
  intro z hz
  rcases mem_cons.mp hz with rfl | hz
  · exact he.lvNext_of_ne hqp fun hm => hl.not_head (hl.mem_ring hm).1 hq
  have hzq := (hl.mem q z).mp hz
  refine he.lvNext_of_ne ?_ ?_
  · rintro rfl
    exact hl.not_head (hl.member q z hzq).2.1 hp
  · intro hm
    rw [(hl.mem p z).mp hm] at hzq
    exact hqp (Option.some.inj hzq).symm

theorem freeList : Seg m'.lvNext m'.freePents g'.free .null := by
  rw [he.freePents, he.free]
  have hf : Seg m'.lvNext m.freePents g.free .null := by
    refine (seg_congr ?_).mpr hl.freeList
    intro z hz
    refine he.lvNext_of_ne ?_ fun hm => (hl.mem_ring hm).2 hz
    rintro rfl
    exact (hl.head z hp).2.1 ((hl.freeMem z).mp hz)
  have hc := chain_update_last (c := m.freePents) (hl.ring p hp) (hl.ring_nodup hp)
  cases hz : g.lv p with
  | nil => exact hf
  | cons z zs =>
    rw [hz] at hc
    refine seg_append.mpr ⟨m.freePents, seg_cons.mpr ⟨rfl, (chain_congr ?_).mpr (chain_cons.mp hc).2⟩, hf⟩
    intro q hq
    have hqp : q ≠ p := by
      rintro rfl
      exact (nodup_cons.mp (hl.ring_nodup hp)).1 (by rwa [hz])
    rw [he.lvNext, if_neg hqp, hz, update_apply]
    simp

theorem freeMem (y : Ptr) : y ∈ g'.free ↔ g'.role y = .free := by
  rw [he.free, he.role, mem_append, hl.freeMem y]
  by_cases hyp : y = p
  · subst hyp
    rw [if_pos rfl]
    refine iff_of_false ?_ nofun
    rintro (hm | hm)
    · exact (nodup_cons.mp (hl.ring_nodup hp)).1 hm
    · exact (hl.head y hp).2.1 hm
  · rw [if_neg hyp]
    split_ifs with hy
    · exact iff_of_true (.inl hy) rfl
    · exact or_iff_right hy

theorem head {q : Ptr} (hq : m.IsHead q) :
    (m'.pent q).lvHead = true ∧ g'.role q ≠ .free ∧ ((m'.pent q).unused = true ↔ g'.role q = .idle) := by
  rw [he.role]
  by_cases hqp : q = p
  · subst hqp
    rw [if_pos rfl, he.pent]
    exact ⟨rfl, nofun, iff_of_true rfl rfl⟩
  · have hql : q ∉ g.lv p := fun hm => hl.not_head (hl.mem_ring hm).1 hq
    rw [if_neg hqp, if_neg hql, (he.bits q hqp).1, (he.bits q hqp).2]
    exact hl.head q hq

theorem plain {y : Ptr} (hy : m.IsPlain y) : (m'.pent y).lvHead = false ∧ g'.role y ≠ .idle ∧
    ∀ k, g'.role y = .ea k → g'.ring y = none → m'.lvNext y = .null := by
  obtain ⟨h1, h2, h3⟩ := hl.plain y hy
  have hyp : y ≠ p := by
    rintro rfl
    exact hl.not_head hy hp
  rw [(he.bits y hyp).1, he.role, if_neg hyp, he.ring]
  refine ⟨h1, ?_, ?_⟩
  · split
    · exact nofun
    · exact h2
  · intro k hk hr
    split_ifs at hk with hyl
    rw [if_neg hyl] at hr
    rw [he.lvNext_of_ne hyp hyl]
    exact h3 k hk hr

theorem lvPart : LvPart m' g' where
  ring := fun _ hq => he.chain hl hp (he.same.isHead.mp hq)
  nodup := by
    intro q
    rw [he.lv, update_apply]
    split
    · exact nodup_nil
    · exact hl.nodup q
  mem := he.mem hl
  member := fun _ _ hy => he.member hl hy
  freeList := he.freeList hl hp
  freeNodup := by
    rw [he.free]
    refine nodup_append.mpr ⟨hl.nodup p, hl.freeNodup, ?_⟩
    rintro a ha b hb rfl
    exact (hl.mem_ring ha).2 hb
  freeMem := he.freeMem hl hp
  head := fun _ hq => he.head hl hp (he.same.isHead.mp hq)
  plain := fun _ hy => he.plain hl hp (he.same.isPlain.mp hy)
  owned := by
    intro y hy
    rw [he.same.isHead, he.same.isPlain]
    rw [he.role] at hy
    split_ifs at hy with hyp hyl
    · exact absurd rfl hy
    · exact .inr (hl.mem_ring hyl).1
    · exact hl.owned y hy
  bound := by
    intro y hy
    rw [he.same.isHead, he.same.isPlain] at hy
    rw [he.same.nextRec]
    exact hl.bound y hy

end Emptied

end Emptied

section Rep

variable (hr : Rep m g)

include hr

theorem Rep.ea_of_ring (hx : g.ring x = some p) : ∃ k, g.role x = .ea k := by
  obtain ⟨_, hp, hf⟩ := hr.lv.member p x hx
  cases hk : g.role x with
  | idle => exact absurd hk (hr.lv.plain x hp).2.1
  | free => exact absurd hk hf
  | limbo => exact absurd hk (hr.settled x)
  | ea k => exact ⟨k, rfl⟩

theorem Rep.ea_of_head (hp : m.IsHead p) (hu : (m.pent p).unused = false) :
    ∃ k, g.role p = .ea k := by
  obtain ⟨_, hf, hi⟩ := hr.lv.head p hp
  cases hk : g.role p with
  | idle => rw [hi.mpr hk] at hu; cases hu
  | free => exact absurd hk hf
  | limbo => exact absurd hk (hr.settled p)
  | ea k => exact ⟨k, rfl⟩

theorem host_eq_iff (hp : m.IsHead p) (hx : g.role x = .ea k) :
    host m g x = some p ↔ x = p ∨ x ∈ g.lv p := by
  unfold host
  rw [hr.lv.mem]
  rcases hr.lv.owned x (by rw [hx]; exact nofun) with hh | hpl
  · rw [if_pos (hr.lv.head x hh).1, Option.some_inj]
    refine (or_iff_left ?_).symm
    intro hr'
    exact hr.lv.not_head (hr.lv.member p x hr').2.1 hh
  · rw [(hr.lv.plain x hpl).1]
    refine (or_iff_right ?_).symm
    rintro rfl
    exact hr.lv.not_head hpl hp

structure MembersOut (p : Ptr) (m : Mtable) (g : Rings) (m' : Mtable) (g' : Rings) : Prop where
  lvNext : ∀ q, m'.lvNext q =
    if g.lv p ≠ [] ∧ q = (g.lv p).getLastD p then m.freePents else m.lvNext q
  freePents : m'.freePents = (g.lv p).headD m.freePents
  lvBits : ∀ y, (m'.pent y).lvHead = (m.pent y).lvHead ∧ (m'.pent y).unused = (m.pent y).unused
  ring : g'.ring = g.ring
  tabs : g'.tabs = g.tabs
  role : ∀ y, g'.role y = if y ∈ g.lv p then .limbo else g.role y

theorem flushMembers_spec (hp : m.IsHead p) :
    ∃ m' g', m.flushMembers p = some m' ∧ EaPart m' g' ∧ TabPart m' g' ∧
      Drops (· ∈ g.lv p) m g m' g' ∧ MembersOut p m g m' g' := by
  unfold flushMembers
  have hc := hr.lv.ring p hp
  have hd := hr.lv.ring_nodup hp
  cases hz : g.lv p with
  | nil =>
    have h0 : m.lvNext p = p := by rw [hz] at hc; exact hc
    refine ⟨m, g, if_pos h0, hr.ea, hr.tab, (Drops.refl m g).congr ?_,
      ⟨?_, ?_, fun _ => ⟨rfl, rfl⟩, rfl, rfl, ?_⟩⟩
    · intro y _ _
      exact iff_of_false id not_mem_nil
    · intro q
      rw [hz, if_neg (fun hh => hh.1 rfl)]
    · rw [hz]; rfl
    · intro y
      rw [hz, if_neg not_mem_nil]
  | cons z zs =>
    have hne : g.lv p ≠ [] := by rw [hz]; exact cons_ne_nil z zs
    have h0 : m.lvNext p = z := by rw [hz] at hc; exact (chain_cons.mp hc).1
    have hzp : z ≠ p := by rintro rfl; exact (nodup_cons.mp hd).1 (by rw [hz]; simp)
    have hlen := Nat.lt_of_succ_lt (hr.lv.ring_length p)
    have hc' : Chain m.lvNext p ([] ++ g.lv p) p := hc
    obtain ⟨m1, g1, hm1, hea1, htab1, hdrop1, hunl1⟩ :=
      flushLvRing_spec hr.ea hr.tab hc' hd hne hlen
        fun y hy => hr.ea_of_ring ((hr.lv.mem p y).mp hy)
    rw [nil_append, getLastD_nil] at hm1
    simp only [h0, if_neg hzp, hm1]
    rw [← hz]
    refine ⟨_, g1, rfl, ?_, ?_, ⟨hdrop1.role, hdrop1.kept, hdrop1.zeroed, hdrop1.pte0, ?_,
      hdrop1.tables, hdrop1.lev2, ?_, hdrop1.tlbies⟩, ?_⟩
    · exact hea1.congr rfl rfl rfl (fun _ _ _ => ⟨rfl, id⟩) rfl (fun _ _ => Iff.rfl)
    · exact htab1.congr rfl rfl rfl (fun _ _ _ => rfl) rfl
    · intro _
      exact hr.lv.ne_null (.inr (hr.lv.member p z ((hr.lv.mem p z).mp (by rw [hz]; simp))).2.1)
    · exact hdrop1.same.trans
        ((SameTables.setLvNext ..).trans (SameTables.setFree ..)).toSameRecs
    refine ⟨?_, ?_, hunl1.lvBits, hunl1.ring, hunl1.tabs, hunl1.role⟩
    · intro q
      show update m1.lvNext _ _ q = _
      rw [update_apply, hunl1.lvNext, hunl1.freePents]
      simp [ne_eq, hne, true_and]
    · rw [hz]; rfl

theorem flushUsedHead_spec (hp : m.IsHead p) (hea : EaPart m' g')
    (htab : TabPart m' g') (hout : MembersOut p m g m' g') :
    ∃ m'' g'', m'.flushUsedHead p = some m'' ∧ EaPart m'' g'' ∧ TabPart m'' g'' ∧
      Drops (· = p) m' g' m'' g'' ∧ MembersOut p m g m'' { g'' with role := g'.role } ∧
      ∀ y ≠ p, g''.role y = g'.role y := by
  have hpl : p ∉ g.lv p := (nodup_cons.mp (hr.lv.ring_nodup hp)).1
  unfold flushUsedHead
  rw [(hout.lvBits p).2]
  by_cases hu : (m.pent p).unused = true
  · refine ⟨m', g', if_pos hu, hea, htab, (Drops.refl m' g').congr ?_, hout, fun _ _ => rfl⟩
    rintro y k hk
    refine iff_of_false id ?_
    rintro rfl
    rw [hout.role, if_neg hpl, (hr.lv.head y hp).2.2.mp hu] at hk
    cases hk
  obtain ⟨k, hk⟩ := hr.ea_of_head hp (by simpa using hu)
  have hk' : g'.role p = .ea k := by rw [hout.role, if_neg hpl, hk]
  obtain ⟨m'', g'', hm'', hea', htab', hdrop, hunl⟩ := pentFlushUnlinkEa_spec hea htab hk'
  refine ⟨m'', g'', by rw [if_neg hu, hm''], hea', htab', hdrop, ?_, ?_⟩
  · refine ⟨?_, hunl.freePents.trans hout.freePents, ?_, hunl.ring.trans hout.ring,
      hunl.tabs.trans hout.tabs, hout.role⟩
    · rw [hunl.lvNext]
      exact hout.lvNext
    · intro y
      exact ⟨(hunl.lvBits y).1.trans (hout.lvBits y).1, (hunl.lvBits y).2.trans (hout.lvBits y).2⟩
  · intro y hy
    rw [hunl.role, if_neg (by simpa using hy)]

theorem flushLvHead_spec (hp : m.IsHead p) : ∃ m' g', m.flushLvHead p = some m' ∧ Rep m' g' ∧
      Drops (fun x => host m g x = some p) m g m' g' := by
  obtain ⟨m1, g1, hm1, hea1, htab1, hdrop1, hout1⟩ := flushMembers_spec hr hp
  obtain ⟨m2, g2, hm2, hea2, htab2, hdrop2, hout, hrole2⟩ :=
    flushUsedHead_spec hr hp hea1 htab1 hout1
  have hdrop := hdrop1.trans hdrop2
  have hnot : ∀ y, y = p ∨ y ∈ g.lv p → ∀ k, g2.role y ≠ .ea k := by
    intro y hy k hk
    exact ((hdrop.role y k).mp hk).2 hy.symm
  let g3 : Rings := { g2 with
    lv := update g.lv p []
    free := g.lv p ++ g.free
    ring := fun y => if y ∈ g.lv p then none else g.ring y
    role := fun y => if y = p then .idle else if y ∈ g.lv p then .free else g.role y }
  have hrole3 : ∀ y k, g3.role y = .ea k ↔ g2.role y = .ea k := by
    intro y k
    show (if y = p then Role.idle else if y ∈ g.lv p then .free else g.role y) = _ ↔ _
    split
    · rename_i hy
      exact iff_of_false nofun (hnot y (.inl hy) k)
    · split
      · rename_i hy
        exact iff_of_false nofun (hnot y (.inr hy) k)
      · rename_i hyp hyl
        rw [hrole2 y hyp, hout1.role, if_neg hyl]
  have hpent3 : ∀ y ≠ p, ((m2.setLvNext p p).setPent p .unusedHead).pent y = m2.pent y :=
    fun y hy => update_of_ne hy ..
  have hsame : SameRecs m ((m2.setLvNext p p).setPent p .unusedHead) :=
    hdrop.same.trans ((SameTables.setLvNext ..).trans (SameTables.setPent ..)).toSameRecs
  have hdrop3 : Drops (fun x => x ∈ g.lv p ∨ x = p) m g
      ((m2.setLvNext p p).setPent p .unusedHead) g3 := by
    refine ⟨fun y k => (hrole3 y k).trans (hdrop.role y k), ?_, hdrop.zeroed, hdrop.pte0,
      hdrop.pents, hdrop.tables, hdrop.lev2, hsame, hdrop.tlbies⟩
    intro y k hk
    have hk2 := (hrole3 y k).mp hk
    have hyp : y ≠ p := by rintro rfl; exact hnot y (.inl rfl) k hk2
    have hyl : y ∉ g.lv p := fun hm => hnot y (.inr hm) k hk2
    rw [hpent3 y hyp]
    exact ⟨(hdrop.kept y k hk2).1, (hdrop.kept y k hk2).2.1, if_neg hyl⟩
  refine ⟨(m2.setLvNext p p).setPent p .unusedHead, g3, ?_, ⟨?_, ?_, ?_, ?_⟩, hdrop3.congr ?_⟩
  · unfold flushLvHead
    rw [hm1, some_bind, hm2, some_bind]
  · refine hea2.congr rfl rfl rfl ?_ rfl hrole3
    intro y k hk
    have hyp : y ≠ p := by rintro rfl; exact hnot y (.inl rfl) k hk
    rw [hpent3 y hyp]
    exact ⟨rfl, id⟩
  · refine Emptied.lvPart ⟨hsame, ?_, hout.freePents, update_self .., ?_, rfl, rfl,
      fun _ => rfl, fun _ => rfl⟩ hr.lv hp
    · intro q
      show update m2.lvNext p p q = _
      rw [update_apply, hout.lvNext q]
    · intro y hy
      rw [hpent3 y hy]
      exact hout.lvBits y
  · exact htab2.congr rfl rfl rfl (fun _ _ _ => rfl) rfl
  · intro y
    show (if y = p then Role.idle else if y ∈ g.lv p then .free else g.role y) ≠ _
    split
    · exact nofun
    · split
      · exact nofun
      · exact hr.settled y
  · intro y k hk
    rw [host_eq_iff hr hp hk]
    exact or_comm

theorem flushLvptr_spec {lvptr : Word}
    (hin : ∀ lvr, m.lvranges.find? (·.contains lvptr) = some lvr → m.IsHead (lvr.headOf lvptr)) :
    ∃ m' g', m.flushLvptr_ lvptr = some m' ∧ Rep m' g' ∧
      Drops (fun x => ∃ lvr, m.lvranges.find? (·.contains lvptr) = some lvr ∧
        host m g x = some (lvr.headOf lvptr)) m g m' g' := by
  unfold flushLvptr_
  cases hf : m.lvranges.find? (·.contains lvptr) with
  | none =>
    refine ⟨m, g, rfl, hr, (Drops.refl m g).congr ?_⟩
    intro x k _
    exact iff_of_false id nofun
  | some lvr =>
    obtain ⟨m', g', hm', hr', hdrop⟩ := flushLvHead_spec hr (hin lvr hf)
    refine ⟨m', g', hm', hr', hdrop.congr ?_⟩
    intro x k _
    constructor
    · intro hx
      exact ⟨lvr, rfl, hx⟩
    · rintro ⟨lvr', he, hx⟩
      cases he
      exact hx

end Rep

end MacOnLinux
