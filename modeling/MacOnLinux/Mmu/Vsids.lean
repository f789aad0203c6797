import MacOnLinux.Mmu.Flush

/-! # VSID entries -/

namespace MacOnLinux

open Function Skiplist List

theorem VsidsOk.mono {s s' : Mmu} {es es' : List Nat} (h : VsidsOk s es) (hc : s'.ctx = s.ctx)
    (hes : ∀ e ∈ es', e ∈ es ∧ ∀ sv, s'.vsidOf e sv = s.vsidOf e sv) : VsidsOk s' es' := by
  constructor
  · intro e he sv
    rw [hc, (hes e he).2]
    exact h.issued e (hes e he).1 sv
  · intro e he e' he' sv sv' heq
    rw [(hes e he).2, (hes e' he').2] at heq
    exact h.inj e (hes e he).1 e' (hes e' he').1 sv sv' heq

namespace Mmu

variable {s s' s'' : Mmu} {g g' g'' : Rings} {v v' v'' : SlMap} {mt : Mtable}

/-! ## The callback of skiplist_prealloc -/

theorem toNat_vsid (m : Nat) :
    ((BitVec.ofNat 32 (contextVsid m) ||| vsidKp) &&& 0xffffff).toNat = contextVsid m := by
  have := contextVsid_lt m
  rw [or_and_vsidMask _ (by decide), toNat_and_vsidMask, BitVec.toNat_ofNat]
  omega

theorem vsidElCallback_vsidOf (s : Mmu) (r e : Nat) (sv : Bool) : (s.vsidElCallback r).vsidOf e sv =
      if e = r then contextVsid (s.ctx.next + if sv then 1 else 0) else s.vsidOf e sv := by
  by_cases he : e = r
  · subst he
    rw [if_pos rfl]
    cases sv
    · show ((update s.linuxVsid e _ e) &&& _).toNat = _
      rw [update_self]
      exact toNat_vsid _
    · show ((update s.linuxVsidSv e _ e) &&& _).toNat = _
      rw [update_self]
      exact toNat_vsid _
  · rw [if_neg he]
    cases sv
    · show ((update s.linuxVsid r _ e) &&& _).toNat = _
      rw [update_of_ne he]
      rfl
    · show ((update s.linuxVsidSv r _ e) &&& _).toNat = _
      rw [update_of_ne he]
      rfl

theorem vsidElCallback_spec {sess r : Nat} {es : List Nat} (hs : sess < maxNumSessions)
    (hc : CtxOk sess s.ctx) (hv : VsidsOk s es) (hr : r ∉ es) (hn : s.ctx.next + 1 ≤ s.ctx.last) :
    CtxOk sess (s.vsidElCallback r).ctx ∧ VsidsOk (s.vsidElCallback r) (r :: es) := by
  have hc' : CtxOk sess (s.vsidElCallback r).ctx := (hc.alloc (by omega)).alloc hn
  have hnew : ∀ sv : Bool, ((s.ctx.next + if sv then 1 else 0),
      (s.vsidElCallback r).vsidOf r sv) ∈ (s.vsidElCallback r).ctx.issued := by
    intro sv
    rw [vsidElCallback_vsidOf, if_pos rfl]
    cases sv
    · exact mem_cons_of_mem _ mem_cons_self
    · exact mem_cons_self
  have hold : ∀ e ∈ es, ∀ sv, ∃ m, (m, (s.vsidElCallback r).vsidOf e sv) ∈
      (s.vsidElCallback r).ctx.issued ∧ m ≠ s.ctx.first ∧ m < s.ctx.next := by
    intro e he sv
    have her : e ≠ r := by rintro rfl; exact hr he
    rw [vsidElCallback_vsidOf, if_neg her]
    obtain ⟨m, hm, hf⟩ := hv.issued e he sv
    exact ⟨m, mem_cons_of_mem _ (mem_cons_of_mem _ hm), hf, (hc.issued _ hm).2.1⟩
  -- a new VSID is not an old one
  have hne : ∀ e ∈ es, ∀ sv sv', (s.vsidElCallback r).vsidOf e sv ≠
      (s.vsidElCallback r).vsidOf r sv' := by
    intro e he sv sv' heq
    obtain ⟨m, hm, _, hlt⟩ := hold e he sv
    have := congrArg Prod.fst (hc'.vsid_inj hs hm (hnew sv') heq)
    omega
  refine ⟨hc', ?_, ?_⟩
  · intro e he sv
    rcases mem_cons.mp he with rfl | he
    · exact ⟨_, hnew sv, by have := hc.next.1; show _ ≠ s.ctx.first; omega⟩
    · obtain ⟨m, hm, hf, _⟩ := hold e he sv
      exact ⟨m, hm, hf⟩
  intro e he e' he' sv sv' heq
  rcases mem_cons.mp he with h1 | h1 <;> rcases mem_cons.mp he' with h2 | h2
  · subst h1 h2
    have := congrArg Prod.fst (hc'.vsid_inj hs (hnew sv) (hnew sv') heq)
    refine ⟨rfl, ?_⟩
    cases sv <;> cases sv' <;> simp at this ⊢
  · subst h1
    exact absurd heq.symm (hne e' h2 sv' sv)
  · subst h2
    exact absurd heq (hne e h1 sv sv')
  · have hn1 : e ≠ r := by rintro rfl; exact hr h1
    have hn2 : e' ≠ r := by rintro rfl; exact hr h2
    rw [vsidElCallback_vsidOf, vsidElCallback_vsidOf, if_neg hn1, if_neg hn2] at heq
    exact hv.inj e h1 e' h2 sv sv' heq

theorem vsidElCallback_mt (s : Mmu) {r : Nat} (hr : ∀ i, s.mt.lev2 r i = none) :
    (s.vsidElCallback r).mt = s.mt := by
  have : update s.mt.lev2 r (fun _ => none) = s.mt.lev2 := by
    rw [update_eq_self_iff]
    funext i
    exact (hr i).symm
  unfold vsidElCallback
  simp [this]

theorem callbacks_spec {sess : Nat} (hs : sess < maxNumSessions) (els : List Nat) :
    ∀ {s : Mmu} {es : List Nat}, CtxOk sess s.ctx → VsidsOk s es → els.Nodup →
      (∀ e ∈ els, e ∉ es ∧ ∀ i, s.mt.lev2 e i = none) →
      s.ctx.next + 2 * els.length ≤ s.ctx.last + 1 →
      ∃ ctx vs vsSv, els.foldl vsidElCallback s =
          { s with ctx := ctx, linuxVsid := vs, linuxVsidSv := vsSv } ∧
        CtxOk sess ctx ∧ ctx.first = s.ctx.first ∧ ctx.last = s.ctx.last ∧
        (∀ e, e ∈ es → ∀ sv, (els.foldl vsidElCallback s).vsidOf e sv = s.vsidOf e sv) ∧
        ∃ es', (∀ e, e ∈ es' ↔ e ∈ els ∨ e ∈ es) ∧ VsidsOk (els.foldl vsidElCallback s) es' := by
  induction els with
  | nil =>
    intro s es hc hv _ _ _
    exact ⟨s.ctx, s.linuxVsid, s.linuxVsidSv, rfl, hc, rfl, rfl, fun _ _ _ => rfl, es, by simp, hv⟩
  | cons r els ih =>
    intro s es hc hv hnd hnew hn
    rw [length_cons] at hn
    rw [nodup_cons] at hnd
    obtain ⟨hr, hlev2⟩ := hnew r mem_cons_self
    obtain ⟨hc1, hv1⟩ := vsidElCallback_spec hs hc hv hr (by omega)
    have hmt := vsidElCallback_mt s hlev2
    have hn1 : (s.vsidElCallback r).ctx.next + 2 * els.length ≤ (s.vsidElCallback r).ctx.last + 1 := by
      show s.ctx.next + 1 + 1 + 2 * els.length ≤ s.ctx.last + 1
      omega
    have hnew1 : ∀ e ∈ els, e ∉ r :: es ∧ ∀ i, (s.vsidElCallback r).mt.lev2 e i = none := by
      intro e he
      obtain ⟨h1, h2⟩ := hnew e (mem_cons_of_mem _ he)
      rw [hmt, mem_cons, not_or]
      exact ⟨⟨by rintro rfl; exact hnd.1 he, h1⟩, h2⟩
    obtain ⟨ctx, vs, vsSv, hs', hc', hf, hl, hkeep, es', hes', hv'⟩ := ih hc1 hv1 hnd.2 hnew1 hn1
    rw [foldl_cons]
    refine ⟨ctx, vs, vsSv, ?_, hc', hf, hl, ?_, es', ?_, hv'⟩
    · rw [hs', hmt]
      rfl
    · intro e he sv
      have her : e ≠ r := by rintro rfl; exact hr he
      rw [hkeep e (mem_cons_of_mem _ he), vsidElCallback_vsidOf, if_neg her]
    · intro e
      rw [hes', mem_cons, mem_cons]
      tauto

/-! ## What allocation does -/

/-- What is tracked stays, and no entry goes away or changes its VSIDs. -/
structure Grown (s : Mmu) (g : Rings) (v : SlMap) (s' : Mmu) (g' : Rings) (v' : SlMap) : Prop where
  keeps : Keeps s.mt g s'.mt g'
  live : ∀ p ∈ v.live, p ∈ v'.live
  owned : ∀ e ∈ v.owned, e ∈ v'.owned ∧ ∀ sv, s'.vsidOf e sv = s.vsidOf e sv
  segs : s'.vsid = s.vsid ∧ s'.unmappedVsid = s.unmappedVsid ∧ s'.userSr = s.userSr ∧
    s'.svSr = s.svSr ∧ s'.unmappedSr = s.unmappedSr
  host : SameHost s s'

/-- An entry point that allocates may have to clear everything. -/
def Outcome (s : Mmu) (g : Rings) (v : SlMap) (s' : Mmu) (g' : Rings) (v' : SlMap) : Prop :=
  Grown s g v s' g' v' ∨ Cleared s g s' g'

/-- More PTEs are zeroed. -/
theorem Cleared.zeroed_more (h : Cleared s g s' g') (hpte0 : ∀ i, s''.mt.pte0 i = s'.mt.pte0 i ∨ s''.mt.pte0 i = 0) :
    (∀ x k, g.role x = .ea k → s''.mt.pte0 (s.mt.pent x).index = 0) ∧
      ∀ i, s''.mt.pte0 i = s.mt.pte0 i ∨ s''.mt.pte0 i = 0 := by
  refine ⟨fun x k hk => ?_, fun i => ?_⟩
  · exact (hpte0 _).elim (·.trans (h.zeroed x k hk)) id
  · rcases hpte0 i with he | he
    · rw [he]
      exact h.pte0 i
    · exact .inr he

theorem Grown.refl (s : Mmu) (g : Rings) (v : SlMap) : Grown s g v s g v :=
  ⟨Keeps.refl s.mt g, fun _ hp => hp, fun _ he => ⟨he, fun _ => rfl⟩, ⟨rfl, rfl, rfl, rfl, rfl⟩,
    SameHost.refl s⟩

theorem Grown.outcome (h : Grown s g v s' g' v') : Outcome s g v s' g' v' := Or.inl h

theorem Cleared.outcome (h : Cleared s g s' g') : Outcome s g v s' g' v' := Or.inr h

theorem Outcome.host (h : Outcome s g v s' g' v') : SameHost s s' := by
  rcases h with h | h
  · exact h.host
  · exact h.host

theorem Outcome.trans (h : Outcome s g v s' g' v') (h' : Outcome s' g' v' s'' g'' v'') :
    Outcome s g v s'' g'' v'' := by
  rcases h with h | h <;> rcases h' with h' | h'
  · obtain ⟨a1, a2, a3, a4, a5⟩ := h.segs
    obtain ⟨b1, b2, b3, b4, b5⟩ := h'.segs
    refine .inl ⟨h.keeps.trans h'.keeps, fun p hp => h'.live p (h.live p hp), ?_,
      ⟨b1.trans a1, b2.trans a2, b3.trans a3, b4.trans a4, b5.trans a5⟩, h.host.trans h'.host⟩
    intro e he
    obtain ⟨he', hv⟩ := h.owned e he
    obtain ⟨he'', hv'⟩ := h'.owned e he'
    exact ⟨he'', fun sv => (hv' sv).trans (hv sv)⟩
  · refine .inr ⟨h'.untracked, ?_, ?_, h'.noVsid, h.host.trans h'.host⟩
    · intro x k hk
      have hk' := (h.keeps.role x k).mpr hk
      rw [← (h.keeps.kept x k hk').1]
      exact h'.zeroed x k hk'
    · rw [← h.keeps.pte0]
      exact h'.pte0
  · obtain ⟨b1, b2, _⟩ := h'.segs
    refine .inr ⟨?_, ?_, ?_, ?_, h.host.trans h'.host⟩
    · intro x k hk
      exact h.untracked x k ((h'.keeps.role x k).mp hk)
    · rw [h'.keeps.pte0]
      exact h.zeroed
    · rw [h'.keeps.pte0]
      exact h.pte0
    · rw [b1, b2]
      exact h.noVsid
  · obtain ⟨hzeroed, hpte0⟩ := h.zeroed_more h'.pte0
    exact .inr ⟨h'.untracked, hzeroed, hpte0, h'.noVsid, h.host.trans h'.host⟩

/-! ## Context wrap -/

theorem initContexts_spec (h : Inv s g v) (he : v.owned = []) :
    Inv s.initContexts g v ∧ s.initContexts.ctx.next = s.initContexts.ctx.first + 1 := by
  refine ⟨⟨h.rep.withHost _ _, h.sl, h.datasize, h.live, h.ranges.congr rfl, h.sess,
    Contexts.init_ok h.sess, ?_, ?_⟩, rfl⟩
  · rw [he]
    exact nofun
  · rw [he]
    exact nofun

theorem Cleared.init (h : Cleared s g s' g') (hc : CtxOk s'.sessionIndex s'.ctx) :
    Cleared s g s'.initContexts g' := by
  have hpte0 : ∀ i, s'.initContexts.mt.pte0 i = s'.mt.pte0 i ∨ s'.initContexts.mt.pte0 i = 0 := by
    intro i
    unfold initContexts flushAllPTEs
    simp only
    split
    · exact .inr rfl
    · exact .inl rfl
  obtain ⟨hzeroed, hpte0⟩ := h.zeroed_more hpte0
  exact ⟨h.untracked, hzeroed, hpte0, h.noVsid,
    h.host.trans ⟨rfl, rfl, rfl, rfl, hc.first.symm, hc.last.symm, rfl, rfl, rfl⟩⟩

/-- `handle_context_wrap` leaves room for `n` contexts, at least when `n` is small. -/
theorem handleContextWrap_spec (h : Inv s g v) (n : Int) :
    ∃ s' g' v', s.handleContextWrap n = some s' ∧ Inv s' g' v' ∧ Outcome s g v s' g' v' ∧
      (v' = v ∨ v'.owned = []) ∧ (n ≤ 2 ^ 20 → (s'.ctx.next : Int) + n ≤ s'.ctx.last) := by
  unfold handleContextWrap
  split
  · obtain ⟨s1, hs1, h1, hc1⟩ := clearAllVsids_spec h
    obtain ⟨h2, hnext⟩ := initContexts_spec h1 rfl
    rw [hs1]
    refine ⟨_, _, _, rfl, h2, .inr (hc1.init h1.ctx), .inr rfl, ?_⟩
    intro hn
    have := firstMolContext_bounds h2.sess
    have := h2.ctx.first
    have := h2.ctx.last
    omega
  · exact ⟨s, g, v, rfl, h, (Grown.refl s g v).outcome, .inl rfl, fun _ => by omega⟩

/-! ## New entries -/

theorem mem_owned {e : Nat} : e ∈ v.owned ↔ e ∈ v.live.map (·.2) ∨ e ∈ v.free := mem_append

section Specs

variable (h : Inv s g v)

include h

theorem insertEnt_spec {key : Int} (hk : key < skiplistEnd) (ha : v.lookup key = none) :
    ∃ sl v', skiplistInsert s.vsidSl key = some (sl, toNode v.free.head?) ∧
      Inv { s with vsidSl := sl } g v' ∧ Grown s g v { s with vsidSl := sl } g v' ∧
      ∀ e, v.free.head? = some e → (key, e) ∈ v'.live := by
  obtain ⟨sl, hsl, hrep, hfresh, hds⟩ := skiplist_insert_spec h.sl hk ha
  have hmem : ∀ e, e ∈ (v.insert key).owned ↔ e ∈ v.owned := fun e => (insert_perm v key).mem_iff
  have hlive : ∀ p ∈ v.live, p ∈ (v.insert key).live := by
    intro p hp
    unfold SlMap.insert
    split
    · exact hp
    · rcases (mem_live_iff key).mp hp with hp | hp
      · exact mem_append_left _ hp
      · exact mem_append_right _ (mem_cons_of_mem _ hp)
  refine ⟨sl, v.insert key, hsl, ⟨h.rep, hrep, hds.trans h.datasize, ?_, h.ranges, h.sess, h.ctx,
    h.vsids.mono rfl fun e he => ⟨(hmem e).mp he, fun _ => rfl⟩⟩, ⟨Keeps.refl s.mt g, hlive, ?_,
    ⟨rfl, rfl, rfl, rfl, rfl⟩, rfl, rfl, rfl, rfl, rfl, rfl, rfl, rfl, rfl⟩, ?_⟩
  · intro r i t ht
    obtain ⟨p, hp, rfl⟩ := mem_map.mp (h.live r i t ht)
    exact mem_map_of_mem (hlive p hp)
  · intro e he
    exact ⟨(hmem e).mpr he, fun _ => rfl⟩
  · intro e he
    obtain ⟨fs, hf⟩ := head?_eq_some_iff.mp he
    unfold SlMap.insert
    rw [hf]
    exact mem_append_right _ mem_cons_self

theorem preallocEnt_spec (hroom : s.ctx.next + 30 ≤ s.ctx.last) (first : Nat) (coin : Nat → Bool) :
    ∃ sl els s' v', skiplistPrealloc s.vsidSl chunkSize coin = some (sl, els) ∧
      els.foldl vsidElCallback { s with mt := s.mt.addPage .vsid first, vsidSl := sl } = s' ∧
      Inv s' g v' ∧ Grown s g v s' g v' ∧ v'.live = v.live := by
  obtain ⟨sl, els, hsl, hrep, hnew, hnd, hlen, hds, hfresh⟩ :=
    skiplist_prealloc_spec h.sl chunkSize coin
  have hlt : ∀ e ∈ v.owned, e < s.vsidSl.fresh := h.sl.owned
  have hfreshEls : ∀ e ∈ els, e ∉ v.owned ∧ ∀ i, s.mt.lev2 e i = none := by
    intro e he
    have hge := ((hnew e).mp he).1
    have hown : e ∉ v.owned := by
      intro ho
      have := hlt e ho
      omega
    refine ⟨hown, fun i => ?_⟩
    cases ht : s.mt.lev2 e i with
    | none => rfl
    | some t => exact absurd (mem_owned.mpr (.inl (h.live e i t ht))) hown
  have hcount : 2 * els.length ≤ 30 := by
    rw [h.datasize] at hlen
    unfold sizeofVsidEnt sizeofSkiplist chunkSize at hlen
    omega
  obtain ⟨ctx, vs, vsSv, hs', hc', hf, hl, hkeep, es', hes', hv'⟩ :=
    callbacks_spec (s := { s with mt := s.mt.addPage .vsid first, vsidSl := sl }) h.sess els h.ctx
      ⟨h.vsids.issued, h.vsids.inj⟩ hnd hfreshEls (by show s.ctx.next + _ ≤ s.ctx.last + 1; omega)
  have hmem : ∀ e, e ∈ (v.prealloc els (recordHeights v.ht s.vsidSl sl)).owned ↔
      e ∈ els ∨ e ∈ v.owned := by
    intro e
    rw [mem_owned, mem_owned]
    show e ∈ v.live.map (·.2) ∨ e ∈ els ++ v.free ↔ _
    rw [mem_append]
    tauto
  rw [hs'] at hkeep hv'
  refine ⟨sl, els, _, v.prealloc els (recordHeights v.ht s.vsidSl sl), hsl, hs',
    ⟨h.rep.addPage (by decide) first, hrep, hds.trans h.datasize, h.live, h.ranges.congr rfl, h.sess,
      hc', hv'.mono rfl ?_⟩, ⟨?_, fun _ hp => hp, ?_, ⟨rfl, rfl, rfl, rfl, rfl⟩,
    rfl, rfl, rfl, rfl, hf, hl, rfl, rfl, rfl⟩, rfl⟩
  · intro e he
    exact ⟨(hes' e).mpr ((hmem e).mp he), fun _ => rfl⟩
  · exact ⟨fun _ _ => Iff.rfl, fun _ _ _ => ⟨rfl, rfl, rfl⟩, rfl, rfl⟩
  · intro e he
    exact ⟨(hmem e).mpr (.inr he), hkeep e he⟩

theorem allocVsidEnt_spec {key : Int} (hk : key < skiplistEnd)
    (ha : v.lookup key = none) (ok : Bool) (coin : Nat → Bool) :
    ∃ s' r g' v', s.allocVsidEnt key ok coin = some (s', r) ∧ Inv s' g' v' ∧
      Outcome s g v s' g' v' ∧ ∀ e, r = some e → (key, e) ∈ v'.live := by
  unfold allocVsidEnt
  split
  · obtain ⟨s1, g1, v1, hs1, h1, ho1, hv1, hroom⟩ :=
      handleContextWrap_spec h (chunkSize / sizeofVsidEnt * 2 : Nat)
    have hroom' : s1.ctx.next + 30 ≤ s1.ctx.last := by
      have := hroom (by decide)
      unfold chunkSize sizeofVsidEnt at this
      omega
    have ha1 : v1.lookup key = none := by
      rcases hv1 with rfl | hv1
      · exact ha
      · have hlive := map_eq_nil_iff.mp (append_eq_nil_iff.mp hv1).1
        rw [lookup_eq_none, hlive]
        exact nofun
    rw [hs1, some_bind]
    rcases doChunkKmalloc_spec s1.mt ok .vsid s1.vsidSl.fresh with hm | hm
    · simp only [hm]
      exact ⟨s1, none, g1, v1, rfl, h1, ho1, nofun⟩
    obtain ⟨sl, els, s2, v2, hsl, hs2, h2, hg2, hlive⟩ :=
      preallocEnt_spec h1 hroom' s1.vsidSl.fresh coin
    have ha2 : v2.lookup key = none := by
      rw [lookup_eq_none, hlive]
      exact lookup_eq_none.mp ha1
    obtain ⟨sl3, v3, hsl3, h3, hg3, hnew⟩ := insertEnt_spec h2 hk ha2
    simp only [hm, hsl, some_bind, hs2, hsl3, entryOf_toNode]
    exact ⟨_, _, g1, v3, rfl, h3, ho1.trans (hg2.outcome.trans hg3.outcome), hnew⟩
  · obtain ⟨sl, v', hsl, h', hg', hnew⟩ := insertEnt_spec h hk ha
    simp only [hsl, some_bind, entryOf_toNode]
    exact ⟨_, _, g, v', rfl, h', .inl hg', hnew⟩

theorem vsidGetUserSv_spec {key : Int} (hk : key < skiplistEnd) (ok ok' : Bool)
    (coin coin' : Nat → Bool) :
    ∃ s' r g' v', s.vsidGetUserSv key ok ok' coin coin' = some (s', r) ∧ Inv s' g' v' ∧
      Outcome s g v s' g' v' ∧ ∀ e, r = some e → (key, e) ∈ v'.live := by
  unfold vsidGetUserSv
  rw [vsidEntLookup_spec h hk]
  cases hl : v.lookup key with
  | some e =>
    refine ⟨s, some e, g, v, rfl, h, (Grown.refl s g v).outcome, ?_⟩
    rintro _ ⟨⟩
    exact (lookup_eq_some h.sl.sorted).mp hl
  | none =>
    obtain ⟨s1, r, g1, v1, hs1, h1, ho1, hr1⟩ := allocVsidEnt_spec h hk hl ok coin
    rw [hs1]
    cases r with
    | some e => exact ⟨s1, some e, g1, v1, rfl, h1, ho1, hr1⟩
    | none =>
      obtain ⟨s2, hs2, h2, hc2⟩ := clearAllVsids_spec h1
      obtain ⟨s3, r, g3, v3, hs3, h3, ho3, hr3⟩ := allocVsidEnt_spec h2 hk rfl ok' coin'
      simp only [some_bind, hs2]
      exact ⟨s3, r, g3, v3, hs3, h3, ho1.trans (hc2.outcome.trans ho3), hr3⟩

/-! ## Memory for one insertion -/

theorem Inv.keeps (hr : MacOnLinux.Rep mt g') (hk : Keeps s.mt g mt g')
    (hl : mt.lvranges = s.mt.lvranges) :
    Inv { s with mt := mt } g' v ∧ Grown s g v { s with mt := mt } g' v := by
  refine ⟨h.withMt hr ?_ (h.ranges.congr hl), hk, fun _ hp => hp, fun _ he => ⟨he, fun _ => rfl⟩,
    ⟨rfl, rfl, rfl, rfl, rfl⟩, rfl, rfl, rfl, rfl, rfl, rfl, hl, rfl, rfl⟩
  rw [hk.lev2]
  exact h.live

theorem mtableMemoryCheck_spec (lev2Ok pentOk : Bool) :
    ∃ s' b g' v', s.mtableMemoryCheck lev2Ok pentOk = some (s', b) ∧ Inv s' g' v' ∧
      Outcome s g v s' g' v' ∧
      (b = false → s'.mt.freePents ≠ .null ∧ s'.mt.freePentTables ≠ .null) := by
  unfold mtableMemoryCheck
  split
  · rename_i hfree
    exact ⟨s, false, g, v, rfl, h, (Grown.refl s g v).outcome, fun _ => hfree⟩
  obtain ⟨mt1, hmt1, g1, hr1, hk1, hl1⟩ : ∃ mt1,
      (if s.mt.freePentTables = .null then s.mt.lev2Alloc lev2Ok else s.mt) = mt1 ∧
      ∃ g1, MacOnLinux.Rep mt1 g1 ∧ Keeps s.mt g mt1 g1 ∧ mt1.lvranges = s.mt.lvranges := by
    split
    · obtain ⟨g1, hr1, hk1, hl1, _⟩ := lev2Alloc_spec h.rep lev2Ok
      exact ⟨_, rfl, g1, hr1, hk1, hl1⟩
    · exact ⟨_, rfl, g, h.rep, Keeps.refl s.mt g, rfl⟩
  obtain ⟨mt2, hmt2, g2, hr2, hk2, hl2⟩ : ∃ mt2,
      (if mt1.freePents = .null then mt1.pentAlloc pentOk else mt1) = mt2 ∧
      ∃ g2, MacOnLinux.Rep mt2 g2 ∧ Keeps mt1 g1 mt2 g2 ∧ mt2.lvranges = mt1.lvranges := by
    split
    · obtain ⟨g2, hr2, hk2, hl2, _⟩ := pentAlloc_spec hr1 pentOk
      exact ⟨_, rfl, g2, hr2, hk2, hl2⟩
    · exact ⟨_, rfl, g1, hr1, Keeps.refl mt1 g1, rfl⟩
  obtain ⟨h2, hg2⟩ := h.keeps hr2 (hk1.trans hk2) (hl2.trans hl1)
  simp only [hmt1, hmt2]
  split_ifs with hfree
  · obtain ⟨s3, hs3, h3, hc3⟩ := clearAllVsids_spec h2
    refine ⟨s3, true, _, _, ?_, h3, hg2.outcome.trans hc3.outcome, nofun⟩
    rw [hs3, Option.map_some]
  · exact ⟨_, false, g2, v, rfl, h2, .inl hg2, fun _ => not_or.mp hfree⟩

end Specs

end Mmu

end MacOnLinux
