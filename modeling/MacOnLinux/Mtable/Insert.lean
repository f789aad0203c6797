import MacOnLinux.Mtable.Flush

/-! # Insertion

A new record is taken in limbo, joined to its lv ring and then to its ea ring.
-/

namespace MacOnLinux

open Function Linked Mtable List

variable {m m' m'' : Mtable} {g g' g'' : Rings} {x y p : Ptr} {s : Slot} {k : Key} {t : Nat}
variable {xs ys zs : List Ptr}

variable {i r ea : Nat} {o : Option Ptr} {sv : Bool}

/-! ## Records from the lists -/

theorem LvPart.plain_of_free (h : LvPart m g) (hx : g.role x = .free) : m.IsPlain x := by
  rcases h.owned x (by rw [hx]; exact nofun) with hh | hp
  · exact absurd hx (h.head x hh).2.1
  · exact hp

theorem LvPart.popFree (h : LvPart m g) (hf : g.free = x :: xs) :
    LvPart { m with freePents := m.lvNext x } { g.setRole x .limbo with free := xs } := by
  have hx : g.role x = .free := (h.freeMem x).mp (by rw [hf]; exact mem_cons_self)
  have hp := h.plain_of_free hx
  have hseg := h.freeList
  have hnd := h.freeNodup
  rw [hf] at hseg hnd
  obtain ⟨hxs, hnd⟩ := nodup_cons.mp hnd
  have hlimbo : Rings.role { g.setRole x .limbo with free := xs } x = .limbo := setRole_self ..
  refine h.recast ⟨rfl, rfl, rfl, rfl, rfl, rfl⟩ (fun _ _ => rfl) (fun _ _ => rfl) (fun _ => setRole_of_ne)
    rfl rfl (.inl rfl) (.inr ?_) (seg_cons.mp hseg).2 hnd
    (fun y hy => by rw [hf, mem_cons, or_iff_right hy]) ?_ (fun hh => absurd hh (h.not_head hp))
    (fun _ => ?_) fun _ => .inr hp
  all_goals rw [hlimbo]
  · exact nofun
  · exact iff_of_false hxs nofun
  · exact ⟨(h.plain x hp).1, nofun, nofun⟩

theorem LvPart.setLimbo (h : LvPart m g) (hl : g.role x = .limbo) (hp : m.IsPlain x)
    (hr : g.ring x = none) (v : Ptr) : LvPart (m.setLvNext x v) g := by
  refine h.recast ⟨rfl, rfl, rfl, rfl, rfl, rfl⟩ (fun y hy => update_of_ne hy ..) (fun _ _ => rfl)
    (fun _ _ => rfl) rfl rfl (.inr ⟨hp, hr⟩) (.inl hr) ?_ h.freeNodup (fun _ _ => Iff.rfl) (h.freeMem x)
    (h.head x) (fun _ => ⟨(h.plain x hp).1, (h.plain x hp).2.1, ?_⟩) (h.owned x)
  · refine (seg_update ?_).mpr h.freeList
    rw [h.freeMem, hl]
    exact nofun
  · rw [hl]
    exact nofun

def Rings.join (g : Rings) (x p : Ptr) : Rings :=
  { g with ring := Function.update g.ring x (some p), lv := Function.update g.lv p (x :: g.lv p) }

theorem join_ring (g : Rings) (x p y : Ptr) :
    (g.join x p).ring y = if y = x then some p else g.ring y := update_apply ..

theorem LvPart.join (h : LvPart m g) (hl : g.role x = .limbo) (hx : m.IsPlain x)
    (hr : g.ring x = none) (hp : m.IsHead p) :
    LvPart ((m.setLvNext x (m.lvNext p)).setLvNext p x) (g.join x p) := by
  have hxp : x ≠ p := by rintro rfl; exact h.not_head hx hp
  have hxl : ∀ q, x ∉ g.lv q := by
    intro q hm
    rw [h.mem, hr] at hm
    cases hm
  have hc : Chain m.lvNext p ([] ++ g.lv p) p := h.ring p hp
  refine h.rering hl hx hp (fun q _ => hxl q) (fun y hyx hy => ?_)
    (chain_link hc (h.ring_nodup hp) (by simp [hxp, hxl p])) (nodup_cons.mpr ⟨hxl p, h.nodup p⟩)
    (iff_of_true mem_cons_self rfl) (fun y hy => ?_) fun q he => (Option.some.inj he).symm
  · show update (update _ _ _) _ _ y = _
    rw [update_of_ne (ne_of_not_mem_cons hy), update_of_ne hyx]
  · rw [mem_cons, or_iff_right hy]

/-! ## get_free_pent -/

structure Taken (o : Option Ptr) (x : Ptr) (m : Mtable) (g : Rings) (m' : Mtable) (g' : Rings) :
    Prop where
  eaNext : m'.eaNext = m.eaNext
  pent : ∀ y ≠ x, m'.pent y = m.pent y
  blank : (m'.pent x).eaLast = false ∧ (m'.pent x).unused = false
  pte0 : m'.pte0 = m.pte0
  same : SameTables m m'
  ea : g'.ea = g.ea
  tabs : g'.tabs = g.tabs
  role : ∀ y ≠ x, g'.role y = g.role y
  limbo : g'.role x = .limbo
  fresh : ∀ k, g.role x ≠ .ea k
  ring : ∀ y ≠ x, g'.ring y = g.ring y
  host : host m' g' x = o
  null : o = none → m'.lvNext x = .null

theorem popFreePent_spec (h : LvPart m g) (hf : m.freePents ≠ .null) :
    ∃ x xs, g.free = x :: xs ∧ g.role x = .free ∧ m.IsPlain x ∧ g.ring x = none ∧
      m.popFreePent = some ({ m with freePents := m.lvNext x }, x) := by
  have hseg := h.freeList
  cases hfree : g.free with
  | nil =>
    rw [hfree] at hseg
    exact absurd hseg hf
  | cons x xs =>
    rw [hfree] at hseg
    have hx : g.role x = .free := (h.freeMem x).mp (by rw [hfree]; exact mem_cons_self)
    have hp := h.plain_of_free hx
    obtain ⟨i, _, rfl⟩ := h.bound x (.inr hp)
    refine ⟨_, xs, rfl, hx, hp, ?_, ?_⟩
    · cases hr : g.ring (.pterec i) with
      | none => rfl
      | some q => exact absurd hx (h.member q _ hr).2.2
    · unfold popFreePent
      rw [hseg.1]

theorem getFreePent_spec (h : LvPart m g) (hf : m.freePents ≠ .null)
    (lv : Option (LvRange × Word)) (hlv : ∀ l ∈ lv, m.IsHead (l.1.headOf l.2)) :
    ∃ m' g' x, m.getFreePent lv = some (m', x) ∧ LvPart m' g' ∧
      Taken (lv.map fun l => l.1.headOf l.2) x m g m' g' := by
  obtain ⟨x, xs, hfree, hx, hp, hr, hpop⟩ := popFreePent_spec h hf
  have hfresh : ∀ k, g.role x ≠ .ea k := by rw [hx]; exact nofun
  have hrole : ∀ y ≠ x, (g.setRole x .limbo).role y = g.role y :=
    fun y => setRole_of_ne
  have hlimbo : (g.setRole x .limbo).role x = .limbo := setRole_self ..
  have hzero : ∀ y, m.IsHead y ∨ m.IsPlain y → (update m.pent x .zero y).lvHead = (m.pent y).lvHead ∧
      (m.IsHead y → (update m.pent x .zero y).unused = (m.pent y).unused) := by
    intro y hy
    by_cases hyx : y = x
    · subst hyx
      rw [update_self]
      exact ⟨(h.plain y hp).1.symm, fun hh => absurd hh (h.not_head hp)⟩
    · rw [update_of_ne hyx]
      exact ⟨rfl, fun _ => rfl⟩
  have h1 := h.popFree hfree
  cases lv with
  | none =>
    have h2 := h1.setLimbo hlimbo hp hr .null
    refine ⟨({ m with freePents := m.lvNext x }.setLvNext x .null).setPent x .zero, _, x, ?_,
      h2.congr ⟨rfl, rfl, rfl, rfl, rfl, rfl⟩ rfl rfl ?_ rfl rfl rfl rfl,
      rfl, fun y hy => update_of_ne hy .., ?_, rfl, ⟨⟨rfl, rfl, rfl, rfl, rfl, rfl⟩, rfl, rfl, rfl⟩,
      rfl, rfl, hrole, hlimbo, hfresh, fun _ _ => rfl, ?_, fun _ => update_self ..⟩
    · unfold getFreePent
      simp [hpop]
    · exact hzero
    · rw [show (_ : Mtable).pent x = Pent.zero from update_self ..]
      exact ⟨rfl, rfl⟩
    · unfold MacOnLinux.host
      rw [show (_ : Mtable).pent x = Pent.zero from update_self ..]
      exact hr
  | some l =>
    obtain ⟨lvr, lvptr⟩ := l
    have hq := hlv _ rfl
    unfold getFreePent
    simp only [Option.map_some]
    by_cases hu : (m.pent (lvr.headOf lvptr)).unused = true
    · rw [if_pos hu]
      have hidle := (h.head _ hq).2.2.mp hu
      refine ⟨_, _, _, rfl, h.setHead (r := .limbo) hq rfl nofun (iff_of_false nofun nofun), rfl,
        fun y hy => update_of_ne hy .., ?_,
        rfl, SameTables.setPent .., rfl, rfl, ?_, ?_, ?_, fun _ _ => rfl, ?_, nofun⟩
      · rw [show (_ : Mtable).pent _ = Pent.head from update_self ..]
        exact ⟨rfl, rfl⟩
      · exact fun _ => setRole_of_ne
      · exact setRole_self ..
      · rw [hidle]
        exact nofun
      · unfold MacOnLinux.host
        rw [show (_ : Mtable).pent _ = Pent.head from update_self ..]
        rfl
    · rw [if_neg hu, hpop]
      have h2 := h1.join hlimbo hp hr hq
      refine ⟨_, _, x, rfl, h2.congr ⟨rfl, rfl, rfl, rfl, rfl, rfl⟩ rfl rfl ?_ rfl rfl rfl rfl,
        rfl, fun y hy => update_of_ne hy .., ?_, rfl,
        ⟨⟨rfl, rfl, rfl, rfl, rfl, rfl⟩, rfl, rfl, rfl⟩, rfl, rfl, hrole, hlimbo, hfresh, ?_, ?_, nofun⟩
      · exact hzero
      · rw [show (_ : Mtable).pent x = Pent.zero from update_self ..]
        exact ⟨rfl, rfl⟩
      · intro y hy
        rw [join_ring, if_neg hy]
        rfl
      · unfold MacOnLinux.host
        rw [show (_ : Mtable).pent x = Pent.zero from update_self .., join_ring, if_pos rfl]
        rfl

/-! ## Into the ea ring -/

theorem EaPart.notMem (h : EaPart m g) (hx : ∀ k, g.role x ≠ .ea k) : x ∉ g.ea s := by
  intro hm
  obtain ⟨k, hk, _⟩ := (h.mem s x).mp hm
  exact hx k hk

section Rings

variable (h : EaPart m g) (ht : m.lev2 s.1 s.2.1 = some t)
variable (hinj : ∀ r i r' i' t, m.lev2 r i = some t → m.lev2 r' i' = some t → r = r' ∧ i = i')

include h ht hinj

section Put

variable (hlev2 : m'.lev2 = m.lev2) (hrec : m'.nextRec = m.nextRec) (hx : ∀ k, g.role x ≠ .ea k) (hi : i < m.nextRec)
  (hxi : x = .pterec i) (hks : k.slot = s) (hpage : k.page < 2 ^ 16)

include hlev2 hrec hx hi hxi hks hpage

/-- The new record `x` is put between `ys` and `zs`, which were on the ring. -/
theorem EaPart.put
    (hpx : (m'.pent x).Tracks k) (hrx : g'.role x = .ea k)
    (hea : g'.ea = update g.ea s (ys ++ x :: zs)) (hring : m'.RingAt (.slot t s.2.2) (ys ++ x :: zs))
    (hnd : (ys ++ zs).Nodup)
    (hold : ∀ z ∈ ys ++ zs, z ∈ g.ea s ∧ g.role z ≠ .ea k ∧ g'.role z = g.role z ∧ m'.pent z = m.pent z)
    (hframe : ∀ q ∉ Ptr.slot t s.2.2 :: x :: g.ea s, m'.eaNext q = m.eaNext q ∧ m'.pent q = m.pent q)
    (hrole : ∀ q ∉ x :: g.ea s, g'.role q = g.role q)
    (hgone : ∀ y ∈ g.ea s, y ∉ ys ++ x :: zs → ∀ k, g'.role y ≠ .ea k) : EaPart m' g' := by
  have hmem : ∀ z ∈ ys ++ x :: zs, z = x ∨ z ∈ ys ++ zs := by
    intro z hz
    simp at hz ⊢
    tauto
  refine EaChange.eaPart h ⟨ht, hinj, hlev2, hrec, ?_, ?_, hea, hring, ?_, ?_, ?_, hgone, ?_⟩
  · intro q hq
    refine hframe q ?_
    simp at hq ⊢
    tauto
  · intro q hq
    refine hrole q ?_
    simp at hq ⊢
    tauto
  · rw [nodup_middle]
    exact nodup_cons.mpr ⟨fun hm => h.notMem hx (hold x hm).1, hnd⟩
  · intro z hz k' hk'
    rcases hmem z hz with rfl | hz
    · exact absurd hk' (hx k')
    · exact (hold z hz).1
  · intro z hz
    rcases hmem z hz with rfl | hz
    · exact ⟨k, i, hrx, hks, hpage, hpx, hi, hxi⟩
    obtain ⟨hzs, -, hr, hp⟩ := hold z hz
    obtain ⟨k', hk', hs'⟩ := (h.mem s z).mp hzs
    obtain ⟨h1, h2⟩ := h.pent z k' hk'
    obtain ⟨j, hj, he⟩ := h.record z k' hk'
    rw [hr, hp]
    exact ⟨k', j, hk', hs', h1, h2, hj, he⟩
  · intro y hy z hz k' hky hkz
    have hkx : ∀ w ∈ ys ++ zs, g'.role w = .ea k' → g'.role x ≠ .ea k' := by
      intro w hw hwk hxk
      rw [hrx] at hxk
      cases hxk
      rw [(hold w hw).2.2.1] at hwk
      exact (hold w hw).2.1 hwk
    rcases hmem y hy with hy' | hy' <;> rcases hmem z hz with hz' | hz'
    · rw [hy', hz']
    · exact absurd (hy' ▸ hky) (hkx z hz' hkz)
    · exact absurd (hz' ▸ hkz) (hkx y hy' hky)
    · rw [(hold y hy').2.2.1] at hky
      rw [(hold z hz').2.2.1] at hkz
      exact h.uniq y z k' hky hkz

theorem EaPart.addFirst (hnone : ∀ y, g.role y ≠ .ea k) (hslot : m'.eaNext (.slot t s.2.2) = x)
    (hnextx : m'.eaNext x = (g.ea s).headD (.slot t s.2.2))
    (hnext : ∀ q ≠ x, q ≠ .slot t s.2.2 → m'.eaNext q = m.eaNext q)
    (hpent : ∀ y ≠ x, m'.pent y = m.pent y)
    (hpx : (m'.pent x).Tracks k)
    (hlast : (m'.pent x).eaLast = true ↔ g.ea s = []) (hea : g'.ea = update g.ea s (x :: g.ea s))
    (hrole : ∀ y ≠ x, g'.role y = g.role y) (hrx : g'.role x = .ea k) : EaPart m' g' := by
  have hxs := h.notMem (s := s) hx
  have hold : ∀ y ∈ g.ea s, y ≠ x := fun y hy he => hxs (he ▸ hy)
  have hea : g'.ea = update g.ea s ([] ++ x :: g.ea s) := hea
  refine h.put ht hinj hlev2 hrec hx hi hxi hks hpage hpx hrx hea ?_ (h.nodup s)
    (fun y hy => ⟨hy, hnone y, hrole y (hold y hy), hpent y (hold y hy)⟩) ?_
    (fun q hq => hrole q (ne_of_not_mem_cons hq)) (fun y hy hn => absurd (mem_cons_of_mem _ hy) hn)
  · refine .inr ⟨by simp, chain_cons.mpr ⟨hslot, ?_⟩, ?_⟩
    · unfold Linked.Chain
      rw [hnextx]
      rcases h.ringAt ht with ⟨h0, _⟩ | ⟨hne, hc, _⟩
      · rw [h0]
        rfl
      obtain ⟨y, ys, hy⟩ := exists_cons_of_ne_nil hne
      have hc' : Seg m.eaNext ((g.ea s).headD (.slot t s.2.2)) (g.ea s) (.slot t s.2.2) := by
        rw [hy] at hc ⊢
        exact seg_cons.mpr ⟨rfl, (chain_cons.mp hc).2⟩
      refine (seg_congr ?_).mpr hc'
      intro z hz
      exact hnext z (hold z hz) (fun he => h.slot_notMem s t s.2.2 (he ▸ hz))
    · intro y hy
      rw [nil_append, getLastD_cons]
      rcases mem_cons.mp hy with rfl | hy
      · rw [hlast]
        constructor
        · intro h0; rw [h0]; rfl
        · intro he
          by_contra h0
          obtain ⟨z, zs, hz⟩ := exists_cons_of_ne_nil h0
          rw [hz, getLastD_cons] at he
          exact hxs (by rw [hz, he]; exact getLastD_mem z zs)
      · have hne : g.ea s ≠ [] := ne_nil_of_mem hy
        obtain ⟨_, _, hmark⟩ := (h.ringAt ht).resolve_left (fun h0 => hne h0.1)
        rw [hpent y (hold y hy), hmark y hy]
        obtain ⟨z, zs, hz⟩ := exists_cons_of_ne_nil hne
        rw [hz, getLastD_cons, getLastD_cons]
  · intro q hq
    simp only [mem_cons, not_or] at hq
    exact ⟨hnext q hq.2.1 hq.1, hpent q hq.2.1⟩

end Put

theorem EaPart.replace
    (hs : g.ea s = ys ++ y :: zs) (hlev2 : m'.lev2 = m.lev2) (hrec : m'.nextRec = m.nextRec)
    (hx : ∀ k, g.role x ≠ .ea k) (hi : i < m.nextRec) (hxi : x = .pterec i)
    (hy : g.role y = .ea k)
    (hnext : m'.eaNext = update (update m.eaNext x (m.eaNext y)) (ys.getLastD (.slot t s.2.2)) x)
    (hpent : ∀ z ≠ x, z ≠ y → m'.pent z = m.pent z)
    (hpx : (m'.pent x).eaLast = (m.pent y).eaLast ∧ ((m.pent y).Tracks k → (m'.pent x).Tracks k))
    (hea : g'.ea = update g.ea s (ys ++ x :: zs)) (hrole : ∀ z ≠ x, z ≠ y → g'.role z = g.role z)
    (hrx : g'.role x = .ea k) (hry : ∀ k, g'.role y ≠ .ea k) : EaPart m' g' := by
  have hnd : (ys ++ y :: zs).Nodup := hs ▸ h.nodup s
  have hyn : y ∉ ys ++ zs := (nodup_middle.mp hnd).notMem
  have hxs := h.notMem (s := s) hx
  have hps := h.slot_notMem s t s.2.2
  have hys : y ∈ g.ea s := by rw [hs]; simp
  have hks : k.slot = s := by
    obtain ⟨k', hk', hs'⟩ := (h.mem s y).mp hys
    rw [hy] at hk'
    cases hk'
    exact hs'
  have hsub : ∀ z ∈ ys ++ zs, z ∈ g.ea s ∧ z ≠ x ∧ z ≠ y := by
    intro z hz
    have hzs : z ∈ g.ea s := by rw [hs]; simp at hz ⊢; tauto
    exact ⟨hzs, fun he => hxs (he ▸ hzs), fun he => hyn (he ▸ hz)⟩
  have hold : ∀ z ∈ ys ++ zs, z ∈ g.ea s ∧ g.role z ≠ .ea k ∧ g'.role z = g.role z ∧ m'.pent z = m.pent z := by
    intro z hz
    obtain ⟨hzs, hzx, hzy⟩ := hsub z hz
    exact ⟨hzs, fun hzk => hzy (h.uniq z y k hzk hy), hrole z hzx hzy, hpent z hzx hzy⟩
  have hlast : ys.getLastD (.slot t s.2.2) ∈ Ptr.slot t s.2.2 :: g.ea s := hs ▸ getLastD_mem_append ..
  obtain ⟨h1, h2⟩ := h.pent y k hy
  refine h.put ht hinj hlev2 hrec hx hi hxi hks h1 (hpx.2 h2) hrx hea ?_
    (nodup_middle.mp hnd).of_cons hold ?_ ?_ ?_
  · obtain ⟨hc, hmark⟩ := h.ringOf ht hs
    rw [hs] at hps hxs
    have hxn : x ∉ Ptr.slot t s.2.2 :: (ys ++ y :: zs) := by
      rw [mem_cons, not_or]
      exact ⟨by rw [hxi]; exact nofun, hxs⟩
    refine .inr ⟨by simp, hnext ▸ chain_replace hc (nodup_cons.mpr ⟨hps, hnd⟩) hxn, ?_⟩
    -- the mark of `y` is copied, and only the last place of the ring has it
    have hmy := hmark y (by simp)
    intro z hz
    rw [getLastD_append_cons]
    have hz : z = x ∨ z ∈ ys ++ zs := by
      simp at hz ⊢
      tauto
    cases zs with
    | nil =>
      rcases hz with rfl | hz
      · rw [hpx.1]
        exact iff_of_true (hmy.mpr rfl) rfl
      · rw [(hold z hz).2.2.2, hmark z (hs ▸ (hsub z hz).1)]
        exact iff_of_false (hsub z hz).2.2 (hsub z hz).2.1
    | cons w ws =>
      rw [getLastD_cons] at hmy hmark ⊢
      have hwm := getLastD_mem w ws
      rcases hz with rfl | hz
      · rw [hpx.1, hmy]
        refine iff_of_false ?_ ?_
        · intro he
          exact hyn (by rw [he]; exact mem_append_right _ hwm)
        · intro he
          exact (hsub z (by rw [he]; exact mem_append_right _ hwm)).2.1 rfl
      · rw [(hold z hz).2.2.2, hmark z (hs ▸ (hsub z hz).1)]
  · intro q hq
    simp only [mem_cons, not_or] at hq
    have hql : q ≠ ys.getLastD (.slot t s.2.2) := by
      rintro rfl
      exact (mem_cons.mp hlast).elim hq.1 hq.2.2
    rw [hnext, update_of_ne hql, update_of_ne hq.2.1]
    exact ⟨rfl, hpent q hq.2.1 fun he => hq.2.2 (he ▸ hys)⟩
  · intro q hq
    exact hrole q (ne_of_not_mem_cons hq) fun he => hq (mem_cons_of_mem _ (he ▸ hys))
  intro z hz hn
  have hzy : z = y := by
    rw [hs] at hz
    simp at hz hn
    tauto
  rw [hzy]
  exact hry

end Rings

/-! ## The level 2 table -/

theorem getFreeLev2_spec (hr : TabPart m g) (hf : m.freePentTables ≠ .null) :
    ∃ t ts, g.tabs = t :: ts ∧ m.getFreeLev2 = some ({ m.setEaNext (.slot t 0) .null with
      freePentTables := m.eaNext (.slot t 0) }, t) := by
  have hl := hr.list
  cases htabs : g.tabs with
  | nil =>
    rw [htabs] at hl
    exact absurd hl hf
  | cons t ts =>
    rw [htabs] at hl
    refine ⟨t, ts, rfl, ?_⟩
    unfold getFreeLev2
    simp [hl.1]

theorem Rep.takeTable (hr : Rep m g) {ts : List Nat} (ht : m.lev2 r i = none) (hi : i < 64)
    (htabs : g.tabs = t :: ts) :
    Rep ({ m.setEaNext (.slot t 0) .null with
      freePentTables := m.eaNext (.slot t 0) }.setLev2 r i (some t)) { g with tabs := ts } := by
  have hl := hr.tab.list
  have hnd := hr.tab.nodup
  rw [htabs] at hl
  rw [htabs, nodup_cons] at hnd
  have htm : t ∈ g.tabs := by rw [htabs]; exact mem_cons_self
  have hsub : ∀ t' ∈ ts, t' ∈ g.tabs := fun t' h => by rw [htabs]; exact mem_cons_of_mem _ h
  have hunused : ∀ r' i', m.lev2 r' i' ≠ some t := fun r' i' h => (hr.tab.used r' i' t h).1 htm
  have hlev2 : ∀ r' i', ({ m.setEaNext (.slot t 0) .null with
      freePentTables := m.eaNext (.slot t 0) }.setLev2 r i (some t)).lev2 r' i' =
      if r' = r ∧ i' = i then some t else m.lev2 r' i' := setLev2_lev2 _ r i (some t)
  refine ⟨⟨?_, hr.ea.nodup, hr.ea.mem, hr.ea.pent, hr.ea.uniq, hr.ea.record⟩, ?_, ?_, hr.settled⟩
  · intro s
    have hring := hr.ea.ring s
    unfold EaRing at hring ⊢
    rw [hlev2]
    by_cases he : s.1 = r ∧ s.2.1 = i
    · rw [if_pos he]
      rw [he.1, he.2, ht] at hring
      refine .inl ⟨hring, ?_⟩
      show update m.eaNext (.slot t 0) .null (.slot t s.2.2) = .null
      by_cases hj : s.2.2 = 0
      · rw [hj]
        exact update_self ..
      · rw [update_of_ne (by simpa using hj)]
        exact hr.tab.empty t htm _ hj
    · rw [if_neg he]
      cases ht' : m.lev2 s.1 s.2.1 with
      | none =>
        rw [ht'] at hring
        exact hring
      | some t' =>
        rw [ht'] at hring
        refine RingAt.congr hring ?_ (fun _ _ => rfl)
        intro q hq
        refine update_of_ne ?_ ..
        rintro rfl
        rcases mem_cons.mp hq with he | hq
        · exact hunused _ _ ((Ptr.slot.inj he).1 ▸ ht')
        · exact hr.ea.slot_notMem s t 0 hq
  · exact hr.lv.congr ⟨rfl, rfl, rfl, rfl, rfl, rfl⟩ rfl rfl (fun _ _ => ⟨rfl, fun _ => rfl⟩) rfl
      rfl rfl rfl
  refine ⟨?_, hnd.2, ?_, fun t' h => hr.tab.bound t' (hsub t' h), ?_, ?_, ?_⟩
  · refine (seg_update ?_).mpr hl.2
    intro hm
    obtain ⟨t', ht', he⟩ := mem_map.mp hm
    cases he
    exact hnd.1 ht'
  · intro t' ht' j hj
    refine (update_of_ne ?_ ..).trans (hr.tab.empty t' (hsub t' ht') j hj)
    simp [hj]
  · intro r' i' t' ht'
    rw [hlev2] at ht'
    split at ht'
    · cases ht'
      exact ⟨hnd.1, hr.tab.bound t htm⟩
    · have hu := hr.tab.used r' i' t' ht'
      exact ⟨fun h => hu.1 (hsub t' h), hu.2⟩
  · intro r1 i1 r2 i2 t' h1 h2
    rw [hlev2] at h1 h2
    split at h1 <;> split at h2
    · rename_i he1 he2
      exact ⟨he1.1.trans he2.1.symm, he1.2.trans he2.2.symm⟩
    · cases h1
      exact absurd h2 (hunused _ _)
    · cases h2
      exact absurd h1 (hunused _ _)
    · exact hr.tab.inj _ _ _ _ _ h1 h2
  · intro r' i' t' ht'
    rw [hlev2] at ht'
    split at ht'
    · rename_i he
      rw [he.2]
      exact hi
    · exact hr.tab.ind _ _ _ ht'

theorem getLev2_spec (hr : Rep m g) (hf : m.freePentTables ≠ .null) (r ea : Nat) :
    ∃ m' t tabs, m.getLev2 r ea = some (m', t) ∧ Rep m' { g with tabs := tabs } ∧
      m'.lev2 r (lev2Ind ea) = some t ∧ m'.pent = m.pent ∧ m'.freePents = m.freePents ∧
      m'.pte0 = m.pte0 ∧ SameRecs m m' ∧
      ∀ r' i t, m'.lev2 r' i = some t → m.lev2 r' i = some t ∨ r' = r := by
  unfold getLev2
  cases ht : m.lev2 r (lev2Ind ea) with
  | some t =>
    exact ⟨m, t, g.tabs, rfl, hr, ht, rfl, rfl, rfl, SameRecs.refl m, fun _ _ _ h => .inl h⟩
  | none =>
    obtain ⟨t, ts, htabs, hget⟩ := getFreeLev2_spec hr.tab hf
    rw [hget]
    refine ⟨_, t, ts, rfl, hr.takeTable ht (Nat.mod_lt _ (by decide)) htabs, ?_, rfl, rfl, rfl,
      ⟨rfl, rfl, rfl, rfl, rfl, rfl⟩, ?_⟩
    · rw [setLev2_lev2, if_pos ⟨rfl, rfl⟩]
    intro r' i' t' ht'
    rw [setLev2_lev2] at ht'
    split at ht'
    · rename_i he
      exact .inr he.1
    · exact .inl ht'

/-! ## The record of a page -/

theorem findPent_spec (h : EaPart m g) (ht : m.lev2 s.1 s.2.1 = some t) (topea : Nat) (sv : Bool) :
    ∀ {zs ys : List Ptr} {fuel : Nat}, g.ea s = ys ++ zs → zs ≠ [] → zs.length < fuel →
      ∃ x, m.findPent topea sv fuel (zs.headD .null) = some x ∧
        ((x = .null ∧ ∀ z ∈ zs, ¬ ((m.pent z).topea = topea ∧ (m.pent z).sv = sv)) ∨
          (x ∈ zs ∧ (m.pent x).topea = topea ∧ (m.pent x).sv = sv)) := by
  intro zs
  induction zs with
  | nil => intro _ _ _ hz; exact absurd rfl hz
  | cons z zs ih =>
    intro ys fuel hs _ hlen
    obtain _ | fuel := fuel
    · cases hlen
    rw [headD_cons, findPent]
    by_cases hcmp : (m.pent z).topea = topea ∧ (m.pent z).sv = sv
    · rw [if_pos hcmp]
      exact ⟨z, rfl, .inr ⟨mem_cons_self, hcmp⟩⟩
    rw [if_neg hcmp]
    simp only [h.isLast_iff ht hs]
    by_cases hz : zs = []
    · rw [if_pos hz]
      refine ⟨.null, rfl, .inl ⟨rfl, ?_⟩⟩
      rw [hz]
      simpa using hcmp
    have hnext : m.eaNext z = zs.headD .null := by
      rw [h.eaNext_eq ht hs]
      obtain ⟨w, ws, rfl⟩ := exists_cons_of_ne_nil hz
      rfl
    have hs' : g.ea s = (ys ++ [z]) ++ zs := by rw [hs]; simp
    rw [if_neg hz, hnext]
    obtain ⟨x, hx, hcase⟩ := ih hs' hz (by simpa using hlen)
    refine ⟨x, hx, ?_⟩
    rcases hcase with ⟨h0, hall⟩ | ⟨hm, hcmp'⟩
    · exact .inl ⟨h0, forall_mem_cons.mpr ⟨hcmp, hall⟩⟩
    · exact .inr ⟨mem_cons_of_mem _ hm, hcmp'⟩

theorem EaPart.cmp_iff (h : EaPart m g) (sv : Bool) (hx : x ∈ g.ea (slotOf r (pageOf ea))) :
    (m.pent x).topea = topeaOf ea ∧ (m.pent x).sv = sv ↔ g.role x = .ea ⟨r, pageOf ea, sv⟩ := by
  obtain ⟨k, hk, hslot⟩ := (h.mem _ x).mp hx
  obtain ⟨_, htop, hsv, _⟩ := h.pent x k hk
  unfold Key.slot slotOf at hslot
  simp only [Prod.mk.injEq] at hslot
  rw [htop, hsv, topeaOf_eq, hk]
  constructor
  · rintro ⟨h1, rfl⟩
    have hpage : k.page = pageOf ea := page_eq_iff.mpr ⟨h1, hslot.2⟩
    rw [← hslot.1, ← hpage]
  · intro he
    injection he with he
    rw [he]
    exact ⟨rfl, rfl⟩

theorem Inserted.trans (h : Inserted k i none m g m' g') (h' : Inserted k i o m' g' m'' g'') :
    Inserted k i o m g m'' g'' := by
  refine ⟨h'.here, ?_, ?_, h'.pte0.trans h.pte0, ?_, h.same.trans h'.same⟩
  · intro x κ hκ
    rw [h'.role x κ hκ, h.role x κ hκ]
  · intro x κ hκ hk
    have h1 := h.kept x κ hκ ((h'.role x κ hκ).mp hk)
    have h2 := h'.kept x κ hκ hk
    exact ⟨h2.1.trans h1.1, h2.2.1.trans h1.2.1, h2.2.2.trans h1.2.2⟩
  · intro r i t ht
    rcases h'.lev2 r i t ht with ht | hr
    · exact h.lev2 r i t ht
    · exact .inr hr

section Taken

variable (ht : Taken o x m g m' g')

include ht

theorem Taken.eaPart (h : EaPart m g) : EaPart m' g' := by
  refine h.congr ht.eaNext ht.same.lev2 ht.same.nextRec ?_ ht.ea ?_
  · intro y k hk
    have hyx : y ≠ x := by rintro rfl; exact ht.fresh k hk
    rw [ht.pent y hyx]
    exact ⟨rfl, id⟩
  intro y k
  by_cases hyx : y = x
  · subst hyx
    rw [ht.limbo]
    exact iff_of_false nofun (ht.fresh k)
  · rw [ht.role y hyx]

theorem Taken.record (h : LvPart m' g') : ∃ i < m.nextRec, x = .pterec i := by
  rw [← ht.same.nextRec]
  exact h.bound x (h.owned x (by rw [ht.limbo]; exact nofun))

theorem Taken.ne_slot (h : LvPart m' g') (t j : Nat) : Ptr.slot t j ≠ x := by
  obtain ⟨i, _, rfl⟩ := ht.record h
  exact nofun

theorem Taken.toEa (h : LvPart m' g') (k : Key) : LvPart m' (g'.setRole x (.ea k)) := by
  refine h.setRole (by rw [ht.limbo]; exact nofun) (by rw [ht.limbo]; exact nofun) nofun nofun ?_
  intro _ _ hp hr
  have hhost := ht.host
  unfold MacOnLinux.host at hhost
  rw [(h.plain x hp).1, hr] at hhost
  exact ht.null hhost.symm

/-- `Inserted`, for some rings of `m'`. -/
def Inserts (k : Key) (index : Nat) (o : Option Ptr) (m : Mtable) (g : Rings) (m' : Mtable) : Prop :=
  ∃ g', Rep m' g' ∧ Inserted k index o m g m' g'

/-- The record that was taken is now the one of the page `k`, and an old one is idle. -/
theorem Taken.inserts (g'' : Rings) (hr : Rep m g) {index : Nat} (hea : EaPart m'' g'') (hlv : LvPart m'' g'')
    (htab : TabPart m'' g'') (hsame : SameTables m' m'') (hpte : m''.pte0 = m'.pte0) (hring : g''.ring = g'.ring)
    (hx : g''.role x = .ea k) (hindex : (m''.pent x).index = index)
    (hhead : (m''.pent x).lvHead = (m'.pent x).lvHead)
    (hold : ∀ y ≠ x, g''.role y = g.role y ∧ m''.pent y = m'.pent y ∨ g.role y = .ea k ∧ g''.role y = .idle) :
    Inserts k index o m g m'' := by
  have hkept : ∀ y ≠ x, ∀ κ, g''.role y = .ea κ → g''.role y = g.role y ∧ m''.pent y = m'.pent y := by
    intro y hy κ hk
    rcases hold y hy with h | ⟨_, hidle⟩
    · exact h
    · rw [hidle] at hk
      cases hk
  have hne : ∀ y κ, κ ≠ k → g''.role y = .ea κ → y ≠ x := by
    rintro y κ hκ hk rfl
    rw [hx] at hk
    cases hk
    exact hκ rfl
  refine ⟨g'', ⟨hea, hlv, htab, ?_⟩, ⟨⟨x, hx, hindex, ?_⟩, ?_, ?_, hpte.trans ht.pte0, ?_,
    ht.same.toSameRecs.trans hsame.toSameRecs⟩⟩
  · intro y
    by_cases hy : y = x
    · rw [hy, hx]; exact nofun
    · rcases hold y hy with ⟨he, _⟩ | ⟨_, he⟩
      · rw [he]; exact hr.settled y
      · rw [he]; exact nofun
  · intro q hq
    have hhost := ht.host
    unfold MacOnLinux.host at hhost ⊢
    rw [hhead, hring]
    exact hhost.trans hq
  · intro y κ hκ
    constructor
    · intro hk
      rwa [(hkept y (hne y κ hκ hk) κ hk).1] at hk
    intro hk
    have hy : y ≠ x := by rintro rfl; exact ht.fresh κ hk
    rcases hold y hy with ⟨he, _⟩ | ⟨he, _⟩
    · rwa [he]
    · rw [he] at hk
      cases hk
      exact absurd rfl hκ
  · intro y κ hκ hk
    have hy := hne y κ hκ hk
    rw [(hkept y hy κ hk).2, ht.pent y hy, hring]
    exact ⟨rfl, rfl, ht.ring y hy⟩
  · intro r j t' ht'
    refine .inl ?_
    rw [← ht.same.lev2, ← hsame.lev2]
    exact ht'

end Taken

/-! ## relink_lv -/

theorem LvPart.toLimbo (h : LvPart m g) (hx : g.role x = .ea k) : LvPart m (g.setRole x .limbo) :=
  h.setRole (by rw [hx]; exact nofun) (by rw [hx]; exact nofun) nofun nofun nofun

theorem LvPart.head_lvNext (h : LvPart m g) (hp : m.IsHead p) : m.lvNext p ≠ .null := by
  have hc : Chain m.lvNext p ([] ++ g.lv p) p := h.ring p hp
  rw [show m.lvNext p = (g.lv p).headD p from chain_next_last hc]
  cases hl : g.lv p with
  | nil => exact h.ne_null (.inl hp)
  | cons y ys =>
    have hm : y ∈ g.lv p := by rw [hl]; exact mem_cons_self
    exact h.ne_null (.inr (h.member p y ((h.mem p y).mp hm)).2.1)

theorem LvPart.use (h : LvPart m g) (hl : g.role x = .limbo) (hr : g.ring x = some p) (k : Key) :
    LvPart m (g.setRole x (.ea k)) := by
  refine h.setRole (by rw [hl]; exact nofun) (by rw [hl]; exact nofun) nofun nofun ?_
  intro _ _ _ hn
  rw [hr] at hn
  cases hn

theorem moved_inserted (hr : Rep m g) (hx : g.role x = .ea k) (hxp : m.IsPlain x) {f : Ptr → Ptr}
    (hlv : LvPart { m with lvNext := f } g') (hea : g'.ea = g.ea) (htabs : g'.tabs = g.tabs)
    (hrole : g'.role = g.role) (hringx : g'.ring x = some p)
    (hring : ∀ y ≠ x, g'.ring y = g.ring y) : Inserts k (m.pent x).index (some p) m g { m with lvNext := f } := by
  refine ⟨g', ⟨?_, hlv, ?_, by rw [hrole]; exact hr.settled⟩, ⟨⟨x, by rw [hrole, hx], rfl, ?_⟩, ?_, ?_, rfl,
    fun _ _ _ ht => .inl ht, ⟨rfl, rfl, rfl, rfl, rfl, rfl⟩⟩⟩
  · refine hr.ea.congr rfl rfl rfl (fun _ _ _ => ⟨rfl, id⟩) hea ?_
    intro y κ
    rw [hrole]
  · exact hr.tab.congr rfl rfl rfl (fun _ _ _ => rfl) htabs
  · rintro q ⟨⟩
    unfold host
    simp only [(hr.lv.plain x hxp).1]
    exact hringx
  · intro y κ _
    rw [hrole]
  intro y κ hκ hk
  have hyx : y ≠ x := by
    rintro rfl
    rw [hrole, hx] at hk
    cases hk
    exact hκ rfl
  exact ⟨rfl, rfl, hring y hyx⟩

theorem setRole_setRole_self (hx : g.role x = .ea k) :
    ((g.setRole x .limbo).setRole x (.ea k)).role = g.role := by
  funext y
  rw [setRole_role, setRole_role]
  split_ifs with hy
  · rw [hy, hx]
  · rfl

section Inserted

variable (hr : Rep m g)

include hr

theorem relinkLv_new (hx : g.role x = .ea k) (hxp : m.IsPlain x)
    (hring : g.ring x = none) (hp : m.IsHead p) :
    Inserts k (m.pent x).index (some p) m g ((m.setLvNext x (m.lvNext p)).setLvNext p x) := by
  have hl : (g.setRole x .limbo).role x = .limbo := setRole_self ..
  have h2 := (hr.lv.toLimbo hx).join hl hxp hring hp
  have hringx : ((g.setRole x .limbo).join x p).ring x = some p := by rw [join_ring, if_pos rfl]
  refine moved_inserted hr hx hxp (h2.use hl hringx k) rfl rfl (setRole_setRole_self hx) hringx ?_
  intro y hy
  exact (join_ring ..).trans (if_neg hy)

theorem relinkLv_member (hx : g.role x = .ea k) {q : Ptr} (hring : g.ring x = some q)
    {as bs : List Ptr} (hs : g.lv q = as ++ x :: bs) (hc : Chain m.lvNext q (as ++ x :: bs) q)
    (hd : (q :: (as ++ x :: bs)).Nodup) (hp : m.IsHead p) :
    let m1 := m.setLvNext (as.getLastD q) (m.lvNext x)
    Inserts k (m.pent x).index (some p) m g ((m1.setLvNext x (m1.lvNext p)).setLvNext p x) := by
  intro m1
  have hxp := (hr.lv.member q x hring).2.1
  have hl : (g.setRole x .limbo).role x = .limbo := setRole_self ..
  have h2 := (hr.lv.toLimbo hx).leave_of_some hl hring hs hc hd
  have h3 := h2.join (p := p) hl hxp (by rw [leave_ring, if_pos rfl]) hp
  have hringx : (((g.setRole x .limbo).leave x).join x p).ring x = some p := by
    rw [join_ring, if_pos rfl]
  refine moved_inserted hr hx hxp (h3.use hl hringx k) rfl rfl (setRole_setRole_self hx) hringx ?_
  intro y hy
  exact ((join_ring ..).trans (if_neg hy)).trans ((leave_ring ..).trans (if_neg hy))

theorem relinkLv_head (hx : g.role x = .ea k) (hxh : m.IsHead x)
    (ht : m.lev2 k.slot.1 k.slot.2.1 = some t) (hs : g.ea k.slot = ys ++ x :: zs) {z : Ptr}
    (htaken : Taken (some p) z m g m' g') (hlv : LvPart m' g') :
    let m1 := (m'.setEaNext z (m'.eaNext x)).setEaNext (ys.getLastD (.slot t k.slot.2.2)) z
    let m2 := (m1.setPent z { m1.pent x with
      lvHead := (m1.pent z).lvHead, unused := (m1.pent z).unused }).setPent x .unusedHead
    Inserts k (m.pent x).index (some p) m g m2 := by
  intro m1 m2
  obtain ⟨i, hi, hzi⟩ := htaken.record hlv
  have hzx : z ≠ x := by rintro rfl; exact htaken.fresh k hx
  have hxz : x ≠ z := hzx.symm
  have hx' : g'.role x = .ea k := by rw [htaken.role x hxz, hx]
  have hzfresh : ∀ κ, g'.role z ≠ .ea κ := by rw [htaken.limbo]; exact nofun
  have hpentz : m2.pent z = { m.pent x with
      lvHead := (m'.pent z).lvHead, unused := (m'.pent z).unused } := by
    refine (update_of_ne hzx ..).trans ((update_self ..).trans ?_)
    rw [show m1.pent x = m.pent x from htaken.pent x hxz]
    rfl
  have hpent : ∀ y ≠ z, y ≠ x → m2.pent y = m'.pent y := fun y h1 h2 =>
    (update_of_ne h2 ..).trans (update_of_ne h1 ..)
  let g2 : Rings := { (g'.setRole z (.ea k)).setRole x .idle with
    ea := update g'.ea k.slot (ys ++ z :: zs) }
  have hrole : ∀ y ≠ z, y ≠ x → g2.role y = g'.role y := by
    intro y h1 h2
    rw [setRole_role, if_neg h2, setRole_role, if_neg h1]
  have hrolez : g2.role z = .ea k := by
    rw [setRole_role, if_neg hzx, setRole_role, if_pos rfl]
  have hrolex : g2.role x = .idle := by
    rw [setRole_role, if_pos rfl]
  refine htaken.inserts g2 hr ?_ ?_ ?_ ⟨⟨rfl, rfl, rfl, rfl, rfl, rfl⟩, rfl, rfl, rfl⟩ rfl rfl hrolez (by rw [hpentz])
    (by rw [hpentz]) ?_
  · have hea := htaken.eaPart hr.ea
    have ht' : m'.lev2 k.slot.1 k.slot.2.1 = some t := by rw [htaken.same.lev2, ht]
    refine hea.replace ht' ?_ (by rw [htaken.ea, hs]) rfl rfl hzfresh
      (by rw [htaken.same.nextRec]; exact hi) hzi hx' rfl hpent ?_ rfl hrole hrolez ?_
    · rw [htaken.same.lev2]
      exact hr.tab.inj
    · -- the new record has the bits of the old one
      rw [hpentz, htaken.pent x hxz]
      exact ⟨rfl, fun h => ⟨h.topea, h.sv, h.bit⟩⟩
    · rw [hrolex]
      exact nofun
  · have h1 := htaken.toEa hlv k
    have h2 : LvPart (m1.setPent z { m1.pent x with
        lvHead := (m1.pent z).lvHead, unused := (m1.pent z).unused }) (g'.setRole z (.ea k)) := by
      refine h1.congr ⟨rfl, rfl, rfl, rfl, rfl, rfl⟩ rfl rfl ?_ rfl rfl rfl rfl
      intro y _
      by_cases hyz : y = z
      · rw [hyz, show (_ : Mtable).pent z = _ from update_self ..]
        exact ⟨rfl, fun _ => rfl⟩
      · rw [show (_ : Mtable).pent y = m'.pent y from update_of_ne hyz ..]
        exact ⟨rfl, fun _ => rfl⟩
    have h3 := h2.setHead (v := .unusedHead) (r := .idle) (htaken.same.toSameRecs.isHead.mpr hxh) rfl nofun
      (iff_of_true rfl rfl)
    exact h3.congr (SameRecs.refl _) rfl rfl (fun _ _ => ⟨rfl, fun _ => rfl⟩) rfl rfl rfl rfl
  · refine hr.tab.congr htaken.same.lev2 htaken.same.freePentTables htaken.same.nextTab ?_ htaken.tabs
    intro t' ht' j
    have hne : Ptr.slot t' j ≠ ys.getLastD (.slot t k.slot.2.2) := hr.tab.slot_ne_prev hr.ea ht hs ht'
    have hne' : Ptr.slot t' j ≠ z := by rw [hzi]; exact nofun
    show update (update m'.eaNext _ _) _ _ _ = _
    rw [update_of_ne hne, update_of_ne hne', htaken.eaNext]
  · intro y hyz
    by_cases hyx : y = x
    · rw [hyx]
      exact .inr ⟨hx, hrolex⟩
    · exact .inl ⟨(hrole y hyz hyx).trans (htaken.role y hyz), hpent y hyz hyx⟩

theorem relinkLv_spec (hx : g.role x = .ea k) (hf : m.freePents ≠ .null)
    (lvr : LvRange) (lvptr : Word) (hp : m.IsHead (lvr.headOf lvptr)) :
    ∃ m' g', m.relinkLv x lvr lvptr = some m' ∧ Rep m' g' ∧
      Inserted k (m.pent x).index (some (lvr.headOf lvptr)) m g m' g' := by
  have hstay : host m g x = some (lvr.headOf lvptr) →
      Inserted k (m.pent x).index (some (lvr.headOf lvptr)) m g m g := fun hh =>
    ⟨⟨x, hx, rfl, by rintro q ⟨⟩; exact hh⟩, fun _ _ _ => Iff.rfl, fun _ _ _ _ => ⟨rfl, rfl, rfl⟩, rfl,
      fun _ _ _ ht => .inl ht, SameRecs.refl m⟩
  unfold relinkLv
  rcases hr.lv.owned x (by rw [hx]; exact nofun) with hxh | hxp
  · have hhead := (hr.lv.head x hxh).1
    rw [if_neg (hr.lv.head_lvNext hxh), if_pos hhead]
    by_cases he : x = lvr.headOf lvptr
    · rw [if_pos he]
      refine ⟨m, g, rfl, hr, hstay ?_⟩
      unfold host
      rw [if_pos hhead, he]
    rw [if_neg he]
    have hm : x ∈ g.ea k.slot := (hr.ea.mem _ _).mpr ⟨k, hx, rfl⟩
    obtain ⟨t, ht⟩ := hr.ea.lev2_of_mem hm
    obtain ⟨ys, zs, hs⟩ := append_of_mem hm
    have hscan : scan m.eaNext (fun q => decide (m.eaNext q = x)) m.fuel (m.eaNext x) =
        some (ys.getLastD (.slot t k.slot.2.2)) := by
      have hlen := hr.ea.ring_length k.slot
      have hc := (hr.ea.ringOf ht hs).1
      have hnd := hr.ea.nodup k.slot
      have hps := hr.ea.slot_notMem k.slot t k.slot.2.2
      rw [hs] at hlen hnd hps
      have hfuel : (zs ++ Ptr.slot t k.slot.2.2 :: ys).length < m.fuel := by
        simp at hlen ⊢
        omega
      have hpred := scan_pred (ring_rotate hc) (nodup_rotate (nodup_cons.mpr ⟨hps, hnd⟩)) hfuel
      rwa [getLastD_append_cons] at hpred
    obtain ⟨m', g', z, hget, hlv, htaken⟩ := getFreePent_spec hr.lv hf (some (lvr, lvptr))
      (by rintro l ⟨⟩; exact hp)
    obtain ⟨g'', hr'', hins⟩ := relinkLv_head hr hx hxh ht hs htaken hlv
    rw [hscan, hget]
    exact ⟨_, g'', rfl, hr'', hins⟩
  · have hplain := (hr.lv.plain x hxp).1
    cases hring : g.ring x with
    | none =>
      rw [if_pos ((hr.lv.plain x hxp).2.2 k hx hring)]
      obtain ⟨g', hr', hins⟩ := relinkLv_new hr hx hxp hring hp
      exact ⟨_, g', rfl, hr', hins⟩
    | some q =>
      obtain ⟨as, bs, hs, hc, hd, hlen⟩ := hr.lv.ring_split hring
      have hq := (hr.lv.member q x hring).1
      have hscan : scan m.lvNext (fun q => (m.pent q).lvHead) m.fuel (m.lvNext x) = some q := by
        refine scan_seg (chain_append_cons.mp hc).2 ?_ (hr.lv.head q hq).1 ?_
        · intro y hy
          have hm : y ∈ g.lv q := by rw [hs]; simp [hy]
          exact (hr.lv.plain y (hr.lv.member q y ((hr.lv.mem q y).mp hm)).2.1).1
        · simp at hlen ⊢
          omega
      have hscan' : scan m.lvNext (fun z => decide (m.lvNext z = x)) m.fuel q =
          some (as.getLastD q) := by
        refine scan_before hc ?_ rfl ?_
        · have hnd := (nodup_cons.mp hd).2
          intro hm
          exact (nodup_middle.mp hnd).notMem (mem_append_left _ hm)
        · simp at hlen ⊢
          omega
      rw [if_neg (hr.lv.lvNext_ne_null hring), if_neg (by rw [hplain]; exact nofun), hscan, some_bind]
      by_cases he : q = lvr.headOf lvptr
      · rw [if_pos he]
        refine ⟨m, g, rfl, hr, hstay ?_⟩
        unfold host
        rw [hplain, ← he]
        exact hring
      · rw [if_neg he, hscan']
        obtain ⟨g', hr', hins⟩ := relinkLv_member hr hx hring hs hc hd hp
        exact ⟨_, g', rfl, hr', hins⟩

/-! ## pte_inserted -/

section NewRecord

variable (htaken : Taken o x m g m' g') (hlv : LvPart m' g') (ht : m.lev2 k.slot.1 k.slot.2.1 = some t)
  (hnone : ∀ y, g.role y ≠ .ea k) (hk : ⟨r, pageOf ea, sv⟩ = k)

include htaken hlv ht hnone hk

theorem addRecord_spec {last : Bool} (index : Nat) {f : Ptr → Ptr} {v : Pent}
    (hm : m'' = { m' with eaNext := f, pent := update m'.pent x v })
    (hv : v = { m'.pent x with
      eaLast := last, index := index, topea := topeaOf ea, sv := sv, eaBit14 := eaBit14Of ea })
    (hslot : f (.slot t k.slot.2.2) = x) (hnextx : f x = (g.ea k.slot).headD (.slot t k.slot.2.2))
    (hnext : ∀ q ≠ x, q ≠ .slot t k.slot.2.2 → f q = m'.eaNext q) (hlast : last = true ↔ g.ea k.slot = []) :
    Inserts k index o m g m'' := by
  subst hk
  obtain ⟨i, hi, hxi⟩ := htaken.record hlv
  have hpentx : m''.pent x = v := by rw [hm]; exact update_self ..
  have hpent : ∀ y ≠ x, m''.pent y = m'.pent y := fun y hy => by rw [hm]; exact update_of_ne hy ..
  have hsame : SameTables m' m'' := by rw [hm]; exact ⟨⟨rfl, rfl, rfl, rfl, rfl, rfl⟩, rfl, rfl, rfl⟩
  have hf : m''.eaNext = f := by rw [hm]
  rw [← hf] at hslot hnextx hnext
  let g2 : Rings := { g'.setRole x (.ea ⟨r, pageOf ea, sv⟩) with
    ea := update g'.ea (slotOf r (pageOf ea)) (x :: g'.ea (slotOf r (pageOf ea))) }
  have hrole : ∀ y ≠ x, g2.role y = g.role y := by
    intro y hy
    rw [setRole_role, if_neg hy, htaken.role y hy]
  have hrolex : g2.role x = .ea ⟨r, pageOf ea, sv⟩ := by
    rw [setRole_role, if_pos rfl]
  refine htaken.inserts g2 hr ?_ ?_ ?_ hsame (by rw [hm]) rfl hrolex (by rw [hpentx, hv])
    (by rw [hpentx, hv]) fun y hy => .inl ⟨hrole y hy, hpent y hy⟩
  · refine hr.ea.addFirst ht hr.tab.inj (hsame.lev2.trans htaken.same.lev2)
      (hsame.nextRec.trans htaken.same.nextRec) htaken.fresh hi hxi rfl (pageOf_lt ea) hnone hslot hnextx
      ?_ ?_ ?_ ?_ (by rw [← htaken.ea]; rfl) hrole hrolex
    · intro q h1 h2
      rw [hnext q h1 h2, htaken.eaNext]
    · intro y hy
      rw [hpent y hy, htaken.pent y hy]
    · rw [hpentx, hv]
      exact ⟨topeaOf_eq ea, rfl, eaBit14Of_eq ea⟩
    · rw [hpentx, hv]
      exact hlast
  · refine (htaken.toEa hlv _).congr hsame.toSameRecs (by rw [hm]) (by rw [hm]) ?_ rfl rfl rfl rfl
    intro y _
    by_cases hy : y = x
    · rw [hy, hpentx, hv]
      exact ⟨rfl, fun _ => rfl⟩
    · rw [hpent y hy]
      exact ⟨rfl, fun _ => rfl⟩
  · refine hr.tab.congr (hsame.lev2.trans htaken.same.lev2)
      (hsame.freePentTables.trans htaken.same.freePentTables)
      (hsame.nextTab.trans htaken.same.nextTab) ?_ htaken.tabs
    intro t' ht' j
    have h1 : Ptr.slot t' j ≠ x := by rw [hxi]; exact nofun
    have h2 : Ptr.slot t' j ≠ .slot t (Key.slot ⟨r, pageOf ea, sv⟩).2.2 := by
      intro he
      rw [(Ptr.slot.inj he).1] at ht'
      exact (hr.tab.used _ _ _ ht).1 ht'
    rw [hnext _ h1 h2, htaken.eaNext]

theorem newRing_spec (h0 : g.ea k.slot = []) (index : Nat) :
    let m1 := m'.setEaNext (.slot t k.slot.2.2) x
    let m2 := (m1.setPent x { m1.pent x with
      eaLast := true, index := index, topea := topeaOf ea, sv := sv
      eaBit14 := eaBit14Of ea }).setEaNext x (.slot t k.slot.2.2)
    Inserts k index o m g m2 := by
  have hx := htaken.ne_slot hlv t k.slot.2.2
  refine addRecord_spec hr htaken hlv ht hnone hk index rfl rfl ((update_of_ne hx ..).trans (update_self ..)) ?_
    (fun q h1 h2 => (update_of_ne h1 ..).trans (update_of_ne h2 ..)) (iff_of_true rfl h0)
  rw [h0]
  exact update_self ..

theorem newRecord_spec (h0 : g.ea k.slot ≠ []) (index : Nat) :
    let m1 := m'.setPent x { m'.pent x with
      index := index, topea := topeaOf ea, sv := sv, eaBit14 := eaBit14Of ea }
    let m2 := (m1.setEaNext x (m1.eaNext (.slot t k.slot.2.2))).setEaNext (.slot t k.slot.2.2) x
    Inserts k index o m g m2 := by
  have hx := htaken.ne_slot hlv t k.slot.2.2
  refine addRecord_spec hr htaken hlv ht hnone hk index rfl rfl (update_self ..) ?_
    (fun q h1 h2 => (update_of_ne h2 ..).trans (update_of_ne h1 ..)) ?_
  · obtain ⟨y, ys, hy⟩ := exists_cons_of_ne_nil h0
    refine (update_of_ne hx.symm ..).trans ((update_self ..).trans ?_)
    show m'.eaNext _ = _
    rw [htaken.eaNext, hr.ea.slot_eaNext ht, hy]
    rfl
  · rw [htaken.blank.1]
    exact iff_of_false nofun h0

end NewRecord

theorem setIndex_spec (hx : g.role x = .ea k) (index : Nat) :
    Rep (m.setPent x { m.pent x with index := index }) g ∧
      Inserted k index none m g (m.setPent x { m.pent x with index := index }) g := by
  have hpent : ∀ y, (m.setPent x { m.pent x with index := index }).pent y =
      if y = x then { m.pent x with index := index } else m.pent y := fun y => update_apply ..
  refine ⟨⟨?_, ?_, hr.tab.congr rfl rfl rfl (fun _ _ _ => rfl) rfl, hr.settled⟩,
    ⟨⟨x, hx, by rw [hpent, if_pos rfl], nofun⟩, fun _ _ _ => Iff.rfl, ?_, rfl,
    fun _ _ _ ht => .inl ht, (SameTables.setPent ..).toSameRecs⟩⟩
  · refine hr.ea.congr rfl rfl rfl ?_ rfl (fun _ _ => Iff.rfl)
    intro y _ _
    rw [hpent]
    split
    · rename_i hy
      rw [hy]
      exact ⟨rfl, fun h => ⟨h.topea, h.sv, h.bit⟩⟩
    · exact ⟨rfl, id⟩
  · refine hr.lv.congr (SameTables.setPent ..).toSameRecs rfl rfl ?_ rfl rfl rfl rfl
    intro y _
    rw [hpent]
    split
    · rename_i hy
      rw [hy]
      exact ⟨rfl, fun _ => rfl⟩
    · exact ⟨rfl, fun _ => rfl⟩
  · intro y κ hκ hk
    have hy : y ≠ x := by
      rintro rfl
      rw [hx] at hk
      cases hk
      exact hκ rfl
    rw [hpent, if_neg hy]
    exact ⟨rfl, rfl, rfl⟩

theorem ptInsert_spec (hf : m.freePents ≠ .null) (hft : m.freePentTables ≠ .null)
    (r ea : Nat) (sv : Bool) (lv : Option (LvRange × Word)) (index : Nat)
    (hlv : ∀ l ∈ lv, m.IsHead (l.1.headOf l.2)) :
    ∃ m' g', m.ptInsert r ea sv lv index = some m' ∧ Rep m' g' ∧
      Inserted ⟨r, pageOf ea, sv⟩ index (lv.map fun l => l.1.headOf l.2) m g m' g' := by
  obtain ⟨m1, t, tabs, hm1, hr1, ht, hpent1, hfree1, hpte1, hsame1, hlev1⟩ :=
    getLev2_spec hr hft r ea
  generalize hg1 : ({ g with tabs := tabs } : Rings) = g1 at hr1
  generalize hk : (⟨r, pageOf ea, sv⟩ : Key) = k
  have hslot : k.slot = (r, lev2Ind ea, pelistInd ea) := by
    rw [← hk]
    exact slotOf_pageOf r ea
  -- it is enough to insert into the state with the table
  suffices hgoal : ∃ m' g', m.ptInsert r ea sv lv index = some m' ∧ Rep m' g' ∧
      Inserted k index (lv.map fun l => l.1.headOf l.2) m1 g1 m' g' by
    obtain ⟨m', g', hm', hr', hins⟩ := hgoal
    refine ⟨m', g', hm', hr', ⟨hins.here, ?_, ?_, hins.pte0.trans hpte1, ?_, hsame1.trans hins.same⟩⟩
    · intro x κ hκ
      rw [hins.role x κ hκ, ← hg1]
    · intro x κ hκ hkx
      have h1 := hins.kept x κ hκ hkx
      rw [hpent1, ← hg1] at h1
      exact h1
    · intro r' i t' ht'
      rcases hins.lev2 r' i t' ht' with h1 | h1
      · rcases hlev1 r' i t' h1 with h1 | h1
        · exact .inl h1
        · exact .inr (by rw [h1, ← hk])
      · exact .inr h1
  have hf1 : m1.freePents ≠ .null := by rwa [hfree1]
  have hlv1 : ∀ l ∈ lv, m1.IsHead (l.1.headOf l.2) := fun l hl => hsame1.isHead.mpr (hlv l hl)
  have ht1 : m1.lev2 k.slot.1 k.slot.2.1 = some t := by rw [hslot]; exact ht
  have hcmp : ∀ y ∈ g1.ea k.slot,
      ((m1.pent y).topea = topeaOf ea ∧ (m1.pent y).sv = sv ↔ g1.role y = .ea k) := by
    intro y hy
    have hks : k.slot = slotOf r (pageOf ea) := by rw [← hk]; rfl
    rw [hks] at hy
    rw [← hk]
    exact hr1.ea.cmp_iff sv hy
  have hhead := hr1.ea.slot_eaNext ht1
  unfold ptInsert
  rw [hm1, some_bind]
  simp only
  have hp : Ptr.slot t (pelistInd ea) = .slot t k.slot.2.2 := by rw [hslot]
  have hmem : ∀ y, g1.role y = .ea k → y ∈ g1.ea k.slot := fun y hy =>
    (hr1.ea.mem _ _).mpr ⟨k, hy, rfl⟩
  rw [hp, hhead]
  by_cases h0 : g1.ea k.slot = []
  · rw [h0]
    have hnone : ∀ y, g1.role y ≠ .ea k := fun y hy => by simpa [h0] using hmem y hy
    obtain ⟨m2, g2, x, hget, hlv2, htaken⟩ := getFreePent_spec hr1.lv hf1 lv hlv1
    obtain ⟨g', hr', hins⟩ := newRing_spec hr1 htaken hlv2 ht1 hnone hk h0 index
    exact ⟨_, g', by rw [hget]; rfl, hr', hins⟩
  have hfirst := hr1.ea.head_ne_null h0
  obtain ⟨x, hfind, hcase⟩ := findPent_spec hr1.ea ht1 (topeaOf ea) sv
    (nil_append _).symm h0 (Nat.lt_of_succ_lt (hr1.ea.ring_length _))
  rw [if_neg hfirst, hfind, some_bind]
  rcases hcase with ⟨rfl, hall⟩ | ⟨hxm, hxc⟩
  · have hnone : ∀ y, g1.role y ≠ .ea k := fun y hy =>
      hall y (hmem y hy) ((hcmp y (hmem y hy)).mpr hy)
    obtain ⟨m2, g2, x, hget, hlv2, htaken⟩ := getFreePent_spec hr1.lv hf1 lv hlv1
    obtain ⟨g', hr', hins⟩ := newRecord_spec hr1 htaken hlv2 ht1 hnone hk h0 index
    exact ⟨_, g', by rw [hget]; rfl, hr', hins⟩
  have hxk := (hcmp x hxm).mp hxc
  have hx : x ≠ .null := by
    obtain ⟨i, _, rfl⟩ := hr1.ea.record x k hxk
    exact nofun
  obtain ⟨hr2, hins2⟩ := setIndex_spec hr1 hxk index
  rw [if_neg hx]
  cases lv with
  | none => exact ⟨_, g1, rfl, hr2, hins2⟩
  | some l =>
    obtain ⟨m', g', hm', hr', hins⟩ := relinkLv_spec hr2 hxk hf1 l.1 l.2 (hlv1 l rfl)
    refine ⟨m', g', hm', hr', hins2.trans ?_⟩
    rwa [show (_ : Mtable).pent x = _ from update_self ..] at hins

end Inserted

end MacOnLinux
