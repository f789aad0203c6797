import MacOnLinux.Mmu.Entry

/-! # Runs

Ranges are whole pages and disjoint, and an insertion follows a check for memory.
-/

namespace MacOnLinux

open Skiplist Linked List Option

/-! ## Calls -/

/-- `setSegment` is the assignment `MMU.vsid[i] = r`. -/
inductive Op where
  | registerLvrange (lvbase size : Word)
  | freeLvrange (lvr : LvRange)
  | memoryCheck (lev2Ok pentOk : Bool)
  | getVsid (macVsid : Int) (ok ok' : Bool) (coin coin' : Nat → Bool)
  | allocVsid (macVsid : Int) (ok : Bool) (coin : Nat → Bool)
  | contextWrap (n : Int)
  | setSegment (i : Nat) (r : Option Nat)
  | tuneAllocLimit (ramsizeMb : Int)
  | pteInserted (ea : Nat) (lv : Option (LvRange × Word)) (index r : Nat) (segreg : Word)
  | flushVsidEa (macVsid : Int) (ea : Nat)
  | flushLvptr (lvptr : Word)
  | flushLvRange (lvbase size : Word)
  | flushEaRange (orgEa size : Nat)
  | reclaim
  | clear

namespace Mmu

/-- The flag: `mtable_memory_check` returned 0, and nothing was inserted since. -/
def exec (s : Mmu) (ready : Bool) : Op → Option (Mmu × Bool)
  | .registerLvrange lvbase size => some ({ s with mt := (s.mt.registerLvrange lvbase size).1 }, ready)
  | .freeLvrange lvr => (s.withMt (·.freeLvrange lvr)).map (·, ready)
  | .memoryCheck lev2Ok pentOk => (s.mtableMemoryCheck lev2Ok pentOk).map fun r => (r.1, !r.2)
  | .getVsid macVsid ok ok' coin coin' =>
    (s.vsidGetUserSv macVsid ok ok' coin coin').map fun r => (r.1, false)
  | .allocVsid macVsid ok coin => (s.allocVsidEnt macVsid ok coin).map fun r => (r.1, false)
  | .contextWrap n => (s.handleContextWrap n).map (·, false)
  | .setSegment i r => some ({ s with vsid := Function.update s.vsid i r }, ready)
  | .tuneAllocLimit ramsizeMb => some ({ s with mt := s.mt.tuneAllocLimit ramsizeMb }, ready)
  | .pteInserted ea lv index r segreg => (s.pteInserted ea lv index r segreg).map (·, false)
  | .flushVsidEa macVsid ea => (s.flushVsidEa macVsid ea).map (·, ready)
  | .flushLvptr lvptr => (s.flushLvptr lvptr).map (·, ready)
  | .flushLvRange lvbase size => (s.withMt (·.flushLvRange lvbase size)).map (·, ready)
  | .flushEaRange orgEa size => (s.flushEaRange orgEa size).map (·, ready)
  | .reclaim => s.mtableReclaim.map (·, ready)
  | .clear => s.clearAllVsids.map (·, false)

def Live (s : Mmu) (r : Nat) : Prop := ∃ key < skiplistEnd, s.vsidEntLookup key = some (some r)

def Legal (s : Mmu) (ready : Bool) : Op → Prop
  | .registerLvrange lvbase size => NewRange s lvbase size
  | .freeLvrange lvr => lvr ∈ s.mt.lvranges
  | .getVsid macVsid .. => macVsid < skiplistEnd
  | .allocVsid macVsid .. => macVsid < skiplistEnd ∧ s.vsidEntLookup macVsid = some none
  | .pteInserted _ lv _ r _ => ready = true ∧ Live s r ∧ LvOk s lv
  | .flushVsidEa macVsid _ => macVsid < skiplistEnd
  -- otherwise flush_ea_range complains about bad parameters
  | .flushEaRange orgEa size => orgEa < 2 ^ 28 ∧ size ≤ 2 ^ 28
  -- the size that the ioctl gives is an int number of bytes
  | .tuneAllocLimit ramsizeMb => -2048 ≤ ramsizeMb ∧ ramsizeMb < 2048
  | .memoryCheck .. | .contextWrap _ | .setSegment .. | .flushLvptr _ | .flushLvRange .. | .reclaim
  | .clear => True

inductive Run (sess : Nat) (ptegMask : Word) (pte0 pte1 : Nat → Word) : Mmu → Bool → Prop where
  | init : sess < maxNumSessions → Run sess ptegMask pte0 pte1 (Mmu.init sess ptegMask pte0 pte1) false
  | step {s s' : Mmu} {ready ready' : Bool} {op : Op} :
      Run sess ptegMask pte0 pte1 s ready → Legal s ready op → exec s ready op = some (s', ready') →
      Run sess ptegMask pte0 pte1 s' ready'

/-! ## The invariant of a run -/

variable {s s' : Mmu} {g g' : Rings} {v v' : SlMap} {ready ready' : Bool}

theorem live_iff (h : Inv s g v) {r : Nat} : Live s r ↔ r ∈ v.live.map (·.2) := by
  constructor
  · rintro ⟨key, hk, hl⟩
    rw [vsidEntLookup_spec h hk, some.injEq, lookup_eq_some h.sl.sorted] at hl
    exact mem_map_of_mem hl
  · intro hr
    obtain ⟨p, hp, rfl⟩ := mem_map.mp hr
    refine ⟨p.1, (h.sl.keys p hp).2, ?_⟩
    rw [vsidEntLookup_spec h (h.sl.keys p hp).2, (lookup_eq_some h.sl.sorted).mpr hp]

theorem some_of_map {x : Option Mmu} {b : Bool} (h : x.map (·, b) = some (s', ready')) : x = some s' := by
  obtain ⟨s1, h1, he⟩ := map_eq_some_iff.mp h
  cases he
  exact h1

def HasMemory (s : Mmu) : Prop := s.mt.freePents ≠ .null ∧ s.mt.freePentTables ≠ .null

structure Good (s : Mmu) (ready : Bool) (g : Rings) (v : SlMap) : Prop where
  inv : Inv s g v
  ranges : RangesOk s.mt
  memory : ready = true → HasMemory s

theorem rep_init (pte0 : Nat → Word) : MacOnLinux.Rep (Mtable.init pte0) .empty := by
  have hhead : ∀ x, ¬ (Mtable.init pte0).IsHead x := by
    rintro x ⟨_, hl, _⟩
    cases hl
  have hplain : ∀ x, ¬ (Mtable.init pte0).IsPlain x := by
    rintro x ⟨_, hf, _⟩
    cases hf
  refine ⟨⟨fun _ => rfl, fun _ => nodup_nil, ?_, nofun, nofun, nofun⟩,
    ⟨fun x hx => absurd hx (hhead x), fun _ => nodup_nil, fun _ _ => iff_of_false nofun nofun,
      nofun, rfl, nodup_nil, fun _ => iff_of_false nofun nofun,
      fun x hx => absurd hx (hhead x), fun x hx => absurd hx (hplain x), fun _ hx => absurd rfl hx, ?_⟩,
    ⟨rfl, nodup_nil, nofun, nofun, nofun, nofun, nofun⟩, nofun⟩
  · intro s x
    exact iff_of_false nofun (by rintro ⟨_, hk, _⟩; cases hk)
  · rintro x (hx | hx)
    · exact absurd hx (hhead x)
    · exact absurd hx (hplain x)

theorem good_init {sess : Nat} (hs : sess < maxNumSessions) (ptegMask : Word)
    (pte0 pte1 : Nat → Word) : ∃ g v, Good (Mmu.init sess ptegMask pte0 pte1) false g v := by
  refine ⟨.empty, { live := [], free := [], ht := fun _ => 0 }, ⟨(rep_init pte0).withHost _ _,
    skiplist_init_spec _ _ _ (fun _ => by decide), rfl, nofun, nofun, hs,
    Contexts.init_ok hs, nofun, nofun⟩, ⟨nofun, nofun⟩, nofun⟩

theorem Good.hasMemory {P : Ptr → Prop} {mt : Mtable} (h : Good s ready g v)
    (hd : Drops P s.mt g mt g') (hr : ready = true) : mt.freePents ≠ .null ∧ mt.freePentTables ≠ .null :=
  ⟨hd.pents (h.memory hr).1, hd.tables (h.memory hr).2⟩

theorem Good.drops {P : Ptr → Prop} (h : Good s ready g v) (hi : Inv s' g' v')
    (hd : Drops P s.mt g s'.mt g') : Good s' ready g' v' :=
  ⟨hi, h.ranges.congr hd.same.lvranges, h.hasMemory hd⟩

/-- What a call does to the records: only `pte_inserted` adds one. -/
def Effect (s : Mmu) (g g' : Rings) : Op → Prop
  | .pteInserted ea lv _ r segreg => ∀ x k, g'.role x = .ea k → g.role x = .ea k ∨
    k = ⟨r, pageOf ea, s.usesSv r segreg⟩ ∧ ¬ (lv.isSome ∧ s.lvptrReservationLost)
  | _ => ∀ x k, g'.role x = .ea k → g.role x = .ea k

theorem Outcome.role (h : Outcome s g v s' g' v') (x : Ptr) (k : Key) (hk : g'.role x = .ea k) :
    g.role x = .ea k := by
  rcases h with h | h
  · exact (h.keeps.role x k).mp hk
  · exact absurd hk (h.untracked x k)

theorem good_step {op : Op} (h : Good s ready g v) (hl : Legal s ready op) :
    ∃ s' ready' g' v', exec s ready op = some (s', ready') ∧ Good s' ready' g' v' ∧
      s'.sessionIndex = s.sessionIndex ∧ Effect s g g' op := by
  cases op with
  | registerLvrange lvbase size =>
    exact ⟨_, _, g, v, rfl,
      ⟨registerLvrange_inv h.inv lvbase hl.sized.1, hl.rangesOk h.ranges, h.memory⟩, rfl,
      fun _ _ hk => hk⟩
  | freeLvrange lvr =>
    obtain ⟨mt, g', hmt, hi, hd, _⟩ := freeLvrange_spec h.inv h.ranges hl
    have hmem := h.hasMemory hd
    exact ⟨_, ready, g', v, by simp only [exec, hmt, map_some],
      ⟨hi, rangesOk_erase h.ranges rfl, hmem⟩, rfl, hd.tracked⟩
  | memoryCheck lev2Ok pentOk =>
    obtain ⟨s', b, g', v', hs', hi, ho, hmem⟩ := mtableMemoryCheck_spec h.inv lev2Ok pentOk
    refine ⟨s', !b, g', v', by simp only [exec, hs', map_some],
      ⟨hi, h.ranges.congr ho.host.lvranges, fun hb => hmem ?_⟩, ho.host.sessionIndex, ho.role⟩
    simpa using hb
  | getVsid macVsid ok ok' coin coin' =>
    obtain ⟨s', r, g', v', hs', hi, ho, _⟩ := vsidGetUserSv_spec h.inv hl ok ok' coin coin'
    exact ⟨s', false, g', v', by simp only [exec, hs', map_some],
      ⟨hi, h.ranges.congr ho.host.lvranges, nofun⟩, ho.host.sessionIndex, ho.role⟩
  | allocVsid macVsid ok coin =>
    obtain ⟨hk, ha⟩ := hl
    rw [vsidEntLookup_spec h.inv hk, some.injEq] at ha
    obtain ⟨s', r, g', v', hs', hi, ho, _⟩ := allocVsidEnt_spec h.inv hk ha ok coin
    exact ⟨s', false, g', v', by simp only [exec, hs', map_some],
      ⟨hi, h.ranges.congr ho.host.lvranges, nofun⟩, ho.host.sessionIndex, ho.role⟩
  | contextWrap n =>
    obtain ⟨s', g', v', hs', hi, ho, _⟩ := handleContextWrap_spec h.inv n
    exact ⟨s', false, g', v', by simp only [exec, hs', map_some],
      ⟨hi, h.ranges.congr ho.host.lvranges, nofun⟩, ho.host.sessionIndex, ho.role⟩
  | setSegment i r =>
    exact ⟨_, ready, g, v, rfl, ⟨h.inv.congr rfl rfl rfl rfl rfl rfl, h.ranges, h.memory⟩, rfl,
      fun _ _ hk => hk⟩
  | tuneAllocLimit ramsizeMb =>
    exact ⟨_, ready, g, v, rfl, ⟨h.inv.withMt (h.inv.rep.withHost _ _) h.inv.live (h.inv.ranges.congr rfl),
      h.ranges.congr rfl, h.memory⟩, rfl, fun _ _ hk => hk⟩
  | pteInserted ea lv index r segreg =>
    obtain ⟨hready, hr, hlv⟩ := hl
    obtain ⟨hf, hft⟩ := h.memory hready
    obtain ⟨mt, g', hmt, hi, hlr, hins⟩ :=
      pteInserted_spec h.inv hf hft ea hlv index ((live_iff h.inv).mp hr) segreg
    refine ⟨_, false, g', v, by simp only [exec, hmt, map_some],
      ⟨hi, h.ranges.congr hlr, nofun⟩, rfl, ?_⟩
    intro x k hk
    split_ifs at hins with hlost
    · exact .inl (hins.2 ▸ hk)
    · by_cases hkey : k = ⟨r, pageOf ea, s.usesSv r segreg⟩
      · exact .inr ⟨hkey, hlost⟩
      · exact .inl ((hins.role x k hkey).mp hk)
  | flushVsidEa macVsid ea =>
    obtain ⟨mt, g', hmt, hi, hd⟩ := flushVsidEa_spec h.inv hl ea
    exact ⟨_, ready, g', v, by simp only [exec, hmt, map_some], h.drops hi hd, rfl, hd.tracked⟩
  | flushLvptr lvptr =>
    obtain ⟨mt, g', hmt, hi, hd⟩ := flushLvptr_spec h.inv lvptr
    exact ⟨_, ready, g', v, congrArg (Option.map (·, ready)) hmt, h.drops hi hd, rfl, hd.tracked⟩
  | flushLvRange lvbase size =>
    obtain ⟨mt, g', hmt, hi, hd⟩ := flushLvRange_spec h.inv lvbase size
    exact ⟨_, ready, g', v, by simp only [exec, hmt, map_some], h.drops hi hd, rfl, hd.tracked⟩
  | flushEaRange orgEa size =>
    obtain ⟨mt, g', P, hmt, hi, hd, _⟩ := flushEaRange_spec h.inv hl.1 hl.2
    exact ⟨_, ready, g', v, by simp only [exec, hmt, map_some], h.drops hi hd, rfl, hd.tracked⟩
  | reclaim =>
    obtain ⟨s', g', v', hs', hi, hsh⟩ := mtableReclaim_spec h.inv
    exact ⟨s', ready, g', v', by simp only [exec, hs', map_some], h.drops hi hsh.drops,
      by rw [hsh.same], hsh.drops.tracked⟩
  | clear =>
    obtain ⟨s', hs', hi, hc⟩ := clearAllVsids_spec h.inv
    exact ⟨s', false, _, _, by simp only [exec, hs', map_some],
      ⟨hi, h.ranges.congr hc.host.lvranges, nofun⟩, hc.host.sessionIndex,
      fun x k hk => absurd hk (hc.untracked x k)⟩

theorem good_run {sess : Nat} {ptegMask : Word} {pte0 pte1 : Nat → Word}
    (hrun : Run sess ptegMask pte0 pte1 s ready) :
    ∃ g v, Good s ready g v ∧ s.sessionIndex = sess := by
  induction hrun with
  | init hs =>
    obtain ⟨g, v, h⟩ := good_init hs ptegMask pte0 pte1
    exact ⟨g, v, h, rfl⟩
  | step _ hl hexec ih =>
    obtain ⟨g, v, h, hsess⟩ := ih
    obtain ⟨s', ready', g', v', hexec', h', hsess', _⟩ := good_step h hl
    rw [hexec] at hexec'
    cases hexec'
    exact ⟨g', v', h', hsess'.trans hsess⟩

/-! ## The shape of the records -/

/-- The rings `ea` and `lv` and the list `free` are all there is. -/
structure Shape (m : Mtable) (ea : Slot → List Ptr) (lv : Ptr → List Ptr) (free : List Ptr) : Prop where
  /-- A `pelist` pointer is NULL or heads a ring back to itself. -/
  eaRing : ∀ r i t j, m.lev2 r i = some t → (ea (r, i, j) = [] ∧ m.eaNext (.slot t j) = .null) ∨
    (ea (r, i, j) ≠ [] ∧ Chain m.eaNext (.slot t j) (ea (r, i, j)) (.slot t j))
  eaNodup : ∀ s, (ea s).Nodup
  eaLast : ∀ s, ∀ x ∈ ea s, ((m.pent x).eaLast = true ↔ (ea s).getLast? = some x)
  eaCmp : ∀ s, ∀ x ∈ ea s, ∀ y ∈ ea s, (m.pent x).topea = (m.pent y).topea →
    (m.pent x).sv = (m.pent y).sv → x = y
  eaOne : ∀ s s' x, x ∈ ea s → x ∈ ea s' → s = s'
  noTable : ∀ r i j, m.lev2 r i = none → ea (r, i, j) = []
  lvRing : ∀ h, m.IsHead h → Chain m.lvNext h (lv h) h ∧ (h :: lv h).Nodup ∧
    ∀ x ∈ h :: lv h, ((m.pent x).lvHead = true ↔ x = h)
  lvOne : ∀ h h' x, m.IsHead h → m.IsHead h' → x ∈ h :: lv h → x ∈ h' :: lv h' → h = h'
  /-- A tracking record off the lv rings says so. -/
  lvNone : ∀ s, ∀ x ∈ ea s, (∃ h, m.IsHead h ∧ x ∈ h :: lv h) ∨ m.lvNext x = .null
  /-- Only tracking records are linked to a head. -/
  lvUsed : ∀ h, m.IsHead h → ∀ x ∈ lv h, ∃ s, x ∈ ea s
  freeList : Seg m.lvNext m.freePents free .null
  freeNodup : free.Nodup
  /-- Nothing but allocated records is on a list. -/
  allocated : ∀ x, x ∈ free ∨ (∃ s, x ∈ ea s) → m.IsHead x ∨ m.IsPlain x
  /-- Each allocated record is in one of three places. -/
  place : ∀ x, m.IsHead x ∨ m.IsPlain x → (x ∈ free ∧ (∀ s, x ∉ ea s) ∧ ¬ m.IsHead x) ∨
    (x ∉ free ∧ (∃ s, x ∈ ea s) ∧ ¬ (m.IsHead x ∧ (m.pent x).unused = true)) ∨
    (x ∉ free ∧ (∀ s, x ∉ ea s) ∧ m.IsHead x ∧ (m.pent x).unused = true)

def WellFormed (m : Mtable) : Prop := ∃ ea lv free, Shape m ea lv free

theorem rep_shape {m : Mtable} (hr : MacOnLinux.Rep m g) : Shape m g.ea g.lv g.free := by
  have hring : ∀ r i t j, m.lev2 r i = some t → m.RingAt (.slot t j) (g.ea (r, i, j)) :=
    fun r i t j ht => hr.ea.ringAt (s := (r, i, j)) ht
  have hrole : ∀ x, (∃ s, x ∈ g.ea s) ↔ ∃ k, g.role x = .ea k := by
    intro x
    constructor
    · rintro ⟨s, hx⟩
      obtain ⟨k, hk, _⟩ := (hr.ea.mem s x).mp hx
      exact ⟨k, hk⟩
    · rintro ⟨k, hk⟩
      exact ⟨k.slot, (hr.ea.mem _ x).mpr ⟨k, hk, rfl⟩⟩
  have hmember : ∀ h x, m.IsHead h → x ∈ h :: g.lv h → x = h ∨ g.ring x = some h := by
    intro h x _ hx
    rcases mem_cons.mp hx with hx | hx
    · exact .inl hx
    · exact .inr ((hr.lv.mem h x).mp hx)
  constructor
  · intro r i t j ht
    rcases hring r i t j ht with h | ⟨hne, hc, _⟩
    · exact .inl h
    · exact .inr ⟨hne, hc⟩
  · exact hr.ea.nodup
  · intro s x hx
    obtain ⟨t, ht⟩ := hr.ea.lev2_of_mem hx
    rcases hr.ea.ringAt ht with ⟨he, _⟩ | ⟨hne, _, hlast⟩
    · rw [he] at hx
      cases hx
    · rw [hlast x hx, getLastD_eq_getLast?, getLast?_eq_some_getLast hne]
      simp only [some.injEq]
      exact eq_comm
  · intro s x hx y hy htop hsv
    obtain ⟨k, hk, hks⟩ := (hr.ea.mem s x).mp hx
    obtain ⟨k', hk', hks'⟩ := (hr.ea.mem s y).mp hy
    obtain ⟨_, e1, e2⟩ := hr.ea.pent x k hk
    obtain ⟨_, e1', e2'⟩ := hr.ea.pent y k' hk'
    rw [e1, e1'] at htop
    rw [e2, e2'] at hsv
    have hkk : k = k' := key_ext (hks.trans hks'.symm) htop hsv
    exact hr.ea.uniq x y k hk (hkk ▸ hk')
  · intro s s' x hx hx'
    exact hr.ea.mem_unique hx hx'
  · intro r i j ht
    have := hr.ea.ring (r, i, j)
    unfold Mtable.EaRing at this
    rw [ht] at this
    exact this
  · intro h hh
    refine ⟨hr.lv.ring h hh, hr.lv.ring_nodup hh, ?_⟩
    intro x hx
    rcases hmember h x hh hx with rfl | hx
    · exact iff_of_true (hr.lv.head x hh).1 rfl
    · obtain ⟨_, hp, _⟩ := hr.lv.member h x hx
      refine iff_of_false (by simp [(hr.lv.plain x hp).1]) ?_
      rintro rfl
      exact hr.lv.not_head hp hh
  · intro h h' x hh hh' hx hx'
    rcases hmember h x hh hx with h1 | h1 <;> rcases hmember h' x hh' hx' with h2 | h2
    · rw [← h1, ← h2]
    · exact absurd (h1 ▸ hh) (hr.lv.not_head (hr.lv.member h' x h2).2.1)
    · exact absurd (h2 ▸ hh') (hr.lv.not_head (hr.lv.member h x h1).2.1)
    · exact some.inj (h1.symm.trans h2)
  · intro s x hx
    obtain ⟨k, hk, _⟩ := (hr.ea.mem s x).mp hx
    rcases hr.lv.owned x (by simp [hk]) with hh | hp
    · exact .inl ⟨x, hh, mem_cons_self⟩
    · cases hq : g.ring x with
      | none => exact .inr ((hr.lv.plain x hp).2.2 k hk hq)
      | some q =>
        exact .inl ⟨q, (hr.lv.member q x hq).1, mem_cons_of_mem _ ((hr.lv.mem q x).mpr hq)⟩
  · intro h hh x hx
    exact (hrole x).mpr (hr.ea_of_ring ((hr.lv.mem h x).mp hx))
  · exact hr.lv.freeList
  · exact hr.lv.freeNodup
  · rintro x (hx | hx)
    · exact hr.lv.owned x (by simp [(hr.lv.freeMem x).mp hx])
    · obtain ⟨k, hk⟩ := (hrole x).mp hx
      exact hr.lv.owned x (by simp [hk])
  intro x hx
  have hno : (∀ s, x ∉ g.ea s) ↔ ¬ ∃ k, g.role x = .ea k := by rw [← hrole, not_exists]
  rw [hr.lv.freeMem, hno, hrole]
  cases hrx : g.role x with
  | idle =>
    rcases hx with hh | hp
    · exact .inr (.inr ⟨by simp, by simp, hh, (hr.lv.head x hh).2.2.mpr hrx⟩)
    · exact absurd hrx (hr.lv.plain x hp).2.1
  | free => exact .inl ⟨rfl, by simp, fun hh => (hr.lv.head x hh).2.1 hrx⟩
  | limbo => exact absurd hrx (hr.settled x)
  | ea k =>
    refine .inr (.inl ⟨by simp, ⟨k, rfl⟩, ?_⟩)
    rintro ⟨hh, hu⟩
    have := (hr.lv.head x hh).2.2.mp hu
    rw [hrx] at this
    cases this

/-- The records are well formed after any run, and every legal call returns. -/
theorem mtable_wellFormed {sess : Nat} {ptegMask : Word} {pte0 pte1 : Nat → Word}
    (hrun : Run sess ptegMask pte0 pte1 s ready) :
    WellFormed s.mt ∧ ∀ op, Legal s ready op → (exec s ready op).isSome := by
  obtain ⟨g, v, h, _⟩ := good_run hrun
  refine ⟨⟨g.ea, g.lv, g.free, rep_shape h.inv.rep⟩, ?_⟩
  intro op hl
  obtain ⟨s', ready', _, _, hexec, _⟩ := good_step h hl
  rw [hexec]
  rfl

/-- Two records of one page, in both kinds of rings. -/
theorem run_init : Run 0 0xffc0 (fun _ => 0) (fun _ => 0) (Mmu.init 0 0xffc0 (fun _ => 0) fun _ => 0) false :=
  .init (by decide)

theorem run_insert : ∃ s : Mmu, Run 0 0xffc0 (fun _ => 0) (fun _ => 0) s false ∧ Live s 10 ∧ s.mt.lev2 10 0 = some 0 ∧
    s.mt.eaNext (.slot 0 1) = .pterec 2 ∧ s.mt.eaNext (.pterec 2) = .pterec 0 ∧
    s.mt.lvNext (.pterec 2) = .pterec 0 ∧ s.mt.lvNext (.pterec 0) = .pterec 2 := by
  let lv : LvRange × Word := (⟨0, 0x40000000, 0x2000⟩, 0x40000000)
  have h1 := Run.step run_init (show Legal _ _ (.registerLvrange 0x40000000 0x2000) from ⟨by decide, nofun⟩) rfl
  have h2 := Run.step h1
    (show Legal _ _ (.getVsid 5 true true (fun _ => false) fun _ => false) from
      (by decide : (5 : Int) < skiplistEnd)) rfl
  have h3 := Run.step h2 (show Legal _ _ (.memoryCheck true true) from trivial) rfl
  have hlv : ∀ l ∈ some lv, l.1 ∈ [(⟨0, 0x40000000, 0x2000⟩ : LvRange)] ∧ l.1.contains l.2 = true := by
    rintro _ ⟨⟩
    decide
  have h4 := Run.step h3 (show Legal _ _ (.pteInserted 0x1000 (some lv) 3 10 0) from
    ⟨rfl, ⟨5, by decide, rfl⟩, hlv⟩) rfl
  have h5 := Run.step h4 (show Legal _ _ (.memoryCheck true true) from trivial) rfl
  -- with the VSID of supervisor mode
  have h6 := Run.step h5 (show Legal _ _ (.pteInserted 0x1000 (some lv) 4 10 0x20efca12) from
    ⟨rfl, ⟨5, by decide, rfl⟩, hlv⟩) rfl
  exact ⟨_, h6, ⟨5, by decide, rfl⟩, rfl, rfl, rfl, rfl, rfl⟩

theorem mtable_wellFormed_insert : ∃ s : Mmu, Run 0 0xffc0 (fun _ => 0) (fun _ => 0) s false ∧
    s.mt.eaNext (.slot 0 1) = .pterec 2 ∧ s.mt.eaNext (.pterec 2) = .pterec 0 ∧
    s.mt.lvNext (.pterec 2) = .pterec 0 ∧ s.mt.lvNext (.pterec 0) = .pterec 2 ∧ WellFormed s.mt := by
  obtain ⟨s, hrun, -, -, hslot, hea, hlv, hlv'⟩ := run_insert
  exact ⟨s, hrun, hslot, hea, hlv, hlv', (mtable_wellFormed hrun).1⟩

/-! ## The promise of mtable_memory_check -/

def flushLvptrs (s : Mmu) (lvptrs : List Word) : Option Mmu := lvptrs.foldlM flushLvptr s

theorem flushLvptrs_spec (lvptrs : List Word) : ∀ {s : Mmu} {g : Rings}, Inv s g v → HasMemory s →
      ∃ s' g', s.flushLvptrs lvptrs = some s' ∧ Inv s' g' v ∧ HasMemory s' := by
  induction lvptrs with
  | nil =>
    intro s g h hm
    exact ⟨s, g, rfl, h, hm⟩
  | cons lvptr lvptrs ih =>
    intro s g h hm
    obtain ⟨mt, g1, hs1, h1, hd⟩ := flushLvptr_spec h lvptr
    obtain ⟨s', g', hs', h', hm'⟩ := ih h1 ⟨hd.pents hm.1, hd.tables hm.2⟩
    refine ⟨s', g', ?_, h', hm'⟩
    unfold flushLvptrs
    rw [foldlM_cons, hs1]
    exact hs'

/-- After a check that returned 0 and any calls of `flush_lvptr`, `pte_inserted` returns. -/
theorem memoryCheck_promise {sess : Nat} {ptegMask : Word} {pte0 pte1 : Nat → Word}
    (hrun : Run sess ptegMask pte0 pte1 s ready) {lev2Ok pentOk : Bool}
    (hcheck : s.mtableMemoryCheck lev2Ok pentOk = some (s', false)) (lvptrs : List Word) :
    ∃ s'', s'.flushLvptrs lvptrs = some s'' ∧ s''.mt.freePents ≠ .null ∧ s''.mt.freePentTables ≠ .null ∧
      ∀ ea lv index r segreg, Live s'' r → LvOk s'' lv →
        (s''.pteInserted ea lv index r segreg).isSome := by
  obtain ⟨g, v, h, _⟩ := good_run hrun
  obtain ⟨s1, b, g1, v1, hs1, h1, _, hmem⟩ := mtableMemoryCheck_spec h.inv lev2Ok pentOk
  rw [hcheck] at hs1
  obtain ⟨rfl, rfl⟩ := hs1
  obtain ⟨s2, g2, hs2, h2, hm2⟩ := flushLvptrs_spec lvptrs h1 (hmem rfl)
  refine ⟨s2, hs2, hm2.1, hm2.2, ?_⟩
  intro ea lv index r segreg hlive hlv
  obtain ⟨mt, g', hins, _⟩ := pteInserted_spec h2 hm2.1 hm2.2 ea hlv index ((live_iff h2).mp hlive) segreg
  rw [hins]
  rfl

theorem memoryCheck_promise_flush : ∃ s s' s'' : Mmu, Run 0 0xffc0 (fun _ => 0) (fun _ => 0) s false ∧
    s.mtableMemoryCheck true true = some (s', false) ∧ s'.flushLvptrs [0x5000] = some s'' ∧
    (s''.pteInserted 0x1000 (some (⟨0, 0x5000, 0x1000⟩, 0x5000)) 3 10 0).isSome := by
  have h1 := Run.step run_init (show Legal _ _ (.registerLvrange 0x5000 0x1000) from
    ⟨by decide, fun lvr hl => by cases hl⟩) rfl
  have h2 := Run.step h1
    (show Legal _ _ (.getVsid 5 true true (fun _ => false) fun _ => false) from
      (by decide : (5 : Int) < skiplistEnd)) rfl
  obtain ⟨s'', hs'', -, -, hins⟩ := memoryCheck_promise h2
    (show Mmu.mtableMemoryCheck _ true true = some (_, false) from rfl) [0x5000]
  have hs' := hs''
  refine ⟨_, _, s'', h2, rfl, hs'', ?_⟩
  cases hs'.symm.trans rfl
  exact hins 0x1000 _ 3 10 0 ⟨5, by decide, rfl⟩ (by rintro l ⟨⟩; exact ⟨by decide, by decide⟩)

/-! ## The VSIDs -/

/-- `alloc_context` returned no VSID twice, and none of the kernel. -/
theorem vsids_unique {sess : Nat} {ptegMask : Word} {pte0 pte1 : Nat → Word}
    (hrun : Run sess ptegMask pte0 pte1 s ready) :
    (s.ctx.issued.map Prod.snd).Nodup ∧
      (s.ctx.illegalSr &&& 0xffffff).toNat ∈ s.ctx.issued.map Prod.snd ∧
      ∀ p ∈ s.ctx.issued, p.2 = contextVsid p.1 ∧ p.1 ≤ s.ctx.last ∧
        ∀ c < 32768, ∀ seg < 16, p.2 ≠ linuxContextVsid c seg := by
  obtain ⟨g, v, ⟨h, _, _⟩, _⟩ := good_run hrun
  refine ⟨h.ctx.vsid_nodup h.sess, ?_, ?_⟩
  · rw [h.ctx.illegal_vsid]
    exact mem_map_of_mem h.ctx.first_mem
  · intro p hp
    refine ⟨(h.ctx.issued p hp).2.2, (h.ctx.lt h.sess hp).2, ?_⟩
    intro c hc seg hseg
    exact h.ctx.not_linux h.sess hp hc hseg

theorem vsids_unique_alloc : ∃ s : Mmu, Run 0 0xffc0 (fun _ => 0) (fun _ => 0) s false ∧
    s.ctx.issued.length = 23 ∧ (s.ctx.issued.map Prod.snd).Nodup := by
  have h1 := Run.step run_init (show Legal _ _ (.allocVsid 5 true fun _ => false) from ⟨by decide, rfl⟩) rfl
  exact ⟨_, h1, rfl, (vsids_unique h1).1⟩

end Mmu

end MacOnLinux
