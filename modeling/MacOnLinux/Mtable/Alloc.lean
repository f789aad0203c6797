import MacOnLinux.Mtable.Ranges
import MacOnLinux.Mtable.Insert

/-! # Allocation -/

namespace MacOnLinux

open Linked Mtable List BitVec

variable {m m' m'' : Mtable} {g g' g'' : Rings} {x y h p : Ptr} {s : Slot} {k : Key} {t : Nat}

/-! ## Level 2 tables -/

theorem Rep.role_fresh (hr : Rep m g) {i : Nat} (hi : m.nextRec ≤ i) : g.role (.pterec i) = .idle := by
  by_contra hne
  obtain ⟨j, hj, he⟩ := hr.lv.bound _ (hr.lv.owned _ hne)
  cases he
  omega

theorem Rep.ring_fresh (hr : Rep m g) {i : Nat} (hi : m.nextRec ≤ i) : g.ring (.pterec i) = none := by
  cases hq : g.ring (.pterec i) with
  | none => rfl
  | some q =>
    obtain ⟨j, hj, he⟩ := hr.lv.bound _ (.inr (hr.lv.member q _ hq).2.1)
    cases he
    omega

theorem doChunkKmalloc_spec (m : Mtable) (ok : Bool) (what : Contents) (first : Nat) :
    m.doChunkKmalloc ok what first = none ∨
      m.doChunkKmalloc ok what first = some (m.addPage what first) := by
  unfold doChunkKmalloc
  split
  · exact .inl rfl
  · split
    · exact .inr rfl
    · exact .inl rfl

theorem Keeps.refl (m : Mtable) (g : Rings) : Keeps m g m g :=
  ⟨fun _ _ => Iff.rfl, fun _ _ _ => ⟨rfl, rfl, rfl⟩, rfl, rfl⟩

theorem Keeps.trans {m'' : Mtable} {g'' : Rings} (h : Keeps m g m' g') (h' : Keeps m' g' m'' g'') :
    Keeps m g m'' g'' := by
  refine ⟨fun x k => (h'.role x k).trans (h.role x k), ?_, h'.pte0.trans h.pte0, h'.lev2.trans h.lev2⟩
  intro x k hk
  obtain ⟨a1, a2, a3⟩ := h.kept x k ((h'.role x k).mp hk)
  obtain ⟨b1, b2, b3⟩ := h'.kept x k hk
  exact ⟨b1.trans a1, b2.trans a2, b3.trans a3⟩

theorem isPlain_addPage {what : Contents} (hw : what ≠ .pent) (first : Nat) :
    (m.addPage what first).IsPlain x ↔ m.IsPlain x := by
  constructor
  · rintro ⟨f, hf, hk⟩
    rcases mem_cons.mp hf with he | hf
    · cases he
      exact absurd rfl hw
    · exact ⟨f, hf, hk⟩
  · rintro ⟨f, hf, hk⟩
    exact ⟨f, mem_cons_of_mem _ hf, hk⟩

/-! ## Old memory -/

def KeepsOld (m m' : Mtable) : Prop :=
  ∀ i < m.nextRec, m'.eaNext (.pterec i) = m.eaNext (.pterec i) ∧ m'.pent (.pterec i) = m.pent (.pterec i) ∧
    m'.lvNext (.pterec i) = m.lvNext (.pterec i)

theorem EaPart.extend (h : EaPart m g) (htab : TabPart m g) (hlev2 : m'.lev2 = m.lev2)
    (hrec : m.nextRec ≤ m'.nextRec)
    (hslot : ∀ t j, t < m.nextTab → m'.eaNext (.slot t j) = m.eaNext (.slot t j))
    (hold : KeepsOld m m') (hea : g'.ea = g.ea) (hrole : ∀ x k, g'.role x = .ea k ↔ g.role x = .ea k) :
    EaPart m' g' := by
  refine h.transport hlev2 hrec (fun r i t j ht => hslot t j (htab.used r i t ht).2) (fun x k hk => ?_) hea hrole
  obtain ⟨i, hi, rfl⟩ := h.record x k hk
  rw [(hold i hi).2.1]
  exact ⟨(hold i hi).1, rfl, id⟩

theorem LvPart.old (h : LvPart m g) (hold : KeepsOld m m') (hx : m.IsHead x ∨ m.IsPlain x) :
    m'.pent x = m.pent x ∧ m'.lvNext x = m.lvNext x := by
  obtain ⟨i, hi, rfl⟩ := h.bound x hx
  exact (hold i hi).2

theorem LvPart.bound_of_le (h : LvPart m g) {n : Nat} (hn : m.nextRec ≤ n) (hx : m.IsHead x ∨ m.IsPlain x) :
    ∃ i < n, x = .pterec i := by
  obtain ⟨i, hi, he⟩ := h.bound x hx
  exact ⟨i, by omega, he⟩

theorem LvPart.rings_old (h : LvPart m g) (hold : KeepsOld m m') :
    (∀ q, m.IsHead q → Chain m'.lvNext q (g.lv q) q) ∧ Seg m'.lvNext m.freePents g.free .null := by
  constructor
  · intro q hq
    refine (chain_congr ?_).mpr (h.ring q hq)
    intro y hy
    rcases mem_cons.mp hy with rfl | hy
    · exact (h.old hold (.inl hq)).2
    · exact (h.old hold (.inr (h.member q y ((h.mem q y).mp hy)).2.1)).2
  · refine (seg_congr ?_).mpr h.freeList
    intro y hy
    refine (h.old hold (h.owned y ?_)).2
    rw [(h.freeMem y).mp hy]
    exact nofun

/-! ## New pages -/

theorem Rep.withHost (hr : Rep m g) (f : Nat → Word) (limit : Int) :
    Rep { m with pte0 := f, allocLimit := limit } g :=
  ⟨⟨hr.ea.ring, hr.ea.nodup, hr.ea.mem, hr.ea.pent, hr.ea.uniq, hr.ea.record⟩,
    ⟨hr.lv.ring, hr.lv.nodup, hr.lv.mem, hr.lv.member, hr.lv.freeList, hr.lv.freeNodup, hr.lv.freeMem,
      hr.lv.head, hr.lv.plain, hr.lv.owned, hr.lv.bound⟩,
    ⟨hr.tab.list, hr.tab.nodup, hr.tab.empty, hr.tab.bound, hr.tab.used, hr.tab.inj, hr.tab.ind⟩,
    hr.settled⟩

theorem Rep.addPage (hr : Rep m g) {what : Contents} (hw : what ≠ .pent) (first : Nat) :
    Rep (m.addPage what first) g := by
  refine ⟨?_, ?_, hr.tab.congr rfl rfl rfl (fun _ _ _ => rfl) rfl, hr.settled⟩
  · exact hr.ea.congr rfl rfl rfl (fun _ _ _ => ⟨rfl, id⟩) rfl (fun _ _ => Iff.rfl)
  · exact hr.lv.transport (fun _ => Iff.rfl) (fun _ => isPlain_addPage hw first) rfl rfl rfl
      (fun _ _ => ⟨rfl, fun _ => rfl⟩) rfl rfl rfl rfl

theorem linkTables_spec (hr : Rep m g) :
    Rep m.linkTables { g with tabs := range' m.nextTab tablesPerChunk ++ g.tabs } := by
  have hnew : ∀ t ∈ range' m.nextTab tablesPerChunk,
      m.nextTab ≤ t ∧ t < m.nextTab + tablesPerChunk := by
    intro t ht
    obtain ⟨j, hj, rfl⟩ := mem_range'.mp ht
    omega
  have hold : ∀ t ∈ g.tabs, ¬ (m.nextTab ≤ t ∧ t < m.nextTab + tablesPerChunk) := by
    intro t ht hn
    have := hr.tab.bound t ht
    omega
  refine ⟨?_, ?_, ⟨?_, ?_, ?_, ?_, ?_, hr.tab.inj, hr.tab.ind⟩, hr.settled⟩
  · refine hr.ea.extend hr.tab rfl (le_refl _) ?_ (fun _ _ => ⟨rfl, rfl, rfl⟩) rfl
      (fun _ _ => Iff.rfl)
    intro t j ht
    exact if_neg (by omega)
  · exact hr.lv.transport (fun _ => Iff.rfl) (fun _ => Iff.rfl) rfl rfl rfl
      (fun _ _ => ⟨rfl, fun _ => rfl⟩) rfl rfl rfl rfl
  · rw [map_append, seg_append]
    refine ⟨m.freePentTables, seg_range (f := (Ptr.slot · 0)) (by decide) ?_,
      (seg_congr ?_).mpr hr.tab.list⟩
    · intro i h1 h2
      exact (if_pos ⟨h1, h2⟩).trans (if_pos rfl)
    · intro q hq
      obtain ⟨t, ht, rfl⟩ := mem_map.mp hq
      exact if_neg (hold t ht)
  · rw [nodup_append]
    refine ⟨nodup_range', hr.tab.nodup, ?_⟩
    rintro t ht t' ht' rfl
    exact hold t ht' (hnew t ht)
  · intro t ht j hj
    rcases mem_append.mp ht with ht | ht
    · exact (if_pos (hnew t ht)).trans (if_neg hj)
    · exact (if_neg (hold t ht)).trans (hr.tab.empty t ht j hj)
  · intro t ht
    show t < m.nextTab + tablesPerChunk
    rcases mem_append.mp ht with ht | ht
    · exact (hnew t ht).2
    · have := hr.tab.bound t ht
      omega
  intro r i t ht
  obtain ⟨h1, h2⟩ := hr.tab.used r i t ht
  refine ⟨?_, show t < m.nextTab + tablesPerChunk by omega⟩
  intro hm
  rcases mem_append.mp hm with hm | hm
  · have := hnew t hm
    omega
  · exact h1 hm

theorem lev2Alloc_spec (hr : Rep m g) (ok : Bool) :
    ∃ g', Rep (m.lev2Alloc ok) g' ∧ Keeps m g (m.lev2Alloc ok) g' ∧
      (m.lev2Alloc ok).lvranges = m.lvranges ∧ (m.lev2Alloc ok).freePents = m.freePents := by
  unfold lev2Alloc
  rcases doChunkKmalloc_spec m ok .lev2 m.nextTab with hm | hm
  · rw [hm]
    exact ⟨g, hr, Keeps.refl m g, rfl, rfl⟩
  · rw [hm]
    have hw : Contents.lev2 ≠ .pent := nofun
    exact ⟨_, linkTables_spec (hr.addPage hw m.nextTab), ⟨fun _ _ => Iff.rfl,
      fun _ _ _ => ⟨rfl, rfl, rfl⟩, rfl, rfl⟩, rfl, rfl⟩

/-! ## New records -/

def pentsOf (first : Nat) : List Ptr := (List.range' first pentsPerChunk).map Ptr.pterec

theorem mem_pentsOf {first : Nat} :
    x ∈ pentsOf first ↔ ∃ j < pentsPerChunk, x = .pterec (first + j) := by
  simp only [pentsOf, mem_map, mem_range', one_mul]
  constructor
  · rintro ⟨_, ⟨j, hj, rfl⟩, rfl⟩
    exact ⟨j, hj, rfl⟩
  · rintro ⟨j, hj, rfl⟩
    exact ⟨_, ⟨j, hj, rfl⟩, rfl⟩

def Rings.addPents (g : Rings) (first : Nat) : Rings :=
  { g with
    free := pentsOf first ++ g.free
    role := fun x => if x ∈ pentsOf first then .free else g.role x }

theorem isPlain_linkPents :
    (m.addPage .pent m.nextRec).linkPents.IsPlain x ↔ m.IsPlain x ∨ x ∈ pentsOf m.nextRec := by
  rw [mem_pentsOf]
  constructor
  · rintro ⟨f, hf, hk⟩
    rcases mem_cons.mp hf with he | hf
    · cases he
      exact .inr hk
    · exact .inl ⟨f, hf, hk⟩
  · rintro (⟨f, hf, hk⟩ | hk)
    · exact ⟨f, mem_cons_of_mem _ hf, hk⟩
    · exact ⟨m.nextRec, mem_cons_self, hk⟩

theorem LvPart.not_new (h : LvPart m g) (hx : m.IsHead x ∨ m.IsPlain x) : x ∉ pentsOf m.nextRec := by
  intro hn
  obtain ⟨i, hi, rfl⟩ := h.bound x hx
  obtain ⟨j, _, he⟩ := mem_pentsOf.mp hn
  cases he
  omega

theorem keepsOld_linkPents (m : Mtable) : KeepsOld m (m.addPage .pent m.nextRec).linkPents := by
  intro i hi
  have hno : ¬ (m.nextRec ≤ i ∧ i < m.nextRec + pentsPerChunk) := by omega
  exact ⟨if_neg hno, if_neg hno, if_neg hno⟩

theorem Rep.role_addPents (hr : Rep m g) : (g.addPents m.nextRec).role x = .ea k ↔ g.role x = .ea k := by
  unfold Rings.addPents
  dsimp only
  split
  · rename_i hx
    obtain ⟨j, _, rfl⟩ := mem_pentsOf.mp hx
    rw [hr.role_fresh (by omega)]
    exact iff_of_false nofun nofun
  · rfl

theorem linkPents_spec (hr : Rep m g) :
    Rep (m.addPage .pent m.nextRec).linkPents (g.addPents m.nextRec) := by
  have hold := keepsOld_linkPents m
  have hrole : ∀ x ∉ pentsOf m.nextRec, (g.addPents m.nextRec).role x = g.role x :=
    fun x hx => if_neg hx
  have hnew : ∀ x ∈ pentsOf m.nextRec, (g.addPents m.nextRec).role x = .free :=
    fun x hx => if_pos hx
  have hfresh : ∀ x ∈ pentsOf m.nextRec, g.role x = .idle ∧ g.ring x = none := by
    intro x hx
    obtain ⟨j, _, rfl⟩ := mem_pentsOf.mp hx
    exact ⟨hr.role_fresh (by omega), hr.ring_fresh (by omega)⟩
  obtain ⟨hrings, hfree⟩ := hr.lv.rings_old hold
  refine ⟨?_, ⟨hrings, hr.lv.nodup, hr.lv.mem, ?_, ?_, ?_, ?_, ?_, ?_, ?_, ?_⟩, ?_, ?_⟩
  · exact hr.ea.extend hr.tab rfl (Nat.le_add_right ..) (fun _ _ _ => rfl) hold rfl fun _ _ => hr.role_addPents
  · intro q x hx
    obtain ⟨h1, h2, h3⟩ := hr.lv.member q x hx
    rw [isPlain_linkPents, hrole x (hr.lv.not_new (.inr h2))]
    exact ⟨h1, .inl h2, h3⟩
  · show Seg _ (.pterec m.nextRec) (pentsOf m.nextRec ++ g.free) .null
    rw [seg_append]
    refine ⟨m.freePents, seg_range (by decide) ?_, hfree⟩
    intro i h1 h2
    exact if_pos ⟨h1, h2⟩
  · show (pentsOf m.nextRec ++ g.free).Nodup
    rw [nodup_append]
    refine ⟨?_, hr.lv.freeNodup, ?_⟩
    · exact List.Nodup.map (fun _ _ he => Ptr.pterec.inj he) nodup_range'
    · rintro x hx y hy rfl
      have := (hfresh x hx).1
      rw [(hr.lv.freeMem x).mp hy] at this
      cases this
  · intro x
    show x ∈ pentsOf m.nextRec ++ g.free ↔ _
    rw [mem_append]
    by_cases hx : x ∈ pentsOf m.nextRec
    · rw [hnew x hx]
      exact iff_of_true (.inl hx) rfl
    · rw [hrole x hx, or_iff_right hx]
      exact hr.lv.freeMem x
  · intro q hq
    rw [(hr.lv.old hold (.inl hq)).1, hrole q (hr.lv.not_new (.inl hq))]
    exact hr.lv.head q hq
  · intro x hx
    rcases isPlain_linkPents.mp hx with hx | hx
    · obtain ⟨hpent, hnext⟩ := hr.lv.old hold (.inr hx)
      rw [hpent, hnext, hrole x (hr.lv.not_new (.inr hx))]
      exact hr.lv.plain x hx
    rw [hnew x hx]
    obtain ⟨j, hj, rfl⟩ := mem_pentsOf.mp hx
    have hz : (m.addPage .pent m.nextRec).linkPents.pent (.pterec (m.nextRec + j)) = .zero :=
      if_pos (by show m.nextRec ≤ _ ∧ _ < m.nextRec + _; omega)
    rw [hz]
    exact ⟨rfl, nofun, nofun⟩
  · intro x hx
    rw [isPlain_linkPents]
    by_cases hn : x ∈ pentsOf m.nextRec
    · exact .inr (.inr hn)
    · rw [hrole x hn] at hx
      rcases hr.lv.owned x hx with hh | hp
      · exact .inl hh
      · exact .inr (.inl hp)
  · intro x hx
    rw [isPlain_linkPents] at hx
    rcases hx with hh | hp | hn
    · exact hr.lv.bound_of_le (Nat.le_add_right ..) (.inl hh)
    · exact hr.lv.bound_of_le (Nat.le_add_right ..) (.inr hp)
    · obtain ⟨j, hj, he⟩ := mem_pentsOf.mp hn
      exact ⟨_, Nat.add_lt_add_left hj _, he⟩
  · exact hr.tab.congr rfl rfl rfl (fun _ _ _ => rfl) rfl
  intro x
  by_cases hx : x ∈ pentsOf m.nextRec
  · rw [hnew x hx]
    exact nofun
  · rw [hrole x hx]
    exact hr.settled x

theorem pentAlloc_spec (hr : Rep m g) (ok : Bool) :
    ∃ g', Rep (m.pentAlloc ok) g' ∧ Keeps m g (m.pentAlloc ok) g' ∧
      (m.pentAlloc ok).lvranges = m.lvranges ∧
      (m.pentAlloc ok).freePentTables = m.freePentTables := by
  unfold pentAlloc
  rcases doChunkKmalloc_spec m ok .pent m.nextRec with hm | hm
  · rw [hm]
    exact ⟨g, hr, Keeps.refl m g, rfl, rfl⟩
  rw [hm]
  refine ⟨_, linkPents_spec hr, ⟨fun _ _ => hr.role_addPents, ?_, rfl, rfl⟩, rfl, rfl⟩
  intro x k hk
  obtain ⟨i, hi, rfl⟩ := hr.ea.record x k (hr.role_addPents.mp hk)
  rw [show (_ : Mtable).pent (.pterec i) = m.pent (.pterec i) from (keepsOld_linkPents m i hi).2.1]
  exact ⟨rfl, rfl, rfl⟩

/-! ## Lvranges -/

def LvRange.HeadIn (lvr : LvRange) (x : Ptr) : Prop := ∃ k < lvr.pages, x = .pterec (lvr.pents + k)

theorem registerLvrange_spec (hr : Rep m g) (lvbase size : Word) :
    Rep (m.registerLvrange lvbase size).1 g ∧ Keeps m g (m.registerLvrange lvbase size).1 g := by
  generalize hn : (size >>> 12).toNat = n
  have hold : KeepsOld m (m.registerLvrange lvbase size).1 := by
    intro i hi
    have hno : ¬ (m.nextRec ≤ i ∧ i < m.nextRec + (size >>> 12).toNat) := by omega
    exact ⟨if_neg hno, if_neg hno, if_neg hno⟩
  have hhead : ∀ x, (m.registerLvrange lvbase size).1.IsHead x ↔
      m.IsHead x ∨ ∃ j < n, x = .pterec (m.nextRec + j) := by
    intro x
    rw [← hn]
    constructor
    · rintro ⟨lvr, hl, hk⟩
      rcases mem_cons.mp hl with rfl | hl
      · exact .inr hk
      · exact .inl ⟨lvr, hl, hk⟩
    · rintro (⟨lvr, hl, hk⟩ | hk)
      · exact ⟨lvr, mem_cons_of_mem _ hl, hk⟩
      · exact ⟨_, mem_cons_self, hk⟩
  obtain ⟨hrings, hfree⟩ := hr.lv.rings_old hold
  have hempty : ∀ j, g.lv (.pterec (m.nextRec + j)) = [] := by
    intro j
    refine eq_nil_iff_forall_not_mem.mpr ?_
    intro y hy
    obtain ⟨i, hi, he⟩ := hr.lv.bound _ (.inl (hr.lv.member _ y ((hr.lv.mem _ y).mp hy)).1)
    cases he
    omega
  refine ⟨⟨?_, ⟨?_, hr.lv.nodup, hr.lv.mem, ?_, hfree, hr.lv.freeNodup, hr.lv.freeMem, ?_, ?_, ?_, ?_⟩,
    hr.tab.congr rfl rfl rfl (fun _ _ _ => rfl) rfl, hr.settled⟩, fun _ _ => Iff.rfl, ?_, rfl, rfl⟩
  · exact hr.ea.extend hr.tab rfl (Nat.le_add_right ..) (fun _ _ _ => rfl) hold rfl (fun _ _ => Iff.rfl)
  · intro q hq
    rcases (hhead q).mp hq with hq | ⟨j, hj, rfl⟩
    · exact hrings q hq
    · rw [hempty j]
      exact if_pos (by omega)
  · intro q y hy
    obtain ⟨h1, h2, h3⟩ := hr.lv.member q y hy
    exact ⟨(hhead q).mpr (.inl h1), h2, h3⟩
  · intro q hq
    rcases (hhead q).mp hq with hq | ⟨j, hj, rfl⟩
    · rw [(hr.lv.old hold (.inl hq)).1]
      exact hr.lv.head q hq
    · have hp : (m.registerLvrange lvbase size).1.pent (.pterec (m.nextRec + j)) = .unusedHead :=
        if_pos (by omega)
      rw [hp, hr.role_fresh (by omega)]
      exact ⟨rfl, nofun, iff_of_true rfl rfl⟩
  · intro x hx
    obtain ⟨hpent, hnext⟩ := hr.lv.old hold (.inr hx)
    rw [hpent, hnext]
    exact hr.lv.plain x hx
  · intro x hx
    rw [hhead]
    rcases hr.lv.owned x hx with hh | hp
    · exact .inl (.inl hh)
    · exact .inr hp
  · intro x hx
    rw [hhead] at hx
    rcases hx with (hh | ⟨j, hj, he⟩) | hp
    · exact hr.lv.bound_of_le (Nat.le_add_right ..) (.inl hh)
    · exact ⟨_, Nat.add_lt_add_left (hn ▸ hj) _, he⟩
    · exact hr.lv.bound_of_le (Nat.le_add_right ..) (.inr hp)
  · intro x k hk
    rw [(hr.lv.old hold (hr.lv.owned x (by rw [hk]; exact nofun))).1]
    exact ⟨rfl, rfl, rfl⟩

structure RangesOk (m : Mtable) : Prop where
  sized : ∀ lvr ∈ m.lvranges, lvr.size.toNat % 4096 = 0 ∧ lvr.size.toNat < 2 ^ 31
  apart : ∀ a ∈ m.lvranges, ∀ b ∈ m.lvranges, ∀ p, a.contains p → b.contains p → a = b

theorem RangesOk.congr (h : RangesOk m) (he : m'.lvranges = m.lvranges) : RangesOk m' := by
  constructor
  · rw [he]; exact h.sized
  · rw [he]; exact h.apart

theorem RangesOk.pageSized (h : RangesOk m) : PageSized m := fun lvr hl => (h.sized lvr hl).1

theorem RangesOk.find (h : RangesOk m) {lvr : LvRange} {lvptr : Word} (hl : lvr ∈ m.lvranges)
    (hc : lvr.contains lvptr = true) : m.lvranges.find? (·.contains lvptr) = some lvr := by
  cases hf : m.lvranges.find? (·.contains lvptr) with
  | none =>
    have := find?_eq_none.mp hf lvr hl
    exact absurd hc this
  | some lvr' =>
    have hc' := find?_some hf
    rw [h.apart lvr' (mem_of_find?_eq_some hf) lvr hl lvptr hc' hc]

theorem LvRange.headOf_page (lvr : LvRange) {j : Nat} (hj : j < 2 ^ 20) :
    lvr.headOf (lvr.base + BitVec.ofNat 32 (4096 * j)) = .pterec (lvr.pents + j) := by
  unfold LvRange.headOf
  have hsub : lvr.base + BitVec.ofNat 32 (4096 * j) - lvr.base = BitVec.ofNat 32 (4096 * j) := by
    rw [BitVec.add_comm, BitVec.add_sub_cancel]
  have hshift : (BitVec.ofNat 32 (4096 * j) >>> 12).toNat = j := by
    rw [toNat_ushiftRight, toNat_ofNat]
    omega
  rw [hsub, hshift]

theorem LvRange.contains_page (lvr : LvRange) {j : Nat} (hj : 4096 * j < lvr.size.toNat) :
    lvr.contains (lvr.base + BitVec.ofNat 32 (4096 * j)) = true := by
  unfold LvRange.contains
  have hsub : lvr.base + BitVec.ofNat 32 (4096 * j) - lvr.base = BitVec.ofNat 32 (4096 * j) := by
    rw [BitVec.add_comm, BitVec.add_sub_cancel]
  rw [hsub, decide_eq_true_eq, lt_def, toNat_ofNat]
  omega

theorem LvRange.pages_eq (lvr : LvRange) : lvr.pages = lvr.size.toNat / 4096 := by
  unfold LvRange.pages
  rw [toNat_ushiftRight, Nat.shiftRight_eq_div_pow]

theorem RangesOk.flushed_iff (h : RangesOk m) {lvr : LvRange} (hl : lvr ∈ m.lvranges) :
    (∃ n : Nat, (4096 * n : Int) < lvr.size.toInt ∧
      OnHost m g (lvr.base + BitVec.ofNat 32 (4096 * n)) x) ↔
      ∃ q, lvr.HeadIn q ∧ host m g x = some q := by
  obtain ⟨h1, h2⟩ := h.sized lvr hl
  have hint : lvr.size.toInt = (lvr.size.toNat : Int) := by
    rw [toInt_eq_toNat_cond, if_pos (by omega)]
  have hpages := lvr.pages_eq
  constructor
  · rintro ⟨n, hn, lvr', hf, hhost⟩
    have hn' : 4096 * n < lvr.size.toNat := by omega
    have hf' := h.find hl (lvr.contains_page hn')
    rw [hf'] at hf
    cases hf
    rw [lvr.headOf_page (by omega)] at hhost
    exact ⟨_, ⟨n, by omega, rfl⟩, hhost⟩
  · rintro ⟨q, ⟨n, hn, rfl⟩, hhost⟩
    have hn' : 4096 * n < lvr.size.toNat := by omega
    refine ⟨n, by omega, lvr, h.find hl (lvr.contains_page hn'), ?_⟩
    rw [lvr.headOf_page (by omega)]
    exact hhost

/-- With the ring of `q` dropped, `q` is an unused head and nothing is on its ring. -/
theorem Rep.dropped_head (hr : Rep m g) (hr' : Rep m' g') {P : Ptr → Prop} (hd : Drops P m g m' g')
    (hq : m.IsHead p) (hP : ∀ x, host m g x = some p → P x) :
    g'.role p = .idle ∧ g'.lv p = [] := by
  have hq' : m'.IsHead p := hd.same.isHead.mpr hq
  constructor
  · cases hrole : g'.role p with
    | idle => rfl
    | free => exact absurd hrole (hr'.lv.head p hq').2.1
    | limbo => exact absurd hrole (hr'.settled p)
    | ea k =>
      obtain ⟨_, hnP⟩ := (hd.role p k).mp hrole
      refine absurd (hP p ?_) hnP
      unfold host
      rw [if_pos (hr.lv.head p hq).1]
  · refine eq_nil_iff_forall_not_mem.mpr ?_
    intro y hy
    have hring := (hr'.lv.mem p y).mp hy
    obtain ⟨k, hk⟩ := hr'.ea_of_ring hring
    obtain ⟨_, hnP⟩ := (hd.role y k).mp hk
    rw [(hd.kept y k hk).2.2] at hring
    refine hnP (hP y ?_)
    unfold host
    rw [(hr.lv.plain y (hr.lv.member p y hring).2.1).1]
    exact hring

theorem freeLvrange_spec (hr : Rep m g) (hok : RangesOk m) {lvr : LvRange} (hl : lvr ∈ m.lvranges) :
    ∃ m' g', m.freeLvrange lvr = some { m' with lvranges := m.lvranges.erase lvr } ∧
      Rep { m' with lvranges := m.lvranges.erase lvr } g' ∧ Rep m' g' ∧
      Drops (fun x => ∃ q, lvr.HeadIn q ∧ host m g x = some q) m g m' g' ∧
      ∀ q, lvr.HeadIn q → g'.role q = .idle ∧ g'.lv q = [] := by
  obtain ⟨m', g', hm', hr', hdrop⟩ := flushLvRange_spec hr hok.pageSized lvr.base lvr.size
  have hdrop' := hdrop.congr (fun x _ _ => hok.flushed_iff hl)
  have hlr := hdrop'.same.lvranges
  have hgone : ∀ q, lvr.HeadIn q → g'.role q = .idle ∧ g'.lv q = [] := by
    rintro q hq
    obtain ⟨j, hj, he⟩ := hq
    exact hr.dropped_head hr' hdrop' ⟨lvr, hl, j, hj, he⟩ (fun x hx => ⟨q, ⟨j, hj, he⟩, hx⟩)
  have hhead : ∀ x, ({ m' with lvranges := m.lvranges.erase lvr } : Mtable).IsHead x → m'.IsHead x := by
    rintro x ⟨l, hl', hk⟩
    exact ⟨l, by rw [hlr]; exact mem_of_mem_erase hl', hk⟩
  have hkeep : ∀ x, m'.IsHead x → ¬ lvr.HeadIn x →
      ({ m' with lvranges := m.lvranges.erase lvr } : Mtable).IsHead x := by
    rintro x ⟨l, hl', hk⟩ hn
    have hne : l ≠ lvr := by rintro rfl; exact hn hk
    rw [hlr] at hl'
    exact ⟨l, (mem_erase_of_ne hne).mpr hl', hk⟩
  refine ⟨m', g', ?_, ⟨?_, ?_, hr'.tab.congr rfl rfl rfl (fun _ _ _ => rfl) rfl, hr'.settled⟩, hr', hdrop',
    hgone⟩
  · unfold freeLvrange
    rw [if_pos hl, hm', some_bind, hlr]
  · exact hr'.ea.congr rfl rfl rfl (fun _ _ _ => ⟨rfl, id⟩) rfl (fun _ _ => Iff.rfl)
  refine ⟨fun q hq => hr'.lv.ring q (hhead q hq), hr'.lv.nodup, hr'.lv.mem, ?_, hr'.lv.freeList,
    hr'.lv.freeNodup, hr'.lv.freeMem, fun q hq => hr'.lv.head q (hhead q hq), hr'.lv.plain, ?_, ?_⟩
  · intro q y hy
    obtain ⟨h1, h2, h3⟩ := hr'.lv.member q y hy
    refine ⟨hkeep q h1 ?_, h2, h3⟩
    intro hin
    have hm := (hr'.lv.mem q y).mpr hy
    rw [(hgone q hin).2] at hm
    cases hm
  · intro x hx
    rcases hr'.lv.owned x hx with hh | hp
    · exact .inl (hkeep x hh fun hin => hx (hgone x hin).1)
    · exact .inr hp
  · rintro x (hh | hp)
    · exact hr'.lv.bound x (.inl (hhead x hh))
    · exact hr'.lv.bound x (.inr hp)

/-! ## The end of clear_all_vsids -/

def Rings.empty : Rings where
  ea := fun _ => []
  lv := fun _ => []
  free := []
  tabs := []
  role := fun _ => .idle
  ring := fun _ => none

theorem Rep.release (hr : Rep m g) (hlev2 : ∀ r i, m.lev2 r i = none) :
    Rep ({ m with freePents := .null, freePentTables := .null }.doKfreeAny) .empty := by
  have hlev2' : ∀ r i, ({ m with freePents := .null, freePentTables := .null }.doKfreeAny).lev2 r i =
      none := hlev2
  have hno : ∀ x k, g.role x ≠ .ea k := by
    intro x k hk
    obtain ⟨t, ht⟩ := hr.ea.lev2_of_mem ((hr.ea.mem k.slot x).mpr ⟨k, hk, rfl⟩)
    rw [hlev2] at ht
    cases ht
  have hplain : ∀ x, ¬ ({ m with freePents := .null, freePentTables := .null }.doKfreeAny).IsPlain x := by
    rintro x ⟨_, hf, _⟩
    cases hf
  have hlv : ∀ q, m.IsHead q → g.lv q = [] := by
    intro q hq
    refine eq_nil_iff_forall_not_mem.mpr ?_
    intro y hy
    obtain ⟨k, hk⟩ := hr.ea_of_ring ((hr.lv.mem q y).mp hy)
    exact hno y k hk
  have hidle : ∀ q, m.IsHead q → g.role q = .idle := by
    intro q hq
    cases hrole : g.role q with
    | idle => rfl
    | free => exact absurd hrole (hr.lv.head q hq).2.1
    | limbo => exact absurd hrole (hr.settled q)
    | ea k => exact absurd hrole (hno q k)
  refine ⟨⟨?_, fun _ => nodup_nil, ?_, nofun, nofun, nofun⟩,
    ⟨?_, fun _ => nodup_nil, fun _ _ => iff_of_false nofun nofun, nofun, rfl, nodup_nil,
      fun _ => iff_of_false nofun nofun, ?_, fun x hx => absurd hx (hplain x),
      fun _ hx => absurd rfl hx, ?_⟩,
    ⟨rfl, nodup_nil, nofun, nofun, ?_, ?_, ?_⟩, nofun⟩
  · intro s
    unfold EaRing
    rw [hlev2']
    rfl
  · rintro s x
    exact iff_of_false nofun (by rintro ⟨_, hk, _⟩; cases hk)
  · intro q hq
    have hc := hr.lv.ring q hq
    rw [hlv q hq] at hc
    exact hc
  · intro q hq
    obtain ⟨h1, _, h3⟩ := hr.lv.head q hq
    exact ⟨h1, nofun, iff_of_true (h3.mpr (hidle q hq)) rfl⟩
  · rintro x (hh | hp)
    · exact hr.lv.bound x (.inl hh)
    · exact absurd hp (hplain x)
  · intro r i t ht
    rw [hlev2'] at ht
    cases ht
  · intro r i _ _ t ht
    rw [hlev2'] at ht
    cases ht
  · intro r i t ht
    rw [hlev2'] at ht
    cases ht

end MacOnLinux
