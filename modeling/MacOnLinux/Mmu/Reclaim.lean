import MacOnLinux.Mmu.Runs
import MacOnLinux.Mtable.Records

/-! # Reclaiming -/

namespace MacOnLinux.Mmu

open Skiplist Linked

variable {s s' : Mmu} {g g' : Rings} {v v' : SlMap} {ready : Bool}

/-- A reclaim that got the elements `visited` from the iterator. -/
structure Reclaimed (s s' : Mmu) (visited : List Nat) : Prop where
  once : visited.Nodup
  all : ∀ r, r ∈ visited ↔ Live s r
  tables : ∀ r i t, s.mt.lev2 r i = some t → s'.mt.lev2 r i = some t ∨
    s'.mt.lev2 r i = none ∧ ∀ j < 32, s.mt.eaNext (.slot t j) = .null
  entries : ∀ key < skiplistEnd, ∀ r, s.vsidEntLookup key = some (some r) →
    s'.vsidEntLookup key = some (some r) ∨
    s'.vsidEntLookup key = some none ∧ (∀ page sv index, ¬ s.mt.Recorded ⟨r, page, sv⟩ index) ∧
      (∀ i < 16, s.vsid i ≠ some r) ∧ 0 ≤ key ∧ key ≤ vsidMask
  noNew : ∀ key < skiplistEnd, s.vsidEntLookup key = some none → s'.vsidEntLookup key = some none
  recorded : ∀ k index, s'.mt.Recorded k index ↔ s.mt.Recorded k index
  pte0 : s'.mt.pte0 = s.mt.pte0
  pte1 : s'.pte1 = s.pte1

/-- The tables of the free list hold nothing but the link. -/
def CleanTables (m : Mtable) : Prop :=
  ∃ tabs : List Nat, Seg m.eaNext m.freePentTables (tabs.map (Ptr.slot · 0)) .null ∧ tabs.Nodup ∧
    ∀ t ∈ tabs, ∀ j, j ≠ 0 → m.eaNext (.slot t j) = .null

theorem cleanTables_of_rep {m : Mtable} (hr : MacOnLinux.Rep m g) : CleanTables m :=
  ⟨g.tabs, hr.tab.list, hr.tab.nodup, hr.tab.empty⟩

theorem recorded_iff {m : Mtable} (hr : MacOnLinux.Rep m g) {k : Key} {index : Nat} :
    m.Recorded k index ↔ ∃ x, g.role x = .ea k ∧ (m.pent x).index = index := by
  simp [Mtable.Recorded, records_iff hr]

section Shrunk

variable (h : Shrunk s g v s' g' v')

include h

theorem Shrunk.role (x : Ptr) (k : Key) : g'.role x = .ea k ↔ g.role x = .ea k := by
  rw [h.drops.role, and_iff_left (not_false)]

theorem Shrunk.no_record (hi' : Inv s' g' v') {r : Nat}
    (hr : r ∉ v'.live.map (·.2)) {x : Ptr} {k : Key} (hk : g.role x = .ea k) : k.r ≠ r := by
  rintro rfl
  have hx : x ∈ g'.ea k.slot := (hi'.rep.ea.mem _ _).mpr ⟨k, (h.role x k).mpr hk, rfl⟩
  obtain ⟨t, ht⟩ := hi'.rep.ea.lev2_of_mem hx
  exact hr (hi'.live _ _ _ ht)

theorem Shrunk.tables (hi : Inv s g v) (hi' : Inv s' g' v')
    {r i t : Nat} (ht : s.mt.lev2 r i = some t) : s'.mt.lev2 r i = some t ∨
      s'.mt.lev2 r i = none ∧ ∀ j < 32, s.mt.eaNext (.slot t j) = .null := by
  cases ht' : s'.mt.lev2 r i with
  | some t' =>
    rw [h.drops.lev2 r i t' ht'] at ht
    exact .inl ht
  | none =>
    refine .inr ⟨rfl, fun j _ => ?_⟩
    -- no record of the slot is left, so there was none before
    have hempty : g.ea (r, i, j) = [] := by
      refine List.eq_nil_iff_forall_not_mem.mpr fun x hx => ?_
      obtain ⟨k, hk, hks⟩ := (hi.rep.ea.mem _ _).mp hx
      have hx' : x ∈ g'.ea (r, i, j) := (hi'.rep.ea.mem _ _).mpr ⟨k, (h.role x k).mpr hk, hks⟩
      obtain ⟨t', ht''⟩ := hi'.rep.ea.lev2_of_mem hx'
      rw [ht'] at ht''
      cases ht''
    rw [hi.rep.ea.slot_eaNext (s := (r, i, j)) ht, hempty, List.headD_nil]

theorem Shrunk.entries (hi : Inv s g v) (hi' : Inv s' g' v')
    {key : Int} (hk : key < skiplistEnd) {r : Nat} (hl : s.vsidEntLookup key = some (some r)) :
    s'.vsidEntLookup key = some (some r) ∨
    s'.vsidEntLookup key = some none ∧ (∀ page sv index, ¬ s.mt.Recorded ⟨r, page, sv⟩ index) ∧
      (∀ i < 16, s.vsid i ≠ some r) ∧ 0 ≤ key ∧ key ≤ vsidMask := by
  rw [vsidEntLookup_spec hi hk, Option.some.injEq, lookup_eq_some hi.sl.sorted] at hl
  rw [vsidEntLookup_spec hi' hk]
  cases hl' : v'.lookup key with
  | some r' =>
    -- the entry of the key is an old one, and a key has one entry
    have hold := h.old _ ((lookup_eq_some hi'.sl.sorted).mp hl')
    rw [← lookup_eq_some hi.sl.sorted] at hold hl
    rw [hold] at hl
    exact .inl (congrArg some hl)
  | none =>
    have hnot : (key, r) ∉ v'.live := by
      intro hm
      rw [(lookup_eq_some hi'.sl.sorted).mpr hm] at hl'
      cases hl'
    have hgone : r ∉ v'.live.map (·.2) := by
      intro hm
      obtain ⟨p, hp, rfl⟩ := List.mem_map.mp hm
      have hkey : p.1 = key := by
        rw [← (hi.sl.keys p (h.old p hp)).1]
        exact (hi.sl.keys _ hl).1
      exact hnot (hkey ▸ hp)
    rcases h.live _ hl with hm | ⟨h0, hmask, hseg⟩
    · exact absurd hm hnot
    · refine .inr ⟨rfl, ?_, hseg, h0, hmask⟩
      intro page sv index hrec
      obtain ⟨x, hx, _⟩ := (recorded_iff hi.rep).mp hrec
      exact h.no_record hi' hgone hx rfl

theorem Shrunk.noNew (hi : Inv s g v) (hi' : Inv s' g' v')
    {key : Int} (hk : key < skiplistEnd) (hl : s.vsidEntLookup key = some none) :
    s'.vsidEntLookup key = some none := by
  rw [vsidEntLookup_spec hi hk] at hl
  rw [vsidEntLookup_spec hi' hk]
  cases hl' : v'.lookup key with
  | none => rfl
  | some r =>
    have hold := h.old _ ((lookup_eq_some hi'.sl.sorted).mp hl')
    rw [(lookup_eq_some hi.sl.sorted).mpr hold] at hl
    cases hl

theorem Shrunk.recorded (hi : Inv s g v) (hi' : Inv s' g' v') (k : Key)
    (index : Nat) : s'.mt.Recorded k index ↔ s.mt.Recorded k index := by
  rw [recorded_iff hi.rep, recorded_iff hi'.rep]
  constructor
  · rintro ⟨x, hx, hindex⟩
    exact ⟨x, (h.role x k).mp hx, by rw [← (h.drops.kept x k hx).1, hindex]⟩
  · rintro ⟨x, hx, hindex⟩
    have hx' := (h.role x k).mpr hx
    exact ⟨x, hx', by rw [(h.drops.kept x k hx').1, hindex]⟩

theorem Shrunk.pte0 : s'.mt.pte0 = s.mt.pte0 := by
  funext i
  rcases h.drops.pte0 i with hi | ⟨_, _, _, _, hfalse, _⟩
  · exact hi
  · exact hfalse.elim

end Shrunk

/-- A reclaim visits every entry once, and gives back only what nothing refers to. -/
theorem reclaim_invisible {sess : Nat} {ptegMask : Word} {pte0 pte1 : Nat → Word}
    (hrun : Run sess ptegMask pte0 pte1 s ready) :
    CleanTables s.mt ∧ ∃ s' visited, s.mtableReclaim = some s' ∧
      s.mtableReclaimTrace = some (s', visited) ∧ Reclaimed s s' visited ∧ CleanTables s'.mt := by
  obtain ⟨g, v, ⟨hi, _, _⟩, _⟩ := good_run hrun
  obtain ⟨s', g', v', hs', hi', hsh⟩ := mtableReclaimTrace_spec hi
  refine ⟨cleanTables_of_rep hi.rep, s', v.live.map (·.2), ?_, hs', ?_, cleanTables_of_rep hi'.rep⟩
  · rw [← mtableReclaimTrace_eq, hs', Option.map_some]
  exact {
    once := (List.nodup_append.mp hi.sl.nodup).1
    all := fun r => (live_iff hi).symm
    tables := fun r i t ht => hsh.tables hi hi' ht
    entries := fun key hk r hl => hsh.entries hi hi' hk hl
    noNew := fun key hk hl => hsh.noNew hi hi' hk hl
    recorded := hsh.recorded hi hi'
    pte0 := hsh.pte0
    pte1 := by rw [hsh.same] }

theorem reclaim_invisible_tracked : ∃ s s' : Mmu, ∃ visited : List Nat,
    Run 0 0xffc0 (fun _ => 0) (fun _ => 0) s false ∧ s.mtableReclaim = some s' ∧ Reclaimed s s' visited ∧
    s.mt.lev2 10 0 = some 0 ∧ s.vsidEntLookup 5 = some (some 10) ∧
    s'.mt.lev2 10 0 = none ∧ s'.vsidEntLookup 5 = some none := by
  have h1 := Run.step run_init
    (show Legal _ _ (.getVsid 5 true true (fun _ => false) fun _ => false) from
      (by decide : (5 : Int) < skiplistEnd)) rfl
  have h2 := Run.step h1 (show Legal _ _ (.memoryCheck true true) from trivial) rfl
  have h3 := Run.step h2 (show Legal _ _ (.pteInserted 0x1000 none 3 10 0) from
    ⟨rfl, ⟨5, by decide, rfl⟩, nofun⟩) rfl
  have h4 := Run.step h3 (show Legal _ _ (.flushEaRange 0x1000 0x1000) from ⟨by decide, by decide⟩) rfl
  obtain ⟨_, s', visited, hs', _, hre, _⟩ := reclaim_invisible h4
  refine ⟨_, s', visited, h4, hs', hre, rfl, rfl, ?_⟩
  rw [← Option.some.inj hs']
  exact ⟨rfl, rfl⟩

/-! ## A flush of a range -/

/-- The records of the pages `Q` went and their PTEs with them; the others stayed. -/
structure Flushed (Q : Key → Prop) (m m' : Mtable) : Prop where
  recorded : ∀ k index, m'.Recorded k index ↔ m.Recorded k index ∧ ¬ Q k
  zeroed : ∀ k index, m.Recorded k index → Q k → m'.pte0 index = 0
  pte0 : ∀ index, m'.pte0 index = m.pte0 index ∨ ∃ k, m.Recorded k index ∧ Q k

theorem flushed_of_drops {m m' : Mtable} {P : Ptr → Prop} {Q : Key → Prop} (hr : MacOnLinux.Rep m g)
    (hr' : MacOnLinux.Rep m' g') (hd : Drops P m g m' g') (hPQ : ∀ x k, g.role x = .ea k → (P x ↔ Q k)) :
    Flushed Q m m' := by
  refine ⟨fun k index => ?_, fun k index hrec hQ => ?_, fun index => ?_⟩
  · rw [recorded_iff hr, recorded_iff hr']
    constructor
    · rintro ⟨x, hx, rfl⟩
      obtain ⟨hold, hnot⟩ := (hd.role x k).mp hx
      exact ⟨⟨x, hold, (hd.kept x k hx).1.symm⟩, fun hQ => hnot ((hPQ x k hold).mpr hQ)⟩
    · rintro ⟨⟨x, hold, rfl⟩, hnot⟩
      have hx := (hd.role x k).mpr ⟨hold, fun hP => hnot ((hPQ x k hold).mp hP)⟩
      exact ⟨x, hx, (hd.kept x k hx).1⟩
  · obtain ⟨x, hx, rfl⟩ := (recorded_iff hr).mp hrec
    exact hd.zeroed x k hx ((hPQ x k hx).mpr hQ)
  · refine (hd.pte0 index).imp_right ?_
    rintro ⟨-, x, k, hx, hP, hindex⟩
    exact ⟨k, (recorded_iff hr).mpr ⟨x, hx, hindex⟩, (hPQ x k hx).mp hP⟩

/-- `flush_ea_range` drops the pages of the range, in every context and mode, and no others. -/
theorem flushEaRange_exact {sess : Nat} {ptegMask : Word} {pte0 pte1 : Nat → Word}
    (hrun : Run sess ptegMask pte0 pte1 s ready) {orgEa size : Nat} (hea : orgEa < 2 ^ 28) (hsize : size ≤ 2 ^ 28)
    (halign : orgEa % 4096 = 0) :
    ∃ mt, s.flushEaRange orgEa size = some { s with mt := mt } ∧ Flushed (PageIn orgEa (orgEa + size)) s.mt mt := by
  obtain ⟨g, v, h, _⟩ := good_run hrun
  obtain ⟨mt, g', P, hmt, hi, hd, honly, hall⟩ := flushEaRange_spec h.inv hea hsize
  exact ⟨mt, hmt, flushed_of_drops h.inv.rep hi.rep hd fun x k hx => ⟨honly x k hx, hall halign x k hx⟩⟩

theorem flushEaRange_exact_page : ∃ s mt, Run 0 0xffc0 (fun _ => 0) (fun _ => 0) s false ∧
    s.flushEaRange 0x1000 0x1000 = some { s with mt := mt } ∧ ∀ index, ¬ mt.Recorded ⟨10, 1, false⟩ index := by
  obtain ⟨s, hrun, -⟩ := run_insert
  have hea : 0x1000 < 2 ^ 28 := by decide
  obtain ⟨mt, hmt, hflushed⟩ := flushEaRange_exact hrun hea hea.le rfl
  exact ⟨s, mt, hrun, hmt, fun i hrec => ((hflushed.recorded _ i).mp hrec).2 ⟨0x1000, by decide, by decide, rfl⟩⟩

end MacOnLinux.Mmu
