import MacOnLinux.Mmu.Runs
import MacOnLinux.Mtable.Partial
import MacOnLinux.Mtable.Records

/-! # Partial addresses over a run -/

namespace MacOnLinux.Mmu

open Skiplist Linked Option List Function

variable {s s' : Mmu} {g g' : Rings} {v v' : SlMap} {ready ready' : Bool}

variable {r : Option Nat} {op : Op} {last : Ptr → Option Nat}

/-! ## Histories -/

/-- The address given to the `pte_inserted` that last inserted a record. -/
def noteInsert (s s' : Mmu) (last : Ptr → Option Nat) : Op → Ptr → Option Nat
  | .pteInserted ea lv _ r segreg =>
    if lv.isSome ∧ s.lvptrReservationLost then last
    else match s'.mt.recordOf r ea (s.usesSv r segreg) with
      | some x => update last x (some ea)
      | none => last
  | _ => last

inductive History (sess : Nat) (ptegMask : Word) (pte0 pte1 : Nat → Word) :
    Mmu → Bool → (Ptr → Option Nat) → Prop where
  | init : sess < maxNumSessions →
      History sess ptegMask pte0 pte1 (Mmu.init sess ptegMask pte0 pte1) false fun _ => none
  | step {s s' : Mmu} {ready ready' : Bool} {last : Ptr → Option Nat} {op : Op} :
      History sess ptegMask pte0 pte1 s ready last → Legal s ready op →
      exec s ready op = some (s', ready') →
      History sess ptegMask pte0 pte1 s' ready' (noteInsert s s' last op)

def Noted (g : Rings) (last : Ptr → Option Nat) : Prop :=
  ∀ x k, g.role x = .ea k → ∃ ea, last x = some ea ∧ pageOf ea = k.page

theorem Noted.step (h : Noted g last) (hr' : MacOnLinux.Rep s'.mt g') (heff : Effect s g g' op) :
    Noted g' (noteInsert s s' last op) := by
  intro x k hk
  cases op with
  | pteInserted ea lv index r segreg =>
    simp only [noteInsert]
    by_cases hlost : lv.isSome = true ∧ s.lvptrReservationLost = true
    · rw [if_pos hlost]
      rcases heff x k hk with hold | ⟨_, hnot⟩
      · exact h x k hold
      · exact absurd hlost hnot
    rw [if_neg hlost]
    by_cases hkey : k = ⟨r, pageOf ea, s.usesSv r segreg⟩
    · subst hkey
      rw [recordOf_of_role hr' hk]
      exact ⟨ea, update_self .., rfl⟩
    -- another page: its record was there before, and the search finds a different one
    have hold : g.role x = .ea k := (heff x k hk).resolve_right fun hh => hkey hh.1
    cases hy : s'.mt.recordOf r ea (s.usesSv r segreg) with
    | none => exact h x k hold
    | some y =>
      have hxy : x ≠ y := by
        rintro rfl
        rcases role_of_recordOf hr' hy with hnull | hrole
        · exact hr'.lv.ne_null (hr'.lv.owned x (by simp [hk])) hnull
        · rw [hk] at hrole
          exact hkey (Role.ea.inj hrole)
      obtain ⟨ea', hlast, hpage⟩ := h x k hold
      exact ⟨ea', by rw [← hlast]; exact update_of_ne hxy .., hpage⟩
  | _ => exact h x k (heff x k hk)

theorem good_history {sess : Nat} {ptegMask : Word} {pte0 pte1 : Nat → Word}
    (hrun : History sess ptegMask pte0 pte1 s ready last) :
    ∃ g v, Good s ready g v ∧ Noted g last := by
  induction hrun with
  | init hs =>
    obtain ⟨g, v, h⟩ := good_init hs ptegMask pte0 pte1
    have hnone : ∀ x k, g.role x ≠ .ea k := by
      intro x k hk
      obtain ⟨t, ht⟩ := h.inv.rep.ea.lev2_of_mem ((h.inv.rep.ea.mem k.slot x).mpr ⟨k, hk, rfl⟩)
      cases ht
    exact ⟨g, v, h, fun x k hk => absurd hk (hnone x k)⟩
  | step _ hl hexec ih =>
    obtain ⟨g, v, h, hn⟩ := ih
    obtain ⟨s', ready', g', v', hexec', h', _, heff⟩ := good_step h hl
    rw [hexec] at hexec'
    cases hexec'
    exact ⟨g', v', h', hn.step h'.inv.rep heff⟩

/-- The calls of `tlbie` in `pent_flush_unlink_ea`, with the record each is for. -/
def calls (L : Layout) (s s' : Mmu) : List (Ptr × Nat) :=
  (s'.mt.tlbied.drop s.mt.tlbied.length).map fun c => (c.pr, L.tlbie c)

def tlbies (L : Layout) (s : Mmu) : Op → Option (List (Ptr × Nat))
  | .flushLvptr lvptr => (s.flushLvptr lvptr).map (s.calls L)
  | .flushLvRange lvbase size => (s.withMt (·.flushLvRange lvbase size)).map (s.calls L)
  | .freeLvrange lvr => (s.withMt (·.freeLvrange lvr)).map (s.calls L)
  | _ => some []

theorem calls_noted (L : Layout) (hn : Noted g last) (h : Invalidated s.mt g s'.mt) :
    ∀ c ∈ s.calls L s', ∃ ea, last c.1 = some ea ∧ c.2 / 2 ^ 12 % 2 ^ 6 = ea / 2 ^ 12 % 2 ^ 6 := by
  obtain ⟨cs, hcs, hof⟩ := h
  rw [calls, hcs, drop_left]
  intro c hc
  obtain ⟨d, hd, rfl⟩ := mem_map.mp hc
  obtain ⟨k, hk, hof⟩ := hof d hd
  obtain ⟨ea, hlast, hpage⟩ := hn d.pr k hk
  refine ⟨ea, hlast, ?_⟩
  have hlow := hof.low L
  unfold pageOf at hpage
  omega

theorem tlbie_exact (L : Layout) {sess : Nat} {ptegMask : Word} {pte0 pte1 : Nat → Word}
    {last : Ptr → Option Nat} (hrun : History sess ptegMask pte0 pte1 s ready last) (op : Op) :
    ∃ calls, s.tlbies L op = some calls ∧ ∀ c ∈ calls, ∃ ea, last c.1 = some ea ∧
      c.2 / 2 ^ 12 % 2 ^ 6 = ea / 2 ^ 12 % 2 ^ 6 := by
  obtain ⟨g, v, h, hn⟩ := good_history hrun
  cases op with
  | flushLvptr lvptr =>
    obtain ⟨mt, g', hmt, _, hd⟩ := flushLvptr_spec h.inv lvptr
    exact ⟨_, by rw [tlbies, hmt, map_some], calls_noted L hn hd.tlbies⟩
  | flushLvRange lvbase size =>
    obtain ⟨mt, g', hmt, _, hd⟩ := flushLvRange_spec h.inv lvbase size
    exact ⟨_, by rw [tlbies, hmt, map_some], calls_noted L hn hd.tlbies⟩
  | freeLvrange lvr =>
    by_cases hl : lvr ∈ s.mt.lvranges
    · obtain ⟨mt, g', hmt, _, hd, _⟩ := freeLvrange_spec h.inv h.ranges hl
      exact ⟨_, by rw [tlbies, hmt, map_some], calls_noted L hn hd.tlbies⟩
    · refine ⟨[], ?_, fun c hc => by cases hc⟩
      simp only [tlbies, withMt, Mtable.freeLvrange, if_neg hl, map_some, calls, drop_length,
        map_nil]
  | _ => exact ⟨[], rfl, fun c hc => by cases hc⟩

/-- A page at 0x23000 is inserted, and its host page is swapped out. -/
theorem tlbie_exact_swap : ∃ s last, History 0 0xffc0 (fun _ => 0) (fun _ => 0) s false last ∧
    s.tlbies Layout.flat (.flushLvptr 0x5000) = some [(.pterec 0, 0x23000)] ∧
    ∃ ea, last (.pterec 0) = some ea ∧ 0x23000 / 2 ^ 12 % 2 ^ 6 = ea / 2 ^ 12 % 2 ^ 6 := by
  have h0 : History 0 0xffc0 (fun _ => 0) (fun _ => 0) (Mmu.init 0 0xffc0 (fun _ => 0) fun _ => 0) false
    fun _ => none := .init (by decide)
  have h1 := History.step h0 (show Legal _ _ (.registerLvrange 0x5000 0x1000) from
    ⟨by decide, fun lvr hl => by cases hl⟩) rfl
  have h2 := History.step h1
    (show Legal _ _ (.getVsid 5 true true (fun _ => false) fun _ => false) from
      (by decide : (5 : Int) < skiplistEnd)) rfl
  have h3 := History.step h2 (show Legal _ _ (.memoryCheck true true) from trivial) rfl
  have h4 := History.step h3
    (show Legal _ _ (.pteInserted 0x23000 (some (⟨0, 0x5000, 0x1000⟩, 0x5000)) 3 10 0) from
      ⟨rfl, ⟨5, by decide, rfl⟩, by rintro l ⟨⟩; exact ⟨by decide, by decide⟩⟩) rfl
  obtain ⟨calls, hcalls, hexact⟩ := tlbie_exact Layout.flat h4 (.flushLvptr 0x5000)
  have hval : calls = [(.pterec 0, 0x23000)] := some.inj (hcalls.symm.trans rfl)
  refine ⟨_, _, h4, by rw [hcalls, hval], ?_⟩
  exact hexact (.pterec 0, 0x23000) (by rw [hval]; exact mem_singleton_self _)

end MacOnLinux.Mmu
