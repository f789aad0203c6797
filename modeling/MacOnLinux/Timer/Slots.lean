import MacOnLinux.Timer.Moves
import Mathlib.Data.List.Nodup

/-! # Slots and ids

An id is its slot's number and how often the slot was used, so it comes back after 2^24 uses only.
-/

namespace MacOnLinux.Timer

open Function List Option State
open Linked (Chain)

variable {s s' s1 u : State} {L L' L1 : Lists} {hand : List Slot} {k : Part} {W : List Slot}
variable {o t x y : Slot} {e e' : Entry} {id : Word} {now : Nat} {c : Call}

/-! ## Entries -/

structure Fit (o x : Slot) (e : Entry) : Prop where
  id : e.id = BitVec.ofNat 32 (256 * e.uses + x.val + 1)
  client : x ≠ o → e.handler ≠ .overflow
  overflow : x = o → e.uses = 1 ∧ e.periodic = true ∧ e.autoresume = true ∧ e.overflow = false ∧
    e.handler = .overflow

theorem Fit.keep (h : Fit o x e) (hne : x ≠ o) (hid : e'.id = e.id) (huses : e'.uses = e.uses)
    (hf : e'.handler = e.handler) : Fit o x e' := by
  refine ⟨?_, ?_, fun he => absurd he hne⟩
  · rw [hid, huses]
    exact h.id
  · rw [hf]
    exact h.client

theorem Fit.renew (h : Fit o x e) (hne : x ≠ o) {f : Handler} (hf : f ≠ .overflow) (p a : Bool) :
    Fit o x (e.renew f p a) := by
  refine ⟨?_, fun _ => hf, fun he => absurd he hne⟩
  show e.id + 0x100 = BitVec.ofNat 32 (256 * (e.uses + 1) + x.val + 1)
  rw [h.id, show 256 * (e.uses + 1) + x.val + 1 = 256 * e.uses + x.val + 1 + 0x100 by omega]
  exact (BitVec.ofNat_add ..).symm

/-- Two slots have different ids, and one slot has the same id only after 2^24 uses. -/
theorem Fit.id_eq (h : Fit o x e) (h' : Fit o y e') (heq : e.id = e'.id) :
    x = y ∧ e.uses % 2 ^ 24 = e'.uses % 2 ^ 24 := by
  rw [h.id, h'.id] at heq
  have heq := congrArg BitVec.toNat heq
  rw [BitVec.toNat_ofNat, BitVec.toNat_ofNat] at heq
  refine ⟨Fin.ext ?_, ?_⟩
  · omega
  · omega

structure Sound (s : State) (L : Lists) (hand : List Slot) : Prop where
  laid : Laid s L hand
  zero : s.overflow = 0
  fit : ∀ x, Fit s.overflow x (s.entry x)

theorem Sound.replace (h : Sound s L hand) {hand' : List Slot} (hlaid : Laid s' L' hand')
    (hover : s'.overflow = s.overflow)
    (hfit : ∀ y, s'.entry y = s.entry y ∨ Fit s.overflow y (s'.entry y)) : Sound s' L' hand' := by
  refine ⟨hlaid, hover.trans h.zero, fun y => ?_⟩
  rw [hover]
  rcases hfit y with he | hfit
  · rw [he]
    exact h.fit y
  · exact hfit

theorem Sound.overflow_id (h : Sound s L hand) : (s.entry s.overflow).id = 0x101 := by
  have hfit := h.fit s.overflow
  rw [hfit.id, (hfit.overflow rfl).1, h.zero]
  rfl

/-! ## Uses -/

/-- No slot was used less often, and one that is no longer free was used once more. -/
def Grown (s : State) (L : Lists) (s' : State) (L' : Lists) : Prop :=
  ∀ x, (s.entry x).uses ≤ (s'.entry x).uses ∧
    (x ∈ L .free → x ∈ L' .free ∨ (s.entry x).uses < (s'.entry x).uses)

theorem Grown.refl (s : State) (L : Lists) : Grown s L s L :=
  fun _ => ⟨le_refl _, fun hx => .inl hx⟩

theorem Grown.trans (h : Grown s L s1 L1) (h' : Grown s1 L1 s' L') : Grown s L s' L' := by
  intro x
  refine ⟨le_trans (h x).1 (h' x).1, fun hx => ?_⟩
  rcases (h x).2 hx with hx | hlt
  · exact ((h' x).2 hx).imp_right (lt_of_le_of_lt (h x).1)
  · exact .inr (lt_of_lt_of_le hlt (h' x).1)

theorem Grown.of_uses (huses : ∀ x, (s'.entry x).uses = (s.entry x).uses)
    (hfree : ∀ x ∈ L .free, x ∈ L' .free) : Grown s L s' L' :=
  fun x => ⟨le_of_eq (huses x).symm, fun hx => .inl (hfree x hx)⟩

/-! ## One timer is moved -/

theorem Sound.write (h : Sound s L []) (htaken : Taken s L k x s1 L1) (hfit : Fit s.overflow x e) :
    Sound (s1.setEntry x e) L1 [x] := by
  refine h.replace (htaken.laid.setEntry x e) htaken.overflow fun y => ?_
  rw [setEntry, htaken.entry]
  by_cases hy : y = x
  · subst hy
    simp only [update_self]
    exact .inr hfit
  · simp only [update_of_ne hy]
    exact .inl trivial

theorem Sound.insert (h : Sound s L (t :: hand)) :
    ∃ s' L', insertTimer s t = some s' ∧ Sound s' L' hand ∧
      (∀ x, (s'.entry x).uses = (s.entry x).uses ∧ (s'.entry x).id = (s.entry x).id) ∧
      L' .free = L .free := by
  obtain ⟨k, xs, ys, s', f, hk, -, hins, hlaid, hs'⟩ := h.laid.insert
  have hne : t ≠ s.overflow := h.laid.hand_ne mem_cons_self
  have hother : ∀ x, x ≠ t → s'.entry x = s.entry x := by
    intro x hx
    rw [hs']
    exact update_of_ne hx _ _
  have hself : s'.entry t = { s.entry t with overflow := f } := by
    rw [hs']
    exact update_self ..
  refine ⟨s', _, hins, h.replace hlaid (by rw [hs']) fun y => ?_, fun x => ?_, update_of_ne hk.symm _ _⟩
  · by_cases hy : y = t
    · subst hy
      rw [hself]
      exact .inr ((h.fit y).keep hne rfl rfl rfl)
    · exact .inl (hother y hy)
  by_cases hx : x = t
  · subst hx
    rw [hself]
    exact ⟨rfl, rfl⟩
  · rw [hother x hx]
    exact ⟨rfl, rfl⟩

def Follows (s : State) (L : Lists) (s' : State) : Prop := ∃ L', Sound s' L' [] ∧ Grown s L s' L'

theorem Sound.moved (h : Sound s L []) (htaken : Taken s L k x s1 L1) (hk : k ≠ .free) (k' : Part) :
    Follows s L (s1.link (s1.headCell k') x) := by
  have hentry : (s1.link (s1.headCell k') x).entry = s.entry := htaken.entry
  refine ⟨_, h.replace (htaken.laid.push k') htaken.overflow fun y => .inl (congrFun hentry y),
    .of_uses (fun y => ?_) fun y hy => ?_⟩
  · rw [hentry]
  rw [← htaken.other hk.symm] at hy
  by_cases hfree : k' = .free
  · subst hfree
    exact mem_cons_of_mem _ hy
  · rw [update_of_ne (Ne.symm hfree)]
    exact hy

theorem Sound.marked (h : Sound s L []) (htaken : Taken s L k x s1 L1) (hk : k ≠ .free)
    (he : e.id = (s.entry x).id ∧ e.uses = (s.entry x).uses ∧ e.handler = (s.entry x).handler)
    (hins : insertTimer (s1.setEntry x e) x = some s') : Follows s L s' := by
  have hfit : Fit s.overflow x e := (h.fit x).keep htaken.ne_overflow he.1 he.2.1 he.2.2
  obtain ⟨s2, L', hins', hsound, huses, hfree⟩ := (h.write htaken hfit).insert
  cases hins'.symm.trans hins
  refine ⟨L', hsound, .of_uses (fun y => ?_) fun y hy => ?_⟩
  · rw [(huses y).1, setEntry, htaken.entry]
    by_cases hy : y = x
    · subst hy
      simp only [update_self]
      exact he.2.1
    · simp [update_of_ne hy]
  · rw [hfree, htaken.other hk.symm]
    exact hy

theorem Grown.of_taken (htaken : Taken s L .free t s1 L1) (he : (s.entry t).uses < e.uses)
    (huses : ∀ x, (s'.entry x).uses = ((s1.setEntry t e).entry x).uses)
    (hfree : L' .free = L1 .free) : Grown s L s' L' := by
  intro x
  rw [huses, setEntry, htaken.entry, hfree]
  by_cases hx : x = t
  · subst hx
    simp only [update_self]
    exact ⟨le_of_lt he, fun _ => .inr he⟩
  · simp only [update_of_ne hx]
    refine ⟨le_refl _, fun hm => .inl ?_⟩
    rcases htaken.mem_or hm with hm | ⟨-, he⟩
    · exact hm
    · exact absurd he hx

/-! ## The calls -/

variable {lost : Int}

def Issued (id : Word) (s' : State) (L' : Lists) : Prop :=
  id = 0 ∨ ∃ t, t ∉ L' .free ∧ (s'.entry t).id = id

section Calls

variable (h : Sound s L [])

include h

theorem Sound.absTimer {mark tag : Nat} (hcall : absTimer s mark tag = some (id, s')) :
    ∃ L', Sound s' L' [] ∧ Grown s L s' L' ∧ Issued id s' L' := by
  rcases h.laid.absTimer_cases mark tag with hnone | ⟨t, s1, L1, e, htaken, rfl, hcase⟩
  · cases hnone.symm.trans hcall
    exact ⟨L, h, .refl s L, .inl rfl⟩
  have hfit := (h.fit t).renew htaken.ne_overflow (show Handler.client tag ≠ _ from nofun) false false
  have hfit : Fit s.overflow t { (s.entry t).renew (.client tag) false false with mark := mark } :=
    hfit.keep htaken.ne_overflow rfl rfl rfl
  obtain ⟨s2, L', hins, hsound, huses, hfree⟩ := (h.write htaken hfit).insert
  rw [hcase, hins] at hcall
  cases hcall
  refine ⟨L', hsound, .of_taken htaken (Nat.lt_succ_self _) (fun x => (huses x).1) hfree,
    .inr ⟨t, ?_, ?_⟩⟩
  · rw [hfree]
    exact htaken.laid.hand_notMem mem_cons_self .free
  · rw [(huses t).2]
    simp only [setEntry, update_self]

theorem Sound.newPtimer (tag : Nat) (a : Bool) :
    ∃ L', Sound (newPtimer s (.client tag) a).2 L' [] ∧ Grown s L (newPtimer s (.client tag) a).2 L' ∧
      Issued (newPtimer s (.client tag) a).1 (newPtimer s (.client tag) a).2 L' := by
  rcases h.laid.newPtimer_cases (.client tag) a with hnone | ⟨t, s1, L1, htaken, hcase⟩
  · rw [hnone]
    exact ⟨L, h, .refl s L, .inl rfl⟩
  rw [hcase]
  have hfit := (h.fit t).renew htaken.ne_overflow (show Handler.client tag ≠ _ from nofun) true a
  have hwrite := h.write htaken hfit
  have hlaid := hwrite.laid.push .inactive
  refine ⟨_, hwrite.replace hlaid rfl fun y => .inl rfl,
    .of_taken htaken (Nat.lt_succ_self _) (fun _ => rfl) rfl, .inr ⟨t, ?_, ?_⟩⟩
  · exact htaken.laid.hand_notMem mem_cons_self .free
  · simp only [link, setNext, setEntry, update_self]

theorem Sound.dequeued {r : Option State} (k' : Part) (hcases : Moved s L k' r) (hcall : r = some s') :
    Follows s L s' := by
  rcases hcases with hnone | ⟨k, x, s1, L1, hk, htaken, hcase⟩
  · cases hnone.symm.trans hcall
    exact ⟨L, h, .refl s L⟩
  · cases hcase.symm.trans hcall
    exact h.moved htaken hk k'

theorem Sound.setPtimer (hid : (s.entry s.overflow).id ≠ id) {uperiod : Nat}
    (hcall : setPtimer s now id uperiod = some s') : Follows s L s' := by
  rcases h.laid.setPtimer_cases hid uperiod with hnone | ⟨k, x, s1, L1, n, hk, htaken, -, -, hcase⟩
  · cases hnone.symm.trans hcall
    exact ⟨L, h, .refl s L⟩
  · refine h.marked htaken hk ?_ (hcase.symm.trans hcall)
    exact ⟨rfl, rfl, rfl⟩

theorem Sound.resumePtimer (hid : (s.entry s.overflow).id ≠ id)
    (hcall : resumePtimer s now id = some (lost, s')) : Follows s L s' := by
  rcases h.laid.resumePtimer_cases hid hcall with rfl | ⟨k, x, s1, L1, n, m, hk, htaken, -, -, hins⟩
  · exact ⟨L, h, .refl _ L⟩
  · refine h.marked htaken hk ?_ hins
    exact ⟨rfl, rfl, rfl⟩

omit h in
theorem Sound.congr (h : Sound s L hand) (hnext : s'.next = s.next) (hover : s'.overflow = s.overflow)
    (hentry : s'.entry = s.entry) : Sound s' L hand :=
  h.replace (h.laid.congr hnext hover) hover fun y => .inl (congrFun hentry y)

theorem Sound.fire (ht : t ∈ (L .active ++ [s.overflow]).head?)
    (hcall : fire s now t = some s') : Follows s L s' := by
  cases hactive : L .active with
  | nil =>
    rw [hactive] at ht
    cases some.inj ht
    obtain ⟨huses, hp, ha, hflag, hf⟩ := (h.fit s.overflow).overflow rfl
    obtain ⟨xs, ys, n, m, -, -, hs', hlaid⟩ := h.laid.fire_overflow hactive hp ha hf hcall
    have hentry : ∀ y, s'.entry y =
        update s.entry s.overflow { s.entry s.overflow with mark := m } y := by
      intro y
      rw [hs']
    refine ⟨_, h.replace hlaid (by rw [hs']) fun y => ?_, .of_uses (fun y => ?_) fun y hy => hy⟩
    · rw [hentry]
      by_cases hy : y = s.overflow
      · subst hy
        rw [update_self]
        exact .inr ⟨(h.fit s.overflow).id, fun he => absurd rfl he, (h.fit s.overflow).overflow⟩
      · rw [update_of_ne hy]
        exact .inl rfl
    · rw [hentry]
      by_cases hy : y = s.overflow
      · subst hy
        rw [update_self]
      · rw [update_of_ne hy]
  | cons t' A =>
    rw [hactive] at ht
    cases some.inj ht
    have hne : t ≠ s.overflow := by
      rintro rfl
      exact h.laid.overflow_notMem .active (hactive ▸ mem_cons_self)
    obtain ⟨s1, L1, htaken, hcase⟩ := h.laid.fire_cases hactive ((h.fit t).client hne)
    have hfalse : Sound { s with pending := false } L [] := h.congr rfl rfl rfl
    have hk : Part.active ≠ .free := Part.noConfusion
    rw [hcase] at hcall
    split at hcall
    · split at hcall
      · obtain ⟨⟨l, s2⟩, hrecalc, hins⟩ := bind_eq_some_iff.mp hcall
        obtain ⟨n, m, -, rfl⟩ := recalcPtimer_cases hrecalc
        refine hfalse.marked htaken hk ?_ hins
        rw [htaken.entry]
        exact ⟨rfl, rfl, rfl⟩
      · cases hcall
        exact hfalse.moved htaken hk .inactive
    · cases hcall
      exact hfalse.moved htaken hk .free

theorem Sound.rvecTimer {later : Nat} (hcall : rvecTimer s now later = some s') : Follows s L s' := by
  obtain ⟨t, ht, -, hcase⟩ := h.laid.rvecTimer_cases
  rw [hcase] at hcall
  split at hcall
  · cases hcall
    exact ⟨L, h.congr rfl rfl rfl, .refl s L⟩
  · exact h.fire ht hcall

theorem Sound.overflowHandler (hcall : overflowHandler s = some s') : Follows s L s' := by
  have hflag := ((h.fit s.overflow).overflow rfl).2.2.2.1
  obtain ⟨s1, L1, hand, hcase, hlaid, hs1, -, -, -, hfree, -⟩ := h.laid.overflowHandler_cases hflag
  have hentry : s1.entry = s.entry := by rw [hs1]
  have hsound : Sound s1 L1 hand :=
    h.replace hlaid (by rw [hs1]) fun y => .inl (congrFun hentry y)
  have hgrown : Grown s L s1 L1 := by
    refine .of_uses (fun x => by rw [hentry]) fun x hx => ?_
    rw [hfree]
    exact hx
  -- one round puts one timer of the chain back
  obtain ⟨s2, L2, hall, hsound, hgrown⟩ := insertAll_keeps
    (P := fun s' L' hand => Sound s' L' hand ∧ Grown s L s' L')
    (fun s1 L1 t hand ⟨h1, hgrown⟩ => by
      have hne := h1.laid.hand_ne (mem_cons_self : t ∈ t :: hand)
      have hclear : Sound (s1.setEntry t { s1.entry t with overflow := false }) L1 (t :: hand) := by
        refine h1.replace (h1.laid.setEntry _ _) rfl fun y => ?_
        by_cases hy : y = t
        · subst hy
          simp only [setEntry, update_self]
          exact .inr ((h1.fit y).keep hne rfl rfl rfl)
        · simp only [setEntry, update_of_ne hy]
          exact .inl trivial
      obtain ⟨s2, L2, hins, h2, huses, hfree⟩ := hclear.insert
      refine ⟨s2, L2, hins, h2, hgrown.trans (.of_uses (fun x => ?_) fun x hx => ?_)⟩
      · rw [(huses x).1]
        by_cases hx : x = t
        · subst hx
          simp only [setEntry, update_self]
        · simp only [setEntry, update_of_ne hx]
      · rw [hfree]
        exact hx) ⟨hsound, hgrown⟩
  rw [hcase] at hcall
  cases hall.symm.trans hcall
  exact ⟨L2, hsound, hgrown⟩

/-! ## Runs -/

def Call.named : Call → Option Word
  | .cancelTimer id => some id
  | .setPtimer id _ => some id
  | .pausePtimer id => some id
  | .resumePtimer id => some id
  | .freePtimer id => some id
  | _ => none

def issued (s : State) (now : Nat) (c : Call) : Word :=
  let s := { s with time := c.until now }
  match c with
  | .tickTimer ticks tag => ((tickTimer s now ticks tag).map Prod.fst).getD 0
  | .usecTimer usecs tag => ((usecTimer s now usecs tag).map Prod.fst).getD 0
  | .newPtimer tag autoResume => (newPtimer s (.client tag) autoResume).1
  | _ => 0

theorem step_sound (hnamed : c.named ≠ some 0x101) (hstep : step s now c = some s') :
    ∃ L', Sound s' L' [] ∧ Grown s L s' L' ∧ Issued (issued s now c) s' L' := by
  have h : Sound { s with time := c.until now } L [] := h.congr rfl rfl rfl
  have hid : ∀ {id}, c.named = some id → (s.entry s.overflow).id ≠ id := by
    rintro id hc rfl
    exact hnamed (hc.trans (congrArg some h.overflow_id))
  have hplain : ∀ {c : Call}, Follows s L s' → issued s now c = 0 →
      ∃ L', Sound s' L' [] ∧ Grown s L s' L' ∧ Issued (issued s now c) s' L' := by
    rintro c ⟨L', hsound, hgrown⟩ hzero
    exact ⟨L', hsound, hgrown, .inl hzero⟩
  unfold step at hstep
  cases c with
  | tickTimer ticks tag | usecTimer usecs tag =>
    obtain ⟨⟨id, s1⟩, hcall, rfl⟩ := map_eq_some_iff.mp hstep
    unfold issued
    dsimp only at hcall ⊢
    rw [hcall]
    exact h.absTimer hcall
  | cancelTimer id => exact hplain (h.dequeued .free (h.laid.cancelTimer_cases (hid rfl)) hstep) rfl
  | newPtimer tag autoResume =>
    cases hstep
    exact h.newPtimer tag autoResume
  | setPtimer id uperiod => exact hplain (h.setPtimer (hid rfl) hstep) rfl
  | pausePtimer id => exact hplain (h.dequeued .inactive (h.laid.pausePtimer_cases (hid rfl)) hstep) rfl
  | resumePtimer id =>
    obtain ⟨⟨lost, s1⟩, hcall, rfl⟩ := map_eq_some_iff.mp hstep
    exact hplain (h.resumePtimer (hid rfl) hcall) rfl
  | freePtimer id => exact hplain (h.dequeued .free (h.laid.freePtimer_cases (hid rfl)) hstep) rfl
  | rvecTimer lag =>
    dsimp only at hstep
    split at hstep
    · cases hstep
    · exact hplain (h.rvecTimer hstep) rfl
  | overflowHandler =>
    dsimp only at hstep
    split at hstep
    · exact hplain (h.overflowHandler hstep) rfl
    · cases hstep

theorem run_sound {calls : List (Nat × Call)}
    (hnamed : ∀ call ∈ calls, call.2.named ≠ some 0x101) (hrun : run s calls = some s') : Follows s L s' := by
  induction calls generalizing s L with
  | nil =>
    cases hrun
    exact ⟨L, h, .refl _ L⟩
  | cons call calls ih =>
    obtain ⟨s1, hstep, hrun⟩ := bind_eq_some_iff.mp hrun
    obtain ⟨L1, h1, hgrown1, -⟩ := step_sound h (hnamed call mem_cons_self) hstep
    obtain ⟨L', h', hgrown'⟩ := ih h1 (forall_mem_cons.mp hnamed).2 hrun
    exact ⟨L', h', hgrown1.trans hgrown'⟩

end Calls

/-! ## The start -/

def initLists : Lists
  | .free => (List.finRange 16).tail
  | _ => []

theorem timerInit_links (tbFreq now : Nat) : ∃ s, timerInit tbFreq now = some s ∧ Laid s initLists [] ∧
      s.overflow = 0 ∧ s.tbFreq = tbFreq ∧ s.pending = false ∧ s.time = now ∧ s.last = now ∧
      s.entry = update
        (fun i => ⟨0, false, false, false, 0, BitVec.ofNat 32 (i.val + 1), .client 0, 0⟩) 0
        ⟨(now + TIMER_MAX) % 2 ^ 64, true, false, true, TIMER_MAX, 0x101, .overflow, 1⟩ := by
  -- what `set_ptimer_ticks` gives to `insert_timer`
  let next : Cell → Cell := update (update (update
    initLinks .free (.slot 1)) (.slot 0) .null) .inactive (.slot 0)
  let s : State := {
    next := next
    entry := update
      (fun i => ⟨0, false, false, false, 0, BitVec.ofNat 32 (i.val + 1), .client 0, 0⟩) 0
      ⟨(now + TIMER_MAX) % 2 ^ 64, true, false, true, TIMER_MAX, 0x101, .overflow, 1⟩
    overflow := 0, tbFreq := tbFreq, pending := false, time := now, last := now }
  have hstart : timerInit tbFreq now = insertTimer s 0 := by
    unfold timerInit setPtimerTicks
    simp only [newPtimer, newTimer, initLinks, setNext, setEntry, link,
      update_self, update_idem]
    rfl
  refine ⟨s.link .active 0, ?_, ⟨fun k => ?_, ?_⟩, rfl, rfl, rfl, rfl, rfl, rfl⟩
  · have hnear : ¬s.isFar 0 = true := by
      rw [isFar_overflow]
      decide
    rw [hstart, insertTimer, if_neg hnear]
    rfl
  · cases k with
    | active | inactive | parked => exact rfl
    | free => exact ⟨rfl, rfl, rfl, rfl, rfl, rfl, rfl, rfl, rfl, rfl, rfl, rfl, rfl, rfl, rfl, rfl⟩
  · show List.Perm (0 :: ([] ++ initLists.all)) (finRange 16)
    decide

theorem timerInit_sound (tbFreq now : Nat) :
    ∃ s, timerInit tbFreq now = some s ∧ Sound s initLists [] := by
  obtain ⟨s, hinit, hlaid, hover, -, -, -, -, hentry⟩ := timerInit_links tbFreq now
  refine ⟨s, hinit, hlaid, hover, fun x => ?_⟩
  rw [hentry, hover]
  by_cases hx : x = 0
  · subst hx
    exact ⟨rfl, fun he => absurd rfl he, fun _ => ⟨rfl, rfl, rfl, rfl, rfl⟩⟩
  · rw [update_of_ne hx]
    exact ⟨by simp, fun _ => nofun, fun he => absurd he hx⟩

/-! ## What the lists hold -/

theorem collect_of_chain {next : Cell → Cell} {c : Cell} {n : Nat}
    (h : Chain next c (W.map .slot) .null) (hn : W.length < n) : collect next n (next c) = some W := by
  induction W generalizing c n with
  | nil =>
    obtain _ | n := n
    · cases hn
    have hnext : next c = .null := h
    rw [hnext]
    rfl
  | cons x W ih =>
    obtain _ | n := n
    · cases hn
    obtain ⟨hnext, h⟩ := Linked.chain_cons.mp h
    rw [hnext, collect, ih h (by simpa using hn)]
    rfl

theorem Laid.list_open (h : Laid s L []) (hk : k.isOpen) :
    s.list (s.headCell k) = some (L k ++ s.overflow :: L .parked) := by
  refine collect_of_chain (h.walk hk) ?_
  rw [← length_map (f := Cell.slot)]
  exact h.walk_length hk

theorem Laid.list_free (h : Laid s L []) : s.list .free = some (L .free) := by
  refine collect_of_chain (h.chain .free) ?_
  have hlen := h.perm.length_eq
  unfold Lists.all at hlen
  simp only [length_finRange, length_cons, length_append] at hlen
  unfold fuel
  omega

def State.isFree (s : State) (x : Slot) : Bool := (s.list .free).any (·.contains x)

theorem Laid.isFree_iff (h : Laid s L []) : s.isFree x = true ↔ x ∈ L .free := by
  rw [isFree, h.list_free]
  simp

theorem Laid.count_iff (h : Laid s L []) (x : Slot) :
    (L .active ++ s.overflow :: L .parked).count x + (L .inactive ++ s.overflow :: L .parked).count x +
        (L .free).count x = 1 ↔
      x ∉ (L .active ++ s.overflow :: L .parked).dropWhile (· != s.overflow) := by
  have hdrop : (L .active ++ s.overflow :: L .parked).dropWhile (· != s.overflow) =
      s.overflow :: L .parked := by
    rw [dropWhile_append_of_pos, dropWhile_cons_of_neg (by simp)]
    intro y hy
    have hne : y ≠ s.overflow := fun he => h.overflow_notMem .active (he ▸ hy)
    simpa using hne
  have hone : (finRange 16).count x = 1 :=
    count_eq_one_of_mem (nodup_finRange 16) (mem_finRange x)
  have hcount := (h.perm.count_eq x).trans hone
  rw [hdrop, ← count_eq_zero]
  unfold Lists.all at hcount
  simp only [nil_append, count_append, count_cons] at hcount ⊢
  omega

/-- Each slot is on one list, and ids are not used again before 2^24 uses of a slot. -/
theorem slots_once {tbFreq start : Nat} {calls : List (Nat × Call)} {s0 : State}
    (hinit : timerInit tbFreq start = some s0) (hrun : run s0 calls = some s)
    (hnamed : ∀ call ∈ calls, call.2.named ≠ some 0x101) :
    (∃ active inactive free, s.list .active = some active ∧ s.list .inactive = some inactive ∧
      s.list .free = some free ∧
      (∀ x, active.count x + inactive.count x + free.count x = 1 ↔
        x ∉ active.dropWhile (· != s.overflow)) ∧
      ∀ x y, x ∉ free → y ∉ free → (s.entry x).id = (s.entry y).id → x = y) ∧
    ∀ now c s1 before u after t, step s now c = some s1 → run s1 before = some u →
      run u after = some t →
      (∀ call ∈ (now, c) :: (before ++ after), call.2.named ≠ some 0x101) → issued s now c ≠ 0 →
      ∃ x, s1.isFree x = false ∧ (s1.entry x).id = issued s now c ∧
        (u.isFree x = true → ∀ y, t.isFree y = false → (t.entry y).id = issued s now c →
          (s1.entry x).uses + 2 ^ 24 ≤ (t.entry x).uses) := by
  obtain ⟨s0', hinit', hsound⟩ := timerInit_sound tbFreq start
  cases hinit'.symm.trans hinit
  obtain ⟨L, hsound, -⟩ := run_sound hsound hnamed hrun
  refine ⟨⟨_, _, _, hsound.laid.list_open (.inl rfl : Part.active.isOpen),
    hsound.laid.list_open (.inr rfl : Part.inactive.isOpen), hsound.laid.list_free,
    hsound.laid.count_iff, fun x y _ _ heq => ((hsound.fit x).id_eq (hsound.fit y) heq).1⟩, ?_⟩
  intro now c s1 before u after t hstep hu ht hnamed hissued
  have hbefore : ∀ call ∈ before, call.2.named ≠ some 0x101 := fun call hc =>
    hnamed call (mem_cons_of_mem _ (mem_append_left _ hc))
  have hafter : ∀ call ∈ after, call.2.named ≠ some 0x101 := fun call hc =>
    hnamed call (mem_cons_of_mem _ (mem_append_right _ hc))
  obtain ⟨L1, hsound1, -, hid⟩ := step_sound hsound (hnamed _ mem_cons_self) hstep
  obtain ⟨x, hx, hid⟩ := hid.resolve_left hissued
  obtain ⟨Lu, hsoundu, hgrownu⟩ := run_sound hsound1 hbefore hu
  obtain ⟨Lt, hsoundt, hgrownt⟩ := run_sound hsoundu hafter ht
  refine ⟨x, ?_, hid, fun hfree y hy heq => ?_⟩
  · rw [Bool.eq_false_iff]
    exact fun hfree => hx (hsound1.laid.isFree_iff.mp hfree)
  have hover : t.overflow = s1.overflow := hsoundt.zero.trans hsound1.zero.symm
  have hfit := hsoundt.fit y
  rw [hover] at hfit
  obtain ⟨rfl, hmod⟩ := (hsound1.fit x).id_eq hfit (hid.trans heq.symm)
  -- the slot was free, and is not free now
  have hlive : x ∉ Lt .free := by
    intro hm
    rw [hsoundt.laid.isFree_iff.mpr hm] at hy
    cases hy
  have hlt := ((hgrownt x).2 (hsoundu.laid.isFree_iff.mp hfree)).resolve_left hlive
  have hle := (hgrownu x).1
  omega

theorem slots_once_reused : ∃ s0 s : State, timerInit 25000000 0 = some s0 ∧
      run s0 [(0, .newPtimer 1 true), (5, .freePtimer 0x102), (9, .newPtimer 2 false)] = some s ∧
      ∃ active inactive free, s.list .active = some active ∧ s.list .inactive = some inactive ∧
        s.list .free = some free ∧
        (∀ x, active.count x + inactive.count x + free.count x = 1 ↔
          x ∉ active.dropWhile (· != s.overflow)) ∧
        ∀ x y, x ∉ free → y ∉ free → (s.entry x).id = (s.entry y).id → x = y := by
  obtain ⟨s0, hinit⟩ := isSome_iff_exists.mp
    (show (timerInit 25000000 0).isSome = true by decide +kernel)
  obtain ⟨s, hrun⟩ := isSome_iff_exists.mp
    (show ((timerInit 25000000 0).bind
      (run · [(0, .newPtimer 1 true), (5, .freePtimer 0x102), (9, .newPtimer 2 false)])).isSome = true by
      decide +kernel)
  rw [hinit] at hrun
  exact ⟨s0, s, hinit, hrun, (slots_once hinit hrun (by decide)).1⟩

/-- When `timer_init` returns, the slot of the overflow timer is on two lists. -/
theorem overflow_on_two_lists :
    (timerInit 25000000 0).any (fun s => s.list .active == some [0] && s.list .inactive == some [0] &&
      s.overflow == 0) = true := by
  decide +kernel

end MacOnLinux.Timer
