import MacOnLinux.Timer.Lists

/-! # What each call does to the lists -/

namespace MacOnLinux.Timer

open Function List Linked
open Linked (Chain)

variable {s s' s1 : State} {L L' L1 : Lists} {hand : List Slot} {k : Part} {xs ys : List Slot}
variable {t x : Slot} {id : Word} {now : Nat}

/-! ## Taking -/

/-- `x` was taken from the list `k`. -/
structure Taken (s : State) (L : Lists) (k : Part) (x : Slot) (s1 : State) (L1 : Lists) : Prop where
  split : ∃ xs ys, L k = xs ++ x :: ys ∧ L1 = Function.update L k (xs ++ ys)
  relinked : Relinked s s1
  laid : Laid s1 L1 [x]

namespace Taken

section Taken

variable (h : Taken s L k x s1 L1)

include h

theorem mem : x ∈ L k := by
  obtain ⟨xs, ys, hk, -⟩ := h.split
  rw [hk]
  exact mem_append_right _ mem_cons_self

theorem entry : s1.entry = s.entry := by
  rw [h.relinked]

theorem overflow : s1.overflow = s.overflow := by
  rw [h.relinked]

theorem ne_overflow : x ≠ s.overflow := by
  rw [← h.overflow]
  exact h.laid.hand_ne mem_cons_self

theorem other {k' : Part} (hne : k' ≠ k) : L1 k' = L k' := by
  obtain ⟨xs, ys, -, rfl⟩ := h.split
  exact update_of_ne hne _ _

theorem sublist (k' : Part) : (L1 k').Sublist (L k') := by
  by_cases hne : k' = k
  · subst hne
    obtain ⟨xs, ys, hk, rfl⟩ := h.split
    rw [hk, update_self]
    exact (sublist_cons_self x ys).append_left xs
  · rw [h.other hne]

theorem mem_or {y : Slot} {k' : Part} (hy : y ∈ L k') : y ∈ L1 k' ∨ k' = k ∧ y = x := by
  by_cases hne : k' = k
  · subst hne
    obtain ⟨xs, ys, hk, rfl⟩ := h.split
    rw [hk] at hy
    rw [update_self]
    rcases mem_append.mp hy with hy | hy
    · exact .inl (mem_append_left _ hy)
    · rcases mem_cons.mp hy with rfl | hy
      · exact .inr ⟨rfl, rfl⟩
      · exact .inl (mem_append_right _ hy)
  · rw [h.other hne]
    exact .inl hy

end Taken

end Taken

/-- A search found nothing, or took a timer that is not free. -/
def Dequeued (s : State) (L : Lists) (id : Word) (r : Option (Option Slot × State)) : Prop :=
  r = some (none, s) ∨ ∃ k x s1 L1, k ≠ .free ∧ (s.entry x).id = id ∧ r = some (some x, s1) ∧
    Taken s L k x s1 L1

def Moved (s : State) (L : Lists) (k' : Part) (r : Option State) : Prop :=
  r = some s ∨ ∃ k x s1 L1, k ≠ .free ∧ Taken s L k x s1 L1 ∧ r = some (s1.link (s1.headCell k') x)

section Moves

variable (h : Laid s L [])

include h

theorem Laid.dequeue_taken (hk : k.isOpen) (hid : (s.entry s.overflow).id ≠ id) :
    Dequeued s L id (dequeueTimer s (s.headCell k) id) := by
  rcases h.dequeue hk hid with ⟨hnone, -⟩ | ⟨k', xs, x, ys, s1, hk', hL, hx, hdeq, hrel, hlaid⟩
  · exact .inl hnone
  · refine .inr ⟨k', x, s1, _, ?_, hx, hdeq, ⟨xs, ys, hL, rfl⟩, hrel, hlaid⟩
    rcases hk with rfl | rfl <;> rcases hk' with rfl | rfl <;> exact Part.noConfusion

theorem Laid.dequeueEither_taken {k1 k2 : Part} (hk1 : k1.isOpen)
    (hk2 : k2.isOpen) (hid : (s.entry s.overflow).id ≠ id) :
    Dequeued s L id (dequeueEither s (s.headCell k1) (s.headCell k2) id) := by
  unfold dequeueEither
  rcases h.dequeue_taken hk1 hid with hnone | ⟨k, x, s1, L1, hk, hx, hdeq, htaken⟩
  · rw [hnone]
    exact h.dequeue_taken hk2 hid
  · rw [hdeq]
    exact .inr ⟨k, x, s1, L1, hk, hx, rfl, htaken⟩

def Entry.renew (e : Entry) (f : Handler) (periodic autoresume : Bool) : Entry :=
  { e with
    periodic := periodic, overflow := false, autoresume := autoresume, id := e.id + 0x100,
    period := 0, handler := f, uses := e.uses + 1 }

theorem Laid.newTimer_taken (f : Handler) (p a : Bool) : newTimer s f p a = (none, s) ∨
    ∃ t s1 L1, Taken s L .free t s1 L1 ∧
      newTimer s f p a = (some t, s1.setEntry t ((s.entry t).renew f p a)) := by
  cases hfree : L .free with
  | nil => exact .inl (h.newTimer_none hfree f p a)
  | cons t ys =>
    obtain ⟨s1, hnew, hrel, hlaid⟩ := h.newTimer_some hfree f p a
    refine .inr ⟨t, s1, _, ⟨⟨[], ys, hfree, rfl⟩, hrel, hlaid⟩, ?_⟩
    rw [hnew, State.setEntry, show s1.entry = s.entry by rw [hrel]]
    rfl

/-! ## The calls -/

omit h in
theorem Dequeued.moved {r : Option (Option Slot × State)} (h : Dequeued s L id r) (k' : Part) :
    Moved s L k' (r.map fun
      | (none, s) => s
      | (some t, s) => s.link (s.headCell k') t) := by
  rcases h with rfl | ⟨k, x, s1, L1, hk, -, rfl, htaken⟩
  · exact .inl rfl
  · exact .inr ⟨k, x, s1, L1, hk, htaken, rfl⟩

theorem Laid.cancelTimer_cases (hid : (s.entry s.overflow).id ≠ id) : Moved s L .free (cancelTimer s id) :=
  (h.dequeue_taken (.inl rfl : Part.active.isOpen) hid).moved .free

theorem Laid.pausePtimer_cases (hid : (s.entry s.overflow).id ≠ id) :
    Moved s L .inactive (pausePtimer s id) :=
  (h.dequeue_taken (.inl rfl : Part.active.isOpen) hid).moved .inactive

theorem Laid.freePtimer_cases (hid : (s.entry s.overflow).id ≠ id) : Moved s L .free (freePtimer s id) :=
  (h.dequeueEither_taken (.inl rfl : Part.active.isOpen) (.inr rfl : Part.inactive.isOpen) hid).moved .free

theorem Laid.setPtimer_cases (hid : (s.entry s.overflow).id ≠ id) (u : Nat) :
    setPtimer s now id u = some s ∨
    ∃ k x s1 L1 ticks, k ≠ .free ∧ Taken s L k x s1 L1 ∧ (s.entry x).id = id ∧
      ticks = usecsToMticks s (if u ≤ 10 then 2000 else u) ∧
      setPtimer s now id u = insertTimer (s1.setEntry x { s.entry x with
        period := ticks % 2 ^ 32, mark := (ticks + now) % 2 ^ 64 }) x := by
  have hdeq := h.dequeueEither_taken (.inr rfl : Part.inactive.isOpen) (.inl rfl : Part.active.isOpen) hid
  rw [show s.headCell .active = .active from rfl, show s.headCell .inactive = .inactive from rfl] at hdeq
  unfold setPtimer
  rcases hdeq with hnone | ⟨k, x, s1, L1, hk, hx, hdeq, htaken⟩
  · simp only [hnone]
    exact .inl rfl
  simp only [hdeq]
  refine .inr ⟨k, x, s1, L1, _, hk, htaken, hx, rfl, ?_⟩
  have hticks : ∀ u, usecsToMticks s1 u = usecsToMticks s u := by
    intro u
    rw [htaken.relinked]
    rfl
  simp [hticks, htaken.entry]

omit h in
theorem recalcPtimer_cases {lost : Int} (h : recalcPtimer s now t = some (lost, s')) :
    ∃ n m, recalcLoop now (s.entry t).period (2 ^ 64) (-1) (s.entry t).mark = some (n, m) ∧
      s' = s.setEntry t { s.entry t with mark := m } := by
  obtain ⟨⟨n, m⟩, hloop, he⟩ := Option.map_eq_some_iff.mp h
  exact ⟨n, m, hloop, (Prod.mk.inj he).2.symm⟩

theorem Laid.resumePtimer_cases {lost : Int} (hid : (s.entry s.overflow).id ≠ id)
    (hcall : resumePtimer s now id = some (lost, s')) :
    s' = s ∨
    ∃ k x s1 L1 n m, k ≠ .free ∧ Taken s L k x s1 L1 ∧ (s.entry x).id = id ∧
      recalcLoop now (s.entry x).period (2 ^ 64) (-1) (s.entry x).mark = some (n, m) ∧
      insertTimer (s1.setEntry x { s.entry x with mark := m }) x = some s' := by
  have hdeq := h.dequeue_taken (.inr rfl : Part.inactive.isOpen) hid
  rw [show s.headCell .inactive = .inactive from rfl] at hdeq
  unfold resumePtimer at hcall
  rcases hdeq with hnone | ⟨k, x, s1, L1, hk, hx, hdeq, htaken⟩
  · rw [hnone] at hcall
    exact .inl (Prod.mk.inj (Option.some.inj hcall)).2.symm
  rw [hdeq, Option.bind_some] at hcall
  obtain ⟨⟨n, s2⟩, hrecalc, hcall⟩ := Option.bind_eq_some_iff.mp hcall
  obtain ⟨s3, hins, he⟩ := Option.map_eq_some_iff.mp hcall
  obtain ⟨n', m, hloop, rfl⟩ := recalcPtimer_cases hrecalc
  rw [htaken.entry] at hloop hins
  rw [(Prod.mk.inj he).2] at hins
  exact .inr ⟨k, x, s1, L1, n', m, hk, htaken, hx, hloop, hins⟩

theorem Laid.newPtimer_cases (f : Handler) (a : Bool) : newPtimer s f a = (0, s) ∨
    ∃ t s1 L1, Taken s L .free t s1 L1 ∧ newPtimer s f a = (((s.entry t).renew f true a).id,
        (s1.setEntry t ((s.entry t).renew f true a)).link .inactive t) := by
  unfold newPtimer
  rcases h.newTimer_taken f true a with hnone | ⟨t, s1, L1, htaken, hnew⟩
  · rw [hnone]
    exact .inl rfl
  · rw [hnew]
    refine .inr ⟨t, s1, L1, htaken, ?_⟩
    have hentry : (s1.setEntry t ((s.entry t).renew f true a)).entry t = (s.entry t).renew f true a :=
      update_self ..
    simp [hentry]

theorem Laid.absTimer_cases (mark tag : Nat) : absTimer s mark tag = some (0, s) ∨
    ∃ t s1 L1 e, Taken s L .free t s1 L1 ∧
      e = { (s.entry t).renew (.client tag) false false with mark := mark } ∧
      absTimer s mark tag = (insertTimer (s1.setEntry t e) t).map (e.id, ·) := by
  unfold absTimer
  rcases h.newTimer_taken (.client tag) false false with hnone | ⟨t, s1, L1, htaken, hnew⟩
  · rw [hnone]
    exact .inl rfl
  · rw [hnew]
    refine .inr ⟨t, s1, L1, _, htaken, rfl, ?_⟩
    simp only [State.setEntry, update_self, update_idem]

/-! ## Putting back -/

omit h in
theorem Laid.insert (h : Laid s L (t :: hand)) : ∃ k xs ys s' f, k ≠ .free ∧ L k = xs ++ ys ∧
      insertTimer s t = some s' ∧ Laid s' (update L k (xs ++ t :: ys)) hand ∧
      s' = { s with
        next := s'.next
        entry := update s.entry t { s.entry t with overflow := f } } := by
  cases hfar : s.isFar t with
  | true =>
    obtain ⟨s1, hins, hrel, hlaid⟩ := h.insert_far hfar
    refine ⟨.parked, [], L .parked, _, true, Part.noConfusion, rfl, hins, hlaid.congr rfl rfl, ?_⟩
    rw [hrel]
  | false =>
    obtain ⟨k, xs, ys, s', hL, hins, hrel, hlaid, hpos⟩ := h.insert_near hfar
    refine ⟨k, xs, ys, s', (s.entry t).overflow, ?_, hL, hins, hlaid, ?_⟩
    · rcases hpos with ⟨rfl, -⟩ | ⟨rfl, -⟩ <;> exact Part.noConfusion
    · rw [show ({ s.entry t with overflow := (s.entry t).overflow } : Entry) = s.entry t from rfl,
        update_eq_self]
      exact hrel

omit h in
/-- The second loop of `overflow_handler`, for an invariant that one round keeps. -/
theorem insertAll_keeps {P : State → Lists → List Slot → Prop}
    (hround : ∀ s L t hand, P s L (t :: hand) → ∃ s' L',
      insertTimer (s.setEntry t { s.entry t with overflow := false }) t = some s' ∧ P s' L' hand)
    (h : P s L hand) : ∃ s' L', insertAll s hand = some s' ∧ P s' L' [] := by
  induction hand generalizing s L with
  | nil => exact ⟨s, L, rfl, h⟩
  | cons t hand ih =>
    obtain ⟨s1, L1, hins, h1⟩ := hround s L t hand h
    rw [insertAll, hins]
    exact ih h1

/-! ## Firing -/

theorem Laid.overflowHandler_cases (hover : (s.entry s.overflow).overflow = false) :
    ∃ s1 L1 hand, overflowHandler s = insertAll s1 hand ∧ Laid s1 L1 hand ∧
      s1 = { s with next := s1.next, pending := false } ∧
      L1 .active = (L .active).filter (fun x => !(s.entry x).overflow) ∧
      L1 .parked = (L .parked).filter (fun x => !(s.entry x).overflow) ∧
      L1 .inactive = L .inactive ∧ L1 .free = L .free ∧
      ∀ x ∈ hand, x ∈ L .active ++ L .parked ∧ (s.entry x).overflow = true := by
  have hopen : Part.active.isOpen := .inl rfl
  let keep : Slot → Bool := fun x => !(s.entry x).overflow
  have hkeep : keep s.overflow = true := by simp [keep, hover]
  have hmap : ∀ W : List Slot, (W.map Cell.slot).filter s.stays = (W.filter keep).map .slot := by
    intro W
    rw [filter_map]
    rfl
  have hmap' : ∀ W : List Slot, ((W.map Cell.slot).filter fun c => !s.stays c) =
      (W.filter fun x => !keep x).map .slot := by
    intro W
    rw [filter_map]
    rfl
  have hnodup : (Cell.active :: (L .active ++ s.overflow :: L .parked).map Cell.slot).Nodup := by
    refine nodup_cons.mpr ⟨by simp, List.Nodup.map (fun _ _ he => Cell.slot.inj he) ?_⟩
    refine nodup_append.mpr ⟨h.part_nodup _, nodup_cons.mpr
      ⟨h.overflow_notMem _, h.part_nodup _⟩, fun x hx y hy he => ?_⟩
    subst he
    rcases mem_cons.mp hy with rfl | hy
    · exact h.overflow_notMem _ hx
    · exact Part.noConfusion (h.part_unique hx hy)
  have hslots : ∀ c ∈ (L .active ++ s.overflow :: L .parked).map Cell.slot, c.isNull = false := by
    intro c hc
    obtain ⟨x, -, rfl⟩ := mem_map.mp hc
    rfl
  obtain ⟨next', hsweep, hchain, hsame⟩ := sweep_spec s.stays [] (h.walk hopen) hnodup hslots
    rfl (h.walk_length hopen)
  have hhand : ∀ W : List Slot, (W.map Cell.slot).filterMap Cell.slot? = W := by
    intro W
    rw [filterMap_map]
    exact filterMap_some
  rw [hmap, filter_append, filter_cons_of_pos hkeep, map_append, map_cons] at hchain
  rw [hmap', filter_append, filter_cons_of_neg (by simp [hkeep]), ← map_reverse, append_nil] at hsweep
  obtain ⟨hfront, hback⟩ := chain_append_cons.mp hchain
  let L1 : Lists := update (update L .active ((L .active).filter keep)) .parked
    ((L .parked).filter keep)
  have hoff : ∀ {k : Part}, k = .inactive ∨ k = .free → ∀ c ∈ s.cells L k,
      c ∉ Cell.active :: (L .active ++ s.overflow :: L .parked).map Cell.slot := by
    intro k hk c hc hm
    rw [map_append, map_cons] at hm
    rcases mem_append.mp (show c ∈ s.cells L .active ++ s.cells L .parked from hm) with hm | hm
    · have := h.cells_unique hm hc
      rcases hk with rfl | rfl <;> cases this
    · have := h.cells_unique hm hc
      rcases hk with rfl | rfl <;> cases this
  refine ⟨{ s with next := next', pending := false }, L1,
    ((L .active).filter (fun x => !keep x) ++ (L .parked).filter fun x => !keep x).reverse,
    ?_, ⟨fun k => ?_, ?_⟩, rfl, rfl, rfl, rfl, rfl, fun x hx => ?_⟩
  · have hsweep : sweep Cell.isNull s.stays fuel s.next .active [] = _ := hsweep
    simp only [overflowHandler, hsweep, Option.bind_some, hhand]
  · cases k with
    | active => exact hfront
    | parked => exact hback
    | inactive => exact (chain_congr fun c hc => hsame c (hoff (.inl rfl) c hc)).mpr (h.chain _)
    | free => exact (chain_congr fun c hc => hsame c (hoff (.inr rfl) c hc)).mpr (h.chain _)
  · refine List.Perm.trans (.cons _ ?_) h.perm
    rw [perm_iff_count]
    intro a
    have hA := (filter_append_perm keep (L .active)).count_eq a
    have hR := (filter_append_perm keep (L .parked)).count_eq a
    show count a (_ ++ ((L .active).filter keep ++ (L .inactive ++ ((L .parked).filter keep ++
      L .free)))) = count a ([] ++ (L .active ++ (L .inactive ++ (L .parked ++ L .free))))
    simp only [count_append, count_reverse, count_nil] at hA hR ⊢
    omega
  · rw [mem_reverse, ← filter_append] at hx
    obtain ⟨hm, hflag⟩ := mem_filter.mp hx
    exact ⟨hm, by simpa [keep] using hflag⟩

theorem Laid.rvecTimer_cases {later : Nat} :
    ∃ t, t ∈ (L .active ++ [s.overflow]).head? ∧ rvecReturns s now = isQuiet s now t ∧
      rvecTimer s now later =
        if isQuiet s now t then some { s with last := now } else fire s later t := by
  have hnext := h.next_last (show L .active = [] ++ L .active from rfl)
  have hnext : s.next .active = ((L .active).map Cell.slot).headD (.slot s.overflow) := hnext
  unfold rvecTimer rvecReturns
  rw [hnext]
  cases hactive : L .active with
  | nil => exact ⟨s.overflow, rfl, rfl, rfl⟩
  | cons t A => exact ⟨t, rfl, rfl, rfl⟩

theorem Laid.fire_cases {A : List Slot} (hactive : L .active = t :: A)
    (hf : (s.entry t).handler ≠ .overflow) :
    ∃ s1 L1, Taken { s with pending := false } L .active t s1 L1 ∧ fire s now t =
        if (s.entry t).periodic then
          if (s.entry t).autoresume then (recalcPtimer s1 now t).bind fun (_, s) => insertTimer s t
          else some (s1.link .inactive t)
        else some (s1.link .free t) := by
  have hlaid : Laid { s with pending := false } L [] := h.congr rfl rfl
  refine ⟨State.setNext { s with pending := false } .active (s.next (.slot t)), _,
    ⟨⟨[], A, hactive, rfl⟩, rfl, hlaid.pop hactive⟩, ?_⟩
  have hpending : ((s.entry t).handler == Handler.overflow) = false := by simpa using hf
  unfold fire
  rw [hpending]
  rfl

theorem Laid.fire_overflow (hactive : L .active = [])
    (hp : (s.entry s.overflow).periodic = true) (ha : (s.entry s.overflow).autoresume = true)
    (hf : (s.entry s.overflow).handler = .overflow) (hcall : fire s now s.overflow = some s') :
    ∃ xs ys n m, L .parked = xs ++ ys ∧
      recalcLoop now (s.entry s.overflow).period (2 ^ 64) (-1) (s.entry s.overflow).mark = some (n, m) ∧
      s' = { s with
        next := s'.next
        entry := update s.entry s.overflow { s.entry s.overflow with mark := m }
        pending := true } ∧
      Laid s' (update (update L .active xs) .parked ys) [] := by
  have hpending : ((s.entry s.overflow).handler == Handler.overflow) = true := by simp [hf]
  have hentry : ∀ c v, (s.setNext c v).entry = s.entry := fun _ _ => rfl
  unfold fire at hcall
  simp only [hpending, hentry, hp, ha, if_true] at hcall
  obtain ⟨⟨l, s1⟩, hrecalc, hins⟩ := Option.bind_eq_some_iff.mp hcall
  obtain ⟨n, m, hloop, rfl⟩ := recalcPtimer_cases hrecalc
  obtain ⟨xs, ys, s2, hL, hins', hrel, hlaid⟩ := h.refire hactive
    (State.setEntry { s.setNext .active (s.next (.slot s.overflow)) with pending := true } s.overflow
      { s.entry s.overflow with mark := m }) rfl rfl
  cases hins'.symm.trans hins
  exact ⟨xs, ys, n, m, hL, hloop, hrel, hlaid⟩

end Moves

end MacOnLinux.Timer
