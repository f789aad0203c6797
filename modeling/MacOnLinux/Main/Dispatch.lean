import MacOnLinux.Main.Async

/-! # A pass of `__do_async_io` -/

namespace MacOnLinux.Async

open List State

/-! ## What a pass has to do -/

def callIds (log : List Event) : List Int :=
  log.filterMap fun
    | .called h _ _ => some h.id
    | .deleted _ => none

def Alive : List Event → Prop
  | [] => True
  | .called _ _ _ :: log => Alive log
  | .deleted id :: log => id ∉ callIds log ∧ Alive log

def State.index (s : State) (id : Int) : Option Nat := s.findBy (·.id = id)

def State.result (s : State) (res : Nat → Events) (id : Int) : Events :=
  match s.index id with
  | some i => if i < s.npoll then res i else 0
  | none => 0

/-- A handler that is there at the end and has a requested event was called. -/
def Round.Complete (r : Round) (s : State) : Prop :=
  ∀ e ∈ (r.run s).2.entries, s.result r.res e.handler.id &&& e.ufd.events ≠ 0 →
    e.handler.id ∈ callIds (r.run s).1

/-- No entry without events has a result of an earlier `poll`. -/
def Fresh (s : State) : Prop := ∀ i, i < s.nhandlers → s.npoll ≤ i → (s.ufds i).revents = 0

/-- When the pass goes on at the second entry, the first one has nothing to do. -/
def headClear (acts : Nat → List Op) : Nat → Nat → Nat → State → Bool
  | 0, _, _, _ => true
  | pending + 1, c, i, s =>
    match s.nextReady i with
    | none => true
    | some j =>
      let s := (runOps (acts c) (s.take j)).2
      (!s.modified || s.npoll = 0 || s.ready 0 = 0) &&
        headClear acts pending (c + 1) (if s.modified then 1 else j + 1) { s with modified := false }

def Round.headClear (r : Round) (s : State) : Bool :=
  Async.headClear r.acts (s.npending r.res) 0 0 (runOps r.before (s.poll r.res)).2

variable {s s' : State} {i j k : Nat} {log log' : List Event} {r : Int → Events} {called : Int → Prop}
  {acts : Nat → List Op}

/-! ## Logs -/

theorem callIds_append (log log' : List Event) : callIds (log ++ log') = callIds log ++ callIds log' :=
  filterMap_append

theorem Effect.callIds_eq (h : Effect s log s') : callIds log = [] := by
  rw [callIds, filterMap_eq_nil_iff]
  intro ev hev
  obtain ⟨id, rfl, -⟩ := h.log ev hev
  rfl

/-- A log that begins with deletions of handlers that are not called afterwards. -/
theorem alive_append (h : ∀ ev ∈ log, ∃ id, ev = .deleted id ∧ id ∉ callIds log') (h' : Alive log') :
    Alive (log ++ log') := by
  induction log with
  | nil => exact h'
  | cons ev log ih =>
    have htail := ih (forall_mem_cons.mp h).2
    have hnone : callIds log = [] := by
      rw [callIds, filterMap_eq_nil_iff]
      intro ev' hev'
      obtain ⟨id, rfl, -⟩ := h ev' (mem_cons_of_mem _ hev')
      rfl
    obtain ⟨id, rfl, hid⟩ := h ev mem_cons_self
    have hids : callIds (log ++ log') = callIds log' := by rw [callIds_append, hnone, nil_append]
    exact ⟨hids ▸ hid, htail⟩

/-! ## The next handler -/

theorem nextReady_some (h : s.nextReady i = some j) :
    i ≤ j ∧ j < s.npoll ∧ s.ready j ≠ 0 ∧ ∀ k, i ≤ k → k < j → s.ready k = 0 := by
  obtain ⟨hp, hmem, hmin⟩ := find?_range_eq_some.mp h
  simp only [Bool.and_eq_true, decide_eq_true_eq] at hp
  refine ⟨hp.1, mem_range.mp hmem, hp.2, fun k hik hkj => ?_⟩
  simpa [hik] using hmin k hkj

theorem nextReady_none (h : s.nextReady i = none) (hik : i ≤ k) (hk : k < s.npoll) : s.ready k = 0 := by
  have hp := find?_eq_none.mp h k (mem_range.mpr hk)
  simpa [hik] using hp

theorem revents_of_ready (h : s.ready j ≠ 0) : (s.ufds j).revents ≠ 0 := by
  intro hz
  rw [State.ready, hz] at h
  exact h BitVec.zero_and

/-! ## Taking an entry -/

theorem entry_take_self (s : State) (j : Nat) :
    (s.take j).entry j = ⟨s.handlers j, { s.ufds j with revents := 0 }⟩ := by
  simp [State.take, State.entry]

theorem entry_take_ne (s : State) (hk : k ≠ j) : (s.take j).entry k = s.entry k := by
  simp [State.take, State.entry, hk]

theorem Good.id_inj (h : Good s) (hi : i < s.nhandlers) (hj : j < s.nhandlers)
    (he : (s.handlers i).id = (s.handlers j).id) : i = j := by
  have hget (k : Nat) (hk : k < s.nhandlers) :
      (s.entries.map (·.handler.id))[k]? = some (s.handlers k).id := by
    unfold entries
    rw [getElem?_map, getElem?_map, getElem?_range hk]
    rfl
  have hlen : i < (s.entries.map (·.handler.id)).length := by
    simpa [entries] using hi
  exact (getElem?_inj hlen h.distinct).mp (by rw [hget i hi, hget j hj, he])

theorem Good.index_self (h : Good s) (hi : i < s.nhandlers) : s.index (s.handlers i).id = some i := by
  unfold index findBy
  rw [find?_range_eq_some]
  refine ⟨by simp, mem_range.mpr hi, fun k hk => ?_⟩
  have hne : (s.handlers k).id ≠ (s.handlers i).id := fun he =>
    absurd (h.id_inj (by omega) hi he) (ne_of_lt hk)
  simp [hne]

/-- Only what `poll` has reported is other. -/
theorem Good.rescan {u : Nat → Pollfd} {b : Bool} (h : Good s)
    (hu : ∀ k, (u k).fd = (s.ufds k).fd ∧ (u k).events = (s.ufds k).events) :
    Good { s with ufds := u, modified := b } := by
  have hids : (State.entries { s with ufds := u, modified := b }).map (·.handler.id) =
      s.entries.map (·.handler.id) := by
    unfold entries
    rw [map_map, map_map]
    rfl
  refine ⟨⟨hids ▸ h.distinct, fun e he => ?_, fun e he => ?_⟩, h.sorted.1, fun k hk => ?_⟩
  · obtain ⟨k, hk, rfl⟩ := mem_entries.mp he
    exact h.below (s.entry k) (entry_mem hk)
  · obtain ⟨k, hk, rfl⟩ := mem_entries.mp he
    show s.registered (s.handlers k).id = some ((u k).fd, (s.handlers k).proc)
    rw [(hu k).1]
    exact h.paired (s.entry k) (entry_mem hk)
  · rw [(hu k).2]
    exact h.sorted.2 k hk

theorem Good.take (h : Good s) (j : Nat) : Good (s.take j) := by
  refine h.rescan fun k => ?_
  by_cases hkj : k = j
  · subst hkj
    simp
  · simp [hkj]

theorem countP_drop_one {l : List Nat} {p q : Nat → Bool} (hd : l.Nodup) (hj : j ∈ l) (hp : p j = true)
    (hq : q j = false) (hsame : ∀ k ∈ l, k ≠ j → q k = p k) : l.countP p = l.countP q + 1 := by
  induction l with
  | nil => cases hj
  | cons a l ih =>
    obtain ⟨ha, hd⟩ := nodup_cons.mp hd
    rw [countP_cons, countP_cons]
    rcases mem_cons.mp hj with rfl | hj
    · have hrest : l.countP q = l.countP p := by
        apply countP_congr
        intro k hk
        rw [hsame k (mem_cons_of_mem _ hk) (fun he => ha (he ▸ hk))]
      simp [hp, hq, hrest]
    · have hne : a ≠ j := fun he => ha (he ▸ hj)
      rw [ih hd hj (forall_mem_cons.mp hsame).2, hsame a mem_cons_self hne]
      omega

theorem unseen_take (hj : j < s.nhandlers) (hr : (s.ufds j).revents ≠ 0) :
    s.unseen = (s.take j).unseen + 1 := by
  unfold unseen entries
  rw [countP_map, countP_map]
  refine countP_drop_one nodup_range (mem_range.mpr hj) ?_ ?_ fun k _ hk => ?_
  · exact decide_eq_true hr
  · simp [entry_take_self]
  · simp [entry_take_ne s hk]

/-! ## Results and calls -/

structure Track (r : Int → Events) (called : Int → Prop) (s : State) : Prop where
  seen : ∀ e ∈ s.entries, called e.handler.id → e.ufd.revents = 0
  unseen : ∀ e ∈ s.entries, ¬ called e.handler.id → e.ufd.revents = r e.handler.id
  fresh : ∀ id, s.nextHandlerId ≤ id → r id = 0 ∧ ¬ called id

theorem Track.effect (h : Track r called s) (he : Effect s log s') : Track r called s' := by
  refine ⟨fun e' he' hc => ?_, fun e' he' hc => ?_, fun id hid => h.fresh id (he.nextId.trans hid)⟩
  · rcases he.origin e' he' with ⟨e, hmem, hh, hr⟩ | ⟨-, hr⟩
    · rw [← hr]
      exact h.seen e hmem (hh ▸ hc)
    · exact hr
  · rcases he.origin e' he' with ⟨e, hmem, hh, hr⟩ | ⟨hid, hr⟩
    · rw [← hr, ← hh]
      exact h.unseen e hmem (hh ▸ hc)
    · rw [hr, (h.fresh _ hid).1]

theorem Track.take (h : Track r called s) (hgood : Good s) (hj : j < s.nhandlers) :
    Track r (fun id => id = (s.handlers j).id ∨ called id) (s.take j) := by
  refine ⟨fun e he hc => ?_, fun e he hc => ?_, fun id hid => ?_⟩
  · obtain ⟨k, hk, rfl⟩ := mem_entries.mp he
    by_cases hkj : k = j
    · subst hkj
      rw [entry_take_self]
    · rw [entry_take_ne s hkj] at hc ⊢
      rcases hc with hc | hc
      · exact absurd (hgood.id_inj hk hj hc) hkj
      · exact h.seen (s.entry k) (entry_mem hk) hc
  · obtain ⟨k, hk, rfl⟩ := mem_entries.mp he
    by_cases hkj : k = j
    · subst hkj
      exact absurd (.inl rfl) hc
    · rw [entry_take_ne s hkj] at hc ⊢
      exact h.unseen (s.entry k) (entry_mem hk) fun hc' => hc (.inr hc')
  · obtain ⟨hr, hno⟩ := h.fresh id hid
    refine ⟨hr, ?_⟩
    rintro (rfl | hc)
    · exact absurd hid (Int.not_le.mpr (hgood.below (s.entry j) (entry_mem hj)))
    · exact hno hc

structure Passed (r : Int → Events) (called : Int → Prop) (s : State) (log : List Event) (s' : State) :
    Prop where
  good : Good s'
  track : Track r (fun id => id ∈ callIds log ∨ called id) s'
  once : (callIds log).Nodup
  new : ∀ id ∈ callIds log, ¬ called id
  there : ∀ id ∈ callIds log, (∃ e ∈ s.entries, e.handler.id = id) ∨ s.nextHandlerId ≤ id
  alive : Alive log

theorem Passed.refl (hgood : Good s) (htrack : Track r called s) : Passed r called s [] s where
  good := hgood
  track := by simpa [callIds] using htrack
  once := nodup_nil
  new := by simp [callIds]
  there := by simp [callIds]
  alive := trivial

theorem Passed.after_ops (he : Effect s log s') {s'' : State} (h : Passed r called s' log' s'') :
    Passed r called s (log ++ log') s'' := by
  have hids : callIds (log ++ log') = callIds log' := by rw [callIds_append, he.callIds_eq, nil_append]
  refine ⟨h.good, hids ▸ h.track, hids ▸ h.once, hids ▸ h.new, fun id hid => ?_, ?_⟩
  · rcases h.there id (hids ▸ hid) with ⟨e', he', rfl⟩ | hid
    · rcases he.origin e' he' with ⟨e, hmem, hh, -⟩ | ⟨hid, -⟩
      · exact .inl ⟨e, hmem, by rw [hh]⟩
      · exact .inr hid
    · exact .inr (he.nextId.trans hid)
  refine alive_append (fun ev hev => ?_) h.alive
  obtain ⟨id, rfl, hlt, hne⟩ := he.log ev hev
  refine ⟨id, rfl, fun hid => ?_⟩
  rcases h.there id hid with ⟨e', he', hid'⟩ | hid
  · exact hne e' he' hid'
  · omega

theorem Passed.call (htrack : Track r called s) (hj : j < s.nhandlers)
    (hready : s.ready j ≠ 0) {fd : Int} {ev : Events}
    (h : Passed r (fun id => id = (s.handlers j).id ∨ called id) (s.take j) log s') :
    Passed r called s (.called (s.handlers j) fd ev :: log) s' := by
  have hids : callIds (.called (s.handlers j) fd ev :: log) = (s.handlers j).id :: callIds log := rfl
  have hnew : ¬ called (s.handlers j).id := fun hc =>
    revents_of_ready hready (htrack.seen (s.entry j) (entry_mem hj) hc)
  refine ⟨h.good, ?_, ?_, ?_, ?_, h.alive⟩
  · have hsame : (fun id => id ∈ callIds (.called (s.handlers j) fd ev :: log) ∨ called id) =
        fun id => id ∈ callIds log ∨ id = (s.handlers j).id ∨ called id := by
      funext id
      rw [hids, mem_cons, or_assoc]
      exact propext or_left_comm
    rw [hsame]
    exact h.track
  · exact nodup_cons.mpr ⟨fun hm => h.new _ hm (.inl rfl), h.once⟩
  · intro id hid
    rcases mem_cons.mp hid with rfl | hid
    · exact hnew
    · exact fun hc => h.new id hid (.inr hc)
  intro id hid
  rcases mem_cons.mp hid with rfl | hid
  · exact .inl ⟨s.entry j, entry_mem hj, rfl⟩
  · rcases h.there id hid with ⟨e, he, rfl⟩ | hid
    · obtain ⟨k, hk, rfl⟩ := mem_entries.mp he
      exact .inl ⟨s.entry k, entry_mem hk, rfl⟩
    · exact .inr hid

theorem dispatch_passed (acts : Nat → List Op) (pending c i : Nat) (hgood : Good s)
    (htrack : Track r called s) :
    Passed r called s (dispatch acts pending c i s).1 (dispatch acts pending c i s).2 := by
  induction pending generalizing c i s called with
  | zero => exact .refl hgood htrack
  | succ pending ih =>
    rw [dispatch]
    cases hnext : s.nextReady i with
    | none => exact .refl hgood htrack
    | some j =>
      obtain ⟨-, hjp, hready, -⟩ := nextReady_some hnext
      have hj : j < s.nhandlers := lt_of_lt_of_le hjp hgood.sorted.1
      have htaken := htrack.take hgood hj
      have heffect := (hgood.take j).effects (acts c)
      have hgood2 := (hgood.take j).runOps (acts c)
      have htrack2 := htaken.effect heffect
      dsimp only
      refine .call htrack hj hready (.after_ops heffect ?_)
      generalize (runOps (acts c) (s.take j)).2 = s2 at hgood2 htrack2 ⊢
      have hgood3 : Good { s2 with modified := false } :=
        ⟨⟨hgood2.distinct, hgood2.below, hgood2.paired⟩, hgood2.sorted⟩
      have htrack3 : Track r (fun id => id = (s.handlers j).id ∨ called id) { s2 with modified := false } :=
        ⟨htrack2.seen, htrack2.unseen, htrack2.fresh⟩
      have hrest := ih (c + 1) (if s2.modified then 1 else j + 1) hgood3 htrack3
      exact ⟨hrest.good, hrest.track, hrest.once, hrest.new, hrest.there, hrest.alive⟩

/-! ## Nothing is left -/

theorem dispatch_done (pending c i : Nat) (hgood : Good s) (hunseen : s.unseen ≤ pending)
    (hbefore : ∀ k, k < i → k < s.npoll → s.ready k = 0) (hclear : headClear acts pending c i s = true) :
    ∀ e ∈ (dispatch acts pending c i s).2.entries, e.ufd.revents &&& e.ufd.events = 0 := by
  induction pending generalizing c i s with
  | zero =>
    intro e he
    have hnone := countP_eq_zero.mp (Nat.le_zero.mp hunseen) e he
    rw [show e.ufd.revents = 0 by simpa using hnone]
    exact BitVec.zero_and
  | succ pending ih =>
    rw [dispatch]
    rw [headClear] at hclear
    cases hnext : s.nextReady i with
    | none =>
      intro e he
      obtain ⟨k, hk, rfl⟩ := mem_entries.mp he
      by_cases hkp : k < s.npoll
      · by_cases hki : k < i
        · exact hbefore k hki hkp
        · exact nextReady_none hnext (Nat.le_of_not_lt hki) hkp
      have hev : (s.ufds k).events = 0 := by
        by_contra hne
        exact hkp ((hgood.sorted.2 k hk).mpr hne)
      show (s.ufds k).revents &&& (s.ufds k).events = 0
      rw [hev]
      exact BitVec.and_zero
    | some j =>
      rw [hnext] at hclear
      simp only [Bool.and_eq_true] at hclear
      obtain ⟨hhead, hclear⟩ := hclear
      obtain ⟨hij, hjp, hready, hmin⟩ := nextReady_some hnext
      have hj : j < s.nhandlers := lt_of_lt_of_le hjp hgood.sorted.1
      have heffect := (hgood.take j).effects (acts c)
      have hgood2 := (hgood.take j).runOps (acts c)
      refine ih (c + 1) _ ⟨⟨hgood2.distinct, hgood2.below, hgood2.paired⟩, hgood2.sorted⟩ ?_ ?_ hclear
      · have hcount := unseen_take hj (revents_of_ready hready)
        have hless := heffect.unseen
        show (runOps (acts c) (s.take j)).2.unseen ≤ pending
        omega
      intro k hk hkp
      show (runOps (acts c) (s.take j)).2.ready k = 0
      cases hmod : (runOps (acts c) (s.take j)).2.modified with
      | true =>
        rw [hmod] at hhead hk
        obtain rfl : k = 0 := by simpa using hk
        have hpos : (runOps (acts c) (s.take j)).2.npoll ≠ 0 := ne_of_gt hkp
        simpa [hpos] using hhead
      | false =>
        rw [hmod] at hk
        have hsame := heffect.unmodified hmod
        rw [hsame] at hkp ⊢
        have hzero : ∀ k, k ≠ j → (s.take j).ready k = s.ready k := by
          intro k hkj
          simp [State.ready, State.take, hkj]
        rcases Nat.lt_succ_iff_lt_or_eq.mp hk with hk | rfl
        · rw [hzero k (ne_of_lt hk)]
          by_cases hki : k < i
          · exact hbefore k hki hkp
          · exact hmin k (Nat.le_of_not_lt hki) hk
        · simp [State.ready, State.take]

/-! ## Rounds -/

variable {res : Nat → Events}

theorem Good.poll (h : Good s) (res : Nat → Events) : Good (s.poll res) := by
  refine h.rescan fun k => ?_
  split <;> exact ⟨rfl, rfl⟩

def State.polled (s : State) (res : Nat → Events) (id : Int) : Events :=
  match s.index id with
  | some i => ((s.poll res).ufds i).revents
  | none => 0

theorem Good.polled_track (h : Good s) (res : Nat → Events) :
    Track (s.polled res) (fun _ => False) (s.poll res) := by
  refine ⟨fun _ _ hc => hc.elim, fun e he _ => ?_, fun id hid => ⟨?_, not_false⟩⟩
  · obtain ⟨k, hk, rfl⟩ := mem_entries.mp he
    show ((s.poll res).ufds k).revents = s.polled res (s.handlers k).id
    rw [polled, h.index_self hk]
  rw [polled]
  cases hfind : s.index id with
  | none => rfl
  | some i =>
    obtain ⟨hi, heq⟩ := findBy_some hfind
    rw [← of_decide_eq_true heq] at hid
    exact absurd hid (Int.not_le.mpr (h.below (s.entry i) (entry_mem hi)))

theorem polled_fresh (hfresh : Fresh s) (id : Int) : s.polled res id = s.result res id := by
  unfold polled result
  cases hfind : s.index id with
  | none => rfl
  | some i =>
    obtain ⟨hi, -⟩ := findBy_some hfind
    unfold State.poll
    dsimp only
    split
    · rfl
    · exact hfresh i hi (Nat.le_of_not_lt ‹_›)

theorem unseen_poll (hgood : Good s) (hfresh : Fresh s) : (s.poll res).unseen ≤ s.npending res := by
  have hn : s.nhandlers = s.npoll + (s.nhandlers - s.npoll) := by
    have := hgood.sorted.1
    omega
  unfold unseen entries npending
  rw [countP_map, show (s.poll res).nhandlers = s.nhandlers from rfl, hn, range_add,
    countP_append, ← countP_eq_length_filter]
  have hpolled : (range s.npoll).countP
      ((fun e : Entry => decide (e.ufd.revents ≠ 0)) ∘ (s.poll res).entry) =
      (range s.npoll).countP fun i => decide (res i ≠ 0) := by
    apply countP_congr
    intro k hk
    simp [State.entry, State.poll, mem_range.mp hk]
  have hold : ((range (s.nhandlers - s.npoll)).map (s.npoll + ·)).countP
      ((fun e : Entry => decide (e.ufd.revents ≠ 0)) ∘ (s.poll res).entry) = 0 := by
    rw [countP_eq_zero]
    intro k hk
    obtain ⟨d, hd, rfl⟩ := mem_map.mp hk
    have hd := mem_range.mp hd
    have hz : ((s.poll res).ufds (s.npoll + d)).revents = 0 := by
      unfold State.poll
      dsimp only
      rw [if_neg (by omega)]
      exact hfresh (s.npoll + d) (by omega) (by omega)
    exact fun hne => of_decide_eq_true hne hz
  rw [hpolled, hold, add_zero]

theorem Good.round (h : Good s) (r : Round) :
    Passed (s.polled r.res) (fun _ => False) (s.poll r.res) (r.run s).1 (r.run s).2 := by
  have heffect := (h.poll r.res).effects r.before
  have htrack := (h.polled_track r.res).effect heffect
  exact .after_ops heffect (dispatch_passed r.acts _ 0 0 ((h.poll r.res).runOps r.before) htrack)

theorem Good.complete (h : Good s) (r : Round) (hfresh : Fresh s) (hclear : r.headClear s = true) :
    r.Complete s := by
  have hpassed := h.round r
  have heffect := (h.poll r.res).effects r.before
  have hdone := dispatch_done _ 0 0 ((h.poll r.res).runOps r.before)
    (heffect.unseen.trans (unseen_poll h hfresh)) (by simp) hclear
  intro e he hready
  by_contra hno
  have hkept := hpassed.track.unseen e he (by simpa using hno)
  rw [polled_fresh hfresh] at hkept
  have hnone : e.ufd.revents &&& e.ufd.events = 0 := hdone e he
  rw [hkept] at hnone
  exact hready hnone

theorem good_start : Good start where
  distinct := nodup_nil
  below := by simp [entries, start]
  paired := by simp [entries, start]
  sorted := ⟨le_refl _, by simp [start]⟩

theorem good_after (steps : List Step) : Good (after steps) := by
  induction steps with
  | nil => exact good_start
  | cons step steps ih =>
    cases step with
    | call op => exact ih.run op
    | round r => exact (ih.round r).good

/-- A pass calls no handler twice, none after its deletion, and every handler that it should. -/
theorem passes_complete (steps : List Step) : Paired (after steps) ∧ Sorted (after steps) ∧ ∀ r : Round,
      (callIds (r.run (after steps)).1).Nodup ∧ Alive (r.run (after steps)).1 ∧
        (Fresh (after steps) → r.headClear (after steps) = true → r.Complete (after steps)) := by
  have hgood := good_after steps
  refine ⟨fun i hi => hgood.paired (Async.State.entry _ i) (entry_mem hi), hgood.sorted, fun r => ?_⟩
  have hpassed := hgood.round r
  exact ⟨hpassed.once, hpassed.alive, hgood.complete r⟩

def registered (n : Nat) : List Step :=
  (List.range n).reverse.map fun i : Nat => .call (.add (Int.ofNat (10 + i)) 1 (some i) true)

def addsOne : Round where
  res i := if i < 2 then 1 else 0
  before := []
  acts c := if c = 1 then [.add 12 1 (some 2) true] else []

theorem passes_complete_adds : Fresh (after (registered 2)) ∧ addsOne.headClear (after (registered 2)) = true ∧
    callIds (addsOne.run (after (registered 2))).1 = [1, 2] ∧ addsOne.Complete (after (registered 2)) := by
  have hfresh : Fresh (after (registered 2)) := by
    unfold Fresh
    decide
  exact ⟨hfresh, by decide, by decide, ((passes_complete (registered 2)).2.2 addsOne).2.2 hfresh (by decide)⟩

def deletesItself : Round where
  res i := if i < 2 then 1 else 0
  before := []
  acts c := if c = 0 then [.delete 1] else []

def turnsOff : Round where
  res i := if i < 2 then 1 else 0
  before := []
  acts c := if c = 0 then [.setEvents 2 0] else []

/-- The first handler turns the second one on again, in front of the third one. -/
def turnsOn : Round where
  res i := if i < 2 then 1 else 0
  before := []
  acts c := if c = 0 then [.setEvents 3 0, .setEvents 2 1, .setEvents 3 1] else []

/-- A handler that moves to the first place is forgotten, and one with an old result. -/
theorem passes_incomplete : ¬ deletesItself.Complete (after (registered 2)) ∧
      ¬ turnsOn.Complete (after (.round turnsOff :: registered 4)) := by
  unfold Round.Complete
  decide

end MacOnLinux.Async
