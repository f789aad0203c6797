import MacOnLinux.Timer.Slots

/-! # The order of the active list -/

namespace MacOnLinux.Timer

open Function List Option Nat

variable {s s' s1 : State} {L L' L1 : Lists} {hand : List Slot} {k : Part} {xs ys : List Slot}
variable {t x y : Slot} {e : Entry} {id : Word} {now base : Nat} {c : Call}

/-! ## Differences -/

theorem s64_eq {d : Int} (hlow : -2 ^ 63 ≤ d) (hhigh : d < 2 ^ 63) : s64 d = d := by
  unfold s64 Int.bmod
  dsimp only
  split <;> omega

theorem s32_tbl {a b : Nat} (hlow : b ≤ a + 2 ^ 31) (hhigh : a < b + 2 ^ 31) :
    s32 ((a % 2 ^ 32 : Nat) - (b % 2 ^ 32 : Nat)) = (a : Int) - b := by
  unfold s32 Int.bmod
  dsimp only
  split <;> omega

theorem s32_now {a b : Nat} (hlow : b ≤ a + 2 ^ 31) (hhigh : a < b + 2 ^ 31) :
    s32 (a - (b % 2 ^ 32 : Nat)) = (a : Int) - b := by
  unfold s32 Int.bmod
  dsimp only
  split <;> omega

/-- The longest time that `usecs_to_mticks_` gives. -/
def maxTicks : Nat := 2 ^ 45

theorem usecsToMticks_lt {usecs : Nat} (hfreq : s.tbFreq < 2 ^ 32) (husecs : usecs < 2 ^ 32) :
    usecsToMticks s usecs < maxTicks := by
  have hmul : s.tbFreq * usecs ≤ 2 ^ 32 * 2 ^ 32 := Nat.mul_le_mul hfreq.le husecs.le
  unfold usecsToMticks maxTicks
  omega

theorem recalcLoop_spec {period fuel mark m : Nat} {lost n : Int} (hperiod : period < 2 ^ 32)
    (hnow : now < 2 ^ 63) (hmark : mark ≤ now + maxTicks)
    (hloop : recalcLoop now period fuel lost mark = some (n, m)) :
    now < m ∧ m ≤ now + maxTicks ∧ (now < mark → m = mark) ∧
      (mark ≤ now → now < mark + period → m = mark + period) := by
  unfold maxTicks at *
  induction fuel generalizing lost mark with
  | zero => cases hloop
  | succ fuel ih =>
    have hdiff : s64 (now - mark) = (now : Int) - mark := s64_eq (by omega) (by omega)
    have hwrap : (mark + period) % 2 ^ 64 = mark + period := mod_eq_of_lt (by omega)
    rw [recalcLoop, hwrap] at hloop
    split at hloop
    · obtain ⟨hm, hle, hstay, -⟩ := ih (by omega) hloop
      exact ⟨hm, hle, fun _ => by omega, fun _ hlt => hstay hlt⟩
    · cases hloop
      exact ⟨by omega, by omega, fun _ => rfl, fun _ => by omega⟩

/-! ## The invariant -/

structure Ordered (base : Nat) (s : State) (L : Lists) : Prop where
  front : ∀ x ∈ L .active ++ [s.overflow], (s.entry x).overflow = false ∧ base ≤ (s.entry x).mark
  back : ∀ x ∈ L .parked, (s.entry x).overflow = true ∧ (s.entry s.overflow).mark < (s.entry x).mark
  sorted : (L .active ++ [s.overflow]).Pairwise fun x y => (s.entry x).mark ≤ (s.entry y).mark
  near : (s.entry s.overflow).mark ≤ base + TIMER_MAX

/-- The times that are known of every timer and of the clock. -/
structure Clocked (base : Nat) (s : State) : Prop where
  mark : ∀ x, (s.entry x).mark ≤ s.time + maxTicks
  period : ∀ x, (s.entry x).period < 2 ^ 32
  overflow : (s.entry s.overflow).period = TIMER_MAX ∧ s.last < (s.entry s.overflow).mark
  base : s.last ≤ base ∧ base ≤ s.time
  clock : s.time < s.last + 2 ^ 31 ∧ s.time < 2 ^ 63
  freq : s.tbFreq < 2 ^ 32

theorem overflow_mem (s : State) (L : Lists) : s.overflow ∈ L .active ++ [s.overflow] :=
  mem_append_right _ mem_cons_self

theorem Ordered.le_overflow (h : Ordered base s L) (hx : x ∈ L .active ++ [s.overflow]) :
    (s.entry x).mark ≤ (s.entry s.overflow).mark := by
  rcases mem_append.mp hx with hx | hx
  · exact (pairwise_append.mp h.sorted).2.2 x hx _ mem_cons_self
  · rw [mem_singleton.mp hx]

theorem Ordered.frame (h : Ordered base s L) (hover : s'.overflow = s.overflow)
    (hactive : (L' .active).Sublist (L .active)) (hparked : (L' .parked).Sublist (L .parked))
    (hentry : ∀ x ∈ s.overflow :: (L' .active ++ L' .parked), s'.entry x = s.entry x) :
    Ordered base s' L' := by
  have hover' : s'.entry s'.overflow = s.entry s.overflow := by
    rw [hover]
    exact hentry _ mem_cons_self
  have hsub : (L' .active ++ [s'.overflow]).Sublist (L .active ++ [s.overflow]) := by
    rw [hover]
    exact hactive.append_right _
  have hfront : ∀ x ∈ L' .active ++ [s'.overflow], s'.entry x = s.entry x := by
    intro x hx
    rcases mem_append.mp hx with hx | hx
    · exact hentry x (mem_cons_of_mem _ (mem_append_left _ hx))
    · rw [mem_singleton.mp hx, hover', hover]
  refine ⟨fun x hx => ?_, fun x hx => ?_, ?_, ?_⟩
  · rw [hfront x hx]
    exact h.front x (hsub.subset hx)
  · rw [hover', hentry x (mem_cons_of_mem _ (mem_append_right _ hx))]
    exact h.back x (hparked.subset hx)
  · refine (h.sorted.sublist hsub).imp_of_mem fun {x y} hx hy hle => ?_
    rw [hfront x hx, hfront y hy]
    exact hle
  · rw [hover']
    exact h.near

theorem Ordered.take (h : Ordered base s L) (htaken : Taken s L k x s1 L1) : Ordered base s1 L1 :=
  h.frame htaken.overflow (htaken.sublist _) (htaken.sublist _) fun y _ => congrFun htaken.entry y

theorem Ordered.write (h : Ordered base s L) (hlaid : Laid s L (x :: hand)) (e : Entry) :
    Ordered base (s.setEntry x e) L := by
  refine h.frame rfl (.refl _) (.refl _) fun y hy => update_of_ne ?_ _ _
  rintro rfl
  rcases mem_cons.mp hy with he | hy
  · exact hlaid.hand_ne mem_cons_self he
  · rcases mem_append.mp hy with hy | hy
    · exact hlaid.hand_notMem mem_cons_self _ hy
    · exact hlaid.hand_notMem mem_cons_self _ hy

theorem Clocked.frame (h : Clocked base s) (hover : s'.overflow = s.overflow)
    (hentry : ∀ x, (s'.entry x).mark = (s.entry x).mark ∧ (s'.entry x).period = (s.entry x).period)
    (htime : s'.time = s.time) (hlast : s'.last = s.last) (hfreq : s'.tbFreq = s.tbFreq) :
    Clocked base s' := by
  refine ⟨fun x => ?_, fun x => ?_, ?_, ?_, ?_, ?_⟩
  · rw [(hentry x).1, htime]
    exact h.mark x
  · rw [(hentry x).2]
    exact h.period x
  · rw [hover, hlast, (hentry _).1, (hentry _).2]
    exact h.overflow
  · rw [hlast, htime]
    exact h.base
  · rw [hlast, htime]
    exact h.clock
  · rw [hfreq]
    exact h.freq

theorem Clocked.relink (h : Clocked base s) (hrel : Relinked s s') : Clocked base s' := by
  rw [hrel]
  exact h.frame rfl (fun _ => ⟨rfl, rfl⟩) rfl rfl rfl

theorem Clocked.write (h : Clocked base s) (hmark : e.mark ≤ s.time + maxTicks) (hperiod : e.period < 2 ^ 32)
    (hover : x = s.overflow → e.period = TIMER_MAX ∧ s.last < e.mark) : Clocked base (s.setEntry x e) := by
  refine ⟨?_, ?_, ?_, h.base, h.clock, h.freq⟩
  · exact (forall_update_iff s.entry fun _ e => e.mark ≤ s.time + maxTicks).mpr ⟨hmark, fun y _ => h.mark y⟩
  · exact (forall_update_iff s.entry fun _ e => e.period < 2 ^ 32).mpr ⟨hperiod, fun y _ => h.period y⟩
  · show (update s.entry x e s.overflow).period = _ ∧ _ < (update s.entry x e s.overflow).mark
    by_cases hx : x = s.overflow
    · rw [hx, update_self]
      exact hover hx
    · rw [update_of_ne (Ne.symm hx)]
      exact h.overflow

theorem Clocked.rebase (h : Clocked base s) {b : Nat} (hb : s.last ≤ b ∧ b ≤ s.time) : Clocked b s :=
  ⟨h.mark, h.period, h.overflow, hb, h.clock, h.freq⟩

/-! ## Insertion -/

theorem Clocked.isFar_iff (h : Clocked base s) (hb : base ≤ (s.entry t).mark)
    (hnear : (s.entry s.overflow).mark ≤ base + TIMER_MAX) :
    s.isFar t = true ↔ (s.entry s.overflow).mark < (s.entry t).mark := by
  have hmark := h.mark t
  have hclock := h.clock
  have hover := h.overflow.2
  unfold maxTicks at hmark
  unfold TIMER_MAX at hnear
  unfold State.isFar
  rw [s64_eq (by omega) (by omega)]
  simp only [decide_eq_true_eq]
  omega

theorem Ordered.sooner_iff (h : Ordered base s L) (hb : base ≤ (s.entry t).mark)
    (hle : (s.entry t).mark ≤ (s.entry s.overflow).mark) (hx : x ∈ L .active ++ [s.overflow]) :
    s.sooner t (.slot x) = true ↔ (s.entry x).mark < (s.entry t).mark := by
  have hxlow := (h.front x hx).2
  have hxhigh := h.le_overflow hx
  have hnear := h.near
  unfold TIMER_MAX at hnear
  unfold State.sooner Entry.tbl
  dsimp only
  rw [s32_tbl (by omega) (by omega)]
  simp only [decide_eq_true_eq]
  omega

theorem pairwise_insert {α : Type} (key : α → Nat) {a : α} {as bs : List α}
    (h : (as ++ bs).Pairwise fun x y => key x ≤ key y) (has : ∀ x ∈ as, key x ≤ key a)
    (hbs : ∀ x ∈ bs.head?, key a ≤ key x) :
    (as ++ a :: bs).Pairwise fun x y => key x ≤ key y := by
  obtain ⟨hleft, hright, hcross⟩ := pairwise_append.mp h
  have hall : ∀ x ∈ bs, key a ≤ key x := by
    cases bs with
    | nil => nofun
    | cons b bs =>
      intro x hx
      rcases mem_cons.mp hx with rfl | hx
      · exact hbs x rfl
      · exact Nat.le_trans (hbs b rfl) ((pairwise_cons.mp hright).1 x hx)
  refine pairwise_append.mpr ⟨hleft, pairwise_cons.mpr ⟨hall, hright⟩, fun x hx y hy => ?_⟩
  rcases mem_cons.mp hy with rfl | hy
  · exact has x hx
  · exact hcross x hx y hy

/-- `insert_timer` keeps the order: a timer behind the overflow timer gets the flag. -/
theorem Ordered.insert_far (h : Ordered base s L) (hlaid : Laid s L (t :: hand))
    (hlt : (s.entry s.overflow).mark < (s.entry t).mark)
    (hentry : s'.entry = update s.entry t { s.entry t with overflow := true })
    (hover : s'.overflow = s.overflow) :
    Ordered base s' (update L .parked (t :: L .parked)) := by
  have hf : Ordered base s' L := (h.write hlaid _).frame hover (.refl _) (.refl _) fun x _ => congrFun hentry x
  refine ⟨hf.front, fun x hx => ?_, hf.sorted, hf.near⟩
  rcases mem_cons.mp (show x ∈ t :: L .parked from hx) with rfl | hx
  · rw [hentry, hover, update_self, update_of_ne (Ne.symm (hlaid.hand_ne mem_cons_self))]
    exact ⟨rfl, hlt⟩
  · exact hf.back x hx

theorem Ordered.insert_near (h : Ordered base s L) (hb : base ≤ (s.entry t).mark)
    (hle : (s.entry t).mark ≤ (s.entry s.overflow).mark) (hflag : (s.entry t).overflow = false)
    (hk : L .active = xs ++ ys) (hxs : ∀ y ∈ xs, s.sooner t (.slot y) = true)
    (hys : ∀ y ∈ (ys ++ [s.overflow]).head?, s.sooner t (.slot y) = false)
    (hrel : Relinked s s') : Ordered base s' (update L .active (xs ++ t :: ys)) := by
  have hA : L .active ++ [s.overflow] = xs ++ (ys ++ [s.overflow]) := by
    rw [hk, append_assoc]
  have hsooner : ∀ {x}, x ∈ xs ++ (ys ++ [s.overflow]) →
      (s.sooner t (.slot x) = true ↔ (s.entry x).mark < (s.entry t).mark) :=
    fun hx => h.sooner_iff hb hle (hA ▸ hx)
  have hsorted := h.sorted
  rw [hA] at hsorted
  have hsplit : update L .active (xs ++ t :: ys) .active ++ [s.overflow] =
      xs ++ t :: (ys ++ [s.overflow]) := by
    rw [update_self, append_assoc]
    rfl
  rw [hrel]
  refine ⟨fun x hx => ?_, h.back, ?_, h.near⟩ <;> dsimp only at *
  · rw [hsplit] at hx
    rcases mem_append.mp hx with hx | hx
    · exact h.front x (hA ▸ mem_append_left _ hx)
    · rcases mem_cons.mp hx with rfl | hx
      · exact ⟨hflag, hb⟩
      · exact h.front x (hA ▸ mem_append_right _ hx)
  · rw [hsplit]
    refine pairwise_insert (fun x => (s.entry x).mark) hsorted (fun x hx => ?_) fun x hx => ?_
    · exact le_of_lt ((hsooner (mem_append_left _ hx)).mp (hxs x hx))
    · refine Nat.le_of_not_lt fun hlt => ?_
      have hmem := mem_append_right xs (mem_of_mem_head? hx)
      exact Bool.eq_false_iff.mp (hys x hx) ((hsooner hmem).mpr hlt)

theorem Ordered.insert (h : Ordered base s L) (hclock : Clocked base s) (hlaid : Laid s L (t :: hand))
    (hb : base ≤ (s.entry t).mark)
    (hflag : (s.entry t).overflow = true → (s.entry s.overflow).mark < (s.entry t).mark) :
    ∃ s' L', insertTimer s t = some s' ∧ Laid s' L' hand ∧ Ordered base s' L' ∧ Clocked base s' ∧
      (∀ x, (s'.entry x).mark = (s.entry x).mark) ∧ s'.pending = s.pending := by
  have hfar := hclock.isFar_iff hb h.near
  cases hcase : s.isFar t with
  | true =>
    obtain ⟨s1, hins, hrel, hlaid'⟩ := hlaid.insert_far hcase
    have hover : s1.overflow = s.overflow := by rw [hrel]
    have hsame : ∀ x, (update s.entry t { s.entry t with overflow := true } x).mark = (s.entry x).mark ∧
        (update s.entry t { s.entry t with overflow := true } x).period = (s.entry x).period := by
      intro x
      by_cases hx : x = t
      · subst hx
        rw [update_self]
        exact ⟨rfl, rfl⟩
      · rw [update_of_ne hx]
        exact ⟨rfl, rfl⟩
    exact ⟨_, _, hins, hlaid'.congr rfl rfl, h.insert_far hlaid (hfar.mp hcase) rfl hover,
      hclock.frame hover hsame (by rw [hrel]) (by rw [hrel]) (by rw [hrel]), fun x => (hsame x).1,
      by rw [hrel]⟩
  | false =>
    have hle : (s.entry t).mark ≤ (s.entry s.overflow).mark :=
      Nat.le_of_not_lt fun hlt => Bool.eq_false_iff.mp hcase (hfar.mpr hlt)
    have hclear : (s.entry t).overflow = false := by
      rw [Bool.eq_false_iff]
      exact fun hset => not_lt.mpr hle (hflag hset)
    obtain ⟨k, xs, ys, s', hk, hins, hrel, hlaid', hpos⟩ := hlaid.insert_near hcase
    have hentry : s'.entry = s.entry := by rw [hrel]
    refine ⟨s', _, hins, hlaid', ?_, hclock.relink hrel, fun x => by rw [hentry], by rw [hrel]⟩
    rcases hpos with ⟨rfl, hxs, hys⟩ | ⟨-, hall⟩
    · exact h.insert_near hb hle hclear hk hxs hys hrel
    · -- it would be later than the overflow timer
      have hlt := (h.sooner_iff hb hle (overflow_mem s L)).mp
        (hall s.overflow (mem_append_right _ mem_cons_self))
      exact absurd hlt (not_lt.mpr hle)

/-! ## The calls -/

def Kept (base : Nat) (s s' : State) : Prop :=
  ∃ L', Laid s' L' [] ∧ Ordered base s' L' ∧ Clocked base s' ∧ s'.pending = s.pending

theorem Kept.refl (h : Ordered base s L) (hclock : Clocked base s) (hlaid : Laid s L []) :
    Kept base s s :=
  ⟨L, hlaid, h, hclock, rfl⟩

theorem Clocked.taken (h : Clocked base s) (htaken : Taken s L k x s1 L1)
    (hmark : e.mark ≤ s.time + maxTicks) (hperiod : e.period < 2 ^ 32) :
    Clocked base (s1.setEntry x e) := by
  have htime : s1.time = s.time := by rw [htaken.relinked]
  refine (h.relink htaken.relinked).write (by rw [htime]; exact hmark) hperiod fun he => absurd he ?_
  rw [htaken.overflow]
  exact htaken.ne_overflow

section Quiet

variable (h : Ordered base s L) (hclock : Clocked base s)

include h hclock

theorem Ordered.armed
    (htaken : Taken s L k x s1 L1) (hmark : e.mark ≤ s.time + maxTicks) (hperiod : e.period < 2 ^ 32)
    (hb : base ≤ e.mark) (hflag : e.overflow = true → (s.entry s.overflow).mark < e.mark)
    (hins : insertTimer (s1.setEntry x e) x = some s') : Kept base s s' := by
  have hself : (s1.setEntry x e).entry x = e := update_self ..
  have hover : (s1.setEntry x e).entry (s1.setEntry x e).overflow = s.entry s.overflow := by
    rw [State.setEntry, htaken.overflow, htaken.entry]
    exact update_of_ne (Ne.symm htaken.ne_overflow) _ _
  obtain ⟨s2, L', hins', hlaid, hordered, hclock', -, hpending⟩ :=
    ((h.take htaken).write htaken.laid e).insert (hclock.taken htaken hmark hperiod)
      (htaken.laid.setEntry x e) (by rw [hself]; exact hb) (by rw [hself, hover]; exact hflag)
  cases hins'.symm.trans hins
  refine ⟨L', hlaid, hordered, hclock', hpending.trans ?_⟩
  show s1.pending = s.pending
  rw [htaken.relinked]

theorem Ordered.placed
    (htaken : Taken s L k x s1 L1) (hmark : e.mark ≤ s.time + maxTicks) (hperiod : e.period < 2 ^ 32)
    {k' : Part} (hk' : k' = .inactive ∨ k' = .free) :
    Kept base s ((s1.setEntry x e).link (s1.headCell k') x) := by
  have hlaid : Laid ((s1.setEntry x e).link (s1.headCell k') x) _ [] :=
    (htaken.laid.setEntry x e).push k'
  refine ⟨_, hlaid, ?_, (hclock.taken htaken hmark hperiod).relink rfl, ?_⟩
  · refine ((h.take htaken).write htaken.laid e).frame rfl ?_ ?_ fun y _ => rfl
    · rcases hk' with rfl | rfl <;> exact .refl _
    · rcases hk' with rfl | rfl <;> exact .refl _
  · show s1.pending = s.pending
    rw [htaken.relinked]

theorem Ordered.moved
    (htaken : Taken s L k x s1 L1) {k' : Part} (hk' : k' = .inactive ∨ k' = .free) :
    Kept base s (s1.link (s1.headCell k') x) := by
  have hplaced := h.placed hclock htaken (hclock.mark x) (hclock.period x) hk'
  have hsame : s1.setEntry x (s.entry x) = s1 := by
    rw [State.setEntry, ← htaken.entry, update_eq_self]
  rw [hsame] at hplaced
  exact hplaced

theorem Ordered.dequeued (hlaid : Laid s L [])
    {r : Option State} {k' : Part} (hk' : k' = .inactive ∨ k' = .free) (hcases : Moved s L k' r)
    (hcall : r = some s') : Kept base s s' := by
  rcases hcases with hnone | ⟨k, x, s1, L1, -, htaken, hcase⟩
  · cases hnone.symm.trans hcall
    exact .refl h hclock hlaid
  · cases hcase.symm.trans hcall
    exact h.moved hclock htaken hk'

omit h in
theorem Clocked.add_mod {ticks : Nat} (hticks : ticks < maxTicks) :
    (ticks + s.time) % 2 ^ 64 = ticks + s.time := by
  have htime := hclock.clock.2
  unfold maxTicks at hticks
  exact mod_eq_of_lt (by omega)

theorem Ordered.absTimer (hlaid : Laid s L []) {ticks tag : Nat} (hticks : ticks < maxTicks)
    (hcall : absTimer s ((ticks + s.time) % 2 ^ 64) tag = some (id, s')) : Kept base s s' := by
  have hbase := hclock.base.2
  rw [hclock.add_mod hticks] at hcall
  rcases hlaid.absTimer_cases (ticks + s.time) tag with hnone | ⟨t, s1, L1, e, htaken, rfl, hcase⟩
  · cases hnone.symm.trans hcall
    exact .refl h hclock hlaid
  rw [hcase] at hcall
  obtain ⟨s2, hins, he⟩ := map_eq_some_iff.mp hcall
  cases he
  refine h.armed hclock htaken ?_ ?_ ?_ ?_ hins
  · show ticks + s.time ≤ _
    omega
  · exact zero_lt_succ _
  · show base ≤ ticks + s.time
    omega
  · exact Bool.noConfusion

theorem Ordered.newPtimer (hlaid : Laid s L [])
    (f : Handler) (a : Bool) : Kept base s (newPtimer s f a).2 := by
  rcases hlaid.newPtimer_cases f a with hnone | ⟨t, s1, L1, htaken, hcase⟩
  · rw [hnone]
    exact .refl h hclock hlaid
  · rw [hcase]
    refine h.placed hclock htaken ?_ ?_ (.inl rfl)
    · exact hclock.mark t
    · exact zero_lt_succ _

theorem Ordered.setPtimer (hlaid : Laid s L [])
    (hid : (s.entry s.overflow).id ≠ id) {uperiod : Nat} (huperiod : uperiod < 2 ^ 32)
    (hflag : ∀ x, (s.entry x).id = id → x ∉ L .free → (s.entry x).overflow = true →
      (s.entry s.overflow).mark < s.time + usecsToMticks s (if uperiod ≤ 10 then 2000 else uperiod))
    (hcall : setPtimer s s.time id uperiod = some s') : Kept base s s' := by
  have hbase := hclock.base.2
  rcases hlaid.setPtimer_cases hid uperiod with
    hnone | ⟨k, x, s1, L1, ticks, hk, htaken, hx, hticks, hcase⟩
  · cases hnone.symm.trans hcall
    exact .refl h hclock hlaid
  have hlt : ticks < maxTicks := by
    rw [hticks]
    refine usecsToMticks_lt hclock.freq ?_
    split <;> omega
  have hmod := hclock.add_mod hlt
  have hlive : x ∉ L .free := fun hm => hk (hlaid.part_unique htaken.mem hm)
  refine h.armed hclock htaken ?_ ?_ ?_ (fun hset => ?_) (hcase.symm.trans hcall)
  · show (ticks + s.time) % 2 ^ 64 ≤ _
    omega
  · exact mod_lt _ (by decide)
  · show base ≤ (ticks + s.time) % 2 ^ 64
    omega
  · have := hflag x hx hlive hset
    rw [← hticks] at this
    show _ < (ticks + s.time) % 2 ^ 64
    omega

theorem Ordered.resumePtimer {lost : Int} (hlaid : Laid s L []) (hid : (s.entry s.overflow).id ≠ id)
    (hflag : ∀ x, (s.entry x).id = id → x ∉ L .free → (s.entry x).overflow = true →
      s.time < (s.entry x).mark ∧ (s.entry s.overflow).mark < (s.entry x).mark)
    (hcall : resumePtimer s s.time id = some (lost, s')) : Kept base s s' := by
  have hbase := hclock.base.2
  rcases hlaid.resumePtimer_cases hid hcall with
    rfl | ⟨k, x, s1, L1, n, m, hk, htaken, hx, hloop, hins⟩
  · exact .refl h hclock hlaid
  have hlive : x ∉ L .free := fun hm => hk (hlaid.part_unique htaken.mem hm)
  obtain ⟨hlt, hle, hstay, -⟩ :=
    recalcLoop_spec (hclock.period x) hclock.clock.2 (hclock.mark x) hloop
  refine h.armed hclock htaken ?_ ?_ ?_ (fun hset => ?_) hins
  · exact hle
  · exact hclock.period x
  · show base ≤ m
    omega
  · obtain ⟨hlater, hfar⟩ := hflag x hx hlive hset
    rw [hstay hlater]
    exact hfar

/-! ## Firing -/

theorem Ordered.isQuiet_iff (hbase : base ≤ now)
    (hnow : now ≤ s.time) (ht : t ∈ L .active ++ [s.overflow]) :
    isQuiet s now t = true ↔ now < (s.entry t).mark := by
  obtain ⟨hflag, hlow⟩ := h.front t ht
  have hhigh := h.le_overflow ht
  have hnear := h.near
  have htime := hclock.clock.1
  have hlast := hclock.base.1
  unfold TIMER_MAX at hnear
  unfold isQuiet Entry.tbl
  rw [hflag, s32_now (by omega) (by omega)]
  simp only [Bool.or_false, decide_eq_true_eq]
  omega

end Quiet

theorem Ordered.none_due (h : Ordered base s L) (ht : t ∈ (L .active ++ [s.overflow]).head?)
    (hlt : now < (s.entry t).mark) :
    ∀ x ∈ L .active ++ s.overflow :: L .parked, now < (s.entry x).mark := by
  have hfront : ∀ x ∈ L .active ++ [s.overflow], now < (s.entry x).mark := by
    intro x hx
    have hsorted := h.sorted
    cases hA : L .active ++ [s.overflow] with
    | nil => rw [hA] at hx; cases hx
    | cons z zs =>
      rw [hA] at ht hx hsorted
      cases some.inj ht
      rcases mem_cons.mp hx with rfl | hx
      · exact hlt
      · exact lt_of_lt_of_le hlt ((pairwise_cons.mp hsorted).1 x hx)
  intro x hx
  rcases mem_append.mp hx with hx | hx
  · exact hfront x (mem_append_left _ hx)
  · rcases mem_cons.mp hx with rfl | hx
    · exact hfront _ (overflow_mem s L)
    · exact lt_trans (hfront _ (overflow_mem s L)) (h.back x hx).2

/-- The overflow timer has fired, with its handler still to be called. -/
structure Shaken (base : Nat) (s : State) (L : Lists) : Prop where
  marked : ∀ x ∈ L .active ++ L .parked, (s.entry x).overflow = true ∧ base ≤ (s.entry x).mark
  overflow : (s.entry s.overflow).overflow = false
  near : base ≤ (s.entry s.overflow).mark ∧ (s.entry s.overflow).mark ≤ base + TIMER_MAX

/-- The order of the list, with what is known while `overflow_handler` is due. -/
def InOrder (s : State) (L : Lists) : Prop :=
  ∃ base, Clocked base s ∧ (s.pending = false → Ordered base s L) ∧ (s.pending = true → Shaken base s L)

def Settled (s : State) : Prop := ∃ L, Laid s L [] ∧ InOrder s L

theorem Kept.inOrder (h : Kept base s s') (hpending : s.pending = false) : Settled s' := by
  obtain ⟨L', hlaid, hordered, hclock, hsame⟩ := h
  refine ⟨L', hlaid, base, hclock, fun _ => hordered, fun htrue => ?_⟩
  rw [hsame, hpending] at htrue
  cases htrue

section Calls

variable (h : Ordered base s L) (hclock : Clocked base s)

include h hclock

theorem Ordered.quiet (hbase : base ≤ now)
    (hnow : now ≤ s.time) (hdue : ∀ x ∈ L .active ++ s.overflow :: L .parked, now < (s.entry x).mark) :
    Ordered now { s with last := now } L ∧ Clocked now { s with last := now } := by
  have hlast := hclock.base.1
  have htime := hclock.clock
  have hover := hdue s.overflow (mem_append_right _ mem_cons_self)
  refine ⟨⟨fun x hx => ⟨(h.front x hx).1, ?_⟩, h.back, h.sorted, ?_⟩,
    ⟨hclock.mark, hclock.period, ⟨hclock.overflow.1, hover⟩, ⟨le_refl _, hnow⟩, ?_, hclock.freq⟩⟩
  · refine le_of_lt (hdue x ?_)
    rcases mem_append.mp hx with hx | hx
    · exact mem_append_left _ hx
    · rw [mem_singleton.mp hx]
      exact mem_append_right _ mem_cons_self
  · exact Nat.le_trans h.near (Nat.add_le_add_right hbase _)
  · show s.time < now + 2 ^ 31 ∧ s.time < 2 ^ 63
    omega

theorem Ordered.fire_overflow (hsound : Sound s L [])
    (hactive : L .active = []) (hdue : (s.entry s.overflow).mark ≤ s.time)
    (hcall : fire s s.time s.overflow = some s') : Settled s' := by
  obtain ⟨-, hp, ha, hclear, hf⟩ := (hsound.fit s.overflow).overflow rfl
  obtain ⟨xs, ys, n, m, hL, hloop, hs', hlaid⟩ :=
    hsound.laid.fire_overflow hactive hp ha hf hcall
  obtain ⟨hperiod, hlast⟩ := hclock.overflow
  have htime := hclock.clock
  obtain ⟨hlt, hle, -, honce⟩ := recalcLoop_spec (hclock.period _) htime.2 (hclock.mark _) hloop
  have hm : m = (s.entry s.overflow).mark + TIMER_MAX := by
    rw [hperiod] at honce
    refine honce hdue ?_
    unfold TIMER_MAX
    omega
  have hfired : Clocked (s.entry s.overflow).mark s' := by
    have hwrite := (hclock.rebase ⟨le_of_lt hlast, hdue⟩).write (x := s.overflow)
      (e := { s.entry s.overflow with mark := m }) hle (hclock.period _) fun _ => ⟨hperiod, by dsimp only; omega⟩
    rw [hs']
    exact hwrite.frame rfl (fun _ => ⟨rfl, rfl⟩) rfl rfl rfl
  have hself : s'.entry s'.overflow = { s.entry s.overflow with mark := m } := by
    rw [hs']
    exact update_self ..
  have hpending : s'.pending = true := by rw [hs']
  refine ⟨_, hlaid, _, hfired, fun hfalse => ?_, fun _ => ⟨fun x hx => ?_, ?_, ?_⟩⟩
  · rw [hpending] at hfalse
    cases hfalse
  · have hx' : x ∈ L .parked := by
      rw [hL]
      exact hx
    have hother : s'.entry x = s.entry x := by
      rw [hs']
      exact update_of_ne (fun he : x = s.overflow => hsound.laid.overflow_notMem .parked (he ▸ hx')) _ _
    obtain ⟨hflag, hlt⟩ := h.back x hx'
    rw [hother]
    exact ⟨hflag, le_of_lt hlt⟩
  · rw [hself]
    exact hclear
  · rw [hself]
    show (s.entry s.overflow).mark ≤ m ∧ m ≤ (s.entry s.overflow).mark + TIMER_MAX
    omega

theorem Ordered.fire (hsound : Sound s L [])
    (hpending : s.pending = false) (ht : t ∈ (L .active ++ [s.overflow]).head?)
    (hdue : (s.entry t).mark ≤ s.time) (hcall : fire s s.time t = some s') : Settled s' := by
  cases hactive : L .active with
  | nil =>
    rw [hactive] at ht
    cases some.inj ht
    exact h.fire_overflow hclock hsound hactive hdue hcall
  | cons t' A =>
    rw [hactive] at ht
    cases some.inj ht
    have hne : t ≠ s.overflow := by
      rintro rfl
      exact hsound.laid.overflow_notMem .active (hactive ▸ mem_cons_self)
    obtain ⟨s1, L1, htaken, hcase⟩ := hsound.laid.fire_cases hactive ((hsound.fit t).client hne)
    rw [show ({ s with pending := false } : State) = s by rw [← hpending]] at htaken
    suffices hkept : Kept base s s' from hkept.inOrder hpending
    rw [hcase] at hcall
    split at hcall
    · split at hcall
      · obtain ⟨⟨l, s2⟩, hrecalc, hins⟩ := bind_eq_some_iff.mp hcall
        obtain ⟨n, m, hloop, rfl⟩ := recalcPtimer_cases hrecalc
        rw [htaken.entry] at hloop hins
        obtain ⟨hlt, hle, -, -⟩ :=
          recalcLoop_spec (hclock.period t) hclock.clock.2 (hclock.mark t) hloop
        have hbase := hclock.base.2
        have hflag := (h.front t (hactive ▸ mem_cons_self)).1
        refine h.armed hclock htaken ?_ ?_ ?_ (fun hset => ?_) hins
        · exact hle
        · exact hclock.period t
        · show base ≤ m
          omega
        · exact absurd (hflag.symm.trans hset) Bool.noConfusion
      · cases hcall
        exact h.moved hclock htaken (.inl rfl)
    · cases hcall
      exact h.moved hclock htaken (.inr rfl)

theorem Ordered.rvecTimer (hsound : Sound s L [])
    (hpending : s.pending = false) (hbase : base ≤ now) (hnow : now ≤ s.time)
    (hcall : rvecTimer s now s.time = some s') :
    Settled s' ∧ (rvecReturns s now = true → s' = { s with last := now } ∧
        ∀ x ∈ L .active ++ s.overflow :: L .parked, now < (s.entry x).mark) := by
  obtain ⟨t, ht, hreturns, hcase⟩ := hsound.laid.rvecTimer_cases
  have hquiet := h.isQuiet_iff hclock hbase hnow (mem_of_mem_head? ht)
  rw [hcase] at hcall
  rw [hreturns]
  split at hcall
  · rename_i htrue
    cases hcall
    have hdue := h.none_due ht (hquiet.mp htrue)
    obtain ⟨hordered, hclocked⟩ := h.quiet hclock hbase hnow hdue
    refine ⟨⟨L, hsound.laid.congr rfl rfl, now, hclocked, fun _ => hordered, fun hset => ?_⟩,
      fun _ => ⟨rfl, hdue⟩⟩
    exact absurd (hpending.symm.trans hset) Bool.noConfusion
  · rename_i hfalse
    refine ⟨h.fire hclock hsound hpending ht ?_ hcall, fun htrue => absurd htrue hfalse⟩
    exact Nat.le_trans (Nat.le_of_not_lt fun hlt => hfalse (hquiet.mpr hlt)) hnow

end Calls

theorem Shaken.overflowHandler (h : Shaken base s L) (hclock : Clocked base s) (hlaid : Laid s L [])
    (hcall : overflowHandler s = some s') : Settled s' := by
  obtain ⟨s1, L1, hand, hcase, hlaid1, hs1, hactive, hparked, -, -, hhand⟩ :=
    hlaid.overflowHandler_cases h.overflow
  have hentry : s1.entry = s.entry := by rw [hs1]
  have hover : s1.overflow = s.overflow := by rw [hs1]
  have hempty : ∀ W : List Slot, (∀ x ∈ W, (s.entry x).overflow = true) →
      W.filter (fun x => !(s.entry x).overflow) = [] := by
    intro W hW
    rw [filter_eq_nil_iff]
    intro x hx
    simp [hW x hx]
  rw [hempty _ fun x hx => (h.marked x (mem_append_left _ hx)).1] at hactive
  rw [hempty _ fun x hx => (h.marked x (mem_append_right _ hx)).1] at hparked
  have hordered : Ordered base s1 L1 := by
    refine ⟨fun x hx => ?_, fun x hx => ?_, ?_, ?_⟩
    · rw [hactive] at hx
      rw [mem_singleton.mp hx, hentry, hover]
      exact ⟨h.overflow, h.near.1⟩
    · rw [hparked] at hx
      cases hx
    · rw [hactive]
      exact pairwise_singleton _ _
    · rw [hentry, hover]
      exact h.near.2
  have hclock1 : Clocked base s1 :=
    hclock.frame hover (fun x => by rw [hentry]; exact ⟨rfl, rfl⟩) (by rw [hs1]) (by rw [hs1])
      (by rw [hs1])
  -- what one round of the second loop keeps
  obtain ⟨s2, L2, hall, hlaid2, hordered2, hclock2, -, hpending⟩ := insertAll_keeps
    (P := fun s L hand => Laid s L hand ∧ Ordered base s L ∧ Clocked base s ∧
      (∀ x ∈ hand, base ≤ (s.entry x).mark) ∧ s.pending = false)
    (fun s L t hand ⟨hlaid, hordered, hclock, hmarks, hpending⟩ => by
      have hself : (s.setEntry t { s.entry t with overflow := false }).entry t =
          { s.entry t with overflow := false } := update_self ..
      have hne := hlaid.hand_ne (mem_cons_self : t ∈ t :: hand)
      obtain ⟨s', L', hins, hlaid', hordered', hclock', hmark, hpending'⟩ :=
        (hordered.write hlaid { s.entry t with overflow := false }).insert
          (hclock.write (hclock.mark t) (hclock.period t) fun he => absurd he hne)
          (hlaid.setEntry t { s.entry t with overflow := false })
          (by rw [hself]; exact hmarks t mem_cons_self)
          (by rw [hself]; exact Bool.noConfusion)
      refine ⟨s', L', hins, hlaid', hordered', hclock', fun x hx => ?_, hpending'.trans hpending⟩
      rw [hmark]
      by_cases hx' : x = t
      · rw [hx', hself]
        exact hmarks t mem_cons_self
      · simp only [State.setEntry, update_of_ne hx']
        exact hmarks x (mem_cons_of_mem _ hx))
    ⟨hlaid1, hordered, hclock1, fun x hx => by
      rw [hentry]
      exact (h.marked x (hhand x hx).1).2, by rw [hs1]⟩
  rw [hcase] at hcall
  cases hall.symm.trans hcall
  refine ⟨L2, hlaid2, base, hclock2, fun _ => hordered2, fun hset => ?_⟩
  exact absurd (hpending.symm.trans hset) Bool.noConfusion

/-! ## Runs -/

def Call.fits : Call → Bool
  | .tickTimer ticks _ => ticks < 2 ^ 32
  | .usecTimer usecs _ => usecs < 2 ^ 32
  | .setPtimer _ uperiod => uperiod < 2 ^ 32
  | _ => true

def Call.rearms (s : State) (now : Nat) : Call → Bool
  | .setPtimer id uperiod => decide <|
    ∀ x, (s.entry x).id = id → s.isFree x = false → (s.entry x).overflow = true →
      (s.entry s.overflow).mark < now + usecsToMticks s (if uperiod ≤ 10 then 2000 else uperiod)
  | .resumePtimer id => decide <|
    ∀ x, (s.entry x).id = id → s.isFree x = false → (s.entry x).overflow = true →
      now < (s.entry x).mark ∧ (s.entry s.overflow).mark < (s.entry x).mark
  | _ => true

/-- The timebase and `rvec_timer` are on time, and the overflow timer is left alone. -/
def admissible (s : State) (now : Nat) (c : Call) : Bool :=
  decide (s.time ≤ now ∧ c.until now < s.last + 2 ^ 31 ∧ c.until now < 2 ^ 63 ∧
    c.named ≠ some 0x101 ∧ (s.pending = true → c = .overflowHandler)) && c.fits && c.rearms s now

def admitted (s : State) : List (Nat × Call) → Bool
  | [] => true
  | (now, c) :: calls => admissible s now c &&
    match step s now c with
    | some s' => admitted s' calls
    | none => true

theorem admissible_iff : admissible s now c = true ↔
    (s.time ≤ now ∧ c.until now < s.last + 2 ^ 31 ∧ c.until now < 2 ^ 63 ∧
      c.named ≠ some 0x101 ∧ (s.pending = true → c = .overflowHandler)) ∧
    c.fits = true ∧ c.rearms s now = true := by
  unfold admissible
  simp only [Bool.and_eq_true, decide_eq_true_eq, and_assoc]

theorem le_until (now : Nat) (c : Call) : now ≤ c.until now := by
  cases c <;> simp [Call.until]

theorem Clocked.advance (h : Clocked base s) (hadm : admissible s now c = true) :
    base ≤ now ∧ Clocked base { s with time := c.until now } := by
  obtain ⟨⟨htime, hlast, hlt, -⟩, -⟩ := admissible_iff.mp hadm
  have hle := Nat.le_trans htime (le_until now c)
  refine ⟨Nat.le_trans h.base.2 htime, fun x => ?_, h.period, h.overflow,
    ⟨h.base.1, Nat.le_trans h.base.2 hle⟩, ⟨hlast, hlt⟩, h.freq⟩
  exact Nat.le_trans (h.mark x) (Nat.add_le_add_right hle _)

theorem Ordered.advance (h : Ordered base s L) (time : Nat) : Ordered base { s with time := time } L :=
  h.frame rfl (.refl _) (.refl _) fun _ _ => rfl

theorem Ordered.called (h : Ordered base s L) (hclock : Clocked base s) (hsound : Sound s L [])
    (hpending : s.pending = false) (hbase : base ≤ now) (htime : s.time = c.until now)
    (hnamed : c.named ≠ some 0x101) (hfits : c.fits = true) (hrearms : c.rearms s now = true)
    (hstep : step s now c = some s') : Settled s' := by
  have hlaid := hsound.laid
  have hid : ∀ {id}, c.named = some id → (s.entry s.overflow).id ≠ id := by
    rintro id hc rfl
    exact hnamed (hc.trans (congrArg some hsound.overflow_id))
  have hlive : ∀ {x}, x ∉ L .free → s.isFree x = false := fun hx =>
    Bool.eq_false_iff.mpr fun hm => hx (hlaid.isFree_iff.mp hm)
  have hsame : ({ s with time := c.until now } : State) = s := by rw [← htime]
  unfold step at hstep
  rw [hsame] at hstep
  cases c with
  | tickTimer ticks tag =>
    obtain ⟨⟨id, s1⟩, hcall, rfl⟩ := map_eq_some_iff.mp hstep
    cases htime
    have hticks := of_decide_eq_true hfits
    exact (h.absTimer hclock hlaid (by unfold maxTicks; omega) hcall).inOrder hpending
  | usecTimer usecs tag =>
    obtain ⟨⟨id, s1⟩, hcall, rfl⟩ := map_eq_some_iff.mp hstep
    cases htime
    have hticks := usecsToMticks_lt hclock.freq (of_decide_eq_true hfits)
    exact (h.absTimer hclock hlaid hticks hcall).inOrder hpending
  | cancelTimer id =>
    exact (h.dequeued hclock hlaid (.inr rfl) (hlaid.cancelTimer_cases (hid rfl)) hstep).inOrder hpending
  | newPtimer tag autoResume =>
    cases hstep
    exact (h.newPtimer hclock hlaid (.client tag) autoResume).inOrder hpending
  | setPtimer id uperiod =>
    cases htime
    refine (h.setPtimer hclock hlaid (hid rfl) (of_decide_eq_true hfits) (fun x hx hm => ?_)
      hstep).inOrder hpending
    exact of_decide_eq_true hrearms x hx (hlive hm)
  | pausePtimer id =>
    exact (h.dequeued hclock hlaid (.inl rfl) (hlaid.pausePtimer_cases (hid rfl)) hstep).inOrder hpending
  | resumePtimer id =>
    obtain ⟨⟨lost, s1⟩, hcall, rfl⟩ := map_eq_some_iff.mp hstep
    cases htime
    refine (h.resumePtimer hclock hlaid (hid rfl) (fun x hx hm => ?_) hcall).inOrder hpending
    exact of_decide_eq_true hrearms x hx (hlive hm)
  | freePtimer id =>
    exact (h.dequeued hclock hlaid (.inr rfl) (hlaid.freePtimer_cases (hid rfl)) hstep).inOrder hpending
  | rvecTimer lag =>
    dsimp only at hstep
    rw [hpending] at hstep
    have hlater : now + lag = s.time := htime.symm
    rw [hlater] at hstep
    exact (h.rvecTimer hclock hsound hpending hbase (hlater ▸ le_add_right _ _) hstep).1
  | overflowHandler =>
    dsimp only at hstep
    rw [hpending] at hstep
    cases hstep

theorem step_inOrder (hsound : Sound s L []) (h : InOrder s L) (hadm : admissible s now c = true)
    (hstep : step s now c = some s') : ∃ L', Sound s' L' [] ∧ InOrder s' L' := by
  obtain ⟨base, hclock, hordered, hshaken⟩ := h
  obtain ⟨hbase, hclock⟩ := hclock.advance hadm
  obtain ⟨⟨-, -, -, hnamed, hdue⟩, hfits, hrearms⟩ := admissible_iff.mp hadm
  obtain ⟨L', hsound', -⟩ := step_sound hsound hnamed hstep
  have hsound1 : Sound { s with time := c.until now } L [] := hsound.congr rfl rfl rfl
  suffices hnew : Settled s' by
    obtain ⟨L'', hlaid, hnew⟩ := hnew
    rw [← hsound'.laid.unique hlaid] at hnew
    exact ⟨L', hsound', hnew⟩
  cases hpending : s.pending with
  | false =>
    exact ((hordered hpending).advance _).called hclock hsound1 hpending hbase rfl hnamed hfits hrearms
      hstep
  | true =>
    cases hdue hpending
    have hshaken := hshaken hpending
    have hshaken : Shaken base { s with time := now } L :=
      ⟨hshaken.marked, hshaken.overflow, hshaken.near⟩
    unfold step at hstep
    rw [hpending] at hstep
    exact hshaken.overflowHandler hclock hsound1.laid hstep

theorem run_inOrder {calls : List (Nat × Call)} (hsound : Sound s L []) (h : InOrder s L)
    (hadm : admitted s calls = true) (hrun : run s calls = some s') :
    ∃ L', Sound s' L' [] ∧ InOrder s' L' := by
  induction calls generalizing s L with
  | nil =>
    cases hrun
    exact ⟨L, hsound, h⟩
  | cons call calls ih =>
    obtain ⟨s1, hstep, hrun⟩ := bind_eq_some_iff.mp hrun
    rw [admitted, hstep, Bool.and_eq_true] at hadm
    obtain ⟨L1, hsound1, h1⟩ := step_inOrder hsound h hadm.1 hstep
    exact ih hsound1 h1 hadm.2 hrun

theorem timerInit_inOrder {tbFreq start : Nat} (hfreq : tbFreq < 2 ^ 32) (hstart : start < 2 ^ 63)
    (hinit : timerInit tbFreq start = some s) : Sound s initLists [] ∧ InOrder s initLists := by
  obtain ⟨s0, hinit', hsound⟩ := timerInit_sound tbFreq start
  cases hinit'.symm.trans hinit
  obtain ⟨s1, hinit', -, hover, hfreq', hpending, htime, hlast, hentry⟩ := timerInit_links tbFreq start
  cases hinit'.symm.trans hinit
  have hmod : (start + TIMER_MAX) % 2 ^ 64 = start + TIMER_MAX := by
    unfold TIMER_MAX
    omega
  have hzero : s.entry 0 = ⟨start + TIMER_MAX, true, false, true, TIMER_MAX, 0x101, .overflow, 1⟩ := by
    rw [hentry, update_self, hmod]
  have hother : ∀ x, x ≠ 0 → (s.entry x).mark = 0 ∧ (s.entry x).period = 0 := by
    intro x hx
    rw [hentry, update_of_ne hx]
    exact ⟨rfl, rfl⟩
  refine ⟨hsound, start, ⟨fun x => ?_, fun x => ?_, ?_, ?_, ?_, ?_⟩, fun _ => ⟨fun x hx => ?_, nofun, ?_,
    ?_⟩, fun hset => ?_⟩
  · by_cases hx : x = 0
    · rw [hx, hzero, htime]
      show start + TIMER_MAX ≤ start + maxTicks
      unfold TIMER_MAX maxTicks
      omega
    · rw [(hother x hx).1]
      exact zero_le _
  · by_cases hx : x = 0
    · rw [hx, hzero]
      show TIMER_MAX < 2 ^ 32
      decide
    · rw [(hother x hx).2]
      decide
  · rw [hover, hzero, hlast]
    refine ⟨rfl, ?_⟩
    show start < start + TIMER_MAX
    unfold TIMER_MAX
    omega
  · rw [hlast, htime]
    exact ⟨le_refl _, le_refl _⟩
  · omega
  · rw [hfreq']
    exact hfreq
  · rw [mem_singleton.mp hx, hover, hzero]
    exact ⟨rfl, le_add_right _ _⟩
  · exact pairwise_singleton _ _
  · rw [hover, hzero]
  · exact absurd (hpending.symm.trans hset) Bool.noConfusion

/-- The list is sorted, and no timer of it is due when `rvec_timer` returns. -/
theorem queue_ordered {tbFreq start : Nat} {calls : List (Nat × Call)} {s0 : State}
    (hfreq : tbFreq < 2 ^ 32) (hstart : start < 2 ^ 63) (hinit : timerInit tbFreq start = some s0)
    (hadm : admitted s0 calls = true) (hrun : run s0 calls = some s) (hpending : s.pending = false) :
    ∃ front behind, s.list .active = some (front ++ s.overflow :: behind) ∧ s.overflow ∉ front ∧
      (∀ x ∈ front ++ [s.overflow], (s.entry x).overflow = false) ∧
      (∀ x ∈ behind, (s.entry x).overflow = true) ∧
      (front ++ [s.overflow]).Pairwise (fun x y => (s.entry x).mark ≤ (s.entry y).mark) ∧
      ∀ now lag s', admissible s now (.rvecTimer lag) = true →
        step s now (.rvecTimer lag) = some s' → rvecReturns s now = true →
        s'.list .active = some (front ++ s.overflow :: behind) ∧
          ∀ x ∈ front ++ s.overflow :: behind, now < (s'.entry x).mark := by
  obtain ⟨hsound, h⟩ := timerInit_inOrder hfreq hstart hinit
  obtain ⟨L, hsound, base, hclock, hordered, -⟩ := run_inOrder hsound h hadm hrun
  have hordered := hordered hpending
  have hlist := hsound.laid.list_open (.inl rfl : Part.active.isOpen)
  refine ⟨L .active, L .parked, hlist, hsound.laid.overflow_notMem _,
    fun x hx => (hordered.front x hx).1, fun x hx => (hordered.back x hx).1, hordered.sorted, ?_⟩
  intro now lag s' hadm hstep hreturns
  obtain ⟨hbase, hclock⟩ := hclock.advance hadm
  have hround : rvecTimer { s with time := now + lag } now (now + lag) = some s' := by
    unfold step at hstep
    dsimp only at hstep
    rw [if_neg (Bool.eq_false_iff.mp hpending)] at hstep
    exact hstep
  obtain ⟨-, hreturn⟩ := (hordered.advance (now + lag)).rvecTimer hclock (hsound.congr rfl rfl rfl)
    hpending hbase (le_add_right _ _) hround
  obtain ⟨rfl, hdue⟩ := hreturn hreturns
  exact ⟨hlist, hdue⟩

/-- A timer goes behind the overflow timer, and one before it fires. -/
theorem queue_ordered_parked : ∃ s0 s : State, timerInit 25000000 0 = some s0 ∧
      run s0 [(0, .newPtimer 1 true), (1, .setPtimer 0x102 100000000), (5, .tickTimer 90 2),
        (100, .rvecTimer 1), (110, .rvecTimer 0)] = some s ∧
      ∃ front behind, s.list .active = some (front ++ s.overflow :: behind) ∧ s.overflow ∉ front ∧
        (∀ x ∈ front ++ [s.overflow], (s.entry x).overflow = false) ∧
        (∀ x ∈ behind, (s.entry x).overflow = true) ∧
        (front ++ [s.overflow]).Pairwise (fun x y => (s.entry x).mark ≤ (s.entry y).mark) := by
  obtain ⟨s0, hinit⟩ := isSome_iff_exists.mp
    (show (timerInit 25000000 0).isSome = true by decide +kernel)
  have hfacts : ((timerInit 25000000 0).bind fun s0 =>
      (run s0 [(0, .newPtimer 1 true), (1, .setPtimer 0x102 100000000), (5, .tickTimer 90 2),
        (100, .rvecTimer 1), (110, .rvecTimer 0)]).map fun s =>
      (!s.pending && admitted s0 [(0, .newPtimer 1 true), (1, .setPtimer 0x102 100000000),
        (5, .tickTimer 90 2), (100, .rvecTimer 1), (110, .rvecTimer 0)])) = some true := by
    decide +kernel
  rw [hinit] at hfacts
  obtain ⟨s, hrun, hboth⟩ := map_eq_some_iff.mp hfacts
  obtain ⟨hpending, hadm⟩ := Bool.and_eq_true_iff.mp hboth
  obtain ⟨front, behind, hlist, hnot, hfront, hbehind, hsorted, -⟩ :=
    queue_ordered (by decide) (by decide) hinit hadm hrun (by simpa using hpending)
  exact ⟨s0, s, hinit, hrun, front, behind, hlist, hnot, hfront, hbehind, hsorted⟩

/-- A timer is set again for a near time and keeps its flag: it is not seen when due. -/
theorem flag_left_behind :
    ((timerInit 25000000 0).bind (run · [(0, .newPtimer 1 true), (1, .setPtimer 0x102 100000000),
      (10, .setPtimer 0x102 2000), (100000, .rvecTimer 0)])).any (fun s =>
        s.list .active == some [1, 0] && (s.entry 1).overflow && (s.entry 1).mark == 50010 &&
          s.last == 100000) = true := by
  decide +kernel

end MacOnLinux.Timer
