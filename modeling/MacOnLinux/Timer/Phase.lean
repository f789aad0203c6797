import MacOnLinux.Timer.Order

/-! # The phase of periodic timers, and the conversions of time -/

namespace MacOnLinux.Timer

open Nat

variable {s : State} {t : Slot} {now period ticks mark m fuel : Nat} {lost n : Int}

/-! ## The loop of recalc_ptimer -/

theorem s64_neg_iff {a b : Nat} (ha : a < 2 ^ 64) (hb : b < 2 ^ 64) :
    s64 (a - b) < 0 ↔ a < b ∧ b ≤ a + 2 ^ 63 ∨ b + 2 ^ 63 ≤ a := by
  unfold s64 Int.bmod
  dsimp only
  split <;> omega

theorem recalcLoop_stops (hloop : recalcLoop now period fuel lost mark = some (n, m)) :
    s64 (now - m) < 0 := by
  induction fuel generalizing lost mark with
  | zero => cases hloop
  | succ fuel ih =>
    rw [recalcLoop] at hloop
    split at hloop
    · exact ih hloop
    · cases hloop
      omega

theorem recalcLoop_zero (hmark : mark < 2 ^ 64) (hdue : 0 ≤ s64 (now - mark)) :
    recalcLoop now 0 fuel lost mark = none := by
  induction fuel generalizing lost with
  | zero => rfl
  | succ fuel ih =>
    rw [recalcLoop, if_pos hdue, add_zero, mod_eq_of_lt hmark]
    exact ih

theorem recalcLoop_eq (hpos : 0 < period) (hperiod : period < 2 ^ 32) (hnow : now < 2 ^ 64)
    (hdue : mark ≤ now) (hnear : now < mark + 2 ^ 63) (hfuel : (now - mark) / period + 1 < fuel) :
    recalcLoop now period fuel lost mark =
      some (lost + ((now - mark) / period + 1 : Nat), (mark + ((now - mark) / period + 1) * period) % 2 ^ 64) := by
  induction fuel generalizing lost mark with
  | zero => exact absurd hfuel (Nat.not_lt_zero _)
  | succ fuel ih =>
    have hge : ¬ s64 (now - mark) < 0 := by
      rw [s64_neg_iff hnow (by omega)]
      omega
    rw [recalcLoop, if_pos (by omega)]
    by_cases hlate : mark + period ≤ now
    · have hdiv : (now - mark) / period = (now - (mark + period)) / period + 1 := by
        rw [div_eq_sub_div hpos (by omega), sub_add_eq]
      rw [hdiv] at hfuel ⊢
      rw [mod_eq_of_lt (by omega), ih hlate (by omega) (by omega), succ_mul (_ + 1)]
      congr 2 <;> omega
    have hdiv : (now - mark) / period = 0 := div_eq_of_lt (by omega)
    rw [hdiv] at hfuel ⊢
    obtain ⟨fuel, rfl⟩ : ∃ k, fuel = k + 1 := ⟨fuel - 1, by omega⟩
    have hlt : s64 (now - ((mark + period) % 2 ^ 64 : Nat)) < 0 := by
      rw [s64_neg_iff hnow (mod_lt _ (by omega))]
      omega
    rw [recalcLoop, if_neg (by omega), Nat.one_mul]
    rfl

/-! ## The phase -/

/-- `mark'` is the first of the deadlines `mark + k * ticks` after `now`, and `lost`, which has to
be an int, is the number of deadlines that were missed after the first one. -/
def InPhase (mark ticks now : Nat) (lost : Int) (mark' : Nat) : Prop :=
  lost < 2 ^ 31 ∧ now < mark' ∧
    ∃ k, mark' = mark + k * ticks ∧ (∀ j < k, mark + j * ticks ≤ now) ∧ lost = (k - 1 : Nat)

/-- The ticks of the period that `set_ptimer` was called with, if it was. -/
def requested (s : State) : Option Nat → Nat
  | none => 0
  | some usecs => usecsToMticks s usecs

theorem InPhase.before {mark' : Nat} (h : InPhase mark ticks now lost mark') (hlt : now < mark) :
    mark' = mark := by
  obtain ⟨-, -, k, rfl, hk, -⟩ := h
  cases k with
  | zero => omega
  | succ k => exact absurd (hk 0 k.succ_pos) (by omega)

theorem InPhase.after {mark' : Nat} (h : InPhase mark ticks now lost mark') (hle : mark ≤ now) :
    0 < ticks ∧ (now - mark) / ticks < 2 ^ 31 ∧ lost = ((now - mark) / ticks : Nat) ∧
      mark' = mark + ((now - mark) / ticks + 1) * ticks := by
  obtain ⟨hint, hnow, k, rfl, hk, hlost⟩ := h
  cases k with
  | zero => omega
  | succ k =>
    have hlast := hk k k.lt_succ_self
    rw [succ_mul] at hnow ⊢
    have hdiv : (now - mark) / ticks = k := Nat.div_eq_of_lt_le (by omega) (by rw [succ_mul]; omega)
    rw [hdiv, succ_mul]
    exact ⟨by omega, by omega, hlost, rfl⟩

theorem inPhase_of_div (hpos : 0 < ticks) (hle : mark ≤ now) (hint : (now - mark) / ticks < 2 ^ 31) :
    InPhase mark ticks now ((now - mark) / ticks : Nat) (mark + ((now - mark) / ticks + 1) * ticks) := by
  refine ⟨by omega, ?_, _, rfl, fun j hj => ?_, rfl⟩
  · have hlt := lt_mul_div_succ (now - mark) hpos
    rw [mul_comm] at hlt
    omega
  · have hmul : j * ticks ≤ (now - mark) / ticks * ticks := mul_le_mul_right _ (by omega)
    have := div_mul_le_self (now - mark) ticks
    omega

theorem recalcLoop_inPhase_iff (hnow : now < 2 ^ 64) (hmark : mark < 2 ^ 64) (hfuel : 2 ^ 63 ≤ fuel) :
    (∃ n m, recalcLoop now (ticks % 2 ^ 32) (fuel + 1) (-1) mark = some (n, m) ∧
      InPhase mark ticks now (if n < 0 then 0 else n) m) ↔
    now < mark ∧ mark ≤ now + 2 ^ 63 ∨
    mark ≤ now ∧ now < mark + 2 ^ 63 ∧ 0 < ticks ∧ ticks < 2 ^ 32 ∧ (now - mark) / ticks < 2 ^ 31 ∧
      mark + ((now - mark) / ticks + 1) * ticks < 2 ^ 64 := by
  have hneg := s64_neg_iff hnow hmark
  constructor
  · rintro ⟨n, m, hloop, hphase⟩
    rcases lt_or_ge now mark with hlt | hle
    · obtain rfl := hphase.before hlt
      have := hneg.mp (recalcLoop_stops hloop)
      omega
    obtain ⟨hpos, hint, hlost, hm⟩ := hphase.after hle
    by_cases hnear : now < mark + 2 ^ 63
    · rcases Nat.eq_zero_or_pos (ticks % 2 ^ 32) with hzero | hpos'
      · rw [hzero, recalcLoop_zero hmark (by omega)] at hloop
        cases hloop
      have hdiv := Nat.div_le_self (now - mark) (ticks % 2 ^ 32)
      rw [recalcLoop_eq hpos' (mod_lt _ (by omega)) hnow hle hnear (by omega)] at hloop
      generalize (now - mark) / (ticks % 2 ^ 32) = q at hloop
      obtain ⟨rfl, rfl⟩ := Prod.mk.inj (Option.some.inj hloop)
      have hq : q = (now - mark) / ticks := by omega
      have hfits := mod_lt (mark + (q + 1) * (ticks % 2 ^ 32)) (Nat.two_pow_pos 64)
      have hwrap := mod_le (mark + (q + 1) * (ticks % 2 ^ 32)) (2 ^ 64)
      rw [hm] at hfits hwrap
      rw [hq] at hwrap
      have hcut := Nat.le_of_mul_le_mul_left (Nat.le_of_add_le_add_left hwrap) (succ_pos _)
      exact .inr ⟨hle, hnear, hpos, by omega, hint, hfits⟩
    · rw [recalcLoop, if_neg (by omega)] at hloop
      cases hloop
      have hstep : 0 < ((now - mark) / ticks + 1) * ticks := mul_pos (succ_pos _) hpos
      omega
  · rintro (⟨hlt, hnear⟩ | ⟨hle, hnear, hpos, hsmall, hint, hfits⟩)
    · refine ⟨-1, mark, by rw [recalcLoop, if_neg (by omega)], by decide, hlt, 0, by omega, by simp, rfl⟩
    have hphase := inPhase_of_div hpos hle hint
    refine ⟨((now - mark) / ticks : Nat), mark + ((now - mark) / ticks + 1) * ticks, ?_, ?_⟩
    · rw [mod_eq_of_lt hsmall, recalcLoop_eq hpos hsmall hnow hle hnear (by omega), mod_eq_of_lt hfits]
      congr 2
      omega
    · rwa [if_neg (Int.not_lt.mpr (Int.natCast_nonneg _))]

theorem recalcPtimer_inPhase_iff (s : State) (t : Slot) (now : Nat) (asked : Option Nat) (hnow : now < 2 ^ 64)
    (hmark : (s.entry t).mark < 2 ^ 64) (hperiod : (s.entry t).period = requested s asked % 2 ^ 32) :
    (∃ lost s', recalcPtimer s now t = some (lost, s') ∧
      InPhase (s.entry t).mark (requested s asked) now lost (s'.entry t).mark) ↔
    now < (s.entry t).mark ∧ (s.entry t).mark ≤ now + 2 ^ 63 ∨
    (s.entry t).mark ≤ now ∧ now < (s.entry t).mark + 2 ^ 63 ∧
      0 < requested s asked ∧ requested s asked < 2 ^ 32 ∧
      (now - (s.entry t).mark) / requested s asked < 2 ^ 31 ∧
      (s.entry t).mark + ((now - (s.entry t).mark) / requested s asked + 1) * requested s asked < 2 ^ 64 := by
  rw [← recalcLoop_inPhase_iff hnow hmark (by decide : 2 ^ 63 ≤ 2 ^ 64 - 1), ← hperiod]
  constructor
  · rintro ⟨lost, s', h, hphase⟩
    obtain ⟨⟨n, m⟩, hloop, he⟩ := Option.map_eq_some_iff.mp h
    obtain ⟨rfl, rfl⟩ := Prod.mk.inj he
    simp only [State.setEntry, Function.update_self] at hphase
    exact ⟨n, m, hloop, hphase⟩
  · rintro ⟨n, m, hloop, hphase⟩
    refine ⟨_, _, congrArg (Option.map _) hloop, ?_⟩
    simpa [State.setEntry] using hphase

theorem recalcPtimer_second : ∃ s,
    ((timerInit 25000000 0).bind (run · [(0, .newPtimer 1 true), (0, .setPtimer 0x102 1000000)])) = some s ∧
      ∃ lost s', recalcPtimer s 80000000 1 = some (lost, s') ∧
        InPhase (s.entry 1).mark (requested s (some 1000000)) 80000000 lost (s'.entry 1).mark := by
  refine ⟨_, rfl, ?_⟩
  exact (recalcPtimer_inPhase_iff _ 1 80000000 (some 1000000) (by decide) (by decide) rfl).mpr (.inr (by decide))

theorem recalcPtimer_cut_period : ∃ s,
    ((timerInit 25000000 0).bind (run · [(0, .newPtimer 1 true), (0, .setPtimer 0x102 4294967295)])) = some s ∧
      ¬ ∃ lost s', recalcPtimer s 107374182375 1 = some (lost, s') ∧
        InPhase (s.entry 1).mark (requested s (some 4294967295)) 107374182375 lost (s'.entry 1).mark := by
  refine ⟨_, rfl, ?_⟩
  rintro ⟨lost, s', h, hphase⟩
  have hmark := (hphase.after (by decide)).2.2.2
  have hcut : some 111669149646 = some (s'.entry 1).mark :=
    congrArg (Option.map fun r : Int × State => (r.2.entry 1).mark) h
  rw [← Option.some_inj.mp hcut] at hmark
  exact absurd hmark (by decide)

/-! ## The conversions -/

theorem usecsToMticks_eq {usecs : Nat} (hfreq : s.tbFreq < 2 ^ 32) (husecs : usecs < 2 ^ 32) :
    usecsToMticks s usecs = usecs * s.tbFreq / 1000000 := by
  have hmul : s.tbFreq * usecs < 2 ^ 32 * 2 ^ 32 := Nat.mul_lt_mul'' hfreq husecs
  rw [usecsToMticks, mod_eq_of_lt (by omega), mul_comm]

theorem conversions_exact_iff (s : State) (top : Nat) (hpos : 0 < s.tbFreq) (hfreq : s.tbFreq < 2 ^ 32) :
    ((∀ usecs < 2 ^ 32, usecsToMticks s usecs = usecs * s.tbFreq / 1000000) ∧
      (∀ t ≤ top, mticksToUsecs s t = t * 1000000 / s.tbFreq % 2 ^ 32) ∧
      ∀ t t', t ≤ t' → t' ≤ top → usecsOfMticks s t ≤ usecsOfMticks s t') ↔
    top * 1000000 < 2 ^ 64 := by
  constructor
  · rintro ⟨-, -, hmono⟩
    by_contra hbig
    -- the first count whose product does not fit, and the one before it
    have h := hmono 18446744073709 18446744073710 (by omega) (by omega)
    have hlow : 18446744073710 * 1000000 % 2 ^ 64 = 448384 := by decide
    have hhigh : 18446744073709 * 1000000 % 2 ^ 64 = 18446744073709000000 := by decide
    rw [usecsOfMticks, usecsOfMticks, hlow, hhigh] at h
    have hsmall := Nat.div_le_self 448384 s.tbFreq
    have hlarge : 18446744073709000000 / 2 ^ 32 ≤ 18446744073709000000 / s.tbFreq :=
      div_le_div_left hfreq.le hpos
    omega
  · intro htop
    have hfit : ∀ t ≤ top, usecsOfMticks s t = t * 1000000 / s.tbFreq := by
      intro t ht
      have hlt : t * 1000000 < 2 ^ 64 := lt_of_le_of_lt (mul_le_mul_right _ ht) htop
      rw [usecsOfMticks, mod_eq_of_lt hlt]
    refine ⟨fun usecs h => usecsToMticks_eq hfreq h, fun t ht => ?_, fun t t' hle ht => ?_⟩
    · rw [mticksToUsecs, hfit t ht]
    · rw [hfit t' ht]
      exact Nat.div_le_div_right (by omega)

theorem conversions_exact_day :
    ∃ s, timerInit 25000000 0 = some s ∧ usecsOfMticks s 25000000 ≤ usecsOfMticks s 2160000000000 :=
  ⟨_, rfl, ((conversions_exact_iff _ 2160000000000 (by decide) (by decide)).mpr (by decide)).2.2 _ _ (by decide)
    (by decide)⟩

theorem mticksToUsecs_wraps : ∃ s, timerInit 25000000 0 = some s ∧
    mticksToUsecs s 18446744073710 ≠ 18446744073710 * 1000000 / 25000000 % 2 ^ 32 ∧
    usecsOfMticks s 18446744073710 < usecsOfMticks s 18446744073709 :=
  ⟨_, rfl, by decide⟩

end MacOnLinux.Timer
