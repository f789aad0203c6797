import MacOnLinux.Drivers.Pic

/-! # Sources that share a line (`drivers/pic.c`) -/

namespace MacOnLinux.Pic

open Function Bool

/-! ## The oldworld controller -/

def reissue (hack : Bool) (irq : Word) (p : State) : State :=
  let k := bankOf irq
  let b := bitOf irq
  if hack && !irq.msb && (b &&& (p.r k).level != 0#32) then
    intlineUpd (p.setRegs k { p.r k with event := (p.r k).event ||| (b &&& (p.r k).enable) })
  else p

def stepOn (hack : Bool) : Event → State → State
  | .low irq, p => (sourceLow irq (reissue hack irq p)).2
  | e, p => step e p

def afterOn (hack : Bool) : List Event → State
  | [] => reset
  | e :: es => stepOn hack e (afterOn hack es)

/-! ## What the history says about a line -/

def lineHigh (k : Bool) (n : Nat) (es : List Event) : Bool := isHigh k false n es || isHigh k true n es

/-- The source went from low to high after the last acknowledge of the line. -/
def rose (k i : Bool) (n : Nat) : List Event → Bool
  | [] => false
  | e :: es => !acked k n e && (rose k i n es || (isHigh k i n (e :: es) && !isHigh k i n es))

def enabled (k : Bool) (n : Nat) : List Event → Bool
  | [] => false
  | .write reg data :: es =>
    if reg % 4 == 1 && decide (reg ≤ 3) == k then data.getLsbD n else enabled k n es
  | _ :: es => enabled k n es

def reissued (hack k : Bool) (n : Nat) (e : Event) (es : List Event) : Bool :=
  match e with
  | .low irq => hack && (names irq k false n || names irq k true n) && enabled k n es
  | _ => false

/-- Acknowledged, and since then high all the time with no new event. -/
def spent (hack k : Bool) (n : Nat) : List Event → Bool
  | [] => false
  | e :: es => lineHigh k n (e :: es) && !reissued hack k n e es && (acked k n e || spent hack k n es)

/-- A source that rose since the last acknowledge and is still high has its event. -/
def Kept (hack k : Bool) (n : Nat) (es : List Event) : Prop :=
  ∀ i, rose k i n es = true → isHigh k i n es = true → ((afterOn hack es).r k).event.getLsbD n = true

/-- Each time a source rises, the line has an event or is low. -/
def RisesUnspent (hack k : Bool) (n : Nat) (es : List Event) : Prop :=
  ∀ irq i es', (.hi irq :: es') <:+ es → names irq k i n = true → isHigh k i n es' = false →
    spent hack k n es' = false

variable {p : State} {irq : Word} {hack k i : Bool} {n : Nat} {e : Event} {es : List Event}

/-! ## The registers -/

theorem step_enable (e : Event) (p : State) (k : Bool) : ((step e p).r k).enable =
    match e with
    | .write reg data => if reg % 4 == 1 && decide (reg ≤ 3) == k then data else (p.r k).enable
    | _ => (p.r k).enable := by
  cases e with
  | register irq =>
    unfold step sourceRegister
    dsimp only
    split
    · rfl
    · by_cases hk : k = bankOf irq
      · subst hk
        rw [setRegs_r, update_self]
      · rw [setRegs_r, update_of_ne hk]
  | hi irq =>
    cases hpos : irq.msb with
    | true => rw [step, sourceHi, if_pos hpos]
    | false =>
      rw [step, sourceHi_r hpos]
      by_cases hk : k = bankOf irq
      · subst hk
        rw [update_self]
      · rw [update_of_ne hk]
  | low irq =>
    cases hpos : irq.msb with
    | true => rw [step, sourceLow, if_pos hpos]
    | false =>
      rw [step, sourceLow_r hpos]
      by_cases hk : k = bankOf irq
      · subst hk
        rw [update_self]
      · rw [update_of_ne hk]
  | write reg data =>
    unfold step picIoWrite
    dsimp only
    split
    next henable =>
      by_cases hk : k = decide (reg ≤ 3)
      · subst hk
        simp [henable]
      · simp [update_of_ne hk, Ne.symm hk]
    next hack =>
      split
      · simp [hack]
      · by_cases hk : k = decide (reg ≤ 3)
        · subst hk
          simp [hack]
        · simp [hack, update_of_ne hk]
    next hno _ =>
      simp [show ¬ reg % 4 = 1 from hno]

theorem reissue_r (hack : Bool) (irq : Word) (p : State) (k : Bool) :
    (reissue hack irq p).r k = { p.r k with
      event := (p.r k).event |||
        if hack && !irq.msb && (p.r k).level.getLsbD (lineOf irq) && bankOf irq == k then
          bitOf irq &&& (p.r k).enable
        else 0#32 } := by
  unfold reissue
  dsimp only
  rw [BitVec.and_comm, and_bitOf]
  by_cases hk : k = bankOf irq
  · subst hk
    split
    next h => simp [h]
    next h =>
      rw [if_neg (by simpa using h), BitVec.or_zero]
  · rw [if_neg (c := (_ && bankOf irq == k) = true) (by simp [Ne.symm hk]), BitVec.or_zero]
    split
    · rw [intlineUpd_r, setRegs_r, update_of_ne hk]
    · rfl

/-! ## Runs -/

theorem stepOn_steps (hack : Bool) (hsh : Shared (p.r k)) :
    Steps e k (match e with
      | .low irq => (reissue hack irq p).r k
      | _ => p.r k) ((stepOn hack e p).r k) := by
  cases e with
  | low irq =>
    apply steps_low
    rw [reissue_r]
    exact hsh
  | register irq | hi irq | write reg data => exact step_steps hsh

theorem afterOn_shared (hack : Bool) (es : List Event) (k : Bool) : Shared ((afterOn hack es).r k) := by
  induction es with
  | nil => simp [Shared, afterOn, reset]
  | cons e es ih => exact (stepOn_steps hack ih).shared

theorem afterOn_src (hack : Bool) (es : List Event) (k i : Bool) (hn : n < 32) :
    (((afterOn hack es).r k).src i).getLsbD n = isHigh k i n es := by
  induction es with
  | nil => simp [afterOn, reset, isHigh]
  | cons e es ih =>
    have hsrc := (stepOn_steps (e := e) hack (afterOn_shared hack es k)).src i n hn
    rw [afterOn, hsrc]
    cases e with
    | register irq | write reg data => exact ih
    | hi irq => simp only [isHigh, ih]
    | low irq => simp only [isHigh, ih, reissue_r]

theorem afterOn_level (hack : Bool) (es : List Event) (k : Bool) (hn : n < 32) :
    ((afterOn hack es).r k).level.getLsbD n = lineHigh k n es := by
  rw [afterOn_shared hack es k n hn, afterOn_src hack es k false hn, afterOn_src hack es k true hn]
  rfl

theorem afterOn_enable (hack : Bool) (es : List Event) (k : Bool) (n : Nat) :
    ((afterOn hack es).r k).enable.getLsbD n = enabled k n es := by
  induction es with
  | nil => simp [afterOn, reset, enabled]
  | cons e es ih =>
    cases e with
    | register irq | hi irq =>
      rw [afterOn, stepOn, step_enable]
      · exact ih
      · simp
    | low irq =>
      have hstep := step_enable (.low irq) (reissue hack irq (afterOn hack es)) k
      rw [reissue_r] at hstep
      exact (congrArg (·.getLsbD n) hstep).trans ih
    | write reg data =>
      rw [afterOn, stepOn, step_enable, enabled]
      · dsimp only
        split
        · rfl
        · exact ih
      · simp

theorem names_either : (names irq k false n || names irq k true n) =
    (!irq.msb && (bankOf irq == k && lineOf irq == n)) := by
  unfold names
  cases indOf irq <;> simp

theorem lineHigh_low (h : lineHigh k n (.low irq :: es) = true) : lineHigh k n es = true := by
  simp only [lineHigh, isHigh, or_eq_true, and_eq_true] at h ⊢
  exact h.imp And.right And.right

theorem spent_line (h : spent hack k n es = true) : lineHigh k n es = true := by
  cases es with
  | nil => exact h
  | cons e es =>
    rw [spent, and_eq_true, and_eq_true] at h
    exact h.1.1

theorem afterOn_event (hack : Bool) (es : List Event) (k : Bool) (hn : n < 32)
    (hline : lineHigh k n es = true) :
    ((afterOn hack es).r k).event.getLsbD n = !spent hack k n es := by
  induction es with
  | nil => nomatch hline
  | cons e es ih =>
    have hevent := (stepOn_steps (e := e) hack (afterOn_shared hack es k)).event n hn
    have hlevel : ((stepOn hack e (afterOn hack es)).r k).level.getLsbD n = true :=
      (afterOn_level hack (e :: es) k hn).trans hline
    rw [hlevel] at hevent
    rw [afterOn, hevent, spent, hline]
    -- what an event other than a falling source does
    have hstill : ((((afterOn hack es).r k).event.getLsbD n ||
        (true && !((afterOn hack es).r k).level.getLsbD n)) && !acked k n e) =
        !(true && !false && (acked k n e || spent hack k n es)) := by
      rw [afterOn_level hack es k hn]
      cases hold : lineHigh k n es with
      | true =>
        rw [ih hold]
        simp [Bool.and_comm]
      | false =>
        have hspent : spent hack k n es = false := by
          rw [eq_false_iff]
          intro hs
          rw [spent_line hs] at hold
          cases hold
        simp [hspent]
    cases e with
    | low irq =>
      have hold := lineHigh_low hline
      have hlow : ((afterOn hack es).r k).level.getLsbD (lineOf irq) = true ∨ lineOf irq ≠ n := by
        by_cases hln : lineOf irq = n
        · rw [hln, afterOn_level hack es k hn]
          exact .inl hold
        · exact .inr hln
      have hagain : (if hack && !irq.msb && ((afterOn hack es).r k).level.getLsbD (lineOf irq) &&
            bankOf irq == k then bitOf irq &&& ((afterOn hack es).r k).enable else 0#32).getLsbD n =
          reissued hack k n (.low irq) es := by
        rw [reissued, names_either]
        split
        · rw [BitVec.getLsbD_and, bitOf_getLsbD irq hn, afterOn_enable]
          grind
        · grind
      simp only [reissue_r, afterOn_level hack es k hn, hold]
      rw [BitVec.getLsbD_or, ih hold, hagain]
      simp [acked, Bool.or_comm]
    | register irq | hi irq | write reg data => exact hstill

/-! ## Rising sources -/

theorem spent_hi : spent hack k n (.hi irq :: es) = spent hack k n es := by
  simp only [spent, reissued, acked]
  cases hs : spent hack k n es with
  | false => simp
  | true =>
    have hline := spent_line hs
    have hhi : lineHigh k n (.hi irq :: es) = true := by
      simp only [lineHigh, isHigh, or_eq_true] at hline ⊢
      exact hline.imp .inr .inr
    simp [hhi]

theorem spent_cons (hacked : acked k n e = false) (hs : spent hack k n es = false) :
    spent hack k n (e :: es) = false := by
  rw [spent, hacked, hs, Bool.or_false, Bool.and_false]

theorem rose_cons (h : rose k i n (e :: es) = true) : acked k n e = false ∧
    (rose k i n es = true ∨ ∃ irq, e = .hi irq ∧ names irq k i n = true ∧ isHigh k i n es = false) := by
  rw [rose, and_eq_true, not_eq_true', or_eq_true, and_eq_true,
    not_eq_true'] at h
  refine ⟨h.1, h.2.imp_right ?_⟩
  rintro ⟨hnow, hbefore⟩
  cases e with
  | hi irq =>
    rw [isHigh, hbefore, Bool.or_false] at hnow
    exact ⟨irq, rfl, hnow, hbefore⟩
  | low irq =>
    rw [isHigh, hbefore, Bool.and_false] at hnow
    cases hnow
  | register irq | write reg data =>
    rw [isHigh, hbefore] at hnow
    · cases hnow
    all_goals simp

theorem RisesUnspent.tail (h : RisesUnspent hack k n (e :: es)) : RisesUnspent hack k n es :=
  fun irq i es' hsuf => h irq i es' (hsuf.trans (List.suffix_cons e es))

theorem RisesUnspent.unspent (h : RisesUnspent hack k n es) (hrose : rose k i n es = true) :
    spent hack k n es = false := by
  induction es with
  | nil => rfl
  | cons e es ih =>
    obtain ⟨hacked, hrose | ⟨irq, rfl, hnames, hbefore⟩⟩ := rose_cons hrose
    · exact spent_cons hacked (ih h.tail hrose)
    · rw [spent_hi]
      exact h irq i es List.suffix_rfl hnames hbefore

theorem lineHigh_of_source (h : isHigh k i n es = true) : lineHigh k n es = true := by
  unfold lineHigh
  cases i with
  | false => rw [h, Bool.true_or]
  | true => rw [h, Bool.or_true]

/-- The events of a shared line are kept iff no source rises on a spent line. -/
theorem rises_kept_iff (hack k : Bool) (n : Fin 32) (es : List Event) :
    (∀ es', es' <:+ es → Kept hack k n es') ↔ RisesUnspent hack k n es := by
  constructor
  · intro hkept irq i es' hsuf hnames hbefore
    have hnow : isHigh k i n (.hi irq :: es') = true := by rw [isHigh, hnames, Bool.true_or]
    have hrose : rose k i n (.hi irq :: es') = true := by
      simp [rose, acked, hnow, hbefore]
    have hevent := hkept _ hsuf i hrose hnow
    rw [afterOn_event hack _ k n.isLt (lineHigh_of_source hnow), spent_hi] at hevent
    simpa using hevent
  · intro h es' hsuf i hrose hnow
    have htail : RisesUnspent hack k n es' := fun irq i es'' hsuf' => h irq i es'' (hsuf'.trans hsuf)
    rw [afterOn_event hack es' k n.isLt (lineHigh_of_source hnow), htail.unspent hrose]
    rfl

def secondRise : List Event :=
  [.hi 69#32, .write 6 0x20#32, .hi 5#32, .register 5#32, .register 5#32]

theorem second_rise_lost :
    (sourceRegister 5#32 reset).2.1 = 5#32 ∧
      (sourceRegister 5#32 (after [.register 5#32])).2.1 = 69#32 ∧
      rose false true 5 secondRise = true ∧ isHigh false true 5 secondRise = true ∧
      ((afterOn false secondRise).r false).event.getLsbD 5 = false ∧
      ((afterOn true secondRise).r false).event.getLsbD 5 = false := by
  decide

end MacOnLinux.Pic
