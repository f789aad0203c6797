import Mathlib.Logic.Function.Basic
import Mathlib.Data.BitVec

/-! # Interrupt controllers (`drivers/pic.c`, `drivers/osi_pic.c`)

The grand-central controller has two banks of 32 lines; two sources may share a line. The OSI
controller has 32 lines with one source each.
-/

namespace MacOnLinux

open Function
open BitVec (getLsbD_and getLsbD_not getLsbD_or eq_of_getLsbD_eq)

namespace Pic

abbrev Word := BitVec 32

/-- `pic_regs_t`, with a word for each of the two sources of a line. -/
structure Regs where
  event : Word
  enable : Word
  level : Word
  src : Bool → Word
  inUse : Bool → Word

structure State where
  r : Bool → Regs
  cpuIrq : Bool

def State.setRegs (p : State) (k : Bool) (regs : Regs) : State :=
  { p with r := update p.r k regs }

/-! An irq number is a line, a bank and which of the two sources of the line it is. -/

def lineOf (irq : Word) : Nat := (irq &&& 31#32).toNat
def bankOf (irq : Word) : Bool := irq &&& 32#32 != 0#32
def indOf (irq : Word) : Bool := irq &&& 64#32 != 0#32
def bitOf (irq : Word) : Word := 1#32 <<< lineOf irq

def intlineUpd (p : State) : State :=
  let raise := ((p.r false).event &&& (p.r false).enable) != 0#32 ||
    ((p.r true).event &&& (p.r true).enable) != 0#32
  { p with cpuIrq := raise }

/-- `pic_io_write`: `data` is the word in the byte order of the host. -/
def picIoWrite (reg : Nat) (data : Word) (p : State) : State :=
  let k := decide (reg ≤ 3)
  match reg % 4 with
  | 1 => intlineUpd (p.setRegs k { p.r k with enable := data })
  | 2 =>
    if data &&& 0x80000000#32 != 0#32 then
      intlineUpd { p with r := fun k => { p.r k with event := 0#32 } }
    else intlineUpd (p.setRegs k { p.r k with event := (p.r k).event &&& ~~~data })
  | _ => p

/-- `source_register`: whether it fails, the irq number from then on, and the state. -/
def sourceRegister (irq : Word) (p : State) : Bool × Word × State :=
  let k := bankOf irq
  let b := bitOf irq
  let ind := (p.r k).inUse false &&& b != 0#32
  if (p.r k).inUse ind &&& b != 0#32 then (true, irq, p)
  else
    (false, if ind then irq + 64#32 else irq,
      p.setRegs k { p.r k with
        inUse := update (p.r k).inUse ind ((p.r k).inUse ind ||| b) })

def sourceHi (irq : Word) (p : State) : State :=
  if irq.msb then p
  else
    let k := bankOf irq
    let b := bitOf irq
    let regs := { p.r k with
      src := update (p.r k).src (indOf irq) ((p.r k).src (indOf irq) ||| b) }
    if regs.level &&& b == 0#32 then
      intlineUpd (p.setRegs k { regs with level := regs.level ||| b, event := regs.event ||| b })
    else p.setRegs k regs

def sourceLow (irq : Word) (p : State) : Word × State :=
  if irq.msb then (0#32, p)
  else
    let k := bankOf irq
    let b := bitOf irq
    let ind := indOf irq
    let regs := { p.r k with
      src := update (p.r k).src ind ((p.r k).src ind &&& ~~~b) }
    ((p.r k).src ind &&& b,
      p.setRegs k { regs with level := regs.level &&& (~~~b ||| regs.src (!ind)) })

/-! ## Histories -/

inductive Event
  | register (irq : Word)
  | hi (irq : Word)
  | low (irq : Word)
  | write (reg : Nat) (data : Word)
  deriving DecidableEq, Repr

def step : Event → State → State
  | .register irq, p => (sourceRegister irq p).2.2
  | .hi irq, p => sourceHi irq p
  | .low irq, p => (sourceLow irq p).2
  | .write reg data, p => picIoWrite reg data p

def reset : State := ⟨fun _ => ⟨0, 0, 0, fun _ => 0, fun _ => 0⟩, false⟩

def after : List Event → State
  | [] => reset
  | e :: es => step e (after es)

def names (irq : Word) (k i : Bool) (n : Nat) : Bool :=
  !irq.msb && (bankOf irq == k && (indOf irq == i && lineOf irq == n))

def isHigh (k i : Bool) (n : Nat) : List Event → Bool
  | [] => false
  | .hi irq :: es => names irq k i n || isHigh k i n es
  | .low irq :: es => !names irq k i n && isHigh k i n es
  | _ :: es => isHigh k i n es

def acked (k : Bool) (n : Nat) : Event → Bool
  | .write reg data =>
    reg % 4 == 2 && (data.getLsbD 31 || (decide (reg ≤ 3) == k && data.getLsbD n))
  | _ => false

variable {p : State} {irq data : Word} {k i : Bool} {n reg : Nat} {e : Event} {es : List Event}

/-! ## Single bits -/

theorem lineOf_lt : lineOf irq < 32 := by
  unfold lineOf
  rw [BitVec.toNat_and]
  have hle : irq.toNat &&& (31#32).toNat ≤ 31 := Nat.and_le_right
  omega

theorem bitOf_getLsbD (irq : Word) (hn : n < 32) : (bitOf irq).getLsbD n = (lineOf irq == n) := by
  unfold bitOf
  grind

theorem ne_zero_iff (w : Word) : (w != 0#32) = true ↔ ∃ n, n < 32 ∧ w.getLsbD n = true := by
  rw [bne_iff_ne, ← not_iff_not, not_not]
  constructor
  · rintro rfl ⟨n, -, hn⟩
    simp at hn
  · intro hno
    apply eq_of_getLsbD_eq
    intro n hn
    rw [BitVec.getLsbD_zero, Bool.eq_false_iff]
    exact fun h => hno ⟨n, hn, h⟩

theorem and_bitOf (w irq : Word) : (w &&& bitOf irq != 0#32) = w.getLsbD (lineOf irq) := by
  rw [Bool.eq_iff_iff, ne_zero_iff]
  constructor
  · rintro ⟨n, hn, h⟩
    rw [getLsbD_and, bitOf_getLsbD irq hn, Bool.and_eq_true, beq_iff_eq] at h
    rw [h.2]
    exact h.1
  · intro h
    refine ⟨lineOf irq, lineOf_lt, ?_⟩
    rw [getLsbD_and, bitOf_getLsbD irq lineOf_lt, h, beq_self_eq_true]
    rfl

theorem and_top (data : Word) : (data &&& 0x80000000#32 != 0#32) = data.getLsbD 31 :=
  and_bitOf data 31#32

/-! ## What each call does to a bank -/

@[simp] theorem intlineUpd_r : (intlineUpd p).r = p.r := rfl

@[simp] theorem setRegs_r {regs : Regs} : (p.setRegs k regs).r = update p.r k regs := rfl

theorem sourceHi_r (hpos : irq.msb = false) :
    (sourceHi irq p).r = update p.r (bankOf irq) { p.r (bankOf irq) with
      src := update (p.r (bankOf irq)).src (indOf irq)
        ((p.r (bankOf irq)).src (indOf irq) ||| bitOf irq)
      level := (p.r (bankOf irq)).level ||| bitOf irq
      event := (p.r (bankOf irq)).event ||| (bitOf irq &&& ~~~(p.r (bankOf irq)).level) } := by
  unfold sourceHi
  rw [if_neg (by rw [hpos]; decide)]
  dsimp only
  have hbit := and_bitOf (p.r (bankOf irq)).level irq
  generalize p.r (bankOf irq) = regs at hbit ⊢
  cases hlev : regs.level.getLsbD (lineOf irq) with
  | false =>
    rw [hlev, bne_eq_false_iff_eq] at hbit
    have hnew : bitOf irq &&& ~~~regs.level = bitOf irq := by
      apply eq_of_getLsbD_eq
      intro n hn
      rw [getLsbD_and, getLsbD_not, bitOf_getLsbD irq hn]
      grind
    rw [if_pos (by rw [hbit]; decide), hnew]
    rfl
  | true =>
    rw [hlev, bne_iff_ne] at hbit
    have hold : regs.level ||| bitOf irq = regs.level := by
      apply eq_of_getLsbD_eq
      intro n hn
      rw [getLsbD_or, bitOf_getLsbD irq hn]
      grind
    have hnew : bitOf irq &&& ~~~regs.level = 0#32 := by
      apply eq_of_getLsbD_eq
      intro n hn
      rw [getLsbD_and, getLsbD_not, bitOf_getLsbD irq hn, BitVec.getLsbD_zero]
      grind
    rw [if_neg (by simpa using hbit), hold, hnew, BitVec.or_zero]
    rfl

theorem sourceLow_r (hpos : irq.msb = false) :
    (sourceLow irq p).2.r = update p.r (bankOf irq) { p.r (bankOf irq) with
      src := update (p.r (bankOf irq)).src (indOf irq)
        ((p.r (bankOf irq)).src (indOf irq) &&& ~~~bitOf irq)
      level := (p.r (bankOf irq)).level &&&
        (~~~bitOf irq ||| (p.r (bankOf irq)).src (!indOf irq)) } := by
  unfold sourceLow
  rw [if_neg (by rw [hpos]; decide)]
  dsimp only
  rw [update_of_ne (by simp)]
  rfl

def Shared (regs : Regs) : Prop :=
  ∀ n, n < 32 → regs.level.getLsbD n = ((regs.src false).getLsbD n || (regs.src true).getLsbD n)

structure Steps (e : Event) (k : Bool) (regs regs' : Regs) : Prop where
  shared : Shared regs'
  src : ∀ i n, n < 32 → (regs'.src i).getLsbD n = match e with
    | .hi irq => names irq k i n || (regs.src i).getLsbD n
    | .low irq => !names irq k i n && (regs.src i).getLsbD n
    | _ => (regs.src i).getLsbD n
  event : ∀ n, n < 32 → regs'.event.getLsbD n =
    ((regs.event.getLsbD n || (regs'.level.getLsbD n && !regs.level.getLsbD n)) && !acked k n e)

section Steps

variable (hsh : Shared (p.r k))

include hsh

theorem steps_unnamed (he : e = .hi irq ∨ e = .low irq)
    (hnames : ∀ i n, names irq k i n = false) : Steps e k (p.r k) (p.r k) := by
  obtain rfl | rfl := he <;> exact ⟨hsh, fun i n hn => by simp [hnames], fun n hn => by simp [acked]⟩

/-- Only the bank of the line that a call names can change. -/
theorem steps_named {r : Bool → Regs} {regs : Regs} (he : e = .hi irq ∨ e = .low irq)
    (hneg : irq.msb = true → r = p.r) (hpos : irq.msb = false → r = update p.r (bankOf irq) regs)
    (hbank : bankOf irq = k → (∀ i n, names irq k i n = (indOf irq == i && lineOf irq == n)) →
      Steps e k (p.r k) regs) : Steps e k (p.r k) (r k) := by
  cases hmsb : irq.msb with
  | true =>
    rw [hneg hmsb]
    exact steps_unnamed hsh he fun i n => by simp [names, hmsb]
  | false =>
    rw [hpos hmsb]
    by_cases hk : bankOf irq = k
    · rw [hk, update_self]
      exact hbank hk fun i n => by simp [names, hmsb, hk]
    · rw [update_of_ne (Ne.symm hk)]
      exact steps_unnamed hsh he fun i n => by simp [names, hk]

theorem steps_hi : Steps (.hi irq) k (p.r k) ((sourceHi irq p).r k) := by
  refine steps_named hsh (.inl rfl) (fun hneg => by rw [sourceHi, if_pos hneg]) sourceHi_r ?_
  rintro rfl hnames
  refine ⟨fun n hn => ?_, fun i n hn => ?_, fun n hn => ?_⟩
  · have hbit := bitOf_getLsbD irq hn
    have hsh := hsh n hn
    cases hind : indOf irq <;> simp [hbit, hsh, Bool.or_assoc, Bool.or_comm, Bool.or_left_comm]
  · have hbit := bitOf_getLsbD irq hn
    dsimp only
    by_cases hi : indOf irq = i
    · subst hi
      rw [update_self, getLsbD_or, hbit, hnames, beq_self_eq_true, Bool.true_and, Bool.or_comm]
    · rw [update_of_ne (Ne.symm hi), hnames, beq_false_of_ne hi]
      simp
  · simp only [acked]
    grind

theorem steps_low : Steps (.low irq) k (p.r k) ((sourceLow irq p).2.r k) := by
  refine steps_named hsh (.inr rfl) (fun hneg => by rw [sourceLow, if_pos hneg]) sourceLow_r ?_
  rintro rfl hnames
  refine ⟨fun n hn => ?_, fun i n hn => ?_, fun n hn => ?_⟩
  · have hsh := hsh n hn
    cases hind : indOf irq <;> simp <;> grind
  · have hbit := bitOf_getLsbD irq hn
    dsimp only
    by_cases hi : indOf irq = i
    · subst hi
      rw [update_self, getLsbD_and, getLsbD_not, hbit, hnames,
        beq_self_eq_true, Bool.true_and, Bool.and_comm, decide_eq_true hn, Bool.true_and]
    · rw [update_of_ne (Ne.symm hi), hnames, beq_false_of_ne hi]
      simp
  · simp only [acked]
    grind

omit hsh in
/-- A bank whose lines stay as they are, and whose events that are acknowledged go. -/
theorem steps_still {regs regs' : Regs} (hsh : Shared regs) (hsrc : regs'.src = regs.src)
    (hlevel : regs'.level = regs.level) (he : ∀ irq, e ≠ .hi irq ∧ e ≠ .low irq)
    (hevent : ∀ n, n < 32 → regs'.event.getLsbD n = (regs.event.getLsbD n && !acked k n e)) :
    Steps e k regs regs' := by
  refine ⟨fun n hn => by rw [hlevel, hsrc, hsh n hn], fun i n hn => ?_, fun n hn => ?_⟩
  · rw [hsrc]
    cases e with
    | register irq => rfl
    | hi irq => exact absurd rfl (he irq).1
    | low irq => exact absurd rfl (he irq).2
    | write reg data => rfl
  · rw [hevent n hn, hlevel, Bool.and_not_self, Bool.or_false]

theorem steps_register : Steps (.register irq) k (p.r k) ((sourceRegister irq p).2.2.r k) := by
  have hcall : ∀ irq', Event.register irq ≠ .hi irq' ∧ Event.register irq ≠ .low irq' := by simp
  unfold sourceRegister
  dsimp only
  split
  · exact steps_still hsh rfl rfl hcall (by simp [acked])
  rw [setRegs_r]
  by_cases hk : k = bankOf irq
  · subst hk
    rw [update_self]
    exact steps_still hsh rfl rfl hcall (by simp [acked])
  · rw [update_of_ne hk]
    exact steps_still hsh rfl rfl hcall (by simp [acked])

theorem steps_write : Steps (.write reg data) k (p.r k) ((picIoWrite reg data p).r k) := by
  have hcall : ∀ irq, Event.write reg data ≠ .hi irq ∧ Event.write reg data ≠ .low irq := by simp
  unfold picIoWrite
  split
  next henable =>
    have hack : ∀ n, acked k n (.write reg data) = false := by simp [acked, henable]
    rw [intlineUpd_r, setRegs_r]
    by_cases hk : k = decide (reg ≤ 3)
    · subst hk
      rw [update_self]
      exact steps_still hsh rfl rfl hcall (by simp [hack])
    · rw [update_of_ne hk]
      exact steps_still hsh rfl rfl hcall (by simp [hack])
  next hreg =>
    rw [and_top]
    split
    next htop => exact steps_still hsh rfl rfl hcall (by simp [acked, hreg, htop])
    next htop =>
      rw [intlineUpd_r, setRegs_r]
      by_cases hk : k = decide (reg ≤ 3)
      · subst hk
        rw [update_self]
        refine steps_still hsh rfl rfl hcall fun n hn => ?_
        simp only [getLsbD_and, getLsbD_not, acked, hreg, htop, hn]
        simp
      · rw [update_of_ne hk]
        have hack : ∀ n, acked k n (.write reg data) = false := by
          simp only [acked, htop]
          simp [Ne.symm hk]
        exact steps_still hsh rfl rfl hcall (by simp [hack])
  next henable hreg =>
    have hack : ∀ n, acked k n (.write reg data) = false := by
      simp [acked, show ¬ reg % 4 = 2 from hreg]
    exact steps_still hsh rfl rfl hcall (by simp [hack])

theorem step_steps : Steps e k (p.r k) ((step e p).r k) := by
  cases e with
  | register irq => exact steps_register hsh
  | hi irq => exact steps_hi hsh
  | low irq => exact steps_low hsh
  | write reg data => exact steps_write hsh

end Steps

/-! ## The processor's line -/

def Raised (p : State) : Prop :=
  ∃ k n, n < 32 ∧ (p.r k).event.getLsbD n = true ∧ (p.r k).enable.getLsbD n = true

theorem intlineUpd_cpuIrq : (intlineUpd p).cpuIrq = true ↔ Raised (intlineUpd p) := by
  have hbank : ∀ k, ((p.r k).event &&& (p.r k).enable != 0#32) = true ↔
      ∃ n, n < 32 ∧ (p.r k).event.getLsbD n = true ∧ (p.r k).enable.getLsbD n = true := by
    intro k
    simp only [ne_zero_iff, getLsbD_and, Bool.and_eq_true]
  unfold Raised
  rw [intlineUpd_r, Bool.exists_bool, ← hbank, ← hbank]
  simp [intlineUpd]

theorem setRegs_cpuIrq {regs : Regs} (hcpu : p.cpuIrq = true ↔ Raised p)
    (hevent : regs.event = (p.r k).event) (henable : regs.enable = (p.r k).enable) :
    (p.setRegs k regs).cpuIrq = true ↔ Raised (p.setRegs k regs) := by
  have hsame : ∀ k', ((p.setRegs k regs).r k').event = (p.r k').event ∧
      ((p.setRegs k regs).r k').enable = (p.r k').enable := by
    intro k'
    rw [setRegs_r]
    by_cases hk : k' = k
    · subst hk
      rw [update_self]
      exact ⟨hevent, henable⟩
    · rw [update_of_ne hk]
      exact ⟨rfl, rfl⟩
  unfold Raised at hcpu ⊢
  simp only [hsame]
  exact hcpu

theorem step_cpuIrq (hcpu : p.cpuIrq = true ↔ Raised p) :
    (step e p).cpuIrq = true ↔ Raised (step e p) := by
  cases e with
  | register irq =>
    unfold step sourceRegister
    dsimp only
    split
    · exact hcpu
    · exact setRegs_cpuIrq hcpu rfl rfl
  | hi irq =>
    unfold step sourceHi
    dsimp only
    split
    · exact hcpu
    · split
      · exact intlineUpd_cpuIrq
      · exact setRegs_cpuIrq hcpu rfl rfl
  | low irq =>
    unfold step sourceLow
    dsimp only
    split
    · exact hcpu
    · exact setRegs_cpuIrq hcpu rfl rfl
  | write reg data =>
    unfold step picIoWrite
    dsimp only
    split
    · exact intlineUpd_cpuIrq
    · split
      · exact intlineUpd_cpuIrq
      · exact intlineUpd_cpuIrq
    · exact hcpu

/-! ## Runs -/

theorem after_shared (es : List Event) (k : Bool) : Shared ((after es).r k) := by
  induction es with
  | nil => simp [Shared, after, reset]
  | cons e es ih => exact (step_steps ih).shared

theorem after_src (es : List Event) (k i : Bool) (hn : n < 32) :
    (((after es).r k).src i).getLsbD n = isHigh k i n es := by
  induction es with
  | nil => simp [after, reset, isHigh]
  | cons e es ih =>
    have hsrc := (step_steps (e := e) (after_shared es k)).src i n hn
    rw [after, hsrc]
    cases e with
    | register irq | write reg data => exact ih
    | hi irq | low irq => simp only [isHigh, ih]

theorem after_cpuIrq (es : List Event) : (after es).cpuIrq = true ↔ Raised (after es) := by
  induction es with
  | nil => simp [after, reset, Raised]
  | cons e es ih => exact step_cpuIrq ih

theorem sourceLow_old (es : List Event) : ((sourceLow irq (after es)).1 != 0#32) =
    (!irq.msb && isHigh (bankOf irq) (indOf irq) (lineOf irq) es) := by
  unfold sourceLow
  cases hpos : irq.msb with
  | true => rfl
  | false =>
    rw [if_neg (by decide)]
    rw [and_bitOf, after_src es _ _ lineOf_lt]
    rfl

structure Consistent (es : List Event) : Prop where
  level : ∀ k n, n < 32 →
    ((after es).r k).level.getLsbD n = (isHigh k false n es || isHigh k true n es)
  low : ∀ irq, (sourceLow irq (after es)).1 ≠ 0#32 ↔
    irq.msb = false ∧ isHigh (bankOf irq) (indOf irq) (lineOf irq) es = true
  event : ∀ e k n, n < 32 → ((after (e :: es)).r k).event.getLsbD n =
    ((((after es).r k).event.getLsbD n ||
      (((after (e :: es)).r k).level.getLsbD n && !((after es).r k).level.getLsbD n)) &&
      !acked k n e)
  cpu : (after es).cpuIrq = true ↔ Raised (after es)

theorem consistent (es : List Event) : Consistent es where
  level k n hn := by
    rw [after_shared es k n hn, after_src es k false hn, after_src es k true hn]
  low irq := by
    rw [← bne_iff_ne, sourceLow_old es, Bool.and_eq_true, Bool.not_eq_true']
  event e k n hn := (step_steps (after_shared es k)).event n hn
  cpu := after_cpuIrq es

end Pic

/-! ## The OSI controller -/

namespace OsiPic

open Pic (Word)

structure State where
  level : Word
  mask : Word
  cpuIrq : Bool
  deriving DecidableEq, Repr

def bit (irq : Fin 32) : Word := 1#32 <<< irq.val

def sourceHi (irq : Fin 32) (ps : State) : State :=
  let ps := { ps with level := ps.level ||| bit irq }
  if ps.level &&& ps.mask != 0#32 then { ps with cpuIrq := true } else ps

def sourceLow (irq : Fin 32) (ps : State) : Word × State :=
  let old := ps.level &&& bit irq
  let ps := { ps with level := ps.level &&& ~~~bit irq }
  (old, if ps.level &&& ps.mask == 0#32 then { ps with cpuIrq := false } else ps)

def unmaskIrq (irq : Fin 32) (ps : State) : State :=
  let ps := { ps with mask := ps.mask ||| bit irq }
  if ps.level &&& ps.mask != 0#32 then { ps with cpuIrq := true } else ps

def maskIrq (irq : Fin 32) (ps : State) : State :=
  let ps := { ps with mask := ps.mask &&& ~~~bit irq }
  if ps.level &&& ps.mask == 0#32 then { ps with cpuIrq := false } else ps

inductive Event
  | hi (irq : Fin 32)
  | low (irq : Fin 32)
  | mask (irq : Fin 32)
  | unmask (irq : Fin 32)
  deriving DecidableEq, Repr

def step : Event → State → State
  | .hi irq, ps => sourceHi irq ps
  | .low irq, ps => (sourceLow irq ps).2
  | .mask irq, ps => maskIrq irq ps
  | .unmask irq, ps => unmaskIrq irq ps

def after : List Event → State
  | [] => ⟨0, 0, false⟩
  | e :: es => step e (after es)

def isHigh (n : Fin 32) : List Event → Bool
  | [] => false
  | .hi irq :: es => irq == n || isHigh n es
  | .low irq :: es => !(irq == n) && isHigh n es
  | _ :: es => isHigh n es

variable {ps : State} {irq n : Fin 32} {e : Event}

theorem bit_getLsbD (irq n : Fin 32) : (bit irq).getLsbD n = (irq == n) := by
  revert irq n
  decide

theorem and_bit (w : Word) (irq : Fin 32) : w &&& bit irq ≠ 0#32 ↔ w.getLsbD irq = true := by
  have hbit : ∀ i : Fin 32, bit i = Pic.bitOf (BitVec.ofNat 32 i) ∧ Pic.lineOf (BitVec.ofNat 32 i) = i := by decide
  rw [← bne_iff_ne, (hbit irq).1, Pic.and_bitOf, (hbit irq).2]

def Raised (ps : State) : Prop :=
  ∃ n : Fin 32, ps.level.getLsbD n = true ∧ ps.mask.getLsbD n = true

theorem raised_iff : Raised ps ↔ ps.level &&& ps.mask ≠ 0#32 := by
  rw [← bne_iff_ne, Pic.ne_zero_iff]
  constructor
  · rintro ⟨n, hl, hm⟩
    exact ⟨n, n.isLt, by rw [getLsbD_and, hl, hm]; rfl⟩
  · rintro ⟨n, hn, h⟩
    rw [getLsbD_and, Bool.and_eq_true] at h
    exact ⟨⟨n, hn⟩, h.1, h.2⟩

theorem cpuIrq_raise (ps : State) (hgrow : ps.cpuIrq = true → Raised ps) (ps' : State)
    (hps' : ps' = if ps.level &&& ps.mask != 0#32 then { ps with cpuIrq := true } else ps) :
    ps'.cpuIrq = true ↔ Raised ps' := by
  subst hps'
  split
  · rename_i hne
    exact ⟨fun _ => raised_iff.mpr (bne_iff_ne.mp hne), fun _ => rfl⟩
  · rename_i hz
    refine ⟨hgrow, fun hraised => ?_⟩
    exact absurd (bne_iff_ne.mpr (raised_iff.mp hraised)) hz

theorem cpuIrq_lower (ps : State) (hshrink : Raised ps → ps.cpuIrq = true) (ps' : State)
    (hps' : ps' = if ps.level &&& ps.mask == 0#32 then { ps with cpuIrq := false } else ps) :
    ps'.cpuIrq = true ↔ Raised ps' := by
  subst hps'
  split
  · rename_i hz
    refine ⟨fun h => (nomatch h), fun hraised => ?_⟩
    exact absurd (beq_iff_eq.mp hz) (raised_iff.mp hraised)
  · rename_i hne
    exact ⟨fun _ => raised_iff.mpr (fun h => hne (beq_iff_eq.mpr h)), hshrink⟩

theorem step_cpuIrq (hcpu : ps.cpuIrq = true ↔ Raised ps) :
    (step e ps).cpuIrq = true ↔ Raised (step e ps) := by
  cases e with
  | hi irq =>
    refine cpuIrq_raise { ps with level := ps.level ||| bit irq } ?_ _ rfl
    intro h
    obtain ⟨n, hl, hm⟩ := hcpu.mp h
    exact ⟨n, by rw [getLsbD_or, hl]; rfl, hm⟩
  | low irq =>
    refine cpuIrq_lower { ps with level := ps.level &&& ~~~bit irq } ?_ _ rfl
    rintro ⟨n, hl, hm⟩
    rw [getLsbD_and, Bool.and_eq_true] at hl
    exact hcpu.mpr ⟨n, hl.1, hm⟩
  | mask irq =>
    refine cpuIrq_lower { ps with mask := ps.mask &&& ~~~bit irq } ?_ _ rfl
    rintro ⟨n, hl, hm⟩
    rw [getLsbD_and, Bool.and_eq_true] at hm
    exact hcpu.mpr ⟨n, hl, hm.1⟩
  | unmask irq =>
    refine cpuIrq_raise { ps with mask := ps.mask ||| bit irq } ?_ _ rfl
    intro h
    obtain ⟨n, hl, hm⟩ := hcpu.mp h
    exact ⟨n, hl, by rw [getLsbD_or, hm]; rfl⟩

theorem step_level (e : Event) (ps : State) (n : Fin 32) :
    (step e ps).level.getLsbD n = match e with
      | .hi irq => irq == n || ps.level.getLsbD n
      | .low irq => !(irq == n) && ps.level.getLsbD n
      | _ => ps.level.getLsbD n := by
  cases e with
  | hi irq =>
    have hlevel : (step (.hi irq) ps).level = ps.level ||| bit irq := by
      unfold step sourceHi
      dsimp only
      split <;> rfl
    rw [hlevel, getLsbD_or, bit_getLsbD, Bool.or_comm]
  | low irq =>
    have hlevel : (step (.low irq) ps).level = ps.level &&& ~~~bit irq := by
      unfold step sourceLow
      dsimp only
      split <;> rfl
    rw [hlevel, getLsbD_and, getLsbD_not, bit_getLsbD, decide_eq_true n.isLt,
      Bool.true_and, Bool.and_comm]
  | mask irq =>
    unfold step maskIrq
    dsimp only
    split <;> rfl
  | unmask irq =>
    unfold step unmaskIrq
    dsimp only
    split <;> rfl

theorem after_level (es : List Event) (n : Fin 32) : (after es).level.getLsbD n = isHigh n es := by
  induction es with
  | nil => simp [after, isHigh]
  | cons e es ih =>
    rw [after, step_level]
    cases e with
    | hi irq | low irq => simp only [isHigh, ih]
    | mask irq | unmask irq => exact ih

theorem after_cpuIrq (es : List Event) : (after es).cpuIrq = true ↔ Raised (after es) := by
  induction es with
  | nil => simp [after, Raised]
  | cons e es ih => exact step_cpuIrq ih

/-- The lines of the controller and the processor's line agree after a history. -/
structure Consistent (es : List Event) : Prop where
  level : ∀ n : Fin 32, (after es).level.getLsbD n = isHigh n es
  low : ∀ irq, (sourceLow irq (after es)).1 ≠ 0#32 ↔ isHigh irq es = true
  cpu : (after es).cpuIrq = true ↔ Raised (after es)

theorem consistent (es : List Event) : Consistent es where
  level := after_level es
  low irq := by
    rw [← after_level]
    exact and_bit _ irq
  cpu := after_cpuIrq es

end OsiPic

end MacOnLinux
