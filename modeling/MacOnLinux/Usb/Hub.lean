import Mathlib.Tactic.IntervalCases
import MacOnLinux.Usb.Events

/-! # The registers of the root hub -/

namespace MacOnLinux.Usb

open BitVec List Function

def has (w mask : Word) : Bool := w &&& mask != 0

/-- What a write of `val` to HcRhStatus is there to do. -/
structure StatusRule (old val new : Word) : Prop where
  ocic : has new rhStatusOcic = (has old rhStatusOcic && !has val rhStatusOcic)
  drwe : has new rhStatusDrwe = (has val rhStatusDrwe || has old rhStatusDrwe && !has val rhStatusCrwe)
  rest : new &&& ~~~(rhStatusOcic ||| rhStatusDrwe) =
    rhStatusReg old (val &&& ~~~(rhStatusOcic ||| rhStatusDrwe ||| rhStatusCrwe)) &&&
      ~~~(rhStatusOcic ||| rhStatusDrwe)

/-- The code keeps of `old` the bit that it should clear, and clears the others. -/
def StatusFits (old val : Word) : Prop :=
  (has val rhStatusOcic = has val rhStatusCrwe ∨ has old rhStatusOcic = false ∧
    (has val rhStatusDrwe = true ∨ has old rhStatusDrwe = false)) ∧
  (has old rhStatusOci = true → has val rhStatusOcic = false ∧ has val rhStatusCrwe = false)

/-- The changes that a write of `val` makes happen at a port: a reset, an access to a port without a
device, a resume. -/
def portEvent (old val : Word) : List Word :=
  let suspended := if has old portCcs then (has old portPss || has val portPss) && !has val portPrs else has old portPss
  (if has old portCcs && has val portPrs then [portPrsc] else []) ++
  (if !has old portCcs && has val (portPss ||| portPes ||| portPrs) then [portCsc] else []) ++
  (if suspended && has val portPoci then [portPssc] else [])

structure PortRule (old val new : Word) : Prop where
  changes : ∀ c ∈ [portCsc, portPesc, portPssc, portOcic, portPrsc],
    has new c = (!has val c && (has old c || c ∈ portEvent old val))
  ccs : has new portCcs = has old portCcs
  absent : has old portCcs = false → ∀ c ∈ [portPes, portPss], has new c = true → has old c = true

/-! ## Bits -/

theorem has_twoPow {k : Nat} (hk : k < 32) (w : Word) : has w (twoPow 32 k) = w.getLsbD k := by
  have hne : twoPow 32 k ≠ 0#32 := by
    intro h
    have hbit := congrArg (·.getLsbD k) h
    simp [hk] at hbit
  unfold has
  rw [and_twoPow]
  cases w.getLsbD k <;> simp [hne]

theorem has_or (w a b : Word) : has w (a ||| b) = (has w a || has w b) := by
  unfold has
  have hsplit : w &&& (a ||| b) = 0 ↔ w &&& a = 0 ∧ w &&& b = 0 := by
    rw [and_or_distrib_left]
    exact or_eq_zero_iff
  rw [Bool.eq_iff_iff, Bool.or_eq_true, bne_iff_ne, bne_iff_ne, bne_iff_ne, ne_eq, hsplit]
  exact not_and_or

theorem has_bit : ∀ p ∈ [(portCcs, 0), (portPes, 1), (portPss, 2), (portPoci, 3), (portPrs, 4), (portCsc, 16),
    (portPesc, 17), (portPssc, 18), (portOcic, 19), (portPrsc, 20), (rhStatusOci, 1), (rhStatusDrwe, 15),
    (rhStatusOcic, 17), (rhStatusCrwe, 31)], ∀ w : Word, has w p.1 = w.getLsbD p.2 := by
  intro p hp w
  have hpos : p.1 = twoPow 32 p.2 ∧ p.2 < 32 := by
    revert p
    decide
  rw [hpos.1, has_twoPow hpos.2]

theorem getLsbD_ite (c : Prop) [Decidable c] (x y : Word) (k : Nat) :
    (if c then x else y).getLsbD k = if c then x.getLsbD k else y.getLsbD k := apply_ite (getLsbD · k) ..

theorem portReg_rule (old val : Word) : PortRule old val (portReg old val) := by
  have hhas : ∀ w mask : Word, (w &&& mask != 0) = has w mask := fun _ _ => rfl
  have hbit := has_bit
  simp only [forall_mem_cons, not_mem_nil, false_implies, implies_true, and_true] at hbit
  constructor
  all_goals simp only [portReg, portEvent, forall_mem_cons, not_mem_nil, false_implies, implies_true, and_true, hhas,
    has_or, hbit, getLsbD_ite, getLsbD_and, getLsbD_or]
  all_goals simp [portPes, portPps, portPss, portPrs, portPssc, portPrsc, portCsc, portChanges, portPesc, portOcic]
  all_goals grind

theorem rhStatusReg_getLsbD (old val : Word) (i : Nat) (hi : i < 32) :
    (rhStatusReg old val).getLsbD i =
      if i = 17 then old.getLsbD 17 && !val.getLsbD 31
      else if i = 15 then val.getLsbD 15 || old.getLsbD 15 && !val.getLsbD 17
      else if i = 1 then old.getLsbD 1 && !val.getLsbD 17 && !val.getLsbD 31
      else !(i = 0 || i = 16 || i = 31) && val.getLsbD i := by
  have hhas : ∀ w mask : Word, (w &&& mask != 0) = has w mask := fun _ _ => rfl
  simp only [rhStatusReg, hhas, has_bit (rhStatusOcic, 17) (by decide), has_bit (rhStatusCrwe, 31) (by decide),
    getLsbD_and, getLsbD_or, getLsbD_ite]
  simp only [rhStatusOci, rhStatusOcic, rhStatusDrwe, rhStatusCrwe, rhStatusLps, rhStatusLpsc]
  cases val.getLsbD 17 <;> cases val.getLsbD 31 <;> interval_cases i <;> simp

theorem rhStatusReg_rest_iff (old val : Word) :
    rhStatusReg old val &&& ~~~(rhStatusOcic ||| rhStatusDrwe) =
      rhStatusReg old (val &&& ~~~(rhStatusOcic ||| rhStatusDrwe ||| rhStatusCrwe)) &&&
        ~~~(rhStatusOcic ||| rhStatusDrwe) ↔
    (old.getLsbD 1 = true → val.getLsbD 17 = false ∧ val.getLsbD 31 = false) := by
  simp only [eq_of_getLsbD_eq_iff, getLsbD_and]
  constructor
  · intro h
    have hoci := h 1 (by decide)
    rw [rhStatusReg_getLsbD _ _ 1 (by decide), rhStatusReg_getLsbD _ _ 1 (by decide)] at hoci
    simp [rhStatusOcic, rhStatusDrwe, rhStatusCrwe] at hoci
    grind
  · intro h i hi
    rw [rhStatusReg_getLsbD _ _ i hi, rhStatusReg_getLsbD _ _ i hi]
    interval_cases i <;> simp [rhStatusOcic, rhStatusDrwe, rhStatusCrwe]
    grind

theorem rhStatusReg_rule_iff (old val : Word) : StatusRule old val (rhStatusReg old val) ↔ StatusFits old val := by
  have hbit := has_bit
  simp only [forall_mem_cons, not_mem_nil, false_implies, implies_true, and_true] at hbit
  have hocic := rhStatusReg_getLsbD old val 17 (by decide)
  have hdrwe := rhStatusReg_getLsbD old val 15 (by decide)
  have hrest := rhStatusReg_rest_iff old val
  simp only [StatusFits, hbit]
  constructor
  · intro h
    have h1 := h.ocic
    have h2 := h.drwe
    have h3 := hrest.mp h.rest
    simp only [hbit] at h1 h2
    grind
  · rintro ⟨h, hoci⟩
    refine ⟨?_, ?_, hrest.mpr hoci⟩ <;> simp only [hbit] <;> grind

/-! ## The writes -/

variable (env : Env) (call : Task → Hc → Except Stop Hc) (hc : Hc) (val : Word)

theorem regIoWrite_status : ∃ hc', regIoWrite env call hc hcRhStatus val = .ok hc' ∧
    hc'.r hcRhStatus = rhStatusReg (hc.r hcRhStatus) val := by
  refine ⟨(hc.setReg hcRhStatus (rhStatusReg (hc.r hcRhStatus) val)).fixIrq, rfl, ?_⟩
  simp only [Hc.fixIrq, Hc.setReg, update_self]

theorem regIoWrite_port {port : Nat} (hport : port < ndp) {hc' : Hc}
    (h : regIoWrite env call hc (hcRhPortbase + port) val = .ok hc') :
    hc'.r (hcRhPortbase + port) = portReg (hc.r (hcRhPortbase + port)) val := by
  unfold ndp at hport
  have hval : regValue env call hc (hcRhPortbase + port) val =
      (portWrite env call hc port val).map fun hc => (hc, hc.r (hcRhPortbase + port)) := by
    interval_cases port <;> rfl
  unfold regIoWrite at h
  rw [if_neg (by unfold ndp; omega), hval] at h
  unfold portWrite at h
  cases hreset : resetPort env call hc port val with
  | error e =>
    rw [hreset] at h
    cases h
  | ok hc1 =>
    rw [hreset] at h
    cases h
    exact (update_self ..).trans (update_self ..)

theorem hub_iff :
    ((∃ hc', regIoWrite env call hc hcRhStatus val = .ok hc' ∧
        StatusRule (hc.r hcRhStatus) val (hc'.r hcRhStatus)) ∧
      ∀ port < ndp, ∀ hc', regIoWrite env call hc (hcRhPortbase + port) val = .ok hc' →
        PortRule (hc.r (hcRhPortbase + port)) val (hc'.r (hcRhPortbase + port))) ↔
    StatusFits (hc.r hcRhStatus) val := by
  obtain ⟨hc1, hok1, hreg⟩ := regIoWrite_status env call hc val
  rw [← rhStatusReg_rule_iff, ← hreg]
  constructor
  · rintro ⟨⟨hc', hok, h⟩, -⟩
    cases hok1.symm.trans hok
    exact h
  · intro h
    refine ⟨⟨hc1, hok1, h⟩, fun port hport hc' hok => ?_⟩
    rw [regIoWrite_port env call hc val hport hok]
    exact portReg_rule ..

/-- OCIC is written as one and stays; CRWE is written and DRWE stays. -/
theorem status_not_cleared : rhStatusReg rhStatusOcic rhStatusOcic = rhStatusOcic ∧
    rhStatusReg rhStatusDrwe rhStatusCrwe = rhStatusDrwe := by
  decide

end MacOnLinux.Usb
