import MacOnLinux.Lib.Result
import MacOnLinux.Usb.Events

/-! # The interrupt line, the frame timer and the functional state -/

namespace MacOnLinux.Usb

open Function Result BitVec

variable {n id cu lost : Nat} {u : Urb} {c : Curb} {d : Dev} {edMphys val : Word}
variable {listType : ListType} {reply : Reply} {ev : Event} {hc hc' : Hc}

/-! ## The calls keep both -/

structure Quiet (hc hc' : Hc) : Prop where
  hcfs : hc'.hcfs = hc.hcfs
  timer : hc'.timer = hc.timer
  line : hc.irqLine = hc.irqDue → hc'.irqLine = hc'.irqDue

namespace Quiet

variable {hc hc' hc'' : Hc}

theorem refl (hc : Hc) : Quiet hc hc := ⟨rfl, rfl, id⟩

theorem trans (h : Quiet hc hc') (h' : Quiet hc' hc'') : Quiet hc hc'' :=
  ⟨h'.hcfs.trans h.hcfs, h'.timer.trans h.timer, fun hl => h'.line (h.line hl)⟩

theorem setReg (hc : Hc) (hn : n ≠ hcControl) (v : Word) : Quiet hc (hc.setReg n v) := by
  refine ⟨?_, rfl, id⟩
  show update hc.r n v hcControl &&& hcfsMask = hc.r hcControl &&& hcfsMask
  rw [update_of_ne hn.symm]

theorem fixIrq (hc : Hc) (bits : Word) : Quiet hc (hc.raise bits).fixIrq := ⟨rfl, rfl, fun _ => rfl⟩

theorem setCurb (hc : Hc) (id : Nat) (c : Curb) : Quiet hc (hc.setCurb id c) := ⟨rfl, rfl, fun hl => hl⟩

theorem freeCurb (hc : Hc) (id : Nat) : Quiet hc (hc.freeCurb id) := ⟨rfl, rfl, fun hl => hl⟩

theorem mapDev (hc : Hc) (id : Nat) (f : Dev → Dev) : Quiet hc (hc.mapDev id f) := ⟨rfl, rfl, fun hl => hl⟩

theorem updateDoneHead (hc : Hc) : Quiet hc hc.updateDoneHead := by
  unfold Hc.updateDoneHead
  split
  · exact refl hc
  dsimp only
  split
  · exact refl hc
  · refine ⟨?_, rfl, fun _ => rfl⟩
    exact (setReg hc (n := hcDoneHead) (by decide) 0).hcfs

theorem unlinkUrb (h : hc.unlinkUrb id = .ok hc') : Quiet hc hc' := by
  unfold Hc.unlinkUrb at h
  split at h
  · cases h
    exact ⟨rfl, rfl, fun hl => hl⟩
  · cases h

theorem freeCtrlUrb (h : hc.freeCtrlUrb id = .ok hc') : Quiet hc hc' := by
  obtain ⟨c, -, h⟩ := bind_eq_ok.mp h
  obtain ⟨d, -, h⟩ := bind_eq_ok.mp h
  split at h
  · split at h
    · cases h
      exact (mapDev _ _ _).trans (freeCurb _ _)
    · cases h
      exact (mapDev _ _ _).trans (setCurb _ _ _)
  · cases h
    exact refl hc

theorem retire (env : Env) (u : Urb) (status : Int) (hc : Hc) : Quiet hc (retire env u status hc).hc := by
  refine trans ?_ (updateDoneHead _)
  exact ⟨(setReg hc (n := hcDoneHead) (by decide) u.tdMphys).hcfs, rfl, id⟩

theorem listEnd (listType : ListType) (ret : Bool) (hc : Hc) : Quiet hc (listEnd listType ret hc) := by
  unfold Usb.listEnd
  split
  · exact refl hc
  split
  · exact (setReg _ (n := hcCurCntrlEd) (by decide) _).trans (setReg _ (n := hcCmdStatus) (by decide) _)
  · exact (setReg _ (n := hcCurBulkEd) (by decide) _).trans (setReg _ (n := hcCmdStatus) (by decide) _)
  · exact refl hc

section Calls

variable {env : Env} {call : Task → Hc → Except Stop Hc} {fuel : Nat}
  (hcall : ∀ t hc hc', call t hc = .ok hc' → Quiet hc hc')
include hcall

theorem completeUrb {status : Int} (h : completeUrb env call fuel u status hc = .ok hc') :
    Quiet hc hc' := by
  unfold Usb.completeUrb at h
  obtain ⟨hc1, h1, h⟩ := bind_eq_ok.mp h
  obtain ⟨found, -, h⟩ := bind_eq_ok.mp h
  refine (unlinkUrb h1).trans ?_
  split at h
  · dsimp only at h
    split at h
    · exact (retire _ _ _ _).trans (hcall _ _ _ h)
    · cases h
      exact retire _ _ _ _
  · exact hcall _ _ _ h

theorem submit {ref : Ref} {done : Reply → Task} (h : submit env call ref done hc = .ok hc') : Quiet hc hc' := by
  unfold Usb.submit at h
  split at h
  · cases h
    exact ⟨rfl, rfl, id⟩
  · refine trans ?_ (hcall _ _ _ h)
    exact ⟨rfl, rfl, id⟩

theorem submitCurb (h : submitCurb env call cu hc = .ok hc') : Quiet hc hc' := by
  unfold Usb.submitCurb at h
  obtain ⟨c, -, h⟩ := bind_eq_ok.mp h
  obtain ⟨d, -, h⟩ := bind_eq_ok.mp h
  exact submit hcall h

theorem finishCtrlUrb (h : finishCtrlUrb call cu u hc = .ok hc') : Quiet hc hc' := by
  unfold Usb.finishCtrlUrb at h
  obtain ⟨c, -, h⟩ := bind_eq_ok.mp h
  split at h
  · obtain ⟨hc1, h1, h⟩ := bind_eq_ok.mp h
    exact (freeCtrlUrb h1).trans (hcall _ _ _ h)
  split at h
  · exact (setCurb _ _ _).trans (hcall _ _ _ h)
  · obtain ⟨hc1, h1, h⟩ := bind_eq_ok.mp h
    exact (freeCtrlUrb h1).trans (hcall _ _ _ h)

theorem submitStatus (h : submitStatus env call cu c u hc = .ok hc') : Quiet hc hc' := by
  unfold Usb.submitStatus at h
  split at h
  · obtain ⟨hc1, h1, h⟩ := bind_eq_ok.mp h
    obtain ⟨d, -, h⟩ := bind_eq_ok.mp h
    cases h
    exact (setCurb _ _ _).trans ((hcall _ _ _ h1).trans (mapDev _ _ _))
  · exact (setCurb _ _ _).trans (submitCurb hcall h)

theorem submitSetup (h : submitSetup env call u d hc = .ok hc') : Quiet hc hc' := by
  unfold Usb.submitSetup at h
  split at h
  · exact hcall _ _ _ h
  obtain ⟨hc1, h1, h⟩ := bind_eq_ok.mp h
  have hadd : Quiet hc (hc.addCurb (newCurb env u d)) := ⟨rfl, rfl, id⟩
  refine (hadd.trans (hcall _ _ _ h1)).trans ?_
  split at h
  · exact submitCurb hcall h
  · cases h
    exact refl _

theorem abortCtrl (h : abortCtrl call cu u hc = .ok hc') : Quiet hc hc' := by
  unfold Usb.abortCtrl at h
  obtain ⟨hc1, h1, h⟩ := bind_eq_ok.mp h
  exact (hcall _ _ _ h1).trans (freeCtrlUrb h)

theorem submitWrite (h : submitWrite env call cu c u hc = .ok hc') : Quiet hc hc' := by
  unfold Usb.submitWrite at h
  split at h
  · exact abortCtrl hcall h
  split at h
  · exact hcall _ _ _ h
  split at h
  · split at h
    · exact abortCtrl hcall h
    · exact submitStatus hcall h
  split at h
  · exact abortCtrl hcall h
  · exact (setCurb _ _ _).trans (hcall _ _ _ h)

theorem submitNext (h : submitNext env call cu u hc = .ok hc') : Quiet hc hc' := by
  unfold Usb.submitNext at h
  obtain ⟨c, -, h⟩ := bind_eq_ok.mp h
  split at h
  · exact submitWrite hcall h
  split at h
  · exact hcall _ _ _ h
  · cases h
    exact refl _

theorem doSubmitCtrl {dir : Word} (h : doSubmitCtrl env call u dir hc = .ok hc') : Quiet hc hc' := by
  unfold Usb.doSubmitCtrl at h
  split at h
  · cases h
  obtain ⟨d, -, h⟩ := bind_eq_ok.mp h
  obtain ⟨cu, -, h⟩ := bind_eq_ok.mp h
  split at h
  · split at h
    · obtain ⟨hc1, h1, h⟩ := bind_eq_ok.mp h
      exact (freeCtrlUrb h1).trans (submitSetup hcall h)
    · exact submitNext hcall h
  · split at h
    · exact hcall _ _ _ h
    · exact submitSetup hcall h

theorem issue (h : issue env call u hc = .ok hc') : Quiet hc hc' := by
  unfold Usb.issue at h
  split at h
  · exact hcall _ _ _ h
  split at h
  · exact hcall _ _ _ h
  · exact submit hcall h

theorem processEndpoint {ed : Ed} (h : processEndpoint env call ed edMphys listType hc = .ok hc') :
    Quiet hc hc' := by
  unfold Usb.processEndpoint at h
  split at h
  · cases h
    exact refl _
  split at h
  · cases h
  · refine trans ?_ (issue hcall h)
    exact ⟨rfl, rfl, id⟩

theorem processList {ret : Bool} (h : processList env call edMphys listType ret hc = .ok hc') :
    Quiet hc hc' := by
  unfold Usb.processList at h
  split at h
  · cases h
    exact listEnd _ _ _
  simp only at h
  split at h
  · exact hcall _ _ _ h
  split at h
  · cases h
    exact listEnd _ _ _
  split at h
  · exact hcall _ _ _ h
  · obtain ⟨hc1, h1, h⟩ := bind_eq_ok.mp h
    exact (hcall _ _ _ h1).trans (hcall _ _ _ h)

theorem pollList {enable : Word} {cur head : Nat} (hcur : cur ≠ hcControl) {ctrl status : Word}
    (h : pollList call enable cur head listType ctrl status hc = .ok hc') :
    Quiet hc hc' := by
  unfold Usb.pollList at h
  split at h
  · simp only at h
    split at h
    · exact (setReg _ hcur _).trans (hcall _ _ _ h)
    · exact hcall _ _ _ h
  · cases h
    exact refl _

theorem pollLists (h : pollLists call hc = .ok hc') : Quiet hc hc' := by
  unfold Usb.pollLists at h
  split at h
  · cases h
    exact refl _
  · obtain ⟨hc1, h1, h⟩ := bind_eq_ok.mp h
    exact (pollList hcall (by decide) h1).trans (pollList hcall (by decide) h)

theorem completeCtrlUrb (h : completeCtrlUrb call cu reply hc = .ok hc') : Quiet hc hc' := by
  unfold Usb.completeCtrlUrb at h
  obtain ⟨c, -, h⟩ := bind_eq_ok.mp h
  split at h
  · cases h
    exact ⟨rfl, rfl, id⟩
  dsimp only at h
  generalize hdone : Hc.setCurb _ cu _ = hc1 at h
  have hq : Quiet hc hc1 := by
    subst hdone
    exact ⟨rfl, rfl, id⟩
  refine hq.trans ?_
  split at h
  · exact freeCtrlUrb h
  split at h
  · exact hcall _ _ _ h
  · cases h
    exact refl _

theorem completeDataUrb (h : completeDataUrb call id reply hc = .ok hc') : Quiet hc hc' := by
  unfold Usb.completeDataUrb at h
  split at h
  · cases h
  split at h
  · refine trans ?_ (unlinkUrb h)
    exact ⟨rfl, rfl, fun hl => hl⟩
  · refine trans ?_ (hcall _ _ _ h)
    exact ⟨rfl, rfl, fun hl => hl⟩

theorem body {t : Task} (h : body env call fuel t hc = .ok hc') : Quiet hc hc' := by
  unfold Usb.body at h
  cases t with
  | completeUrb u status => exact completeUrb hcall h
  | finishCtrlUrb cu u => exact finishCtrlUrb hcall h
  | doSubmitCtrl u dir => exact doSubmitCtrl hcall h
  | processEndpoint ed edMphys listType => exact processEndpoint hcall h
  | processList edMphys listType ret => exact processList hcall h
  | pollLists => exact pollLists hcall h
  | completeCtrlUrb cu reply => exact completeCtrlUrb hcall h
  | completeDataUrb id reply => exact completeDataUrb hcall h

end Calls

theorem run (env : Env) (fuel : Nat) : ∀ t hc hc', run env fuel t hc = .ok hc' → Quiet hc hc' := by
  induction fuel with
  | zero =>
    intro t hc hc' h
    cases h
  | succ fuel ih =>
    intro t hc hc' h
    exact body ih h

end Quiet

/-! ## The ports -/

theorem hcfs_setReg (hc : Hc) (val : Word) : (hc.setReg hcControl val).hcfs = val &&& hcfsMask := by
  show update hc.r hcControl val hcControl &&& hcfsMask = val &&& hcfsMask
  rw [update_self]

theorem hcfs_setResume (h : hc.hcfs = hcfsSuspend) : (hc.setHcfs hcfsResume).hcfs = hc.hcfs := by
  unfold Hc.setHcfs
  rw [hcfs_setReg, BitVec.and_comm, and_or_distrib_left, BitVec.and_comm hcfsMask,
    show hc.r hcControl &&& hcfsMask = hcfsSuspend from h, h]
  decide

theorem Quiet.updatePort (hc : Hc) (i : Nat) : Quiet hc (hc.updatePort i) := by
  have hport : hcRhPortbase + i ≠ hcControl := by
    unfold hcRhPortbase hcControl
    omega
  unfold Hc.updatePort
  generalize hc.portEvents i = r
  obtain ⟨ev, new⟩ := r
  refine trans ?_ (setReg _ hport _)
  by_cases hev : ev = 0
  · subst hev
    have hcsc : ((0 : Word) &&& portCsc != 0) = false := by decide
    simp only [hcsc, Bool.and_false]
    exact refl hc
  rw [if_pos (bne_iff_ne.mpr hev)]
  split
  · next hwake =>
    simp only [Bool.and_eq_true, beq_iff_eq] at hwake
    exact ⟨hcfs_setResume (show (hc.raise intRd).hcfs = hcfsSuspend from hwake.2), rfl, fun _ => rfl⟩
  · exact fixIrq hc intRhsc

theorem Quiet.updatePortStatus (hc : Hc) : Quiet hc hc.updatePortStatus := by
  unfold Hc.updatePortStatus
  generalize List.range ndp = ports
  induction ports generalizing hc with
  | nil => exact refl hc
  | cons i ports ih => exact (updatePort hc i).trans (ih _)

def resetControl (hc : Hc) (soft : Bool) : Word :=
  ((if soft then hc.r hcControl else 0) &&& ~~~(ctrlIr ||| ctrlRwc)) ||| (if soft then hcfsSuspend else hcfsReset)

theorem Quiet.reset (hc : Hc) (soft : Bool) :
    Quiet (Hc.setReg { hc with r := fun _ => 0, hcca := none } hcControl (resetControl hc soft)) (hc.reset soft) := by
  refine trans ?_ (updatePortStatus _)
  refine trans ?_ (setReg _ (n := hcRhDescA) (by decide) _)
  refine trans ?_ (setReg _ (n := hcLsThreshold) (by decide) _)
  refine trans ?_ (setReg _ (n := hcFmInterval) (by decide) _)
  exact refl _

theorem hcfs_reset (hc : Hc) (soft : Bool) :
    (hc.reset soft).hcfs = if soft then hcfsSuspend else hcfsReset := by
  rw [(Quiet.reset hc soft).hcfs, hcfs_setReg]
  unfold resetControl
  cases soft with
  | false =>
    simp only [Bool.false_eq_true, if_false]
    decide
  | true =>
    simp only [if_true]
    apply eq_of_getLsbD_eq
    intro i hi
    simp only [getLsbD_or, getLsbD_and, show hcfsSuspend = hcfsMask from rfl]
    cases hcfsMask.getLsbD i <;> simp

/-! ## Every event -/

structure Agrees (hc : Hc) : Prop where
  line : hc.irqLine = hc.irqDue
  timer : hc.timer = hc.isOperational

theorem Agrees.quiet (h : Agrees hc) (hq : Quiet hc hc') : Agrees hc' :=
  ⟨hq.line h.line, by unfold Hc.isOperational; rw [hq.timer, hq.hcfs]; exact h.timer⟩

/-- A frame number that overflows changes nothing about the interrupt. -/
def FrameQuiet (hc : Hc) (lost : Nat) : Prop :=
  frameOverflow hc lost = true → hc.irqEnable &&& intMie = 0 ∨ hc.irqEnable &&& intFno = 0 ∨
    hc.irqEnable &&& (hc.irqStatus ||| intSf) ≠ 0

/-- No reset in the operational state, no overflow alone, no change while suspended. -/
def Settled (_ : Env) (hc : Hc) : Event → Prop
  | .write n val => n = hcCmdStatus → val &&& cmdHcr ≠ 0 → hc.isOperational = false
  | .tick lost => FrameQuiet hc lost
  | .connect | .disconnect _ => ¬ (hc.hcfs = hcfsSuspend ∧ hc.r hcRhStatus &&& rhStatusDrwe ≠ 0)
  | .guest _ | .complete _ _ => True

section Events

variable {env : Env} {call : Task → Hc → Except Stop Hc} {fuel : Nat} {hc hc' : Hc}
  (hcall : ∀ t hc hc', call t hc = .ok hc' → Quiet hc hc')

section Calls

include hcall

section Timer

variable (ht : hc.timer = hc.isOperational)

include ht

theorem writeControl_timer
    (h : writeControl call hc val = .ok hc') : hc'.timer = hc'.isOperational := by
  have hset := hcfs_setReg hc val
  unfold writeControl at h
  dsimp only at h
  split at h
  · next hsame =>
    cases h
    unfold Hc.isOperational
    rw [hset, hsame]
    exact ht
  -- the timer is off between the two states
  have hoff : ∀ hc1, hc1 = (if hc.r hcControl &&& hcfsMask = hcfsOperational then
      { hc.setReg hcControl val with timer := false } else hc.setReg hcControl val) →
      hc1.timer = false ∧ hc1.hcfs = val &&& hcfsMask := by
    rintro hc1 rfl
    split
    · exact ⟨rfl, hset⟩
    · next hne => exact ⟨ht.trans (decide_eq_false hne), hset⟩
  generalize hmid : (if hc.r hcControl &&& hcfsMask = hcfsOperational then
      { hc.setReg hcControl val with timer := false } else hc.setReg hcControl val) = hc1 at h
  obtain ⟨htimer, hhcfs⟩ := hoff hc1 hmid.symm
  split at h
  · next hop =>
    obtain ⟨hc2, h2, rfl⟩ := map_eq_ok.mp h
    have hq := (Quiet.updateDoneHead hc1).trans (hcall _ _ _ h2)
    have : hc2.isOperational = true := decide_eq_true (hq.hcfs.trans (hhcfs.trans hop))
    rw [if_pos this]
    exact this.symm
  · next hop =>
    cases h
    rw [htimer]
    exact (decide_eq_false (hhcfs ▸ hop)).symm

omit ht in
theorem Quiet.resetDev {dev : Nat} (rs : List (Ref × Reply)) : ∀ {hc}, resetDev call dev rs hc = .ok hc' →
    Quiet hc hc' := by
  induction rs with
  | nil =>
    intro hc h
    cases h
    exact refl _
  | cons r rs ih =>
    obtain ⟨ref, reply⟩ := r
    intro hc h
    unfold Usb.resetDev at h
    split at h
    · obtain ⟨hc1, h1, h⟩ := bind_eq_ok.mp h
      have hq : Quiet hc hc1 := by
        cases ref with
        | ctrl id | data id => exact hcall _ _ _ h1
      exact hq.trans (ih h)
    · exact ih h

theorem portWrite_timer {port : Nat}
    (h : portWrite env call hc port val = .ok hc') : hc'.timer = hc'.isOperational := by
  obtain ⟨hc1, h1, rfl⟩ := map_eq_ok.mp h
  have hq : Quiet hc hc1 := by
    unfold resetPort at h1
    split at h1
    · exact (Quiet.mapDev _ _ _).trans (Quiet.resetDev hcall _ h1)
    · cases h1
      exact .refl _
  have hport : hcRhPortbase + port ≠ hcControl := by
    unfold hcRhPortbase hcControl
    omega
  have hset := Quiet.setReg hc1 hport (portReg (hc.r (hcRhPortbase + port)) val)
  have hop : hc1.timer =
      (hc1.setReg (hcRhPortbase + port) (portReg (hc.r (hcRhPortbase + port)) val)).isOperational := by
    unfold Hc.isOperational
    rw [hset.hcfs, hq.hcfs, hq.timer]
    exact ht
  split <;> exact hop

theorem writeCmdStatus_timer (hcond : val &&& cmdHcr ≠ 0 → hc.isOperational = false)
    (h : writeCmdStatus call hc val = .ok hc') :
    hc'.timer = hc'.isOperational := by
  unfold writeCmdStatus at h
  split at h
  · next hreset =>
    cases h
    rw [(Quiet.reset hc true).timer, Hc.isOperational, hcfs_reset]
    exact ht.trans (hcond (bne_iff_ne.mp hreset))
  have hq := Quiet.setReg hc (n := hcCmdStatus) (by decide)
    (hc.r hcCmdStatus ||| (val &&& (cmdClf ||| cmdBlf)))
  have hq' : Quiet hc hc' := by
    split at h
    · exact hq.trans (hcall _ _ _ h)
    · cases h
      exact hq
  unfold Hc.isOperational
  rw [hq'.timer, hq'.hcfs]
  exact ht

theorem regValue_timer {v : Word}
    (hcond : Settled env hc (.write n val)) (h : regValue env call hc n val = .ok (hc', v)) :
    (hc'.setReg n v).timer = (hc'.setReg n v).isOperational := by
  -- a register that is not the control register
  have hother : ∀ {hc1 : Hc}, n ≠ hcControl → hc1.timer = hc1.isOperational →
      (hc1.setReg n v).timer = (hc1.setReg n v).isOperational := fun {hc1} hn h1 => by
    unfold Hc.isOperational
    rw [(Quiet.setReg hc1 hn v).hcfs]
    exact h1
  unfold regValue at h
  by_cases hro : n ∈ readOnly
  · rw [if_pos hro] at h
    cases h
    exact hother (by rintro rfl; exact absurd hro (by decide)) ht
  rw [if_neg hro] at h
  by_cases hn : n = hcControl
  · subst hn
    obtain ⟨hc1, h1, heq⟩ := map_eq_ok.mp h
    cases heq
    have : hc'.setReg hcControl (hc'.r hcControl) = hc' := by
      unfold Hc.setReg
      rw [update_eq_self]
    rw [this]
    exact writeControl_timer hcall ht h1
  rw [if_neg hn] at h
  by_cases hcmd : n = hcCmdStatus
  · rw [if_pos hcmd] at h
    obtain ⟨hc1, h1, heq⟩ := map_eq_ok.mp h
    cases heq
    exact hother hn (writeCmdStatus_timer hcall ht (hcond hcmd) h1)
  rw [if_neg hcmd] at h
  by_cases hstatus : n = hcIntStatus
  · rw [if_pos hstatus] at h
    cases h
    refine hother hn ?_
    split
    · have hq := Quiet.updateDoneHead { hc with irqStatus := hc.irqStatus &&& ~~~val }
      unfold Hc.isOperational
      rw [hq.timer, hq.hcfs]
      exact ht
    · exact ht
  rw [if_neg hstatus] at h
  iterate 6
    split at h
    · cases h
      exact hother hn ht
  split at h
  · obtain ⟨hc1, h1, heq⟩ := map_eq_ok.mp h
    cases heq
    exact hother hn (portWrite_timer hcall ht h1)
  · cases h
    exact hother hn ht

end Timer

theorem regIoWrite_agrees (ha : Agrees hc) (hcond : Settled env hc (.write n val))
    (h : regIoWrite env call hc n val = .ok hc') : Agrees hc' := by
  unfold regIoWrite at h
  split at h
  · cases h
    exact ha
  · obtain ⟨⟨hc1, v⟩, h1, rfl⟩ := map_eq_ok.mp h
    exact ⟨rfl, regValue_timer hcall ha.timer hcond h1⟩

end Calls

/-- The overflow of the frame number does not make an interrupt due. -/
theorem FrameQuiet.due (h : FrameQuiet hc lost) (hover : frameOverflow hc lost = true) :
    ((hc.raise intSf).raise intFno).irqDue = (hc.raise intSf).irqDue := by
  unfold Hc.irqDue Hc.raise
  rw [and_or_distrib_left]
  rcases h hover with hmie | hfno | hdue
  · simp [hmie]
  · rw [hfno]
    simp
  · have hor : hc.irqEnable &&& (hc.irqStatus ||| intSf) ||| hc.irqEnable &&& intFno ≠ 0 := fun hz =>
      hdue (BitVec.or_eq_zero_iff.mp hz).1
    rw [bne_iff_ne.mpr hor, bne_iff_ne.mpr hdue]

theorem startOfFrame_agrees (ha : Agrees hc) (hcond : FrameQuiet hc lost) :
    Agrees (startOfFrame hc lost) := by
  have hover : Agrees (if frameOverflow hc lost then ((hc.raise intSf).fixIrq).raise intFno
      else (hc.raise intSf).fixIrq) := by
    split
    · next ho => exact ⟨(hcond.due ho).symm, ha.timer⟩
    · exact ⟨rfl, ha.timer⟩
  have hset := hover.quiet (Quiet.setReg _ (n := hcFmNumber) (by decide) (newFrame hc lost))
  unfold startOfFrame
  dsimp only
  split
  · exact hset.quiet ⟨rfl, rfl, id⟩
  · exact hset

include hcall in
theorem Quiet.scans (h : scans env call fuel hc = .ok hc') : Quiet hc hc' := by
  unfold Usb.scans at h
  obtain ⟨hc1, h1, h⟩ := bind_eq_ok.mp h
  have hcnt : Quiet hc { hc with cnt := hc.cnt + 1 } := ⟨rfl, rfl, id⟩
  have hrescan : Quiet { hc with cnt := hc.cnt + 1 } hc1 := by
    split at h1
    · unfold rescanPeriodicList at h1
      split at h1
      · cases h1
        exact refl _
      split at h1
      · refine trans ?_ (hcall _ _ _ h1)
        exact ⟨rfl, rfl, id⟩
      · cases h1
        exact refl _
    · cases h1
      exact refl _
  refine (hcnt.trans hrescan).trans ?_
  split at h
  · unfold cleanStaleInterruptUrbs at h
    split at h
    · cases h
      exact refl _
    · obtain ⟨_, -, rfl⟩ := map_eq_ok.mp h
      exact refl _
  · cases h
    exact refl _

theorem Quiet.registerUsbDevice (hc : Hc) : Quiet hc (registerUsbDevice hc) := by
  unfold Usb.registerUsbDevice
  split
  · exact refl hc
  · refine trans ?_ (updatePortStatus _)
    exact ⟨rfl, rfl, id⟩

theorem Quiet.freeCurbs (cus : List Nat) : ∀ {hc}, freeCurbs cus hc = .ok hc' → Quiet hc hc' := by
  induction cus with
  | nil =>
    intro hc h
    cases h
    exact refl _
  | cons cu cus ih =>
    intro hc h
    obtain ⟨c, -, h⟩ := bind_eq_ok.mp h
    exact (freeCurb hc cu).trans (ih h)

theorem Quiet.unregisterUsbDevice (h : unregisterUsbDevice hc d = .ok hc') : Quiet hc hc' := by
  unfold Usb.unregisterUsbDevice at h
  obtain ⟨hc1, h1, h⟩ := bind_eq_ok.mp h
  cases h
  refine (freeCurbs _ h1).trans (trans ?_ (updatePortStatus _))
  exact ⟨rfl, rfl, id⟩

include hcall in
theorem Agrees.stepBy (ha : Agrees hc) (hcond : Settled env hc ev)
    (h : stepBy env call fuel hc ev = .ok hc') : Agrees hc' := by
  have h0 : Agrees { hc with submits := 0 } := ⟨ha.line, ha.timer⟩
  unfold Usb.stepBy at h
  cases ev with
  | guest m =>
    cases h
    exact ⟨ha.line, ha.timer⟩
  | write n val => exact regIoWrite_agrees hcall h0 hcond h
  | tick lost =>
    dsimp only at h
    split at h
    · exact (startOfFrame_agrees h0 hcond).quiet (.scans hcall h)
    · cases h
      exact h0
  | complete ref reply =>
    dsimp only at h
    split at h
    · cases ref with
      | ctrl id | data id => exact h0.quiet (hcall _ _ _ h)
    · cases h
      exact h0
  | connect =>
    cases h
    exact h0.quiet (.registerUsbDevice _)
  | disconnect id =>
    dsimp only at h
    split at h
    · exact h0.quiet (.unregisterUsbDevice h)
    · cases h
      exact h0

end Events

theorem irqDue_of_disabled (h : hc.irqEnable = 0) : hc.irqDue = false := by
  unfold Hc.irqDue
  rw [h, show ((0 : Word) &&& intMie != 0) = false by decide, Bool.false_and]

theorem agrees_init (opti : Bool) (mem : Mem) : Agrees (init opti mem) := by
  unfold init
  refine ⟨(Quiet.reset _ false).line ?_, ?_⟩
  · exact (irqDue_of_disabled rfl).symm
  · rw [(Quiet.reset _ false).timer, Hc.isOperational, hcfs_reset]
    exact (decide_eq_false (by decide)).symm

/-! ## The result -/

def Replugs (hc : Hc) : Event → Prop
  | .connect => ∃ port < ndp, hc.devFromPort port = none
  | .disconnect id => ∃ d ∈ hc.devs, d.id = id
  | _ => False

/-- With remote wakeup, the suspended state is left for the resume state. -/
def Woken (hc hc' : Hc) : Prop :=
  hc.hcfs = hcfsSuspend → hc.r hcRhStatus &&& rhStatusDrwe ≠ 0 →
    hc'.hcfs = hcfsResume ∧ hc'.irqStatus &&& intRd ≠ 0

theorem woken_iff {env : Env} {fuel : Nat} (hplug : Replugs hc ev)
    (h : step env fuel hc ev = .ok hc') : Woken hc hc' ↔ Settled env hc ev := by
  have hq : hc'.hcfs = hc.hcfs := by
    unfold step stepBy at h
    cases ev with
    | connect =>
      cases h
      exact (Quiet.registerUsbDevice _).hcfs
    | disconnect id =>
      dsimp only at h
      split at h
      · exact (Quiet.unregisterUsbDevice h).hcfs
      · cases h
        rfl
    | guest _ | write _ _ | tick _ | complete _ _ => exact hplug.elim
  have hiff : Woken hc hc' ↔ ¬ (hc.hcfs = hcfsSuspend ∧ hc.r hcRhStatus &&& rhStatusDrwe ≠ 0) := by
    constructor
    · rintro hw ⟨hs, hd⟩
      have := (hw hs hd).1
      rw [hq, hs] at this
      exact absurd this (by decide)
    · exact fun hn hs hd => (hn ⟨hs, hd⟩).elim
  cases ev with
  | connect | disconnect id => exact hiff
  | guest _ | write _ _ | tick _ | complete _ _ => exact hplug.elim

theorem ohci_agrees_iff (hc : Hc) :
    (Run Settled hc → Agrees hc ∧ ∀ env fuel ev hc', Settled env hc ev → Replugs hc ev →
      step env fuel hc ev = .ok hc' → Woken hc hc') ∧
    (∀ env fuel hc' val, Agrees hc → val &&& cmdHcr ≠ 0 →
      step env fuel hc (.write hcCmdStatus val) = .ok hc' →
      (Agrees hc' ↔ Settled env hc (.write hcCmdStatus val))) ∧
    ∀ env fuel ev hc', Replugs hc ev → step env fuel hc ev = .ok hc' →
      (Woken hc hc' ↔ Settled env hc ev) := by
  refine ⟨fun hrun => ⟨?_, ?_⟩, ?_, ?_⟩
  · induction hrun with
    | init opti mem => exact agrees_init opti mem
    | step env fuel ev _ hcond h ih => exact ih.stepBy (.run env fuel) hcond h
  · exact fun env fuel ev hc' hcond hplug h => (woken_iff hplug h).mpr hcond
  · intro env fuel hc' val ha hval h
    refine ⟨fun hafter _ _ => ?_, fun hcond => ha.stepBy (.run env fuel) hcond h⟩
    -- the state after the reset is suspended, with the timer of before
    have hreset : hc' = (Hc.setReg (Hc.reset { hc with submits := 0 } true) hcCmdStatus
        ((Hc.reset { hc with submits := 0 } true).r hcCmdStatus)).fixIrq := by
      unfold step stepBy regIoWrite regValue at h
      dsimp only at h
      rw [writeCmdStatus, if_pos (bne_iff_ne.mpr hval)] at h
      exact (Except.ok.inj h).symm
    have htimer := (Quiet.reset { hc with submits := 0 } true).timer
    have hhcfs := hcfs_reset { hc with submits := 0 } true
    have hq := Quiet.setReg (Hc.reset { hc with submits := 0 } true) (n := hcCmdStatus) (by decide)
      ((Hc.reset { hc with submits := 0 } true).r hcCmdStatus)
    have hat := hafter.timer
    rw [hreset] at hat
    have hoff : hc.timer = false := by
      refine (htimer.symm.trans hat).trans (decide_eq_false ?_)
      rw [show ∀ x : Hc, x.fixIrq.hcfs = x.hcfs from fun _ => rfl, hq.hcfs, hhcfs]
      decide
    rw [← ha.timer, hoff]
  · exact fun env fuel ev hc' hplug h => woken_iff hplug h

/-- Devices that answer later, and all of memory mapped. -/
def plainEnv : Env := ⟨fun _ => true, fun _ => ⟨0, 0, 0, 0⟩, fun _ => 0, fun _ => none, []⟩

def zeroMem : Mem := fun _ => 0

set_option maxRecDepth 8000 in
theorem ohci_agrees_tick : ∃ hc hc', step plainEnv 9 (init false zeroMem) (.write hcControl 0x80) = .ok hc ∧
    step plainEnv 9 hc (.tick 0) = .ok hc' ∧ hc'.timer = true ∧ Agrees hc' := by
  refine ⟨_, _, rfl, rfl, rfl, ?_⟩
  have hinit : Run Settled (init false zeroMem) := .init _ _
  have hrun : Run Settled _ := .step plainEnv 9 (.write hcControl 0x80) hinit (fun h => absurd h (by decide)) rfl
  exact ((ohci_agrees_iff _).1 (.step plainEnv 9 (.tick 0) hrun (fun h => absurd h (by decide)) rfl)).1

set_option maxRecDepth 8000 in
/-- An overflow, a soft reset, and a device that comes while suspended. -/
theorem ohci_disagrees : (∃ hc, Run (fun _ _ _ => True) hc ∧ hc.irqDue = true ∧ hc.irqLine = false) ∧
    (∃ hc, Run (fun _ _ _ => True) hc ∧ hc.timer = true ∧ hc.hcfs = hcfsSuspend) ∧
    ∃ hc hc', Run (fun _ _ _ => True) hc ∧ step plainEnv 9 hc .connect = .ok hc' ∧ Replugs hc .connect ∧
      ¬ Woken hc hc' := by
  have hinit : Run (fun _ _ _ => True) (init false zeroMem) := .init _ _
  have hon : Run (fun _ _ _ => True) _ := .step plainEnv 9 (.write hcControl 0x80) hinit trivial rfl
  refine ⟨⟨_, .step plainEnv 9 (.tick 900)
      (.step plainEnv 9 (.write hcIntEnable 0x80000020) hon trivial rfl) trivial rfl, by decide, by decide⟩,
    ⟨_, .step plainEnv 9 (.write hcCmdStatus 1) hon trivial rfl, by decide, by decide⟩, ?_⟩
  have hsusp : Run (fun _ _ _ => True) _ := .step plainEnv 9 (.write hcControl 0xc0) hinit trivial rfl
  refine ⟨_, _, .step plainEnv 9 (.write hcRhStatus 0x8000) hsusp trivial rfl, rfl, ⟨0, by decide, rfl⟩, ?_⟩
  intro hw
  exact absurd (hw (by decide) (by decide)).1 (by decide)

end MacOnLinux.Usb
