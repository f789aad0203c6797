import MacOnLinux.Disk.Ablk
import Mathlib.Tactic.SplitIfs

/-! # The device that a request is for (`drivers/disk/ablk.c`) -/

namespace MacOnLinux.Ablk

open Engine Option

/-! ## OSI calls -/

namespace Engine

def kick (b : Engine) : Engine := if b.active then b else { b with active := true, pipe := b.pipe + 1 }

def irqAck (b : Engine) : Engine :=
  if !b.line then b
  else if !b.active && b.running && b.cur.proceed ≠ 0 then kick { b with line := false }
  else { b with line := false }

/-- `osip_ablk_ring_setup`, with what the guest has in the memory of the ring. -/
def ringSetup (b : Engine) (mask : Word) (ring : Word → Desc) : Engine :=
  if b.running ∨ (mask + 1) &&& mask ≠ 0 then b else { b with ringMask := mask, ring := ring }

def start (b : Engine) : Engine :=
  if b.running then b
  else { b with
    curDev := -1
    iofunc := .dummy
    reqHead := 0
    ring := Function.update b.ring 0 { b.ring 0 with flags := nopReq }
    nRequests := 0
    done := 0
    running := true }

def stop (b : Engine) : Engine := { b with running := false, line := false }

def reset (b : Engine) : Engine := { b.stop with nRequests := 0, done := 0 }

end Engine

/-! ## Which device -/

namespace Engine

def requestUnit (b : Engine) : Option Word :=
  match b.pc with
  | .process f => if has f sgBuf then none else some b.cur.unit
  | _ => none

/-- `func` tells which entries have a `cntrl_func`, also outside of the table. -/
def callsCntrl (cfg : Config) (func : Word → Bool) (b : Engine) (f : Word) : Bool :=
  !has f sgBuf && b.cur.unit.toNat < cfg.ndevs && !has f (readReq ||| writeReq) && has f cntrlReqMask &&
    f &&& cntrlReqMask ≠ nopReq && func (cfg.fd b.cur.unit)

def touches (cfg : Config) (func : Word → Bool) (b : Engine) : List Word :=
  match b.pc with
  | .io => [b.curDev]
  | .process f =>
    if !has f sgBuf && b.cur.unit.toNat < cfg.ndevs && has f (readReq ||| writeReq) then [b.cur.unit]
    else if b.callsCntrl cfg func f then [cfg.fd b.cur.unit]
    else []
  | _ => []

end Engine

variable {cfg : Config} {func : Word → Bool} {a : Answer} {b : Engine} {f u : Word}

/-! ### A step -/

theorem touches_cntrl (hpc : b.pc = .process f) (hcall : b.callsCntrl cfg func f = true) :
    b.touches cfg func = [cfg.fd b.cur.unit] := by
  have hrw : has f (readReq ||| writeReq) = false := by
    simp only [callsCntrl, Bool.and_eq_true, Bool.not_eq_true'] at hcall
    exact hcall.1.1.1.2
  simp [touches, hpc, hrw, hcall]

theorem io_curDev : (b.io a).curDev = b.curDev := by
  unfold io finished called
  split_ifs <;> rfl

theorem handle_curDev_sg (hf : has f sgBuf = true) : (b.handle cfg f a).curDev = b.curDev := by
  unfold handle
  rw [if_pos hf]
  unfold addBuf
  split <;> rfl

theorem handle_curDev (hf : has f sgBuf = false) (hu : b.cur.unit.toNat < cfg.ndevs) :
    (b.handle cfg f a).curDev = b.cur.unit := by
  unfold handle
  rw [if_neg (by simp [hf]), if_neg (by omega)]
  split_ifs <;> rfl

theorem step_curDev (h : b.requestUnit = none) : (b.step cfg a).curDev = b.curDev := by
  unfold requestUnit at h
  unfold step
  cases hpc : b.pc with
  | process f =>
    simp only [hpc, ite_eq_left_iff, reduceCtorEq, imp_false, Bool.not_eq_true, Bool.not_eq_false] at h
    exact handle_curDev_sg h
  | io => exact io_curDev
  | blocked =>
    split_ifs <;> rfl
  | test | gather | notify | branch | clearFlags | clearProceed | fetch | count | fail | clearActive | raise => rfl

theorem step_curDev_request (h : b.requestUnit = some u) (hu : u.toNat < cfg.ndevs) : (b.step cfg a).curDev = u := by
  unfold requestUnit at h
  unfold step
  cases hpc : b.pc with
  | process f =>
    simp only [hpc, ite_eq_iff, reduceCtorEq, and_false, some.injEq, false_or, Bool.not_eq_true] at h
    obtain ⟨hf, rfl⟩ := h
    exact handle_curDev hf hu
  | _ => simp [hpc] at h

/-! ## Runs -/

structure Watched where
  engine : Engine
  last : Option Word

inductive Event where
  | work (fd : Word → Word) (a : Answer)
  | guest (ring : Word → Desc)
  | kick
  | irqAck
  | ringSetup (mask : Word) (ring : Word → Desc)
  | start
  | stop
  | reset

namespace Watched

def step (cfg : Config) (w : Watched) : Event → Watched
  | .work fd a => ⟨w.engine.step { cfg with fd := fd } a, w.engine.requestUnit.or w.last⟩
  | .guest ring => { w with engine := { w.engine with ring := ring } }
  | .kick => { w with engine := w.engine.kick }
  | .irqAck => { w with engine := w.engine.irqAck }
  | .ringSetup mask ring => { w with engine := w.engine.ringSetup mask ring }
  | .start => ⟨w.engine.start, if w.engine.running then w.last else none⟩
  | .stop => { w with engine := w.engine.stop }
  | .reset => { w with engine := w.engine.reset }

def init (mask : Word) (ring : Word → Desc) : Watched where
  engine := Engine.start
    { running := false, active := false, line := false, pipe := 0, reqHead := 0, ringMask := mask, ring := ring
      nRequests := 0, curDev := 0, iofunc := .dummy, pc := .blocked, proceed := false, vec := [], bytesLeft := 0
      failed := false, calls := 0, trace := [], consumed := [], taken := 0, done := 0 }
  last := none

def after (cfg : Config) (mask : Word) (ring : Word → Desc) : List Event → Watched
  | [] => init mask ring
  | e :: es => (after cfg mask ring es).step cfg e

def Chosen (cfg : Config) (w : Watched) : Prop := ∀ u, w.last = some u → u.toNat < cfg.ndevs → w.engine.curDev = u

variable {w : Watched} {e : Event}

theorem Chosen.step (h : w.Chosen cfg) : (w.step cfg e).Chosen cfg := by
  intro u hlast hu
  cases e with
  | work fd a =>
    cases hreq : w.engine.requestUnit with
    | none =>
      simp only [Watched.step, hreq] at hlast
      exact (step_curDev hreq).trans (h u hlast hu)
    | some v =>
      simp only [Watched.step, hreq, some_or, some.injEq] at hlast
      subst hlast
      exact step_curDev_request hreq hu
  | kick =>
    simp only [Watched.step, kick]
    split_ifs <;> exact h u hlast hu
  | irqAck =>
    simp only [Watched.step, irqAck, kick]
    split_ifs <;> exact h u hlast hu
  | ringSetup mask ring =>
    simp only [Watched.step, ringSetup]
    split_ifs <;> exact h u hlast hu
  | start =>
    simp only [Watched.step] at hlast ⊢
    split_ifs at hlast with hrun
    rw [start, if_pos hrun]
    exact h u hlast hu
  | guest | stop | reset => exact h u hlast hu

theorem chosen_after (mask : Word) (ring : Word → Desc) (es : List Event) : (after cfg mask ring es).Chosen cfg := by
  induction es with
  | nil =>
    intro u hlast
    cases hlast
  | cons e es ih => exact ih.step

/-- A transfer is for a unit of the table, a `cntrl_func` that of the unit. -/
def Selects (cfg : Config) (func : Word → Bool) (w : Watched) : Prop :=
  match w.engine.pc with
  | .io => ∃ u, w.last = some u ∧ u.toNat < cfg.ndevs
  | .process f => w.engine.callsCntrl cfg func f → cfg.fd w.engine.cur.unit = w.engine.cur.unit
  | _ => True

end Watched

/-- The functions of the back end are called for the unit of the last request. -/
theorem touches_addressed_iff (cfg : Config) (func : Word → Bool) (mask : Word) (ring : Word → Desc) (es : List Event)
    (fd : Word → Word) (a : Answer) :
    (∀ t ∈ (Watched.after cfg mask ring es).engine.touches { cfg with fd := fd } func,
      ((Watched.after cfg mask ring es).step cfg (.work fd a)).last = some t ∧ t.toNat < cfg.ndevs) ↔
      (Watched.after cfg mask ring es).Selects { cfg with fd := fd } func := by
  have hchosen : (Watched.after cfg mask ring es).Chosen cfg := Watched.chosen_after mask ring es
  generalize Watched.after cfg mask ring es = w at hchosen
  simp only [Watched.step, Watched.Selects]
  cases hpc : w.engine.pc with
  | io =>
    simp only [touches, requestUnit, hpc, List.mem_singleton, forall_eq, none_or]
    constructor
    · exact fun h => ⟨_, h⟩
    · rintro ⟨u, hlast, hu⟩
      rw [hchosen u hlast hu]
      exact ⟨hlast, hu⟩
  | process f =>
    by_cases hcall : w.engine.callsCntrl { cfg with fd := fd } func f = true
    · obtain ⟨hsg, hu⟩ : has f sgBuf = false ∧ w.engine.cur.unit.toNat < cfg.ndevs := by
        simp only [callsCntrl, Bool.and_eq_true, Bool.not_eq_true', decide_eq_true_eq] at hcall
        exact hcall.1.1.1.1
      rw [touches_cntrl hpc hcall]
      simp only [requestUnit, hpc, hsg, hcall, List.mem_singleton, forall_eq, Bool.false_eq_true, if_false, some_or,
        some.injEq, forall_const]
      constructor
      · exact fun h => h.1.symm
      · intro h
        rw [h]
        exact ⟨rfl, hu⟩
    · simp only [hcall, Bool.false_eq_true, false_implies, iff_true, touches, hpc, if_false, requestUnit]
      split_ifs with hreq hsg
      · simp [hsg] at hreq
      · simp only [Bool.and_eq_true, decide_eq_true_eq] at hreq
        simp [hreq.1.2]
      · simp
      · simp
  | blocked | test | gather | notify | branch | clearFlags | clearProceed | fetch | count | fail | clearActive
  | raise =>
    simp [touches, hpc]

/-! ## Other devices -/

def oneDevice : Config := { mem := ⟨⟨0, 0, 0x1000⟩, ⟨0, 0, 0⟩⟩, ndevs := 1, fd := fun _ => 5, writes := fun _ => true }

def ringOf (ds : List Desc) (i : Word) : Desc := (⟨0, 1, 0, 0⟩ :: ds).getD i.toNat ⟨0, 0, 0, 0⟩

def kicked (n : Nat) : List Event := List.replicate n (.work oneDevice.fd ⟨0, false, true⟩) ++ [.kick]

/-- Unit 0 calls entry 5; a buffer before any request, and one after unit 7. -/
theorem touches_other_device :
    let eject := Watched.after oneDevice 7 (ringOf [⟨ejectReq, 0, 0, 0⟩]) (kicked 7)
    let early := Watched.after oneDevice 7 (ringOf [⟨sgBuf, 0, 0, 512⟩]) (kicked 10)
    let bad := Watched.after oneDevice 7 (ringOf [⟨readReq, 1, 0, 0⟩, ⟨readReq, 1, 7, 0⟩, ⟨sgBuf, 0, 0, 512⟩])
      (kicked 10 ++ kicked 19)
    (eject.engine.requestUnit = some 0 ∧ eject.engine.touches oneDevice (fun _ => true) = [5]) ∧
      (early.last = none ∧ early.engine.touches oneDevice (fun _ => true) = [-1]) ∧
      (bad.last = some 7 ∧ bad.engine.touches oneDevice (fun _ => true) = [0]) := by
  decide +kernel

end MacOnLinux.Ablk
