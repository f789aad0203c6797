import Mathlib.Data.List.Basic
import Mathlib.Logic.Function.Basic

/-! # Asynchronous events (`main/async.c`) -/

namespace MacOnLinux.Aevents

open List Function

/-- `aevent_t`, with a number for the function. -/
structure Aevent where
  token : Nat
  proc : Nat
  deriving DecidableEq, Repr

/-- The entries up to `num_aevents`, the next token, and the pipe; and as a record the functions
that were added last and not deleted since, and how many they are. -/
structure State where
  aevents : List Aevent
  next : Nat
  pipe : List (BitVec 8)
  registered : Nat → Option Nat
  count : Nat

def maxNumAevents : Nat := 8

def init : State := ⟨[], 1, [], fun _ => none, 0⟩

inductive Op where
  | send (token : Nat)
  | rx
  | add (proc : Nat)
  | delete (token : Nat)
  deriving DecidableEq, Repr

inductive Out where
  | none
  | unhandled
  | ran (proc : Nat)
  | failed
  | added (token : Nat)
  deriving DecidableEq, Repr

def aeventRx (s : State) : State × Out :=
  match s.pipe with
  | [] => (s, .none)
  | ev :: pipe =>
    let s := { s with pipe := pipe }
    if ev = 0 then (s, .none)
    else match s.aevents.find? (·.token = ev.toNat) with
      | some aev => (s, .ran aev.proc)
      | none => (s, .unhandled)

def addAeventHandler (s : State) (proc : Nat) : State × Out :=
  if maxNumAevents ≤ s.aevents.length then (s, .failed)
  else if 255 < s.next then ({ s with next := s.next + 1 }, .failed)
  else
    ({ s with
      aevents := s.aevents ++ [⟨s.next, proc⟩], next := s.next + 1
      registered := update s.registered s.next (some proc), count := s.count + 1 }, .added s.next)

/-- The entries behind it move down, but `num_aevents` stays, so the last one is there twice. -/
def deleteAeventHandler (s : State) (token : Nat) : State :=
  { s with
    aevents := match s.aevents.findIdx? (·.token = token) with
      | some i => s.aevents.eraseIdx i ++ s.aevents.getLast?.toList
      | none => s.aevents
    registered := update s.registered token none
    count := s.count - (s.registered token).toList.length }

def step (s : State) : Op → State × Out
  | .send token => ({ s with pipe := s.pipe ++ [BitVec.ofNat 8 token] }, .none)
  | .rx => aeventRx s
  | .add proc => addAeventHandler s proc
  | .delete token => (deleteAeventHandler s token, .none)

def run (s : State) (ops : List Op) : State := ops.foldl (fun s op => (step s op).1) s

/-! ## What a call has to do -/

def Right (s : State) : Op → Prop
  | .rx => ∀ ev pipe, s.pipe = ev :: pipe → ev ≠ 0 → (step s .rx).2 = match s.registered ev.toNat with
      | some proc => .ran proc
      | none => .unhandled
  | .add proc => (step s (.add proc)).2 = .failed → maxNumAevents ≤ s.count ∨ 255 < s.next
  | _ => True

/-- Nothing is deleted that is registered. -/
def Keeps (s : State) : List Op → Prop
  | [] => True
  | op :: ops => (∀ token, op = .delete token → s.registered token = none) ∧ Keeps (step s op).1 ops

structure Inv (s : State) : Prop where
  table : ∀ token, s.registered token = (s.aevents.find? (·.token = token)).map Aevent.proc
  below : ∀ aev ∈ s.aevents, aev.token < s.next
  count : s.count = s.aevents.length

theorem inv_add {s : State} (h : Inv s) (proc : Nat) : Inv (addAeventHandler s proc).1 := by
  unfold addAeventHandler
  split
  · exact h
  split
  · exact ⟨h.table, fun aev ha => Nat.lt_succ_of_lt (h.below aev ha), h.count⟩
  refine ⟨fun token => ?_, fun aev ha => ?_, by simp [h.count]⟩
  · by_cases htoken : token = s.next
    · subst htoken
      have hnew : s.aevents.find? (·.token = s.next) = none := by
        rw [find?_eq_none]
        intro aev ha
        simpa using Nat.ne_of_lt (h.below aev ha)
      simp [hnew]
    · simp [update_of_ne htoken, h.table, Ne.symm htoken]
  · rcases mem_append.mp ha with ha | ha
    · exact Nat.lt_succ_of_lt (h.below aev ha)
    · rw [mem_singleton.mp ha]
      exact Nat.lt_succ_self _

theorem inv_step {s : State} {op : Op} (h : Inv s)
    (hkeep : ∀ token, op = .delete token → s.registered token = none) : Inv (step s op).1 := by
  cases op with
  | send token => exact ⟨h.table, h.below, h.count⟩
  | rx =>
    simp only [step, aeventRx]
    split
    · exact h
    split
    · exact ⟨h.table, h.below, h.count⟩
    split <;> exact ⟨h.table, h.below, h.count⟩
  | add proc => exact inv_add h proc
  | delete token =>
    have hnone := hkeep token rfl
    have hidx : s.aevents.findIdx? (·.token = token) = none := by
      rw [h.table] at hnone
      simpa [findIdx?_eq_none_iff] using hnone
    have hsame : update s.registered token none = s.registered := Function.update_eq_self_iff.mpr hnone.symm
    simpa [step, deleteAeventHandler, hidx, hnone, hsame] using h

theorem right_of_inv {s : State} (h : Inv s) (op : Op) : Right s op := by
  cases op with
  | rx =>
    intro ev pipe hpipe hev
    simp only [step, aeventRx, hpipe, if_neg hev, h.table]
    cases s.aevents.find? (·.token = ev.toNat) <;> rfl
  | add proc =>
    intro hfail
    simp only [step, addAeventHandler] at hfail
    split at hfail
    · exact .inl (h.count ▸ ‹_›)
    split at hfail
    · exact .inr ‹_›
    · cases hfail
  | _ => trivial

theorem inv_run {s : State} (h : Inv s) (ops : List Op) (hkeep : Keeps s ops) : Inv (run s ops) := by
  induction ops generalizing s with
  | nil => exact h
  | cons op ops ih => exact ih (inv_step h hkeep.1) hkeep.2

theorem undeleted_right (ops : List Op) (op : Op) (hkeep : Keeps init ops) : Right (run init ops) op :=
  right_of_inv (inv_run ⟨fun _ => rfl, by simp [init], rfl⟩ ops hkeep) op

theorem undeleted_right_two : Right (run init [.add 5, .add 6, .send 2]) .rx :=
  undeleted_right _ _ ⟨nofun, nofun, nofun, trivial⟩

/-- The handler that was added last is deleted, and still runs. -/
theorem deleted_runs : ¬ Right (run init [.add 5, .delete 1, .send 1]) .rx := by
  intro h
  exact absurd (h 1 [] rfl (by decide)) (by decide)

end MacOnLinux.Aevents
