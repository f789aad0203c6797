import MacOnLinux.Kv.Blocks

/-! # The I/O pages as a map of slots -/

namespace MacOnLinux.Kv

open List

/-! ## Calls -/

/-- `pages` are the pages that the host has for the call. -/
inductive IoCall where
  | add (mbase : Word) (size : Int) (usrData : Word) (pages : List Word)
  | remove (mbase : Word) (size : Int)

namespace IoCall

def mbase : IoCall → Word
  | add mbase .. | remove mbase _ => mbase

def size : IoCall → Int
  | add _ size .. | remove _ size => size

def data : IoCall → Word
  | add _ _ usrData _ => usrData
  | remove .. => 0

def run (k : Kv) : IoCall → Option (Kv × Nat)
  | add mbase size usrData pages => k.addIoTrans mbase size usrData pages
  | remove mbase size => (k.removeIoTrans mbase size).map (·, 0)

/-- A positive `int`, and a range that does not wrap. -/
def InRange (c : IoCall) : Prop :=
  0 < c.size ∧ c.size < 2 ^ 31 ∧ c.mbase.toNat + c.size ≤ 2 ^ 32

def Fits (c : IoCall) : Prop := c.size + c.mbase.toNat % 8 + 7 < 2 ^ 31

def Covers (c : IoCall) (a : Word) : Prop :=
  (a.toNat / 8 * 8 : Nat) < c.mbase.toNat + c.size ∧ c.mbase.toNat < a.toNat / 8 * 8 + 8

instance (c : IoCall) (a : Word) : Decidable (c.Covers a) := instDecidableAnd

end IoCall

/-- The value of a slot after the calls, of which the last comes first. -/
def lastWrite : List IoCall → Word → Word
  | [], _ => 0
  | c :: calls, a => if c.Covers a then c.data else lastWrite calls a

inductive IoRun : Kv → List IoCall → Prop where
  | init {k : Kv} : k.io.ioPages = [] → IoRun k []
  | step {k k' : Kv} {calls : List IoCall} {c : IoCall} : IoRun k calls → c.InRange →
      c.run k = some (k', 0) → IoRun k' (c :: calls)

/-! ## One call -/

variable {k k' : Kv} {calls : List IoCall} {c : IoCall}

theorem ioSize_of_fits {mbase : Word} {size : Int} (h0 : 0 < size)
    (hfit : size + mbase.toNat % 8 + 7 < 2 ^ 31) :
    ioSize mbase size = (size + mbase.toNat % 8 + 7) / 8 * 8 := by
  unfold ioSize
  have h7 : (mbase &&& 7).toNat = mbase.toNat % 8 := by
    rw [BitVec.toNat_and, show (7 : Word).toNat = 2 ^ 3 - 1 by rfl, Nat.and_two_pow_sub_one_eq_mod]
  have hsum : (BitVec.ofInt 32 size + (mbase &&& 7) + 7).toNat = (size + mbase.toNat % 8 + 7).toNat := by
    rw [BitVec.toNat_add, BitVec.toNat_add, BitVec.toNat_ofInt]
    show (_ + 7) % 2 ^ 32 = _
    omega
  generalize BitVec.ofInt 32 size + (mbase &&& 7) + 7 = x at hsum ⊢
  have h8 : (x &&& ~~~(7 : Word)).toNat = x.toNat / 8 * 8 := and_high x 3
  rw [BitVec.toInt_eq_toNat_cond]
  split <;> omega

theorem inside_iff_covers (hr : c.InRange) (hfit : c.Fits) (a : Word) :
    Inside (ioBase c.mbase) (ioSize c.mbase c.size).toNat a ↔ c.Covers a := by
  obtain ⟨h0, hmax, hwrap⟩ := hr
  unfold Inside IoCall.Covers
  rw [ioSize_of_fits h0 hfit, BitVec.toNat_sub, ioBase_toNat]
  omega

/-- What a call may do to a page that was there. -/
structure IoStep (c : IoCall) (k k' : Kv) : Prop where
  ok : PagesOk k'.io.ioPages
  slot : ∀ a, slot k'.io.ioPages a = if c.Covers a then c.data else slot k.io.ioPages a
  freed : ∀ x, (pageAt k.io.ioPages x).isSome → pageAt k'.io.ioPages x = none →
    (∃ mbase size, c = .remove mbase size) ∧ (∃ a, a &&& pte1Rpn = x ∧ c.Covers a) ∧
      ∀ a, a &&& pte1Rpn = x → ¬ c.Covers a → Kv.slot k.io.ioPages a = 0

theorem ioStep_of_run (h : PagesOk k.io.ioPages) (hr : c.InRange) (hfit : c.Fits)
    (hrun : c.run k = some (k', 0)) : IoStep c k k' := by
  have hin := inside_iff_covers hr hfit
  cases c with
  | add mbase size usrData pages =>
    obtain ⟨ps, rc, hrun', n, hok, _, hfill, _, hall⟩ := addIoTrans_spec h mbase size usrData pages
    have he := hrun.symm.trans hrun'
    obtain ⟨rfl, rfl⟩ := he
    rw [hall rfl] at hfill
    refine ⟨hok, fun a => ?_, fun x hx hx' => ?_⟩
    · rw [hfill.slot]
      exact if_congr (hin a) rfl rfl
    · obtain ⟨p, hp⟩ := Option.isSome_iff_exists.mp hx
      obtain ⟨p', hp', _⟩ := hfill.pages x p hp
      rw [hx'] at hp'
      cases hp'
  | remove mbase size =>
    obtain ⟨ps, hrun', hok, hempty, hsame⟩ := removeIoTrans_spec h mbase size
    have he := hrun.symm.trans (congrArg (Option.map (·, 0)) hrun')
    simp only [Option.map_some, Option.some.injEq, Prod.mk.injEq, and_true] at he
    subst he
    have hslot : ∀ a, Kv.slot ps a = if (IoCall.remove mbase size).Covers a then 0
        else Kv.slot k.io.ioPages a := fun a => (hempty.slot a).trans (if_congr (hin a) rfl rfl)
    refine ⟨hok, hslot, fun x hx hx' => ⟨⟨mbase, size, rfl⟩, ?_, ?_⟩⟩
    · by_contra hnot
      simp only [not_exists, not_and] at hnot
      rw [hsame x fun a ha hi => hnot a ha ((hin a).mp hi)] at hx'
      rw [hx'] at hx
      cases hx
    · intro a ha hc
      have h0 : Kv.slot ps a = 0 := slot_of_none (by rw [ha]; exact hx')
      rw [hslot a, if_neg hc] at h0
      exact h0

/-! ## Sequences -/

theorem slots_of_run (hrun : IoRun k calls) (hfit : ∀ c ∈ calls, c.Fits) :
    PagesOk k.io.ioPages ∧ ∀ a, slot k.io.ioPages a = lastWrite calls a := by
  induction hrun with
  | init h0 =>
    rw [h0]
    exact ⟨⟨Pairwise.nil, fun p hp => (not_mem_nil hp).elim⟩, fun _ => rfl⟩
  | step _ hr hc ih =>
    obtain ⟨hok, hslot⟩ := ih (forall_mem_cons.mp hfit).2
    have hstep := ioStep_of_run hok hr (hfit _ mem_cons_self) hc
    refine ⟨hstep.ok, fun a => ?_⟩
    rw [hstep.slot, lastWrite, hslot]

/-- A slot has the value of the last call that covers it, and no call changes another slot. -/
theorem io_slot_map (hrun : IoRun k calls) (hfit : ∀ c ∈ calls, c.Fits) :
    (k.io.ioPages.Pairwise (·.mphys < ·.mphys) ∧ ∀ p ∈ k.io.ioPages, p.mphys.toNat % 4096 = 0) ∧
    (∀ a, slot k.io.ioPages a = lastWrite calls a) ∧
    ∀ c k', c.InRange → c.Fits → c.run k = some (k', 0) → IoStep c k k' := by
  obtain ⟨hok, hslot⟩ := slots_of_run hrun hfit
  refine ⟨⟨hok.sorted, fun p hp => ?_⟩, hslot, fun c k' hr hf hc => ioStep_of_run hok hr hf hc⟩
  have := rpn_toNat p.mphys
  rw [hok.aligned p hp] at this
  omega

/-- Two words at 0x1004, and the page goes again. -/
theorem io_slot_map_two : ∃ k, IoRun k [.remove 0x1004 8, .add 0x1004 8 5 [0x9000]] ∧
    slot k.io.ioPages 0x1008 = 0 := by
  have h0 : IoRun emptyMap [] := .init rfl
  have h1 := IoRun.step (c := .add 0x1004 8 5 [0x9000]) h0 ⟨by decide, by decide, by decide⟩ rfl
  have h2 := IoRun.step (c := .remove 0x1004 8) h1 ⟨by decide, by decide, by decide⟩ rfl
  refine ⟨_, h2, ((io_slot_map h2 ?_).2.1 0x1008).trans (by decide)⟩
  intro c hc
  simp only [mem_cons, not_mem_nil, or_false] at hc
  rcases hc with rfl | rfl
  · exact (by decide : (8 : Int) + ((0x1004 : Word).toNat % 8 : Nat) + 7 < 2 ^ 31)
  · exact (by decide : (8 : Int) + ((0x1004 : Word).toNat % 8 : Nat) + 7 < 2 ^ 31)

/-- A size close to 2^31 turns negative when it is rounded. -/
theorem io_slot_lost : ∃ k calls, IoRun k calls ∧ calls = [.add 1 0x7fffffff 5 []] ∧
    slot k.io.ioPages 0x1000 = 0 ∧ lastWrite calls 0x1000 = 5 := by
  have h0 : IoRun emptyMap [] := .init rfl
  have h1 := IoRun.step (c := .add 1 0x7fffffff 5 []) h0 ⟨by decide, by decide, by decide⟩ rfl
  exact ⟨_, _, h1, rfl, rfl, by decide⟩

end MacOnLinux.Kv
