import MacOnLinux.Dbdma.Code

/-! # The conditions in a command

Each of the three fields of a command asks for "never", "if set", "if clear" or "always".
-/

namespace MacOnLinux.Dbdma

open BitVec

variable {ch ch' : Channel} {mem mem' : Mem} {reg : Word} {status cmd set clr : BitVec 16}

/-! ## What a descriptor asks for -/

def condition (reg : Word) (status : BitVec 16) : Bool :=
  let mask : BitVec 16 := (reg >>> 16).setWidth 16
  let value : BitVec 16 := reg.setWidth 16
  (status &&& 0xff) &&& mask == value &&& mask

def asked (reg : Word) (status cmd set clr : BitVec 16) : Bool :=
  match cmd &&& set != 0, cmd &&& clr != 0 with
  | false, false => false
  | true, false => condition reg status
  | false, true => !condition reg status
  | true, true => true

def Way (ch : Channel) (mem : Mem) (taken : Bool) (cmdptr : Word) (bt : Bool) : Prop :=
  if taken then cmdptr = ldLe32 mem (ch.curCmd + 8) ∧ bt = true
  else cmdptr = ch.cmdptr + 16 ∧ bt = false

structure Obeyed (ch : Channel) (mem : Mem) : Prop where
  wait : (finishCmd ch mem).isNone = asked ch.waitSel ch.status (ch.command mem) 0x0001 0x0002
  branch : ∀ ch' mem', finishCmd ch mem = some (ch', mem') →
    Way ch mem (asked ch.brSel ch.status (ch.command mem) 0x0004 0x0008) ch'.cmdptr (ch'.has BT)
  interrupt : conditionalInterrupt ch mem = asked ch.intrSel ch.status (ch.command mem) 0x0010 0x0020

/-! ## When the code does so -/

def quiet (reg : Word) (status : BitVec 16) : Bool :=
  reg &&& 0x0f0f != 0 && (status &&& 0xff).setWidth 32 &&& (reg &&& 0x0f0f) == 0

/-- The values of a field for which the test is the one that is asked for. -/
def Agrees (reg : Word) (status cmd set clr : BitVec 16) : Prop :=
  match cmd &&& set != 0, cmd &&& clr != 0 with
  | false, false => True
  | true, false => quiet reg status = condition reg status
  | false, true => condition reg status = true
  | true, true => quiet reg status = true

/-- The channel and its command are such that the descriptor is obeyed. -/
structure Tame (ch : Channel) (mem : Mem) : Prop where
  wait : Agrees ch.waitSel ch.status (ch.command mem) 0x0001 0x0002
  branch : asked ch.waitSel ch.status (ch.command mem) 0x0001 0x0002 = false →
    if ch.mayBranch then Agrees ch.brSel ch.status (ch.command mem) 0x0004 0x0008
    else
      (asked ch.brSel ch.status (ch.command mem) 0x0004 0x0008 = false ∧ ch.has BT = false) ∨
      (asked ch.brSel ch.status (ch.command mem) 0x0004 0x0008 = true ∧ ch.has BT = true ∧
        ldLe32 mem (ch.curCmd + 8) = ch.cmdptr + 16)
  interrupt : asked ch.intrSel ch.status (ch.command mem) 0x0010 0x0020 = false

/-! ## The test in the code -/

theorem shifted_mask (reg : Word) : (reg &&& 0x0f0f) >>> 16 = 0#32 := by
  apply eq_of_getLsbD_eq
  intro i hi
  rw [getLsbD_ushiftRight, getLsbD_and, getLsbD_zero]
  have hmask : ∀ j : Fin 32, getLsbD (0x0f0f : Word) (16 + j) = false := by decide
  rw [hmask ⟨i, hi⟩, Bool.and_false]

theorem selected_eq : selected reg status cmd set clr = (quiet reg status && cmd &&& set != 0) := by
  have hnot : ∀ s : Word, s &&& 0#32 = 0#32 := fun s => and_zero
  unfold selected quiet
  dsimp only
  rw [shifted_mask, hnot]
  by_cases hsel : reg &&& 0x0f0f = 0
  · rw [hsel]
    simp
  · have hclr : (reg &&& 0x0f0f == 0) = false := beq_false_of_ne hsel
    rw [hclr, Bool.false_and, Bool.and_false, Bool.or_false, BEq.comm, Bool.and_assoc]
    exact Bool.and_left_comm _ _ _

theorem selected_eq_asked_iff : selected reg status cmd set clr = asked reg status cmd set clr ↔
      Agrees reg status cmd set clr := by
  rw [selected_eq]
  unfold asked Agrees
  generalize quiet reg status = q
  generalize condition reg status = c
  cases cmd &&& set != 0 <;> cases cmd &&& clr != 0 <;> cases q <;> cases c <;> simp

/-! ## `finish_cmd` -/

theorem finishCmd_isNone :
    (finishCmd ch mem).isNone = selected ch.waitSel ch.status (ch.command mem) 0x0001 0x0002 := by
  unfold finishCmd
  cases selected ch.waitSel ch.status (ch.command mem) 0x0001 0x0002 <;> rfl

theorem finishCmd_some (hfin : finishCmd ch mem = some (ch', mem')) :
    ch'.cmdptr = (advance ch mem).cmdptr ∧ ch'.status = (advance ch mem).status := by
  obtain ⟨deeds, hstamp⟩ := stampStatus_frame (advance ch mem) mem
  rw [finishCmd_eq ch mem hfin, hstamp]
  exact ⟨rfl, rfl⟩

theorem advance_branch (mem : Mem) (hmay : ch.mayBranch = true) :
    Way ch mem (selected ch.brSel ch.status (ch.command mem) 0x0004 0x0008) (advance ch mem).cmdptr
      ((advance ch mem).has BT) := by
  unfold Way advance
  rw [hmay, Bool.true_and]
  dsimp only
  split
  · exact ⟨swap_ldBe32 mem _, has_set_self _ (by decide)⟩
  · exact ⟨swap_swap _, has_clear_self ch BT⟩

theorem advance_straight (mem : Mem) (hmay : ch.mayBranch = false) :
    (advance ch mem).cmdptr = ch.cmdptr + 16 ∧ (advance ch mem).has BT = ch.has BT := by
  unfold advance
  rw [hmay]
  exact ⟨swap_swap _, rfl⟩

theorem conditionalInterrupt_eq : conditionalInterrupt ch mem = false := by
  have hfield : (0xf000 : BitVec 16) &&& 0x0010 = 0#16 := by decide
  unfold conditionalInterrupt
  rw [selected_eq, BitVec.and_assoc, hfield, and_zero]
  exact Bool.and_false _

/-! ## The law -/

theorem way_unique {a b bt : Bool} {cmdptr : Word} (ha : Way ch mem a cmdptr bt)
    (hb : Way ch mem b cmdptr bt) : a = b := by
  unfold Way at ha hb
  cases a <;> cases b <;> simp_all

theorem advance_iff (ask : Bool) : Way ch mem ask (advance ch mem).cmdptr ((advance ch mem).has BT) ↔
      if ch.mayBranch then selected ch.brSel ch.status (ch.command mem) 0x0004 0x0008 = ask
      else (ask = false ∧ ch.has BT = false) ∨
        (ask = true ∧ ch.has BT = true ∧ ldLe32 mem (ch.curCmd + 8) = ch.cmdptr + 16) := by
  cases hmay : ch.mayBranch with
  | true =>
    have hbranch := advance_branch mem hmay
    constructor
    · exact way_unique hbranch
    · rintro rfl
      exact hbranch
  | false =>
    obtain ⟨hptr, hbt⟩ := advance_straight mem hmay
    rw [hptr, hbt]
    unfold Way
    cases ask with
    | false => simp
    | true =>
      constructor
      · rintro ⟨hnext, hset⟩
        exact .inr ⟨rfl, hset, hnext.symm⟩
      · rintro (⟨hask, -⟩ | ⟨-, hset, hnext⟩)
        · cases hask
        · exact ⟨hnext.symm, hset⟩

/-- A descriptor is obeyed exactly when the tests can tell its conditions. -/
theorem obeyed_iff (ch : Channel) (mem : Mem) : Obeyed ch mem ↔ Tame ch mem := by
  have hwait : (finishCmd ch mem).isNone = asked ch.waitSel ch.status (ch.command mem) 0x0001 0x0002 ↔
      Agrees ch.waitSel ch.status (ch.command mem) 0x0001 0x0002 := by
    rw [finishCmd_isNone, selected_eq_asked_iff]
  have hbranch : ∀ ask, (finishCmd ch mem).isNone = false →
      ((∀ ch' mem', finishCmd ch mem = some (ch', mem') → Way ch mem ask ch'.cmdptr (ch'.has BT)) ↔
        Way ch mem ask (advance ch mem).cmdptr ((advance ch mem).has BT)) := by
    intro ask hgo
    constructor
    · intro h
      cases hfin : finishCmd ch mem with
      | none =>
        rw [hfin] at hgo
        cases hgo
      | some r =>
        obtain ⟨hptr, hstatus⟩ := finishCmd_some (show finishCmd ch mem = some (r.1, r.2) from hfin)
        have hway := h r.1 r.2 hfin
        unfold Channel.has at hway ⊢
        rw [← hptr, ← hstatus]
        exact hway
    · intro h ch' mem' hfin
      obtain ⟨hptr, hstatus⟩ := finishCmd_some hfin
      unfold Channel.has at h ⊢
      rw [hptr, hstatus]
      exact h
  constructor
  · intro h
    refine ⟨hwait.mp h.wait, fun hgo => ?_, ?_⟩
    · have hway := (hbranch _ (h.wait.trans hgo)).mp h.branch
      rw [advance_iff, selected_eq_asked_iff] at hway
      exact hway
    · rw [← h.interrupt, conditionalInterrupt_eq]
  intro h
  have hnone := hwait.mpr h.wait
  refine ⟨hnone, fun ch' mem' hfin => ?_, ?_⟩
  · have hgo : (finishCmd ch mem).isNone = false := by rw [hfin]; rfl
    refine (hbranch _ hgo).mpr ?_ ch' mem' hfin
    rw [advance_iff, selected_eq_asked_iff]
    exact h.branch (hnone.symm.trans hgo)
  · rw [conditionalInterrupt_eq, h.interrupt]

/-- A NOP that always waits, with select registers of zero, does not wait. -/
theorem always_ignored : ¬ Obeyed (allocated fun _ => 0).ch
    (fun a => if a = 2 then 0x03 else if a = 3 then 0x60 else 0) := by
  intro h
  have hwait := h.wait
  revert hwait
  decide

end MacOnLinux.Dbdma
