import MacOnLinux.Dbdma.Phases

/-! # What the guest can do with the registers of a channel -/

namespace MacOnLinux.Dbdma

open BitVec

/-- The bits of the status that the control register is there for. -/
def writable : BitVec 16 := RUN ||| PAUSE ||| FLUSH ||| WAKE ||| 0xff

/-- `newStatus` is what `control_write` then starts from. -/
def Permitted (s : Machine) : Action → Prop
  | .setCmdptr v =>
    (s.setCmdptr v).ch.cmdptr = if s.ch.status &&& (RUN ||| ACTIVE) ≠ 0 then s.ch.cmdptr else v &&& ~~~0xf
  | .control v bits =>
    newStatus s.ch.status v bits &&& ~~~(maskOf v &&& writable) = s.ch.status &&& ~~~(maskOf v &&& writable)
  | _ => True

/-- A pointer that is kept reads the same in both byte orders; a control write leaves the other
bits as they are, and so does `status_bits_func` with the device bits that are not selected. -/
def Modest (s : Machine) : Action → Prop
  | .setCmdptr _ => s.ch.status &&& (RUN ||| ACTIVE) = 0 ∨ swap s.ch.cmdptr = s.ch.cmdptr
  | .control v bits =>
    v.setWidth 16 &&& (maskOf v &&& ~~~writable) = s.ch.status &&& (maskOf v &&& ~~~writable) ∧
      (maskOf v &&& 0xff ≠ 0 → bits.setWidth 16 &&& ~~~maskOf v = s.ch.status &&& (0xff &&& ~~~maskOf v))
  | _ => True

theorem insert_kept_iff (v mask status old : BitVec 16) :
    ((v &&& mask) ||| (status &&& ~~~mask)) &&& ~~~(mask &&& writable) = old &&& ~~~(mask &&& writable) ↔
      v &&& (mask &&& ~~~writable) = old &&& (mask &&& ~~~writable) ∧ status &&& ~~~mask = old &&& ~~~mask := by
  simp only [eq_of_getLsbD_eq_iff]
  constructor
  · intro h
    refine ⟨fun i hi => ?_, fun i hi => ?_⟩ <;> have hbit := h i hi <;> grind
  · intro h i hi
    grind

theorem sbits_kept_iff (status mask : BitVec 16) (bits : Byte) :
    (status &&& ~~~0xff ||| bits.setWidth 16) &&& ~~~mask = status &&& ~~~mask ↔
      bits.setWidth 16 &&& ~~~mask = status &&& (0xff &&& ~~~mask) := by
  have hlow := sbits_low bits
  generalize (0xff : BitVec 16) = low at *
  simp only [eq_of_getLsbD_eq_iff] at *
  refine forall₂_congr fun i hi => ?_
  grind

theorem permitted_iff (s : Machine) (a : Action) : Permitted s a ↔ Modest s a := by
  cases a with
  | setCmdptr v =>
    unfold Permitted Modest Machine.setCmdptr Channel.cmdptr
    by_cases hbusy : s.ch.status &&& (RUN ||| ACTIVE) = 0
    · simp [hbusy, ne_eq, true_or]
    · simp only [hbusy, ne_eq, not_false_eq_true, if_true, false_or]
  | control v bits =>
    simp only [Permitted, newStatus]
    rw [← maskOf, insert_kept_iff]
    refine and_congr_right fun _ => ?_
    by_cases hdev : maskOf v &&& 0xff = 0
    · simp only [hdev, ne_eq, not_true_eq_false, if_false, false_implies]
    · rw [if_pos hdev, sbits_kept_iff]
      exact ⟨fun h _ => h, fun h => h hdev⟩
  | _ => exact Iff.rfl

/-- A channel that runs at 0x100 and is told to go to 0x200 goes to 0x10000; and the guest can
kill it by a write of DEAD. -/
theorem registers_spoiled :
    ¬ Permitted { allocated (fun _ => 0) with
        ch := { (allocated fun _ => 0).ch with status := RUN, cmdptrReg := swap 0x100 } } (.setCmdptr 0x200) ∧
    ¬ Permitted (allocated fun _ => 0) (.control 0x08000800 0) := by
  unfold Permitted
  decide

end MacOnLinux.Dbdma
