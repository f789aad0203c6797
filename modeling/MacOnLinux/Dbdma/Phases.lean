import MacOnLinux.Dbdma.Code
import Mathlib.Logic.Relation

/-! # The state of a DBDMA channel -/

namespace MacOnLinux.Dbdma

open List BitVec Relation Option

/-! ## Statements -/

def Whole (m : Memory) (lvptr : Word) : Prop :=
  ∃ r : Region, ∀ i : Nat, i < 16 → (m.mapping r).holds (lvptr + BitVec.ofNat 32 i) = true

def Deed.Serves (c : Nat) : Deed → Prop
  | .copy c' .. => c' = c
  | .take c' .. => c' = c
  | .store c' => c' = c
  | .load c' => c' = c
  | _ => False

structure Sound (m : Memory) (ch : Channel) : Prop where
  idle_iff : ch.idle = true ↔ ch.phase = .idling
  command : ch.idle = false → Whole m ch.curCmd
  dead : ch.has DEAD = true → ch.idle = true ∧ ch.has ACTIVE = false
  kills : ∀ c, .kill c ∈ ch.deeds → ∀ d ∈ ch.deeds, ¬ d.Serves c

def Fetches (m : Memory) (mptr : Word) : Prop := ∃ r lvptr, mphysToLvptr m mptr = some (r, lvptr) ∧ Whole m lvptr

def maskOf (v : Word) : BitVec 16 := (v >>> 16).setWidth 16

/-- The guest does nothing that the channel is not made for. -/
def Ready (m : Memory) (s : Machine) : Action → Prop
  | .control v bits =>
    -- DEAD is not written, and a channel that is started has a command
    maskOf v &&& DEAD = 0#16 ∧
      (s.ch.idle = true → s.ch.has DEAD = false → newStatus s.ch.status v bits &&& RUN ≠ 0#16 →
        Fetches m s.ch.cmdptr)
  | .iterate =>
    (s.ch.phase = .preparing → mphysToLvptr m s.ch.cmdptr = none ∨ Fetches m s.ch.cmdptr) ∧
    (s.ch.phase = .starting → opcode (s.ch.command s.mem) = 0x4000 →
      s.ch.command s.mem &&& 0x700 ≠ 0x500 ∧ s.ch.command s.mem &&& 0x700 ≠ 0x700)
  | _ => True

def Steps (m : Memory) (ok : Machine → Action → Prop) (s t : Machine) : Prop :=
  ∃ a, ok s a ∧ step m s a = some t

def ClearsRun : Action → Prop
  | .control v _ => maskOf v &&& RUN ≠ 0#16 ∧ v.setWidth 16 &&& RUN = 0#16
  | _ => False

variable {q : Prop} {m : Memory} {ch ch' : Channel} {mem mem' : Mem} {s t : Machine} {a : Action}
variable {d : Deed}

variable {cmd b : BitVec 16} {v macPhys : Word} {len : Nat} {bits : Byte}

/-! ## The invariant -/

def Deed.number : Deed → Nat
  | .kill c => c
  | .start c .. => c
  | .copy c .. => c
  | .take c .. => c
  | .store c => c
  | .load c => c
  | .stamp c _ _ => c

/-- `Sound` between calls; the bit ACTIVE is in order if `q`. -/
structure Inv (q : Prop) (m : Memory) (ch : Channel) : Prop where
  idle_iff : ch.idle = true ↔ ch.phase = .idling
  command : ch.idle = false → Whole m ch.curCmd
  dead : ch.has DEAD = true → ch.idle = true
  calm : q → ch.has DEAD = true → ch.has ACTIVE = false
  bound : ∀ d ∈ ch.deeds, d.number ≤ ch.fetched
  alive : ch.idle = false → .kill ch.fetched ∉ ch.deeds
  fresh : ch.phase = .starting → ∀ d ∈ ch.deeds, ¬ d.Serves ch.fetched
  kills : ∀ c, .kill c ∈ ch.deeds → ∀ d ∈ ch.deeds, ¬ d.Serves c

theorem Deed.Serves.number_eq {c : Nat} (hd : d.Serves c) : d.number = c := by
  cases d <;> first | exact hd | exact hd.elim

/-- All that the invariant reads but the status. -/
def Channel.record (ch : Channel) : Bool × Phase × Word × Nat × List Deed :=
  (ch.idle, ch.phase, ch.curCmd, ch.fetched, ch.deeds)

section Kept

variable (h : Inv q m ch)

include h

theorem Inv.restatus (hsame : ch'.record = ch.record) (hdead : ch'.has DEAD = true → ch.has DEAD = true)
    (hcalm : q → ch'.has DEAD = true → ch'.has ACTIVE = false) : Inv q m ch' := by
  cases ch
  cases ch'
  simp only [Channel.record, Prod.mk.injEq] at hsame
  obtain ⟨rfl, rfl, rfl, rfl, rfl⟩ := hsame
  exact ⟨h.idle_iff, h.command, fun hd => h.dead (hdead hd), hcalm, h.bound, h.alive, h.fresh, h.kills⟩

theorem Inv.congr (hsame : ch'.record = ch.record) (hdead : ch'.has DEAD = true → ch.has DEAD = true)
    (hactive : ch'.has ACTIVE = true → ch.has ACTIVE = true) : Inv q m ch' := by
  refine h.restatus hsame hdead fun hq hd => ?_
  rw [← Bool.not_eq_true]
  intro ha
  rw [h.calm hq (hdead hd)] at hactive
  exact Bool.false_ne_true (hactive ha)

theorem Inv.clear (b : BitVec 16) : Inv q m (ch.clear b) := h.congr rfl has_of_clear has_of_clear

theorem Inv.not_idle (hphase : ch.phase ≠ .idling) : ch.idle = false := by
  cases hidle : ch.idle with
  | false => rfl
  | true => exact absurd (h.idle_iff.mp hidle) hphase

theorem Inv.not_dead (hidle : ch.idle = false) : ch.has DEAD = false := by
  cases hdead : ch.has DEAD with
  | false => rfl
  | true =>
    rw [h.dead hdead] at hidle
    cases hidle

theorem Inv.move (hbusy : ch.phase ≠ .idling) {p : Phase} (hp : p ≠ .idling) (hs : p ≠ .starting) :
    Inv q m { ch with phase := p } where
  idle_iff := ⟨fun hidle => absurd (h.idle_iff.mp hidle) hbusy, fun hf => absurd hf hp⟩
  command := h.command
  dead := h.dead
  calm := h.calm
  bound := h.bound
  alive := h.alive
  fresh hf := absurd hf hs
  kills := h.kills

theorem Inv.note (hkill : ∀ c, d ≠ .kill c) (hn : d.number = ch.fetched)
    (hserve : ∀ c, d.Serves c → ch.phase ≠ .idling ∧ ch.phase ≠ .starting) : Inv q m (ch.did d) where
  idle_iff := h.idle_iff
  command := h.command
  dead := h.dead
  calm := h.calm
  bound d' hd' := by
    rcases mem_cons.mp hd' with rfl | hd'
    · exact hn.le
    · exact h.bound d' hd'
  alive hidle hc := by
    rcases mem_cons.mp hc with hc | hc
    · exact hkill _ hc.symm
    · exact h.alive hidle hc
  fresh hphase d' hd' := by
    rcases mem_cons.mp hd' with rfl | hd'
    · exact fun hser => (hserve _ hser).2 hphase
    · exact h.fresh hphase d' hd'
  kills c hc d' hd' := by
    rcases mem_cons.mp hc with hc | hmem
    · exact absurd hc.symm (hkill c)
    · rcases mem_cons.mp hd' with rfl | hd'
      · intro hser
        rw [← hser.number_eq, hn] at hmem
        exact h.alive (h.not_idle (hserve c hser).1) hmem
      · exact h.kills c hmem d' hd'

end Kept

theorem Inv.kill (hkills : ∀ c, .kill c ∈ ch.deeds → ∀ d ∈ ch.deeds, ¬ d.Serves c)
    (hbound : ∀ d ∈ ch.deeds, d.number ≤ ch.fetched)
    (hfresh : ∀ d ∈ ch.deeds, ¬ d.Serves ch.fetched) : Inv q m (killChannel ch) where
  idle_iff := ⟨fun _ => rfl, fun _ => rfl⟩
  command hidle := nomatch hidle
  dead _ := rfl
  calm _ _ := has_clear_self _ ACTIVE
  bound d hd := by
    rcases mem_cons.mp hd with rfl | hd
    · exact Nat.le_refl _
    · exact hbound d hd
  alive hidle := nomatch hidle
  fresh hphase := nomatch hphase
  kills c hc d hd := by
    rcases mem_cons.mp hd with rfl | hd
    · exact fun hser => hser
    · rcases mem_cons.mp hc with hc | hc
      · cases hc
        exact hfresh d hd
      · exact hkills c hc d hd

/-! ## The functions of the source -/

section Registers

variable (h : Inv q m ch)

include h

theorem inv_stampStatus (mem : Mem) : Inv q m (stampStatus ch mem).1 := by
  unfold stampStatus
  split
  · exact h
  · exact h.note nofun rfl nofun

theorem inv_goIdle : Inv q m (goIdle ch) where
  idle_iff := ⟨fun _ => rfl, fun _ => rfl⟩
  command hidle := nomatch hidle
  dead _ := rfl
  calm := h.calm
  bound := h.bound
  alive hidle := nomatch hidle
  fresh hphase := nomatch hphase
  kills := h.kills

theorem inv_killChannel (hphase : ch.phase = .starting) : Inv q m (killChannel ch) :=
  .kill h.kills h.bound (h.fresh hphase)

theorem inv_fetched {r : Region} {lvptr : Word} (hwhole : Whole m lvptr) (hdead : ch.has DEAD = false) :
    Inv q m { ch with
      fetched := ch.fetched + 1, curCmd := lvptr, curCmdInRom := r = .rom,
      phase := .starting, idle := false } where
  idle_iff := ⟨fun hf => (nomatch hf), fun hf => (nomatch hf)⟩
  command _ := hwhole
  dead hd := by
    have : ch.has DEAD = true := hd
    rw [hdead] at this
    cases this
  calm _ hd := by
    have : ch.has DEAD = true := hd
    rw [hdead] at this
    cases this
  bound d hd := Nat.le_succ_of_le (h.bound d hd)
  alive _ hkill := absurd (h.bound _ hkill) (Nat.not_succ_le_self _)
  fresh _ d hd hser := by
    have hle := h.bound d hd
    rw [hser.number_eq] at hle
    exact absurd hle (Nat.not_succ_le_self _)
  kills := h.kills

theorem inv_prepareCmd (hphase : ch.phase = .preparing)
    (hptr : mphysToLvptr m ch.cmdptr = none ∨ Fetches m ch.cmdptr) : Inv q m (prepareCmd m ch) := by
  have hidle : ch.idle = false := h.not_idle (by rw [hphase]; decide)
  unfold prepareCmd
  rcases hptr with hnone | ⟨r, lvptr, hsome, hwhole⟩
  · dsimp only
    rw [hnone]
    refine .kill h.kills (fun d hd => Nat.le_succ_of_le (h.bound d hd)) fun d hd hser => ?_
    have hle := h.bound d hd
    rw [hser.number_eq] at hle
    exact absurd hle (Nat.not_succ_le_self _)
  · dsimp only
    rw [hsome]
    exact (inv_fetched (r := r) h hwhole (h.not_dead hidle)).congr (by
      unfold Channel.record
      rw [hidle]) id id

theorem inv_restart (hdead : ch.has DEAD = false) (hptr : Fetches m ch.cmdptr) :
    Inv q m { prepareCmd m ch with idle := false } := by
  obtain ⟨r, lvptr, hsome, hwhole⟩ := hptr
  unfold prepareCmd
  dsimp only
  rw [hsome]
  exact inv_fetched h hwhole hdead

theorem inv_accessed (identifier : Nat) (access : Access) (val : Word) :
    Inv q m (accessed ch mem identifier access val).1 := by
  unfold accessed
  split
  next hsame =>
    have hbusy : ch.phase ≠ .idling ∧ ch.phase ≠ .starting := by rw [hsame.2]; decide
    cases access with
    | load len =>
      have hload := h.note (d := .load ch.fetched) nofun rfl fun _ _ => hbusy
      exact hload.move hbusy.1 (by decide) (by decide)
    | store => exact h.move hbusy.1 (by decide) (by decide)
  next => exact h

end Registers

/-! ### start_cmd -/

/-- What `start_cmd` makes of a channel that has read the command word `cmd`. -/
inductive Started (ch : Channel) : Channel → Prop where
  | killed (mayBranch : Bool) (buf : Word) :
      Started ch (killChannel { ch with mayBranch := mayBranch, io := { ch.io with buf := buf } })
  | moving (io : Dma.IoState) (p : Phase) : io.reqCount < 2 ^ 16 → io.resCount = 0 → p = .inputing ∨ p = .outputing →
      Started ch { ch.did (.start ch.fetched io.reqCount io.buf) with
        mayBranch := true, io := io, phase := p }
  | waiting : Started ch { ch with phase := .ioaccessing, identifier := ch.identifier + 1 }
  | storing : Started ch ({ ch with
      phase := .ioaccessing, identifier := ch.identifier + 1 }.did (.store ch.fetched))
  | accessed (ch' : Channel) (mem : Mem) (identifier : Nat) (access : Access) (val : Word) :
      Started ch ch' → Started ch (accessed ch' mem identifier access val).1
  | finishing : Started ch { ch with mayBranch := true, phase := .finishing }
  | stopped : Started ch { ch.clear ACTIVE with idle := true, phase := .idling }

theorem startIo_cases : Started ch (startIo m ch mem) := by
  have hreq : (ldLe16 mem ch.curCmd).toNat < 2 ^ 16 := isLt _
  unfold startIo
  dsimp only
  split
  · exact .killed true ch.io.buf
  split
  · unfold startInput Dma.startInput
    split_ifs
    · exact .killed true _
    · exact .moving _ _ hreq rfl (.inl rfl)
  · unfold startOutput Dma.startOutput
    split_ifs
    · exact .killed true _
    · exact .moving _ _ hreq rfl (.inr rfl)

theorem key_eq (w : BitVec 16) :
    w &&& (0x700 : BitVec 16) = (w.extractLsb' 8 3).setWidth 16 <<< (8 : Nat) := by
  have hmask : ∀ j : Fin 16,
      getLsbD (0x700 : BitVec 16) j = decide (8 ≤ j.val ∧ j.val < 11) := by decide
  apply eq_of_getLsbD_eq
  intro i hi
  have hmask := hmask ⟨i, hi⟩
  grind

theorem key_cases (w : BitVec 16) (hregs : w &&& 0x700 ≠ 0x500) (hdev : w &&& 0x700 ≠ 0x700) :
    (if w &&& 0x700 < keyRegs then keySystem else w &&& 0x700) = keySystem := by
  rw [key_eq] at *
  generalize w.extractLsb' 8 3 = x at *
  revert x
  decide

theorem loadWord_cases {key : BitVec 16} : Started ch (loadWord m ch mem key macPhys len).1 := by
  unfold loadWord
  split
  · exact .killed ch.mayBranch ch.io.buf
  · split
    · exact .accessed _ _ _ _ _ .waiting
    · exact .waiting

theorem storeWord_cases {data : Word} :
    Started ch (storeWord m ch mem keySystem macPhys data len).1 := by
  unfold storeWord
  rw [if_neg (by decide)]
  split
  · exact .accessed _ _ _ _ _ .storing
  · exact .accessed _ _ _ _ _ .waiting
  · exact .storing

theorem startAccess_cases (load : Bool)
    (hkey : load = false → ch.command mem &&& 0x700 ≠ 0x500 ∧ ch.command mem &&& 0x700 ≠ 0x700) :
    Started ch (startAccess m ch mem load).1 := by
  unfold startAccess
  dsimp only
  cases load with
  | true => exact loadWord_cases
  | false =>
    rw [key_cases _ (hkey rfl).1 (hkey rfl).2]
    exact storeWord_cases

theorem startCmd_cases
    (hkey : opcode (ch.command mem) = 0x4000 →
      ch.command mem &&& 0x700 ≠ 0x500 ∧ ch.command mem &&& 0x700 ≠ 0x700) :
    Started { ch.clear WAKE with mayBranch := false }
      (startCmd m ch mem).1 := by
  unfold startCmd
  dsimp only
  split
  next => exact startIo_cases
  next =>
    split
    next hop => exact startAccess_cases _ fun hload => hkey (hop.resolve_right (by simpa using hload))
    next =>
      split
      · exact .finishing
      · split
        · exact .stopped
        · exact .killed false ch.io.buf

/-- What an acknowledgement makes of a channel. -/
def Channel.acknowledged (ch : Channel) (d : Deed) (io : Dma.IoState) : Channel :=
  if io.reqCount ≤ io.resCount then { ch.did d with io := io, phase := .finishing }
  else { ch.did d with io := io }

section Commands

variable (h : Inv q m ch)

include h

theorem inv_started (hphase : ch.phase = .starting) (hs : Started ch ch') : Inv q m ch' := by
  have hbusy : ch.phase ≠ .idling := by rw [hphase]; decide
  have hio : Inv q m { ch with phase := .ioaccessing, identifier := ch.identifier + 1 } :=
    (h.move (p := .ioaccessing) hbusy (by decide) (by decide)).congr rfl id id
  induction hs with
  | killed b buf =>
    have hbuf : Inv q m { ch with mayBranch := b, io := { ch.io with buf := buf } } :=
      h.congr rfl id id
    exact inv_killChannel hbuf hphase
  | moving io p _ _ hp =>
    have hstart := h.note (d := .start ch.fetched io.reqCount io.buf) nofun rfl nofun
    refine (hstart.move (p := p) hbusy ?_ ?_).congr rfl id id
    all_goals rcases hp with rfl | rfl <;> decide
  | waiting => exact hio
  | storing => exact hio.note nofun rfl fun _ _ => ⟨nofun, nofun⟩
  | accessed ch' mem identifier access val _ ih => exact inv_accessed ih _ _ _
  | finishing => exact (h.move (p := .finishing) hbusy (by decide) (by decide)).congr rfl id id
  | stopped => exact (inv_goIdle (h.clear ACTIVE)).congr rfl id id

theorem inv_startCmd (hphase : ch.phase = .starting) (hkey : opcode (ch.command mem) = 0x4000 →
      ch.command mem &&& 0x700 ≠ 0x500 ∧ ch.command mem &&& 0x700 ≠ 0x700) :
    Inv q m (startCmd m ch mem).1 := by
  have hread : Inv q m { ch.clear WAKE with mayBranch := false } :=
    (h.clear WAKE).congr rfl id id
  exact inv_started hread hphase (startCmd_cases hkey)

theorem inv_advance (mem : Mem) : Inv q m (advance ch mem) := by
  have hbt : Inv q m (if ch.mayBranch then ch.clear BT else ch) := by
    split
    · exact h.clear BT
    · exact h
  unfold advance
  dsimp only
  generalize (if ch.mayBranch then ch.clear BT else ch) = ch1 at hbt
  split
  · exact hbt.congr rfl (has_set ch1 (b := BT) (by decide)).symm.trans
      (has_set ch1 (b := BT) (by decide)).symm.trans
  · exact hbt.congr rfl id id

theorem inv_finishCmd (hphase : ch.phase = .finishing)
    (hfin : finishCmd ch mem = some (ch', mem')) : Inv q m ch' := by
  obtain rfl := finishCmd_eq ch mem hfin
  have hstamp := inv_stampStatus (inv_advance h mem) mem
  refine hstamp.move ?_ (by decide) (by decide)
  obtain ⟨reg, status, hadv⟩ := advance_frame ch mem
  obtain ⟨deeds, hframe⟩ := stampStatus_frame (advance ch mem) mem
  rw [hframe, hadv, hphase]
  decide

theorem Inv.acknowledged (hbusy : ch.phase ≠ .idling ∧ ch.phase ≠ .starting) (hkill : ∀ c, d ≠ .kill c)
    (hn : d.number = ch.fetched) (io : Dma.IoState) : Inv q m (ch.acknowledged d io) := by
  have hnote := h.note hkill hn fun _ _ => hbusy
  unfold Channel.acknowledged
  split
  · exact (hnote.move (p := .finishing) hbusy.1 (by decide) (by decide)).congr rfl id id
  · exact hnote.congr rfl id id

theorem inv_writeAck (mem : Mem) (hphase : ch.phase = .inputing) (pb : Pb) (buf : List Byte) :
    Inv q m (writeAck ch mem pb buf).1 :=
  h.acknowledged (d := .copy ch.fetched _ _ _) (by rw [hphase]; decide) nofun rfl _

theorem inv_readAck (hphase : ch.phase = .outputing) (pb : Pb) (len : Nat) : Inv q m (readAck ch pb len) :=
  h.acknowledged (d := .take ch.fetched _ _) (by rw [hphase]; decide) nofun rfl _

theorem inv_flush (mem : Mem) : Inv q m (flush ch mem).1 := by
  unfold flush
  dsimp only
  split
  · exact (inv_stampStatus h mem).clear FLUSH
  · exact h.clear FLUSH

theorem inv_stopRun (mem : Mem) (mask : BitVec 16) : Inv q m (stopRun ch mem mask).1 := by
  have hclear := h.clear DEAD
  unfold stopRun
  dsimp only
  split
  · split
    · exact hclear
    · exact inv_goIdle (inv_stampStatus hclear mem)
  · exact h

theorem inv_startRun
    (hptr : ch.idle = true → ch.has DEAD = false → ch.has RUN = true → Fetches m ch.cmdptr) :
    Inv q m (startRun m ch) := by
  unfold startRun
  split
  next hgo =>
    simp only [Bool.and_eq_true, Bool.not_eq_true'] at hgo
    exact inv_restart h hgo.2 (hptr hgo.1.2 hgo.2 hgo.1.1)
  next => exact h

end Commands

theorem stopRun_running {mask : BitVec 16} (hrun : (stopRun ch mem mask).1.has RUN = true) :
    stopRun ch mem mask = (ch, mem) := by
  unfold stopRun at hrun ⊢
  split
  next hstop =>
    rw [if_pos hstop] at hrun
    have hclear : (ch.clear DEAD).has RUN = false := (has_clear ch (by decide)).trans hstop.2
    obtain ⟨deeds, hstamp⟩ := stampStatus_frame (ch.clear DEAD) mem
    dsimp only at hrun
    rw [hstamp] at hrun
    split at hrun
    · exact absurd (hclear.symm.trans hrun) Bool.false_ne_true
    · exact absurd (hclear.symm.trans hrun) Bool.false_ne_true
  next => rfl

theorem flush_has (mem : Mem) (hb : b &&& FLUSH = 0#16) : (flush ch mem).1.has b = ch.has b := by
  obtain ⟨deeds, hframe⟩ := flush_frame ch mem
  rw [hframe]
  exact has_clear _ hb

theorem inv_controlWrite (mem : Mem) (mask : BitVec 16) (h : Inv False m ch)
    (hptr : ch.idle = true → ch.has DEAD = false → ch.has RUN = true → Fetches m ch.cmdptr) :
    Inv True m (controlWrite m ch mem mask).1 := by
  have hflush := inv_flush h mem
  have hstart : Inv False m (startRun m (stopRun (flush ch mem).1 (flush ch mem).2 mask).1) := by
    refine inv_startRun (inv_stopRun hflush _ mask) fun hidle hdead hrun => ?_
    have hsame := stopRun_running hrun
    rw [hsame] at hidle hdead hrun ⊢
    rw [flush_has mem (by decide)] at hdead hrun
    obtain ⟨deeds, hframe⟩ := flush_frame ch mem
    rw [hframe] at hidle ⊢
    exact hptr hidle hdead hrun
  unfold controlWrite
  dsimp only
  generalize startRun m (stopRun (flush ch mem).1 (flush ch mem).2 mask).1 = ch1 at hstart
  have hcalm : Inv True m (ch1.clear ACTIVE) :=
    { hstart.clear ACTIVE with calm := fun _ _ => has_clear_self ch1 ACTIVE }
  split
  next hgo =>
    simp only [Bool.and_eq_true, Bool.not_eq_true'] at hgo
    have hdead : ((ch1.clear ACTIVE).set ACTIVE).has DEAD = false :=
      (has_set _ (by decide)).trans hgo.2
    have hnot : ((ch1.clear ACTIVE).set ACTIVE).has DEAD = true → False := fun hd => by
      rw [hdead] at hd
      cases hd
    exact hcalm.restatus rfl (fun hd => (hnot hd).elim) fun _ hd => (hnot hd).elim
  next => exact hcalm

/-! ## The machine -/

theorem accepts_phase {pb : Pb} {input : Bool} (hacc : accepts ch pb input = true) :
    ch.phase = ioPhase input := by
  unfold accepts at hacc
  rw [Bool.and_eq_true] at hacc
  exact beq_iff_eq.mp hacc.2

theorem newStatus_has (ch : Channel) (bits : Byte) (hmask : maskOf v &&& b = 0#16)
    (hb : b &&& 0xff = 0#16) :
    ({ ch with status := newStatus ch.status v bits } : Channel).has b = ch.has b := by
  unfold Channel.has
  rw [newStatus_and hmask hb]

theorem inv_control (h : Inv True m s.ch) (v : Word) (bits : Byte)
    (hready : Ready m s (.control v bits)) : Inv True m (s.control m v bits).ch := by
  obtain ⟨hmask, hptr⟩ := hready
  have hdead := newStatus_has s.ch bits hmask (by decide)
  have hnew : Inv False m { s.ch with status := newStatus s.ch.status v bits } :=
    { idle_iff := h.idle_iff
      command := h.command
      dead := fun hd => h.dead (hdead.symm.trans hd)
      calm := fun hf => hf.elim
      bound := h.bound
      alive := h.alive
      fresh := h.fresh
      kills := h.kills }
  exact inv_controlWrite s.mem (maskOf v) hnew fun hidle hd hrun =>
    hptr hidle (hdead.symm.trans hd) (bne_iff_ne.mp hrun)

@[simp] theorem acked_ch (pb : Pb) : (s.acked pb).ch = s.ch := by
  unfold Machine.acked
  split <;> rfl

/-- What the invariants read is as it was. -/
structure Quiet (s t : Machine) : Prop where
  record : t.ch.record = s.ch.record
  io : t.ch.io = s.ch.io
  identifier : t.ch.identifier = s.ch.identifier
  has : ∀ b : BitVec 16, b &&& 0xff = 0#16 → t.ch.has b = s.ch.has b
  pbs : t.pbs = s.pbs
  spent : t.spent = s.spent

theorem Quiet.of_ch (hch : t.ch = s.ch) (hpbs : t.pbs = s.pbs) (hspent : t.spent = s.spent) : Quiet s t :=
  ⟨by rw [hch], by rw [hch], by rw [hch], fun _ _ => by rw [hch], hpbs, hspent⟩

inductive Stepped (m : Memory) (s : Machine) : Action → Machine → Prop where
  | quiet {a : Action} {t : Machine} : Quiet s t → Stepped m s a t
  | control (v : Word) (bits : Byte) : Stepped m s (.control v bits) (s.control m v bits)
  | fill {a : Action} (input : Bool) (holder : Option Holder) : s.ch.phase = ioPhase input →
      Stepped m s a (Machine.fill { s with holder := holder } input)
  | writeAck (pb : Pb) (buf : List Byte) : accepts s.ch pb true = true →
      Stepped m s (.writeAck pb buf) (Machine.acked { s with
        ch := (writeAck s.ch s.mem pb buf).1, mem := (writeAck s.ch s.mem pb buf).2 } pb)
  | readAck (pb : Pb) (len : Nat) : accepts s.ch pb false = true →
      Stepped m s (.readAck pb len) (Machine.acked { s with ch := readAck s.ch pb len } pb)
  | resume (i : Nat) (val : Word) (u : Sleeper) : Stepped m s (.resume i val) { s with
      ch := (accessed s.ch s.mem u.identifier u.access val).1
      mem := (accessed s.ch s.mem u.identifier u.access val).2
      sleeping := s.sleeping.eraseIdx i
      holder := some ⟨u.after, true⟩ }
  | prepare : s.ch.phase = .preparing → Stepped m s .iterate { s with ch := prepareCmd m s.ch }
  | start {ch : Channel} {mem : Mem} {holder : Option Holder} {sleeping : List Sleeper} :
      s.ch.phase = .starting → (startCmd m s.ch s.mem).1 = ch →
      Stepped m s .iterate { s with ch := ch, mem := mem, holder := holder, sleeping := sleeping }
  | finish {ch : Channel} {mem : Mem} : s.ch.phase = .finishing → finishCmd s.ch s.mem = some (ch, mem) →
      Stepped m s .iterate { s with ch := ch, mem := mem }

theorem enter_cases (a : Action) : Stepped m s a (enter m s a) := by
  cases a with
  | control v bits => exact .control v bits
  | setCmdptr v => exact .quiet ⟨rfl, rfl, rfl, fun _ _ => rfl, rfl, rfl⟩
  | setSel reg v => cases reg <;> exact .quiet ⟨rfl, rfl, rfl, fun _ _ => rfl, rfl, rfl⟩
  | request input =>
    show Stepped m s _ (s.request input)
    unfold Machine.request
    split
    · exact .quiet (.of_ch rfl rfl rfl)
    split
    · exact .fill input s.holder ‹_›
    · exact .quiet (.of_ch rfl rfl rfl)
  | writeAck pb buf =>
    show Stepped m s _ (s.writeAck pb buf)
    unfold Machine.writeAck
    split
    · exact .writeAck pb buf ‹_›
    · exact .quiet (.of_ch rfl rfl rfl)
  | readAck pb len =>
    show Stepped m s _ (s.readAck pb len)
    unfold Machine.readAck
    split
    · exact .readAck pb len ‹_›
    · exact .quiet (.of_ch rfl rfl rfl)
  | sbitsChanged bits =>
    exact .quiet ⟨rfl, rfl, rfl, fun _ hb => congrArg (· != 0) (sbits_and bits hb), rfl, rfl⟩
  | guest mem | iterate | resume i val => exact .quiet (.of_ch rfl rfl rfl)

theorem iterate_cases (u : Holder) : Stepped m s .iterate (iterate m s u) := by
  unfold iterate
  split
  · cases hphase : s.ch.phase with
    | preparing => exact .prepare hphase
    | starting =>
      rcases hstart : startCmd m s.ch s.mem with ⟨ch, mem, run, access⟩
      cases access with
      | none | some access => exact .start hphase (congrArg Prod.fst hstart)
    | finishing =>
      cases hfin : finishCmd s.ch s.mem with
      | none => exact .quiet (.of_ch rfl rfl rfl)
      | some r => exact .finish hphase hfin
    | idling | inputing | outputing | ioaccessing => exact .quiet (.of_ch rfl rfl rfl)
  · cases u.after with
    | done => exact .quiet (.of_ch rfl rfl rfl)
    | request input =>
      dsimp only
      split
      · exact .fill input none ‹_›
      · exact .quiet (.of_ch rfl rfl rfl)

theorem step_cases (hstep : step m s a = some t) : Stepped m s a t := by
  have henter : (if s.holder.isNone then some (enter m s a) else none) = some t → Stepped m s a t := by
    intro ht
    split at ht
    · obtain rfl := some.inj ht
      exact enter_cases a
    · cases ht
  cases a with
  | guest mem =>
    obtain rfl := some.inj hstep
    exact .quiet (.of_ch rfl rfl rfl)
  | iterate =>
    obtain ⟨u, -, rfl⟩ := map_eq_some_iff.mp hstep
    exact iterate_cases u
  | resume i val =>
    have hstep : s.resume i val = some t := hstep
    unfold Machine.resume at hstep
    split at hstep
    · obtain rfl := some.inj hstep
      exact .resume i val _
    · cases hstep
  | control v bits => exact henter hstep
  | setCmdptr v | setSel reg v | request input | writeAck pb buf | readAck pb len | sbitsChanged bits =>
    exact henter hstep

theorem inv_step (h : Inv True m s.ch) (hready : Ready m s a) (hstep : step m s a = some t) :
    Inv True m t.ch := by
  cases step_cases hstep with
  | quiet hq => exact h.congr hq.record (hq.has DEAD (by decide)).symm.trans (hq.has ACTIVE (by decide)).symm.trans
  | control v bits => exact inv_control h v bits hready
  | fill input => exact h.congr rfl id id
  | writeAck pb buf hacc =>
    rw [acked_ch]
    exact inv_writeAck h s.mem (accepts_phase hacc) pb buf
  | readAck pb len hacc =>
    rw [acked_ch]
    exact inv_readAck h (accepts_phase hacc) pb len
  | resume i val u => exact inv_accessed h _ _ _
  | prepare hphase => exact inv_prepareCmd h hphase (hready.1 hphase)
  | start hphase hch => exact hch ▸ inv_startCmd h hphase (hready.2 hphase)
  | finish hphase hfin => exact inv_finishCmd h hphase hfin

theorem inv_allocated (mem : Mem) : Inv True m (allocated mem).ch where
  idle_iff := ⟨fun _ => rfl, fun _ => rfl⟩
  command hidle := nomatch hidle
  dead _ := rfl
  calm _ _ := by
    show ((0 : BitVec 16) &&& ACTIVE != 0) = false
    decide
  bound d hd := nomatch hd
  alive hidle := nomatch hidle
  fresh hphase := nomatch hphase
  kills c hc := nomatch hc

theorem inv_run (h : Inv True m s.ch) (hrun : ReflTransGen (Steps m (Ready m)) s t) :
    Inv True m t.ch := by
  induction hrun with
  | refl => exact h
  | tail _ hstep ih =>
    obtain ⟨a, hready, hstep⟩ := hstep
    exact inv_step ih hready hstep

theorem Inv.sound (h : Inv True m ch) : Sound m ch where
  idle_iff := h.idle_iff
  command := h.command
  dead hd := ⟨h.dead hd, h.calm trivial hd⟩
  kills := h.kills

/-! ## A dead channel -/

theorem and_RUN (w : BitVec 16) : w &&& RUN ≠ 0#16 ↔ w.getLsbD 15 = true := by
  have hbit : RUN = twoPow 16 15 := by decide
  have hne : twoPow 16 15 ≠ 0#16 := by decide
  rw [hbit, and_twoPow]
  cases w.getLsbD 15 with
  | true => exact ⟨fun _ => rfl, fun _ => hne⟩
  | false => exact ⟨fun h => absurd rfl h, fun h => (nomatch h)⟩

theorem stopRun_of_running (mem : Mem) (hrun : ¬ ClearsRun (.control v bits))
    (hhas : ch.has RUN = (newStatus s.ch.status v bits &&& RUN != 0)) :
    stopRun ch mem (maskOf v) = (ch, mem) := by
  refine if_neg fun ⟨hmask, hclear⟩ => hrun ⟨hmask, ?_⟩
  rw [hhas, bne_eq_false_iff_eq] at hclear
  by_contra hset
  have hset := (and_RUN _).mp hset
  have hmask := (and_RUN _).mp hmask
  refine absurd hclear ((and_RUN _).mpr ?_)
  unfold newStatus
  unfold maskOf at hmask
  rw [getLsbD_or, getLsbD_and, hset, hmask]
  rfl

theorem dead_control (hd : s.ch.has DEAD = true) (hmask : maskOf v &&& DEAD = 0#16)
    (hrun : ¬ ClearsRun (.control v bits)) :
    (s.control m v bits).ch.has DEAD = true := by
  have hnew := (newStatus_has s.ch bits hmask (by decide)).trans hd
  show (controlWrite m { s.ch with status := newStatus s.ch.status v bits } s.mem (maskOf v)).1.has DEAD
    = true
  have hhas : ({ s.ch with status := newStatus s.ch.status v bits } : Channel).has RUN =
    (newStatus s.ch.status v bits &&& RUN != 0) := rfl
  generalize ({ s.ch with status := newStatus s.ch.status v bits } : Channel) = ch at hnew hhas
  have hstop := stopRun_of_running (flush ch s.mem).2 hrun
    ((flush_has s.mem (by decide)).trans hhas)
  have hdead : (flush ch s.mem).1.has DEAD = true := (flush_has s.mem (by decide)).trans hnew
  have hstart : startRun m (flush ch s.mem).1 = (flush ch s.mem).1 := by
    unfold startRun
    rw [hdead]
    simp
  have hactive : ((flush ch s.mem).1.clear ACTIVE).has DEAD = true :=
    (has_clear _ (by decide)).trans hdead
  unfold controlWrite
  dsimp only
  rw [hstop]
  rw [hstart, hactive]
  simpa using hactive

theorem accessed_idling (hphase : ch.phase = .idling) (identifier : Nat) (access : Access)
    (val : Word) : accessed ch mem identifier access val = (ch, mem) := by
  refine if_neg fun hsame => ?_
  rw [hphase] at hsame
  exact nomatch hsame.2

theorem dead_step (h : Inv True m s.ch) (hd : s.ch.has DEAD = true) (hready : Ready m s a)
    (hrun : ¬ ClearsRun a) (hstep : step m s a = some t) : t.ch.has DEAD = true := by
  have hphase : s.ch.phase = .idling := h.idle_iff.mp (h.dead hd)
  have hio : ∀ input, s.ch.phase ≠ ioPhase input := by
    intro input
    rw [hphase]
    cases input <;> decide
  cases step_cases hstep with
  | quiet hq => exact (hq.has DEAD (by decide)).trans hd
  | control v bits => exact dead_control hd hready.1 hrun
  | fill input _ hin => exact absurd hin (hio input)
  | writeAck pb buf hacc | readAck pb len hacc => exact absurd (accepts_phase hacc) (hio _)
  | resume i val u =>
    rw [accessed_idling hphase]
    exact hd
  | prepare hp | start hp | finish hp =>
    rw [hphase] at hp
    cases hp

theorem dead_run (h : Inv True m s.ch) (hd : s.ch.has DEAD = true)
    (hrun : ReflTransGen (Steps m fun s a => Ready m s a ∧ ¬ ClearsRun a) s t) :
    Inv True m t.ch ∧ t.ch.has DEAD = true := by
  induction hrun with
  | refl => exact ⟨h, hd⟩
  | tail _ hstep ih =>
    obtain ⟨a, ⟨hready, hrun⟩, hstep⟩ := hstep
    exact ⟨inv_step ih.1 hready hstep, dead_step ih.1 ih.2 hready hrun hstep⟩

/-- A dead channel stays dead and idle until RUN is cleared. -/
theorem channel_sound (mem : Mem) (hrun : ReflTransGen (Steps m (Ready m)) (allocated mem) s) :
    Sound m s.ch ∧ (s.ch.has DEAD = true →
      ∀ t, ReflTransGen (Steps m fun s a => Ready m s a ∧ ¬ ClearsRun a) s t →
        t.ch.has DEAD = true ∧ t.ch.idle = true ∧ t.ch.has ACTIVE = false) := by
  have hinv := inv_run (inv_allocated mem) hrun
  refine ⟨hinv.sound, fun hd t hsteps => ?_⟩
  obtain ⟨hinv, hdead⟩ := dead_run hinv hd hsteps
  exact ⟨hdead, hinv.dead hdead, hinv.calm trivial hdead⟩

/-! ## Examples -/

def mac : Memory := ⟨⟨0, 0x30000000, 0x1000000⟩, ⟨0xffc00000, 0x40000000, 0x400000⟩⟩

def startWord : Word := 0x80008000

theorem whole_first : Whole mac 0x30000000 := by
  refine ⟨.ram, ?_⟩
  decide

theorem channel_sound_started :
    ∃ s, ReflTransGen (Steps mac (Ready mac)) (allocated fun _ => 0) s ∧
      s.ch.phase = .starting ∧ Sound mac s.ch ∧ (s.ch.has DEAD = true →
      ∀ t, ReflTransGen (Steps mac fun s a => Ready mac s a ∧ ¬ ClearsRun a) s t →
        t.ch.has DEAD = true ∧ t.ch.idle = true ∧ t.ch.has ACTIVE = false) := by
  have hready : Ready mac (allocated fun _ => 0) (.control startWord 0) :=
    ⟨by decide, fun _ _ _ => ⟨.ram, 0x30000000, by decide, whole_first⟩⟩
  have hrun : ReflTransGen (Steps mac (Ready mac)) (allocated fun _ => 0)
      (enter mac (allocated fun _ => 0) (.control startWord 0)) :=
    .single ⟨.control startWord 0, hready, rfl⟩
  exact ⟨_, hrun, by decide, channel_sound _ hrun⟩

theorem dead_not_idle :
    ∃ s, ReflTransGen (Steps mac fun _ _ => True) (allocated fun _ => 0) s ∧
      s.holder = none ∧ ¬ Sound mac s.ch := by
  let s1 := enter mac (allocated fun _ => 0) (.setCmdptr 0xe0000000)
  let s2 := enter mac s1 (.control startWord 0)
  have hrun : ReflTransGen (Steps mac fun _ _ => True) (allocated fun _ => 0) s2 :=
    .tail (.single ⟨.setCmdptr 0xe0000000, trivial, rfl⟩) ⟨.control startWord 0, trivial, rfl⟩
  have hidle : s2.ch.idle = false := by decide
  have hphase : s2.ch.phase = .idling := by decide
  refine ⟨s2, hrun, by decide, fun hsound => ?_⟩
  rw [hsound.idle_iff.mpr hphase] at hidle
  cases hidle

end MacOnLinux.Dbdma
