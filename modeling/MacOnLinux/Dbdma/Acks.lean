import MacOnLinux.Dbdma.Phases

/-! # Acknowledgements of DBDMA transfers -/

namespace MacOnLinux.Dbdma

open List Relation

/-! ## Statements -/

def accepted (c : Nat) : List Deed → Nat
  | [] => 0
  | .copy c' _ _ bytes :: ds => (if c' = c then bytes.length else 0) + accepted c ds
  | .take c' _ len :: ds => (if c' = c then len else 0) + accepted c ds
  | _ :: ds => accepted c ds

def Right (earlier : List Deed) : Deed → Prop
  | .copy c asked dest bytes =>
    c = asked ∧ ∃ req buf, .start c req buf ∈ earlier ∧
      dest = buf + BitVec.ofNat 32 (accepted c earlier) ∧ accepted c earlier + bytes.length ≤ req
  | .take c asked len =>
    c = asked ∧ ∃ req buf, .start c req buf ∈ earlier ∧ accepted c earlier + len ≤ req
  | .stamp c residual moves => moves = true ∨ (∃ req buf, .start c req buf ∈ earlier) →
    ∃ req buf, .start c req buf ∈ earlier ∧ residual.toNat = req - accepted c earlier
  | _ => True

/-- Acknowledgements and stamps are right, command by command. -/
def Faithful : List Deed → Prop
  | [] => True
  | d :: earlier => Right earlier d ∧ Faithful earlier

def Deed.starts (c : Nat) : Deed → Bool
  | .start c' _ _ => c' = c
  | _ => false

/-- The current command is INPUT or OUTPUT in memory if and only if it was started as one. -/
def Channel.Agrees (ch : Channel) (mem : Mem) : Prop :=
  (isInput (ch.command mem) || isOutput (ch.command mem)) = ch.deeds.any (·.starts ch.fetched)

def Stamps (status mask : BitVec 16) : Prop :=
  status &&& FLUSH ≠ 0 ∨ (mask &&& RUN ≠ 0 ∧ status &&& RUN = 0)

/-- Filled by the channel less than 2^32 identifiers ago; it has not ended a command. -/
def Usable (s : Machine) (pb : Pb) : Prop :=
  pb ∈ s.pbs ∧ s.ch.identifier < pb.identifier + 2 ^ 32 ∧ pb.identifier ∉ s.spent

def Fair (s : Machine) : Action → Prop
  | .writeAck pb _ => Usable s pb
  | .readAck pb _ => Usable s pb
  | .control v bits =>
    s.ch.idle = false → Stamps (newStatus s.ch.status v bits) (maskOf v) → s.ch.Agrees s.mem
  | .iterate =>
    (s.ch.phase = .finishing → s.ch.Agrees s.mem) ∧ (s.ch.phase = .starting → opcode (s.ch.command s.mem) = 0x4000 →
      s.ch.command s.mem &&& 0x700 ≠ 0x500 ∧ s.ch.command s.mem &&& 0x700 ≠ 0x700)
  | _ => True

variable {m : Memory} {ch ch' ch'' : Channel} {mem mem' : Mem} {s t : Machine} {a : Action}
variable {c : Nat} {d : Deed} {ds : List Deed} {pb : Pb} {io : Dma.IoState}

/-! ## The account of the current command -/

def Phase.Moves (p : Phase) : Prop := p = .inputing ∨ p = .outputing

instance (p : Phase) : Decidable p.Moves := inferInstanceAs (Decidable (_ ∨ _))

/-- The state of the channel agrees with what was done for the current command. -/
structure Tally (ch : Channel) : Prop where
  idle : ch.idle = true → ch.phase = .idling
  bound : ∀ d ∈ ch.deeds, d.number ≤ ch.fetched
  io : ∀ req buf, .start ch.fetched req buf ∈ ch.deeds →
    ch.io.reqCount = req ∧ ch.io.buf = buf ∧
      ch.io.resCount = accepted ch.fetched ch.deeds ∧ req < 2 ^ 16
  le : ch.io.resCount ≤ ch.io.reqCount
  started : ch.phase.Moves → .start ch.fetched ch.io.reqCount ch.io.buf ∈ ch.deeds
  fresh : ch.phase = .starting →
    accepted ch.fetched ch.deeds = 0 ∧ ∀ req buf, .start ch.fetched req buf ∉ ch.deeds
  faithful : Faithful ch.deeds

def Keeps (ch ch' : Channel) : Prop :=
  ch.identifier < ch'.identifier ∨ ch'.identifier = ch.identifier ∧
      (ch.phase.Moves → ch'.phase = ch.phase ∧ ch'.fetched = ch.fetched)

theorem Keeps.of_eq (hid : ch'.identifier = ch.identifier) (hphase : ch'.phase = ch.phase)
    (hfetched : ch'.fetched = ch.fetched) : Keeps ch ch' := .inr ⟨hid, fun _ => ⟨hphase, hfetched⟩⟩

theorem Keeps.of_still (hid : ch'.identifier = ch.identifier) (hphase : ¬ ch.phase.Moves) :
    Keeps ch ch' := .inr ⟨hid, fun hmoves => absurd hmoves hphase⟩

theorem Keeps.trans (h : Keeps ch ch') (h' : Keeps ch' ch'') : Keeps ch ch'' := by
  rcases h with hlt | ⟨hid, hsame⟩
  · rcases h' with hlt' | ⟨hid', -⟩
    · exact .inl (hlt.trans hlt')
    · exact .inl (hid'.symm ▸ hlt)
  rcases h' with hlt' | ⟨hid', hsame'⟩
  · exact .inl (hid ▸ hlt')
  · refine .inr ⟨hid'.trans hid, fun hmoves => ?_⟩
    obtain ⟨hphase, hfetched⟩ := hsame hmoves
    obtain ⟨hphase', hfetched'⟩ := hsame' (hphase.symm ▸ hmoves)
    exact ⟨hphase'.trans hphase, hfetched'.trans hfetched⟩

theorem accepted_eq_zero (hbound : ∀ d ∈ ds, d.number < c) : accepted c ds = 0 := by
  induction ds with
  | nil => rfl
  | cons d ds ih =>
    have hrest := ih (forall_mem_cons.mp hbound).2
    have hd : d.number ≠ c := ne_of_lt (hbound d mem_cons_self)
    cases d with
    | copy c' asked dest bytes | take c' asked len =>
      rw [accepted, hrest]
      exact if_neg hd
    | kill c' | start c' req buf | store c' | load c' | stamp c' residual moves => exact hrest

/-- All that the account reads. -/
def Channel.account (ch : Channel) : Bool × Phase × Nat × Dma.IoState × List Deed :=
  (ch.idle, ch.phase, ch.fetched, ch.io, ch.deeds)

theorem Tally.congr (h : Tally ch) (hsame : ch'.account = ch.account) : Tally ch' := by
  cases ch
  cases ch'
  simp only [Channel.account, Prod.mk.injEq] at hsame
  obtain ⟨rfl, rfl, rfl, rfl, rfl⟩ := hsame
  exact ⟨h.idle, h.bound, h.io, h.le, h.started, h.fresh, h.faithful⟩

theorem Tally.move (h : Tally ch) {p : Phase} (hp : ¬ p.Moves) (hs : p ≠ .starting)
    (hbusy : ch.phase ≠ .idling) : Tally { ch with phase := p } where
  idle hidle := absurd (h.idle hidle) hbusy
  bound := h.bound
  io := h.io
  le := h.le
  started hmoves := absurd hmoves hp
  fresh hf := absurd hf hs
  faithful := h.faithful

theorem Tally.add (h : Tally ch) (hn : d.number = ch.fetched) (hstart : ∀ c req buf, d ≠ .start c req buf)
    {n : Nat} (hacc : accepted ch.fetched (d :: ch.deeds) = accepted ch.fetched ch.deeds + n)
    (hle : ch.io.resCount + n ≤ ch.io.reqCount) (hzero : ch.phase = .starting → n = 0)
    (hright : Right ch.deeds d) :
    Tally { ch.did d with io := { ch.io with resCount := ch.io.resCount + n } } where
  idle := h.idle
  bound d' hd' := by
    rcases mem_cons.mp hd' with rfl | hd'
    · exact hn.le
    · exact h.bound d' hd'
  io req buf hmem := by
    rcases mem_cons.mp hmem with hmem | hmem
    · exact absurd hmem.symm (hstart _ _ _)
    · obtain ⟨hreq, hbuf, hres, hlt⟩ := h.io req buf hmem
      exact ⟨hreq, hbuf, (congrArg (· + n) hres).trans hacc.symm, hlt⟩
  le := hle
  started hmoves := mem_cons_of_mem _ (h.started hmoves)
  fresh hf := by
    obtain ⟨hnone, hno⟩ := h.fresh hf
    refine ⟨?_, fun req buf hmem => ?_⟩
    · exact hacc.trans (by rw [hnone, hzero hf])
    · rcases mem_cons.mp hmem with hmem | hmem
      · exact hstart _ _ _ hmem.symm
      · exact hno req buf hmem
  faithful := ⟨hright, h.faithful⟩

theorem Tally.note (h : Tally ch) (hn : d.number = ch.fetched) (hstart : ∀ c req buf, d ≠ .start c req buf)
    (hacc : accepted ch.fetched (d :: ch.deeds) = accepted ch.fetched ch.deeds)
    (hright : Right ch.deeds d) : Tally (ch.did d) :=
  h.add hn hstart hacc h.le (fun _ => rfl) hright

/-! ## The functions of the source -/

theorem any_starts : ds.any (·.starts c) = true ↔ ∃ req buf, .start c req buf ∈ ds := by
  rw [any_eq_true]
  constructor
  · rintro ⟨d, hmem, hd⟩
    cases d with
    | start c' req buf => exact ⟨req, buf, of_decide_eq_true hd ▸ hmem⟩
    | _ => cases hd
  · rintro ⟨req, buf, hmem⟩
    exact ⟨_, hmem, decide_eq_true rfl⟩

theorem tally_goIdle (h : Tally ch) : Tally (goIdle ch) where
  idle _ := rfl
  bound := h.bound
  io := h.io
  le := h.le
  started hmoves := absurd hmoves (show ¬ Phase.idling.Moves by decide)
  fresh hf := nomatch hf
  faithful := h.faithful

theorem tally_killChannel (h : Tally ch) : Tally (killChannel ch) := by
  have hset : Tally ((ch.set DEAD).clear ACTIVE) := h.congr rfl
  exact tally_goIdle (hset.note rfl nofun rfl trivial)

theorem tally_stampStatus (h : Tally ch) (mem : Mem) (hsame : ch.Agrees mem) :
    Tally (stampStatus ch mem).1 := by
  unfold stampStatus
  split
  · exact h
  refine h.note rfl nofun rfl fun hstarted => ?_
  have hmoves : (isInput (ch.command mem) || isOutput (ch.command mem)) = true :=
    hstarted.elim id fun hstart => hsame.trans (any_starts.mpr hstart)
  obtain ⟨req, buf, hmem⟩ := any_starts.mp (hsame.symm.trans hmoves)
  obtain ⟨hreq, -, hres, hlt⟩ := h.io req buf hmem
  refine ⟨req, buf, hmem, ?_⟩
  rw [ldLe16_stLe16, if_pos hmoves, hreq, hres, BitVec.toNat_ofNat]
  exact Nat.mod_eq_of_lt (lt_of_le_of_lt (Nat.sub_le ..) hlt)

theorem keeps_stampStatus (ch : Channel) (mem : Mem) : Keeps ch (stampStatus ch mem).1 := by
  obtain ⟨deeds, hstamp⟩ := stampStatus_frame ch mem
  rw [hstamp]
  exact .of_eq rfl rfl rfl

theorem tally_prepareCmd (h : Tally ch) : Tally { prepareCmd m ch with idle := false } ∧
    (ch.phase ≠ .idling → Tally (prepareCmd m ch)) := by
  have hlt : ∀ d ∈ ch.deeds, d.number < ch.fetched + 1 := fun d hd => Nat.lt_succ_of_le (h.bound d hd)
  have hno : ∀ req buf, .start (ch.fetched + 1) req buf ∉ ch.deeds :=
    fun req buf hmem => absurd (hlt _ hmem) (lt_irrefl _)
  have hnext : ∀ (idle : Bool) (p : Phase) (lvptr : Word) (rom : Bool), ¬ p.Moves →
      (idle = true → p = .idling) →
      Tally { ch with
        fetched := ch.fetched + 1, curCmd := lvptr, curCmdInRom := rom,
        phase := p, idle := idle } := fun idle p lvptr rom hp hidle =>
    { idle := hidle
      bound := fun d hd => (hlt d hd).le
      io := fun req buf hmem => absurd hmem (hno req buf)
      le := h.le
      started := fun hmoves => absurd hmoves hp
      fresh := fun _ => ⟨accepted_eq_zero hlt, hno⟩
      faithful := h.faithful }
  have hquiet : ¬ Phase.starting.Moves := by decide
  unfold prepareCmd
  dsimp only
  cases mphysToLvptr m ch.cmdptr with
  | none =>
    have hkill : ∀ idle, Tally { killChannel { ch with
        fetched := ch.fetched + 1, curCmdInRom := false } with idle := idle } := by
      intro idle
      have hquiet : ¬ Phase.idling.Moves := by decide
      have hnote := (hnext idle .idling ch.curCmd false hquiet fun _ => rfl).note
        (d := .kill (ch.fetched + 1)) rfl nofun rfl trivial
      exact hnote.congr rfl
    exact ⟨hkill false, fun _ => hkill true⟩
  | some r =>
    refine ⟨hnext false .starting r.2 _ hquiet Bool.noConfusion, fun hbusy => ?_⟩
    exact hnext ch.idle .starting r.2 _ hquiet fun hidle => absurd (h.idle hidle) hbusy

theorem keeps_prepareCmd (hphase : ¬ ch.phase.Moves) : Keeps ch (prepareCmd m ch) := by
  unfold prepareCmd
  dsimp only
  cases mphysToLvptr m ch.cmdptr with
  | none => exact .inl (Nat.lt_succ_self _)
  | some r => exact .of_still rfl hphase

theorem tally_accessed (h : Tally ch) (mem : Mem) (identifier : Nat) (access : Access) (val : Word) :
    Tally (accessed ch mem identifier access val).1 := by
  have hquiet : ¬ Phase.finishing.Moves := by decide
  unfold accessed
  split
  next hsame =>
    have hbusy : ch.phase ≠ .idling := by rw [hsame.2]; decide
    cases access with
    | load len =>
      have hload := h.note (d := .load ch.fetched) rfl nofun rfl trivial
      exact hload.move hquiet (by decide) hbusy
    | store => exact h.move hquiet (by decide) hbusy
  next => exact h

theorem keeps_accessed (ch : Channel) (mem : Mem) (identifier : Nat) (access : Access)
    (val : Word) : Keeps ch (accessed ch mem identifier access val).1 := by
  unfold accessed
  split
  next hsame =>
    have hquiet : ¬ ch.phase.Moves := by
      rw [hsame.2]
      decide
    cases access with
    | load len | store => exact .of_still rfl hquiet
  next => exact .of_eq rfl rfl rfl

theorem Tally.start (h : Tally ch) (hphase : ch.phase = .starting)
    (hreq : io.reqCount < 2 ^ 16) (hres : io.resCount = 0) {p : Phase}
    (hp : p.Moves) :
    Tally { ch.did (.start ch.fetched io.reqCount io.buf) with io := io, phase := p } := by
  obtain ⟨hzero, hno⟩ := h.fresh hphase
  constructor
  case idle => exact fun hidle => absurd (h.idle hidle) (by rw [hphase]; decide)
  case bound =>
    intro d hd
    rcases mem_cons.mp hd with rfl | hd
    · exact le_refl _
    · exact h.bound d hd
  case io =>
    intro req buf hmem
    rcases mem_cons.mp hmem with hmem | hmem
    · cases hmem
      exact ⟨rfl, rfl, hres.trans hzero.symm, hreq⟩
    · exact absurd hmem (hno req buf)
  case le =>
    rw [hres]
    exact Nat.zero_le _
  case started => exact fun _ => mem_cons_self
  case fresh =>
    intro hf
    rcases hp with rfl | rfl <;> cases hf
  case faithful => exact ⟨trivial, h.faithful⟩

theorem Tally.rebuf (h : Tally ch) (hphase : ch.phase = .starting) (buf : Word) :
    Tally { ch with io := { ch.io with buf := buf } } where
  idle := h.idle
  bound := h.bound
  io req buf hmem := absurd hmem ((h.fresh hphase).2 req buf)
  le := h.le
  started hmoves := by
    have hmoves : ch.phase.Moves := hmoves
    rw [hphase] at hmoves
    exact absurd hmoves (by decide)
  fresh := h.fresh
  faithful := h.faithful

theorem starting_still (hphase : ch.phase = .starting) : ¬ ch.phase.Moves := by
  rw [hphase]
  decide

theorem tally_started (h : Tally ch) (hphase : ch.phase = .starting) (hs : Started ch ch') :
    Tally ch' ∧ Keeps ch ch' := by
  have hbusy : ch.phase ≠ .idling := by rw [hphase]; decide
  have hstill := starting_still hphase
  have hio : Tally { ch with phase := .ioaccessing, identifier := ch.identifier + 1 } :=
    (h.move (p := .ioaccessing) (by decide) (by decide) hbusy).congr rfl
  induction hs with
  | killed b buf =>
    have hbuf : Tally { ch with mayBranch := b, io := { ch.io with buf := buf } } :=
      (h.rebuf hphase buf).congr rfl
    exact ⟨tally_killChannel hbuf, .inl (Nat.lt_succ_self _)⟩
  | moving io p hreq hres hp =>
    exact ⟨(h.start hphase hreq hres hp).congr rfl, .of_still rfl hstill⟩
  | waiting => exact ⟨hio, .inl (Nat.lt_succ_self _)⟩
  | storing =>
    exact ⟨hio.note rfl nofun rfl trivial, .inl (Nat.lt_succ_self _)⟩
  | accessed ch' mem identifier access val _ ih =>
    exact ⟨tally_accessed ih.1 _ _ _ _, ih.2.trans (keeps_accessed ..)⟩
  | finishing =>
    have hmove := h.move (p := .finishing) (by decide) (by decide) hbusy
    exact ⟨hmove.congr rfl, .of_still rfl hstill⟩
  | stopped =>
    have hclear : Tally (ch.clear ACTIVE) := h.congr rfl
    exact ⟨(tally_goIdle hclear).congr rfl, .of_still rfl hstill⟩

theorem tally_startCmd (h : Tally ch) (hphase : ch.phase = .starting)
    (hkey : opcode (ch.command mem) = 0x4000 →
      ch.command mem &&& 0x700 ≠ 0x500 ∧ ch.command mem &&& 0x700 ≠ 0x700) :
    Tally (startCmd m ch mem).1 ∧ Keeps ch (startCmd m ch mem).1 := by
  have hfetch : Tally { ch.clear WAKE with mayBranch := false } := h.congr rfl
  obtain ⟨htally, hkeeps⟩ := tally_started hfetch hphase (startCmd_cases (m := m) hkey)
  exact ⟨htally, Keeps.trans (.of_eq rfl rfl rfl) hkeeps⟩

theorem tally_finishCmd (h : Tally ch) (hphase : ch.phase = .finishing)
    (hsame : ch.Agrees mem)
    (hfin : finishCmd ch mem = some (ch', mem')) : Tally ch' ∧ Keeps ch ch' := by
  have hstill : ¬ ch.phase.Moves := by
    rw [hphase]
    decide
  obtain ⟨reg, status, hadv⟩ := advance_frame ch mem
  have hnext : Tally { ch with cmdptrReg := reg, status := status } :=
    h.congr rfl
  have hstamped := tally_stampStatus hnext mem hsame
  obtain ⟨deeds, hstamp⟩ := stampStatus_frame { ch with cmdptrReg := reg, status := status } mem
  rw [hstamp] at hstamped
  rw [finishCmd_eq ch mem hfin, hadv, hstamp]
  exact ⟨hstamped.move (by decide) (by decide) (by rw [hphase]; decide), .of_still rfl hstill⟩

/-! ## Acknowledgements -/

theorem accepted_copy (ds : List Deed) (asked : Nat) (dest : Word) (bytes : List Byte) :
    accepted c (.copy c asked dest bytes :: ds) = accepted c ds + bytes.length := by
  rw [accepted, if_pos rfl, add_comm]

theorem accepted_take (ds : List Deed) (asked len : Nat) :
    accepted c (.take c asked len :: ds) = accepted c ds + len := by
  rw [accepted, if_pos rfl, add_comm]

theorem writeAck_eq (hle : ch.io.resCount ≤ ch.io.reqCount) (mem : Mem) (pb : Pb)
    (buf : List Byte) {bytes : List Byte} (hbytes : bytes = buf.take (ch.io.reqCount - ch.io.resCount))
    {dest : Word} (hdest : dest = ch.io.buf + BitVec.ofNat 32 ch.io.resCount) :
    writeAck ch mem pb buf = (ch.acknowledged (.copy ch.fetched pb.asked dest bytes)
      { ch.io with resCount := ch.io.resCount + bytes.length }, store mem dest bytes) := by
  have hlen : (if ch.io.reqCount < ch.io.resCount + buf.length then ch.io.reqCount - ch.io.resCount
      else buf.length) = bytes.length := by
    rw [hbytes, length_take]
    split <;> omega
  have htake : buf.take (ch.io.resCount + bytes.length - ch.io.resCount) = bytes := by
    rw [Nat.add_sub_cancel_left, hbytes, length_take, ← take_take, take_length]
  unfold writeAck Dma.dmaWriteAck
  dsimp only
  rw [hlen, htake, hdest]
  rfl

theorem readAck_eq (hle : ch.io.resCount ≤ ch.io.reqCount) (pb : Pb) (len : Nat) {n : Nat}
    (hn : n = min len (ch.io.reqCount - ch.io.resCount)) :
    readAck ch pb len = ch.acknowledged (.take ch.fetched pb.asked n)
      { ch.io with resCount := ch.io.resCount + n } := by
  have hlen : (if ch.io.reqCount < ch.io.resCount + len then ch.io.reqCount
      else ch.io.resCount + len) = ch.io.resCount + n := by
    rw [hn]
    split <;> omega
  unfold readAck
  dsimp only
  rw [hlen, Nat.add_sub_cancel_left]
  rfl

theorem Tally.acknowledged (h : Tally ch) (hmoves : ch.phase.Moves) (hn : d.number = ch.fetched)
    (hstart : ∀ c req buf, d ≠ .start c req buf) {n : Nat}
    (hacc : accepted ch.fetched (d :: ch.deeds) = accepted ch.fetched ch.deeds + n)
    (hle : ch.io.resCount + n ≤ ch.io.reqCount)
    (hright : .start ch.fetched ch.io.reqCount ch.io.buf ∈ ch.deeds →
      ch.io.resCount = accepted ch.fetched ch.deeds → Right ch.deeds d) :
    Tally (ch.acknowledged d { ch.io with resCount := ch.io.resCount + n }) := by
  have hbusy : ch.phase ≠ .idling ∧ ch.phase ≠ .starting := by rcases hmoves with hp | hp <;> rw [hp] <;> decide
  have hstarted := h.started hmoves
  obtain ⟨-, -, hres, -⟩ := h.io _ _ hstarted
  have hadd := h.add hn hstart hacc hle (fun hf => absurd hf hbusy.2) (hright hstarted hres)
  unfold Channel.acknowledged
  split
  · exact (hadd.move (p := .finishing) (by decide) (by decide) hbusy.1).congr rfl
  · exact hadd

theorem tally_writeAck (h : Tally ch) (hphase : ch.phase = .inputing) (hasked : pb.asked = ch.fetched)
    (mem : Mem) (buf : List Byte) : Tally (writeAck ch mem pb buf).1 := by
  have hle := h.le
  have hroom : ch.io.resCount + (buf.take (ch.io.reqCount - ch.io.resCount)).length ≤
      ch.io.reqCount := by
    rw [length_take]
    omega
  rw [writeAck_eq h.le mem pb buf rfl rfl]
  refine h.acknowledged (.inl hphase) rfl (fun _ _ _ => Deed.noConfusion) (accepted_copy ..) hroom ?_
  intro hstarted hres
  exact ⟨hasked.symm, _, _, hstarted, by rw [hres], hres ▸ hroom⟩

theorem tally_readAck (h : Tally ch) (hphase : ch.phase = .outputing)
    (hasked : pb.asked = ch.fetched) (len : Nat) : Tally (readAck ch pb len) := by
  have hle := h.le
  have hroom : ch.io.resCount + min len (ch.io.reqCount - ch.io.resCount) ≤ ch.io.reqCount := by
    omega
  rw [readAck_eq h.le pb len rfl]
  refine h.acknowledged (.inr hphase) rfl (fun _ _ _ => Deed.noConfusion) (accepted_take ..) hroom ?_
  intro hstarted hres
  exact ⟨hasked.symm, _, _, hstarted, hres ▸ hroom⟩

/-! ## The control register -/

theorem stLe16_apart (mem : Mem) {x dest : Word} (v : BitVec 16)
    (hapart : 2 ≤ (x - dest).toNat) : stLe16 mem dest v x = mem x := by
  unfold stLe16 store
  rw [getD_eq_getElem?_getD, getElem?_eq_none hapart]
  rfl

theorem stampStatus_command (ch : Channel) (mem : Mem) :
    (stampStatus ch mem).1.command (stampStatus ch mem).2 = ch.command mem := by
  have hoff : ∀ i j : Word, ch.curCmd + i - (ch.curCmd + j) = i - j := fun i j => by ring
  have hword : ∀ (mem : Mem) (v w : BitVec 16),
      ldLe16 (stLe16 (stLe16 mem (ch.curCmd + 14) v) (ch.curCmd + 12) w) (ch.curCmd + 2) =
        ldLe16 mem (ch.curCmd + 2) := by
    intro mem v w
    have hnext : ch.curCmd + 2 + 1 = ch.curCmd + 3 := by ring
    unfold ldLe16
    rw [hnext, stLe16_apart, stLe16_apart, stLe16_apart, stLe16_apart] <;> rw [hoff] <;> decide
  unfold stampStatus
  split
  · rfl
  · exact hword mem _ _

theorem stampStatus_agrees (hsame : ch.Agrees mem) :
    (stampStatus ch mem).1.Agrees (stampStatus ch mem).2 := by
  unfold Channel.Agrees
  rw [stampStatus_command]
  refine hsame.trans ?_
  unfold stampStatus
  split <;> rfl

theorem tally_flush (h : Tally ch) (mem : Mem)
    (hsame : ch.idle = false → ch.status &&& FLUSH ≠ 0 → ch.Agrees mem) :
    Tally (flush ch mem).1 ∧ Keeps ch (flush ch mem).1 ∧
      (ch.Agrees mem → (flush ch mem).1.Agrees (flush ch mem).2) := by
  unfold flush
  dsimp only
  split
  next hcond =>
    simp only [Bool.and_eq_true, Bool.not_eq_true', Channel.has, bne_iff_ne] at hcond
    refine ⟨(tally_stampStatus h mem (hsame hcond.1.2 hcond.1.1)).congr rfl, ?_, stampStatus_agrees⟩
    exact (keeps_stampStatus ch mem).trans (.of_eq rfl rfl rfl)
  next => exact ⟨h.congr rfl, .of_eq rfl rfl rfl, id⟩

theorem tally_stopRun (h : Tally ch) (mem : Mem) (mask : BitVec 16)
    (hsame : ch.idle = false → mask &&& RUN ≠ 0 → ch.has RUN = false → ch.Agrees mem) :
    Tally (stopRun ch mem mask).1 ∧ Keeps ch (stopRun ch mem mask).1 := by
  have hclear : Tally (ch.clear DEAD) := h.congr rfl
  unfold stopRun
  dsimp only
  split
  next hstop =>
    split
    · exact ⟨hclear, .of_eq rfl rfl rfl⟩
    next hidle =>
      have hsame := hsame (Bool.eq_false_iff.mpr hidle) hstop.1 hstop.2
      refine ⟨tally_goIdle (tally_stampStatus hclear mem hsame), .inl ?_⟩
      obtain ⟨deeds, hstamp⟩ := stampStatus_frame (ch.clear DEAD) mem
      rw [hstamp]
      exact Nat.lt_succ_self _
  next => exact ⟨h, .of_eq rfl rfl rfl⟩

theorem tally_startRun (h : Tally ch) : Tally (startRun m ch) ∧ Keeps ch (startRun m ch) := by
  unfold startRun
  split
  next hgo =>
    simp only [Bool.and_eq_true] at hgo
    have hstill : ¬ ch.phase.Moves := by
      rw [h.idle hgo.1.2]
      decide
    exact ⟨(tally_prepareCmd h).1, keeps_prepareCmd hstill⟩
  next => exact ⟨h, .of_eq rfl rfl rfl⟩

theorem tally_controlWrite (h : Tally ch) (mem : Mem) (mask : BitVec 16)
    (hsame : ch.idle = false → Stamps ch.status mask → ch.Agrees mem) :
    Tally (controlWrite m ch mem mask).1 ∧ Keeps ch (controlWrite m ch mem mask).1 := by
  obtain ⟨hflush, hkeep, hagrees⟩ := tally_flush h mem fun hidle hset => hsame hidle (.inl hset)
  have hidle' : (flush ch mem).1.idle = ch.idle := by
    obtain ⟨deeds, hframe⟩ := flush_frame ch mem
    rw [hframe]
    rfl
  have hrun : (flush ch mem).1.has RUN = ch.has RUN := flush_has mem (by decide)
  obtain ⟨hstop, hkeep'⟩ := tally_stopRun hflush (flush ch mem).2 mask fun hidle hmask hoff =>
    hagrees (hsame (hidle' ▸ hidle) (.inr ⟨hmask, bne_eq_false_iff_eq.mp (hrun.symm.trans hoff)⟩))
  obtain ⟨hstart, hkeep''⟩ := tally_startRun (m := m) hstop
  have hkeeps := (hkeep.trans hkeep').trans hkeep''
  unfold controlWrite
  dsimp only
  split
  · exact ⟨hstart.congr rfl, hkeeps.trans (.of_eq rfl rfl rfl)⟩
  · exact ⟨hstart.congr rfl, hkeeps.trans (.of_eq rfl rfl rfl)⟩

/-! ## The machine -/

structure Valid (s : Machine) : Prop where
  tally : Tally s.ch
  pbs : ∀ pb ∈ s.pbs, pb.identifier ≤ s.ch.identifier ∧ (pb.identifier = s.ch.identifier →
      pb.identifier ∈ s.spent ∨ (pb.asked = s.ch.fetched ∧ s.ch.phase = ioPhase pb.input))

theorem ioPhase_moves (input : Bool) : (ioPhase input).Moves := by
  cases input
  · exact .inr rfl
  · exact .inl rfl

section Valid

variable (h : Valid s)

include h

theorem Valid.keep (htally : Tally t.ch) (hkeeps : Keeps s.ch t.ch)
    (hpbs : t.pbs = s.pbs) (hspent : t.spent = s.spent) : Valid t := by
  refine ⟨htally, fun pb hpb => ?_⟩
  rw [hpbs] at hpb
  rw [hspent]
  obtain ⟨hle, hcur⟩ := h.pbs pb hpb
  rcases hkeeps with hlt | ⟨hid, hsame⟩
  · exact ⟨hle.trans hlt.le, fun heq => absurd (heq ▸ hle) (not_le.mpr hlt)⟩
  · rw [hid]
    refine ⟨hle, fun heq => (hcur heq).imp_right fun ⟨hasked, hphase⟩ => ?_⟩
    obtain ⟨hphase', hfetched⟩ := hsame (hphase ▸ ioPhase_moves _)
    exact ⟨hasked.trans hfetched.symm, hphase'.trans hphase⟩

theorem Valid.fill (input : Bool) (hphase : s.ch.phase = ioPhase input) : Valid (s.fill input) := by
  refine ⟨h.tally.congr rfl, fun pb hpb => ?_⟩
  rcases mem_cons.mp hpb with rfl | hpb
  · exact ⟨le_refl _, fun _ => .inr ⟨rfl, hphase⟩⟩
  · have hle := (h.pbs pb hpb).1
    exact ⟨Nat.le_succ_of_le hle, fun heq => absurd (heq ▸ hle) (Nat.not_succ_le_self _)⟩

theorem Valid.accepts (huse : Usable s pb) {input : Bool} (hacc : accepts s.ch pb input = true) :
    pb.identifier = s.ch.identifier ∧ pb.asked = s.ch.fetched := by
  obtain ⟨hpb, hwrap, hspent⟩ := huse
  obtain ⟨hle, hcur⟩ := h.pbs pb hpb
  have hmod : pb.identifier % 2 ^ 32 = s.ch.identifier % 2 ^ 32 := by
    unfold Dbdma.accepts at hacc
    rw [Bool.and_eq_true] at hacc
    exact beq_iff_eq.mp hacc.1
  have heq : pb.identifier = s.ch.identifier := by omega
  exact ⟨heq, ((hcur heq).resolve_left hspent).1⟩

theorem Valid.quiet (hq : Quiet s t) : Valid t := by
  have hrecord := hq.record
  simp only [Channel.record, Prod.mk.injEq] at hrecord
  obtain ⟨hidle, hphase, -, hfetched, hdeeds⟩ := hrecord
  refine h.keep (h.tally.congr ?_) (.of_eq hq.identifier hphase hfetched) hq.pbs hq.spent
  simp only [Channel.account, hidle, hphase, hfetched, hdeeds, hq.io]

theorem Valid.acked (hid : pb.identifier = s.ch.identifier) (hch : t.ch = s.ch.acknowledged d io)
    (htally : Tally t.ch) (hpbs : t.pbs = s.pbs) (hspent : t.spent = s.spent) : Valid (t.acked pb) := by
  have hid' : t.ch.identifier = s.ch.identifier := by
    rw [hch, Channel.acknowledged]
    split <;> rfl
  unfold Machine.acked
  split
  next hfin =>
    refine ⟨htally, fun pb' hpb' => ?_⟩
    have hpb' : pb' ∈ t.pbs := hpb'
    rw [hpbs] at hpb'
    refine ⟨hid' ▸ (h.pbs pb' hpb').1, fun heq => .inl ?_⟩
    have heq : pb'.identifier = t.ch.identifier := heq
    rw [heq, hid', ← hid]
    exact mem_cons_self
  next hfin =>
    refine h.keep htally ?_ hpbs hspent
    rw [hch, Channel.acknowledged] at hfin ⊢
    split at hfin
    · exact absurd rfl hfin
    next hleft =>
      rw [if_neg hleft]
      exact .of_eq rfl rfl rfl

theorem valid_step (hfair : Fair s a) (hstep : step m s a = some t) : Valid t := by
  cases step_cases hstep with
  | quiet hq => exact h.quiet hq
  | control v bits =>
    have hnew : Tally { s.ch with status := newStatus s.ch.status v bits } := h.tally.congr rfl
    obtain ⟨htally, hkeeps⟩ := tally_controlWrite (m := m) hnew s.mem (maskOf v) hfair
    exact h.keep htally (Keeps.trans (.of_eq rfl rfl rfl) hkeeps) rfl rfl
  | fill input holder hphase =>
    have hheld : Valid { s with holder := holder } := h.quiet (.of_ch rfl rfl rfl)
    exact hheld.fill input hphase
  | writeAck pb buf hacc =>
    obtain ⟨hid, hasked⟩ := h.accepts hfair hacc
    exact h.acked hid rfl (tally_writeAck h.tally (accepts_phase hacc) hasked s.mem buf) rfl rfl
  | readAck pb len hacc =>
    obtain ⟨hid, hasked⟩ := h.accepts hfair hacc
    exact h.acked hid rfl (tally_readAck h.tally (accepts_phase hacc) hasked len) rfl rfl
  | resume i val u => exact h.keep (tally_accessed h.tally _ _ _ _) (keeps_accessed ..) rfl rfl
  | prepare hphase =>
    have hbusy : s.ch.phase ≠ .idling ∧ ¬ s.ch.phase.Moves := by rw [hphase]; decide
    exact h.keep ((tally_prepareCmd h.tally).2 hbusy.1) (keeps_prepareCmd hbusy.2) rfl rfl
  | start hphase hch =>
    subst hch
    obtain ⟨htally, hkeeps⟩ := tally_startCmd (m := m) h.tally hphase (hfair.2 hphase)
    exact h.keep htally hkeeps rfl rfl
  | finish hphase hfin =>
    obtain ⟨htally, hkeeps⟩ := tally_finishCmd h.tally hphase (hfair.1 hphase) hfin
    exact h.keep htally hkeeps rfl rfl

end Valid

theorem valid_allocated (mem : Mem) : Valid (allocated mem) where
  tally :=
    { idle := fun _ => rfl
      bound := fun _ hd => nomatch hd
      io := fun _ _ hmem => nomatch hmem
      le := le_refl _
      started := fun hmoves => absurd hmoves (show ¬ Phase.idling.Moves by decide)
      fresh := fun hf => nomatch hf
      faithful := trivial }
  pbs _ hpb := nomatch hpb

theorem valid_run (mem : Mem)
    (hrun : ReflTransGen (Steps m Fair) (allocated mem) s) : Valid s := by
  induction hrun with
  | refl => exact valid_allocated mem
  | tail _ hstep ih =>
    obtain ⟨a, hfair, hstep⟩ := hstep
    exact valid_step ih hfair hstep

instance (s : Machine) (pb : Pb) : Decidable (Usable s pb) := inferInstanceAs (Decidable (_ ∧ _ ∧ _))

instance (ch : Channel) (mem : Mem) : Decidable (ch.Agrees mem) := inferInstanceAs (Decidable (_ = _))

instance (status mask : BitVec 16) : Decidable (Stamps status mask) := inferInstanceAs (Decidable (_ ∨ _ ∧ _))

instance (s : Machine) : (a : Action) → Decidable (Fair s a)
  | .control _ _ => inferInstanceAs (Decidable (_ → _ → _))
  | .setCmdptr _ => .isTrue trivial
  | .setSel _ _ => .isTrue trivial
  | .request _ => .isTrue trivial
  | .writeAck pb _ => inferInstanceAs (Decidable (Usable s pb))
  | .readAck pb _ => inferInstanceAs (Decidable (Usable s pb))
  | .sbitsChanged _ => .isTrue trivial
  | .guest _ => .isTrue trivial
  | .iterate => inferInstanceAs (Decidable ((_ → _) ∧ (_ → _ → _ ∧ _)))
  | .resume _ _ => .isTrue trivial

def Filled (s : Machine) : Action → Bool
  | .writeAck pb _ => s.pbs.contains pb
  | .readAck pb _ => s.pbs.contains pb
  | _ => true

def replay (m : Memory) (ok : Machine → Action → Bool) (s : Machine) : List Action → Option Machine
  | [] => some s
  | a :: as => if ok s a then (step m s a).bind fun t => replay m ok t as else none

theorem replay_reaches {ok : Machine → Action → Bool} {as : List Action}
    (hreplay : replay m ok s as = some t) :
    ReflTransGen (Steps m fun s a => ok s a = true) s t := by
  induction as generalizing s with
  | nil =>
    obtain rfl := Option.some.inj hreplay
    exact .refl
  | cons a as ih =>
    rw [replay] at hreplay
    split at hreplay
    next hok =>
      obtain ⟨u, hstep, hrest⟩ := Option.bind_eq_some_iff.mp hreplay
      exact .head ⟨a, hok, hstep⟩ (ih hrest)
    next => cases hreplay

def twoInputs : Mem := fun a =>
  [4, 0, 0, 0x20, 0, 1, 0, 0, 0, 0, 0, 0, 0, 0, 0, 0,
    4, 0, 0, 0x30, 0, 2, 0, 0].getD (a - 0x30000000).toNat 0

def firstPb : Pb := ⟨⟨4, 0, 0, false, 0x30000100⟩, 1, true, 1⟩

def firstInput : List Action :=
  [.control startWord 0, .iterate, .iterate, .iterate, .request true, .writeAck firstPb [1, 2, 3],
    .writeAck firstPb [4]]

end MacOnLinux.Dbdma
