import MacOnLinux.Disk.Ring

/-! # No lost wakeup

The driver kicks the engine only if the last interrupt told that the engine does not run.
-/

namespace MacOnLinux.Ablk

open Engine Ablk.System Bool Relation

variable {c : Config} {a : Answer} {b b' : Engine} {s s' : System}

/-! ## The token of the thread -/

def Pc.working : Pc → Bool
  | .blocked | .raise => false
  | _ => true

def DrvPc.writing : DrvPc → Bool
  | .kickWrite _ => true
  | _ => false

structure TokenInv (b : Engine) (pc : DrvPc) : Prop where
  token : b.pc.working.toNat + b.pipe + pc.writing.toNat = b.active.toNat
  kick : ∀ k, pc = .kickActive k → b.active = false

structure Engine.Works (b b' : Engine) : Prop where
  working : b'.pc.working = true
  active : b'.active = b.active
  pipe : b'.pipe = b.pipe
  line : b.line = true → b'.line = true

theorem io_works (hpc : b.pc = .io) : b.Works (b.io a) := by
  unfold io
  split
  · exact ⟨by simp [hpc, Pc.working], rfl, rfl, id⟩
  split
  · exact ⟨rfl, rfl, rfl, id⟩
  split
  · exact ⟨by simp [called, hpc, Pc.working], rfl, rfl, id⟩
  split
  · exact ⟨rfl, rfl, rfl, id⟩
  · exact ⟨by simp [called, hpc, Pc.working], rfl, rfl, id⟩

theorem handle_works {f : Word} : b.Works (b.handle c f a) := by
  unfold handle
  split
  · unfold addBuf
    split <;> exact ⟨rfl, rfl, rfl, id⟩
  split
  · exact ⟨rfl, rfl, rfl, id⟩
  split
  · unfold request
    cases a.seekOk <;> exact ⟨rfl, rfl, rfl, id⟩
  split
  · exact ⟨rfl, rfl, rfl, fun hline => by simp [Engine.control, hline]⟩
  · exact ⟨rfl, rfl, rfl, id⟩

theorem step_works (hw : b.pc.working = true) (hpc : b.pc ≠ .clearActive) : b.Works (b.step c a) := by
  unfold step
  cases hpc' : b.pc with
  | blocked | raise => simp [hpc', Pc.working] at hw
  | clearActive => exact absurd hpc' hpc
  | gather =>
    refine ⟨?_, rfl, rfl, id⟩
    cases hf : b.flushes <;> simp [Pc.working]
  | io => exact io_works hpc'
  | notify => exact ⟨rfl, rfl, rfl, fun hline => by simp [hline]⟩
  | branch =>
    refine ⟨?_, rfl, rfl, id⟩
    cases hp : b.proceed <;> simp [Pc.working]
  | process f => exact handle_works
  | test | clearFlags | clearProceed | fetch | count | fail => exact ⟨rfl, rfl, rfl, id⟩

theorem tokenInv_engine {pc : DrvPc} (h : TokenInv b pc) : TokenInv (b.step c a) pc := by
  obtain ⟨htoken, hkick⟩ := h
  by_cases hw : b.pc.working = true
  · by_cases hpc : b.pc = .clearActive
    · have hact : b.active = true := by
        cases hact : b.active
        · simp [hw, hact] at htoken
        · rfl
      have hstep : b.step c a = { b with active := false, pc := .raise } := by simp only [step, hpc]
      rw [hstep]
      refine ⟨?_, fun _ _ => rfl⟩
      rw [hw, hact] at htoken
      simp only [Pc.working] at htoken ⊢
      omega
    · have hs : b.Works (b.step c a) := step_works hw hpc
      refine ⟨?_, fun k hk => hs.active.trans (hkick k hk)⟩
      rw [hs.working, hs.pipe, hs.active, ← hw]
      exact htoken
  · unfold step
    cases hpc : b.pc with
    | blocked =>
      by_cases hpipe : b.pipe = 0
      · simp only [hpipe]
        exact ⟨htoken, hkick⟩
      · simp only [hpipe, if_false]
        refine ⟨?_, hkick⟩
        simp only [hpc, Pc.working, toNat_true, toNat_false] at htoken ⊢
        omega
    | raise =>
      refine ⟨?_, hkick⟩
      simp only [hpc] at htoken ⊢
      exact htoken
    | _ => simp [hpc, Pc.working] at hw

theorem afterProcess_writing (ok : Bool) (k : Caller) : (afterProcess ok k).writing = false := by
  cases k <;> cases ok <;> rfl

theorem afterKick_writing (k : Kicker) : (afterKick k).writing = false := by
  cases k with
  | process ok k => exact afterProcess_writing ok k
  | ack => rfl

theorem afterKick_ne_kickActive {k k' : Kicker} : afterKick k ≠ .kickActive k' := by
  cases k with
  | process ok k => cases k <;> cases ok <;> simp [afterKick, afterProcess]
  | ack => simp [afterKick]

theorem tokenInv_goto {pc pc' : DrvPc} (h : TokenInv b pc) (hpc : b'.pc = b.pc) (hpipe : b'.pipe = b.pipe)
    (hact : b'.active = b.active) (hw : pc.writing = false) (hw' : pc'.writing = false)
    (hkick : ∀ k, pc' ≠ .kickActive k) : TokenInv b' pc' := by
  refine ⟨?_, fun k hk => absurd hk (hkick k)⟩
  rw [hpc, hpipe, hact, hw', ← hw]
  exact h.token

theorem tokenInv_driver (hd : s.Drives s') (h : TokenInv s.eng s.drv.pc) : TokenInv s'.eng s'.drv.pc := by
  cases hd with
  | idle | complete => exact h
  | @runs ok k hpc =>
    rw [hpc] at h
    exact tokenInv_goto h rfl rfl rfl rfl (afterKick_writing (.process ok k))
      fun _ => afterKick_ne_kickActive (k := .process ok k)
  | kicked hpc =>
    rw [hpc] at h
    exact tokenInv_goto h rfl rfl rfl rfl (afterKick_writing _) fun _ => afterKick_ne_kickActive
  | kick hpc hact =>
    rw [hpc] at h
    exact ⟨h.token, fun _ _ => hact⟩
  | kickActive hpc =>
    rw [hpc] at h
    have htoken := h.token
    rw [h.kick _ rfl] at htoken
    refine ⟨?_, by rintro _ ⟨⟩⟩
    exact congrArg (· + 1) htoken
  | @kickWrite k hpc =>
    rw [hpc] at h
    refine ⟨?_, fun _ hk => absurd hk afterKick_ne_kickActive⟩
    have htoken := h.token
    show _ + (s.eng.pipe + 1) + (afterKick k).writing.toNat = _
    rw [afterKick_writing]
    exact htoken
  | full hpc | free hpc | fill hpc | startMore hpc | startLast hpc | stands hpc | restart hpc | noRestart hpc
  | ackCount hpc | ackActive hpc | completed hpc | requested hpc | request hpc =>
    rw [hpc] at h
    exact tokenInv_goto h rfl rfl rfl rfl rfl (by rintro _ ⟨⟩)

theorem tokenInv_step (hs : System.Step c s s') (h : TokenInv s.eng s.drv.pc) : TokenInv s'.eng s'.drv.pc := by
  cases hs with
  | engine a => exact tokenInv_engine h
  | driver => exact tokenInv_driver s.drives h
  | submit cmd unit block nblks buffer hidle =>
    cases hq : s.drv.reqQueue with
    | nil =>
      simp only [receiveCmd, hq]
      exact tokenInv_goto h rfl rfl rfl (by rw [hidle]; rfl) rfl (by rintro _ ⟨⟩)
    | cons r rs =>
      simp only [receiveCmd, hq]
      exact h
  | interrupt hidle =>
    unfold handleIrq
    split
    · exact tokenInv_goto h rfl rfl rfl (by rw [hidle]; rfl) rfl (by rintro _ ⟨⟩)
    · exact h
  | event => exact ⟨h.token, h.kick⟩

/-! ## Wakeups -/

/-- The thread works, or the interrupt for the end of its work is still to be taken. -/
def Engine.Stirred (b : Engine) : Prop := b.active = true ∨ b.line = true ∨ b.pc = .raise

theorem line_step (h : b.line = true) : (b.step c a).line = true := by
  by_cases hw : b.pc.working = true
  · by_cases hpc : b.pc = .clearActive
    · simp only [step, hpc]
      exact h
    · exact (step_works hw hpc).line h
  · unfold step
    cases hpc : b.pc with
    | blocked => by_cases hpipe : b.pipe = 0 <;> simp [hpipe, h]
    | raise => rfl
    | _ => simp [hpc, Pc.working] at hw

theorem stirred_step (h : b.Stirred) : (b.step c a).Stirred := by
  obtain hact | hline | hraise := h
  · by_cases hpc : b.pc = .clearActive
    · right; right
      simp [step, hpc]
    by_cases hw : b.pc.working = true
    · left
      rw [(step_works hw hpc).active, hact]
    unfold step
    cases hpc' : b.pc with
    | blocked =>
      left
      by_cases hpipe : b.pipe = 0 <;> simp [hpipe, hact]
    | raise => exact .inr (.inl rfl)
    | _ => simp [hpc', Pc.working] at hw
  · exact .inr (.inl (line_step hline))
  · right; left
    simp [step, hraise]

theorem TokenInv.active {pc : DrvPc} (h : TokenInv b pc)
    (hb : b.pc.working = true ∨ b.pipe ≠ 0 ∨ pc.writing = true) : b.active = true := by
  have htoken := h.token
  cases hact : b.active with
  | true => rfl
  | false =>
    rw [hact, toNat_false] at htoken
    obtain hw | hpipe | hw := hb
    · rw [hw, toNat_true] at htoken
      omega
    · omega
    · rw [hw, toNat_true] at htoken
      omega

theorem still_step {pc : DrvPc} (hx : ¬ b.Stirred) (h : TokenInv b pc) : b.step c a = b := by
  have hact : ¬ b.active = true := fun hact => hx (.inl hact)
  have hw : ¬ b.pc.working = true := fun hw => hact (h.active (.inl hw))
  have hpipe : b.pipe = 0 := by
    by_contra hpipe
    exact hact (h.active (.inr (.inl hpipe)))
  unfold step
  cases hpc : b.pc with
  | blocked => simp [hpipe]
  | raise => exact absurd (.inr (.inr hpc)) hx
  | _ => simp [hpc, Pc.working] at hw

def DrvPc.Asking : DrvPc → Prop
  | .ackTest | .ackCount | .ackActive _ | .kickTest _ | .kickActive _ => True
  | _ => False

def Driver.Awake (d : Driver) : Prop :=
  match d.pc with
  | .ackTest | .kickTest _ | .kickActive _ => True
  | .check _ _ | .fill _ _ | .start _ _ _ | .started _ _ => d.running = false
  | _ => False

structure WakeInv (b : Engine) (d : Driver) : Prop where
  waiting : b.running = true → b.taken < d.posted → b.Stirred ∨ d.Awake
  thought : d.running = true → b.Stirred ∨ d.pc.Asking

theorem wakeInv_stirred {d : Driver} (h : b.Stirred) : WakeInv b d := ⟨fun _ _ => .inl h, fun _ => .inl h⟩

theorem wakeInv_engine {d : Driver} (ht : TokenInv b d.pc) (h : WakeInv b d) : WakeInv (b.step c a) d := by
  by_cases hx : b.Stirred
  · exact wakeInv_stirred (stirred_step hx)
  · rw [still_step hx ht]
    exact h

theorem drives_stirred (hd : s.Drives s') (h : s.eng.Stirred) : s'.eng.Stirred := by
  cases hd with
  | kickActive => exact .inl rfl
  | _ => exact h

/-- The head waits for a descriptor, if the thread sleeps and nobody restarts it. -/
theorem RingInv.waits (hr : RingInv s.eng s.drv) (hold : s.eng.oldest = s.eng.taken) :
    s.eng.cur.proceed ≠ 0 ↔ s.eng.taken < s.drv.posted := by
  have hle := hr.posted_le
  have hpos := hr.oldest
  rw [cur, hr.head]
  exact hr.proceed _ (Nat.le_of_eq hold) (by omega)

theorem oldest_eq (h : b.pc.working = false) : b.oldest = b.taken := by
  unfold oldest
  cases hpc : b.pc with
  | clearProceed | fetch => simp [hpc, Pc.working] at h
  | _ => rfl

theorem wakeInv_driver (hd : s.Drives s') (hr : RingInv s.eng s.drv) (ht : TokenInv s.eng s.drv.pc)
    (h : WakeInv s.eng s.drv) : WakeInv s'.eng s'.drv := by
  by_cases hx : s.eng.Stirred
  · exact wakeInv_stirred (drives_stirred hd hx)
  have hact : ¬ s.eng.active = true := fun hact => hx (.inl hact)
  have hwaiting (hrun : s.eng.running = true) (hlt : s.eng.taken < s.drv.posted) : s.drv.Awake :=
    (h.waiting hrun hlt).resolve_left hx
  have hthought (hrun : s.drv.running = true) : s.drv.pc.Asking := (h.thought hrun).resolve_left hx
  unfold Driver.Awake at hwaiting
  cases hd with
  | idle => exact h
  | full hpc | free hpc | fill hpc | startMore hpc | startLast hpc =>
    rw [hpc] at hthought
    have hrun : s.drv.running = false := eq_false_iff.mpr hthought
    exact ⟨fun _ _ => .inr hrun, fun hrun' => (hthought hrun').elim⟩
  | runs hpc hrun =>
    rw [hpc] at hthought
    exact (hthought hrun).elim
  | kicked _ hact' => exact absurd hact' hact
  | stands | kick | restart => exact ⟨fun _ _ => .inr trivial, fun _ => .inr trivial⟩
  | kickActive => exact wakeInv_stirred (.inl rfl)
  | kickWrite hpc =>
    rw [hpc] at ht
    exact absurd (ht.active (.inr (.inr rfl))) hact
  | noRestart hpc hcond =>
    refine ⟨fun hrun hlt => ?_, fun _ => .inr trivial⟩
    have hw : s.eng.pc.working = false := eq_false_iff.mpr fun hw => hact (ht.active (.inl hw))
    have hproc : s.eng.cur.proceed ≠ 0 := (hr.waits (oldest_eq hw)).mpr hlt
    change s.eng.running = true at hrun
    simp [hact, hrun] at hcond
    exact absurd hcond hproc
  | ackCount hpc =>
    rw [hpc] at hwaiting
    exact ⟨fun hrun hlt => (hwaiting hrun hlt).elim, fun _ => .inr trivial⟩
  | ackActive hpc =>
    rw [hpc] at hwaiting
    exact ⟨fun hrun hlt => (hwaiting hrun hlt).elim, fun hrun => .inl (.inl hrun)⟩
  | completed hpc | complete hpc | requested hpc | request hpc =>
    rw [hpc] at hwaiting hthought
    exact ⟨fun hrun hlt => (hwaiting hrun hlt).elim, fun hrun => (hthought hrun).elim⟩

theorem wakeInv_step (hs : System.Step c s s') (hr : RingInv s.eng s.drv) (ht : TokenInv s.eng s.drv.pc)
    (h : WakeInv s.eng s.drv) : WakeInv s'.eng s'.drv := by
  cases hs with
  | engine a => exact wakeInv_engine ht h
  | driver => exact wakeInv_driver s.drives hr ht h
  | submit cmd unit block nblks buffer hidle =>
    have hthought (hrun : s.drv.running = true) : s.eng.Stirred :=
      (h.thought hrun).resolve_right (by simp [hidle, DrvPc.Asking])
    have hwaiting (hrun : s.eng.running = true) (hlt : s.eng.taken < s.drv.posted) : s.eng.Stirred :=
      (h.waiting hrun hlt).resolve_right (by simp [hidle, Driver.Awake])
    cases hq : s.drv.reqQueue <;> simp only [receiveCmd, hq] <;>
      exact ⟨fun hrun hlt => .inl (hwaiting hrun hlt), fun hrun => .inl (hthought hrun)⟩
  | interrupt hidle =>
    unfold handleIrq
    split
    · exact ⟨fun _ _ => .inr trivial, fun _ => .inr trivial⟩
    · exact h
  | event => exact wakeInv_stirred (.inr (.inl rfl))

structure Inv (s : System) : Prop where
  ring : RingInv s.eng s.drv
  token : TokenInv s.eng s.drv.pc
  wake : WakeInv s.eng s.drv

theorem inv_reachable (h : Reachable c s) : Inv s := by
  induction h with
  | refl => exact ⟨ringInv_init, ⟨rfl, nofun⟩, ⟨nofun, nofun⟩⟩
  | tail _ hs ih => exact ⟨ringInv_step hs ih.ring, tokenInv_step hs ih.token, wakeInv_step hs ih.ring ih.token ih.wake⟩

def System.Quiet (s : System) : Prop :=
  s.eng.pc = .blocked ∧ s.eng.pipe = 0 ∧ s.eng.line = false ∧ s.drv.pc = .idle

theorem Inv.still (h : Inv s) (hq : s.Quiet) : ¬ s.eng.Stirred := by
  obtain ⟨hpc, hpipe, hline, hidle⟩ := hq
  have htoken := h.token.token
  rw [hpc, hidle, hpipe] at htoken
  have hact : s.eng.active = false := by
    cases hact : s.eng.active with
    | false => rfl
    | true => simp [hact, Pc.working, DrvPc.writing] at htoken
  simp [Engine.Stirred, hact, hline, hpc]

/-- If the thread and the driver both wait, nothing is posted behind the head. -/
theorem quiet_head_clear (h : Reachable c s) (hrun : s.eng.running = true) (hpc : s.eng.pc = .blocked)
    (hpipe : s.eng.pipe = 0) (hline : s.eng.line = false) (hidle : s.drv.pc = .idle) : s.eng.cur.proceed = 0 := by
  have hinv := inv_reachable h
  have hx := hinv.still ⟨hpc, hpipe, hline, hidle⟩
  by_contra hproc
  have hlt := (hinv.ring.waits (oldest_eq (by rw [hpc]; rfl))).mp hproc
  have hawake := (hinv.wake.waiting hrun hlt).resolve_left hx
  simp [Driver.Awake, hidle] at hawake

/-! ## A run -/

def onlyUnits (n : Nat) : Config := ⟨⟨⟨0, 0, 0⟩, ⟨0, 0, 0⟩⟩, n, fun _ => 0, fun _ => true⟩

def System.drive : Nat → System → System
  | 0, s => s
  | n + 1, s => s.driverStep.drive n

def System.work (c : Config) : Nat → System → System
  | 0, s => s
  | n + 1, s => { s with eng := s.eng.step c ⟨0, false, true⟩ }.work c n

def System.ejectTwice (c : Config) (worked handled : Nat) : System :=
  let once := System.init.receiveCmd .eject 0 0 0 none |>.drive 7
  let twice := once.receiveCmd .eject 0 0 0 none |>.drive 4
  twice.work c worked |>.handleIrq |>.drive handled

theorem reachable_drive (h : Reachable c s) (n : Nat) : Reachable c (s.drive n) := by
  induction n generalizing s with
  | zero => exact h
  | succ n ih => exact ih (h.tail (.driver s))

theorem work_steps (c : Config) (s : System) (n : Nat) : ReflTransGen (Step c) s (s.work c n) := by
  induction n generalizing s with
  | zero => exact .refl
  | succ n ih => exact .head (.engine s _) (ih _)

theorem reachable_work (h : Reachable c s) (n : Nat) : Reachable c (s.work c n) := h.trans (work_steps c s n)

theorem work_drv (n : Nat) : (s.work c n).drv = s.drv := by
  induction n generalizing s with
  | zero => rfl
  | succ n ih => exact ih

theorem reachable_ejectTwice (worked handled : Nat) : Reachable c (ejectTwice c worked handled) := by
  have hidle : init.drv.pc = .idle := rfl
  have honce : Reachable c (init.receiveCmd .eject 0 0 0 none |>.drive 7) :=
    reachable_drive (.single (.submit _ _ _ _ _ _ hidle)) 7
  have htwice := reachable_work (reachable_drive (honce.tail (.submit _ .eject 0 0 0 none rfl)) 4) worked
  exact reachable_drive (htwice.tail (.interrupt _ (by rw [work_drv]; rfl))) handled

/-- The second of two requests for a unit that does not exist stays behind the head. -/
theorem stopped_head_posted :
    let s := System.ejectTwice (onlyUnits 0) 11 5
    Reachable (onlyUnits 0) s ∧ s.eng.pc = .blocked ∧ s.eng.pipe = 0 ∧ s.eng.line = false ∧ s.drv.pc = .idle ∧
      s.eng.cur.proceed = 1 :=
  ⟨reachable_ejectTwice 11 5, rfl, rfl, rfl, rfl, by decide⟩

theorem quiet_head_clear_eject :
    let s := System.ejectTwice (onlyUnits 1) 22 7
    s.eng.taken = 2 ∧ s.drv.posted = 2 ∧ s.eng.cur.proceed = 0 :=
  ⟨rfl, rfl, quiet_head_clear (reachable_ejectTwice 22 7) rfl rfl rfl rfl rfl⟩

/-! ## What the driver and the engine leave to each other -/

/-- At most one byte is in the pipe, and none while the thread works. -/
theorem kicks_once (h : Reachable c s) :
    s.eng.pipe ≤ 1 ∧ (s.eng.pc.working = true → s.eng.pipe = 0) ∧
      (s.eng.active = true ↔ s.eng.pc.working = true ∨ s.eng.pipe = 1 ∨ s.drv.pc.writing = true) := by
  have htoken := (inv_reachable h).token.token
  have hactive := s.eng.active.toNat_le
  refine ⟨by omega, fun hw => ?_, ?_⟩
  · rw [hw, Bool.toNat_true] at htoken
    omega
  · simp only [← Bool.toNat_eq_one]
    omega

theorem kicks_once_eject : let s := ejectTwice (onlyUnits 1) 0 0; s.eng.pipe = 1 ∧ s.eng.pipe ≤ 1 :=
  ⟨rfl, (kicks_once (reachable_ejectTwice 0 0)).1⟩

/-- Until the engine releases a descriptor, it reads there what the driver wrote. -/
theorem posted_unchanged {t : System} {j : Nat} (h : Reachable c s) (hrun : ReflTransGen (Step c) s t)
    (hlen : j ≤ s.drv.posts.length) (hj : t.eng.oldest ≤ j) :
    (t.eng.ring (slot j)).request = (s.eng.ring (slot j)).request := by
  suffices hkept : Holds j s t from (hkept.2 hj).2
  induction hrun using ReflTransGen.head_induction_on with
  | refl => exact ⟨hlen, fun hj => ⟨hj, rfl⟩⟩
  | head hs _ ih =>
    obtain ⟨hlen', hstep⟩ := holds_step hs (inv_reachable h).ring hlen
    obtain ⟨hend, hrest⟩ := ih (h.tail hs) hlen'
    refine ⟨hend, fun hj => ?_⟩
    obtain ⟨hold, hreq⟩ := hrest hj
    exact ⟨(hstep hold).1, hreq.trans (hstep hold).2⟩

theorem posted_unchanged_eject : let s := ejectTwice (onlyUnits 1) 0 0; let t := s.work (onlyUnits 1) 12
    t.eng.taken = 1 ∧ (s.eng.ring (slot 2)).request = (0x204, 0, 0) ∧
      (t.eng.ring (slot 2)).request = (s.eng.ring (slot 2)).request :=
  ⟨rfl, rfl, posted_unchanged (reachable_ejectTwice 0 0) (work_steps _ _ 12) (by decide) (by decide)⟩

end MacOnLinux.Ablk
