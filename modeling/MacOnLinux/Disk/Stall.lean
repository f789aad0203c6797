import MacOnLinux.Disk.Ablk
import Mathlib.Data.FinEnum
import Mathlib.Data.Set.Card
import Mathlib.Logic.Function.Iterate
import Mathlib.Logic.Relation

/-! # When the block engine comes to rest -/

namespace MacOnLinux.Ablk

open Function BitVec Engine Relation

variable {c : Config} {e : BackEnd} {b b' : Engine} {vec : List Iovec} {r : Nat}

/-! ## Vectors -/

theorem total_append (vec vec' : List Iovec) : total (vec ++ vec') = total vec + total vec' := by
  induction vec with
  | nil => simp [total]
  | cons v vec ih => simp [total, ih, add_assoc]

@[simp] theorem length_advance (r : Nat) (vec : List Iovec) : (advance r vec).length = vec.length := by
  induction vec generalizing r with
  | nil => rfl
  | cons v vec ih => simp [advance, ih]

theorem sub_min_toNat (len : Word) (r : Nat) :
    (len - BitVec.ofNat 32 (min len.toNat r)).toNat = len.toNat - min len.toNat r := by
  have hs : min len.toNat r ≤ len.toNat := min_le_left ..
  rw [toNat_sub_of_le]
  · rw [toNat_ofNat, Nat.mod_eq_of_lt (by omega)]
  · rw [le_def, toNat_ofNat, Nat.mod_eq_of_lt (by omega)]
    exact hs

theorem total_advance (r : Nat) (vec : List Iovec) : total (advance r vec) = total vec - r := by
  induction vec generalizing r with
  | nil => simp [advance, total]
  | cons v vec ih =>
    simp only [advance, total, sub_min_toNat, ih]
    omega

/-! ## Runs -/

def Moves (c : Config) (e : BackEnd) (b b' : Engine) : Prop := b.pc ≠ .blocked ∧ b' = e.step c b

abbrev Leads (c : Config) (e : BackEnd) : Engine → Engine → Prop := ReflTransGen (Moves c e)

def Halts (c : Config) (e : BackEnd) (b : Engine) : Prop := ∃ n b', doWork c e n b = some b'

theorem leads_step (h : b.pc ≠ .blocked) : Leads c e b (e.step c b) := .single ⟨h, rfl⟩

theorem leads_of_doWork {n : Nat} (h : doWork c e n b = some b') :
    Leads c e b b' ∧ b'.pc = .blocked := by
  induction n generalizing b with
  | zero =>
    simp only [doWork] at h
    split at h
    · cases h; exact ⟨.refl, by assumption⟩
    · cases h
  | succ n ih =>
    simp only [doWork] at h
    split at h
    · cases h; exact ⟨.refl, by assumption⟩
    · exact ⟨.head ⟨by assumption, rfl⟩ (ih h).1, (ih h).2⟩

theorem doWork_leads {n : Nat} {b'' : Engine} (h : Leads c e b b') (hn : doWork c e n b' = some b'') :
    ∃ n, doWork c e n b = some b'' := by
  induction h using ReflTransGen.head_induction_on with
  | refl => exact ⟨n, hn⟩
  | head hm _ ih =>
    obtain ⟨n, hn⟩ := ih
    exact ⟨n + 1, by rw [doWork, if_neg hm.1, ← hm.2]; exact hn⟩

theorem doWork_of_leads (h : Leads c e b b') (hb : b'.pc = .blocked) : ∃ n, doWork c e n b = some b' :=
  doWork_leads (n := 0) h (by simp [doWork, hb])

theorem halts_blocked (h : b.pc = .blocked) : Halts c e b := ⟨0, b, by simp [doWork, h]⟩

theorem halts_of_leads (h : Leads c e b b') (hb : Halts c e b') : Halts c e b := by
  obtain ⟨n, b'', hn⟩ := hb
  obtain ⟨m, hm⟩ := doWork_leads h hn
  exact ⟨m, b'', hm⟩

theorem halts_of_step (h : b.pc ≠ .blocked) (hb : Halts c e (e.step c b)) : Halts c e b :=
  halts_of_leads (leads_step h) hb

theorem halts_after (h : Leads c e b b') (hb : Halts c e b) : Halts c e b' := by
  induction h using ReflTransGen.head_induction_on with
  | refl => exact hb
  | head hm _ ih =>
    obtain ⟨n, b'', hn⟩ := hb
    cases n with
    | zero => simp [doWork, hm.1] at hn
    | succ n =>
      rw [doWork, if_neg hm.1, ← hm.2] at hn
      exact ih ⟨n, b'', hn⟩

theorem halts_raise (h : b.pc = .raise) : Halts c e b :=
  halts_of_step (by simp [h]) (halts_blocked (by simp [BackEnd.step, step, h]))

theorem halts_clearActive (h : b.pc = .clearActive) : Halts c e b :=
  halts_of_step (by simp [h]) (halts_raise (by simp [BackEnd.step, step, h]))

theorem halts_fail (h : b.pc = .fail) : Halts c e b :=
  halts_of_step (by simp [h]) (halts_clearActive (by simp [BackEnd.step, step, h]))

/-! ## The transfer loop -/

def Reply.Idle : Reply → Prop
  | .moves n => n = 0
  | .fails _ eintr => eintr = true

def BackEnd.Fair (e : BackEnd) : Prop := ∀ k, ∃ j, k ≤ j ∧ ¬ (e.reply j).Idle

/-- `count` and the vectors agree, up to the width of an `int`. -/
def Engine.Counted (b : Engine) : Prop := b.bytesLeft = BitVec.ofNat 32 (total b.vec)

structure Engine.SameRing (b b' : Engine) : Prop where
  ring : b'.ring = b.ring
  head : b'.reqHead = b.reqHead
  mask : b'.ringMask = b.ringMask
  proceed : b'.proceed = b.proceed

theorem Engine.SameRing.trans {b'' : Engine} (h : b.SameRing b') (h' : b'.SameRing b'') : b.SameRing b'' :=
  ⟨h'.ring.trans h.ring, h'.head.trans h.head, h'.mask.trans h.mask, h'.proceed.trans h.proceed⟩

def Engine.Over (b : Engine) : Prop := b.pc = .fail ∨ b.pc = .notify

theorem ret_moves_toNat (n left : Nat) : ((Reply.moves n).ret left).toNat = min n (min left maxInt) := by
  have h : min n (min left maxInt) ≤ maxInt := le_trans (min_le_right ..) (min_le_right ..)
  exact Nat.mod_eq_of_lt (by simp only [maxInt] at h ⊢; omega)

theorem ret_moves_toInt (n left : Nat) : ((Reply.moves n).ret left).toInt = (min n (min left maxInt) : Nat) := by
  have h : min n (min left maxInt) ≤ maxInt := le_trans (min_le_right ..) (min_le_right ..)
  rw [toInt_eq_toNat_of_lt, ret_moves_toNat]
  rw [ret_moves_toNat]
  simp only [maxInt] at h ⊢
  omega

theorem step_io (hpc : b.pc = .io) : e.step c b = b.io (e.answer b) := by
  simp [BackEnd.step, step, hpc]

/-- A call that moves something, but not all that is left, makes the rest smaller. -/
theorem counted_advance {w : Word} (hc : b.Counted) (hw : w.toNat ≤ total b.vec) :
    b.bytesLeft - w = BitVec.ofNat 32 (total (advance w.toNat b.vec)) := by
  rw [total_advance, hc]
  apply eq_of_toNat_eq
  simp only [toNat_sub, toNat_ofNat]
  omega

theorem io_step (hpc : b.pc = .io) (hnull : b.iofunc ≠ .null) (hc : b.Counted) :
    let b' := e.step c b
    b.SameRing b' ∧ (b'.Over ∨ b'.pc = .io ∧ b'.iofunc = b.iofunc ∧ b'.Counted ∧ b'.calls = b.calls + 1 ∧
        (total b'.vec < total b.vec ∨ (e.reply b.calls).Idle ∧ total b'.vec = total b.vec)) := by
  intro b'
  have hb' : b' = b.io (e.answer b) := step_io hpc
  rw [io, if_neg hnull] at hb'
  have hover (h : b.ret (e.answer b) = b.bytesLeft) : b' = (b.called (e.answer b)).finished := by
    rw [hb', if_pos h]
  by_cases hd : b.iofunc = .dummy
  · rw [hover (by rw [ret, if_pos hd, hc])]
    exact ⟨⟨rfl, rfl, rfl, rfl⟩, .inl (.inr rfl)⟩
  have hret : b.ret (e.answer b) = (e.reply b.calls).ret (total b.vec) := by rw [ret, if_neg hd]; rfl
  have hcalls : (b.called (e.answer b)).calls = b.calls + 1 := by simp [called, hd]
  by_cases heq : b.ret (e.answer b) = b.bytesLeft
  · rw [hover heq]
    exact ⟨⟨rfl, rfl, rfl, rfl⟩, .inl (.inr rfl)⟩
  rw [if_neg heq, hret] at hb'
  rw [hret] at heq
  cases hrep : e.reply b.calls with
  | moves n =>
    have hn := ret_moves_toNat n (total b.vec)
    rw [hrep, ret_moves_toInt] at hb'
    rw [hrep] at heq
    by_cases hpos : 0 < min n (min (total b.vec) maxInt)
    · rw [if_pos (by omega)] at hb'
      rw [hb']
      refine ⟨⟨rfl, rfl, rfl, rfl⟩, .inr ⟨hpc, rfl, counted_advance hc (by omega), hcalls, .inl ?_⟩⟩
      rw [total_advance]
      omega
    rw [if_neg (by omega)] at hb'
    -- nothing was moved although something is left
    have hleft : total b.vec ≠ 0 := by
      intro h0
      apply heq
      rw [hc, h0]
      exact eq_of_toNat_eq (by rw [ret_moves_toNat]; simp)
    have hn0 : n = 0 := by simp only [maxInt] at hpos; omega
    have hret0 : (Reply.moves n).ret (total b.vec) = 0 := eq_of_toNat_eq (by rw [hn, hn0]; simp)
    rw [if_neg (by simp [hret0])] at hb'
    rw [hb']
    exact ⟨⟨rfl, rfl, rfl, rfl⟩, .inr ⟨hpc, rfl, hc, hcalls, .inr ⟨hn0, rfl⟩⟩⟩
  | fails w eintr =>
    rw [hrep] at hb'
    have hneg : w.val.toInt < 0 := w.property
    rw [if_neg (by simp only [Reply.ret]; omega)] at hb'
    split at hb'
    · rw [hb']
      exact ⟨⟨rfl, rfl, rfl, rfl⟩, .inl (.inl rfl)⟩
    rename_i hstay
    have hne0 : w.val ≠ 0 := by
      intro h0
      rw [h0] at hneg
      simp at hneg
    have heintr : eintr = true := by
      have hans : (e.answer b).eintr = eintr := by simp only [BackEnd.answer, hrep, Reply.eintr]
      simpa [hans] using not_and.mp hstay hne0
    rw [hb']
    exact ⟨⟨rfl, rfl, rfl, rfl⟩, .inr ⟨hpc, rfl, hc, hcalls, .inr ⟨heintr, rfl⟩⟩⟩

theorem io_over (hf : e.Fair) (hpc : b.pc = .io) (hnull : b.iofunc ≠ .null) (hc : b.Counted) :
    ∃ b', Leads c e b b' ∧ b.SameRing b' ∧ b'.Over := by
  -- the bytes that are left, then the calls until one that makes progress
  induction hn : total b.vec using Nat.strongRecOn generalizing b with
  | ind n ih =>
    obtain ⟨j, hj, hprog⟩ := hf b.calls
    induction hk : j - b.calls using Nat.strongRecOn generalizing b with
    | ind k ihk =>
      have hstep : Leads c e b (e.step c b) := leads_step (by simp [hpc])
      obtain ⟨hsame, hover | ⟨hpc', hfunc, hc', hcalls, hless | ⟨hidle, htotal⟩⟩⟩ :=
        io_step (c := c) (e := e) hpc hnull hc
      · exact ⟨_, hstep, hsame, hover⟩
      · obtain ⟨b', hl, hs, ho⟩ := ih _ (hn ▸ hless) hpc' (hfunc ▸ hnull) hc' rfl
        exact ⟨b', hstep.trans hl, hsame.trans hs, ho⟩
      · have hne : j ≠ b.calls := by
          rintro rfl
          exact hprog hidle
        obtain ⟨b', hl, hs, ho⟩ := ihk _ (by omega) hpc' (hfunc ▸ hnull) hc' (by rw [htotal, hn]) (by omega) rfl
        exact ⟨b', hstep.trans hl, hsame.trans hs, ho⟩

/-! ## The main loop -/

/-- The chain of `proceed` flags comes to an end. -/
def Engine.Ends (b : Engine) (n : Nat) : Prop := (b.ring ((nextInd b.ringMask)^[n] b.reqHead)).proceed = 0

/-- The descriptors that the engine may still leave. -/
def posted (ring : Word → Desc) : Set Word := { i | (ring i).proceed ≠ 0 }

def Engine.advanced (b : Engine) : Engine :=
  let ring := Function.update b.ring b.reqHead { b.cur with flags := 0, proceed := 0 }
  { b with ring := ring, reqHead := b.next, taken := b.taken + 1, pc := .process (ring b.next).flags }

/-- A slot that was left does not lead on when the ring comes round. -/
theorem posted_advanced (hp : b.cur.proceed ≠ 0) : (posted b.advanced.ring).ncard < (posted b.ring).ncard := by
  have heq : posted b.advanced.ring = posted b.ring \ {b.reqHead} := by
    ext i
    by_cases hi : i = b.reqHead
    · simp [posted, advanced, hi]
    · simp [posted, advanced, hi]
  rw [heq]
  exact Set.ncard_sdiff_singleton_lt_of_mem hp (Set.toFinite _)

theorem leads_to {b1 : Engine} (h : b.pc ≠ .blocked) (hs : e.step c b = b1) : Leads c e b b1 :=
  hs ▸ leads_step h

theorem branch_leads (hpc : b.pc = .branch) (hp : b.proceed = true) : Leads c e b b.advanced := by
  let b1 : Engine := { b with pc := .clearFlags }
  let b2 : Engine := { b1.setCur { b1.cur with flags := 0 } with pc := .clearProceed }
  let b3 : Engine := { b2.setCur { b2.cur with proceed := 0 } with pc := .fetch }
  have h1 : Leads c e b b1 := leads_to (by simp [hpc]) (by simp [BackEnd.step, step, hpc, hp, b1])
  have h2 : Leads c e b1 b2 := leads_to nofun rfl
  have h3 : Leads c e b2 b3 := leads_to nofun rfl
  have hring : b3.ring = update b.ring b.reqHead { b.cur with flags := 0, proceed := 0 } := by
    show update (update b.ring b.reqHead _) b.reqHead _ = _
    simp [b2, b1, setCur, cur]
  have h4 : Leads c e b3 b.advanced := by
    refine leads_to nofun ?_
    show { b3 with reqHead := b.next, taken := b.taken + 1, pc := .process (b3.ring b.next).flags } = _
    rw [hring]
    rfl
  exact h1.trans (h2.trans (h3.trans h4))

theorem counted_append {v : Iovec} (hc : b.Counted) :
    b.bytesLeft + v.len = BitVec.ofNat 32 (total (b.vec ++ [v])) := by
  rw [total_append, hc]
  apply eq_of_toNat_eq
  simp [total]

theorem process_leads {f : Word} (hpc : b.pc = .process f) (hc : b.Counted) :
    ∃ b', Leads c e b b' ∧ (b'.pc = .fail ∨ b'.pc = .test ∧ b'.Counted ∧ b'.ring = b.ring) := by
  have hstep : e.step c b = b.handle c f (e.answer b) := by simp [BackEnd.step, step, hpc]
  have h1 : Leads c e b (b.handle c f (e.answer b)) := leads_to (by simp [hpc]) hstep
  unfold handle at h1
  split at h1
  · unfold addBuf at h1
    split at h1
    · exact ⟨_, h1, .inr ⟨rfl, counted_append (v := ⟨_, b.cur.param⟩) hc, rfl⟩⟩
    · exact ⟨_, h1, .inl rfl⟩
  split at h1
  · exact ⟨_, h1, .inl rfl⟩
  split at h1
  · unfold request at h1
    cases hseek : (e.answer b).seekOk with
    | true =>
      rw [hseek] at h1
      exact ⟨_, h1.trans (leads_to nofun rfl), .inr ⟨rfl, hc, rfl⟩⟩
    | false =>
      rw [hseek] at h1
      exact ⟨_, h1, .inl rfl⟩
  split at h1
  · exact ⟨_, h1.trans (leads_to nofun rfl), .inr ⟨rfl, hc, rfl⟩⟩
  · exact ⟨_, h1, .inl rfl⟩

/-- The engine never calls NULL. -/
def Callable (c : Config) (e : BackEnd) (b : Engine) : Prop := ∀ b', Leads c e b b' → b'.pc = .io → b'.iofunc ≠ .null

theorem Callable.after (h : Callable c e b) (hl : Leads c e b b') : Callable c e b' :=
  fun b'' hl' => h b'' (hl.trans hl')

theorem gather_leads (hf : e.Fair) (hcall : Callable c e b) (hpc : b.pc = .gather) (hc : b.Counted) :
    ∃ b', Leads c e b b' ∧ b.SameRing b' ∧ (b'.pc = .fail ∨ b'.pc = .branch ∧ b'.Counted) := by
  have hstep : e.step c b = { b with pc := if b.flushes then .io else .branch } := by
    simp [BackEnd.step, step, hpc]
  have h1 := leads_to (c := c) (by simp [hpc]) hstep
  split at h1
  · obtain ⟨b2, h2, hsame, hover | hover⟩ :=
      io_over (c := c) (b := { b with pc := .io }) hf rfl (hcall _ h1 rfl) hc
    · exact ⟨b2, h1.trans h2, { hsame with }, .inl hover⟩
    let b3 : Engine :=
      { b2 with
        line := b2.line || (has b2.cur.flags raiseIrq && b2.proceed)
        vec := []
        bytesLeft := 0
        pc := .branch }
    have h3 : Leads c e b2 b3 := leads_to (by simp [hover]) (by simp only [BackEnd.step, step, hover, b3])
    exact ⟨b3, h1.trans (h2.trans h3), { hsame with }, .inr ⟨rfl, rfl⟩⟩
  · exact ⟨_, h1, ⟨rfl, rfl, rfl, rfl⟩, .inr ⟨rfl, hc⟩⟩

theorem halts_branch (hpc : b.pc = .branch) (hp : b.proceed = false) : Halts c e b :=
  halts_of_step (by simp [hpc]) (halts_clearActive (by simp [BackEnd.step, step, hpc, hp]))

theorem halts_test (hf : e.Fair) (hcall : Callable c e b) (hpc : b.pc = .test) (hc : b.Counted) : Halts c e b := by
  -- each round takes one descriptor, and there are finitely many
  induction hn : (posted b.ring).ncard using Nat.strongRecOn generalizing b with
  | ind n ih =>
    let b1 : Engine := { b with proceed := b.cur.proceed ≠ 0, pc := .gather }
    have h1 : Leads c e b b1 := leads_to (by simp [hpc]) (by simp [BackEnd.step, step, hpc, b1])
    obtain ⟨b2, h2, hsame, hfail | ⟨hbr, hc2⟩⟩ := gather_leads (c := c) (b := b1) hf (hcall.after h1) rfl hc
    · exact halts_of_leads (h1.trans h2) (halts_fail hfail)
    refine halts_of_leads (h1.trans h2) ?_
    cases hp : b2.proceed with
    | false => exact halts_branch hbr hp
    | true =>
      have h3 : Leads c e b2 b2.advanced := branch_leads hbr hp
      refine halts_of_leads h3 ?_
      obtain ⟨b4, h4, hfail | ⟨hpc4, hc4, hring⟩⟩ := process_leads (c := c) (e := e) (b := b2.advanced) rfl hc2
      · exact halts_of_leads h4 (halts_fail hfail)
      have hcur : b2.cur.proceed ≠ 0 := by
        rw [cur, hsame.ring, hsame.head]
        rw [hsame.proceed] at hp
        exact of_decide_eq_true hp
      have hless : (posted b4.ring).ncard < n := by
        rw [hring, ← hn, ← show b2.ring = b.ring from hsame.ring]
        exact posted_advanced hcur
      have hcall4 : Callable c e b4 := hcall.after (h1.trans (h2.trans (h3.trans h4)))
      exact halts_of_leads h4 (ih _ hless hcall4 hpc4 hc4 rfl)

structure Engine.Entered (b : Engine) : Prop where
  pc : b.pc = .test
  vec : b.vec = []
  left : b.bytesLeft = 0

theorem Engine.Entered.counted (h : b.Entered) : b.Counted := by
  unfold Engine.Counted
  rw [h.vec, h.left]
  rfl

theorem func_ne_null {f u : Word} (hw : ∀ u, c.writes u = true) : c.func f u ≠ .null := by
  unfold Config.func
  rw [hw u]
  split <;> simp

theorem iofunc_step {a : Answer} (hw : ∀ u, c.writes u = true) (h : b.iofunc ≠ .null) :
    (b.step c a).iofunc ≠ .null := by
  cases hpc : b.pc with
  | io =>
    simp only [step, hpc, io, called, finished]
    split
    · exact h
    split
    · exact h
    split
    · exact h
    split <;> exact h
  | process f =>
    simp only [step, hpc, handle, addBuf, request, Engine.control]
    split
    · split <;> exact h
    split
    · exact h
    split
    · exact func_ne_null hw
    split
    · simp
    · exact h
  | blocked =>
    simp only [step, hpc]
    split <;> exact h
  | _ =>
    simp only [step, hpc, setCur]
    exact h

/-- If every unit has its `write`, the engine never calls NULL. -/
theorem callable_of_writes (hw : ∀ u, c.writes u = true) (h : b.iofunc ≠ .null) : Callable c e b := by
  intro b' hl _
  clear * - hl hw h
  induction hl with
  | refl => exact h
  | tail _ hm ih =>
    rw [hm.2]
    exact iofunc_step hw ih

/-! ## Back ends that get stuck -/

structure Engine.Stuck (b : Engine) : Prop where
  pc : b.pc = .io
  iofunc : b.iofunc = .read
  left : b.bytesLeft = 512
  vec : total b.vec = 512

theorem idle_ret {r : Reply} (hi : r.Idle) (left : Nat) :
    (r.ret left).toInt ≤ 0 ∧ (r.ret left = 0 ∨ r.eintr = true) := by
  cases r with
  | moves n =>
    have hn : n = 0 := hi
    rw [ret_moves_toInt, hn]
    exact ⟨by simp, .inl (by simp [Reply.ret])⟩
  | fails w eintr => exact ⟨Int.le_of_lt w.property, .inr hi⟩

theorem stuck_step (hi : (e.reply b.calls).Idle) (h : b.Stuck) :
    (e.step c b).Stuck ∧ (e.step c b).calls = b.calls + 1 := by
  have hread : ¬ b.iofunc = .dummy := by simp [h.iofunc]
  have hret : b.ret (e.answer b) = (e.reply b.calls).ret (total b.vec) := by rw [ret, if_neg hread]; rfl
  obtain ⟨hle, hstay⟩ := idle_ret hi (total b.vec)
  have hne : b.ret (e.answer b) ≠ b.bytesLeft := by
    intro heq
    rw [← hret, heq, h.left] at hle
    exact absurd hle (by decide)
  have hcalled : e.step c b = b.called (e.answer b) := by
    rw [step_io h.pc, io, if_neg (by simp [h.iofunc]), if_neg hne, hret, if_neg (by omega), if_neg]
    rintro ⟨hne0, heintr⟩
    obtain h0 | heintr' := hstay
    · exact hne0 h0
    · simp [BackEnd.answer, heintr'] at heintr
  rw [hcalled]
  exact ⟨⟨h.pc, h.iofunc, h.left, h.vec⟩, by simp [called, hread]⟩

theorem not_halts_stuck (hi : ∀ j, b.calls ≤ j → (e.reply j).Idle) (h : b.Stuck) : ¬ Halts c e b := by
  rintro ⟨n, b', hn⟩
  induction n generalizing b with
  | zero => simp [doWork, h.pc] at hn
  | succ n ih =>
    rw [doWork, if_neg (by simp [h.pc])] at hn
    obtain ⟨hs, hcalls⟩ := stuck_step (c := c) (hi _ (le_refl _)) h
    exact ih (fun j hj => hi j (by omega)) hs hn

theorem not_halts_null (hpc : b.pc = .io) (hnull : b.iofunc = .null) : ¬ Halts c e b := by
  rintro ⟨n, b', hn⟩
  have hstep : e.step c b = b := by rw [step_io hpc, io, if_pos hnull]
  induction n with
  | zero => simp [doWork, hpc] at hn
  | succ n ih =>
    rw [doWork, if_neg (by simp [hpc]), hstep] at hn
    exact ih hn

def Engine.buffered (b : Engine) (lv : Word) : Engine :=
  { b with
    proceed := true
    ring := Function.update b.ring b.reqHead { b.cur with flags := 0, proceed := 0 }
    reqHead := b.next
    taken := b.taken + 1
    vec := b.vec ++ [⟨lv, (b.ring b.next).param⟩]
    bytesLeft := b.bytesLeft + (b.ring b.next).param
    consumed := b.consumed ++ [b.ring b.next]
    pc := .test }

theorem buffered_leads {lv : Word} (hpc : b.pc = .test) (hp : b.cur.proceed ≠ 0) (hlen : b.vec.length < maxIovec)
    (hnext : b.next ≠ b.reqHead) (hsg : has (b.ring b.next).flags sgBuf = true)
    (hlv : mphysToLvptr c.mem (b.ring b.next).unit = some (.ram, lv)) : Leads c e b (b.buffered lv) := by
  let b1 : Engine := { b with proceed := true, pc := .gather }
  let b2 : Engine := { b with proceed := true, pc := .branch }
  have h1 : Leads c e b b1 :=
    leads_to (by simp [hpc]) (by simp only [BackEnd.step, step, hpc, decide_eq_true hp, b1])
  have hfl : b1.flushes = false := by
    have hsg1 : has (b1.ring b1.next).flags sgBuf = true := hsg
    have hlen1 : b1.vec.length ≠ maxIovec := ne_of_lt hlen
    simp only [flushes, hsg1, hlen1]
    simp [b1]
  have h2 : Leads c e b1 b2 := by
    refine leads_to nofun ?_
    show { b1 with pc := if b1.flushes then .io else .branch } = b2
    rw [hfl]
    rfl
  have hcur : b2.advanced.cur = b.ring b.next := by
    show update b.ring b.reqHead _ b.next = _
    rw [update_of_ne hnext]
  have hpc2 : b2.advanced.pc = .process (b.ring b.next).flags := congrArg (fun d : Desc => Pc.process d.flags) hcur
  have h3 : Leads c e b2.advanced (b.buffered lv) := by
    refine leads_to (by simp [hpc2]) ?_
    rw [BackEnd.step, step, hpc2]
    show b2.advanced.handle c _ _ = _
    rw [handle, if_pos hsg, addBuf, hcur, hlv]
    rfl
  exact h1.trans (h2.trans ((branch_leads rfl rfl).trans h3))

theorem flush_leads (hpc : b.pc = .test) (hp : b.cur.proceed = 0) (hv : b.vec ≠ []) :
    Leads c e b { b with proceed := false, pc := .io } := by
  let b1 : Engine := { b with proceed := false, pc := .gather }
  have h1 : Leads c e b b1 := leads_to (by simp [hpc]) (by simp [BackEnd.step, step, hpc, hp, b1])
  have hfl : b1.flushes = true := by simp [flushes, b1, hv]
  refine h1.trans (leads_to nofun ?_)
  show { b1 with pc := if b1.flushes then .io else .branch } = _
  rw [hfl]
  rfl

def oneBuffer (ind : Word) : Desc := if ind = 0 then ⟨nopReq, 1, 0, 0⟩ else ⟨sgBuf, 0, 0, 512⟩

def someRam : Config :=
  { mem := ⟨⟨0, 0, 0x1000⟩, ⟨0, 0, 0⟩⟩, ndevs := 1, fd := fun _ => 3, writes := fun _ => true }

def reading (calls : Nat) : Engine :=
  { running := true, active := true, line := false, pipe := 0, reqHead := 0, ringMask := 1, ring := oneBuffer
    nRequests := 1, curDev := 0, iofunc := .read, pc := .test, proceed := false, vec := [], bytesLeft := 0
    failed := false, calls := calls, trace := [], consumed := [], taken := 0, done := 0 }

theorem reading_entered (k : Nat) : (reading k).Entered := ⟨rfl, rfl, rfl⟩

theorem reading_ends (k : Nat) : (reading k).Ends 1 := by
  show (oneBuffer (nextInd 1 0)).proceed = 0
  decide

/-- The engine gathers the buffer and is about to call the function that was left. -/
theorem reading_io (e : BackEnd) (k : Nat) (f : IoFunc) (w : Word → Bool) :
    ∃ b, Leads { someRam with writes := w } e { reading k with iofunc := f } b ∧ b.pc = .io ∧ b.iofunc = f ∧
      b.bytesLeft = 512 ∧ total b.vec = 512 ∧ b.calls = k := by
  let b0 : Engine := { reading k with iofunc := f }
  have hind : b0.next = nextInd 1 0 := rfl
  have hnext : b0.next ≠ 0 := by rw [hind]; decide
  have hbuf : b0.ring b0.next = ⟨sgBuf, 0, 0, 512⟩ := by
    have hring : b0.ring = oneBuffer := rfl
    rw [hring, hind]
    decide
  have h1 : Leads { someRam with writes := w } e b0 (b0.buffered 0) := by
    refine buffered_leads rfl ?_ ?_ hnext ?_ ?_
    · show (oneBuffer 0).proceed ≠ 0
      decide
    · show 0 < maxIovec
      decide
    · rw [hbuf]
      decide
    · rw [hbuf]
      show mphysToLvptr someRam.mem 0 = some (.ram, 0)
      decide
  have hcur : (b0.buffered 0).cur.proceed = 0 := by
    show (update oneBuffer 0 _ b0.next).proceed = 0
    rw [update_of_ne hnext]
    exact congrArg Desc.proceed hbuf
  refine ⟨_, h1.trans (flush_leads rfl hcur nofun), rfl, rfl, ?_, ?_, rfl⟩
  · show 0 + (b0.ring b0.next).param = 512
    rw [hbuf]
    rfl
  · show total ([] ++ [⟨0, (b0.ring b0.next).param⟩]) = 512
    rw [hbuf]
    rfl

/-! ## Results -/

/-- `do_work` always returns if and only if the back end never gets stuck and every unit has a
`write`. A function that is NULL was left by a request for a unit that has none. -/
theorem doWork_halts_iff (e : BackEnd) (w : Word → Bool) :
    (∀ (c : Config) (b : Engine) (n : Nat), c.writes = w → b.Entered → b.Ends n →
      (b.iofunc = .null → ∃ u, w u = false) → ∃ m b', doWork c e m b = some b') ↔ e.Fair ∧ ∀ u, w u = true := by
  constructor
  · intro h
    refine ⟨fun k => ?_, fun u => ?_⟩
    · by_contra hno
      obtain ⟨b, hl, hpc, hfunc, hleft, hvec, hcalls⟩ := reading_io e k .read w
      refine not_halts_stuck (fun j hj => ?_) ⟨hpc, hfunc, hleft, hvec⟩
        (halts_after hl (h _ (reading k) 1 rfl (reading_entered k) (reading_ends k) nofun))
      by_contra hidle
      exact hno ⟨j, by omega, hidle⟩
    · by_contra hu
      obtain ⟨b, hl, hpc, hfunc, -⟩ := reading_io e 0 .null w
      have hnull : (∃ u, w u = false) := ⟨u, by simpa using hu⟩
      exact not_halts_null hpc hfunc
        (halts_after hl (h _ { reading 0 with iofunc := .null } 1 rfl ⟨rfl, rfl, rfl⟩ (reading_ends 0) fun _ => hnull))
  · rintro ⟨hf, hw⟩ c b n rfl hb _ hleft
    have hnull : b.iofunc ≠ .null := by
      intro h0
      obtain ⟨u, hu⟩ := hleft h0
      rw [hw u] at hu
      cases hu
    exact halts_test hf (callable_of_writes hw hnull) hb.pc hb.counted

theorem doWork_end_of_file :
    let e : BackEnd := ⟨fun _ => .moves 0, fun _ => true⟩
    (reading 0).Entered ∧ (reading 0).Ends 1 ∧ ¬ ∃ m b', doWork someRam e m (reading 0) = some b' := by
  intro e
  refine ⟨reading_entered 0, reading_ends 0, fun hh => ?_⟩
  obtain ⟨b, hl, hpc, hfunc, hleft, hvec, -⟩ := reading_io e 0 .read someRam.writes
  exact not_halts_stuck (e := e) (fun _ _ => rfl) ⟨hpc, hfunc, hleft, hvec⟩ (halts_after hl hh)

end MacOnLinux.Ablk
