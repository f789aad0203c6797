import MacOnLinux.Disk.Driver
import Mathlib.Tactic.SplitIfs

/-! # The ring that the driver and the engine share

The descriptors are numbered from 1 in the order in which the driver fills them; number `j` is in
the slot `j` modulo the size of the ring, and slot 0 is busy at the start.
-/

namespace MacOnLinux.Ablk

open Function Engine Ablk.System

variable {c : Config} {a : Answer} {b b' : Engine} {s s' : System} {i j : Nat}

variable {d : Driver} {r : Req} {k : Caller}

/-! ## Slots -/

def slot (j : Nat) : Word := BitVec.ofNat 32 (j % descNumEl)

theorem toNat_slot (j : Nat) : (slot j).toNat = j % descNumEl := by
  apply Nat.mod_eq_of_lt
  simp only [descNumEl]
  omega

theorem next_slot (j : Nat) : nextInd descMask (slot j) = slot (j + 1) := by
  apply BitVec.eq_of_toNat_eq
  have hmask : descMask.toNat = 2 ^ 7 - 1 := rfl
  have hone : (1 : Word).toNat = 1 := rfl
  rw [nextInd, BitVec.toNat_and, hmask, Nat.and_two_pow_sub_one_eq_mod, BitVec.toNat_add,
    toNat_slot, toNat_slot]
  simp only [descNumEl]
  omega

theorem slot_ne (h : i < j) (h' : j < i + descNumEl) : slot j ≠ slot i := by
  intro heq
  have := congrArg BitVec.toNat heq
  rw [toNat_slot, toNat_slot] at this
  simp only [descNumEl] at this h'
  omega

theorem slot_wrap (j : Nat) : slot (j + descNumEl) = slot j := by simp [slot]

/-! ## The ring -/

/-- The descriptors before this one have a slot that may be reused. -/
def Engine.oldest (b : Engine) : Nat :=
  match b.pc with
  | .clearProceed | .fetch => b.taken + 1
  | _ => b.taken

def Engine.SeesMore (b : Engine) : Prop :=
  match b.pc with
  | .gather | .io | .notify | .branch => b.proceed = true
  | .clearFlags | .clearProceed | .fetch => True
  | _ => False

def Driver.unposted (d : Driver) : Nat :=
  match d.pc with
  | .start _ _ _ => 1
  | _ => 0

structure RingInv (b : Engine) (d : Driver) : Prop where
  mask : b.ringMask = descMask
  head : b.reqHead = slot b.taken
  ri : d.ri = slot d.posts.length
  oldest : b.oldest ≤ d.posted
  posted : d.posted + d.unposted = d.posts.length
  prev : ∀ p more k, d.pc = .start p more k → p = slot d.posted
  room : d.posts.length < b.oldest + descNumEl
  space : ∀ r k, d.pc = .fill r k → d.posts.length + 1 < b.oldest + descNumEl
  busy : ∀ j, b.oldest ≤ j → j ≤ d.posts.length → (b.ring (slot j)).flags ≠ 0
  proceed : ∀ j, b.oldest ≤ j → j ≤ d.posts.length → ((b.ring (slot j)).proceed ≠ 0 ↔ j < d.posted)
  more : b.SeesMore → b.taken < d.posted

def Pc.OffRing : Pc → Prop
  | .test | .clearFlags | .clearProceed | .fetch => False
  | _ => True

structure Engine.RingSame (b b' : Engine) : Prop where
  ring : b'.ring = b.ring
  head : b'.reqHead = b.reqHead
  mask : b'.ringMask = b.ringMask
  taken : b'.taken = b.taken
  oldest : b'.oldest = b.oldest
  more : b'.SeesMore → b.SeesMore

theorem io_ringSame (hpc : b.pc = .io) : b.RingSame (b.io a) := by
  unfold io
  split
  · exact ⟨rfl, rfl, rfl, rfl, rfl, id⟩
  split
  · exact ⟨rfl, rfl, rfl, rfl, by simp [oldest, finished, called, hpc], by
      simp [Engine.SeesMore, finished, called, hpc]⟩
  split
  · exact ⟨rfl, rfl, rfl, rfl, rfl, id⟩
  split
  · exact ⟨rfl, rfl, rfl, rfl, by simp [oldest, called, hpc], nofun⟩
  · exact ⟨rfl, rfl, rfl, rfl, rfl, id⟩

theorem handle_ringSame {f : Word} (hpc : b.pc = .process f) : b.RingSame (b.handle c f a) := by
  have hold : b.oldest = b.taken := by simp [oldest, hpc]
  unfold handle
  split
  · unfold addBuf
    split <;> exact ⟨rfl, rfl, rfl, rfl, hold.symm, nofun⟩
  split
  · exact ⟨rfl, rfl, rfl, rfl, hold.symm, nofun⟩
  split
  · unfold request
    cases a.seekOk <;> exact ⟨rfl, rfl, rfl, rfl, hold.symm, nofun⟩
  split <;> exact ⟨rfl, rfl, rfl, rfl, hold.symm, nofun⟩

theorem offRing_same (h : b.pc.OffRing) : b.RingSame (b.step c a) := by
  unfold step
  cases hpc : b.pc with
  | test | clearFlags | clearProceed | fetch =>
    rw [hpc] at h
    exact h.elim
  | blocked =>
    by_cases hpipe : b.pipe = 0
    · simp only [hpipe]
      exact ⟨rfl, rfl, rfl, rfl, rfl, id⟩
    · simp only [hpipe]
      exact ⟨rfl, rfl, rfl, rfl, by simp [oldest, hpc], nofun⟩
  | gather =>
    refine ⟨rfl, rfl, rfl, rfl, ?_, ?_⟩
    · cases hf : b.flushes <;> simp [oldest, hpc]
    · cases hf : b.flushes <;> simp [Engine.SeesMore, hpc]
  | io => exact io_ringSame hpc
  | notify => exact ⟨rfl, rfl, rfl, rfl, by simp [oldest, hpc], by simp [Engine.SeesMore, hpc]⟩
  | branch =>
    refine ⟨rfl, rfl, rfl, rfl, ?_, ?_⟩
    · cases hp : b.proceed <;> simp [oldest, hpc]
    · cases hp : b.proceed <;> simp [Engine.SeesMore, hpc, hp]
  | process f => exact handle_ringSame hpc
  | count | fail | clearActive | raise =>
    exact ⟨rfl, rfl, rfl, rfl, by simp [oldest, hpc], nofun⟩

theorem ringInv_same (hs : b.RingSame b') (h : RingInv b d) : RingInv b' d where
  mask := hs.mask.trans h.mask
  head := by rw [hs.head, hs.taken]; exact h.head
  ri := h.ri
  oldest := by rw [hs.oldest]; exact h.oldest
  posted := h.posted
  prev := h.prev
  room := by rw [hs.oldest]; exact h.room
  space := by rw [hs.oldest]; exact h.space
  busy := by rw [hs.oldest, hs.ring]; exact h.busy
  proceed := by rw [hs.oldest, hs.ring]; exact h.proceed
  more := fun hm => by rw [hs.taken]; exact h.more (hs.more hm)

theorem RingInv.posted_le (h : RingInv b d) : d.posted ≤ d.posts.length := by
  have := h.posted
  omega

theorem ringInv_test (hpc : b.pc = .test) (h : RingInv b d) :
    RingInv { b with proceed := b.cur.proceed ≠ 0, pc := .gather } d := by
  have hold : b.oldest = b.taken := by simp [oldest, hpc]
  obtain ⟨hmask, hhead, hri, holdest, hposted, hprev, hroom, hspace, hbusy, hproc, -⟩ := h
  rw [hold] at holdest hroom hspace hbusy hproc
  refine ⟨hmask, hhead, hri, holdest, hposted, hprev, hroom, hspace, hbusy, hproc, fun hmore => ?_⟩
  have hcur : b.cur.proceed ≠ 0 := of_decide_eq_true hmore
  rw [cur, hhead] at hcur
  exact (hproc b.taken (le_refl _) (by omega)).mp hcur

theorem ringInv_clearFlags (hpc : b.pc = .clearFlags) (h : RingInv b d) :
    RingInv { b.setCur { b.cur with flags := 0 } with pc := .clearProceed } d := by
  have hold : b.oldest = b.taken := by simp [oldest, hpc]
  obtain ⟨hmask, hhead, hri, -, hposted, hprev, hroom, hspace, hbusy, hproc, hmore⟩ := h
  have hlt : b.taken < d.posted := hmore (by simp [Engine.SeesMore, hpc])
  rw [hold] at hroom hspace hbusy hproc
  -- the slot of the head is reused after all slots behind it
  have hring (j : Nat) (hj : b.taken + 1 ≤ j) (hj' : j ≤ d.posts.length) :
      update b.ring b.reqHead { b.cur with flags := 0 } (slot j) = b.ring (slot j) := by
    rw [hhead]
    exact update_of_ne (slot_ne hj (by omega)) _ _
  refine ⟨hmask, hhead, hri, hlt, hposted, hprev, ?_, ?_, ?_, ?_, fun _ => hlt⟩
  · show d.posts.length < b.taken + 1 + descNumEl
    omega
  · intro r k hfill
    show d.posts.length + 1 < b.taken + 1 + descNumEl
    omega
  · intro j hj hj'
    show (update b.ring b.reqHead _ (slot j)).flags ≠ 0
    rw [hring j hj hj']
    exact hbusy j (Nat.le_of_succ_le hj) hj'
  · intro j hj hj'
    show (update b.ring b.reqHead _ (slot j)).proceed ≠ 0 ↔ _
    rw [hring j hj hj']
    exact hproc j (Nat.le_of_succ_le hj) hj'

theorem ringInv_clearProceed (hpc : b.pc = .clearProceed) (h : RingInv b d) :
    RingInv { b.setCur { b.cur with proceed := 0 } with pc := .fetch } d := by
  have hold : b.oldest = b.taken + 1 := by simp [oldest, hpc]
  obtain ⟨hmask, hhead, hri, holdest, hposted, hprev, hroom, hspace, hbusy, hproc, hmore⟩ := h
  rw [hold] at holdest hroom hspace hbusy hproc
  refine ⟨hmask, hhead, hri, holdest, hposted, hprev, hroom, hspace, ?_, ?_, fun _ => holdest⟩
  · intro j hj hj'
    show (update b.ring b.reqHead _ (slot j)).flags ≠ 0
    have hflags := hbusy j hj hj'
    by_cases hslot : slot j = b.reqHead
    · rw [hslot] at hflags ⊢
      rw [update_self]
      exact hflags
    · rw [update_of_ne hslot]
      exact hflags
  · intro j hj hj'
    change b.taken + 1 ≤ j at hj
    show (update b.ring b.reqHead _ (slot j)).proceed ≠ 0 ↔ _
    by_cases hslot : slot j = b.reqHead
    · rw [hslot, update_self]
      have hj'' : b.taken + descNumEl ≤ j := by
        by_contra hlt
        rw [hhead] at hslot
        exact slot_ne (Nat.lt_of_succ_le hj) (by omega) hslot
      simp only [ne_eq, not_true_eq_false, false_iff]
      omega
    · rw [update_of_ne hslot]
      exact hproc j hj hj'

theorem ringInv_fetch (hpc : b.pc = .fetch) (h : RingInv b d) :
    RingInv { b with reqHead := b.next, taken := b.taken + 1, pc := .process (b.ring b.next).flags } d := by
  have hold : b.oldest = b.taken + 1 := by simp [oldest, hpc]
  obtain ⟨hmask, hhead, hri, holdest, hposted, hprev, hroom, hspace, hbusy, hproc, -⟩ := h
  rw [hold] at holdest hroom hspace hbusy hproc
  refine ⟨hmask, ?_, hri, holdest, hposted, hprev, hroom, hspace, hbusy, hproc, nofun⟩
  show nextInd b.ringMask b.reqHead = slot (b.taken + 1)
  rw [hmask, hhead, next_slot]

theorem ringInv_engine (h : RingInv b d) : RingInv (b.step c a) d := by
  by_cases hoff : b.pc.OffRing
  · exact ringInv_same (offRing_same hoff) h
  unfold step
  cases hpc : b.pc with
  | test => exact ringInv_test hpc h
  | clearFlags => exact ringInv_clearFlags hpc h
  | clearProceed => exact ringInv_clearProceed hpc h
  | fetch => exact ringInv_fetch hpc h
  | _ => exact absurd (by simp [hpc, Pc.OffRing]) hoff

/-! ## The driver -/

/-- What the invariant reads, but for the state of the driver. -/
def System.ringView (s : System) :=
  (s.eng.ring, s.eng.reqHead, s.eng.ringMask, s.eng.taken, s.eng.pc, s.eng.proceed, s.drv.ri, s.drv.posts, s.drv.posted)

theorem ringInv_goto (h : RingInv s.eng s.drv) (hsame : s'.ringView = s.ringView)
    (hun : s.drv.unposted = 0) (hun' : s'.drv.unposted = 0)
    (hspace : ∀ r k, s'.drv.pc = .fill r k → s.drv.posts.length + 1 < s.eng.oldest + descNumEl) :
    RingInv s'.eng s'.drv := by
  simp only [ringView, Prod.mk.injEq] at hsame
  obtain ⟨hring, hhead, hmask, htaken, hpc, hproc, hri, hposts, hposted⟩ := hsame
  have hold : s'.eng.oldest = s.eng.oldest := by simp [oldest, hpc, htaken]
  have hmore : s'.eng.SeesMore ↔ s.eng.SeesMore := by simp [Engine.SeesMore, hpc, hproc]
  obtain ⟨hmask0, hhead0, hri0, holdest, hposted0, hprev, hroom, -, hbusy, hproc0, hmore0⟩ := h
  refine ⟨by rw [hmask, hmask0], by rw [hhead, hhead0, htaken], by rw [hri, hri0, hposts], ?_, ?_, ?_, ?_, ?_, ?_, ?_,
    ?_⟩
  · rw [hold, hposted]
    exact holdest
  · rw [hposts]
    omega
  · intro p more k hst
    simp [Driver.unposted, hst] at hun'
  · rw [hold, hposts]
    exact hroom
  · rw [hold, hposts]
    exact hspace
  · rw [hold, hposts, hring]
    exact hbusy
  · rw [hold, hposts, hring, hposted]
    exact hproc0
  · rw [hmore, htaken, hposted]
    exact hmore0

theorem describe_flags (r : Req) (d : Desc) : (r.describe d).1.flags ≠ 0 := by
  have hcmd : r.cmd.ablkReq ≠ 0 ∧ r.cmd.ablkReq ||| raiseIrq ≠ 0 := by cases r.cmd <;> decide
  have hnop : nopReq ≠ 0 := by decide
  have hsg : sgBuf ≠ 0 ∧ sgBuf ||| raiseIrq ≠ 0 := by decide
  simp only [Req.describe]
  split_ifs
  · exact hcmd.2
  · exact hcmd.1
  · exact hnop
  · exact hsg.2
  · exact hsg.1
  · exact hsg.2
  · exact hsg.1

theorem describe_proceed (r : Req) (d : Desc) : (r.describe d).1.proceed = 0 := by
  simp only [Req.describe]
  split_ifs <;> rfl

theorem RingInv.nextSlot (h : RingInv s.eng s.drv) : s.nextSlot = slot (s.drv.posts.length + 1) := by
  rw [System.nextSlot, h.ri, next_slot]

theorem RingInv.free (h : RingInv s.eng s.drv) (hflags : (s.eng.ring s.nextSlot).flags = 0) :
    s.drv.posts.length + 1 < s.eng.oldest + descNumEl := by
  by_contra hge
  have hlen : s.drv.posts.length + 1 = s.eng.oldest + descNumEl := by
    have := h.room
    omega
  rw [h.nextSlot, hlen, slot_wrap] at hflags
  exact h.busy _ (le_refl _) (le_trans h.oldest h.posted_le) hflags

theorem ringInv_fill (hpc : s.drv.pc = .fill r k) (h : RingInv s.eng s.drv) :
    RingInv (s.fill r k).eng (s.fill r k).drv := by
  have hspace := h.space r k hpc
  have hun : s.drv.unposted = 0 := by simp [Driver.unposted, hpc]
  have hposted : s.drv.posted = s.drv.posts.length := by
    have := h.posted
    omega
  have hnext := h.nextSlot
  obtain ⟨hmask, hhead, hri, holdest, -, -, -, -, hbusy, hproc, hmore⟩ := h
  have hlen : (s.fill r k).drv.posts.length = s.drv.posts.length + 1 := by simp [fill]
  have hnew : (s.fill r k).eng.ring (slot (s.drv.posts.length + 1)) = (s.describe r).1 := by
    show update s.eng.ring s.nextSlot _ _ = _
    rw [hnext, update_self]
  have hkeep (j : Nat) (hj : s.eng.oldest ≤ j) (hj' : j ≤ s.drv.posts.length) :
      (s.fill r k).eng.ring (slot j) = s.eng.ring (slot j) := by
    show update s.eng.ring s.nextSlot _ _ = _
    rw [hnext, update_of_ne (slot_ne (by omega) (by omega)).symm]
  refine ⟨hmask, hhead, ?_, holdest, ?_, ?_, ?_, nofun, ?_, ?_, hmore⟩
  · rw [hlen]
    exact hnext
  · show s.drv.posted + 1 = _
    omega
  · intro p more k' hst
    cases hst
    rw [hri]
    show slot _ = slot s.drv.posted
    rw [hposted]
  · rw [hlen]
    exact hspace
  · intro j hj hj'
    rw [hlen] at hj'
    obtain rfl | hlt := eq_or_lt_of_le hj'
    · rw [hnew]
      exact describe_flags r _
    · rw [hkeep j hj (by omega)]
      exact hbusy j hj (by omega)
  · intro j hj hj'
    rw [hlen] at hj'
    show _ ↔ j < s.drv.posted
    obtain rfl | hlt := eq_or_lt_of_le hj'
    · rw [hnew, describe, describe_proceed]
      simp only [ne_eq, not_true_eq_false, false_iff]
      omega
    · rw [hkeep j hj (by omega)]
      exact hproc j hj (by omega)

theorem ringInv_start {prev : Word} {more : Option Req} (hpc : s.drv.pc = .start prev more k)
    (h : RingInv s.eng s.drv) : RingInv (s.start prev more k).eng (s.start prev more k).drv := by
  have hprev := h.prev prev more k hpc
  have hun : s.drv.unposted = 1 := by simp [Driver.unposted, hpc]
  have hposted : s.drv.posted + 1 = s.drv.posts.length := by
    have := h.posted
    omega
  have hun' : (s.start prev more k).drv.unposted = 0 := by
    cases more <;> rfl
  obtain ⟨hmask, hhead, hri, holdest, -, -, hroom, -, hbusy, hproc, hmore⟩ := h
  have hset : (s.start prev more k).eng.ring =
      update s.eng.ring (slot s.drv.posted) { s.eng.ring (slot s.drv.posted) with proceed := 1 } := by
    rw [← hprev]
    rfl
  refine ⟨hmask, hhead, hri, ?_, ?_, ?_, hroom, ?_, ?_, ?_, ?_⟩
  · exact Nat.le_succ_of_le holdest
  · rw [hun']
    exact hposted
  · intro p m k' hst
    simp [Driver.unposted, hst] at hun'
  · intro r k' hfill
    cases more <;> cases hfill
  · intro j hj hj'
    rw [hset]
    have hflags := hbusy j hj hj'
    by_cases hslot : slot j = slot s.drv.posted
    · rw [hslot] at hflags ⊢
      rw [update_self]
      exact hflags
    · rw [update_of_ne hslot]
      exact hflags
  · intro j hj hj'
    rw [hset]
    show _ ↔ j < s.drv.posted + 1
    by_cases hj'' : j = s.drv.posted
    · rw [hj'']
      simp
    have hslot : slot j ≠ slot s.drv.posted := by
      change s.eng.oldest ≤ j at hj
      change j ≤ s.drv.posts.length at hj'
      obtain hlt | hgt := Nat.lt_or_gt_of_ne hj''
      · exact (slot_ne hlt (by omega)).symm
      · exact slot_ne hgt (by omega)
    rw [update_of_ne hslot, hproc j hj hj']
    omega
  · intro hm
    exact Nat.lt_succ_of_lt (hmore hm)

theorem unposted_afterKick (d : Driver) (k : Kicker) : Driver.unposted { d with pc := afterKick k } = 0 := by
  cases k with
  | process ok k => cases k <;> cases ok <;> rfl
  | ack => rfl

theorem afterKick_ne_fill {k : Kicker} {k' : Caller} : afterKick k ≠ .fill r k' := by
  cases k with
  | process ok k => cases k <;> cases ok <;> nofun
  | ack => nofun

theorem ringInv_driver (hd : s.Drives s') (h : RingInv s.eng s.drv) : RingInv s'.eng s'.drv := by
  have hun : (∀ prev more k, s.drv.pc ≠ .start prev more k) → s.drv.unposted = 0 := by
    intro hne
    unfold Driver.unposted
    split
    · rename_i hst
      exact absurd hst (hne _ _ _)
    · rfl
  cases hd with
  | idle => exact h
  | fill hpc => exact ringInv_fill hpc h
  | startMore hpc | startLast hpc => exact ringInv_start hpc h
  | free hpc hflags =>
    rw [hpc] at hun
    exact ringInv_goto h rfl (hun nofun) rfl fun _ _ _ => h.free hflags
  | @runs ok k hpc =>
    rw [hpc] at hun
    exact ringInv_goto h rfl (hun nofun) (unposted_afterKick _ (.process ok k))
      fun _ _ hfill => absurd hfill (afterKick_ne_fill (k := .process ok k))
  | kicked hpc | kickWrite hpc =>
    rw [hpc] at hun
    exact ringInv_goto h rfl (hun nofun) (unposted_afterKick _ _) fun _ _ hfill => absurd hfill afterKick_ne_fill
  | complete hpc =>
    rw [hpc] at hun
    exact ringInv_goto h rfl (hun nofun) (by simp [Driver.unposted, hpc]) (by simp [hpc])
  | full hpc | stands hpc | kick hpc | kickActive hpc | restart hpc | noRestart hpc | ackCount hpc | ackActive hpc
  | completed hpc | requested hpc | request hpc =>
    rw [hpc] at hun
    exact ringInv_goto h rfl (hun nofun) rfl nofun

theorem ringInv_step (hs : System.Step c s s') (h : RingInv s.eng s.drv) : RingInv s'.eng s'.drv := by
  cases hs with
  | engine a => exact ringInv_engine h
  | driver => exact ringInv_driver s.drives h
  | submit cmd unit block nblks buffer hidle =>
    have hun : s.drv.unposted = 0 := by simp [Driver.unposted, hidle]
    unfold receiveCmd
    cases s.drv.reqQueue with
    | nil => exact ringInv_goto h rfl hun rfl nofun
    | cons r rs => exact ringInv_goto h rfl hun hun (by simp [hidle])
  | interrupt hidle =>
    have hun : s.drv.unposted = 0 := by simp [Driver.unposted, hidle]
    unfold handleIrq
    split
    · exact ringInv_goto h rfl hun rfl nofun
    · exact h
  | event => exact ringInv_same (b := s.eng) ⟨rfl, rfl, rfl, rfl, rfl, id⟩ h

theorem ringInv_init : RingInv init.eng init.drv where
  mask := rfl
  head := rfl
  ri := rfl
  oldest := le_refl 0
  posted := rfl
  prev := nofun
  room := by decide
  space := nofun
  busy := fun j _ hj => by
    obtain rfl : j = 0 := Nat.le_zero.mp hj
    decide
  proceed := fun j _ hj => by
    obtain rfl : j = 0 := Nat.le_zero.mp hj
    decide
  more := nofun

/-! ## What a descriptor asks for -/

/-- `proceed` tells of the next descriptor. -/
def Desc.request (d : Desc) : Word × Word × Word := (d.flags, d.unit, d.param)

theorem request_proceed (ring : Word → Desc) (i i' p : Word) :
    (update ring i { ring i with proceed := p } i').request = (ring i').request := by
  by_cases hi : i' = i
  · rw [hi, update_self]
    rfl
  · rw [update_of_ne hi]

/-- The descriptor `j` is as it was, unless the engine released it. -/
def Holds (j : Nat) (s s' : System) : Prop :=
  j ≤ s'.drv.posts.length ∧ (s'.eng.oldest ≤ j →
    s.eng.oldest ≤ j ∧ (s'.eng.ring (slot j)).request = (s.eng.ring (slot j)).request)

theorem holds_engine (h : RingInv s.eng s.drv) (hlen : j ≤ s.drv.posts.length) :
    Holds j s { s with eng := s.eng.step c a } := by
  refine ⟨hlen, fun hj => ?_⟩
  have hroom := h.room
  cases hpc : s.eng.pc with
  | clearFlags =>
    simp only [step, hpc, oldest] at hj hroom ⊢
    change s.eng.taken + 1 ≤ j at hj
    refine ⟨Nat.le_of_succ_le hj, ?_⟩
    -- the slot of the head is not the slot of one behind it
    show (update s.eng.ring s.eng.reqHead _ (slot j)).request = _
    rw [h.head, update_of_ne (slot_ne hj (by omega))]
  | clearProceed =>
    simp only [step, hpc, oldest] at hj ⊢
    exact ⟨hj, request_proceed ..⟩
  | test | fetch =>
    simp only [step, hpc, oldest] at hj ⊢
    exact ⟨hj, trivial⟩
  | _ =>
    have hs := offRing_same (c := c) (a := a) (show s.eng.pc.OffRing by rw [hpc]; trivial)
    rw [hs.ring, ← hs.oldest]
    exact ⟨hj, rfl⟩

theorem holds_driver (hd : s.Drives s') (h : RingInv s.eng s.drv) (hlen : j ≤ s.drv.posts.length) : Holds j s s' := by
  cases hd with
  | @fill r k hpc =>
    have hspace := h.space r k hpc
    refine ⟨?_, fun hj => ⟨hj, ?_⟩⟩
    · simp only [fill, List.length_append]
      omega
    · change s.eng.oldest ≤ j at hj
      show (update s.eng.ring s.nextSlot _ (slot j)).request = _
      rw [h.nextSlot, update_of_ne (slot_ne (by omega) (by omega)).symm]
  | startMore | startLast => exact ⟨hlen, fun hj => ⟨hj, request_proceed ..⟩⟩
  | _ => exact ⟨hlen, fun hj => ⟨hj, rfl⟩⟩

theorem holds_step (hs : Step c s s') (h : RingInv s.eng s.drv) (hlen : j ≤ s.drv.posts.length) : Holds j s s' := by
  cases hs with
  | engine => exact holds_engine h hlen
  | driver => exact holds_driver s.drives h hlen
  | submit | interrupt =>
    simp only [receiveCmd, handleIrq]
    split <;> exact ⟨hlen, fun hj => ⟨hj, rfl⟩⟩
  | event => exact ⟨hlen, fun hj => ⟨hj, rfl⟩⟩

end MacOnLinux.Ablk
