import MacOnLinux.Disk.Queues

/-! # Completion of the requests -/

namespace MacOnLinux.Ablk

open Function List Engine Ablk.System Nat

variable {c : Config} {a : Answer} {b b' : Engine} {d d' : Driver} {s s' : System} {r : Req}

/-! ## What the driver has seen -/

def DrvPc.Comparing : DrvPc → Prop
  | .ackActive _ | .completions _ => True
  | _ => False

def DrvPc.complCount : DrvPc → Word
  | .ackActive cc | .completions cc => cc
  | _ => 0

def inFlight : Nat := maxIovec + 1 + descNumEl

structure SeenInv (b : Engine) (d : Driver) : Prop where
  le : d.seen ≤ b.done
  ended : ∀ r ∈ d.completed, r.last ≤ d.seen
  waits : ¬ d.pc.Comparing → ∀ r ∈ d.complQueue, d.seen < r.last
  read : d.pc.Comparing → d.pc.complCount = BitVec.ofNat 32 d.seen
  ahead : d.pc.Comparing → d.posts.length ≤ d.seen + inFlight
  behind : d.pc.Comparing → ∀ r ∈ d.complQueue, d.seen ≤ r.last + 2 ^ 31

theorem SeenInv.congr (h : SeenInv b d) (hdone : b'.done = b.done) (hseen : d'.seen = d.seen)
    (hcompleted : d'.completed = d.completed) (hqueue : d'.complQueue = d.complQueue) (hpc : ¬ d.pc.Comparing)
    (hpc' : ¬ d'.pc.Comparing) : SeenInv b' d' where
  le := by
    rw [hseen, hdone]
    exact h.le
  ended := by
    rw [hseen, hcompleted]
    exact h.ended
  waits := by
    rw [hseen, hqueue]
    exact fun _ => h.waits hpc
  read := fun hc => absurd hc hpc'
  ahead := fun hc => absurd hc hpc'
  behind := fun hc => absurd hc hpc'

theorem toInt_sub_ofNat {n m : Nat} (h : n ≤ m + inFlight) (h' : m ≤ n + 2 ^ 31) :
    (BitVec.ofNat 32 n - BitVec.ofNat 32 m).toInt = (n : Int) - m := by
  have hlow : -((2 ^ 32 : Nat) : Int) ≤ ((n : Int) - m) * 2 := by omega
  have hhigh : ((n : Int) - m) * 2 < ((2 ^ 32 : Nat) : Int) := by
    simp only [inFlight, maxIovec, descNumEl] at h
    omega
  rw [BitVec.toInt_sub, BitVec.toInt_ofNat', BitVec.toInt_ofNat', Int.sub_bmod_bmod, Int.bmod_sub_bmod]
  exact Int.bmod_eq_of_le_mul_two hlow hhigh

theorem taken_le_oldest (b : Engine) : b.taken ≤ b.oldest ∧ b.oldest ≤ b.taken + 1 := by
  unfold oldest
  cases b.pc with
  | clearProceed | fetch => exact ⟨le_succ _, le_refl _⟩
  | _ => exact ⟨le_refl _, le_succ _⟩

theorem afterKick_comparing (k : Kicker) : ¬ (afterKick k).Comparing := by
  cases k with
  | process ok k => cases k <;> cases ok <;> exact id
  | ack => exact id

def countWindow : Nat := 2 ^ 31 + 1

section Counts

variable (hr : RingInv s.eng s.drv) (hcount : CountInv s.eng) (hrun : s.eng.running = true)

include hr hcount hrun

theorem seenInv_fill {k : Caller}
    (hpc : s.drv.pc = .fill r k) (h : SeenInv s.eng s.drv) : SeenInv (s.fill r k).eng (s.fill r k).drv := by
  have hwaits := h.waits (by rw [hpc]; exact id)
  refine ⟨h.le, h.ended, fun _ q hq => ?_, fun hc => hc.elim, fun hc => hc.elim, fun hc => hc.elim⟩
  simp only [fill] at hq ⊢
  split at hq
  · obtain hq | hq := mem_append.mp hq
    · exact hwaits q hq
    obtain rfl := mem_singleton.mp hq
    show s.drv.seen < s.drv.posts.length + 1
    have hle := h.le
    have hnear := (hcount.near hrun).1
    have hold := (taken_le_oldest s.eng).1
    have hposted := hr.oldest
    have hposts := hr.posted_le
    omega
  · exact hwaits q hq

theorem seenInv_ackCount
    (hwindow : s.eng.done ≤ s.drv.seen + countWindow) (hpc : s.drv.pc = .ackCount) (h : SeenInv s.eng s.drv) :
    SeenInv s.ackCount.eng s.ackCount.drv := by
  have hwaits := h.waits (by rw [hpc]; exact id)
  refine ⟨le_refl _, fun q hq => le_trans (h.ended q hq) h.le, fun hc => absurd trivial hc, fun _ => hcount.num,
    fun _ => ?_, fun _ q hq => ?_⟩
  · show s.drv.posts.length ≤ s.eng.done + inFlight
    have hroom := hr.room
    have hold := (taken_le_oldest s.eng).2
    have hnear := (hcount.near hrun).2
    simp only [inFlight]
    omega
  · show s.eng.done ≤ q.last + 2 ^ 31
    have hlt := hwaits q hq
    simp only [countWindow] at hwindow
    omega

end Counts

section Compare

variable {cc : Word} (hq : QueueInv s.drv) (hpc : s.drv.pc = .completions cc) (h : SeenInv s.eng s.drv) {rs : List Req}

include hq hpc h

theorem compare_iff (hcq : s.drv.complQueue = r :: rs) : 0 < (r.reqNum - cc).toInt ↔ s.drv.seen < r.last := by
  have hcomp : s.drv.pc.Comparing := by rw [hpc]; trivial
  have hread := h.read hcomp
  rw [hpc] at hread
  change cc = _ at hread
  have hnum := hq.numbered r (by simp [Driver.filled, hcq])
  rw [hnum.num, hread, toInt_sub_ofNat (le_trans hnum.last_le (h.ahead hcomp)) (h.behind hcomp r (by simp [hcq]))]
  omega

theorem seenInv_completed (hlater : ∀ r rs, s.drv.complQueue = r :: rs → 0 < (r.reqNum - cc).toInt) :
    SeenInv (s.goto .requests).eng (s.goto .requests).drv := by
  refine ⟨h.le, h.ended, fun _ q hmem => ?_, fun hc => hc.elim, fun hc => hc.elim, fun hc => hc.elim⟩
  change q ∈ s.drv.complQueue at hmem
  cases hcq : s.drv.complQueue with
  | nil =>
    rw [hcq] at hmem
    cases hmem
  | cons r rs =>
    have hlt := (compare_iff hq hpc h hcq).mp (hlater r rs hcq)
    have hinc := hq.increasing
    rw [Driver.filled, hcq, map_append, map_cons, pairwise_append, pairwise_cons] at hinc
    rw [hcq] at hmem
    obtain rfl | hmem := mem_cons.mp hmem
    · exact hlt
    · exact lt_trans hlt (hinc.2.1.1 q.last (mem_map_of_mem hmem))

theorem seenInv_complete (hcq : s.drv.complQueue = r :: rs) (hdone : ¬ 0 < (r.reqNum - cc).toInt) :
    SeenInv s.eng { s.drv with complQueue := rs, completed := s.drv.completed ++ [r] } := by
  have hcomp : s.drv.pc.Comparing := by rw [hpc]; trivial
  refine ⟨h.le, fun q hmem => ?_, fun hc => absurd hcomp hc, h.read, h.ahead, fun _ q hmem => ?_⟩
  · obtain hmem | hmem := mem_append.mp hmem
    · exact h.ended q hmem
    · obtain rfl := mem_singleton.mp hmem
      exact Nat.le_of_not_lt fun hgt => hdone ((compare_iff hq hpc h hcq).mpr hgt)
  · exact h.behind hcomp q (by rw [hcq]; exact mem_cons_of_mem r hmem)

end Compare

theorem seenInv_driver (hd : s.Drives s') (hr : RingInv s.eng s.drv) (hcount : CountInv s.eng) (hq : QueueInv s.drv)
    (hrun : s.eng.running = true) (hwindow : s.eng.done ≤ s.drv.seen + countWindow) (h : SeenInv s.eng s.drv) :
    SeenInv s'.eng s'.drv := by
  have hmoves : ∀ s' : System, s'.eng.done = s.eng.done → s'.drv.seen = s.drv.seen →
      s'.drv.completed = s.drv.completed → s'.drv.complQueue = s.drv.complQueue → ¬ s.drv.pc.Comparing →
      ¬ s'.drv.pc.Comparing → SeenInv s'.eng s'.drv :=
    fun _ => h.congr
  cases hd with
  | idle => exact h
  | fill hpc => exact seenInv_fill hr hcount hrun hpc h
  | @runs ok k hpc =>
    rw [hpc] at hmoves
    exact hmoves _ rfl rfl rfl rfl id (afterKick_comparing (.process ok k))
  | kicked hpc | kickWrite hpc =>
    rw [hpc] at hmoves
    exact hmoves _ rfl rfl rfl rfl id (afterKick_comparing _)
  | ackCount hpc => exact seenInv_ackCount hr hcount hrun hwindow hpc h
  | ackActive hpc =>
    have hcomp : s.drv.pc.Comparing := by rw [hpc]; trivial
    have hread := h.read hcomp
    rw [hpc] at hread
    exact ⟨h.le, h.ended, fun hc => absurd trivial hc, fun _ => hread, fun _ => h.ahead hcomp, fun _ => h.behind hcomp⟩
  | completed hpc hlater => exact seenInv_completed hq hpc h hlater
  | complete hpc hcq hdone => exact seenInv_complete hq hpc h hcq hdone
  | full hpc | free hpc | startMore hpc | startLast hpc | stands hpc | kick hpc | kickActive hpc | restart hpc
  | noRestart hpc | requested hpc | request hpc =>
    rw [hpc] at hmoves
    exact hmoves _ rfl rfl rfl rfl id id

theorem done_step : b.done ≤ (b.step c a).done := by
  unfold Engine.step
  cases hpc : b.pc with
  | blocked => by_cases hpipe : b.pipe = 0 <;> simp [hpipe]
  | io =>
    simp only [io]
    split_ifs
    · exact le_refl _
    · exact le_add_right _ _
    all_goals exact le_refl _
  | process f =>
    simp only [handle, addBuf]
    split_ifs
    · split <;> exact le_refl _
    all_goals exact le_refl _
  | count => exact le_succ _
  | _ => exact le_refl _

theorem seenInv_step (hs : System.Step c s s') (hr : RingInv s.eng s.drv) (hcount : CountInv s.eng)
    (hq : QueueInv s.drv) (hrun : s.eng.running = true) (hwindow : s.eng.done ≤ s.drv.seen + countWindow)
    (h : SeenInv s.eng s.drv) : SeenInv s'.eng s'.drv := by
  cases hs with
  | engine a => exact ⟨le_trans h.le done_step, h.ended, h.waits, h.read, h.ahead, h.behind⟩
  | driver => exact seenInv_driver s.drives hr hcount hq hrun hwindow h
  | submit cmd unit block nblks buffer hidle =>
    have hpc : ¬ s.drv.pc.Comparing := by rw [hidle]; exact id
    cases hreq : s.drv.reqQueue with
    | nil =>
      simp only [receiveCmd, hreq]
      exact h.congr rfl rfl rfl rfl hpc id
    | cons r rs =>
      simp only [receiveCmd, hreq]
      exact h.congr rfl rfl rfl rfl hpc hpc
  | interrupt hidle =>
    unfold handleIrq
    split
    · exact h.congr rfl rfl rfl rfl (by rw [hidle]; exact id) id
    · exact h
  | event => exact ⟨h.le, h.ended, h.waits, h.read, h.ahead, h.behind⟩

/-! ## States of rest -/

def DrvPc.Acking : DrvPc → Prop
  | .ackTest | .kickTest .ack | .kickActive .ack | .ackCount => True
  | _ => False

structure RestInv (b : Engine) (d : Driver) : Prop where
  fresh : d.seen < b.done → b.Stirred ∨ d.pc.Acking
  queue : d.pc = .idle → d.reqQueue ≠ [] → b.Stirred

theorem restInv_stirred (h : b.Stirred) : RestInv b d := ⟨fun _ => .inl h, fun _ _ => h⟩

theorem restInv_driver (hd : s.Drives s') (ht : TokenInv s.eng s.drv.pc) (hw : WakeInv s.eng s.drv)
    (h : RestInv s.eng s.drv) : RestInv s'.eng s'.drv := by
  by_cases hx : s.eng.Stirred
  · exact restInv_stirred (drives_stirred hd hx)
  have hact : ¬ s.eng.active = true := fun hact => hx (.inl hact)
  have hfresh (hlt : s.drv.seen < s.eng.done) : s.drv.pc.Acking := (h.fresh hlt).resolve_left hx
  cases hd with
  | idle => exact h
  | runs hpc hrun =>
    have hasking := (hw.thought hrun).resolve_left hx
    rw [hpc] at hasking
    exact hasking.elim
  | kicked _ hact' => exact absurd hact' hact
  | @kick k hpc =>
    rw [hpc] at hfresh
    refine ⟨fun hlt => .inr ?_, by rintro ⟨⟩⟩
    have hack := hfresh hlt
    cases k with
    | process ok k => exact hack.elim
    | ack => trivial
  | kickActive => exact restInv_stirred (.inl rfl)
  | kickWrite hpc =>
    rw [hpc] at ht
    exact absurd (ht.active (.inr (.inr rfl))) hact
  | restart | noRestart => exact ⟨fun _ => .inr trivial, by rintro ⟨⟩⟩
  | ackCount => exact ⟨fun hlt => absurd hlt (lt_irrefl _), by rintro ⟨⟩⟩
  | complete hpc =>
    rw [hpc] at hfresh
    exact ⟨fun hlt => (hfresh hlt).elim, by simp [hpc]⟩
  | requested hpc hq =>
    rw [hpc] at hfresh
    exact ⟨fun hlt => (hfresh hlt).elim, fun _ hne => absurd hq hne⟩
  | full hpc | free hpc | fill hpc | startMore hpc | startLast hpc | stands hpc | ackActive hpc | completed hpc
  | request hpc =>
    rw [hpc] at hfresh
    exact ⟨fun hlt => (hfresh hlt).elim, by rintro ⟨⟩⟩

theorem restInv_step (hs : System.Step c s s') (ht : TokenInv s.eng s.drv.pc) (hw : WakeInv s.eng s.drv)
    (h : RestInv s.eng s.drv) : RestInv s'.eng s'.drv := by
  cases hs with
  | engine a =>
    by_cases hx : s.eng.Stirred
    · exact restInv_stirred (stirred_step hx)
    · rw [still_step hx ht]
      exact h
  | driver => exact restInv_driver s.drives ht hw h
  | submit cmd unit block nblks buffer hidle =>
    have hfresh (hlt : s.drv.seen < s.eng.done) : s.eng.Stirred :=
      (h.fresh hlt).resolve_right (by rw [hidle]; exact id)
    cases hreq : s.drv.reqQueue with
    | nil =>
      simp only [receiveCmd, hreq]
      exact ⟨fun hlt => .inl (hfresh hlt), by rintro ⟨⟩⟩
    | cons r rs =>
      simp only [receiveCmd, hreq]
      exact ⟨fun hlt => .inl (hfresh hlt), fun _ _ => h.queue hidle (by simp [hreq])⟩
  | interrupt hidle =>
    unfold handleIrq
    split
    · exact ⟨fun _ => .inr trivial, by rintro ⟨⟩⟩
    · exact h
  | event => exact restInv_stirred (.inr (.inl rfl))

/-! ## Runs -/

def System.PromptStep (c : Config) (s s' : System) : Prop :=
  System.Step c s s' ∧ s.eng.done ≤ s.drv.seen + countWindow

def PromptlyReachable (c : Config) (s : System) : Prop := Relation.ReflTransGen (System.PromptStep c) System.init s

theorem PromptlyReachable.reachable (h : PromptlyReachable c s) : Reachable c s :=
  Relation.ReflTransGen.mono (fun _ _ hs => hs.1) _ _ h

theorem countInv_reachable (h : Reachable c s) : CountInv s.eng := by
  induction h with
  | refl => exact .of_counted rfl (by decide) (fun _ _ => rfl) fun _ => rfl
  | tail _ hs ih => exact countInv_system hs ih

theorem queueInv_reachable (h : Reachable c s) : QueueInv s.drv := by
  induction h with
  | refl => exact ⟨rfl, nofun, rfl, nofun, .nil, nofun, nofun, .nil, nofun⟩
  | tail hrun hs ih => exact queueInv_step hs (inv_reachable hrun).ring ih

theorem restInv_reachable (h : Reachable c s) : RestInv s.eng s.drv := by
  induction h with
  | refl => exact ⟨nofun, nofun⟩
  | tail hrun hs ih => exact restInv_step hs (inv_reachable hrun).token (inv_reachable hrun).wake ih

theorem seenInv_reachable (h : PromptlyReachable c s) (hrun : s.eng.running = true) : SeenInv s.eng s.drv := by
  induction h with
  | refl => exact ⟨le_refl _, nofun, nofun, nofun, nofun, nofun⟩
  | tail hrun' hs ih =>
    have hreach := PromptlyReachable.reachable hrun'
    have hrun0 := running_step hs.1 hrun
    exact seenInv_step hs.1 (inv_reachable hreach).ring (countInv_reachable hreach)
      (queueInv_reachable hreach) hrun0 hs.2
      (ih hrun0)

def Consecutive (posts : List (Word × Nat)) : Prop :=
  (∀ i w id, posts[i]? = some (w, id) → w = slot (i + 1)) ∧
    ∀ i j k : Nat, i ≤ j → j ≤ k → ∀ w w' id, posts[i]? = some (w, id) → posts[k]? = some (w', id) →
      ∃ v, posts[j]? = some (v, id)

theorem le_of_sorted {posts : List (Word × Nat)} (h : (posts.map Prod.snd).Pairwise (· ≤ ·)) {i j : Nat} (hij : i ≤ j)
    {p q : Word × Nat} (hi : posts[i]? = some p) (hj : posts[j]? = some q) : p.2 ≤ q.2 := by
  obtain ⟨hi', rfl⟩ := List.getElem?_eq_some_iff.mp hi
  obtain ⟨hj', rfl⟩ := List.getElem?_eq_some_iff.mp hj
  obtain rfl | hlt := eq_or_lt_of_le hij
  · exact le_refl _
  · have hle := pairwise_iff_getElem.mp h i j (by simpa using hi') (by simpa using hj') hlt
    simpa using hle

theorem QueueInv.consecutive (h : QueueInv d) : Consecutive d.posts := by
  refine ⟨h.slots, fun i j k hij hjk w w' id hi hk => ?_⟩
  obtain ⟨hk', -⟩ := List.getElem?_eq_some_iff.mp hk
  have hj : d.posts[j]? = some d.posts[j] := List.getElem?_eq_getElem (by omega)
  have hge := le_of_sorted h.sorted hij hi hj
  have hle := le_of_sorted h.sorted hjk hj hk
  refine ⟨(d.posts[j]).1, hj.trans (congrArg some (Prod.ext rfl ?_))⟩
  exact le_antisymm hle hge

theorem completed_of_quiet (h : Reachable c s) (hrun : s.eng.running = true) (hseen : SeenInv s.eng s.drv)
    (hq : s.Quiet) : s.drv.completed.length = s.drv.submitted := by
  have hinv := inv_reachable h
  have hqueue := queueInv_reachable h
  have hrest := restInv_reachable h
  have hx := hinv.still hq
  obtain ⟨hpc, -, -, hidle⟩ := hq
  have hdone : s.eng.done ≤ s.drv.seen := by
    by_contra hlt
    have hack := (hrest.fresh (Nat.lt_of_not_le hlt)).resolve_left hx
    rwa [hidle] at hack
  have hreq : s.drv.reqQueue = [] := by
    by_contra hne
    exact hx (hrest.queue hidle hne)
  have hposted : s.drv.posted ≤ s.eng.taken := by
    by_contra hlt
    have hawake := (hinv.wake.waiting hrun (Nat.lt_of_not_le hlt)).resolve_left hx
    simp [Driver.Awake, hidle] at hawake
  have htaken : s.eng.done = s.eng.taken := by
    have hcount := countInv_reachable h
    have hvec := hcount.empty hrun (by simp [Engine.Drained, hpc])
    have hcounted := hcount.counted hrun (by simp [hpc])
    simpa [unreported, hpc, hvec] using hcounted
  have hposts : s.drv.posted = s.drv.posts.length := by
    have := hinv.ring.posted
    simpa [Driver.unposted, hidle] using this
  have hcompl : s.drv.complQueue = [] := by
    by_contra hne
    obtain ⟨r, hr⟩ := exists_mem_of_ne_nil _ hne
    have hlt := hseen.waits (by rw [hidle]; exact id) r hr
    have hle := (hqueue.numbered r (mem_append_right _ hr)).last_le
    omega
  have hlen := congrArg length hqueue.order
  simpa [Driver.filled, Driver.unfilled, hcompl, hreq, hidle, DrvPc.held] using hlen

/-- Requests complete once, in order, with the right status. -/
theorem requests_complete (h : PromptlyReachable c s) (hrun : s.eng.running = true) :
    s.drv.completed.map Req.id = List.range s.drv.completed.length ∧
    s.drv.completed.length ≤ s.drv.submitted ∧
    (∀ r ∈ s.drv.completed, r.Numbered s.drv.posts ∧ r.last ≤ s.eng.done ∧ r.Right) ∧
    (s.drv.pc = .idle → ∀ r ∈ s.drv.complQueue, s.drv.seen < r.last) ∧
    (s.Quiet → s.drv.completed.length = s.drv.submitted) ∧
    Consecutive s.drv.posts := by
  have hreach := h.reachable
  have hqueue := queueInv_reachable hreach
  have hseen := seenInv_reachable h hrun
  refine ⟨?_, ?_, fun r hr => ?_, fun hidle => ?_, completed_of_quiet hreach hrun hseen, hqueue.consecutive⟩
  · have hids := hqueue.filled_ids
    rw [Driver.filled, map_append] at hids
    have := eq_range_of_append hids
    rwa [length_map] at this
  · have hlen := congrArg length hqueue.order
    simp only [Driver.filled, length_append, length_map, length_range] at hlen
    omega
  · have hmem : r ∈ s.drv.filled := mem_append_left _ hr
    exact ⟨hqueue.numbered r hmem, le_trans (hseen.ended r hr) hseen.le, hqueue.right r hmem⟩
  · exact hseen.waits (by rw [hidle]; exact id)

theorem done_mono (hs : System.Step c s s') : s.eng.done ≤ s'.eng.done := by
  obtain ⟨a, rfl⟩ | hap := step_apart hs
  · exact done_step
  · exact le_of_eq hap.done.symm

theorem promptlyReachable_of_done_le (h : Reachable c s) (hdone : s.eng.done ≤ countWindow) :
    PromptlyReachable c s := by
  induction h with
  | refl => exact .refl
  | tail _ hs ih =>
    have hle := le_trans (done_mono hs) hdone
    exact (ih hle).tail ⟨hs, le_add_left_of_le hle⟩

theorem requests_complete_eject :
    let s := System.ejectTwice (onlyUnits 1) 22 7
    s.drv.submitted = 2 ∧ s.drv.completed.length = s.drv.submitted :=
  ⟨rfl, (requests_complete (promptlyReachable_of_done_le (reachable_ejectTwice 22 7) (by decide)) rfl).2.2.2.2.1
    ⟨rfl, rfl, rfl, rfl⟩⟩

/-! ## A run without interrupts -/

/-- `n` requests are processed and no interrupt was acknowledged. -/
structure Unacked (n : Nat) (s : System) : Prop where
  running : s.eng.running = true
  active : s.eng.active = true
  pipe : s.eng.pipe = 0
  pc : s.eng.pc = .test
  mask : s.eng.ringMask = descMask
  vec : s.eng.vec = []
  head : s.eng.reqHead = slot n
  num : s.eng.nRequests = BitVec.ofNat 32 n
  free : ∀ w, w ≠ slot n → (s.eng.ring w).flags = 0
  proceed : (s.eng.ring (slot n)).proceed = 0
  idle : s.drv.pc = .idle
  ri : s.drv.ri = slot n
  thought : s.drv.running = true
  reqQueue : s.drv.reqQueue = []
  first : ∃ r rs, s.drv.complQueue = r :: rs ∧ r.reqNum = 1
  completed : s.drv.completed = []
  submitted : s.drv.submitted = n

theorem slot_succ_ne (n : Nat) : slot (n + 1) ≠ slot n :=
  slot_ne (lt_succ_self n) (by simp only [descNumEl]; omega)

theorem describe_eject (d : Desc) : (s.newReq .eject 0 0 0 none).describe d =
    (⟨ejectReq ||| raiseIrq, 0, 0, 0⟩, { s.newReq .eject 0 0 0 none with xferCnt := 0 }, true) := by
  simp [Req.describe, newReq, Cmd.ablkReq]

def System.postOne (s : System) : System := (s.receiveCmd .eject 0 0 0 none).drive 4

theorem postOne_spec {n : Nat} (h : Unacked n s) : s.postOne.eng = { s.eng with
      ring := update (update s.eng.ring (slot (n + 1)) ⟨ejectReq ||| raiseIrq, 0, 0, 0⟩) (slot n)
        { s.eng.ring (slot n) with proceed := 1 } } ∧
    s.postOne.drv.pc = .idle ∧ s.postOne.drv.ri = slot (n + 1) ∧ s.postOne.drv.running = true ∧
    s.postOne.drv.reqQueue = [] ∧ (∃ r, s.postOne.drv.complQueue = s.drv.complQueue ++ [r]) ∧
    s.postOne.drv.completed = [] ∧ s.postOne.drv.submitted = n + 1 := by
  have hnext : nextInd descMask s.drv.ri = slot (n + 1) := by rw [h.ri, next_slot]
  have hflags : (s.eng.ring (slot (n + 1))).flags = 0 := h.free _ (slot_succ_ne n)
  let r := s.newReq .eject 0 0 0 none
  let s1 : System := { s with drv := { s.drv with submitted := s.drv.submitted + 1, pc := .check r .receiveCmd } }
  let s2 : System := s1.goto (.fill r .receiveCmd)
  let s3 : System := s2.fill r .receiveCmd
  let s4 : System := s3.start s.drv.ri none .receiveCmd
  have hlast : s2.isLast r = true := congrArg (·.2.2) (describe_eject _)
  have hdesc : (s2.describe r).1 = ⟨ejectReq ||| raiseIrq, 0, 0, 0⟩ := congrArg (·.1) (describe_eject _)
  have h1 : s.receiveCmd .eject 0 0 0 none = s1 := by simp only [receiveCmd, h.reqQueue, s1, r]
  have h2 : s1.driverStep = s2 := by
    show (if (s.eng.ring (nextInd descMask s.drv.ri)).flags ≠ 0 then _ else _) = _
    rw [hnext, hflags]
    rfl
  have h4 : s3.driverStep = s4 := by
    have hpc : s3.drv.pc = .start s.drv.ri none .receiveCmd := by
      show DrvPc.start s.drv.ri (if s2.isLast r then none else _) _ = _
      rw [if_pos hlast]
    simp only [driverStep, hpc, s4]
  have h5 : s4.driverStep = s4.goto .idle := by
    show (if s.drv.running then _ else _) = _
    rw [if_pos h.thought]
    rfl
  have hpost : s.postOne = s4.goto .idle := by
    rw [postOne, h1]
    show s1.driverStep.driverStep.driverStep.driverStep = _
    rw [h2]
    show s3.driverStep.driverStep = _
    rw [h4, h5]
  rw [hpost]
  refine ⟨?_, rfl, hnext, h.thought, h.reqQueue, ⟨s2.numbered r, ?_⟩, h.completed, congrArg (· + 1) h.submitted⟩
  · have hring : s3.eng.ring = update s.eng.ring (slot (n + 1)) ⟨ejectReq ||| raiseIrq, 0, 0, 0⟩ := by
      show update s.eng.ring (nextInd descMask s.drv.ri) (s2.describe r).1 = _
      rw [hnext, hdesc]
    have hold : s3.eng.ring (slot n) = s.eng.ring (slot n) := by
      rw [hring, update_of_ne (slot_succ_ne n).symm]
    show ({ s.eng with ring := update s3.eng.ring s.drv.ri { s3.eng.ring s.drv.ri with proceed := 1 } } : Engine) = _
    rw [h.ri, hold, hring]
  · show (if s2.isLast r then s.drv.complQueue ++ [s2.numbered r] else s.drv.complQueue) = _
    rw [if_pos hlast]

theorem work_spec {n : Nat} (hpc : b.pc = .test) (hmask : b.ringMask = descMask) (hvec : b.vec = [])
    (hhead : b.reqHead = slot n)
    (hproc : (b.ring (slot n)).proceed = 1) (hflags : (b.ring (slot (n + 1))).flags = ejectReq ||| raiseIrq)
    (hunit : (b.ring (slot (n + 1))).unit = 0) :
    ∃ b', (work (onlyUnits 1) 8 ⟨b, d⟩).eng = b' ∧ b'.running = b.running ∧ b'.active = b.active ∧ b'.pipe = b.pipe ∧
      b'.pc = .test ∧ b'.ringMask = descMask ∧ b'.vec = [] ∧ b'.reqHead = slot (n + 1) ∧
        b'.nRequests = b.nRequests + 1 ∧
      b'.ring = update b.ring (slot n) { b.ring (slot n) with flags := 0, proceed := 0 } := by
  let step (b : Engine) : Engine := b.step (onlyUnits 1) ⟨0, false, true⟩
  let ring := update b.ring (slot n) { b.ring (slot n) with flags := 0, proceed := 0 }
  let b1 : Engine := { b with proceed := true, pc := .gather }
  let b2 : Engine := { b with proceed := true, pc := .branch }
  let b3 : Engine := { b with proceed := true, pc := .clearFlags }
  let b5 : Engine := { b with proceed := true, ring := ring, pc := .fetch }
  let b6 : Engine := { b5 with reqHead := slot (n + 1), taken := b.taken + 1, pc := .process (ejectReq ||| raiseIrq) }
  let b7 : Engine := b6.control (onlyUnits 1) (ejectReq ||| raiseIrq)
  have hslot : ring (slot (n + 1)) = b.ring (slot (n + 1)) := update_of_ne (slot_succ_ne n) _ _
  have h1 : step b = b1 := by
    simp only [step, Engine.step, hpc, cur, hhead, hproc, b1]
    rfl
  have h2 : step b1 = b2 := by
    simp only [b1, b2, hvec]
    rfl
  have h5 : step (step b3) = b5 := by
    have hring : update (update b.ring b.reqHead { b.ring b.reqHead with flags := 0 }) b.reqHead
        { update b.ring b.reqHead { b.ring b.reqHead with flags := 0 } b.reqHead with proceed := 0 } = ring := by
      rw [hhead, update_idem, update_self]
    simp only [step, Engine.step, setCur, cur, b3, b5, hring]
  have h6 : step b5 = b6 := by
    have hnext : b5.next = slot (n + 1) := by
      show nextInd b.ringMask b.reqHead = _
      rw [hmask, hhead, next_slot]
    show ({ b5 with reqHead := b5.next, taken := b.taken + 1, pc := .process (ring b5.next).flags } : Engine) = _
    rw [hnext, hslot, hflags]
  have h7 : step b6 = b7 := by
    have hcur : b6.cur.unit = 0 := by
      show (ring (slot (n + 1))).unit = 0
      rw [hslot, hunit]
    show b6.handle (onlyUnits 1) (ejectReq ||| raiseIrq) _ = _
    have hunit' : ¬ (onlyUnits 1).ndevs ≤ b6.cur.unit.toNat := by
      rw [hcur]
      decide
    rw [handle, if_neg (by decide), if_neg hunit', if_neg (by decide), if_pos (by decide)]
  have h8 : step b7 = { b7 with nRequests := b7.nRequests + 1, done := b7.done + 1, pc := .test } := rfl
  refine ⟨{ b7 with nRequests := b7.nRequests + 1, done := b7.done + 1, pc := .test }, ?_, rfl, rfl, rfl, rfl, hmask,
    hvec, rfl,
    rfl, rfl⟩
  have hwork : (work (onlyUnits 1) 8 ⟨b, d⟩).eng = step (step (step (step (step (step (step (step b))))))) := by
    simp [work, step]
  have h3 : step b2 = b3 := rfl
  rw [hwork, h1, h2, h3, h5, h6, h7, h8]

theorem unacked_succ {n : Nat} (h : Unacked n s) : Unacked (n + 1) (s.postOne.work (onlyUnits 1) 8) := by
  obtain ⟨heng, hidle, hri, hthought, hreq, ⟨r, hcompl⟩, hcompleted, hsub⟩ := postOne_spec h
  have hring : s.postOne.eng.ring (slot (n + 1)) = ⟨ejectReq ||| raiseIrq, 0, 0, 0⟩ := by
    rw [heng]
    show update _ _ _ _ = _
    rw [update_of_ne (slot_succ_ne n), update_self]
  have hproc : (s.postOne.eng.ring (slot n)).proceed = 1 := by
    rw [heng]
    simp
  obtain ⟨b', hb', hrun, hact, hpipe, hpc, hmask, hvec, hhead, hnum, hring'⟩ :=
    work_spec (b := s.postOne.eng) (d := s.postOne.drv) (n := n) (by rw [heng]; exact h.pc) (by rw [heng]; exact h.mask)
      (by rw [heng]; exact h.vec) (by rw [heng]; exact h.head) hproc (by rw [hring]) (by rw [hring])
  have hdrv : (s.postOne.work (onlyUnits 1) 8).drv = s.postOne.drv := work_drv 8
  obtain ⟨q, qs, hq, hfirst⟩ := h.first
  subst hb'
  refine ⟨hrun.trans ?_, hact.trans ?_, hpipe.trans ?_, hpc, hmask, hvec, hhead, hnum.trans ?_, ?_, ?_, ?_, ?_, ?_, ?_,
    ?_, ?_, ?_⟩
  · rw [heng]
    exact h.running
  · rw [heng]
    exact h.active
  · rw [heng]
    exact h.pipe
  · rw [heng]
    rw [h.num, BitVec.ofNat_add]
    rfl
  · intro w hw
    rw [hring']
    by_cases hn : w = slot n
    · rw [hn, update_self]
    · rw [heng]
      simp only [update_of_ne hn, update_of_ne hw]
      exact h.free w hn
  · rw [hring', update_of_ne (slot_succ_ne n), hring]
  · rw [hdrv, hidle]
  · rw [hdrv, hri]
  · rw [hdrv, hthought]
  · rw [hdrv, hreq]
  · rw [hdrv, hcompl, hq]
    exact ⟨q, qs ++ [r], rfl, hfirst⟩
  · rw [hdrv, hcompleted]
  · rw [hdrv, hsub]

def System.kicked : System := (System.init.receiveCmd .eject 0 0 0 none).drive 7 |>.work (onlyUnits 1) 1

theorem unacked_one : Unacked 1 (System.kicked.work (onlyUnits 1) 8) := by
  have hring : System.kicked.eng.ring =
      update (update init.eng.ring 1 ⟨ejectReq ||| raiseIrq, 0, 0, 0⟩) 0 ⟨nopReq, 1, 0, 0⟩ := rfl
  obtain ⟨b', hb', hrun, hact, hpipe, hpc, hmask, hvec, hhead, hnum, hring'⟩ :=
    work_spec (b := System.kicked.eng) (d := System.kicked.drv) (n := 0) rfl rfl rfl rfl rfl rfl rfl
  have hdrv : (System.kicked.work (onlyUnits 1) 8).drv = System.kicked.drv := work_drv 8
  subst hb'
  refine ⟨hrun, hact, hpipe, hpc, hmask, hvec, hhead, hnum, ?_, ?_, ?_, ?_, ?_, ?_, ?_, ?_, ?_⟩
  · intro w hw
    rw [hring']
    by_cases hn : w = slot 0
    · rw [hn, update_self]
    · have hw' : w ≠ 1 := hw
      have hn' : w ≠ 0 := hn
      rw [update_of_ne hn, hring, update_of_ne hn', update_of_ne hw']
      show (if w = 0 then _ else _ : Desc).flags = 0
      rw [if_neg hn']
  · rfl
  all_goals rw [hdrv]
  · rfl
  · rfl
  · rfl
  · rfl
  · exact ⟨_, _, rfl, rfl⟩
  · rfl
  · rfl

theorem exists_unacked (n : Nat) : ∃ s, Reachable (onlyUnits 1) s ∧ Unacked (n + 1) s := by
  induction n with
  | zero =>
    have hkicked : Reachable (onlyUnits 1) .kicked :=
      reachable_work (reachable_drive (.single (.submit _ _ _ _ _ _ rfl)) 7) 1
    exact ⟨_, reachable_work hkicked 8, unacked_one⟩
  | succ n ih =>
    obtain ⟨s, hreach, hun⟩ := ih
    exact ⟨_, reachable_work (reachable_drive (hreach.tail (.submit s .eject 0 0 0 none hun.idle)) 4) 8,
      unacked_succ hun⟩

theorem unacked_ends {n : Nat} (h : Unacked n s) (hwrap : 0 < (1 - BitVec.ofNat 32 n : Word).toInt) :
    let s' := (s.work (onlyUnits 1) 5).handleIrq.drive 5
    s'.eng.running = true ∧ s'.Quiet ∧ s'.drv.completed = [] ∧ s'.drv.submitted = n := by
  let b : Engine := { s.eng with proceed := false, active := false, line := true, pc := .blocked }
  have hwork : s.work (onlyUnits 1) 5 = ⟨b, s.drv⟩ := by
    have hnull : s.eng.cur.proceed = 0 := by rw [cur, h.head, h.proceed]
    simp [work, Engine.step, h.pc, hnull, flushes, h.vec, b]
  let b' : Engine := { b with line := false }
  have hcur : b'.cur.proceed = 0 := by
    show (s.eng.ring s.eng.reqHead).proceed = 0
    rw [h.head, h.proceed]
  obtain ⟨r, rs, hqueue, hnum⟩ := h.first
  let d (pc : DrvPc) : Driver := { s.drv with running := false, seen := s.eng.done, pc := pc }
  have htest : (⟨b', { s.drv with pc := .ackTest }⟩ : System).driverStep = ⟨b', { s.drv with pc := .ackCount }⟩ := by
    show goto _ (if !false && s.eng.running && b'.cur.proceed != 0 then _ else _) = _
    rw [hcur]
    simp [goto]
  have hread : (⟨b', { s.drv with pc := .ackCount }⟩ : System).driverStep.driverStep =
      ⟨b', d (.completions s.eng.nRequests)⟩ := rfl
  have hcompl : (⟨b', d (.completions s.eng.nRequests)⟩ : System).driverStep = ⟨b', d .requests⟩ := by
    simp only [driverStep, completions, goto, d, hqueue, hnum, h.num, hwrap, if_true]
  have hreq : (⟨b', d .requests⟩ : System).driverStep = ⟨b', d .idle⟩ := by
    simp only [driverStep, requests, goto, d, h.reqQueue]
  have hends : (s.work (onlyUnits 1) 5).handleIrq.drive 5 = ⟨b', d .idle⟩ := by
    rw [hwork]
    show (⟨b', { s.drv with pc := .ackTest }⟩ : System).driverStep.driverStep.driverStep.driverStep.driverStep = _
    rw [htest, hread, hcompl, hreq]
  rw [hends]
  exact ⟨h.running, ⟨rfl, h.pipe, rfl, rfl⟩, h.completed, h.submitted⟩

/-- A count that is too far ahead takes the first request for one that waits. -/
theorem unacked_stuck : ∃ s, Reachable (onlyUnits 1) s ∧ s.eng.running = true ∧ s.Quiet ∧ s.drv.completed = [] ∧
    s.drv.submitted = countWindow + 1 := by
  obtain ⟨s, hreach, hun⟩ := exists_unacked countWindow
  have hidle : (s.work (onlyUnits 1) 5).drv.pc = .idle := by rw [work_drv, hun.idle]
  have hwrap : 0 < (1 - BitVec.ofNat 32 (countWindow + 1) : Word).toInt := by decide
  exact ⟨_, reachable_drive ((reachable_work hreach 5).tail (.interrupt _ hidle)) 5, unacked_ends hun hwrap⟩

end MacOnLinux.Ablk
