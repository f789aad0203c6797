import MacOnLinux.Disk.Stall
import MacOnLinux.Disk.Wakeup
import Mathlib.Data.List.Pairwise

/-! # The count of the engine and the queues of the driver -/

namespace MacOnLinux.Ablk

open List Engine Ablk.System

variable {c : Config} {a : Answer} {b b' : Engine} {d d' : Driver} {s s' : System} {r : Req}

variable {posts : List (Word × Nat)} {w : Word} {r : Req}

/-! ## The count of the engine -/

def Engine.unreported (b : Engine) : Nat :=
  match b.pc with
  | .notify => 0
  | .process _ | .count => b.vec.length + 1
  | _ => b.vec.length

def Pc.limit : Pc → Nat
  | .branch | .clearFlags | .clearProceed | .fetch | .process _ | .count => maxIovec - 1
  | _ => maxIovec

def Engine.Drained (b : Engine) : Prop :=
  match b.pc with
  | .clearActive | .raise | .blocked => True
  | .branch => b.proceed = false
  | _ => False

structure CountInv (b : Engine) : Prop where
  num : b.nRequests = BitVec.ofNat 32 b.done
  small : b.vec.length ≤ b.pc.limit
  empty : b.running = true → b.Drained → b.vec = []
  counted : b.running = true → b.pc ≠ .fail → b.done + b.unreported = b.taken
  near : b.running = true → b.done ≤ b.taken ∧ b.taken ≤ b.done + maxIovec + 1

theorem limit_le (pc : Pc) : pc.limit ≤ maxIovec := by
  cases pc with
  | process f => exact Nat.sub_le maxIovec 1
  | _ => decide

theorem unreported_le (h : b.vec.length ≤ b.pc.limit) : b.unreported ≤ maxIovec + 1 := by
  have hlen : b.vec.length ≤ maxIovec := le_trans h (limit_le b.pc)
  unfold unreported
  cases b.pc with
  | notify => exact Nat.zero_le _
  | process _ | count => exact Nat.succ_le_succ hlen
  | _ => exact Nat.le_succ_of_le hlen

theorem CountInv.of_counted (num : b.nRequests = BitVec.ofNat 32 b.done) (small : b.vec.length ≤ b.pc.limit)
    (empty : b.running = true → b.Drained → b.vec = []) (counted : b.running = true → b.done + b.unreported = b.taken) :
    CountInv b := by
  refine ⟨num, small, empty, fun hrun _ => counted hrun, fun hrun => ?_⟩
  have hcounted := counted hrun
  have hle := unreported_le small
  omega

theorem CountInv.fails (h : CountInv b) (hpc : b'.pc = .fail) (hnum : b'.nRequests = b.nRequests)
    (hdone : b'.done = b.done) (htaken : b'.taken = b.taken) (hvec : b'.vec = b.vec) (hrun : b'.running = b.running) :
    CountInv b' where
  num := by rw [hnum, hdone, h.num]
  small := by
    rw [hvec, hpc]
    exact le_trans h.small (limit_le _)
  empty := by simp [Engine.Drained, hpc]
  counted := fun _ hne => absurd hpc hne
  near := by
    rw [hrun, hdone, htaken]
    exact h.near

theorem countInv_io (hpc : b.pc = .io) (h : CountInv b) : CountInv (b.io a) := by
  have hsmall := h.small
  have hcounted (hrun : b.running = true) : b.done + b.vec.length = b.taken := by
    have hc := h.counted hrun (by rw [hpc]; nofun)
    simpa only [unreported, hpc] using hc
  rw [hpc] at hsmall
  unfold io
  split
  · exact h
  split
  · refine .of_counted ?_ hsmall nofun hcounted
    show b.nRequests + BitVec.ofNat 32 b.vec.length = BitVec.ofNat 32 (b.done + b.vec.length)
    rw [h.num, BitVec.ofNat_add]
  split
  · refine .of_counted h.num ?_ (by simp [Engine.Drained, called, hpc]) fun hrun => ?_
    · simpa only [length_advance, called, hpc] using hsmall
    · simpa only [unreported, called, hpc, length_advance] using hcounted hrun
  split
  · exact h.fails rfl rfl rfl rfl rfl rfl
  · refine .of_counted h.num ?_ (by simp [Engine.Drained, called, hpc]) fun hrun => ?_
    · simpa only [called, hpc] using hsmall
    · simpa only [unreported, called, hpc] using hcounted hrun

theorem countInv_handle {f : Word} (hpc : b.pc = .process f) (h : CountInv b) : CountInv (b.handle c f a) := by
  have hsmall : b.vec.length ≤ maxIovec - 1 := by
    have := h.small
    rwa [hpc] at this
  have hcounted (hrun : b.running = true) : b.done + (b.vec.length + 1) = b.taken := by
    have hc := h.counted hrun (by rw [hpc]; nofun)
    simpa only [unreported, hpc] using hc
  unfold handle
  split
  · unfold addBuf
    split
    · refine .of_counted h.num ?_ nofun fun hrun => ?_
      · simp only [length_append]
        exact Nat.succ_le_succ hsmall
      · simpa only [unreported, length_append, length_singleton] using hcounted hrun
    · exact h.fails rfl rfl rfl rfl rfl rfl
  split
  · exact h.fails rfl rfl rfl rfl rfl rfl
  split
  · unfold request
    cases a.seekOk
    · exact h.fails rfl rfl rfl rfl rfl rfl
    · exact .of_counted h.num hsmall nofun hcounted
  split
  · exact .of_counted h.num hsmall nofun hcounted
  · exact h.fails rfl rfl rfl rfl rfl rfl

theorem countInv_step (h : CountInv b) : CountInv (b.step c a) := by
  have hnum := h.num
  have hsmall := h.small
  have hempty := h.empty
  have hcounted := h.counted
  unfold unreported at hcounted
  unfold Engine.Drained at hempty
  unfold step
  cases hpc : b.pc with
  | blocked =>
    rw [hpc] at hempty hcounted
    by_cases hpipe : b.pipe = 0
    · simp only [hpipe]
      exact h
    · simp only [hpipe]
      refine .of_counted hnum (Nat.zero_le _) (by rintro _ ⟨⟩) fun hrun => ?_
      have hc := hcounted hrun (by rintro ⟨⟩)
      rwa [hempty hrun trivial] at hc
  | test | clearFlags | clearProceed =>
    rw [hpc] at hsmall hcounted
    exact .of_counted hnum hsmall (by rintro _ ⟨⟩) fun hrun => hcounted hrun (by rintro ⟨⟩)
  | gather =>
    rw [hpc] at hsmall hcounted
    by_cases hf : b.flushes = true
    · simp only [hf]
      exact .of_counted hnum hsmall (by rintro _ ⟨⟩) fun hrun => hcounted hrun (by rintro ⟨⟩)
    have hno := hf
    simp only [flushes, Bool.not_eq_true', decide_eq_true_eq, not_and_or, not_not, not_or] at hno
    simp only [hf]
    refine .of_counted hnum ?_ (fun _ hp => ?_) fun hrun => hcounted hrun (by rintro ⟨⟩)
    · change b.vec.length ≤ maxIovec - 1
      change b.vec.length ≤ maxIovec at hsmall
      obtain hnil | ⟨-, hne, -⟩ := hno
      · simp [hnil]
      · omega
    · obtain hnil | ⟨hproc, -, -⟩ := hno
      · exact hnil
      · exact absurd hp hproc
  | io => exact countInv_io hpc h
  | notify =>
    rw [hpc] at hcounted
    exact .of_counted hnum (Nat.zero_le _) (fun _ _ => rfl) fun hrun => hcounted hrun (by rintro ⟨⟩)
  | branch =>
    rw [hpc] at hsmall hempty hcounted
    by_cases hp : b.proceed = true
    · simp only [hp]
      exact .of_counted hnum hsmall (by rintro _ ⟨⟩) fun hrun => hcounted hrun (by rintro ⟨⟩)
    · have hp' : b.proceed = false := Bool.eq_false_iff.mpr hp
      simp only [hp]
      exact .of_counted hnum (le_trans hsmall (limit_le _)) (fun hrun _ => hempty hrun hp')
        fun hrun => hcounted hrun (by rintro ⟨⟩)
  | fetch =>
    rw [hpc] at hsmall hcounted
    exact .of_counted hnum hsmall (by rintro _ ⟨⟩) fun hrun => congrArg (· + 1) (hcounted hrun (by rintro ⟨⟩))
  | process f => exact countInv_handle hpc h
  | count =>
    rw [hpc] at hsmall hcounted
    refine .of_counted ?_ (le_trans hsmall (limit_le _)) (by rintro _ ⟨⟩) fun hrun => ?_
    · rw [hnum, BitVec.ofNat_add]
      rfl
    · have hc := hcounted hrun (by rintro ⟨⟩)
      simp only at hc
      show b.done + 1 + b.vec.length = b.taken
      omega
  | fail =>
    exact .of_counted hnum (le_trans hsmall (limit_le _)) (by rintro ⟨⟩) (by rintro ⟨⟩)
  | clearActive | raise =>
    rw [hpc] at hsmall hempty hcounted
    exact .of_counted hnum hsmall (fun hrun _ => hempty hrun trivial) fun hrun => hcounted hrun (by rintro ⟨⟩)

structure Engine.Apart (b b' : Engine) : Prop where
  num : b'.nRequests = b.nRequests
  done : b'.done = b.done
  taken : b'.taken = b.taken
  vec : b'.vec = b.vec
  running : b'.running = b.running
  pc : b'.pc = b.pc
  proceed : b'.proceed = b.proceed

theorem Engine.Apart.refl : b.Apart b := ⟨rfl, rfl, rfl, rfl, rfl, rfl, rfl⟩

theorem CountInv.congr (h : CountInv b) (hap : b.Apart b') : CountInv b' := by
  obtain ⟨hnum, hdone, htaken, hvec, hrun, hpc, hproc⟩ := hap
  obtain ⟨num, small, empty, counted, near⟩ := h
  refine ⟨by rw [hnum, hdone, num], by rw [hvec, hpc]; exact small, ?_, ?_, by rw [hrun, hdone, htaken]; exact near⟩
  · rw [hrun, hvec, Engine.Drained, hpc, hproc]
    exact empty
  · rw [hrun, hdone, htaken, unreported, hpc, hvec]
    exact counted

theorem drives_apart (hd : s.Drives s') : s.eng.Apart s'.eng := by
  cases hd with
  | fill | startMore | startLast | kickActive | kickWrite => exact ⟨rfl, rfl, rfl, rfl, rfl, rfl, rfl⟩
  | _ => exact .refl

theorem step_apart (hs : System.Step c s s') :
    (∃ a, s' = { s with eng := s.eng.step c a }) ∨ s.eng.Apart s'.eng := by
  cases hs with
  | engine a => exact .inl ⟨a, rfl⟩
  | driver => exact .inr (drives_apart s.drives)
  | submit cmd unit block nblks buffer hidle =>
    right
    cases hq : s.drv.reqQueue <;> simp only [receiveCmd, hq] <;> exact .refl
  | interrupt hidle =>
    right
    unfold handleIrq
    split
    · exact ⟨rfl, rfl, rfl, rfl, rfl, rfl, rfl⟩
    · exact .refl
  | event => exact .inr ⟨rfl, rfl, rfl, rfl, rfl, rfl, rfl⟩

theorem countInv_system (hs : System.Step c s s') (h : CountInv s.eng) : CountInv s'.eng := by
  obtain ⟨a, rfl⟩ | hap := step_apart hs
  · exact countInv_step h
  · exact h.congr hap

theorem running_engine (h : (b.step c a).running = true) : b.running = true := by
  unfold step at h
  cases hpc : b.pc with
  | blocked =>
    rw [hpc] at h
    by_cases hpipe : b.pipe = 0
    · simpa only [hpipe, if_true] using h
    · simpa only [hpipe, if_false] using h
  | io =>
    rw [hpc] at h
    simp only [io] at h
    split_ifs at h <;> exact h
  | process f =>
    rw [hpc] at h
    simp only [handle, addBuf] at h
    split_ifs at h
    · split at h <;> exact h
    all_goals exact h
  | fail =>
    rw [hpc] at h
    cases h
  | _ =>
    rw [hpc] at h
    exact h

theorem running_step (hs : System.Step c s s') (h : s'.eng.running = true) : s.eng.running = true := by
  obtain ⟨a, rfl⟩ | hap := step_apart hs
  · exact running_engine h
  · rwa [hap.running] at h

/-! ## The queues -/

theorem describe_id (r : Req) (d : Desc) : (r.describe d).2.1.id = r.id := by
  simp only [Req.describe]
  split_ifs <;> rfl

def Req.Right (r : Req) : Prop := if r.failed then (r.buffer r.xferCnt).1 = 0 else r.xferCnt = r.totalCnt

theorem describe_right (r : Req) (d : Desc) (h : r.failed = false) (hlast : (r.describe d).2.2 = true) :
    (r.describe d).2.1.Right := by
  simp only [Req.describe] at hlast ⊢
  split_ifs at hlast ⊢ with hneg htot hseg hover hfull hfull
  · simp [Req.Right, h, htot]
  · simp [Req.Right, hseg]
  · simp [Req.Right, h]
  · simp [Req.Right, h, hfull]

theorem describe_fresh (r : Req) (d : Desc) (h : r.failed = false) (hlast : (r.describe d).2.2 = false) :
    (r.describe d).2.1.failed = false := by
  simp only [Req.describe] at hlast ⊢
  split_ifs at hlast ⊢ <;> exact h

def DrvPc.held : DrvPc → List Req
  | .check r _ | .fill r _ | .start _ (some r) _ => [r]
  | _ => []

def Driver.unfilled (d : Driver) : List Req := d.pc.held ++ d.reqQueue

def Driver.filled (d : Driver) : List Req := d.completed ++ d.complQueue

structure Req.Numbered (r : Req) (posts : List (Word × Nat)) : Prop where
  num : r.reqNum = BitVec.ofNat 32 r.last
  mem : ∃ i w, r.last = i + 1 ∧ posts[i]? = some (w, r.id)
  above : ∀ i w, posts[i]? = some (w, r.id) → i < r.last

structure QueueInv (d : Driver) : Prop where
  order : (d.filled ++ d.unfilled).map Req.id = range d.submitted
  fresh : ∀ r ∈ d.unfilled, r.failed = false
  count : d.reqCount = BitVec.ofNat 32 d.posts.length
  slots : ∀ i w id, d.posts[i]? = some (w, id) → w = slot (i + 1)
  sorted : (d.posts.map Prod.snd).Pairwise (· ≤ ·)
  bounded : ∀ p ∈ d.posts, p.2 ≤ d.filled.length
  numbered : ∀ r ∈ d.filled, r.Numbered d.posts
  increasing : (d.filled.map Req.last).Pairwise (· < ·)
  right : ∀ r ∈ d.filled, r.Right

theorem QueueInv.congr (h : QueueInv d) (hfilled : d'.filled = d.filled) (hunfilled : d'.unfilled = d.unfilled)
    (hsub : d'.submitted = d.submitted) (hcount : d'.reqCount = d.reqCount) (hposts : d'.posts = d.posts) :
    QueueInv d' := by
  obtain ⟨order, fresh, count, slots, sorted, bounded, numbered, increasing, right⟩ := h
  constructor <;> simp only [hfilled, hunfilled, hsub, hcount, hposts] <;> assumption

theorem eq_range_of_append {l l' : List Nat} {n : Nat} (h : l ++ l' = range n) : l = range l.length := by
  have hlen : l.length ≤ n := by
    have := congrArg length h
    rw [length_append, length_range] at this
    omega
  have htake := prefix_iff_eq_take.mp ⟨l', h⟩
  rwa [take_range, min_eq_left hlen] at htake

theorem QueueInv.filled_ids (h : QueueInv d) : d.filled.map Req.id = range d.filled.length := by
  have horder := h.order
  rw [map_append] at horder
  have := eq_range_of_append horder
  rwa [length_map] at this

theorem QueueInv.filled_id (h : QueueInv d) (hr : r ∈ d.filled) : r.id < d.filled.length := by
  have hmem : r.id ∈ d.filled.map Req.id := mem_map_of_mem hr
  rwa [h.filled_ids, mem_range] at hmem

theorem QueueInv.held_id {rs : List Req} (h : QueueInv d) (hr : d.unfilled = r :: rs) : r.id = d.filled.length := by
  have horder := congrArg (fun l => l[d.filled.length]?) h.order
  simp only [hr, map_append] at horder
  rw [getElem?_append_right (by simp), length_map, Nat.sub_self] at horder
  obtain ⟨hlt, hget⟩ := List.getElem?_eq_some_iff.mp horder.symm
  rw [getElem_range] at hget
  exact hget.symm

theorem Req.Numbered.last_le (h : r.Numbered posts) : r.last ≤ posts.length := by
  obtain ⟨i, w, hlast, hget⟩ := h.mem
  obtain ⟨hlt, -⟩ := List.getElem?_eq_some_iff.mp hget
  omega

theorem Req.Numbered.snoc {id : Nat} (h : r.Numbered posts) (hne : r.id ≠ id) :
    r.Numbered (posts ++ [(w, id)]) := by
  obtain ⟨hnum, ⟨i, v, hlast, hget⟩, habove⟩ := h
  obtain ⟨hlt, -⟩ := List.getElem?_eq_some_iff.mp hget
  refine ⟨hnum, ⟨i, v, hlast, ?_⟩, fun j v' hj => ?_⟩
  · rw [getElem?_append_left hlt]
    exact hget
  by_cases hjlt : j < posts.length
  · rw [getElem?_append_left hjlt] at hj
    exact habove j v' hj
  · rw [getElem?_append_right (Nat.le_of_not_lt hjlt), getElem?_singleton] at hj
    split at hj
    · cases hj
      exact absurd rfl hne
    · nomatch hj

theorem numbered_snoc (hnum : r.reqNum = BitVec.ofNat 32 r.last)
    (hlast : r.last = posts.length + 1) : r.Numbered (posts ++ [(w, r.id)]) := by
  refine ⟨hnum, ⟨posts.length, w, hlast, by simp⟩, fun i v hi => ?_⟩
  obtain ⟨hlt, -⟩ := List.getElem?_eq_some_iff.mp hi
  simp only [length_append, length_singleton] at hlt
  omega

theorem slots_snoc (id : Nat) (h : ∀ i w id, posts[i]? = some (w, id) → w = slot (i + 1)) :
    ∀ i w id', (posts ++ [(slot (posts.length + 1), id)])[i]? = some (w, id') → w = slot (i + 1) := by
  intro i w id' hi
  by_cases hlt : i < posts.length
  · rw [getElem?_append_left hlt] at hi
    exact h i w id' hi
  rw [getElem?_append_right (Nat.le_of_not_lt hlt), getElem?_singleton] at hi
  split at hi
  · have hlen : i = posts.length := by omega
    cases hi
    rw [hlen]
  · nomatch hi

theorem queueInv_fill {k : Caller} (hr : RingInv s.eng s.drv) (hpc : s.drv.pc = .fill r k) (h : QueueInv s.drv) :
    QueueInv (s.fill r k).drv := by
  have hheld : s.drv.unfilled = r :: s.drv.reqQueue := by simp [Driver.unfilled, hpc, DrvPc.held]
  have hid : r.id = s.drv.filled.length := h.held_id hheld
  have hnid : (s.numbered r).id = r.id := describe_id _ _
  have hfresh : r.failed = false := h.fresh r (by simp [hheld])
  have hposts : (s.fill r k).drv.posts = s.drv.posts ++ [(slot (s.drv.posts.length + 1), r.id)] := by
    rw [← hr.nextSlot]
    rfl
  have hcount : (s.fill r k).drv.reqCount = BitVec.ofNat 32 (s.fill r k).drv.posts.length := by
    rw [hposts, length_append, BitVec.ofNat_add, ← h.count]
    rfl
  have hslots := slots_snoc r.id h.slots
  have hsorted : ((s.fill r k).drv.posts.map Prod.snd).Pairwise (· ≤ ·) := by
    rw [hposts, map_append, pairwise_append]
    refine ⟨h.sorted, pairwise_singleton _ _, fun i hi j hj => ?_⟩
    obtain ⟨p, hp, rfl⟩ := mem_map.mp hi
    obtain rfl : j = r.id := by simpa using hj
    rw [hid]
    exact h.bounded p hp
  have hbounded : ∀ p ∈ (s.fill r k).drv.posts, p.2 ≤ s.drv.filled.length := by
    intro p hp
    rw [hposts, mem_append, mem_singleton] at hp
    obtain hp | rfl := hp
    · exact h.bounded p hp
    · exact le_of_eq hid
  have hnumbered : ∀ q ∈ s.drv.filled, q.Numbered (s.fill r k).drv.posts := by
    intro q hq
    have hlt := h.filled_id hq
    exact (h.numbered q hq).snoc (by omega)
  cases hlast : s.isLast r with
  | false =>
    have hfilled : (s.fill r k).drv.filled = s.drv.filled := by simp [Driver.filled, fill, hlast]
    have hunfilled : (s.fill r k).drv.unfilled = s.numbered r :: s.drv.reqQueue := by
      simp [Driver.unfilled, fill, hlast, DrvPc.held]
    refine ⟨?_, ?_, hcount, by rw [hposts]; exact hslots, hsorted, ?_, ?_, ?_, ?_⟩
    · rw [hfilled, hunfilled, map_append, map_cons, hnid, ← map_cons, ← hheld, ← map_append]
      exact h.order
    · rw [hunfilled]
      intro q hq
      obtain rfl | hq := mem_cons.mp hq
      · exact describe_fresh r _ hfresh hlast
      · exact h.fresh q (by rw [hheld]; exact mem_cons_of_mem r hq)
    · rw [hfilled]
      exact hbounded
    · rw [hfilled]
      exact hnumbered
    · rw [hfilled]
      exact h.increasing
    · rw [hfilled]
      exact h.right
  | true =>
    have hfilled : (s.fill r k).drv.filled = s.drv.filled ++ [s.numbered r] := by
      simp [Driver.filled, fill, hlast]
    have hunfilled : (s.fill r k).drv.unfilled = s.drv.reqQueue := by
      simp [Driver.unfilled, fill, hlast, DrvPc.held]
    refine ⟨?_, ?_, hcount, by rw [hposts]; exact hslots, hsorted, ?_, ?_, ?_, ?_⟩
    · have horder := h.order
      rw [hheld] at horder
      rw [hfilled, hunfilled]
      simp only [map_append, map_cons, append_assoc, hnid] at horder ⊢
      exact horder
    · rw [hunfilled]
      intro q hq
      exact h.fresh q (by rw [hheld]; exact mem_cons_of_mem r hq)
    · intro p hp
      rw [hfilled, length_append]
      exact Nat.le_add_right_of_le (hbounded p hp)
    · rw [hfilled]
      intro q hq
      obtain hq | hq := mem_append.mp hq
      · exact hnumbered q hq
      obtain rfl := mem_singleton.mp hq
      rw [hposts, ← hnid]
      refine numbered_snoc ?_ rfl
      show s.drv.reqCount + 1 = BitVec.ofNat 32 (s.drv.posts.length + 1)
      rw [h.count, BitVec.ofNat_add]
      rfl
    · rw [hfilled, map_append, pairwise_append]
      refine ⟨h.increasing, pairwise_singleton _ _, fun i hi j hj => ?_⟩
      obtain ⟨q, hq, rfl⟩ := mem_map.mp hi
      obtain rfl : j = (s.numbered r).last := by simpa using hj
      exact Nat.lt_succ_of_le (h.numbered q hq).last_le
    rw [hfilled]
    intro q hq
    obtain hq | hq := mem_append.mp hq
    · exact h.right q hq
    · obtain rfl := mem_singleton.mp hq
      exact describe_right r _ hfresh hlast

theorem afterKick_held (k : Kicker) : (afterKick k).held = [] := by
  cases k with
  | process ok k => cases k <;> cases ok <;> rfl
  | ack => rfl

theorem queueInv_driver (hd : s.Drives s') (hr : RingInv s.eng s.drv) (h : QueueInv s.drv) : QueueInv s'.drv := by
  -- most steps only move the request that the driver is at
  have hmoves : ∀ d : Driver, d.filled = s.drv.filled → d.unfilled = s.drv.unfilled →
      d.submitted = s.drv.submitted → d.reqCount = s.drv.reqCount → d.posts = s.drv.posts → QueueInv d :=
    fun _ => h.congr
  unfold Driver.unfilled at hmoves
  cases hd with
  | idle => exact h
  | fill hpc => exact queueInv_fill hr hpc h
  | @runs ok k hpc =>
    rw [hpc] at hmoves
    exact hmoves _ rfl (congrArg (· ++ _) (afterKick_held (.process ok k))) rfl rfl rfl
  | kicked hpc | kickWrite hpc =>
    rw [hpc] at hmoves
    exact hmoves _ rfl (congrArg (· ++ _) (afterKick_held _)) rfl rfl rfl
  | complete hpc hq => exact hmoves _ (by simp [Driver.filled, hq]) rfl rfl rfl rfl
  | request hpc hq =>
    rw [hpc] at hmoves
    exact hmoves _ rfl (by simp [hq, DrvPc.held]) rfl rfl rfl
  | full hpc | free hpc | startMore hpc | startLast hpc | stands hpc | kick hpc | kickActive hpc | restart hpc
  | noRestart hpc | ackCount hpc | ackActive hpc | completed hpc | requested hpc =>
    rw [hpc] at hmoves
    exact hmoves _ rfl rfl rfl rfl rfl

theorem queueInv_submit (h : QueueInv d) (hid : r.id = d.submitted) (hfailed : r.failed = false)
    (hfilled : d'.filled = d.filled) (hunfilled : d'.unfilled = d.unfilled ++ [r])
    (hsub : d'.submitted = d.submitted + 1) (hcount : d'.reqCount = d.reqCount)
    (hposts : d'.posts = d.posts) :
    QueueInv d' := by
  obtain ⟨order, fresh, count, slots, sorted, bounded, numbered, increasing, right⟩ := h
  constructor <;> simp only [hfilled, hunfilled, hsub, hcount, hposts] <;> try assumption
  · rw [← append_assoc, map_append, order, range_succ, map_singleton, hid]
  · intro q hq
    obtain hq | hq := mem_append.mp hq
    · exact fresh q hq
    · rw [mem_singleton.mp hq]
      exact hfailed

theorem queueInv_step (hs : System.Step c s s') (hr : RingInv s.eng s.drv) (h : QueueInv s.drv) : QueueInv s'.drv := by
  cases hs with
  | engine a => exact h
  | driver => exact queueInv_driver s.drives hr h
  | submit cmd unit block nblks buffer hidle =>
    have hheld : s.drv.unfilled = s.drv.reqQueue := by simp [Driver.unfilled, hidle, DrvPc.held]
    cases hq : s.drv.reqQueue with
    | nil | cons _ _ =>
      simp only [receiveCmd, hq]
      refine queueInv_submit (r := s.newReq cmd unit block nblks buffer) h rfl rfl rfl ?_ rfl rfl rfl
      rw [hheld, hq]
      simp [Driver.unfilled, hidle, DrvPc.held]
  | interrupt hidle =>
    unfold handleIrq
    split
    · exact h.congr rfl (by simp [Driver.unfilled, goto, hidle, DrvPc.held]) rfl rfl rfl
    · exact h
  | event => exact h

end MacOnLinux.Ablk
