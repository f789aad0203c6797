import MacOnLinux.Lib.Linked

/-! # The classic ethernet driver (`drivers/net/mac_enet.c`)

The buffers are numbered, and are on the free list or on the receive queue. A packet stands in its
buffer behind `packet_pad` bytes that nobody reads; the model leaves them out.
-/

namespace MacOnLinux.MacEnet

open Linked Function List

abbrev Packet := List (BitVec 8)

abbrev Ptr := Option Nat

def rxQueueSize : Nat := 32
def maxPacketSize : Nat := 1514

structure Iface where
  packetPad : Nat
  macaddr : List (BitVec 8)

structure Entry where
  psize : Nat
  packet : Packet

/-- `mac_enet_t` with its buffers; and as a record the packets that were queued and those that were
taken off the queue since the last stop. -/
structure State where
  rxQhead : Ptr
  rxQtail : Ptr
  freeHead : Ptr
  next : Ptr → Ptr
  entry : Nat → Entry
  started : Bool
  accepted : List Packet
  taken : List Packet

/-- What `params[1]` of `osip_get_packet` is: 0, no address of the guest's memory, or one. -/
inductive Dest where
  | zero
  | unmapped
  | mapped
  deriving DecidableEq, Repr

/-- What is copied to the guest. -/
def Dest.copy (d : Dest) (p : Packet) : Option Packet := if d = .mapped then some p else none

/-- What was accepted and not taken. -/
def State.pending (s : State) : List Packet := s.accepted.drop s.taken.length

variable (iface : Iface)

def Entry.content (e : Entry) : Packet := e.packet.take (e.psize - iface.packetPad)

def addFree (s : State) (pkg : Nat) : State :=
  { s with next := update s.next (some pkg) s.freeHead, freeHead := some pkg }

def init (n : Nat) : State :=
  (range n).foldl addFree ⟨none, none, none, fun _ => none, fun _ => ⟨0, []⟩, false, [], []⟩

def queueRxPacket (s : State) (pkg : Nat) : State :=
  let s := { s with next := update s.next (some pkg) none }
  match s.rxQtail with
  | some last => { s with next := update s.next (some last) (some pkg), rxQtail := some pkg }
  | none => { s with rxQtail := some pkg, rxQhead := some pkg }

/-- The packet goes to the first free buffer, if there is one. -/
def accept (s : State) (e : Entry) : State :=
  match s.freeHead with
  | none => s
  | some pkg =>
    queueRxPacket { s with
      freeHead := s.next (some pkg)
      entry := update s.entry pkg e
      accepted := s.accepted ++ [e.content iface] } pkg

/-- What is done with the bytes of one read. -/
def received (s : State) (buf : List (BitVec 8)) : State :=
  let packet := buf.drop iface.packetPad
  if buf.length < 14 + iface.packetPad || !s.started then s
  else if packet.getD 0 0 &&& 1 = 0 ∧ packet.take 6 ≠ iface.macaddr then s
  else accept iface s ⟨min buf.length (iface.packetPad + maxPacketSize), packet⟩

def injectPacket (s : State) (buf : List (BitVec 8)) : State :=
  let packet := buf.take maxPacketSize
  accept iface s ⟨packet.length + iface.packetPad, packet⟩

/-- `osip_get_packet`: nothing if it returns -1, otherwise what it has copied. -/
def getPacket (s : State) (dest : Dest) : State × Option (Option Packet) :=
  match s.rxQhead with
  | none => (s, none)
  | some pkg =>
    let packet := (s.entry pkg).content iface
    let head := s.next (some pkg)
    (addFree { s with
      rxQhead := head
      rxQtail := if head = none then none else s.rxQtail
      taken := s.taken ++ [packet] } pkg, some (dest.copy packet))

def stop (s : State) : State :=
  let s := { s with started := false, accepted := [], taken := [] }
  match s.rxQtail with
  | some last =>
    { s with
      next := update s.next (some last) s.freeHead, freeHead := s.rxQhead, rxQtail := none, rxQhead := none }
  | none => s

inductive Op where
  | received (buf : List (BitVec 8))
  | inject (buf : List (BitVec 8))
  | getPacket (dest : Dest)
  | start
  | stop

def step (s : State) : Op → State
  | .received buf => received iface s buf
  | .inject buf => injectPacket iface s buf
  | .getPacket dest => (getPacket iface s dest).1
  | .start => { s with started := true }
  | .stop => stop s

def run (ops : List Op) : State := ops.foldl (step iface) (init rxQueueSize)

/-! ## The two lists -/

/-- Of `n` buffers those of `q` are on the queue and those of `f` are free. -/
structure Rep (n : Nat) (s : State) (q f : List Nat) : Prop where
  queue : Seg s.next s.rxQhead (q.map some) none
  tail : s.rxQtail = q.getLast?
  free : Seg s.next s.freeHead (f.map some) none
  buffers : (q ++ f).Perm (range n)
  sizes : ∀ e ∈ q.map s.entry, e.psize ≤ iface.packetPad + maxPacketSize
  order : s.accepted = s.taken ++ (q.map s.entry).map (·.content iface)

variable {iface} {n : Nat} {s : State} {q f : List Nat}

section Links

variable {next : Ptr → Ptr} {a b c : Ptr} {x : Nat} {xs : List Nat}

theorem seg_frame (hx : x ∉ xs) : Seg (update next (some x) c) a (xs.map some) b ↔ Seg next a (xs.map some) b :=
  seg_update (by simpa using hx)

theorem seg_push (hx : x ∉ xs) (hs : Seg next a (xs.map some) b) :
    Seg (update next (some x) a) (some x) ((x :: xs).map some) b := by
  refine ⟨rfl, ?_⟩
  rw [update_self]
  exact (seg_frame hx).mpr hs

/-- Only the link of the last cell says where a walk goes on. -/
theorem seg_retarget (hx : x ∉ xs) (hs : Seg next a ((xs ++ [x]).map some) b) :
    Seg (update next (some x) c) a ((xs ++ [x]).map some) c := by
  rw [map_append, seg_append] at hs ⊢
  obtain ⟨m, hxs, rfl, -⟩ := hs
  exact ⟨some x, (seg_frame hx).mpr hxs, rfl, update_self ..⟩

end Links

theorem Rep.nodup (h : Rep iface n s q f) : (q ++ f).Nodup := h.buffers.nodup_iff.mpr nodup_range

theorem Rep.init (n : Nat) : Rep iface n (init n) [] (range n).reverse := by
  induction n with
  | zero => exact ⟨rfl, rfl, rfl, .refl _, nofun, rfl⟩
  | succ n ih =>
    unfold MacEnet.init
    rw [range_succ, foldl_append, reverse_append]
    refine ⟨ih.queue, ih.tail, seg_push (by simp) ih.free, ?_, nofun, ih.order⟩
    have hswap : ([n] ++ (range n).reverse).Perm ((range n).reverse ++ [n]) := perm_append_comm
    rw [range_succ]
    exact hswap.trans (ih.buffers.append_right [n])

/-- The link to the new buffer is written to the last one, if there is one. -/
theorem queueRxPacket_spec {pkg : Nat} (hq : Seg s.next s.rxQhead (q.map some) none) (htail : s.rxQtail = q.getLast?)
    (hf : Seg s.next s.freeHead (f.map some) none) (hnd : (q ++ pkg :: f).Nodup) :
    ∃ next head, queueRxPacket s pkg = { s with next := next, rxQhead := head, rxQtail := some pkg } ∧
      Seg next head ((q ++ [pkg]).map some) none ∧ Seg next s.freeHead (f.map some) none := by
  have hpf : pkg ∉ f := by grind
  unfold queueRxPacket
  rcases eq_nil_or_concat' q with rfl | ⟨ys, last, rfl⟩
  · rw [show s.rxQtail = none from htail]
    exact ⟨_, _, rfl, ⟨rfl, update_self ..⟩, (seg_frame hpf).mpr hf⟩
  · have hne : some pkg ≠ some last := by grind
    rw [getLast?_concat] at htail
    rw [htail]
    refine ⟨_, _, rfl, ?_, (seg_frame (by grind)).mpr ((seg_frame hpf).mpr hf)⟩
    rw [map_append, seg_append]
    refine ⟨some pkg, seg_retarget (by grind) ((seg_frame (by grind)).mpr hq), rfl, ?_⟩
    exact (update_of_ne hne ..).trans (update_self ..)

theorem Rep.accept (h : Rep iface n s q f) {e : Entry} (hsize : e.psize ≤ iface.packetPad + maxPacketSize) :
    ∃ q' f', Rep iface n (accept iface s e) q' f' := by
  unfold MacEnet.accept
  cases f with
  | nil =>
    rw [show s.freeHead = none from h.free]
    exact ⟨q, [], h⟩
  | cons pkg f =>
    obtain ⟨hfree, hrest⟩ := h.free
    have hq : (q ++ [pkg]).map (update s.entry pkg e) = q.map s.entry ++ [e] := by
      rw [map_append, map_singleton, update_self, map_congr_left]
      intro p hp
      exact update_of_ne (by have := h.nodup; grind) ..
    obtain ⟨next, head, heq, hqueue, hf⟩ := queueRxPacket_spec (s := { s with
      freeHead := s.next (some pkg)
      entry := update s.entry pkg e
      accepted := s.accepted ++ [e.content iface] }) h.queue h.tail hrest h.nodup
    rw [hfree]
    dsimp only
    rw [heq]
    refine ⟨q ++ [pkg], f, hqueue, (getLast?_concat ..).symm, hf, ?_, ?_, ?_⟩
    · rw [append_assoc]
      exact h.buffers
    · rw [hq]
      exact forall_mem_append.mpr ⟨h.sizes, forall_mem_singleton.mpr hsize⟩
    · rw [hq, map_append, ← append_assoc, ← h.order]
      rfl

theorem Rep.getPacket (h : Rep iface n s q f) (dest : Dest) :
    ∃ q' f', Rep iface n (getPacket iface s dest).1 q' f' := by
  cases q with
  | nil =>
    have hhead : s.rxQhead = none := h.queue
    refine ⟨[], f, ?_⟩
    simp only [MacEnet.getPacket, hhead]
    exact h
  | cons pkg q =>
    obtain ⟨hhead, hrest⟩ := h.queue
    obtain ⟨hq, hf⟩ : pkg ∉ q ∧ pkg ∉ f := by
      have hnd := h.nodup
      grind
    refine ⟨q, pkg :: f, ?_⟩
    simp only [MacEnet.getPacket, hhead]
    refine ⟨(seg_frame hq).mpr hrest, ?_, seg_push hf h.free, perm_middle.trans h.buffers, ?_, ?_⟩
    · rw [seg_head hrest, h.tail]
      cases q <;> rfl
    · exact (forall_mem_cons.mp h.sizes).2
    · rw [addFree, h.order]
      simp

theorem Rep.pending (h : Rep iface n s q f) : s.pending = (q.map s.entry).map (·.content iface) := by
  rw [State.pending, h.order, drop_left]

/-- A call takes the oldest packet, whether it copies it or not. -/
theorem Rep.takes (h : Rep iface n s q f) (dest : Dest) :
    (MacEnet.getPacket iface s dest).2 = s.pending.head?.map dest.copy ∧
      (MacEnet.getPacket iface s dest).1.pending = s.pending.tail := by
  have hpending := h.pending
  unfold MacEnet.getPacket
  cases q with
  | nil =>
    rw [show s.rxQhead = none from h.queue, hpending]
    exact ⟨rfl, rfl⟩
  | cons pkg q =>
    rw [h.queue.1]
    refine ⟨by rw [hpending]; rfl, ?_⟩
    show s.accepted.drop (s.taken ++ [_]).length = _
    rw [length_append, length_singleton, State.pending, tail_drop]

theorem Rep.stop (h : Rep iface n s q f) : Rep iface n (stop s) [] (q ++ f) := by
  have htail := h.tail
  unfold MacEnet.stop
  rcases eq_nil_or_concat' q with rfl | ⟨ys, last, rfl⟩
  · rw [show s.rxQtail = none from htail]
    exact ⟨h.queue, rfl, h.free, h.buffers, nofun, rfl⟩
  · have hnd := h.nodup
    rw [getLast?_concat] at htail
    rw [htail]
    refine ⟨rfl, rfl, ?_, h.buffers, nofun, rfl⟩
    rw [map_append, seg_append]
    exact ⟨s.freeHead, seg_retarget (by grind) h.queue, (seg_frame (by grind)).mpr h.free⟩

theorem Rep.step (h : Rep iface n s q f) (op : Op) : ∃ q' f', Rep iface n (step iface s op) q' f' := by
  cases op with
  | received buf =>
    unfold MacEnet.step received
    dsimp only
    split
    · exact ⟨q, f, h⟩
    · split
      · exact ⟨q, f, h⟩
      · exact h.accept (min_le_right ..)
  | inject buf =>
    refine h.accept ?_
    have hlen := length_take_le maxPacketSize buf
    dsimp only
    omega
  | getPacket dest => exact h.getPacket dest
  | start => exact ⟨q, f, h.queue, h.tail, h.free, h.buffers, h.sizes, h.order⟩
  | stop => exact ⟨[], q ++ f, h.stop⟩

theorem rep_run (iface : Iface) (ops : List Op) : ∃ q f, Rep iface rxQueueSize (run iface ops) q f := by
  unfold run
  suffices ∀ s, (∃ q f, Rep iface rxQueueSize s q f) →
      ∃ q f, Rep iface rxQueueSize (ops.foldl (MacEnet.step iface) s) q f from this _ ⟨[], _, .init _⟩
  induction ops with
  | nil => exact fun s h => h
  | cons op ops ih =>
    rintro s ⟨q, f, h⟩
    exact ih _ (h.step op)

theorem run_ordered (iface : Iface) (ops : List Op) : (∃ q f, Rep iface rxQueueSize (run iface ops) q f) ∧
    ∀ dest, (getPacket iface (run iface ops) dest).2 = (run iface ops).pending.head?.map dest.copy ∧
      (getPacket iface (run iface ops) dest).1.pending = (run iface ops).pending.tail := by
  obtain ⟨q, f, h⟩ := rep_run iface ops
  exact ⟨⟨q, f, h⟩, h.takes⟩

theorem run_ordered_two :
    (getPacket ⟨0, []⟩ (run ⟨0, []⟩ [.inject [1], .inject [2]]) .mapped).2 = some (some [1]) ∧
      (getPacket ⟨0, []⟩ (run ⟨0, []⟩ [.inject [1], .inject [2]]) .mapped).1.pending = [[2]] := by
  obtain ⟨hcopied, hrest⟩ := (run_ordered ⟨0, []⟩ [.inject [1], .inject [2]]).2 .mapped
  have hpending : (run ⟨0, []⟩ [.inject [1], .inject [2]]).pending = [[1], [2]] := by decide +kernel
  rw [hcopied, hrest, hpending]
  exact ⟨rfl, rfl⟩

/-- Without an address the first packet is dropped, and the next call gives the second one. -/
theorem taken_without_address :
    (run ⟨0, []⟩ [.inject [1], .inject [2]]).pending = [[1], [2]] ∧
    (getPacket ⟨0, []⟩ (run ⟨0, []⟩ [.inject [1], .inject [2]]) .zero).2 = some none ∧
    (getPacket ⟨0, []⟩ (run ⟨0, []⟩ [.inject [1], .inject [2], .getPacket .zero]) .mapped).2 = some (some [2]) := by
  decide +kernel

/-! ## The handler -/

inductive Read where
  | data (buf : List (BitVec 8))
  | error (errno : Nat)

def eagain : Nat := 11

/-- The loop of `rx_packet_handler` from its `n`-th read on. -/
def rxPacketHandler (iface : Iface) (reads : Nat → Read) : Nat → Nat → State → Option State
  | 0, _, _ => none
  | fuel + 1, n, s =>
    match reads n with
    | .error errno => if errno = eagain then some s else rxPacketHandler iface reads fuel (n + 1) s
    | .data buf => rxPacketHandler iface reads fuel (n + 1) (received iface s buf)

theorem rxPacketHandler_eagain {reads : Nat → Read} {fuel : Nat} {s' : State}
    (h : rxPacketHandler iface reads fuel n s = some s') : ∃ n, reads n = .error eagain := by
  induction fuel generalizing n s with
  | zero => cases h
  | succ fuel ih =>
    unfold rxPacketHandler at h
    split at h
    next errno hread =>
      by_cases he : errno = eagain
      · exact ⟨n, he ▸ hread⟩
      · rw [if_neg he] at h
        exact ih h
    next => exact ih h

theorem rxPacketHandler_returns {reads : Nat → Read} (k : Nat) (hread : reads (n + k) = .error eagain) (s : State) :
    ∃ s', rxPacketHandler iface reads (k + 1) n s = some s' := by
  induction k generalizing n s with
  | zero =>
    unfold rxPacketHandler
    rw [show reads n = _ from hread]
    exact ⟨s, rfl⟩
  | succ k ih =>
    rw [← Nat.succ_add_eq_add_succ] at hread
    unfold rxPacketHandler
    split
    · split
      · exact ⟨s, rfl⟩
      · exact ih hread s
    · exact ih hread _

theorem rxPacketHandler_returns_iff (iface : Iface) (reads : Nat → Read) (s : State) :
    (∃ fuel s', rxPacketHandler iface reads fuel 0 s = some s') ↔ ∃ n, reads n = .error eagain := by
  constructor
  · rintro ⟨fuel, s', h⟩
    exact rxPacketHandler_eagain h
  · rintro ⟨n, hn⟩
    exact ⟨n + 1, rxPacketHandler_returns n ((Nat.zero_add n).symm ▸ hn) s⟩

/-- At the end of the file every read gives nothing. -/
theorem rxPacketHandler_eof :
    ¬ ∃ fuel s', rxPacketHandler ⟨0, []⟩ (fun _ => .data []) fuel 0 (init rxQueueSize) = some s' := by
  rintro ⟨fuel, s', h⟩
  obtain ⟨n, hn⟩ := rxPacketHandler_eagain h
  cases hn

end MacOnLinux.MacEnet
