import MacOnLinux.Drivers.Dma
import MacOnLinux.Lib.Ring

/-! # The ethernet rings (`drivers/net/enet2.c`)

Neither side tells the other its index: a slot is in use while its `psize` is not zero.
-/

namespace MacOnLinux.Enet2

open List Function Nat

open Dma (RingEntry prepareIovec)
open Ablk (Iovec)

variable {δ : Type}

/-! ## The state -/

structure Slots (δ : Type) where
  entry : Nat → RingEntry
  data : Nat → δ

def Slots.store (sl : Slots δ) (i : Nat) (r : RingEntry) (d : δ) : Slots δ :=
  ⟨update sl.entry i r, update sl.data i d⟩

def Slots.setEntry (sl : Slots δ) (i : Nat) (r : RingEntry) : Slots δ := { sl with entry := update sl.entry i r }

inductive Source where
  | wire
  | injector
  deriving DecidableEq, Repr

/-- The `rx_` fields of `mol_enet2_t`; `isSet` says that the ring is not NULL. -/
structure RxSide (δ : Type) where
  isSet : Bool
  ring : Slots δ
  ofRing : Nat → RingEntry
  tail : Word
  mask : Word
  accepted : List (Source × δ)
  /-- The slot of each of them and the `psize` found there. -/
  found : List (Nat × Word)
  offered : List δ

structure TxSide (δ : Type) where
  isSet : Bool
  ring : Slots δ
  ofRing : Nat → RingEntry
  head : Word
  mask : Word
  /-- The packets given to `send_packet`, and their slots. -/
  sent : List δ
  slots : List Nat

structure Nic (δ : Type) where
  running : Bool
  irqEnable : Bool
  irqLine : Bool
  rx : RxSide δ
  tx : TxSide δ

def addNetdev (rx tx : Slots δ) (rxOf txOf : Nat → RingEntry) : Nic δ where
  running := false
  irqEnable := false
  irqLine := false
  rx := ⟨false, rx, rxOf, 0, 0, [], [], []⟩
  tx := ⟨false, tx, txOf, 0, 0, [], []⟩

structure Packet (δ : Type) where
  s : Word
  data : δ

structure Reply (δ : Type) where
  len : Word
  data : δ
  pos : len ≠ 0

/-- `intercept` is the reply to an outgoing packet. -/
structure Card (δ : Type) where
  mem : Memory
  packetPad : Word
  intercept : δ → Option (Reply δ)
  rxSize : Word
  txSize : Word

/-! ## OSI interface -/

inductive RingKind where
  | rx
  | tx
  | rxOverflow
  | txOverflow
  deriving DecidableEq, Repr

/-- `osip_enet2_ring_setup`; `mapped` says that the address of the ring is in RAM. -/
def ringSetup (ring : RingKind) (mapped : Bool) (n : Word) (s : Nic δ) : Nic δ × Word :=
  if s.running then (s, -1)
  else if !mapped then (s, -1)
  else match ring with
    | .rx => ({ s with rx := { s.rx with isSet := true, tail := 0, mask := n - 1 } }, 0)
    | .tx => ({ s with tx := { s.tx with isSet := true, head := 0, mask := n - 1 } }, 0)
    | .rxOverflow => (s, 0)
    | .txOverflow => (s, 0)

def start (s : Nic δ) : Nic δ × Word :=
  if !s.rx.isSet || !s.tx.isSet then (s, 1) else ({ s with running := true, irqEnable := true }, 0)

def irqAck (enable : Bool) (ind : Word) (s : Nic δ) : Nic δ × Bool :=
  ({ s with irqEnable := enable, irqLine := false },
    s.running && (s.rx.ring.entry (ind &&& s.rx.mask).toNat).psize != 0)

/-! ## Packet receiver -/

/-- `memcpy_tovec`; the length of a buffer is compared as an unsigned number. -/
def memcpyTovec : List Iovec → Word → Word
  | [], _ => 0
  | v :: vec, len =>
    if len = 0 then 0
    else
      let s := if len < v.len then len else v.len
      s + memcpyTovec vec (len - s)

def RxSide.store (rx : RxSide δ) (src : Source) (psize : Word) (d : δ) : RxSide δ :=
  let i := rx.tail.toNat
  { rx with
    ring := rx.ring.store i { rx.ring.entry i with psize := psize } d
    tail := (rx.tail + 1) &&& rx.mask
    accepted := rx.accepted ++ [(src, d)]
    found := rx.found ++ [(i, (rx.ring.entry i).psize)] }

def RxSide.prepare (m : Memory) (rx : RxSide δ) (pad : Word) : Option (List Iovec) :=
  prepareIovec m (rx.ring.entry rx.tail.toNat) (rx.ofRing rx.tail.toNat) pad

def RxSide.psize (rx : RxSide δ) : Word := (rx.ring.entry rx.tail.toNat).psize

/-- With what is left on the wire and the count `n`. -/
def rxLoop (c : Card δ) (wire : List (Packet δ)) (n : Nat) (s : Nic δ) : List (Packet δ) × Nat × Nic δ :=
  if s.rx.psize ≠ 0 then
    ([], n + wire.length, s)
  else match s.rx.prepare c.mem c.packetPad with
    | none => (wire, n, { s with running := false })
    | some _ => match wire with
      | [] => ([], n, s)
      | p :: wire =>
        if p.s.toInt ≤ 0 then (wire, n, s)
        else rxLoop c wire (n + 1) { s with rx := s.rx.store .wire (p.s - c.packetPad) p.data }

def rxPacketHandler (c : Card δ) (wire : List (Packet δ)) (s : Nic δ) : List (Packet δ) × Nic δ :=
  if !s.running then ([], s)
  else
    let (wire, n, s) := rxLoop c wire 0 s
    (wire, if n ≠ 0 && s.irqEnable then { s with irqLine := true } else s)

def injectPacket (c : Card δ) (q : Reply δ) (s : Nic δ) : Nic δ :=
  let s := { s with rx := { s.rx with offered := s.rx.offered ++ [q.data] } }
  if !s.running || s.rx.psize ≠ 0 then s
  else match s.rx.prepare c.mem 0 with
    | none => { s with running := false }
    | some vec => { s with rx := s.rx.store .injector (memcpyTovec vec q.len) q.data, irqLine := true }

/-! ## Transmission -/

/-- `send_packet`: a packet that is intercepted can be answered at once. -/
def sendPacket (c : Card δ) (d : δ) (s : Nic δ) : Nic δ :=
  match c.intercept d with
  | none => s
  | some q => injectPacket c q s

def TxSide.advance (tx : TxSide δ) : TxSide δ :=
  let i := tx.head.toNat
  { tx with
    ring := tx.ring.setEntry i { tx.ring.entry i with psize := 0 }
    head := (tx.head + 1) &&& tx.mask
    sent := tx.sent ++ [tx.ring.data i]
    slots := tx.slots ++ [i] }

def kickLoop (c : Card δ) : Nat → Nic δ → Option (Nic δ × Word)
  | 0, _ => none
  | fuel + 1, s =>
    let i := s.tx.head.toNat
    if (s.tx.ring.entry i).psize = 0 then some (s, 0)
    else match Dma.kick c.mem (s.tx.ring.entry i) (s.tx.ofRing i) with
      | none => some ({ s with running := false }, 1)
      | some _ =>
        let s := sendPacket c (s.tx.ring.data i) s
        kickLoop c fuel { s with tx := s.tx.advance }

/-- The head takes at most `mask + 1` values, and each turn frees a slot. -/
def kick (c : Card δ) (s : Nic δ) : Option (Nic δ × Word) :=
  if !s.running then some (s, 1) else kickLoop c (s.tx.mask.toNat + 2) s

/-! ## The card and the guest -/

structure World (δ : Type) where
  nic : Nic δ
  /-- The packets that `receive_packet` has not read yet, and all that have arrived. -/
  wire : List (Packet δ)
  arrived : List δ
  /-- What the guest has read, and the slots that it has read and not recycled. -/
  seen : List δ
  held : List Nat
  filled : List δ

inductive Event (δ : Type) where
  | arrive (p : Packet δ)
  | rxPacketHandler
  | inject (q : Reply δ)
  | kick
  | irqAck (enable : Bool) (ind : Word)
  | read
  | recycle (slot : Nat) (r r2 : RingEntry)
  | fill (r r2 : RingEntry) (d : δ)

def World.read (c : Card δ) (w : World δ) : World δ :=
  let i := w.seen.length % c.rxSize.toNat
  if (w.nic.rx.ring.entry i).psize = 0 ∨ i ∈ w.held then w
  else { w with seen := w.seen ++ [w.nic.rx.ring.data i], held := i :: w.held }

def World.recycle (slot : Nat) (r r2 : RingEntry) (w : World δ) : World δ :=
  if slot ∈ w.held then
    { w with
      nic := { w.nic with rx := { w.nic.rx with
        ring := w.nic.rx.ring.setEntry slot { r with psize := 0 }
        ofRing := update w.nic.rx.ofRing slot r2 } }
      held := w.held.filter (· ≠ slot) }
  else w

def World.fill (c : Card δ) (r r2 : RingEntry) (d : δ) (w : World δ) : World δ :=
  let i := w.filled.length % c.txSize.toNat
  if (w.nic.tx.ring.entry i).psize ≠ 0 ∨ r.psize = 0 then w
  else
    { w with
      nic := { w.nic with tx := { w.nic.tx with
        ring := w.nic.tx.ring.store i r d
        ofRing := update w.nic.tx.ofRing i r2 } }
      filled := w.filled ++ [d] }

/-- One event; `none` if a kick does not return. -/
def step (c : Card δ) : Event δ → World δ → Option (World δ)
  | .arrive p, w => some { w with wire := w.wire ++ [p], arrived := w.arrived ++ [p.data] }
  | .rxPacketHandler, w =>
    let (wire, nic) := rxPacketHandler c w.wire w.nic
    some { w with wire := wire, nic := nic }
  | .inject q, w => some { w with nic := injectPacket c q w.nic }
  | .kick, w => (kick c w.nic).map fun (nic, _) => { w with nic := nic }
  | .irqAck enable ind, w => some { w with nic := (irqAck enable ind w.nic).1 }
  | .read, w => some (w.read c)
  | .recycle slot r r2, w => some (w.recycle slot r r2)
  | .fill r r2 d, w => some (w.fill c r r2 d)

/-- The overflow rings are taken as set up; before that they are NULL. -/
def boot (c : Card δ) (s : Nic δ) : Nic δ :=
  (start (ringSetup .tx true c.txSize (ringSetup .rx true c.rxSize s).1).1).1

def after (c : Card δ) (s : Nic δ) : List (Event δ) → Option (World δ)
  | [] => some ⟨boot c s, [], [], [], [], []⟩
  | e :: es => (after c s es).bind (step c e)

def fromSource (src : Source) (l : List (Source × δ)) : List δ := (l.filter (·.1 = src)).map (·.2)

/-- The packets go through the rings in order, without loss or duplication. -/
structure Delivered (c : Card δ) (w : World δ) : Prop where
  /-- The indices cycle through the slots in order. -/
  tail : w.nic.rx.tail.toNat = w.nic.rx.accepted.length % c.rxSize.toNat
  head : w.nic.tx.head.toNat = w.nic.tx.sent.length % c.txSize.toNat
  /-- Each packet was written to the next slot, and that slot was free. -/
  found : w.nic.rx.found = (range w.nic.rx.accepted.length).map fun k => (k % c.rxSize.toNat, 0)
  /-- Each packet was sent from the next slot. -/
  slots : w.nic.tx.slots = (range w.nic.tx.sent.length).map (· % c.txSize.toNat)
  /-- What the guest has not read is in the next slot. -/
  seen : w.seen <+: w.nic.rx.accepted.map (·.2)
  read : (w.nic.rx.ring.entry (w.seen.length % c.rxSize.toNat)).psize = 0 → w.seen = w.nic.rx.accepted.map (·.2)
  /-- The same for the packets of the guest and `kick`. -/
  sent : w.nic.tx.sent <+: w.filled
  kicked : (w.nic.tx.ring.entry w.nic.tx.head.toNat).psize = 0 → w.nic.tx.sent = w.filled
  /-- Each of the two producers has its packets in order and at most once. -/
  wire : (fromSource .wire w.nic.rx.accepted).Sublist w.arrived
  injector : (fromSource .injector w.nic.rx.accepted).Sublist w.nic.rx.offered

/-! ## Lengths and indices -/

theorem memcpyTovec_le (vec : List Iovec) (len : Word) : (memcpyTovec vec len).toNat ≤ len.toNat := by
  induction vec generalizing len with
  | nil => simp [memcpyTovec]
  | cons v vec ih =>
    simp only [memcpyTovec]
    split
    · simp
    have hs : (if len < v.len then len else v.len).toNat ≤ len.toNat := by
      split_ifs with hlt
      · exact le_rfl
      · exact BitVec.not_lt.mp hlt
    generalize (if len < v.len then len else v.len) = s at hs ⊢
    have hrest := ih (len - s)
    rw [BitVec.toNat_sub_of_le hs] at hrest
    rw [BitVec.toNat_add]
    omega

theorem memcpyTovec_ne_zero {v : Iovec} {vec : List Iovec} {len : Word} (hv : v.len ≠ 0) (hlen : len ≠ 0) :
    memcpyTovec (v :: vec) len ≠ 0 := by
  have hs : (if len < v.len then len else v.len).toNat ≤ len.toNat ∧ (if len < v.len then len else v.len) ≠ 0 := by
    split_ifs with hlt
    · exact ⟨le_rfl, hlen⟩
    · exact ⟨BitVec.not_lt.mp hlt, hv⟩
  simp only [memcpyTovec, if_neg hlen]
  generalize (if len < v.len then len else v.len) = s at hs ⊢
  have hrest := memcpyTovec_le vec (len - s)
  rw [BitVec.toNat_sub_of_le hs.1] at hrest
  have hpos : s.toNat ≠ 0 := fun h => hs.2 (BitVec.eq_of_toNat_eq h)
  intro heq
  have hsum : (s + memcpyTovec vec (len - s)).toNat = 0 := by
    rw [heq]
    rfl
  rw [BitVec.toNat_add] at hsum
  omega

theorem prepareIovec_first {m : Memory} {r r2 : RingEntry} {vec : List Iovec} (h : prepareIovec m r r2 0 = some vec) :
    ∃ v rest, vec = v :: rest ∧ v.len ≠ 0 := by
  unfold prepareIovec at h
  split at h
  · cases h
  rename_i hb
  have hlen : r.bsize + 0 ≠ 0 := by simpa using (not_or.mp hb).1
  split at h
  · split at h
    · cases h
    · cases h
      exact ⟨_, _, rfl, hlen⟩
  · cases h
    exact ⟨_, _, rfl, hlen⟩

theorem index_succ {k cnt : Nat} {t mask : Word} (hk : k < 32) (hmask : mask.toNat = 2 ^ k - 1)
    (ht : t.toNat = cnt % 2 ^ k) :
    ((t + 1) &&& mask).toNat = (cnt + 1) % 2 ^ k := by
  have hdvd : 2 ^ k ∣ 2 ^ 32 := pow_dvd_pow 2 hk.le
  rw [BitVec.toNat_and, hmask, and_two_pow_sub_one_eq_mod, BitVec.toNat_add, ht, mod_mod_of_dvd _ hdvd]
  simp [add_mod]

/-! ## The receive ring -/

structure RxInv (n : Nat) (pad : Word) (arrived : List δ) (wire : List (Packet δ)) (rx : RxSide δ) (seen : List δ)
    (held : List Nat) : Prop where
  mask : rx.mask.toNat = n - 1
  tail : rx.tail.toNat = rx.accepted.length % n
  found : rx.found = (range rx.accepted.length).map fun k => (k % n, 0)
  holds : ∃ xs, rx.accepted.map (·.2) = seen ++ xs ∧
    Ring.Holds n (fun i => (rx.ring.entry i).psize ≠ 0) rx.ring.data (· ∈ held) seen.length xs
  arrived : (fromSource .wire rx.accepted ++ wire.map (·.data)).Sublist arrived
  injected : (fromSource .injector rx.accepted).Sublist rx.offered
  clean : ∀ p ∈ wire, p.s ≠ pad

variable {c : Card δ} {k l : Nat} {pad : Word} {arrived seen filled : List δ} {wire : List (Packet δ)} {held : List Nat}

variable {src : Source} {wire' : List (Packet δ)} {psize : Word} {p : Packet δ}
  {rx : RxSide δ} {tx : TxSide δ} {s : Nic δ} {w : World δ}

@[simp] theorem fromSource_append (src : Source) (a b : List (Source × δ)) :
    fromSource src (a ++ b) = fromSource src a ++ fromSource src b := by
  simp [fromSource]

@[simp] theorem fromSource_self (src : Source) (d : δ) : fromSource src [(src, d)] = [d] := by simp [fromSource]

@[simp] theorem fromSource_ne {src' : Source} (h : src' ≠ src) (d : δ) : fromSource src
    [(src', d)] = [] := by
  simp [fromSource, h]

namespace RxInv

theorem drop (h : RxInv (2 ^ k) pad arrived wire rx seen held) (hw : wire' <:+ wire) :
    RxInv (2 ^ k) pad arrived wire' rx seen held :=
  { h with
    arrived := ((Sublist.refl _).append (hw.sublist.map _)).trans h.arrived
    clean := fun p hp => h.clean p (hw.subset hp) }

theorem offer (h : RxInv (2 ^ k) pad arrived wire rx seen held) (d : δ) :
    RxInv (2 ^ k) pad arrived wire { rx with offered := rx.offered ++ [d] } seen held :=
  { h with injected := h.injected.trans (sublist_append_left _ _) }

theorem store_holds (h : RxInv (2 ^ k) pad arrived wire rx seen held) (hfree : rx.psize = 0)
    (hp : psize ≠ 0) (d : δ) :
    ∃ xs, (rx.store src psize d).accepted.map (·.2) = seen ++ xs ∧
      Ring.Holds (2 ^ k) (fun i => ((rx.store src psize d).ring.entry i).psize ≠ 0) (rx.store src psize d).ring.data
        (· ∈ held) seen.length xs := by
  obtain ⟨xs, hxs, hh⟩ := h.holds
  have hlen : rx.accepted.length = seen.length + xs.length := by
    simpa using congrArg length hxs
  have hslot : rx.tail.toNat = (seen.length + xs.length) % 2 ^ k := by rw [h.tail, hlen]
  refine ⟨xs ++ [d], by simp [RxSide.store, hxs], hh.push (Nat.two_pow_pos k) ?_ ?_ ?_ ?_⟩
  · rw [← hslot]
    simpa [RxSide.psize] using hfree
  · intro slot
    rw [← hslot]
    by_cases hs : slot = rx.tail.toNat
    · simpa [RxSide.store, Slots.store, hs] using hp
    · simp [RxSide.store, Slots.store, hs]
  · simp [RxSide.store, Slots.store, hslot]
  · intro slot hs
    rw [← hslot] at hs
    simp [RxSide.store, Slots.store, hs]

section Sizes

variable (hk : k < 32)

include hk

theorem store (h : RxInv (2 ^ k) pad arrived wire rx seen held)
    (hfree : rx.psize = 0) (hp : psize ≠ 0) (d : δ) (hw : wire' <:+ wire)
    (harr : (fromSource .wire (rx.accepted ++ [(src, d)]) ++ wire'.map (·.data)).Sublist arrived)
    (hinj : (fromSource .injector (rx.accepted ++ [(src, d)])).Sublist rx.offered) :
    RxInv (2 ^ k) pad arrived wire' (rx.store src psize d) seen held where
  mask := h.mask
  tail := by
    simpa [RxSide.store] using index_succ hk h.mask h.tail
  found := by
    have hpsize : (rx.ring.entry rx.tail.toNat).psize = 0 := hfree
    rw [h.tail] at hpsize
    simpa [RxSide.store, h.found, range_succ, h.tail] using hpsize
  holds := h.store_holds hfree hp d
  arrived := harr
  injected := hinj
  clean := fun p hp => h.clean p (hw.subset hp)

theorem store_wire (h : RxInv (2 ^ k) pad arrived (p :: wire) rx seen held)
    (hfree : rx.psize = 0) : RxInv (2 ^ k) pad arrived wire
    (rx.store .wire (p.s - pad) p.data) seen held := by
  have hp : p.s - pad ≠ 0 := by
    intro heq
    exact h.clean p mem_cons_self (by simpa [BitVec.sub_eq_iff_eq_add] using heq)
  refine h.store hk hfree hp p.data (suffix_cons p wire) ?_ ?_
  · simpa using h.arrived
  · simpa using h.injected

theorem rxLoop (cnt : Nat) (h : RxInv (2 ^ k) c.packetPad arrived wire s.rx seen held) :
    RxInv (2 ^ k) c.packetPad arrived (rxLoop c wire cnt s).1 (rxLoop c wire cnt s).2.2.rx seen held := by
  induction wire generalizing cnt s with
  | nil =>
    rw [Enet2.rxLoop]
    split
    · exact h
    · split <;> exact h
  | cons p wire ih =>
    rw [Enet2.rxLoop]
    split
    · exact h.drop (nil_suffix)
    rename_i hfree
    split
    · exact h
    · split
      · exact h.drop (suffix_cons p wire)
      · exact ih (cnt + 1) (h.store_wire hk (not_not.mp hfree))

theorem rxPacketHandler (h : RxInv (2 ^ k) c.packetPad arrived wire s.rx seen held) :
    RxInv (2 ^ k) c.packetPad arrived (rxPacketHandler c wire s).1 (rxPacketHandler c wire s).2.rx seen held := by
  unfold Enet2.rxPacketHandler
  split
  · exact h.drop nil_suffix
  · have hloop := h.rxLoop hk 0
    simp only
    split <;> exact hloop

theorem injectPacket (q : Reply δ) (h : RxInv (2 ^ k) pad arrived wire s.rx seen held) :
    RxInv (2 ^ k) pad arrived wire (injectPacket c q s).rx seen held := by
  have hmore := h.offer q.data
  unfold Enet2.injectPacket
  simp only
  split
  · exact hmore
  rename_i hgo
  rw [Bool.or_eq_true, decide_eq_true_eq, not_or, not_not] at hgo
  have hfree : s.rx.psize = 0 := hgo.2
  split
  · exact hmore
  · rename_i vec hvec
    obtain ⟨v, rest, rfl, hv⟩ := prepareIovec_first hvec
    refine hmore.store hk hfree (memcpyTovec_ne_zero hv q.pos) q.data (suffix_refl wire) ?_ ?_
    · simpa using h.arrived
    · simpa using h.injected.append (Sublist.refl [q.data])

theorem sendPacket (d : δ) (h : RxInv (2 ^ k) pad arrived wire s.rx seen held) :
    RxInv (2 ^ k) pad arrived wire (sendPacket c d s).rx seen held := by
  unfold Enet2.sendPacket
  split
  · exact h
  · exact h.injectPacket hk _

end Sizes

end RxInv

/-! ## The transmit ring -/

structure TxInv (n : Nat) (tx : TxSide δ) (filled xs : List δ) : Prop where
  mask : tx.mask.toNat = n - 1
  head : tx.head.toNat = tx.sent.length % n
  slots : tx.slots = (range tx.sent.length).map (· % n)
  filled : filled = tx.sent ++ xs
  holds : Ring.Holds n (fun i => (tx.ring.entry i).psize ≠ 0) tx.ring.data (fun _ => False) tx.sent.length xs

namespace TxInv

variable {xs : List δ}

theorem eq_nil (h : TxInv (2 ^ k) tx filled xs) (hfree : (tx.ring.entry tx.head.toNat).psize = 0) : xs = [] := by
  apply h.holds.eq_nil (Nat.two_pow_pos k)
  rw [← h.head]
  exact not_not.mpr hfree

theorem advance (hk : k < 32) (h : TxInv (2 ^ k) tx filled xs) (hfull : (tx.ring.entry tx.head.toNat).psize ≠ 0) :
    ∃ d ys, xs = d :: ys ∧ TxInv (2 ^ k) tx.advance filled ys := by
  have hslot := h.head
  have hnext := hfull
  rw [hslot] at hnext
  obtain ⟨ys, rfl⟩ := h.holds.next (Nat.two_pow_pos k) hnext not_false
  refine ⟨_, ys, rfl, h.mask, ?_, ?_, ?_, ?_⟩
  · simpa [TxSide.advance] using index_succ hk h.mask hslot
  · simp [TxSide.advance, h.slots, range_succ, hslot]
  · simpa [TxSide.advance, hslot] using h.filled
  · have hlen : tx.advance.sent.length = tx.sent.length + 1 := by simp [TxSide.advance]
    rw [hlen]
    refine h.holds.take fun i => ?_
    rw [← hslot]
    by_cases hi : i = tx.head.toNat <;> simp [TxSide.advance, Slots.setEntry, hi]

end TxInv

/-! ## Kicks -/

structure Inv (c : Card δ) (k l : Nat) (w : World δ) : Prop where
  rx : RxInv (2 ^ k) c.packetPad w.arrived w.wire w.nic.rx w.seen w.held
  tx : ∃ xs, TxInv (2 ^ l) w.nic.tx w.filled xs

@[simp] theorem injectPacket_tx (q : Reply δ) (s : Nic δ) : (injectPacket c q s).tx = s.tx := by
  unfold injectPacket
  simp only
  split
  · rfl
  · split <;> rfl

@[simp] theorem sendPacket_tx (d : δ) (s : Nic δ) : (sendPacket c d s).tx = s.tx := by
  unfold sendPacket
  split
  · rfl
  · exact injectPacket_tx _ s

theorem rxLoop_tx (wire : List (Packet δ)) (cnt : Nat) (s : Nic δ) : (rxLoop c wire cnt s).2.2.tx = s.tx := by
  induction wire generalizing cnt s with
  | nil =>
    rw [rxLoop]
    split
    · rfl
    · split <;> rfl
  | cons p wire ih =>
    rw [rxLoop]
    split
    · rfl
    · split
      · rfl
      · split
        · rfl
        · exact ih _ _

@[simp] theorem rxPacketHandler_tx (wire : List (Packet δ)) (s : Nic δ) : (rxPacketHandler c wire s).2.tx = s.tx := by
  unfold rxPacketHandler
  split
  · rfl
  · simp only
    split <;> exact rxLoop_tx wire 0 s

theorem kickLoop_spec (hk : k < 32) (hl : l < 32) (fuel : Nat) (xs : List δ)
    (hr : RxInv (2 ^ k) c.packetPad w.arrived w.wire s.rx w.seen w.held) (ht : TxInv (2 ^ l) s.tx w.filled xs)
    (hfuel : xs.length < fuel) : ∃ s' ret, kickLoop c fuel s = some (s', ret) ∧ Inv c k l { w with nic := s' } := by
  induction fuel generalizing s xs with
  | zero => exact absurd hfuel (not_lt_zero _)
  | succ fuel ih =>
    rw [kickLoop]
    split_ifs with hfull
    · exact ⟨_, _, rfl, hr, xs, ht⟩
    split
    · exact ⟨_, _, rfl, hr, xs, ht⟩
    -- the reply is injected before the head moves
    have hr' := hr.sendPacket (c := c) hk (s.tx.ring.data s.tx.head.toNat)
    obtain ⟨d, ys, rfl, ht'⟩ := ht.advance hl hfull
    refine ih ys hr' ?_ (succ_lt_succ_iff.mp hfuel)
    rw [sendPacket_tx]
    exact ht'

theorem kick_spec (hk : k < 32) (hl : l < 32) (h : Inv c k l w) :
    ∃ s' ret, kick c w.nic = some (s', ret) ∧ Inv c k l { w with nic := s' } := by
  unfold kick
  split
  · exact ⟨_, _, rfl, h⟩
  · obtain ⟨xs, ht⟩ := h.tx
    have hfits := ht.holds.fits
    have hmask := ht.mask
    exact kickLoop_spec hk hl _ xs h.rx ht (by omega)

/-! ## Runs -/

/-- A packet that arrives is not as long as the pad, or nothing is left of it. -/
def Event.Clean (c : Card δ) : Event δ → Prop
  | .arrive p => p.s ≠ c.packetPad
  | _ => True

def Cleared (n : Word) (sl : Slots δ) : Prop := ∀ i < n.toNat, (sl.entry i).psize = 0

theorem mask_of_size {n : Word} (hn : n.toNat = 2 ^ k) : (n - 1).toNat = 2 ^ k - 1 := by
  have hpos := Nat.two_pow_pos k
  have hle : (1 : Word) ≤ n := by
    rw [BitVec.le_def, hn]
    exact hpos
  rw [BitVec.toNat_sub_of_le hle, hn]
  rfl

theorem inv_boot {rx tx : Slots δ} {rxOf txOf : Nat → RingEntry} (hn : c.rxSize.toNat = 2 ^ k)
    (hm : c.txSize.toNat = 2 ^ l)
    (hrx : Cleared c.rxSize rx) (htx : Cleared c.txSize tx) :
    Inv c k l ⟨boot c (addNetdev rx tx rxOf txOf), [], [], [], [], []⟩ := by
  rw [Cleared, hn] at hrx
  rw [Cleared, hm] at htx
  refine ⟨⟨mask_of_size hn, (zero_mod _).symm, rfl, ⟨[], rfl, ?_⟩, ?_, ?_, ?_⟩,
    [], mask_of_size hm, (zero_mod _).symm, rfl, rfl, ?_⟩
  · have hnil : Ring.Holds (2 ^ k) (fun i => (rx.entry i).psize ≠ 0) rx.data (fun _ => False) 0 [] :=
      Ring.holds_nil fun i hi => not_not.mpr (hrx i hi)
    simpa [boot, start, ringSetup, addNetdev] using hnil
  · exact Sublist.refl _
  · exact Sublist.refl _
  · simp
  · exact Ring.holds_nil fun i hi => not_not.mpr (htx i hi)

namespace Inv

theorem arrive (h : Inv c k l w) (hp : p.s ≠ c.packetPad) :
    Inv c k l { w with wire := w.wire ++ [p], arrived := w.arrived ++ [p.data] } := by
  refine ⟨{ h.rx with arrived := ?_, clean := ?_ }, h.tx⟩
  · simpa using h.rx.arrived.append (Sublist.refl [p.data])
  · intro q hq
    rcases mem_append.mp hq with hq | hq
    · exact h.rx.clean q hq
    · rw [mem_singleton.mp hq]
      exact hp

theorem read (hn : c.rxSize.toNat = 2 ^ k) (h : Inv c k l w) : Inv c k l (w.read c) := by
  unfold World.read
  rw [hn]
  simp only
  split_ifs with hgo
  · exact h
  obtain ⟨hfull, hheld⟩ := not_or.mp hgo
  obtain ⟨xs, hxs, hh⟩ := h.rx.holds
  obtain ⟨ys, rfl⟩ := hh.next (Nat.two_pow_pos k) hfull hheld
  refine ⟨{ h.rx with holds := ⟨ys, by simp [hxs], ?_⟩ }, h.tx⟩
  rw [length_append]
  exact hh.pop fun slot => mem_cons

theorem recycle (slot : Nat) (r r2 : RingEntry) (h : Inv c k l w) : Inv c k l (w.recycle slot r r2) := by
  unfold World.recycle
  split_ifs with hslot
  · obtain ⟨xs, hxs, hh⟩ := h.rx.holds
    refine ⟨{ h.rx with holds := ⟨xs, hxs, hh.release hslot ?_ ?_⟩ }, h.tx⟩
    · intro i
      simp [and_comm]
    · intro i
      by_cases hi : i = slot <;> simp [Slots.setEntry, hi]
  · exact h

theorem fill (hm : c.txSize.toNat = 2 ^ l) (r r2 : RingEntry) (d : δ) (h : Inv c k l w) :
    Inv c k l (w.fill c r r2 d) := by
  obtain ⟨xs, ht⟩ := h.tx
  unfold World.fill
  rw [hm]
  simp only
  split_ifs with hgo
  · exact h
  obtain ⟨hfree, hr⟩ := not_or.mp hgo
  have hlen : w.filled.length = w.nic.tx.sent.length + xs.length := by
    rw [ht.filled, length_append]
  rw [hlen] at hfree ⊢
  refine ⟨h.rx, xs ++ [d], ht.mask, ht.head, ht.slots, by simp [ht.filled],
    ht.holds.push (Nat.two_pow_pos l) hfree ?_ ?_ ?_⟩
  · intro slot
    by_cases hs : slot = (w.nic.tx.sent.length + xs.length) % 2 ^ l
    · simpa [Slots.store, hs] using hr
    · simp [Slots.store, hs]
  · simp [Slots.store]
  · intro slot hs
    simp [Slots.store, hs]

theorem step (hk : k < 32) (hl : l < 32) (hn : c.rxSize.toNat = 2 ^ k) (hm : c.txSize.toNat = 2 ^ l) {e : Event δ}
    (h : Inv c k l w) (he : e.Clean c) : ∃ w', step c e w = some w' ∧ Inv c k l w' := by
  obtain ⟨xs, ht⟩ := h.tx
  cases e with
  | arrive p => exact ⟨_, rfl, h.arrive he⟩
  | rxPacketHandler =>
    refine ⟨{ w with wire := (rxPacketHandler c w.wire w.nic).1, nic := (rxPacketHandler c w.wire w.nic).2 }, rfl,
      h.rx.rxPacketHandler hk, xs, ?_⟩
    simpa only [rxPacketHandler_tx] using ht
  | inject q =>
    refine ⟨{ w with nic := injectPacket c q w.nic }, rfl, h.rx.injectPacket hk q, xs, ?_⟩
    simpa only [injectPacket_tx] using ht
  | kick =>
    obtain ⟨s', ret, hs, h'⟩ := kick_spec hk hl h
    exact ⟨{ w with nic := s' }, by rw [Enet2.step, hs, Option.map_some], h'⟩
  | irqAck enable ind => exact ⟨_, rfl, h.rx, h.tx⟩
  | read => exact ⟨_, rfl, h.read hn⟩
  | recycle slot r r2 => exact ⟨_, rfl, h.recycle slot r r2⟩
  | fill r r2 d => exact ⟨_, rfl, h.fill hm r r2 d⟩

theorem delivered (hn : c.rxSize.toNat = 2 ^ k) (hm : c.txSize.toNat = 2 ^ l) (h : Inv c k l w) : Delivered c w := by
  obtain ⟨xs, hxs, hh⟩ := h.rx.holds
  obtain ⟨ys, ht⟩ := h.tx
  constructor
  · rw [hn]
    exact h.rx.tail
  · rw [hm]
    exact ht.head
  · rw [hn]
    exact h.rx.found
  · rw [hm]
    exact ht.slots
  · exact ⟨xs, hxs.symm⟩
  · intro hfree
    rw [hn] at hfree
    obtain rfl := hh.eq_nil (Nat.two_pow_pos k) (not_not.mpr hfree)
    rw [hxs, append_nil]
  · exact ⟨ys, ht.filled.symm⟩
  · intro hfree
    obtain rfl := ht.eq_nil hfree
    rw [ht.filled, append_nil]
  · exact (sublist_append_left _ _).trans h.rx.arrived
  · exact h.rx.injected

end Inv

/-- In every run each kick returns and the packets are delivered in order. -/
theorem rings_deliver (c : Card δ) (k l : Fin 32) (hn : c.rxSize = BitVec.ofNat 32 (2 ^ k.val))
    (hm : c.txSize = BitVec.ofNat 32 (2 ^ l.val)) (rx tx : Slots δ) (rxOf txOf : Nat → RingEntry)
    (hrx : Cleared c.rxSize rx) (htx : Cleared c.txSize tx) (es : List (Event δ)) (hes : ∀ e ∈ es, e.Clean c) :
    ∃ w, after c (addNetdev rx tx rxOf txOf) es = some w ∧ Delivered c w := by
  have hsize (j : Fin 32) : (BitVec.ofNat 32 (2 ^ j.val)).toNat = 2 ^ j.val := by
    exact Nat.mod_eq_of_lt (Nat.pow_lt_pow_right (by decide) j.isLt)
  have hn' : c.rxSize.toNat = 2 ^ k.val := by rw [hn, hsize]
  have hm' : c.txSize.toNat = 2 ^ l.val := by rw [hm, hsize]
  have hinv : ∃ w, after c (addNetdev rx tx rxOf txOf) es = some w ∧ Inv c k l w := by
    induction es with
    | nil => exact ⟨_, rfl, inv_boot hn' hm' hrx htx⟩
    | cons e es ih =>
      obtain ⟨w, hw, hi⟩ := ih (forall_mem_cons.mp hes).2
      obtain ⟨w', hw', hi'⟩ := hi.step k.isLt l.isLt hn' hm' (hes e mem_cons_self)
      exact ⟨w', by rw [after, hw, Option.bind_some, hw'], hi'⟩
  obtain ⟨w, hw, hi⟩ := hinv
  exact ⟨w, hw, hi.delivered hn' hm'⟩

/-! ## What the conditions exclude -/

def plainCard (n : Word) : Card Nat := ⟨⟨⟨0, 0x10000000, 0x100000⟩, ⟨0, 0, 0⟩⟩, 2, fun _ => none, n, n⟩

def freeSlots : Slots Nat := ⟨fun i => ⟨BitVec.ofNat 32 (0x10000 + 2048 * i), 2048, 0, 0⟩, fun _ => 0⟩

def plainNic : Nic Nat := addNetdev freeSlots freeSlots (fun _ => ⟨0, 0, 0, 0⟩) (fun _ => ⟨0, 0, 0, 0⟩)

theorem rings_deliver_packet :
    ∃ w, after (plainCard 4) plainNic [.kick, .read, .rxPacketHandler, .fill ⟨0x20000, 0, 60, 0⟩ ⟨0, 0, 0, 0⟩ 8,
      .arrive ⟨62, 7⟩] =
      some w ∧ Delivered (plainCard 4) w :=
  rings_deliver (plainCard 4) 2 2 rfl rfl freeSlots freeSlots _ _ (fun _ _ => rfl) (fun _ _ => rfl) _
    (by simp [Event.Clean, plainCard])

/-- With three slots a packet is dropped; with four one is accepted with `psize` 0. -/
theorem rings_not_delivered :
    (∃ w, after (plainCard 3) plainNic [.rxPacketHandler, .arrive ⟨62, 8⟩, .arrive ⟨62, 7⟩] = some w ∧
      ¬ Delivered (plainCard 3) w) ∧
    (∃ w, after (plainCard 4) plainNic [.read, .rxPacketHandler, .arrive ⟨62, 8⟩, .arrive ⟨2, 7⟩] = some w ∧
      ¬ Delivered (plainCard 4) w) := by
  refine ⟨⟨_, rfl, fun h => ?_⟩, ⟨_, rfl, fun h => ?_⟩⟩
  · exact absurd h.tail (by decide)
  · exact absurd (h.read (by decide)) (by decide)

end MacOnLinux.Enet2
