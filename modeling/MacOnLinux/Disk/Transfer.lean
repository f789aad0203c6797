import MacOnLinux.Disk.Stall

/-! # What the block engine transfers -/

namespace MacOnLinux.Ablk

open Function List Engine

variable {c : Config} {e : BackEnd} {b b0 b' : Engine} {vec : List Iovec} {r : Nat} {m : IoFunc × Word}

variable {a : Answer} {pc : Pc} {b' : Engine} {f mask head : Word} {ring : Word → Desc}

/-! ## What descriptors ask for -/

def Desc.mode (c : Config) (m : IoFunc × Word) (d : Desc) : IoFunc × Word :=
  if has d.flags sgBuf then m
  else if has d.flags (readReq ||| writeReq) then (c.func d.flags d.unit, d.unit)
  else (.dummy, d.unit)

def Desc.acts (c : Config) (m : IoFunc × Word) (d : Desc) : List Act :=
  if has d.flags sgBuf then
    match mphysToLvptr c.mem d.unit with
    | some (_, lv) => (Iovec.bytes ⟨lv, d.param⟩).map (.xfer m.1 m.2)
    | none => []
  else if has d.flags (readReq ||| writeReq) then [.seek d.unit d.param]
  else
    let cmd := d.flags &&& cntrlReqMask
    if cmd = nopReq then [] else [.cntrl (c.fd d.unit) cmd d.param]

def acts (c : Config) (m : IoFunc × Word) : List Desc → List Act
  | [] => []
  | d :: ds => d.acts c m ++ acts c (d.mode c m) ds

def modeAfter (c : Config) (m : IoFunc × Word) (ds : List Desc) : IoFunc × Word := ds.foldl (Desc.mode c) m

theorem acts_concat (ds : List Desc) (d : Desc) :
    acts c m (ds ++ [d]) = acts c m ds ++ d.acts c (modeAfter c m ds) := by
  induction ds generalizing m with
  | nil => simp [acts, modeAfter]
  | cons d' ds ih => simp [acts, ih, modeAfter]

theorem modeAfter_concat (ds : List Desc) (d : Desc) : modeAfter c m (ds ++ [d]) = d.mode c (modeAfter c m ds) := by
  simp [modeAfter]

/-- The descriptors behind the head, as far as the `proceed` flags lead. -/
def chain (mask : Word) : Nat → (Word → Desc) → Word → List Desc
  | 0, _, _ => []
  | n + 1, ring, head =>
    if (ring head).proceed = 0 then []
    else
      let ring' := Function.update ring head { ring head with flags := 0, proceed := 0 }
      ring' (nextInd mask head) :: chain mask n ring' (nextInd mask head)

/-! ## Vectors -/

theorem bytes_append (vec vec' : List Iovec) : bytes (vec ++ vec') = bytes vec ++ bytes vec' :=
  flatMap_append

theorem length_bytes (vec : List Iovec) : (bytes vec).length = total vec := by
  induction vec with
  | nil => rfl
  | cons v vec ih =>
    simp only [bytes] at ih
    simp [bytes, Iovec.bytes, total, ih]

@[simp] theorem length_iovec_bytes (v : Iovec) : v.bytes.length = v.len.toNat := by simp [Iovec.bytes]

theorem iovec_advance (v : Iovec) (r : Nat) :
    Iovec.bytes ⟨v.base + BitVec.ofNat 32 (min v.len.toNat r), v.len - BitVec.ofNat 32 (min v.len.toNat r)⟩ =
      v.bytes.drop r := by
  apply ext_getElem
  · simp only [length_iovec_bytes, sub_min_toNat, length_drop]
    omega
  · intro i hi _
    simp only [length_iovec_bytes, sub_min_toNat] at hi
    simp only [Iovec.bytes, getElem_map, getElem_range, getElem_drop]
    rw [min_eq_right (by omega), BitVec.add_assoc, ← BitVec.ofNat_add]

theorem bytes_advance (r : Nat) (vec : List Iovec) : bytes (advance r vec) = (bytes vec).drop r := by
  induction vec generalizing r with
  | nil => simp [advance, bytes]
  | cons v vec ih =>
    simp only [bytes] at ih
    simp only [advance, bytes, flatMap_cons, iovec_advance, ih, drop_append, length_iovec_bytes]
    congr 2
    omega

/-! ## The invariant -/

def Engine.pending (b : Engine) : List Act :=
  if b.pc = .notify then [] else (bytes b.vec).map (.xfer b.iofunc b.curDev)

def Engine.uncounted (b : Engine) : Nat :=
  match b.pc with
  | .notify => 0
  | .count => b.vec.length + 1
  | _ => b.vec.length

def Pc.Taking : Pc → Prop
  | .branch | .clearFlags | .clearProceed | .fetch | .process _ => True
  | _ => False

/-- The buffers that are gathered when a request is taken belong to it. -/
def Engine.Bufs (b : Engine) : Prop :=
  match b.pc with
  | .branch => b.vec = [] ∨ b.proceed = true ∧ has (b.ring b.next).flags sgBuf = true
  | .clearFlags => b.vec = [] ∨ has (b.ring b.next).flags sgBuf = true
  | .clearProceed | .fetch => b.vec = [] ∨ has (b.ring b.next).flags sgBuf = true ∨ (b.ring b.next).flags = 0
  | .process f => b.vec = [] ∨ has f sgBuf = true ∨ f = 0
  | .clearActive | .raise | .blocked => b.failed = false → b.vec = []
  | _ => True

def Engine.Healthy (b : Engine) : Prop := b.failed = false ∧ b.pc ≠ .fail

/-- What was done so far is what the descriptors ask for, up to what is gathered. -/
structure Exact (c : Config) (b0 b : Engine) : Prop where
  counted : b.Counted
  room : b.vec.length ≤ maxIovec
  space : b.pc.Taking → b.vec.length < maxIovec
  bufs : b.Bufs
  unfailed : b.failed = true → b.pc = .clearActive ∨ b.pc = .raise ∨ b.pc = .blocked
  requests : b.nRequests = b0.nRequests + BitVec.ofNat 32 b.done
  begun : b.trace <+: acts c (b0.iofunc, b0.curDev) b.consumed
  mode : b.Healthy → (b.iofunc, b.curDev) = modeAfter c (b0.iofunc, b0.curDev) b.consumed
  acts : b.Healthy → b.trace ++ b.pending = acts c (b0.iofunc, b0.curDev) b.consumed
  done : b.Healthy → b.done + b.uncounted = b.consumed.length

theorem Exact.healthy (h : Exact c b0 b) (hpc : b.pc ≠ .clearActive ∧ b.pc ≠ .raise ∧ b.pc ≠ .blocked ∧ b.pc ≠ .fail) :
    b.Healthy := by
  refine ⟨?_, hpc.2.2.2⟩
  cases hf : b.failed with
  | false => rfl
  | true =>
    obtain h | h | h := h.unfailed hf
    · exact absurd h hpc.1
    · exact absurd h hpc.2.1
    · exact absurd h hpc.2.2.1

def BackEnd.Progresses (e : BackEnd) : Prop := ∀ k, ∃ n, 0 < n ∧ e.reply k = .moves n

def Engine.Small (b : Engine) : Prop := b.pc = .io → total b.vec ≤ 2 ^ 32

theorem begun_of_acts {l : List Act} {t : List Act} {ds : List Desc} (h : t ++ l = acts c m ds) : t <+: acts c m ds :=
  ⟨l, h⟩

theorem exact_finished (hpc : b.pc = .io) (hm : b.moved a = bytes b.vec) (h : Exact c b0 b) :
    Exact c b0 (b.called a).finished := by
  have hh : b.Healthy := h.healthy (by simp [hpc])
  have hacts : (b.called a).finished.trace ++ [] = Ablk.acts c (b0.iofunc, b0.curDev) b.consumed := by
    have := h.acts hh
    simp only [pending, hpc] at this
    simpa [finished, called, hm] using this
  have hdone := h.done hh
  simp only [uncounted, hpc] at hdone
  refine ⟨h.counted, h.room, by rintro ⟨⟩, trivial, ?_, ?_, begun_of_acts hacts, fun _ => h.mode hh, fun _ => hacts,
    fun _ => hdone⟩
  · intro hf
    cases hf.symm.trans hh.1
  · show b.nRequests + BitVec.ofNat 32 b.vec.length = _ + BitVec.ofNat 32 (b.done + b.vec.length)
    rw [h.requests, BitVec.ofNat_add, BitVec.add_assoc]

theorem exact_advanced {w : Word} (hpc : b.pc = .io) (hw : w.toNat ≤ total b.vec)
    (hm : b.moved a = (bytes b.vec).take w.toNat) (h : Exact c b0 b) :
    Exact c b0 { b.called a with vec := advance w.toNat b.vec, bytesLeft := b.bytesLeft - w } := by
  have hh : b.Healthy := h.healthy (by simp [hpc])
  have hacts : (b.called a).trace ++ (bytes (advance w.toNat b.vec)).map (.xfer b.iofunc b.curDev) =
      Ablk.acts c (b0.iofunc, b0.curDev) b.consumed := by
    have := h.acts hh
    simp only [pending, hpc] at this
    rw [bytes_advance, called, hm, append_assoc, ← map_append, take_append_drop]
    exact this
  have hdone := h.done hh
  refine ⟨counted_advance h.counted hw, ?_, ?_, ?_, ?_, h.requests, begun_of_acts hacts, fun _ => h.mode hh, ?_, ?_⟩
  · simpa using h.room
  · intro ht
    simp [called, hpc, Pc.Taking] at ht
  · simp [Engine.Bufs, called, hpc]
  · intro hf
    cases hf.symm.trans hh.1
  · intro _
    rw [pending, if_neg (by simp [called, hpc])]
    exact hacts
  · intro _
    simpa [called, uncounted] using hdone

theorem exact_io (he : e.Progresses) (hpc : b.pc = .io) (hs : b.Small) (h : Exact c b0 b) :
    Exact c b0 (b.io (e.answer b)) := by
  rw [io]
  by_cases hnull : b.iofunc = .null
  · rw [if_pos hnull]
    exact h
  rw [if_neg hnull]
  by_cases hd : b.iofunc = .dummy
  · rw [if_pos (by rw [ret, if_pos hd, h.counted])]
    exact exact_finished hpc (by rw [moved, if_pos hd]) h
  obtain ⟨n, hn, hrep⟩ := he b.calls
  have hans : (e.answer b).ret = (Reply.moves n).ret (total b.vec) := by simp [BackEnd.answer, hrep]
  have hret : b.ret (e.answer b) = (Reply.moves n).ret (total b.vec) := by rw [ret, if_neg hd, hans]
  have hnat := ret_moves_toNat n (total b.vec)
  have hint := ret_moves_toInt n (total b.vec)
  have hmoved : b.moved (e.answer b) = (bytes b.vec).take ((Reply.moves n).ret (total b.vec)).toNat := by
    rw [moved, if_neg hd, hans, if_pos (by omega)]
  rw [hret]
  by_cases heq : (Reply.moves n).ret (total b.vec) = b.bytesLeft
  · rw [if_pos heq]
    -- the count does not tell 0 from 2 ^ 32, but something was moved
    have hall : ((Reply.moves n).ret (total b.vec)).toNat = total b.vec := by
      have hmod := congrArg BitVec.toNat (heq.trans h.counted)
      have hsmall := hs hpc
      rw [BitVec.toNat_ofNat] at hmod
      simp only [maxInt] at hnat
      omega
    exact exact_finished hpc (by rw [hmoved, hall, ← length_bytes, take_length]) h
  · have hleft : total b.vec ≠ 0 := by
      intro h0
      apply heq
      apply BitVec.eq_of_toNat_eq
      rw [hnat, h.counted, h0]
      simp
    rw [if_neg heq, if_pos (by simp only [maxInt] at hint; omega)]
    exact exact_advanced hpc (by omega) hmoved h

structure Engine.Quiet (b b' : Engine) : Prop where
  vec : b'.vec = b.vec
  left : b'.bytesLeft = b.bytesLeft
  trace : b'.trace = b.trace
  consumed : b'.consumed = b.consumed
  done : b'.done = b.done
  requests : b'.nRequests = b.nRequests
  iofunc : b'.iofunc = b.iofunc
  dev : b'.curDev = b.curDev

theorem quiet_with {ring : Word → Desc} {head : Word} {taken : Nat} {running failed active line proceed : Bool} :
    b.Quiet { b with
      ring := ring, reqHead := head, taken := taken, running := running, failed := failed, active := active
      line := line, proceed := proceed, pc := pc } :=
  ⟨rfl, rfl, rfl, rfl, rfl, rfl, rfl, rfl⟩

def Pc.Plain : Pc → Prop
  | .notify | .count => False
  | _ => True

theorem pending_plain (h : b.pc.Plain) : b.pending = (bytes b.vec).map (.xfer b.iofunc b.curDev) := by
  rw [pending, if_neg]
  intro hpc
  rw [hpc] at h
  exact h

theorem uncounted_plain (h : b.pc.Plain) : b.uncounted = b.vec.length := by
  unfold uncounted
  split
  · rename_i hpc
    rw [hpc] at h
    exact h.elim
  · rename_i hpc
    rw [hpc] at h
    exact h.elim
  · rfl

section Steps

variable (h : Exact c b0 b)

include h

theorem exact_quiet (hq : b.Quiet b') (hp : b.pc.Plain) (hp' : b'.pc.Plain)
    (hh : b'.Healthy → b.Healthy) (hspace : b'.pc.Taking → b.vec.length < maxIovec) (hbufs : b'.Bufs)
    (hunf : b'.failed = true → b'.pc = .clearActive ∨ b'.pc = .raise ∨ b'.pc = .blocked) : Exact c b0 b' where
  counted := by
    have hc := h.counted
    unfold Engine.Counted at hc ⊢
    rw [hq.left, hq.vec, hc]
  room := by rw [hq.vec]; exact h.room
  space := by rw [hq.vec]; exact hspace
  bufs := hbufs
  unfailed := hunf
  requests := by rw [hq.requests, hq.done]; exact h.requests
  begun := by rw [hq.trace, hq.consumed]; exact h.begun
  mode := fun hb => by rw [hq.iofunc, hq.dev, hq.consumed]; exact h.mode (hh hb)
  acts := fun hb => by
    have hacts := h.acts (hh hb)
    rw [pending_plain hp] at hacts
    rw [pending_plain hp', hq.trace, hq.vec, hq.iofunc, hq.dev, hq.consumed, hacts]
  done := fun hb => by
    have hdone := h.done (hh hb)
    rw [uncounted_plain hp] at hdone
    rw [uncounted_plain hp', hq.done, hq.vec, hq.consumed, hdone]

theorem exact_healthy (hh : b.Healthy) (hpc : b.pc = pc) (hq : b.Quiet b') (hp : pc.Plain) (hp' : b'.pc.Plain)
    (hf : b'.failed = b.failed) (hspace : b'.pc.Taking → b.vec.length < maxIovec) (hbufs : b'.Bufs) : Exact c b0 b' :=
  exact_quiet h hq (hpc ▸ hp) hp' (fun _ => hh) hspace hbufs fun hf' => absurd ((hf ▸ hf').symm.trans hh.1) nofun

theorem exact_addBuf {lv : Word} (hpc : b.pc = .process b.cur.flags)
    (hsg : has b.cur.flags sgBuf = true) (hlv : mphysToLvptr c.mem b.cur.unit = some (.ram, lv)) :
    Exact c b0 { b with
      vec := b.vec ++ [⟨lv, b.cur.param⟩]
      bytesLeft := b.bytesLeft + b.cur.param
      consumed := b.consumed ++ [b.cur]
      pc := .test } := by
  have hh : b.Healthy := h.healthy (by simp [hpc])
  have hlen : b.vec.length < maxIovec := h.space (by simp [hpc, Pc.Taking])
  have hplain : b.pc.Plain := by simp [hpc, Pc.Plain]
  have hmode := h.mode hh
  have hacts := h.acts hh
  have hdone := h.done hh
  rw [pending_plain hplain] at hacts
  rw [uncounted_plain hplain] at hdone
  have hacts' : b.trace ++ (bytes (b.vec ++ [⟨lv, b.cur.param⟩])).map (.xfer b.iofunc b.curDev) =
      acts c (b0.iofunc, b0.curDev) (b.consumed ++ [b.cur]) := by
    rw [acts_concat, ← hacts, bytes_append, map_append, ← hmode, append_assoc]
    simp [Desc.acts, hsg, hlv, bytes]
  exact {
    counted := counted_append (v := ⟨lv, b.cur.param⟩) h.counted
    room := by
      rw [length_append]
      exact hlen
    space := nofun
    bufs := trivial
    unfailed := fun hf => absurd (hf.symm.trans hh.1) nofun
    requests := h.requests
    begun := begun_of_acts hacts'
    mode := fun _ => by
      rw [modeAfter_concat, ← hmode]
      simp [Desc.mode, hsg]
    acts := fun _ => hacts'
    done := fun _ => by
      show b.done + (b.vec ++ _).length = (b.consumed ++ _).length
      simp only [length_append, length_cons, length_nil]
      omega }

theorem exact_taken (hh : b.Healthy) (hplain : b.pc.Plain) (hvec : b.vec = [])
    (hvec' : b'.vec = []) (hleft : b'.bytesLeft = b.bytesLeft) (hdone' : b'.done = b.done)
    (hreq : b'.nRequests = b.nRequests) (hfailed : b'.failed = b.failed)
    (hpc : b'.pc = .count ∨ b'.pc = .fail) (hcons : b'.consumed = b.consumed ++ [b.cur])
    (htrace : b'.trace = b.trace ++ b.cur.acts c (b.iofunc, b.curDev))
    (hmode' : (b'.iofunc, b'.curDev) = b.cur.mode c (b.iofunc, b.curDev)) : Exact c b0 b' := by
  have hmode := h.mode hh
  have hacts := h.acts hh
  have hdone := h.done hh
  rw [pending_plain hplain, hvec] at hacts
  rw [uncounted_plain hplain, hvec] at hdone
  have hacts' : b'.trace ++ [] = acts c (b0.iofunc, b0.curDev) b'.consumed := by
    rw [hcons, acts_concat, ← hacts, htrace, ← hmode]
    simp [bytes]
  exact {
    counted := by
      have hc := h.counted
      unfold Engine.Counted at hc ⊢
      rw [hleft, hvec', hc, hvec]
    room := by simp [hvec']
    space := fun ht => by
      obtain hpc | hpc := hpc <;> simp [hpc, Pc.Taking] at ht
    bufs := by
      obtain hpc | hpc := hpc <;> simp [Engine.Bufs, hpc]
    unfailed := fun hf => absurd ((hfailed ▸ hf).symm.trans hh.1) nofun
    requests := by rw [hreq, hdone', h.requests]
    begun := begun_of_acts hacts'
    mode := fun _ => by rw [hmode', hcons, modeAfter_concat, hmode]
    acts := fun hb => by
      rw [pending, hvec']
      simpa [bytes] using hacts'
    done := fun hb => by
      obtain hpc | hpc := hpc
      · simp only [uncounted, hpc, hvec', hcons, length_append, length_cons]
        simp only [length_nil] at hdone
        omega
      · exact absurd hpc hb.2 }

theorem exact_fail (hh : b.Healthy) (dev : Word) : Exact c b0 { b with curDev := dev, pc := .fail } where
  counted := h.counted
  room := h.room
  space := nofun
  bufs := trivial
  unfailed := fun hf => absurd (hf.symm.trans hh.1) nofun
  requests := h.requests
  begun := h.begun
  mode := fun hb => absurd rfl hb.2
  acts := fun hb => absurd rfl hb.2
  done := fun hb => absurd rfl hb.2

end Steps

theorem exact_handle (h : Exact c b0 b) (hpc : b.pc = .process f) (hf : f = b.cur.flags) :
    Exact c b0 (b.handle c f a) := by
  have hh : b.Healthy := h.healthy (by simp [hpc])
  have hplain : b.pc.Plain := by simp [hpc, Pc.Plain]
  have hbufs := h.bufs
  simp only [Engine.Bufs, hpc] at hbufs
  unfold handle
  cases hsg : has f sgBuf with
  | true =>
    rw [if_pos rfl, addBuf]
    split
    · rename_i lv hlv
      exact exact_addBuf h (hf ▸ hpc) (hf ▸ hsg) hlv
    · exact exact_fail h hh _
  | false =>
    rw [if_neg Bool.false_ne_true]
    have hvec (hf : f ≠ 0) : b.vec = [] := by
      obtain hv | hv | hv := hbufs
      · exact hv
      · cases hv.symm.trans hsg
      · exact absurd hv hf
    split
    · exact exact_fail h hh _
    split
    · rename_i hrw
      have hvec := hvec (by rintro rfl; cases hrw)
      refine exact_taken h hh hplain hvec hvec rfl rfl rfl rfl ?_ rfl ?_ ?_
      · simp only [request]
        split <;> simp
      · simp [request, Desc.acts, ← hf, hsg, hrw]
      · simp [request, Desc.mode, ← hf, hsg, hrw]
    split
    · rename_i hrw hctl
      have hvec := hvec (by rintro rfl; cases hctl)
      refine exact_taken h hh hplain hvec hvec rfl rfl rfl rfl (.inl rfl) rfl ?_ ?_
      · simp [Engine.control, Desc.acts, ← hf, hsg, hrw]
      · simp [Engine.control, Desc.mode, ← hf, hsg, hrw]
    · exact exact_fail h hh _

theorem exact_gather (h : Exact c b0 b) (hpc : b.pc = .gather) :
    Exact c b0 { b with pc := if b.flushes then .io else .branch } := by
  have hh : b.Healthy := h.healthy (by simp [hpc])
  cases hfl : b.flushes with
  | true => exact exact_healthy h hh hpc quiet_with trivial trivial rfl nofun trivial
  | false =>
    -- no transfer: nothing is gathered, or there is room and another buffer follows
    have hbufs : b.vec = [] ∨ b.proceed = true ∧ b.vec.length ≠ maxIovec ∧ has (b.ring b.next).flags sgBuf = true := by
      simp only [flushes, decide_eq_false_iff_not, not_and, not_or] at hfl
      by_cases hv : b.vec = []
      · exact .inl hv
      · obtain ⟨hp, hl, hsg⟩ := hfl hv
        exact .inr ⟨by simpa using hp, hl, by simpa using hsg⟩
    refine exact_healthy h hh hpc quiet_with trivial trivial rfl (fun _ => ?_) ?_
    · have hroom := h.room
      obtain hv | ⟨-, hl, -⟩ := hbufs
      · simp [hv, maxIovec]
      · omega
    · obtain hv | ⟨hp, -, hsg⟩ := hbufs
      · exact .inl hv
      · exact .inr ⟨hp, hsg⟩

theorem exact_notify (h : Exact c b0 b) (hpc : b.pc = .notify) {line : Bool} :
    Exact c b0 { b with line := line, vec := [], bytesLeft := 0, pc := .branch } := by
  have hh : b.Healthy := h.healthy (by simp [hpc])
  have hacts := h.acts hh
  have hdone := h.done hh
  simp only [pending, hpc] at hacts
  simp only [uncounted, hpc] at hdone
  exact {
    counted := rfl
    room := Nat.zero_le _
    space := fun _ => by simp [maxIovec]
    bufs := .inl rfl
    unfailed := fun hf => absurd (hf.symm.trans hh.1) nofun
    requests := h.requests
    begun := h.begun
    mode := fun _ => h.mode hh
    acts := fun _ => hacts
    done := fun _ => hdone }

theorem exact_count (h : Exact c b0 b) (hpc : b.pc = .count) :
    Exact c b0 { b with nRequests := b.nRequests + 1, done := b.done + 1, pc := .test } := by
  have hh : b.Healthy := h.healthy (by simp [hpc])
  have hacts := h.acts hh
  have hdone := h.done hh
  simp only [pending, hpc] at hacts
  simp only [uncounted, hpc] at hdone
  exact {
    counted := h.counted
    room := h.room
    space := nofun
    bufs := trivial
    unfailed := fun hf => absurd (hf.symm.trans hh.1) nofun
    requests := by
      rw [h.requests, BitVec.ofNat_add, BitVec.add_assoc]
      rfl
    begun := h.begun
    mode := fun _ => h.mode hh
    acts := fun _ => hacts
    done := fun _ => by
      show b.done + 1 + b.vec.length = b.consumed.length
      omega }

theorem flags_setCur {i : Word} {p : Word} :
    (update b.ring b.reqHead { b.cur with proceed := p } i).flags = (b.ring i).flags := by
  by_cases hi : i = b.reqHead
  · rw [hi, update_self]
    rfl
  · rw [update_of_ne hi]

theorem exact_step (he : e.Progresses) (hs : b.Small) (hb : b.pc ≠ .blocked)
    (hproc : ∀ f, b.pc = .process f → f = b.cur.flags) (h : Exact c b0 b) : Exact c b0 (e.step c b) := by
  have hbufs := h.bufs
  have hspace := h.space
  have hh := h.healthy
  unfold Engine.Bufs at hbufs
  unfold BackEnd.step step
  cases hpc : b.pc with
  | blocked => exact absurd hpc hb
  | test => exact exact_healthy h (hh (by simp [hpc])) hpc quiet_with trivial trivial rfl nofun trivial
  | gather => exact exact_gather h hpc
  | io => exact exact_io he hpc hs h
  | notify => exact exact_notify h hpc
  | branch =>
    rw [hpc] at hspace hbufs
    cases hp : b.proceed with
    | true =>
      exact exact_healthy h (hh (by simp [hpc])) hpc quiet_with trivial trivial rfl (fun _ => hspace trivial)
        (hbufs.imp_right And.right)
    | false =>
      refine exact_healthy h (hh (by simp [hpc])) hpc quiet_with trivial trivial rfl nofun ?_
      intro _
      obtain hv | ⟨hp', -⟩ := hbufs
      · exact hv
      · exact absurd (hp'.symm.trans hp) nofun
  | clearFlags =>
    rw [hpc] at hspace hbufs
    refine exact_healthy h (hh (by simp [hpc])) hpc quiet_with trivial trivial rfl (fun _ => hspace trivial) ?_
    show b.vec = [] ∨ has (update b.ring b.reqHead _ b.next).flags sgBuf = true ∨
      (update b.ring b.reqHead _ b.next).flags = 0
    by_cases hn : b.next = b.reqHead
    · rw [hn, update_self]
      exact .inr (.inr rfl)
    · rw [update_of_ne hn]
      exact hbufs.imp_right .inl
  | clearProceed =>
    rw [hpc] at hspace hbufs
    refine exact_healthy h (hh (by simp [hpc])) hpc quiet_with trivial trivial rfl (fun _ => hspace trivial) ?_
    show b.vec = [] ∨ has (update b.ring b.reqHead _ b.next).flags sgBuf = true ∨
      (update b.ring b.reqHead _ b.next).flags = 0
    rw [flags_setCur]
    exact hbufs
  | fetch =>
    rw [hpc] at hspace hbufs
    exact exact_healthy h (hh (by simp [hpc])) hpc quiet_with trivial trivial rfl (fun _ => hspace trivial) hbufs
  | process f => exact exact_handle h hpc (hproc f hpc)
  | count => exact exact_count h hpc
  | fail =>
    exact exact_quiet h quiet_with (hpc ▸ trivial) trivial nofun nofun nofun fun _ => .inl rfl
  | clearActive | raise =>
    rw [hpc] at hbufs
    exact exact_quiet h quiet_with (hpc ▸ trivial) trivial (fun hh => ⟨hh.1, by simp [hpc]⟩) nofun hbufs
      fun _ => .inr (by simp)

/-! ## The descriptors that are taken -/

def Engine.Along (b0 b : Engine) : Prop :=
  let all (n : Nat) : List Desc := chain b0.ringMask n b0.ring b0.reqHead
  let cleared := Function.update b.ring b.reqHead { b.cur with flags := 0, proceed := 0 }
  let n := b.consumed.length
  match b.pc with
  | .test | .count => ∀ k, all (n + k) = b.consumed ++ chain b.ringMask k b.ring b.reqHead
  | .gather | .io | .notify | .branch =>
    (∀ k, all (n + k) = b.consumed ++ chain b.ringMask k b.ring b.reqHead) ∧ b.proceed = decide (b.cur.proceed ≠ 0)
  | .clearFlags => ∀ k, all (n + 1 + k) = b.consumed ++ cleared b.next :: chain b.ringMask k cleared b.next
  | .clearProceed =>
    b.cur.flags = 0 ∧ ∀ k, all (n + 1 + k) = b.consumed ++ cleared b.next :: chain b.ringMask k cleared b.next
  | .fetch =>
    cleared = b.ring ∧ ∀ k, all (n + 1 + k) = b.consumed ++ cleared b.next :: chain b.ringMask k cleared b.next
  | .process f => f = b.cur.flags ∧ ∀ k, all (n + 1 + k) = b.consumed ++ b.cur :: chain b.ringMask k b.ring b.reqHead
  | .fail => ∃ k, b.consumed <+: all k
  | .clearActive | .raise | .blocked => if b.failed then ∃ k, b.consumed <+: all k else ∀ k, all (n + k) = b.consumed

theorem chain_of_proceed (h : (ring head).proceed ≠ 0) (k : Nat) : chain mask (k + 1) ring head =
      let ring' := update ring head { ring head with flags := 0, proceed := 0 }
      ring' (nextInd mask head) :: chain mask k ring' (nextInd mask head) := by
  rw [chain, if_neg h]

theorem chain_of_stall (h : (ring head).proceed = 0) (k : Nat) : chain mask k ring head = [] := by
  cases k with
  | zero => rfl
  | succ k => rw [chain, if_pos h]

theorem cleared_setCur (b : Engine) {p : Word} :
    let b' : Engine := { b.setCur { b.cur with flags := f, proceed := p } with pc := pc }
    update b'.ring b'.reqHead { b'.cur with flags := 0, proceed := 0 } =
      update b.ring b.reqHead { b.cur with flags := 0, proceed := 0 } := by
  show update (update b.ring b.reqHead _) b.reqHead _ = _
  rw [update_idem]
  simp [setCur, cur]

theorem along_io (hpc : b.pc = .io) (h : Engine.Along b0 b) : Engine.Along b0 (b.io a) := by
  unfold io
  split
  · exact h
  simp only [Engine.Along, hpc] at h
  split
  · exact h
  split
  · simp only [called, hpc]
    exact h
  split
  · exact ⟨b.consumed.length + 0, _, (h.1 0).symm⟩
  · simp only [called, hpc]
    exact h

theorem along_handle (hpc : b.pc = .process f) (h : Engine.Along b0 b) :
    Engine.Along b0 (b.handle c f a) := by
  simp only [Engine.Along, hpc] at h
  obtain ⟨-, hall⟩ := h
  have hfail : ∀ b', b'.pc = .fail → b'.consumed = b.consumed → Engine.Along b0 b' := by
    intro b' hpc' hcons
    simp only [Engine.Along, hpc', hcons]
    exact ⟨b.consumed.length + 1 + 0, _, (hall 0).symm⟩
  have hnext (k : Nat) : chain b0.ringMask ((b.consumed ++ [b.cur]).length + k) b0.ring b0.reqHead =
      (b.consumed ++ [b.cur]) ++ chain b.ringMask k b.ring b.reqHead := by
    rw [length_append, append_assoc]
    exact hall k
  unfold handle
  split
  · unfold addBuf
    split
    · exact hnext
    · exact hfail _ rfl rfl
  split
  · exact hfail _ rfl rfl
  split
  · unfold request
    cases a.seekOk with
    | true => exact hnext
    | false => exact ⟨(b.consumed ++ [b.cur]).length + 0, _, (hnext 0).symm⟩
  split
  · exact hnext
  · exact hfail _ rfl rfl

theorem along_step (hb : b.pc ≠ .blocked) (hf : b.failed = true → b.pc = .clearActive ∨ b.pc = .raise ∨ b.pc = .blocked)
    (h : Engine.Along b0 b) : Engine.Along b0 (e.step c b) := by
  have horig := h
  unfold BackEnd.step step
  unfold Engine.Along at h
  cases hpc : b.pc with
  | blocked => exact absurd hpc hb
  | test =>
    rw [hpc] at h
    exact ⟨h, rfl⟩
  | gather =>
    rw [hpc] at h
    cases b.flushes <;> exact h
  | io => exact along_io hpc horig
  | notify | count | fail | clearActive | raise =>
    rw [hpc] at h
    exact h
  | branch =>
    rw [hpc] at h hf
    obtain ⟨hall, hp⟩ := h
    have hunf : b.failed = false := by
      cases hfd : b.failed with
      | false => rfl
      | true => simpa using hf hfd
    cases hproc : b.proceed with
    | true =>
      intro k
      have hne : (b.ring b.reqHead).proceed ≠ 0 := of_decide_eq_true (hp.symm.trans hproc)
      have hk := hall (k + 1)
      rw [chain_of_proceed hne, add_comm k 1, ← add_assoc] at hk
      exact hk
    | false =>
      have hz : (b.ring b.reqHead).proceed = 0 := not_not.mp (of_decide_eq_false (hp.symm.trans hproc))
      rw [hunf]
      intro k
      have hk := hall k
      rw [chain_of_stall hz, append_nil] at hk
      exact hk
  | clearFlags =>
    rw [hpc] at h
    refine ⟨by simp [cur, setCur], ?_⟩
    rw [cleared_setCur b]
    exact h
  | clearProceed =>
    rw [hpc] at h
    obtain ⟨hflags, hall⟩ := h
    have hcur : { b.cur with proceed := 0 } = { b.cur with flags := 0, proceed := 0 } := by rw [← hflags]
    refine ⟨?_, ?_⟩
    · rw [cleared_setCur b, ← hcur]
      rfl
    · rw [cleared_setCur b]
      exact hall
  | fetch =>
    rw [hpc] at h
    obtain ⟨hring, hall⟩ := h
    refine ⟨rfl, ?_⟩
    rw [hring] at hall
    exact hall
  | process f => exact along_handle hpc horig

/-! ## Runs -/

structure Engine.Fresh (b : Engine) : Prop extends b.Entered where
  failed : b.failed = false
  trace : b.trace = []
  consumed : b.consumed = []
  done : b.done = 0

theorem Engine.Fresh.exact (h : b.Fresh) : Exact c b b where
  counted := h.counted
  room := by simp [h.vec]
  space := fun ht => by simp [h.pc, Pc.Taking] at ht
  bufs := by simp [Engine.Bufs, h.pc]
  unfailed := fun hf => absurd (hf.symm.trans h.failed) nofun
  requests := by simp [h.done]
  begun := by simp [h.trace]
  mode := fun _ => by simp [h.consumed, modeAfter]
  acts := fun _ => by simp [h.trace, h.consumed, pending, h.vec, bytes, Ablk.acts]
  done := fun _ => by simp [h.done, h.consumed, uncounted, h.pc, h.vec]

theorem Engine.Fresh.along (h : b.Fresh) : Engine.Along b b := by
  simp only [Engine.Along, h.pc, h.consumed]
  intro k
  simp

theorem exact_next (he : e.Progresses) (hs : b.Small) (hb : b.pc ≠ .blocked) (h : Exact c b0 b ∧ Engine.Along b0 b) :
    Exact c b0 (e.step c b) ∧ Engine.Along b0 (e.step c b) := by
  obtain ⟨hex, hal⟩ := h
  refine ⟨exact_step he hs hb ?_ hex, along_step hb hex.unfailed hal⟩
  intro f hpc
  simp only [Engine.Along, hpc] at hal
  exact hal.1

theorem exact_run (he : e.Progresses) (h0 : b0.Fresh)
    (hs : ∀ b', Leads c e b0 b' → b'.Small) (hl : Leads c e b0 b) : Exact c b0 b ∧ Engine.Along b0 b := by
  induction hl with
  | refl => exact ⟨h0.exact, h0.along⟩
  | tail hl hm ih =>
    obtain ⟨hb, rfl⟩ := hm
    exact exact_next he (hs _ hl) hb ih

theorem BackEnd.Progresses.fair (he : e.Progresses) : e.Fair := by
  intro k
  obtain ⟨n, hn, hrep⟩ := he k
  refine ⟨k, le_refl k, ?_⟩
  rw [hrep]
  exact Nat.pos_iff_ne_zero.mp hn

/-! ## Buffers of moderate size -/

def bufMax : Nat := 2 ^ 27

structure Engine.Bounded (b : Engine) : Prop where
  ring : ∀ i, (b.ring i).param.toNat ≤ bufMax
  vec : ∀ v ∈ b.vec, v.len.toNat ≤ bufMax

theorem total_le (h : ∀ v ∈ vec, v.len.toNat ≤ r) : total vec ≤ vec.length * r := by
  induction vec with
  | nil => simp [total]
  | cons v vec ih =>
    have hv := h v (mem_cons_self ..)
    have hvec := ih (forall_mem_cons.mp h).2
    simp only [total, length_cons, add_mul]
    omega

theorem Engine.Bounded.small (h : b.Bounded) (hroom : b.vec.length ≤ maxIovec) : b.Small := by
  intro _
  have htotal := total_le h.vec
  have hmul : b.vec.length * bufMax ≤ maxIovec * bufMax := Nat.mul_le_mul_right _ hroom
  exact le_trans htotal hmul

theorem advance_bounded (h : ∀ v ∈ vec, v.len.toNat ≤ r) (n : Nat) : ∀ v ∈ advance n vec, v.len.toNat ≤ r := by
  induction vec generalizing n with
  | nil => simp [advance]
  | cons v vec ih =>
    intro w hw
    obtain rfl | hw := mem_cons.mp hw
    · have hv := h v (mem_cons_self ..)
      simp only [sub_min_toNat]
      omega
    · exact ih (forall_mem_cons.mp h).2 _ w hw

theorem bounded_setCur {d : Desc} (hd : d.param = b.cur.param) (h : b.Bounded) (i : Word) :
    ((b.setCur d).ring i).param.toNat ≤ bufMax := by
  by_cases hi : i = b.reqHead
  · simp only [setCur, hi, update_self, hd]
    exact h.ring _
  · simp only [setCur, update_of_ne hi]
    exact h.ring i

theorem bounded_step (h : b.Bounded) : (e.step c b).Bounded := by
  unfold BackEnd.step step
  cases hpc : b.pc with
  | blocked =>
    simp only
    split
    · exact h
    · exact ⟨h.ring, by simp⟩
  | io =>
    simp only [io]
    split
    · exact h
    split
    · exact ⟨h.ring, h.vec⟩
    split
    · exact ⟨h.ring, advance_bounded h.vec _⟩
    split <;> exact ⟨h.ring, h.vec⟩
  | notify => exact ⟨h.ring, by simp⟩
  | clearFlags | clearProceed => exact ⟨bounded_setCur rfl h, h.vec⟩
  | process f =>
    simp only [handle, addBuf]
    split
    · split
      · refine ⟨h.ring, fun v hv => ?_⟩
        obtain hv | hv := mem_append.mp hv
        · exact h.vec v hv
        · rw [mem_singleton.mp hv]
          exact h.ring _
      · exact ⟨h.ring, h.vec⟩
    split
    · exact ⟨h.ring, h.vec⟩
    split
    · exact ⟨h.ring, h.vec⟩
    split <;> exact ⟨h.ring, h.vec⟩
  | _ => exact ⟨h.ring, h.vec⟩

theorem small_run (he : e.Progresses) (h0 : b0.Fresh) (hp : ∀ i, (b0.ring i).param.toNat ≤ bufMax)
    (hl : Leads c e b0 b) : b.Small := by
  suffices h : b.Bounded ∧ Exact c b0 b ∧ Engine.Along b0 b from h.1.small h.2.1.room
  induction hl with
  | refl => exact ⟨⟨hp, by simp [h0.vec]⟩, h0.exact, h0.along⟩
  | tail _ hm ih =>
    obtain ⟨hb, rfl⟩ := hm
    exact ⟨bounded_step ih.1, exact_next he (ih.1.small ih.2.1.room) hb ih.2⟩

/-! ## Too many bytes -/

def byteWise : BackEnd := ⟨fun _ => .moves 1, fun _ => true⟩

theorem byteWise_progresses : byteWise.Progresses := fun _ => ⟨1, Nat.one_pos, rfl⟩

theorem byteWise_loses (hpc : b.pc = .io) (hd : b.iofunc ≠ .dummy) (hnull : b.iofunc ≠ .null) (hc : b.Counted)
    (hbig : 2 ^ 32 < total b.vec) :
    ∃ b', Leads c byteWise b b' ∧ b.SameRing b' ∧ b'.pc = .notify ∧ b'.consumed = b.consumed ∧
      b'.failed = b.failed ∧ b'.trace.length < b.trace.length + total b.vec := by
  induction hk : total b.vec - 2 ^ 32 generalizing b with
  | zero => omega
  | succ k ih =>
    have hless (h : total b.vec ≠ 2 ^ 32 + 1) : 2 ^ 32 < total b.vec - 1 ∧ total b.vec - 1 - 2 ^ 32 = k := by omega
    have hone : min 1 (min (total b.vec) maxInt) = 1 := by simp only [maxInt]; omega
    have hret : b.ret (byteWise.answer b) = 1 := by
      rw [ret, if_neg hd]
      exact BitVec.eq_of_toNat_eq ((ret_moves_toNat 1 (total b.vec)).trans hone)
    have hans : (byteWise.answer b).ret = 1 := by rw [← hret, ret, if_neg hd]
    have hmoved : (b.moved (byteWise.answer b)).length = 1 := by
      rw [moved, if_neg hd, hans, if_pos (by decide), length_take, length_bytes]
      exact min_eq_left (by omega)
    have htrace : (b.called (byteWise.answer b)).trace.length = b.trace.length + 1 := by
      simp [called, hmoved]
    have hstep : byteWise.step c b = b.io (byteWise.answer b) := step_io hpc
    rw [io, if_neg hnull, hret] at hstep
    by_cases hend : 1 = b.bytesLeft
    · rw [if_pos hend] at hstep
      refine ⟨_, leads_to (by simp [hpc]) hstep, ⟨rfl, rfl, rfl, rfl⟩, rfl, rfl, rfl, ?_⟩
      show (b.called _).trace.length < _
      omega
    rw [if_neg hend] at hstep
    have htotal : total (advance (1 : Word).toNat b.vec) = total b.vec - 1 := total_advance _ _
    have hmore : total b.vec ≠ 2 ^ 32 + 1 := by
      intro h1
      apply hend
      rw [hc, h1]
      rfl
    have hle : (1 : Word).toNat ≤ total b.vec := by
      omega
    have hbig' : 2 ^ 32 < total (advance (1 : Word).toNat b.vec) :=
      Nat.lt_of_lt_of_eq (hless hmore).1 htotal.symm
    have hk' : total (advance (1 : Word).toNat b.vec) - 2 ^ 32 = k :=
      (congrArg (· - 2 ^ 32) htotal).trans (hless hmore).2
    obtain ⟨b', hl, hsame, hpc', hcons, hfail, hlt⟩ :=
      ih (b := { b.called (byteWise.answer b) with
        vec := advance (1 : Word).toNat b.vec, bytesLeft := b.bytesLeft - 1 }) hpc hd hnull
        (counted_advance hc hle) hbig' hk'
    refine ⟨b', (leads_to (by simp [hpc]) hstep).trans hl, ⟨hsame.ring, hsame.head, hsame.mask, hsame.proceed⟩, hpc',
      hcons, hfail, ?_⟩
    rw [htotal, htrace] at hlt
    omega

/-! ## Results -/

/-- `do_work` does what the descriptors ask for, in order and each byte once. -/
theorem doWork_transfers (c : Config) (e : BackEnd) (b : Engine) (he : e.Progresses) (hb : b.Fresh)
    (hcall : Callable c e b) (hs : ∀ b', Leads c e b b' → b'.Small) :
    ∃ m b', doWork c e m b = some b' ∧ (∀ b'', Leads c e b b'' → b''.vec.length ≤ maxIovec) ∧
      (∃ k, b'.consumed <+: chain b.ringMask k b.ring b.reqHead) ∧
      b'.trace <+: acts c (b.iofunc, b.curDev) b'.consumed ∧
      (b'.failed = false →
        (∀ k, chain b.ringMask (b'.consumed.length + k) b.ring b.reqHead = b'.consumed) ∧
        b'.trace = acts c (b.iofunc, b.curDev) b'.consumed ∧
        b'.nRequests = b.nRequests + BitVec.ofNat 32 b'.consumed.length) := by
  obtain ⟨m, b', hm⟩ := halts_test he.fair hcall hb.pc hb.counted
  obtain ⟨hl, hpc⟩ := leads_of_doWork hm
  obtain ⟨hex, hal⟩ := exact_run he hb hs hl
  have hbufs := hex.bufs
  simp only [Engine.Bufs, hpc] at hbufs
  simp only [Engine.Along, hpc] at hal
  refine ⟨m, b', hm, fun b'' hl'' => (exact_run he hb hs hl'').1.room, ?_, hex.begun, fun hf => ?_⟩
  · split at hal
    · exact hal
    · exact ⟨_, [], (append_nil _).trans (hal 0).symm⟩
  have hh : b'.Healthy := ⟨hf, by simp [hpc]⟩
  have hplain : b'.pc.Plain := by simp [hpc, Pc.Plain]
  have hacts := hex.acts hh
  have hdone := hex.done hh
  rw [pending_plain hplain, hbufs hf] at hacts
  rw [uncounted_plain hplain, hbufs hf] at hdone
  rw [if_neg (by simp [hf])] at hal
  refine ⟨hal, by simpa [bytes] using hacts, ?_⟩
  rw [hex.requests, ← hdone]
  rfl

theorem reading_fresh (k : Nat) : (reading k).Fresh := ⟨reading_entered k, rfl, rfl, rfl, rfl⟩

theorem doWork_transfers_reading : ∃ m b', doWork someRam byteWise m (reading 0) = some b' ∧
      (∀ b'', Leads someRam byteWise (reading 0) b'' → b''.vec.length ≤ maxIovec) ∧
      (∃ k, b'.consumed <+: chain 1 k oneBuffer 0) ∧ b'.trace <+: acts someRam (.read, 0) b'.consumed ∧
      (b'.failed = false → (∀ k, chain 1 (b'.consumed.length + k) oneBuffer 0 = b'.consumed) ∧
        b'.trace = acts someRam (.read, 0) b'.consumed ∧ b'.nRequests = 1 + BitVec.ofNat 32 b'.consumed.length) := by
  refine doWork_transfers someRam byteWise (reading 0) byteWise_progresses (reading_fresh 0)
    (callable_of_writes (fun _ => rfl) nofun) ?_
  intro b' hl
  refine small_run byteWise_progresses (reading_fresh 0) (fun i => ?_) hl
  show (oneBuffer i).param.toNat ≤ bufMax
  unfold oneBuffer
  split <;> decide

def twoBuffers (ind : Word) : Desc :=
  if ind = 0 then ⟨nopReq, 1, 0, 0⟩
  else if ind = 1 then ⟨sgBuf, 1, 0, 0x80000001⟩
  else ⟨sgBuf, 0, 0, 0x80000000⟩

def overlong : Engine := { reading 0 with ringMask := 3, ring := twoBuffers }

theorem notify_stalls (hpc : b.pc = .notify) (hp : b.proceed = false) :
    ∃ b', Leads c e b b' ∧ b'.pc = .blocked ∧ b'.consumed = b.consumed ∧ b'.failed = b.failed ∧ b'.trace = b.trace := by
  let b1 : Engine :=
    { b with
      line := b.line || (has b.cur.flags raiseIrq && b.proceed)
      vec := []
      bytesLeft := 0
      pc := .branch }
  let b2 : Engine := { b1 with pc := .clearActive }
  let b3 : Engine := { b2 with active := false, pc := .raise }
  let b4 : Engine := { b3 with line := true, pc := .blocked }
  have h1 : Leads c e b b1 := leads_to (by simp [hpc]) (by simp only [BackEnd.step, step, hpc, b1])
  have h2 : Leads c e b1 b2 := leads_to (by simp [b1]) (by simp [BackEnd.step, step, b1, b2, hp])
  have h3 : Leads c e b2 b3 := leads_to (by simp [b2]) rfl
  have h4 : Leads c e b3 b4 := leads_to (by simp [b3]) rfl
  exact ⟨b4, h1.trans (h2.trans (h3.trans h4)), rfl, rfl, rfl, rfl⟩

theorem overlong_gathers :
    ∃ b, Leads someRam byteWise overlong b ∧ b.pc = .io ∧ b.iofunc = .read ∧ b.Counted ∧ total b.vec = 2 ^ 32 + 1 ∧
      b.proceed = false ∧ b.trace = [] ∧ b.failed = false ∧
      b.consumed = [⟨sgBuf, 1, 0, 0x80000001⟩, ⟨sgBuf, 0, 0, 0x80000000⟩] := by
  let b1 := overlong.buffered 0
  let b2 := b1.buffered 0
  have h1 : Leads someRam byteWise overlong b1 :=
    buffered_leads rfl (by decide) (by decide) (by decide) (by decide) (by decide)
  have h2 : Leads someRam byteWise b1 b2 :=
    buffered_leads rfl (by decide) (by decide) (by decide) (by decide) (by decide)
  have h3 : Leads someRam byteWise b2 { b2 with proceed := false, pc := .io } :=
    flush_leads rfl (by decide) (by decide)
  exact ⟨_, h1.trans (h2.trans h3), rfl, rfl, by unfold Engine.Counted; decide, by decide, rfl, rfl, rfl, by decide⟩

/-- With more than 2 ^ 32 bytes `do_work` stalls without an error. -/
theorem overlong_loses : overlong.Fresh ∧ overlong.Ends 2 ∧ byteWise.Progresses ∧
      ∃ m b', doWork someRam byteWise m overlong = some b' ∧ b'.failed = false ∧
        b'.trace ≠ acts someRam (overlong.iofunc, overlong.curDev) b'.consumed := by
  refine ⟨⟨⟨rfl, rfl, rfl⟩, rfl, rfl, rfl, rfl⟩, ?_, byteWise_progresses, ?_⟩
  · show (twoBuffers (nextInd 3 (nextInd 3 0))).proceed = 0
    decide
  obtain ⟨b, hl, hpc, hread, hc, htotal, hp, htrace, hf, hcons⟩ := overlong_gathers
  obtain ⟨b1, hl1, hsame, hpc1, hcons1, hf1, hlt⟩ :=
    byteWise_loses (c := someRam) hpc (by simp [hread]) (by simp [hread]) hc (by omega)
  obtain ⟨b2, hl2, hpc2, hcons2, hf2, htrace2⟩ :=
    notify_stalls (c := someRam) (e := byteWise) hpc1 (hsame.proceed.trans hp)
  obtain ⟨m, hm⟩ := doWork_of_leads (hl.trans (hl1.trans hl2)) hpc2
  refine ⟨m, b2, hm, hf2.trans (hf1.trans hf), fun heq => ?_⟩
  have hlen := congrArg length heq
  rw [htrace2, hcons2, hcons1, hcons] at hlen
  rw [htrace] at hlt
  have hflag : has sgBuf sgBuf = true := by decide
  have hsg (p n : Word) :
      (Desc.acts someRam (overlong.iofunc, overlong.curDev) ⟨sgBuf, p, 0, n⟩).length = n.toNat := by
    have hlv : mphysToLvptr someRam.mem 0 = some (.ram, 0) := by decide
    rw [Desc.acts, if_pos hflag, hlv]
    simp
  have hmode (p n : Word) : Desc.mode someRam (overlong.iofunc, overlong.curDev) ⟨sgBuf, p, 0, n⟩ =
      (overlong.iofunc, overlong.curDev) := by
    rw [Desc.mode, if_pos hflag]
  simp only [acts, length_append, hmode, hsg] at hlen
  have hsum : (0x80000001 : Word).toNat + ((0x80000000 : Word).toNat + 0) = 2 ^ 32 + 1 := by decide
  omega

end MacOnLinux.Ablk
