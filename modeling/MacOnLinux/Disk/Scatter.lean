import Mathlib.Algebra.Ring.Int.Defs
import MacOnLinux.Disk.Scsi
import MacOnLinux.Lib.File
import MacOnLinux.Main.Memory

/-! # The scatter lists of SCSI requests (`drivers/disk/scsi.c`) -/

namespace MacOnLinux.Scsi

open List

structure Sg where
  base : Word
  size : Word
  deriving DecidableEq, Repr

structure SgList where
  nEl : Int
  nextSglist : Word
  vec : Nat → Sg

structure Iovec where
  iovBase : Word
  iovLen : Word
  deriving DecidableEq, Repr

/-- The memory of the guest, and the lists in it by their address in the emulator. -/
structure Ram where
  memory : Memory
  sglist : Word → SgList

def Ram.transl (ram : Ram) (mphys : Word) : Word := translMphys ram.memory mphys

/-- The list and the index after the element `j` of a list; `none` is the `break`. -/
def Ram.advance (ram : Ram) (l : SgList) (j : Nat) : Option (SgList × Nat) :=
  if (j : Int) + 1 = l.nEl then
    let next := ram.transl l.nextSglist
    if l.nextSglist = 0 ∨ next = 0 then none else some (ram.sglist next, 0)
  else some (l, j + 1)

/-- How the loop ends; `overrun` is a vector stored behind the block. -/
inductive Copy where
  | bad
  | overrun
  | done (iovec : List Iovec) (len : Word)

def Copy.cons (v : Iovec) : Copy → Copy
  | .done iovec len => .done (v :: iovec) len
  | c => c

/-- `left` is `nsg - i`, and the block has room for `room` more vectors. -/
def copyLoop (ram : Ram) : Nat → Nat → SgList → Nat → Word → List Sg × Copy
  | 0, _, _, _, len => ([], .done [] len)
  | left + 1, room, l, j, len =>
    let v := l.vec j
    let p := ram.transl v.base
    if p = 0 then ([v], .bad)
    else if room = 0 then ([v], .overrun)
    else
      let rest := match ram.advance l j with
        | none => ([], Copy.done [] (len + v.size))
        | some (l, j) => copyLoop ram left (room - 1) l j (len + v.size)
      (v :: rest.1, rest.2.cons ⟨p, v.size⟩)

structure Submission where
  cdb : List Byte
  cdbLen : Byte
  target : Byte
  lun : Byte
  isWrite : Byte
  size : Word
  nSg : Word
  sglist : SgList

structure Ureq where
  cdb : List Byte
  isWrite : Byte
  iovec : List Iovec
  size : Word

inductive Outcome where
  | rejected
  /-- The request has written behind its block. -/
  | overrun
  | noTarget (u : Ureq)
  /-- `hack_execute_hook` has completed the request. -/
  | aborted (u : Ureq)
  | execute (u : Ureq) (allowRead : Bool)

structure Dev where
  privsize : Word
  allowRead : Bool

/-- The devices, and whether `malloc` has a block of the size it is asked for. -/
structure Host where
  targets : Byte → Option Dev
  malloc : Word → Bool

def maxNumTargets : Nat := 8

def Host.dev (host : Host) (r : Submission) : Option Dev :=
  if r.target.toNat < maxNumTargets then host.targets r.target else none

def hackExecuteHook (allowRead : Bool) (cmd : Byte) : Bool × Bool :=
  if cmd = 0x1a ∨ cmd = 0x15 then (true, allowRead)
  else if allowRead then (false, true)
  else if cmd = 0x28 ∨ cmd = 0x28 ∨ cmd = 0x08 then (true, false)
  else (false, cmd ≠ 0x12)

def issue (dev : Option Dev) (r : Submission) (u : Ureq) : Outcome :=
  match dev with
  | none => .noTarget u
  | some d =>
    if r.lun ≠ 0 then .noTarget u
    else
      let hook := hackExecuteHook d.allowRead (u.cdb.headD 0)
      if hook.1 then .aborted u else .execute u hook.2

/-- `sizeof(wreq_t)`, and the offset of its first vector. -/
def sizeofWreq : Word := 304

def sizeofIovec : Word := 8

def Host.block (host : Host) (r : Submission) : Word :=
  sizeofWreq + r.nSg * sizeofIovec + ((host.dev r).map (·.privsize)).getD 0

def room (block : Word) : Nat := (block.toNat - sizeofWreq.toNat) / sizeofIovec.toNat

/-- With the elements it looks at. -/
def osipScsiSubmit (ram : Ram) (host : Host) (r : Submission) : List Sg × Outcome :=
  if r.nSg.toInt < 0 ∨ 16 < r.cdbLen.toNat ∨ host.malloc (host.block r) = false then ([], .rejected)
  else if host.block r < sizeofWreq then ([], .overrun)
  else
    let c := copyLoop ram r.nSg.toNat (room (host.block r)) r.sglist 0 0
    let cdb := r.cdb.take r.cdbLen.toNat
    (c.1, match c.2 with
      | .bad => .rejected
      | .overrun => .overrun
      | .done iovec len =>
        -- `r->size` is unsigned, and so is the comparison
        if len < r.size then .rejected
        else issue (host.dev r) r ⟨cdb ++ replicate (12 - cdb.length) 0, r.isWrite, iovec, r.size⟩)

/-! ## The chain -/

variable {ram : Ram} {l : SgList} {host : Host} {r : Submission}

def SgList.elements (l : SgList) : List Sg := (range l.nEl.toNat).map l.vec

def Ram.follow (ram : Ram) (l : SgList) : Option SgList :=
  if l.nextSglist = 0 ∨ ram.transl l.nextSglist = 0 then none
  else some (ram.sglist (ram.transl l.nextSglist))

/-- The elements of the first `n` lists of a chain; a chain may go in a circle. -/
def Ram.chain (ram : Ram) : Nat → SgList → List Sg
  | 0, _ => []
  | n + 1, l => l.elements ++ ((ram.follow l).map (ram.chain n)).getD []

def Ram.WellFormed (ram : Ram) (l : SgList) : Prop :=
  ∀ l', Relation.ReflTransGen (fun a b => ram.follow a = some b) l l' → 1 ≤ l'.nEl

theorem wellFormed_follow {l' : SgList} (hwf : ram.WellFormed l) (h : ram.follow l = some l') :
    ram.WellFormed l' := fun _ hreach => hwf _ (.head h hreach)

/-- The first `n_sg` elements. -/
def Ram.request (ram : Ram) (r : Submission) : List Sg :=
  (ram.chain r.nSg.toNat r.sglist).take r.nSg.toNat

def Ram.iovec (ram : Ram) (v : Sg) : Iovec := ⟨ram.transl v.base, v.size⟩

/-- `sg_t.size` is an `int`. -/
def bytes (vs : List Sg) : Int := (vs.map (·.size.toInt)).sum

/-- The same sum as `len` has it. -/
def total (vs : List Sg) : Word := BitVec.ofInt 32 (bytes vs)

def Ram.mapped (ram : Ram) (vs : List Sg) : List Sg := vs.takeWhile fun v => ram.transl v.base ≠ 0

theorem elements_drop {j : Nat} (hj : (j : Int) < l.nEl) :
    l.elements.drop j = l.vec j :: l.elements.drop (j + 1) := by
  have hlen : j < l.elements.length := by
    simp only [SgList.elements, length_map, length_range]
    omega
  rw [drop_eq_getElem_cons hlen]
  simp [SgList.elements]

theorem take_append_congr {α : Type} {k : Nat} {xs ys zs : List α}
    (h : ys.take (k - xs.length) = zs.take (k - xs.length)) :
    (xs ++ ys).take k = (xs ++ zs).take k := by
  rw [take_append, take_append, h]

/-- Each list has an element, so `k` elements are in the first `k` lists. -/
theorem chain_take {k n : Nat} (hwf : ram.WellFormed l) (hk : k ≤ n) :
    (ram.chain n l).take k = (ram.chain (n + 1) l).take k := by
  induction n generalizing k l with
  | zero => rw [Nat.le_zero.mp hk, take_zero, take_zero]
  | succ n ih =>
    have hone := hwf _ .refl
    refine take_append_congr ?_
    cases hf : ram.follow l with
    | none => rfl
    | some l' =>
      refine ih (wellFormed_follow hwf hf) ?_
      simp only [SgList.elements, length_map, length_range]
      omega

theorem advance_cases (ram : Ram) (l : SgList) (j : Nat) :
    ((j : Int) + 1 = l.nEl ∧ ram.advance l j = (ram.follow l).map (·, 0)) ∨
      ((j : Int) + 1 ≠ l.nEl ∧ ram.advance l j = some (l, j + 1)) := by
  unfold Ram.advance Ram.follow
  by_cases hend : (j : Int) + 1 = l.nEl
  · refine .inl ⟨hend, ?_⟩
    rw [if_pos hend]
    dsimp only
    split <;> rfl
  · exact .inr ⟨hend, if_neg hend⟩

/-! ## The loop -/

/-- What is looked at of `vs`, and what comes of it. -/
def Ram.copied (ram : Ram) (room : Nat) (vs : List Sg) (len : Word) : List Sg × Copy :=
  let n := (ram.mapped vs).length
  if room < n then (vs.take (room + 1), .overrun)
  else if n < vs.length then (vs.take (n + 1), .bad)
  else (vs, .done (vs.map ram.iovec) (len + total vs))

theorem total_cons (v : Sg) (vs : List Sg) : total (v :: vs) = v.size + total vs := by
  simp [total, bytes, BitVec.ofInt_add]

theorem mapped_length (ram : Ram) (vs : List Sg) : (ram.mapped vs).length ≤ vs.length :=
  ( takeWhile_prefix _).length_le

theorem copied_nil (room : Nat) (len : Word) : ram.copied room [] len = ([], .done [] len) := by
  simp [Ram.copied, Ram.mapped, total, bytes]

theorem copied_cons (room : Nat) (v : Sg) (vs : List Sg) (len : Word) :
    ram.copied room (v :: vs) len =
      if ram.transl v.base = 0 then ([v], .bad)
      else if room = 0 then ([v], .overrun)
      else (v :: (ram.copied (room - 1) vs (len + v.size)).1,
        (ram.copied (room - 1) vs (len + v.size)).2.cons (ram.iovec v)) := by
  by_cases hp : ram.transl v.base = 0
  · simp [Ram.copied, Ram.mapped, hp]
  have hn : (ram.mapped (v :: vs)).length = (ram.mapped vs).length + 1 := by
    rw [Ram.mapped, takeWhile_cons_of_pos (by simpa using hp), length_cons]
    rfl
  rw [if_neg hp]
  obtain _ | room := room
  · simp [Ram.copied, hn]
  rw [if_neg room.succ_ne_zero]
  unfold Ram.copied
  simp only [hn, length_cons, Nat.add_lt_add_iff_right, Nat.add_sub_cancel]
  split_ifs
  · rfl
  · rfl
  · rw [total_cons, ← BitVec.add_assoc]
    rfl

theorem copyLoop_eq {left j : Nat} (room : Nat) (len : Word) (hwf : ram.WellFormed l) (hj : (j : Int) < l.nEl) :
    copyLoop ram left room l j len =
      ram.copied room ((l.elements.drop j ++ ((ram.follow l).map (ram.chain left)).getD []).take left) len := by
  induction left generalizing room l j len with
  | zero => rw [take_zero, copied_nil, copyLoop]
  | succ left ih =>
    rw [elements_drop hj, cons_append, take_succ_cons, copied_cons, copyLoop]
    dsimp only
    congr 2
    rcases advance_cases ram l j with ⟨hend, hadv⟩ | ⟨hend, hadv⟩
    · rw [hadv, drop_of_length_le (by simp [SgList.elements]; omega), nil_append]
      cases hf : ram.follow l with
      | none => simp [copied_nil, Ram.iovec]
      | some l' =>
        have hwf' := wellFormed_follow hwf hf
        dsimp only [Option.map_some, Option.getD_some]
        rw [ih _ _ hwf' (hwf' _ .refl)]
        rfl
    · rw [hadv]
      dsimp only
      rw [ih _ _ hwf (by omega)]
      -- the rest of the chain is seen with one list less than there may be
      have hrest : (l.elements.drop (j + 1) ++ ((ram.follow l).map (ram.chain left)).getD []).take left =
          (l.elements.drop (j + 1) ++ ((ram.follow l).map (ram.chain (left + 1))).getD []).take left := by
        refine take_append_congr ?_
        cases hf : ram.follow l with
        | none => rfl
        | some l' => exact chain_take (wellFormed_follow hwf hf) (Nat.sub_le ..)
      rw [hrest]
      rfl

theorem copyLoop_request (room : Nat) (hwf : ram.WellFormed r.sglist) :
    copyLoop ram r.nSg.toNat room r.sglist 0 0 = ram.copied room (ram.request r) 0 := by
  rw [copyLoop_eq room 0 hwf (hwf _ .refl), Ram.request, chain_take hwf le_rfl]
  rfl

/-! ## Requests -/

def Outcome.request : Outcome → Option Ureq
  | .rejected | .overrun => none
  | .noTarget u | .aborted u | .execute u _ => some u

structure Faithful (ram : Ram) (r : Submission) (visited : List Sg) (out : Outcome) : Prop where
  visits : visited.length ≤ r.nSg.toNat
  order : visited <+: ram.request r
  inside : out ≠ .overrun
  copies : ∀ u, out.request = some u → u.iovec = visited.map ram.iovec ∧
    (∀ v ∈ visited, ram.transl v.base ≠ 0) ∧ (r.size.toNat : Int) ≤ bytes visited
  short : bytes (ram.request r) < r.size.toNat → out = .rejected

/-- A request that gets a block gets one with room for its vectors, and lengths with a negative sum
are taken for too short. -/
structure Sound (ram : Ram) (host : Host) (r : Submission) : Prop where
  room : sizeofWreq.toNat + sizeofIovec.toNat * (ram.mapped (ram.request r)).length ≤ (host.block r).toNat
  sum : (∀ v ∈ ram.request r, ram.transl v.base ≠ 0) → bytes (ram.request r) < 0 →
    total (ram.request r) < r.size

def Considered (host : Host) (r : Submission) : Prop :=
  0 ≤ r.nSg.toInt ∧ r.cdbLen.toNat ≤ 16 ∧ host.malloc (host.block r) = true

theorem issue_request (dev : Option Dev) (r : Submission) (u : Ureq) :
    (issue dev r u).request = some u := by
  unfold issue
  split
  · rfl
  · split
    · rfl
    · dsimp only
      split <;> rfl

theorem mapped_all {vs : List Sg} : (ram.mapped vs).length = vs.length ↔ ∀ v ∈ vs, ram.transl v.base ≠ 0 := by
  have hall := takeWhile_eq_self_iff (p := fun v => decide (ram.transl v.base ≠ 0)) (l := vs)
  simp only [decide_eq_true_eq] at hall
  rw [← hall]
  exact ⟨fun h => ( takeWhile_prefix _).eq_of_length h, fun h => congrArg length h⟩

/-- A sum that is not negative is not below what `len` is. -/
theorem total_le {vs : List Sg} (h : 0 ≤ bytes vs) : ((total vs).toNat : Int) ≤ bytes vs := by
  have hmod := Int.emod_lt_of_pos (bytes vs) (b := 2 ^ 32) (by decide)
  have hdiv := Int.mul_ediv_add_emod (bytes vs) (2 ^ 32)
  have hquot := Int.ediv_nonneg h (b := 2 ^ 32) (by decide)
  rw [total, BitVec.toNat_ofInt]
  push_cast
  omega

theorem request_length (ram : Ram) (r : Submission) : (ram.request r).length ≤ r.nSg.toNat :=
  length_take_le ..

theorem room_iff {block : Word} {n : Nat} :
    sizeofWreq.toNat + sizeofIovec.toNat * n ≤ block.toNat ↔ ¬ block < sizeofWreq ∧ n ≤ room block := by
  rw [BitVec.not_lt, BitVec.le_def, room, Nat.le_div_iff_mul_le (by decide), mul_comm]
  omega

theorem submit_refused (h : ¬ Considered host r) : osipScsiSubmit ram host r = ([], .rejected) := by
  refine if_pos ?_
  simp only [Considered, not_and_or, not_le, Bool.not_eq_true] at h
  exact h

theorem submit_considered (h : Considered host r) (hwf : ram.WellFormed r.sglist)
    (hblock : ¬ host.block r < sizeofWreq) :
    ∃ cdb, osipScsiSubmit ram host r = ((ram.copied (room (host.block r)) (ram.request r) 0).1,
      match (ram.copied (room (host.block r)) (ram.request r) 0).2 with
      | .bad => .rejected
      | .overrun => .overrun
      | .done iovec len =>
        if len < r.size then .rejected else issue (host.dev r) r ⟨cdb, r.isWrite, iovec, r.size⟩) := by
  obtain ⟨hsg, hcdb, hmalloc⟩ := h
  unfold osipScsiSubmit
  rw [if_neg (by simp [hmalloc]; omega), if_neg hblock]
  simp only [copyLoop_request _ hwf]
  exact ⟨_, rfl⟩

theorem submit_overrun (h : Considered host r) (hwf : ram.WellFormed r.sglist)
    (hroom : ¬ sizeofWreq.toNat + sizeofIovec.toNat * (ram.mapped (ram.request r)).length ≤
      (host.block r).toNat) : (osipScsiSubmit ram host r).2 = .overrun := by
  by_cases hblock : host.block r < sizeofWreq
  · obtain ⟨hsg, hcdb, hmalloc⟩ := h
    unfold osipScsiSubmit
    rw [if_neg (by simp [hmalloc]; omega), if_pos hblock]
  · obtain ⟨cdb, hsubmit⟩ := submit_considered h hwf hblock
    have hlt : room (host.block r) < (ram.mapped (ram.request r)).length := by
      rw [room_iff, not_and] at hroom
      exact not_le.mp (hroom hblock)
    rw [hsubmit, Ram.copied]
    simp only [if_pos hlt]

/-- The lists of a request are copied in order into vectors of its block, and it is accepted only
if they are long enough, or else the block is too small or the lengths have a negative sum. -/
theorem scatter_faithful_iff (ram : Ram) (host : Host) (r : Submission) (hwf : ram.WellFormed r.sglist) :
    Faithful ram r (osipScsiSubmit ram host r).1 (osipScsiSubmit ram host r).2 ↔
      (Considered host r → Sound ram host r) := by
  by_cases hc : Considered host r
  swap
  · rw [submit_refused hc]
    exact ⟨fun _ h => absurd h hc, fun _ => ⟨Nat.zero_le _, nil_prefix, nofun, nofun, fun _ => rfl⟩⟩
  by_cases hroom : sizeofWreq.toNat + sizeofIovec.toNat * (ram.mapped (ram.request r)).length ≤
      (host.block r).toNat
  swap
  · exact ⟨fun h => absurd (submit_overrun hc hwf hroom) h.inside, fun h => absurd (h hc).room hroom⟩
  obtain ⟨hblock, hfits⟩ := room_iff.mp hroom
  obtain ⟨cdb, hsubmit⟩ := submit_considered hc hwf hblock
  have hlength := request_length ram r
  rw [hsubmit, Ram.copied, if_neg (not_lt.mpr hfits)]
  by_cases hall : ∀ v ∈ ram.request r, ram.transl v.base ≠ 0
  swap
  · have hlt : (ram.mapped (ram.request r)).length < (ram.request r).length :=
      lt_of_le_of_ne (mapped_length ..) fun h => hall (mapped_all.mp h)
    rw [if_pos hlt]
    exact ⟨fun _ _ => ⟨hroom, fun h => absurd h hall⟩, fun _ =>
      ⟨(length_take_le' ..).trans hlength, take_prefix .., nofun, nofun, fun _ => rfl⟩⟩
  rw [if_neg (by rw [mapped_all.mpr hall]; exact lt_irrefl _),
    show 0 + total (ram.request r) = _ from BitVec.zero_add _]
  dsimp only
  by_cases hsize : total (ram.request r) < r.size
  · rw [if_pos hsize]
    exact ⟨fun _ _ => ⟨hroom, fun _ _ => hsize⟩, fun _ => ⟨hlength, prefix_rfl, nofun, nofun, fun _ => rfl⟩⟩
  rw [if_neg hsize]
  refine ⟨fun h _ => ⟨hroom, fun _ hneg => absurd ?_ hneg.not_ge⟩, fun h => ?_⟩
  · obtain ⟨-, -, hle⟩ := h.copies _ (issue_request ..)
    exact (Int.natCast_nonneg _).trans hle
  · have hnonneg : 0 ≤ bytes (ram.request r) := not_lt.mp fun hneg => hsize ((h hc).sum hall hneg)
    have hle : (r.size.toNat : Int) ≤ bytes (ram.request r) := by
      have := total_le hnonneg
      rw [BitVec.not_lt, BitVec.le_def] at hsize
      omega
    refine ⟨hlength, prefix_rfl, fun hover => ?_, fun u hu => ?_, fun hshort => absurd hle hshort.not_ge⟩
    · have := issue_request (host.dev r) r ⟨cdb, r.isWrite, (ram.request r).map ram.iovec, r.size⟩
      rw [hover] at this
      cases this
    · cases Option.some.inj ((issue_request ..).symm.trans hu)
      exact ⟨rfl, hall, hle⟩

def oneEach : Ram where
  memory := ⟨⟨0, 0x10000000, 0x1000⟩, ⟨0, 0, 0⟩⟩
  sglist := fun _ => ⟨1, 0, fun _ => ⟨0x300, 0xfffffff0⟩⟩

theorem oneEach_wellFormed (l : SgList) (h : 1 ≤ l.nEl) : oneEach.WellFormed l := by
  intro l' hreach
  rcases hreach.cases_tail with rfl | ⟨l', -, hstep⟩
  · exact h
  · unfold Ram.follow at hstep
    split at hstep
    · cases hstep
    · cases hstep
      exact le_rfl

def listOf (next size nSg : Word) : Submission where
  cdb := replicate 16 0
  cdbLen := 6
  target := 0
  lun := 0
  isWrite := 1
  size := 0x20
  nSg := nSg
  sglist := ⟨1, next, fun _ => ⟨0x200, size⟩⟩

def plainHost : Host where
  targets := fun _ => some ⟨0, true⟩
  malloc := fun _ => true

theorem scatter_faithful_two : oneEach.WellFormed (listOf 0x100 0x40 5).sglist ∧
    (osipScsiSubmit oneEach plainHost (listOf 0x100 0x40 5)).1 = [⟨0x200, 0x40⟩, ⟨0x300, 0xfffffff0⟩] ∧
    (Faithful oneEach (listOf 0x100 0x40 5) (osipScsiSubmit oneEach plainHost (listOf 0x100 0x40 5)).1
      (osipScsiSubmit oneEach plainHost (listOf 0x100 0x40 5)).2 ↔
        (Considered plainHost (listOf 0x100 0x40 5) → Sound oneEach plainHost (listOf 0x100 0x40 5))) :=
  ⟨oneEach_wellFormed _ le_rfl, by decide, scatter_faithful_iff _ _ _ (oneEach_wellFormed _ le_rfl)⟩

/-- The size of the block wraps, or a buffer of −1 bytes is taken for one of 4 GB. -/
theorem scatter_unfaithful :
    oneEach.WellFormed (listOf 0 0x40 0x20000000).sglist ∧ oneEach.WellFormed (listOf 0 0xffffffff 1).sglist ∧
    plainHost.block (listOf 0 0x40 0x20000000) = sizeofWreq ∧
    ¬ Faithful oneEach (listOf 0 0x40 0x20000000)
      (osipScsiSubmit oneEach plainHost (listOf 0 0x40 0x20000000)).1
      (osipScsiSubmit oneEach plainHost (listOf 0 0x40 0x20000000)).2 ∧
    ¬ Faithful oneEach (listOf 0 0xffffffff 1) (osipScsiSubmit oneEach plainHost (listOf 0 0xffffffff 1)).1
      (osipScsiSubmit oneEach plainHost (listOf 0 0xffffffff 1)).2 := by
  refine ⟨oneEach_wellFormed _ le_rfl, oneEach_wellFormed _ le_rfl, by decide, fun h => h.inside ?_, fun h => ?_⟩
  · rfl
  · obtain ⟨-, -, hle⟩ := h.copies _ rfl
    exact absurd hle (by decide)

end MacOnLinux.Scsi
