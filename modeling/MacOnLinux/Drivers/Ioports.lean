import MacOnLinux.Kv.Blocks

/-! # I/O ranges (`drivers/ioports.c`)

The kernel keeps, for each double word of an I/O page, the `io_range_t` that an access goes to, or 0
when the list has to be searched.
-/

namespace MacOnLinux.Ioports

open Kv List

/-! ## Model -/

/-- The part of an `io_range_t` that tells which accesses it gets, with its address. -/
structure IoRange where
  addr : Word
  id : Nat
  mphys : Word
  size : Word
  deriving DecidableEq, Repr

structure State where
  root : List IoRange
  nextId : Nat
  kv : Kv

def IoRange.contains (r : IoRange) (a : Word) : Bool := r.mphys ≤ a ∧ a ≤ r.mphys + r.size - 1

def getRange (root : List IoRange) (a : Word) : Option IoRange := root.find? (·.contains a)

def IoRange.small (r : IoRange) : Bool := r.size ≤ 0x2000

def kernelAdd (kv : Kv) (r : IoRange) (pages : List Word) : Option Kv :=
  if r.small then (kv.addIoTrans r.mphys r.size.toInt r.addr pages).map Prod.fst else some kv

/-- With the address that `calloc` returns and the pages that the kernel gets. -/
def addIoRange (s : State) (mbase size addr : Word) (pages : List Word) : Option (State × Nat) :=
  if mbase &&& 7 ≠ 0 ∨ size &&& 7 ≠ 0 then some (s, 0)
  else
    let r : IoRange := ⟨addr, s.nextId, mbase, size⟩
    (kernelAdd s.kv r pages).map fun kv =>
      ({ root := r :: s.root, nextId := (s.nextId + 1) % 2 ^ 32, kv := kv }, r.id)

def removeIoRange (s : State) (id : Nat) : Option State :=
  match s.root.find? (·.id = id) with
  | none => some s
  | some r => do
    let kv ← s.kv.removeIoTrans r.mphys r.size.toInt
    some { s with root := s.root.eraseP (·.id = id), kv := kv }

/-! ## Runs -/

/-- The kernel takes the size for an `int`. -/
structure Fits (s : State) (mbase size addr : Word) (pages : List Word) : Prop where
  nonempty : 0 < size
  positive : size.toNat < 2 ^ 31
  inSpace : mbase.toNat + size.toNat ≤ 2 ^ 32
  fresh : addr ≠ 0 ∧ ∀ r ∈ s.root, r.addr ≠ addr
  pages : 3 ≤ pages.length

inductive Event where
  | added (r : IoRange)
  | removed (r : IoRange)

def Event.range : Event → IoRange
  | .added r | .removed r => r

def noteAdd (s : State) (mbase size addr : Word) (log : List Event) : List Event :=
  if mbase &&& 7 ≠ 0 ∨ size &&& 7 ≠ 0 then log else .added ⟨addr, s.nextId, mbase, size⟩ :: log

def noteRemove (s : State) (id : Nat) (log : List Event) : List Event :=
  match s.root.find? (·.id = id) with
  | none => log
  | some r => .removed r :: log

/-- The latest addition or removal of a range that contains the address. -/
def lastOver (log : List Event) (a : Word) : Option Event := log.find? (·.range.contains a)

/-- Calls, with what they added and removed, the latest first. -/
inductive Run : List Event → State → Prop where
  | init {s : State} : s.root = [] → s.kv.io.ioPages = [] → Run [] s
  | add {s s' : State} {log : List Event} {id : Nat} (mbase size addr : Word) (pages : List Word) :
      Run log s → Fits s mbase size addr pages → addIoRange s mbase size addr pages = some (s', id) →
      Run (noteAdd s mbase size addr log) s'
  | remove {s s' : State} {log : List Event} (id : Nat) : Run log s → removeIoRange s id = some s' →
      Run (noteRemove s id log) s'

def smallRange (root : List IoRange) (a : Word) : Option IoRange :=
  root.find? fun r => r.small && r.contains a

structure IoRange.Sane (r : IoRange) : Prop where
  nonempty : 0 < r.size
  positive : r.size.toNat < 2 ^ 31
  inSpace : r.mphys.toNat + r.size.toNat ≤ 2 ^ 32
  addr : r.addr ≠ 0
  aligned : r.mphys.toNat % 8 = 0 ∧ r.size.toNat % 8 = 0

/-- What the kernel has is the newest small range, or nothing. -/
structure Ok (log : List Event) (s : State) : Prop where
  pages : PagesOk s.kv.io.ioPages
  sane : ∀ r ∈ s.root, r.Sane
  addrs : (s.root.map (·.addr)).Nodup
  slots : ∀ a, slot s.kv.io.ioPages a = 0 ∨
    ∃ r, smallRange s.root a = some r ∧ slot s.kv.io.ioPages a = r.addr
  last : ∀ a, match lastOver log a with
    | some (.added r) => getRange s.root a = some r ∧ (r.small = true → slot s.kv.io.ioPages a = r.addr)
    | _ => slot s.kv.io.ioPages a = 0

variable {s s' : State} {log : List Event}

variable {r : IoRange} {mbase size : Word} {id : Nat} {root : List IoRange}

theorem and_seven_eq_zero {x : Word} : x &&& 7 = 0 ↔ x.toNat % 8 = 0 := by
  rw [← BitVec.toNat_inj, BitVec.toNat_and, show (7 : Word).toNat = 2 ^ 3 - 1 by rfl,
    Nat.and_two_pow_sub_one_eq_mod]
  rfl

theorem contains_iff (h : r.Sane) (a : Word) : r.contains a = true ↔ Inside r.mphys r.size.toNat a := by
  obtain ⟨h0, _, hs, _⟩ := h
  unfold IoRange.contains Inside
  rw [decide_eq_true_iff]
  bv_omega

theorem ioSize_of_aligned (hb : mbase.toNat % 8 = 0) (hs : size.toNat % 8 = 0)
    (hle : size.toNat < 2 ^ 31) : ioSize mbase size.toInt = size.toNat := by
  unfold ioSize
  rw [BitVec.ofInt_toInt, and_seven_eq_zero.mpr hb, show size + 0 = size from BitVec.add_zero size,
    BitVec.toInt_eq_toNat_cond]
  have hand : (size + 7 &&& ~~~(7 : Word)).toNat = (size + 7).toNat / 8 * 8 := and_high (size + 7) 3
  have hadd : (size + 7).toNat = size.toNat + 7 := by
    show (size.toNat + 7) % 2 ^ 32 = _
    omega
  split <;> omega

theorem ioBase_of_aligned (hb : mbase.toNat % 8 = 0) : ioBase mbase = mbase := by
  unfold ioBase
  rw [and_seven_eq_zero.mpr hb]
  exact BitVec.sub_zero mbase

theorem smallRange_cons (r : IoRange) (root : List IoRange) (a : Word) :
    smallRange (r :: root) a = if r.small && r.contains a then some r else smallRange root a := by
  unfold smallRange
  split <;> simp_all

theorem getRange_cons (r : IoRange) (root : List IoRange) (a : Word) :
    getRange (r :: root) a = if r.contains a then some r else getRange root a := by
  unfold getRange
  split <;> simp_all

theorem lastOver_cons (e : Event) (log : List Event) (a : Word) :
    lastOver (e :: log) a = if e.range.contains a then some e else lastOver log a := by
  unfold lastOver
  split <;> simp_all

/-- The kernel's part of an addition. -/
theorem kernelAdd_spec {kv : Kv} {pages : List Word} (h : PagesOk s.kv.io.ioPages) (hr : r.Sane)
    (hpages : 3 ≤ pages.length) (hkv : kernelAdd s.kv r pages = some kv) :
    PagesOk kv.io.ioPages ∧ ∀ a, slot kv.io.ioPages a =
      if r.small && r.contains a then r.addr else slot s.kv.io.ioPages a := by
  unfold kernelAdd at hkv
  split at hkv
  · rename_i hsmall
    obtain ⟨ps, rc, hadd, n, hok, _, hfill, henough, hall⟩ :=
      addIoTrans_spec h r.mphys r.size.toInt r.addr pages
    have hsize := ioSize_of_aligned hr.aligned.1 hr.aligned.2 hr.positive
    have hle : r.size.toNat ≤ 0x2000 := of_decide_eq_true hsmall
    rw [hadd] at hkv
    cases hkv
    rw [hsize] at henough hall
    rw [ioBase_of_aligned hr.aligned.1] at hfill henough
    have hn : n = r.size.toNat := by
      refine hall (henough (Nat.le_trans ?_ hpages))
      unfold ioPagesOf
      split <;> omega
    subst hn
    refine ⟨hok, fun a => ?_⟩
    rw [hfill.slot, hsmall, Bool.true_and]
    exact if_congr (contains_iff hr a).symm rfl rfl
  · rename_i hlarge
    cases hkv
    refine ⟨h, fun a => (if_neg fun hc => ?_).symm⟩
    exact hlarge (Bool.and_eq_true_iff.mp hc).1

theorem addIoRange_ok (h : Ok log s) {addr : Word} {pages : List Word}
    (hf : Fits s mbase size addr pages) (hs : addIoRange s mbase size addr pages = some (s', id)) :
    Ok (noteAdd s mbase size addr log) s' := by
  unfold addIoRange at hs
  unfold noteAdd
  split_ifs at hs ⊢ with halign
  · cases hs
    exact h
  rw [not_or, not_not, not_not, and_seven_eq_zero, and_seven_eq_zero] at halign
  obtain ⟨hb, hsz⟩ := halign
  obtain ⟨kv, hkv, hs⟩ := Option.map_eq_some_iff.mp hs
  cases hs
  have hr : (⟨addr, s.nextId, mbase, size⟩ : IoRange).Sane :=
    ⟨hf.nonempty, hf.positive, hf.inSpace, hf.fresh.1, hb, hsz⟩
  obtain ⟨hok, hslot⟩ := kernelAdd_spec h.pages hr hf.pages hkv
  refine ⟨hok, ?_, ?_, ?_, ?_⟩
  · intro r hr'
    rcases mem_cons.mp hr' with rfl | hr'
    · exact hr
    · exact h.sane r hr'
  · rw [map_cons, nodup_cons]
    refine ⟨?_, h.addrs⟩
    intro hmem
    obtain ⟨r, hr, he⟩ := mem_map.mp hmem
    exact hf.fresh.2 r hr he
  · intro a
    rw [hslot, smallRange_cons]
    split
    · exact .inr ⟨_, rfl, rfl⟩
    · exact h.slots a
  · intro a
    rw [lastOver_cons, getRange_cons, hslot]
    by_cases ha : (⟨addr, s.nextId, mbase, size⟩ : IoRange).contains a = true
    · simp only [Event.range, ha, if_true, Bool.and_true, true_and]
      exact fun hsmall => if_pos hsmall
    · simp only [Event.range, ha, Bool.and_false, Bool.false_eq_true, if_false]
      exact h.last a

theorem find?_eraseP_of_not {l : List IoRange} {p q : IoRange → Bool} (hr : l.find? q = some r)
    (hp : p r = false) : (l.eraseP q).find? p = l.find? p := by
  induction l with
  | nil => rfl
  | cons x l ih =>
    rw [find?_cons] at hr
    cases hq : q x with
    | true =>
      rw [hq] at hr
      cases hr
      rw [eraseP_cons_of_pos hq, find?_cons_of_neg (by simp [hp])]
    | false =>
      rw [hq] at hr
      rw [eraseP_cons_of_neg (by simp [hq]), find?_cons, find?_cons, ih hr]

theorem removeIoRange_ok (h : Ok log s) (hs : removeIoRange s id = some s') :
    Ok (noteRemove s id log) s' := by
  unfold removeIoRange at hs
  unfold noteRemove
  split at hs
  · cases hs
    exact h
  rename_i r hr
  have hsane := h.sane r (mem_of_find?_eq_some hr)
  obtain ⟨kv, hkv, hs⟩ := Option.bind_eq_some_iff.mp hs
  cases hs
  obtain ⟨ps, hrem, hok, hempty, _⟩ := removeIoTrans_spec h.pages r.mphys r.size.toInt
  rw [hrem] at hkv
  cases hkv
  rw [ioBase_of_aligned hsane.aligned.1, ioSize_of_aligned hsane.aligned.1 hsane.aligned.2 hsane.positive,
    Int.toNat_natCast] at hempty
  have hslot (a : Word) : slot ps a = if r.contains a then 0 else slot s.kv.io.ioPages a := by
    rw [hempty.slot]
    exact if_congr (contains_iff hsane a).symm rfl rfl
  refine ⟨hok, fun r' hr' => h.sane r' (mem_of_mem_eraseP hr'),
    h.addrs.sublist (eraseP_sublist.map _), ?_, ?_⟩
  · intro a
    show slot ps a = 0 ∨ _
    rw [hslot]
    split_ifs with ha
    · exact .inl rfl
    rcases h.slots a with h0 | ⟨r', hr', he⟩
    · exact .inl h0
    · refine .inr ⟨r', ?_, he⟩
      rw [← hr']
      exact find?_eraseP_of_not hr (by simp [ha])
  · intro a
    show match lastOver (.removed r :: log) a with
      | some (.added r') => getRange (s.root.eraseP (·.id = id)) a = some r' ∧ (r'.small = true → slot ps a = r'.addr)
      | _ => slot ps a = 0
    rw [lastOver_cons, hslot]
    by_cases ha : r.contains a = true
    · simp only [Event.range, ha, if_true]
    · have hget : getRange (s.root.eraseP (·.id = id)) a = getRange s.root a :=
        find?_eraseP_of_not hr (by simpa using ha)
      simp only [Event.range, ha, Bool.false_eq_true, if_false, hget]
      exact h.last a

theorem ok_run (hrun : Run log s) : Ok log s := by
  induction hrun with
  | init hroot hpages =>
    refine ⟨?_, ?_, ?_, ?_, ?_⟩
    · rw [hpages]
      exact ⟨List.Pairwise.nil, nofun⟩
    · rw [hroot]
      exact nofun
    · rw [hroot]
      exact nodup_nil
    · intro a
      rw [hpages]
      exact .inl rfl
    · intro a
      rw [hpages]
      rfl
  | add mbase size addr pages _ hf hs ih => exact addIoRange_ok ih hf hs
  | remove id _ hs ih => exact removeIoRange_ok ih hs

/-! ## The two ways to a range -/

/-- When the kernel has the range that the list gives. It never has one that was freed. -/
theorem io_fast_path_iff (hrun : Run log s) {a w : Word} (h : slotAt s.kv.io.ioPages a = some w)
    (hr : getRange s.root a = some r) :
    (w = r.addr ↔ ∃ r', lastOver log a = some (.added r') ∧ r'.small = true) ∧
      (w = 0 ∨ ∃ r' ∈ s.root, w = r'.addr) := by
  have hok := ok_run hrun
  have hslot : slot s.kv.io.ioPages a = w := by
    unfold slot
    rw [h]
    rfl
  have hmem := mem_of_find?_eq_some hr
  have hlast := hok.last a
  have hslots := hok.slots a
  rw [hslot] at hlast hslots
  constructor
  · cases he : lastOver log a with
    | none =>
      simp only [he] at hlast
      exact iff_of_false (fun hw => (hok.sane r hmem).addr (hw.symm.trans hlast)) nofun
    | some e =>
      cases e with
      | removed r' =>
        simp only [he] at hlast
        exact iff_of_false (fun hw => (hok.sane r hmem).addr (hw.symm.trans hlast)) (by simp)
      | added r' =>
        simp only [he] at hlast
        obtain ⟨hget, hsmall⟩ := hlast
        obtain rfl : r' = r := Option.some.inj (hget.symm.trans hr)
        constructor
        · -- another small range has another address
          intro hw
          refine ⟨r', rfl, ?_⟩
          rcases hslots with h0 | ⟨r0, hr0, he0⟩
          · exact absurd (hw.symm.trans h0) (hok.sane r' hmem).addr
          · have hmem0 := mem_of_find?_eq_some hr0
            have heq : r0 = r' := inj_on_of_nodup_map hok.addrs hmem0 hmem (he0.symm.trans hw)
            have hboth := find?_some (p := fun r : IoRange => r.small && r.contains a) hr0
            rw [← heq]
            exact (Bool.and_eq_true_iff.mp hboth).1
        · rintro ⟨r'', hr'', hs⟩
          cases hr''
          exact hsmall hs
  · rcases hslots with h0 | ⟨r0, hr0, he0⟩
    · exact .inl h0
    · exact .inr ⟨r0, mem_of_find?_eq_some hr0, he0⟩

def noRanges : State := ⟨[], 1, emptyMap⟩

theorem run_one : ∃ log s, Run log s ∧ slotAt s.kv.io.ioPages 0x80000000 = some 0x100 ∧
    s.root = [⟨0x100, 1, 0x80000000, 8⟩] ∧ log = [.added ⟨0x100, 1, 0x80000000, 8⟩] :=
  ⟨_, _, .add 0x80000000 8 0x100 [0x1000, 0x2000, 0x3000] (.init (s := noRanges) rfl rfl)
    ⟨by decide, by decide, by decide, by decide, by decide⟩ rfl, rfl, rfl, rfl⟩

theorem io_fast_path_one : ∃ s : State, slotAt s.kv.io.ioPages 0x80000000 = some 0x100 ∧
    getRange s.root 0x80000000 = some ⟨0x100, 1, 0x80000000, 8⟩ ∧ ((0x100 : Word) = 0x100 ↔
      ∃ r', lastOver [.added ⟨0x100, 1, 0x80000000, 8⟩] 0x80000000 = some (.added r') ∧ r'.small = true) := by
  obtain ⟨log, s, hrun, hslot, hroot, rfl⟩ := run_one
  have hget : getRange s.root 0x80000000 = some ⟨0x100, 1, 0x80000000, 8⟩ := by
    rw [hroot]
    rfl
  exact ⟨s, hslot, hget, (io_fast_path_iff hrun hslot hget).1⟩

set_option maxRecDepth 10000 in
/-- The kernel is not told of a large range over a small one. -/
theorem io_large_hidden : ∃ log s, Run log s ∧ slotAt s.kv.io.ioPages 0x80000000 = some 0x100 ∧
    (∃ r ∈ s.root, r.addr = 0x100 ∧ r.small = true ∧ r.contains 0x80000000 = true) ∧
    getRange s.root 0x80000000 = some ⟨0x200, 2, 0x80000000, 0x4000⟩ := by
  have h1 := Run.add 0x80000000 8 0x100 [0x1000, 0x2000, 0x3000] (.init (s := noRanges) rfl rfl)
    ⟨by decide, by decide, by decide, by decide, by decide⟩ rfl
  have h2 := Run.add 0x80000000 0x4000 0x200 [0x1000, 0x2000, 0x3000] h1
    ⟨by decide, by decide, by decide, by decide, by decide⟩ rfl
  exact ⟨_, _, h2, rfl, ⟨⟨0x100, 1, 0x80000000, 8⟩, by decide, rfl, by decide, by decide⟩, rfl⟩

end MacOnLinux.Ioports
