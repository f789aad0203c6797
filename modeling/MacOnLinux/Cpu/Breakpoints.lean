import Mathlib.Data.BitVec
import Mathlib.Logic.Function.Basic

/-! # Breakpoints (`cpu/breakpoints.c`)

A breakpoint in RAM is an opcode that stands over the instruction while the guest runs. The break
flags for pages that are not mapped and for 68k code are left out.
-/

namespace MacOnLinux.Breakpoints

open Function List

abbrev Word := BitVec 32

/-! ## The table -/

inductive Context where
  | unmapped
  | mappedU
  | mappedS
  deriving DecidableEq, Repr

inductive BrType where
  | ram
  | rom
  | unmapped
  | m68k
  deriving DecidableEq, Repr

/-- `breakpoint_t`; `dec` and `rfi` are its flags. -/
structure Breakpoint where
  addr : Word
  context : Context
  lvptr : Word
  type : BrType
  dec : Bool
  rfi : Bool
  data : Int
  savedInstr : Word
  deriving DecidableEq, Repr

/-- The table, how often it was set up, and the words of the host. -/
structure State where
  table : List Breakpoint
  bpWritten : Nat
  mem : Word → Word

def breakpointOpcode : Word := 0x01234567

/-- What `ea_to_lvptr` finds, and which words are RAM or a ROM that can be written. -/
structure Mapping where
  lvptr : Word → Context → Option Word
  writeable : Word → Bool

/-! ## Removal -/

def Breakpoint.isAt (addr : Word) (b : Breakpoint) : Bool :=
  b.addr = addr || (b.type = .ram && b.lvptr = addr)

def Breakpoint.clear (b : Breakpoint) (mem : Word → Word) : Word → Word :=
  if b.type = .ram ∧ mem b.lvptr = breakpointOpcode then update mem b.lvptr b.savedInstr
  else mem

def removeBreakpoint (addr : Word) (s : State) : Option State :=
  if s.bpWritten ≠ 0 then none
  else match s.table.find? (·.isAt addr) with
    | none => some s
    | some b => some { s with table := s.table.eraseP (·.isAt addr), mem := b.clear s.mem }

/-! ## Setup and restore -/

def Breakpoint.locate (m : Mapping) (b : Breakpoint) : Breakpoint :=
  if b.type = .unmapped then
    match m.lvptr b.addr b.context with
    | none => b
    | some p => { b with lvptr := p, type := if m.writeable p then .ram else .rom }
  else b

def setupLoop (m : Mapping) : List Breakpoint → (Word → Word) → List Breakpoint × (Word → Word)
  | [], mem => ([], mem)
  | b :: bs, mem =>
    let b := b.locate m
    if b.type = .ram then
      let r := setupLoop m bs (update mem b.lvptr breakpointOpcode)
      ({ b with savedInstr := mem b.lvptr } :: r.1, r.2)
    else
      let r := setupLoop m bs mem
      (b :: r.1, r.2)

def setupBreakpoints (m : Mapping) (s : State) : State :=
  if s.bpWritten ≠ 0 then { s with bpWritten := s.bpWritten + 1 }
  else
    let r := setupLoop m s.table s.mem
    { table := r.1, bpWritten := 1, mem := r.2 }

def restoreLoop : List Breakpoint → (Word → Word) → (Word → Word)
  | [], mem => mem
  | b :: bs, mem =>
    restoreLoop bs (if b.type = .ram then update mem b.lvptr b.savedInstr else mem)

def restoreBreakpoints (s : State) : Option State :=
  if s.bpWritten = 0 then some s
  else
    let s := { s with bpWritten := 0, mem := restoreLoop s.table s.mem }
    match (s.table.filter fun b => b.dec && b.data = 0).getLast? with
    | some b => removeBreakpoint b.addr s
    | none => some s

/-! ## Insertion -/

def brDecFlag : Word := 16
def brM68k : Word := 32
def brRfiFlag : Word := 64
def brTranslEa : Word := 128
def brPhysEa : Word := 256

def has (flags f : Word) : Bool := flags &&& f ≠ 0

def align (addr flags : Word) : Word := addr &&& if has flags brM68k then ~~~1 else ~~~3

def newBreakpoint (addr flags : Word) (data : Int) (context : Context) : Breakpoint :=
  { addr := align addr flags
    context :=
      if has flags brTranslEa then .mappedS else if has flags brPhysEa then .unmapped else context
    lvptr := 0
    type := if has flags brM68k then .m68k else .unmapped
    dec := has flags brDecFlag
    rfi := has flags brM68k && has flags brRfiFlag
    data := if has flags brDecFlag then data else 0
    savedInstr := 0xdeadbbef }

def removeOld (addr : Word) (s : State) : Option State :=
  if s.table.any (·.addr = addr) then removeBreakpoint addr s else some s

def insertBreakpoint (addr flags : Word) (data : Int) (context : Context) (s : State) :
    Option State := do
  let s ← restoreBreakpoints s
  let s ← removeOld (align addr flags) s
  some { s with table := s.table ++ [newBreakpoint addr flags data context] }

def addBreakpoint (addr flags : Word) (data : Int) (context : Context) (m : Mapping) (s : State) :
    Option State :=
  (insertBreakpoint addr flags data context s).map (setupBreakpoints m)

def clearLoop : Nat → State → Option State
  | 0, s => some s
  | n + 1, s =>
    match s.table with
    | [] => some s
    | b :: _ => (removeBreakpoint b.addr s).bind (clearLoop n)

def clearAllBreakpoints (s : State) : Option State := do
  let s ← restoreBreakpoints s
  clearLoop s.table.length s

/-! ## Runs -/

inductive Op where
  | add (addr flags : Word) (data : Int) (context : Context) (m : Mapping)
  | remove (addr : Word)
  | setup (m : Mapping)
  | restore
  | clearAll
  | store (lvptr value mask : Word)
  | count (hit : Breakpoint → Bool)

def store (mem : Word → Word) (lvptr value mask : Word) : Word → Word :=
  update mem lvptr (mem lvptr &&& ~~~mask ||| value &&& mask)

def step : Op → State → Option State
  | .add addr flags data context m, s => addBreakpoint addr flags data context m s
  | .remove addr, s => removeBreakpoint addr s
  | .setup m, s => some (setupBreakpoints m s)
  | .restore, s => restoreBreakpoints s
  | .clearAll, s => clearAllBreakpoints s
  | .store lvptr value mask, s => some { s with mem := store s.mem lvptr value mask }
  | .count hit, s => some { s with
      table := s.table.map fun b => if hit b then { b with data := b.data - 1 } else b }

def after (mem : Word → Word) : List Op → Option State
  | [] => some ⟨[], 0, mem⟩
  | op :: ops => (after mem ops).bind (step op)

def guestMem (mem : Word → Word) : List Op → (Word → Word)
  | [] => mem
  | .store lvptr value mask :: ops => store (guestMem mem ops) lvptr value mask
  | _ :: ops => guestMem mem ops

/-! ## When the breakpoints do no harm -/

def Breakpoint.planted (m : Mapping) (b : Breakpoint) : Option Word :=
  if (b.locate m).type = .ram then some (b.locate m).lvptr else none

def apart (m : Mapping) (table : List Breakpoint) : Bool := (table.filterMap (·.planted m)).Nodup

/-- The guest has no `BREAKPOINT_OPCODE` of its own there. -/
def Breakpoint.safe (mem : Word → Word) (b : Breakpoint) : Bool :=
  b.type ≠ .ram || mem b.lvptr ≠ breakpointOpcode || b.savedInstr = breakpointOpcode

def admits : Op → State → Bool
  | .add addr flags data context m, s =>
    (s.bpWritten ≠ 0 || !s.table.any (·.addr = align addr flags) ||
        (s.table.find? (·.isAt (align addr flags))).all (·.safe s.mem)) &&
      (insertBreakpoint addr flags data context s).all fun s => apart m s.table
  | .remove addr, s => (s.table.find? (·.isAt addr)).all (·.safe s.mem)
  | .setup m, s => s.bpWritten ≠ 0 || apart m s.table
  | .restore, _ => true
  | .clearAll, s => s.bpWritten ≠ 0 || s.table.all (·.safe s.mem)
  | .store lvptr _ _, s => s.bpWritten = 0 || s.table.all fun b => b.type ≠ .ram || b.lvptr ≠ lvptr
  | .count _, _ => true

def Admitted (mem : Word → Word) : List Op → Prop
  | [] => True
  | op :: ops => Admitted mem ops ∧ (after mem ops).all (admits op) = true

variable {s s' : State} {clean mem : Word → Word} {m : Mapping} {addr flags : Word} {b : Breakpoint}
  {table : List Breakpoint}

/-! ## The loops -/

def Clear (table : List Breakpoint) (w : Word) : Prop := ∀ b ∈ table, b.type = .ram → b.lvptr ≠ w

def Saved (table : List Breakpoint) (clean : Word → Word) : Prop :=
  ∀ b ∈ table, b.type = .ram → b.savedInstr = clean b.lvptr

theorem restoreLoop_eq (hsaved : Saved table clean) (hrest : ∀ w, Clear table w → mem w = clean w) :
    restoreLoop table mem = clean := by
  induction table generalizing mem with
  | nil => exact funext fun w => hrest w (by simp [Clear])
  | cons b table ih =>
    apply ih (forall_mem_cons.mp hsaved).2
    intro w hw
    by_cases hb : b.type = .ram ∧ b.lvptr = w
    · obtain ⟨hram, rfl⟩ := hb
      rw [if_pos hram, update_self, hsaved b mem_cons_self hram]
    have hclear : Clear (b :: table) w := by
      intro b' hb' hram
      rcases mem_cons.mp hb' with rfl | hb'
      · exact fun he => hb ⟨hram, he⟩
      · exact hw b' hb' hram
    split_ifs with hram
    · rw [update_of_ne fun he => hb ⟨hram, he.symm⟩, hrest w hclear]
    · exact hrest w hclear

theorem setupLoop_spec (mem : Word → Word) (hapart : (table.filterMap (·.planted m)).Nodup)
    (hmem : ∀ w ∈ table.filterMap (·.planted m), mem w = clean w) :
    Saved (setupLoop m table mem).1 clean ∧
      ∀ w, Clear (setupLoop m table mem).1 w → (setupLoop m table mem).2 w = mem w := by
  induction table generalizing mem with
  | nil => exact ⟨by simp [Saved, setupLoop], fun w _ => rfl⟩
  | cons b table ih =>
    rw [setupLoop]
    by_cases hram : (b.locate m).type = .ram
    · have hplant : b.planted m = some (b.locate m).lvptr := if_pos hram
      rw [filterMap_cons_some hplant] at hapart hmem
      obtain ⟨hfresh, hapart⟩ := nodup_cons.mp hapart
      have hmem' : ∀ w ∈ table.filterMap (·.planted m),
          update mem (b.locate m).lvptr breakpointOpcode w = clean w := by
        intro w hw
        have hne : w ≠ (b.locate m).lvptr := by
          rintro rfl
          exact hfresh hw
        rw [update_of_ne hne]
        exact hmem w (mem_cons_of_mem _ hw)
      obtain ⟨hsaved, hrest⟩ := ih _ hapart hmem'
      rw [if_pos hram]
      refine ⟨?_, fun w hw => ?_⟩
      · intro b' hb'
        rcases mem_cons.mp hb' with rfl | hb'
        · exact fun _ => hmem _ mem_cons_self
        · exact hsaved b' hb'
      · have hne : (b.locate m).lvptr ≠ w :=
          hw { b.locate m with savedInstr := mem (b.locate m).lvptr } mem_cons_self hram
        rw [hrest w (forall_mem_cons.mp hw).2, update_of_ne hne.symm]
    · have hplant : b.planted m = none := if_neg hram
      rw [filterMap_cons_none hplant] at hapart hmem
      obtain ⟨hsaved, hrest⟩ := ih mem hapart hmem
      rw [if_neg hram]
      refine ⟨?_, fun w hw => hrest w (forall_mem_cons.mp hw).2⟩
      intro b' hb'
      rcases mem_cons.mp hb' with rfl | hb'
      · exact fun h => absurd h hram
      · exact hsaved b' hb'

/-! ## Removal -/

theorem clear_safe (h : b.safe mem = true) : b.clear mem = mem := by
  unfold Breakpoint.clear
  split_ifs with hthere
  · have hsaved : b.savedInstr = breakpointOpcode := by
      simpa [Breakpoint.safe, hthere.1, hthere.2] using h
    rw [hsaved, ← hthere.2, update_eq_self]
  · rfl

theorem removeBreakpoint_safe (h : (s.table.find? (·.isAt addr)).all (·.safe s.mem) = true)
    (hs' : removeBreakpoint addr s = some s') :
    s'.bpWritten = 0 ∧ s'.mem = s.mem ∧ s'.table ⊆ s.table := by
  unfold removeBreakpoint at hs'
  split at hs'
  · cases hs'
  rename_i hw
  split at hs'
  · cases hs'
    exact ⟨not_not.mp hw, rfl, List.Subset.refl _⟩
  · rename_i b hfind
    cases hs'
    rw [hfind] at h
    exact ⟨not_not.mp hw, clear_safe h, eraseP_subset⟩

theorem find_safe (h : ∀ b ∈ table, b.safe mem = true) (p : Breakpoint → Bool) :
    (table.find? p).all (·.safe mem) = true := by
  rw [Option.all_eq_true]
  exact fun b hb => h b (mem_of_find?_eq_some hb)

theorem clearLoop_safe {n : Nat} (h : ∀ b ∈ s.table, b.safe s.mem = true) (hs' : clearLoop n s = some s')
    (hw : s.bpWritten = 0) : s'.bpWritten = 0 ∧ s'.mem = s.mem := by
  induction n generalizing s with
  | zero =>
    cases hs'
    exact ⟨hw, rfl⟩
  | succ n ih =>
    rw [clearLoop] at hs'
    split at hs'
    · cases hs'
      exact ⟨hw, rfl⟩
    · obtain ⟨s1, hs1, hs'⟩ := Option.bind_eq_some_iff.mp hs'
      obtain ⟨hw1, hmem1, htable1⟩ := removeBreakpoint_safe (find_safe h _) hs1
      rw [← hmem1]
      exact ih (fun b hb => hmem1 ▸ h b (htable1 hb)) hs' hw1

/-! ## Runs -/

/-- The memory of the guest is there, or in the saved instructions. -/
structure Inv (s : State) (clean : Word → Word) : Prop where
  restored : s.bpWritten = 0 → s.mem = clean
  saved : s.bpWritten ≠ 0 → Saved s.table clean
  rest : ∀ w, Clear s.table w → s.mem w = clean w

theorem Inv.of_restored (hmem : s.mem = clean) (hw : s.bpWritten = 0) : Inv s clean :=
  ⟨fun _ => hmem, fun h => absurd hw h, fun w _ => congrFun hmem w⟩

theorem Inv.setup (h : Inv s clean) (hapart : s.bpWritten = 0 → apart m s.table = true) :
    Inv (setupBreakpoints m s) clean := by
  unfold setupBreakpoints
  split_ifs with hw
  · exact ⟨fun h => absurd h (Nat.succ_ne_zero _), fun _ => h.saved hw, h.rest⟩
  have hw : s.bpWritten = 0 := not_not.mp hw
  have hmem := h.restored hw
  obtain ⟨hsaved, hrest⟩ := setupLoop_spec s.mem (of_decide_eq_true (hapart hw))
    fun w _ => congrFun hmem w
  refine ⟨fun h => absurd h Nat.one_ne_zero, fun _ => hsaved, fun w hclear => ?_⟩
  rw [← hmem]
  exact hrest w hclear

theorem Inv.restore (h : Inv s clean) (hs' : restoreBreakpoints s = some s') :
    s'.bpWritten = 0 ∧ s'.mem = clean ∧ (s.bpWritten = 0 → s' = s) ∧
      (s.bpWritten ≠ 0 → ∀ b ∈ s'.table, b.safe s'.mem = true) := by
  unfold restoreBreakpoints at hs'
  split at hs'
  · rename_i hw
    cases hs'
    exact ⟨hw, h.restored hw, fun _ => rfl, fun hne => absurd hw hne⟩
  rename_i hw
  have hmem := restoreLoop_eq (h.saved hw) h.rest
  have hsafe : ∀ b ∈ s.table, b.safe clean = true := by
    intro b hb
    by_cases hram : b.type = .ram
    · have := h.saved hw b hb hram
      by_cases hop : clean b.lvptr = breakpointOpcode
      · simp [Breakpoint.safe, this, hop]
      · simp [Breakpoint.safe, hop]
    · simp [Breakpoint.safe, hram]
  dsimp only at hs'
  rw [hmem] at hs'
  split at hs'
  · obtain ⟨hw', hmem', htable⟩ := removeBreakpoint_safe (find_safe hsafe _) hs'
    refine ⟨hw', hmem', fun h => absurd h hw, fun _ b hb => ?_⟩
    rw [hmem']
    exact hsafe b (htable hb)
  · cases hs'
    exact ⟨rfl, rfl, fun h => absurd h hw, fun _ => hsafe⟩

theorem Inv.insert {data : Int} {context : Context} (h : Inv s clean)
    (hsafe : s.bpWritten = 0 → s.table.any (·.addr = align addr flags) = true →
      (s.table.find? (·.isAt (align addr flags))).all (·.safe s.mem) = true)
    (hs' : insertBreakpoint addr flags data context s = some s') : s'.bpWritten = 0 ∧ s'.mem = clean := by
  obtain ⟨s1, hs1, hs'⟩ := Option.bind_eq_some_iff.mp hs'
  obtain ⟨s2, hs2, hs'⟩ := Option.bind_eq_some_iff.mp hs'
  cases hs'
  obtain ⟨hw1, hmem1, hsame, hall⟩ := h.restore hs1
  unfold removeOld at hs2
  split_ifs at hs2 with hany
  · have hsafe1 : (s1.table.find? (·.isAt (align addr flags))).all (·.safe s1.mem) = true := by
      by_cases hw : s.bpWritten = 0
      · rw [hsame hw] at hany ⊢
        exact hsafe hw hany
      · exact find_safe (hall hw) _
    obtain ⟨hw2, hmem2, -⟩ := removeBreakpoint_safe hsafe1 hs2
    exact ⟨hw2, hmem2.trans hmem1⟩
  · cases hs2
    exact ⟨hw1, hmem1⟩

theorem Inv.store {lvptr value mask : Word} (h : Inv s clean)
    (hout : s.bpWritten = 0 ∨ Clear s.table lvptr) :
    Inv { s with mem := store s.mem lvptr value mask } (store clean lvptr value mask) := by
  by_cases hw : s.bpWritten = 0
  · exact .of_restored (by rw [h.restored hw]) hw
  have hclear := hout.resolve_left hw
  have hold := h.rest lvptr hclear
  refine ⟨fun h => absurd h hw, fun _ b hb hram => ?_, fun w hw' => ?_⟩
  · unfold Breakpoints.store
    rw [update_of_ne (hclear b hb hram)]
    exact h.saved hw b hb hram
  unfold Breakpoints.store
  dsimp only
  by_cases hwl : w = lvptr
  · subst hwl
    rw [update_self, update_self, hold]
  · rw [update_of_ne hwl, update_of_ne hwl]
    exact h.rest w hw'

theorem Inv.count {f : Breakpoint → Breakpoint} (h : Inv s clean)
    (hf : ∀ b, (f b).type = b.type ∧ (f b).lvptr = b.lvptr ∧ (f b).savedInstr = b.savedInstr) :
    Inv { s with table := s.table.map f } clean := by
  refine ⟨h.restored, fun hw b hb hram => ?_, fun w hw => h.rest w fun b hb hram => ?_⟩
  · obtain ⟨b0, hb0, rfl⟩ := mem_map.mp hb
    obtain ⟨htype, hlvptr, hsaved⟩ := hf b0
    rw [hlvptr, hsaved]
    exact h.saved hw b0 hb0 (htype ▸ hram)
  · obtain ⟨htype, hlvptr, -⟩ := hf b
    rw [← hlvptr]
    exact hw (f b) (mem_map_of_mem hb) (htype ▸ hram)

theorem Inv.step {op : Op} {ops : List Op} (h : Inv s (guestMem mem ops)) (hadm : admits op s = true)
    (hs' : Breakpoints.step op s = some s') : Inv s' (guestMem mem (op :: ops)) := by
  cases op with
  | add addr flags data context m =>
    simp only [admits, Bool.and_eq_true] at hadm
    obtain ⟨hsafe, hapart⟩ := hadm
    obtain ⟨s1, hs1, rfl⟩ := Option.map_eq_some_iff.mp hs'
    obtain ⟨hw1, hmem1⟩ := h.insert (fun hw hany => by simpa [hw, hany] using hsafe) hs1
    rw [hs1] at hapart
    exact Inv.setup (.of_restored hmem1 hw1) fun _ => hapart
  | remove addr =>
    have hw : s.bpWritten = 0 := by
      by_contra hw
      simp [Breakpoints.step, removeBreakpoint, hw] at hs'
    obtain ⟨hw', hmem', -⟩ := removeBreakpoint_safe hadm hs'
    exact .of_restored (hmem'.trans (h.restored hw)) hw'
  | setup m =>
    cases hs'
    exact h.setup fun hw => by simpa [admits, hw] using hadm
  | restore =>
    obtain ⟨hw', hmem', -⟩ := h.restore hs'
    exact .of_restored hmem' hw'
  | clearAll =>
    obtain ⟨s1, hs1, hs'⟩ := Option.bind_eq_some_iff.mp hs'
    obtain ⟨hw1, hmem1, hsame, hall⟩ := h.restore hs1
    have hsafe : ∀ b ∈ s1.table, b.safe s1.mem = true := by
      by_cases hw : s.bpWritten = 0
      · rw [hsame hw]
        simpa [admits, hw] using hadm
      · exact hall hw
    obtain ⟨hw', hmem'⟩ := clearLoop_safe hsafe hs' hw1
    exact .of_restored (hmem'.trans hmem1) hw'
  | store lvptr value mask =>
    cases hs'
    apply h.store
    simp only [admits, Bool.or_eq_true, decide_eq_true_eq, all_eq_true] at hadm
    exact hadm.imp_right fun hall b hb hram => (hall b hb).resolve_left (not_not.mpr hram)
  | count hit =>
    cases hs'
    apply h.count
    intro b
    split <;> exact ⟨rfl, rfl, rfl⟩

theorem Admitted.inv {ops : List Op} (h : Admitted mem ops) (hs : after mem ops = some s) :
    Inv s (guestMem mem ops) := by
  induction ops generalizing s with
  | nil =>
    cases hs
    exact .of_restored rfl rfl
  | cons op ops ih =>
    obtain ⟨htail, hadm⟩ := h
    obtain ⟨s0, hs0, hs⟩ := Option.bind_eq_some_iff.mp hs
    rw [hs0] at hadm
    exact (ih htail hs0).step hadm hs

/-- Restored breakpoints leave the memory of a run without any. -/
theorem breakpoints_invisible (mem : Word → Word) (ops : List Op) (h : Admitted mem ops) (s : State)
    (hs : after mem ops = some s) (hw : s.bpWritten = 0) : s.mem = guestMem mem ops :=
  (h.inv hs).restored hw

def identity : Mapping := ⟨fun addr _ => some addr, fun _ => true⟩

def mirrored : Mapping := ⟨fun addr _ => some (addr &&& 0x7fffffff), fun _ => true⟩

def apartOps : List Op :=
  [.store 0x100 7 0xff, .restore, .store 0x200 5 0xffffffff, .add 0x104 0 0 .unmapped identity,
    .add 0x100 0 0 .unmapped identity]

theorem breakpoints_invisible_apart :
    ∃ s, after (fun _ => 1) apartOps = some s ∧ s.bpWritten = 0 ∧ s.table.length = 2 ∧
      s.mem = guestMem (fun _ => 1) apartOps :=
  ⟨_, rfl, rfl, rfl, breakpoints_invisible _ apartOps (by
    refine ⟨⟨⟨⟨⟨trivial, ?_⟩, ?_⟩, ?_⟩, ?_⟩, ?_⟩ <;> decide) _ rfl rfl⟩

def visible (mem : Word → Word) (ops : List Op) (w : Word) : Bool :=
  (after mem ops).any fun s => s.bpWritten = 0 && s.mem w ≠ guestMem mem ops w

/-- Two breakpoints in one word, a store over the opcode, and an opcode of the guest. -/
theorem breakpoints_visible :
    visible (fun _ => 1) [.restore, .add 0x80000100 0 0 .unmapped mirrored,
      .add 0x100 0 0 .unmapped mirrored] 0x100 = true ∧
    visible (fun _ => 1) [.restore, .store 0x100 5 0xffffffff,
      .add 0x100 0 0 .unmapped identity] 0x100 = true ∧
    visible (fun _ => 1) [.remove 0x100, .store 0x100 breakpointOpcode 0xffffffff, .restore,
      .add 0x100 0 0 .unmapped identity] 0x100 = true := by
  decide

end MacOnLinux.Breakpoints
