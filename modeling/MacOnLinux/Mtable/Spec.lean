import MacOnLinux.Mtable.Code

/-! # What the records mean -/

namespace MacOnLinux

open Linked

/-- The 16 bits of `ea` that select a page of a segment. -/
def pageOf (ea : Nat) : Nat := ea / 2 ^ 12 % 2 ^ 16

/-- A page of the entry `r`, under `linux_vsid_sv` or `linux_vsid`. -/
structure Key where
  r : Nat
  page : Nat
  sv : Bool
  deriving DecidableEq

abbrev Slot := Nat × Nat × Nat

def slotOf (r page : Nat) : Slot := (r, page / 32 % 64, page % 32)

def Key.slot (k : Key) : Slot := slotOf k.r k.page

/-- `idle` is an unused lv head, `limbo` is on its way from one list to another. -/
inductive Role where
  | idle
  | free
  | limbo
  | ea (k : Key)

structure Rings where
  ea : Slot → List Ptr
  lv : Ptr → List Ptr
  free : List Ptr
  tabs : List Nat
  role : Ptr → Role
  ring : Ptr → Option Ptr

def LvRange.pages (lvr : LvRange) : Nat := (lvr.size >>> 12).toNat

namespace Mtable

def IsHead (m : Mtable) (x : Ptr) : Prop :=
  ∃ lvr ∈ m.lvranges, ∃ k < lvr.pages, x = .pterec (lvr.pents + k)

def IsPlain (m : Mtable) (x : Ptr) : Prop :=
  ∃ first, (Contents.pent, first) ∈ m.allocations ∧ ∃ k < pentsPerChunk, x = .pterec (first + k)

/-- NULL when empty, else circular, with the last record marked. -/
def RingAt (m : Mtable) (p : Ptr) (xs : List Ptr) : Prop :=
  (xs = [] ∧ m.eaNext p = .null) ∨
    (xs ≠ [] ∧ Chain m.eaNext p xs p ∧ ∀ x ∈ xs, ((m.pent x).eaLast = true ↔ x = xs.getLastD p))

def EaRing (m : Mtable) (s : Slot) (xs : List Ptr) : Prop :=
  match m.lev2 s.1 s.2.1 with
  | none => xs = []
  | some t => m.RingAt (.slot t s.2.2) xs

end Mtable

/-- The `pent` word of a record for the page `k`. -/
structure Pent.Tracks (v : Pent) (k : Key) : Prop where
  topea : v.topea = k.page / 2 ^ 11
  sv : v.sv = k.sv
  bit : v.eaBit14 = decide (k.page / 32 % 2 = 1)

structure EaPart (m : Mtable) (g : Rings) : Prop where
  ring : ∀ s, m.EaRing s (g.ea s)
  nodup : ∀ s, (g.ea s).Nodup
  mem : ∀ s x, x ∈ g.ea s ↔ ∃ k, g.role x = .ea k ∧ k.slot = s
  pent : ∀ x k, g.role x = .ea k → k.page < 2 ^ 16 ∧ (m.pent x).Tracks k
  uniq : ∀ x y k, g.role x = .ea k → g.role y = .ea k → x = y
  record : ∀ x k, g.role x = .ea k → ∃ i < m.nextRec, x = .pterec i

structure LvPart (m : Mtable) (g : Rings) : Prop where
  ring : ∀ h, m.IsHead h → Chain m.lvNext h (g.lv h) h
  nodup : ∀ h, (g.lv h).Nodup
  mem : ∀ h x, x ∈ g.lv h ↔ g.ring x = some h
  member : ∀ h x, g.ring x = some h → m.IsHead h ∧ m.IsPlain x ∧ g.role x ≠ .free
  freeList : Seg m.lvNext m.freePents g.free .null
  freeNodup : g.free.Nodup
  freeMem : ∀ x, x ∈ g.free ↔ g.role x = .free
  head : ∀ h, m.IsHead h →
    (m.pent h).lvHead = true ∧ g.role h ≠ .free ∧ ((m.pent h).unused = true ↔ g.role h = .idle)
  plain : ∀ x, m.IsPlain x → (m.pent x).lvHead = false ∧ g.role x ≠ .idle ∧
      ∀ k, g.role x = .ea k → g.ring x = none → m.lvNext x = .null
  owned : ∀ x, g.role x ≠ .idle → m.IsHead x ∨ m.IsPlain x
  bound : ∀ x, m.IsHead x ∨ m.IsPlain x → ∃ i < m.nextRec, x = .pterec i

structure TabPart (m : Mtable) (g : Rings) : Prop where
  list : Seg m.eaNext m.freePentTables (g.tabs.map (Ptr.slot · 0)) .null
  nodup : g.tabs.Nodup
  empty : ∀ t ∈ g.tabs, ∀ j, j ≠ 0 → m.eaNext (.slot t j) = .null
  bound : ∀ t ∈ g.tabs, t < m.nextTab
  used : ∀ r i t, m.lev2 r i = some t → t ∉ g.tabs ∧ t < m.nextTab
  inj : ∀ r i r' i' t, m.lev2 r i = some t → m.lev2 r' i' = some t → r = r' ∧ i = i'
  ind : ∀ r i t, m.lev2 r i = some t → i < 64

/-- The memory holds the rings `g`. -/
structure Rep (m : Mtable) (g : Rings) : Prop where
  ea : EaPart m g
  lv : LvPart m g
  tab : TabPart m g
  settled : ∀ x, g.role x ≠ .limbo

/-- The lv ring that a record in use is on, named by its head. -/
def host (m : Mtable) (g : Rings) (x : Ptr) : Option Ptr :=
  if (m.pent x).lvHead then some x else g.ring x

structure SameRecs (m m' : Mtable) : Prop where
  lvranges : m'.lvranges = m.lvranges
  allocations : m'.allocations = m.allocations
  allocSize : m'.allocSize = m.allocSize
  allocLimit : m'.allocLimit = m.allocLimit
  nextRec : m'.nextRec = m.nextRec
  nextTab : m'.nextTab = m.nextTab

structure SameTables (m m' : Mtable) : Prop extends SameRecs m m' where
  lev2 : m'.lev2 = m.lev2
  freePentTables : m'.freePentTables = m.freePentTables
  tlbied : m'.tlbied = m.tlbied

/-- The address has the low six bits of the page `k`. -/
structure Tlbie.Of (c : Tlbie) (k : Key) : Prop where
  head : ∃ t, c.head = .slot t (k.page % 32)
  bit : c.eaBit14 = decide (k.page / 32 % 2 = 1)

/-- The calls of `tlbie` were for records in use. -/
def Invalidated (m : Mtable) (g : Rings) (m' : Mtable) : Prop :=
  ∃ calls, m'.tlbied = m.tlbied ++ calls ∧ ∀ c ∈ calls, ∃ k, g.role c.pr = .ea k ∧ c.Of k

/-- Exactly the tracking records in `P` were released, and their PTEs zeroed. -/
structure Drops (P : Ptr → Prop) (m : Mtable) (g : Rings) (m' : Mtable) (g' : Rings) : Prop where
  role : ∀ x k, g'.role x = .ea k ↔ g.role x = .ea k ∧ ¬ P x
  kept : ∀ x k, g'.role x = .ea k →
    (m'.pent x).index = (m.pent x).index ∧ (m'.pent x).lvHead = (m.pent x).lvHead ∧ g'.ring x = g.ring x
  zeroed : ∀ x k, g.role x = .ea k → P x → m'.pte0 (m.pent x).index = 0
  pte0 : ∀ i, m'.pte0 i = m.pte0 i ∨
    m'.pte0 i = 0 ∧ ∃ x k, g.role x = .ea k ∧ P x ∧ (m.pent x).index = i
  pents : m.freePents ≠ .null → m'.freePents ≠ .null
  tables : m.freePentTables ≠ .null → m'.freePentTables ≠ .null
  lev2 : ∀ r i t, m'.lev2 r i = some t → m.lev2 r i = some t
  same : SameRecs m m'
  tlbies : Invalidated m g m'

theorem Drops.tracked {P : Ptr → Prop} {m m' : Mtable} {g g' : Rings} (h : Drops P m g m' g')
    (x : Ptr) (k : Key) (hk : g'.role x = .ea k) : g.role x = .ea k := ((h.role x k).mp hk).1

/-- The same pages are tracked. Records and tables may have been added. -/
structure Keeps (m : Mtable) (g : Rings) (m' : Mtable) (g' : Rings) : Prop where
  role : ∀ x k, g'.role x = .ea k ↔ g.role x = .ea k
  kept : ∀ x k, g'.role x = .ea k →
    (m'.pent x).index = (m.pent x).index ∧ (m'.pent x).lvHead = (m.pent x).lvHead ∧ g'.ring x = g.ring x
  pte0 : m'.pte0 = m.pte0
  lev2 : m'.lev2 = m.lev2

/-- The page `k` is now tracked in slot `index`; nothing else changed. -/
structure Inserted (k : Key) (index : Nat) (o : Option Ptr) (m : Mtable) (g : Rings)
    (m' : Mtable) (g' : Rings) : Prop where
  here : ∃ x, g'.role x = .ea k ∧ (m'.pent x).index = index ∧ ∀ p ∈ o, host m' g' x = some p
  role : ∀ x κ, κ ≠ k → (g'.role x = .ea κ ↔ g.role x = .ea κ)
  kept : ∀ x κ, κ ≠ k → g'.role x = .ea κ →
    (m'.pent x).index = (m.pent x).index ∧ (m'.pent x).lvHead = (m.pent x).lvHead ∧ g'.ring x = g.ring x
  pte0 : m'.pte0 = m.pte0
  lev2 : ∀ r i t, m'.lev2 r i = some t → m.lev2 r i = some t ∨ r = k.r
  same : SameRecs m m'

end MacOnLinux
