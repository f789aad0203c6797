import Mathlib.Data.Nat.Log
import MacOnLinux.Lib.Linked

/-! # The skiplist (`kmod/skiplist.c`, `shared/skiplist.h`)

The links of level `n` are the function `next n`. Loops over links carry fuel; `none` means that a
loop did not end.
-/

namespace MacOnLinux.Skiplist

open Linked Function

-- `SKIPLIST_MAX_HEIGHT`, the reserved key `SKIPLIST_END` of `nil_el`, and the sizes of
-- `skiplist_t` and `skiplist_level_t` on a 32 bit host.
def maxHeight : Nat := 16
def skiplistEnd : Int := 2147483647
def sizeofSkiplist : Nat := 88
def sizeofLevel : Nat := 4

/-- The addresses the code forms; `root` is the element whose `level` is `sl->root`. -/
inductive Node where
  | null
  | root
  | nil
  | el (i : Nat)
  deriving DecidableEq, Repr

/-- A `skiplist_t` with its elements; those from `fresh` on are not in use yet. -/
structure Sl where
  nel : Nat
  slevel : Nat
  datasize : Nat
  key : Node → Int
  next : Nat → Node → Node
  freelist : Node
  fresh : Nat

def Sl.setNext (sl : Sl) (n : Nat) (p q : Node) : Sl :=
  { sl with next := update sl.next n (update (sl.next n) p q) }

/-- `skiplist_init`, on memory that may hold the elements of an earlier list. -/
def skiplistInit (sl : Sl) (datasize : Nat) : Sl :=
  { sl with
    nel := 0
    slevel := 0
    datasize := datasize
    key := update sl.key .nil skiplistEnd
    next := fun n p => if p = .root then .nil else if p = .nil ∧ n = 0 then .nil else sl.next n p
    freelist := .null }

def Sl.blank : Sl :=
  { nel := 0, slevel := 0, datasize := 0, key := fun _ => 0, next := fun _ _ => .null,
    freelist := .null, fresh := 0 }

/-! ## Preallocation -/

/-- `coin i` is the bit of the `i`-th random number, `left` the levels still allowed. -/
def drawHeight (coin : Nat → Bool) : Nat → Nat → Nat → Nat × Nat
  | 0, pos, n => (n, pos)
  | left + 1, pos, n => if coin pos then drawHeight coin left (pos + 1) (n + 1) else (n, pos + 1)

/-- The loop of `skiplist_prealloc`; `els` are the elements so far, the newest first. -/
def carve (coin : Nat → Bool) : Nat → Sl → Nat → Nat → List Nat → Option (Sl × List Nat)
  | 0, _, _, _, _ => none
  | fuel + 1, sl, size, pos, els =>
    let (n, pos) := drawHeight coin (maxHeight - 1) pos 0
    let s := sl.datasize + sizeofSkiplist + n * sizeofLevel
    if s > size then some (sl, els)
    else
      let p := sl.fresh
      let head := (els.head?.map Node.el).getD .null
      let sl := { sl.setNext 0 (.el p) head with
        key := update sl.key (.el p) n
        fresh := p + 1 }
      carve coin fuel sl (size - s) pos (p :: els)

/-- The second result lists the elements in the order of the callbacks. -/
def skiplistPrealloc (sl : Sl) (size : Nat) (coin : Nat → Bool) : Option (Sl × List Nat) := do
  let (sl, els) ← carve coin (size + 1) sl size 0 []
  match els.getLast?, els.head? with
  | some last, some head =>
    let sl := sl.setNext 0 (.el last) sl.freelist
    some ({ sl with freelist := .el head }, els)
  | _, _ => some (sl, els)

/-! ## Search, insertion and deletion -/

def seek (sl : Sl) (n : Nat) (key : Int) (p : Node) : Option Node :=
  scan (sl.next n) (fun q => !decide (sl.key (sl.next n q) < key)) (sl.fresh + 1) p

def searchLevel (nel : Nat) : Nat := min (Nat.log 2 nel - 3) (maxHeight - 1)

/-- From level `slev` down, with `slev + 1` as first argument. -/
def insertLoop (key : Int) (p : Node) (n : Nat) : Nat → Sl → Node → Option Sl
  | 0, sl, _ => some sl
  | slev + 1, sl, pleft => do
    let pleft ← seek sl slev key pleft
    let sl :=
      if slev ≤ n then (sl.setNext slev p (sl.next slev pleft)).setNext slev pleft p else sl
    insertLoop key p n slev sl pleft

/-- `skiplist_insert`; the returned element is `null` when the freelist is empty. -/
def skiplistInsert (sl : Sl) (key : Int) : Option (Sl × Node) :=
  let p := sl.freelist
  if p = .null then some (sl, .null)
  else do
    let n := (sl.key p).toNat
    let slev := searchLevel (sl.nel + 1)
    let sl := { sl with
      freelist := sl.next 0 p
      key := update sl.key p key
      nel := sl.nel + 1
      slevel := slev }
    let sl ← insertLoop key p n (max slev n + 1) sl .root
    some (sl, p)

-- if( level < 0 ) { delptr = p->level[n]; level = n; }
def firstMet (delptr : Node) (level : Option Nat) (q : Node) (n : Nat) : Node × Nat :=
  match level with
  | none => (q, n)
  | some l => (delptr, l)

/-- From level `n` down, with `n + 1` as first argument. -/
def deleteLoop (key : Int) : Nat → Sl → Node → Node → Option Nat → Option (Sl × Node × Option Nat)
  | 0, sl, _, delptr, level => some (sl, delptr, level)
  | n + 1, sl, p, delptr, level => do
    let p ← seek sl n key p
    if sl.key (sl.next n p) ≠ key then deleteLoop key n sl p delptr level
    else
      let (delptr, level) := firstMet delptr level (sl.next n p) n
      deleteLoop key n (sl.setNext n p (sl.next n delptr)) p delptr (some level)

/-- `skiplist_delete`; the returned element is `null` when the key is not there. -/
def skiplistDelete (sl : Sl) (key : Int) : Option (Sl × Node) := do
  let (sl, p, level) ← deleteLoop key maxHeight sl .root .null none
  match level with
  | none => some (sl, .null)
  | some level =>
    let sl := { sl with key := update sl.key p (level : Int) }
    let sl := sl.setNext 0 p sl.freelist
    some ({ sl with freelist := p, nel := sl.nel - 1 }, p)

def lookupLoop (sl : Sl) (key : Int) : Nat → Node → Option Node
  | 0, _ => some .null
  | n + 1, p => do
    let p ← seek sl n key p
    if sl.key (sl.next n p) > key then lookupLoop sl key n p else some (sl.next n p)

def skiplistLookup (sl : Sl) (key : Int) : Option Node := lookupLoop sl key (sl.slevel + 1) .root

/-! ## Iteration -/

def skiplistIterate (sl : Sl) : Node := sl.next 0 .root

/-- `skiplist_getnext`: the returned flag, the element, and the advanced iterator. -/
def skiplistGetnext (sl : Sl) (iter : Node) : Bool × Node × Node :=
  (iter ≠ .nil, iter, sl.next 0 iter)

def iterLoop (sl : Sl) : Nat → Node → Option (List Node)
  | 0, _ => none
  | fuel + 1, iter =>
    match skiplistGetnext sl iter with
    | (true, e, iter) => (iterLoop sl fuel iter).map (e :: ·)
    | (false, _, _) => some []

def skiplistElements (sl : Sl) : Option (List Node) :=
  iterLoop sl (sl.fresh + 1) (skiplistIterate sl)

def skiplistNeedalloc (sl : Sl) : Bool := sl.freelist = .null

end MacOnLinux.Skiplist
