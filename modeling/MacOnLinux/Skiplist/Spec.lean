import MacOnLinux.Skiplist.Code

/-! # What the skiplist means -/

namespace MacOnLinux.Skiplist

open Linked

/-- `live` by increasing key, `free` with the next element to be used first. -/
structure SlMap where
  live : List (Int × Nat)
  free : List Nat
  ht : Nat → Nat

namespace SlMap

def below (m : SlMap) (key : Int) : List (Int × Nat) := m.live.takeWhile (·.1 < key)

def above (m : SlMap) (key : Int) : List (Int × Nat) := m.live.dropWhile (·.1 < key)

def lookup (m : SlMap) (key : Int) : Option Nat := (m.live.find? (·.1 = key)).map (·.2)

def insert (m : SlMap) (key : Int) : SlMap :=
  match m.free with
  | [] => m
  | e :: fs => { m with live := m.below key ++ (key, e) :: m.above key, free := fs }

def delete (m : SlMap) (key : Int) : SlMap :=
  match m.lookup key with
  | none => m
  | some e => { m with live := m.live.filter (·.1 ≠ key), free := e :: m.free }

end SlMap

def levelNodes (ht : Nat → Nat) (live : List (Int × Nat)) (l : Nat) : List Node :=
  (live.filter (l ≤ ht ·.2)).map (Node.el ·.2)

/-- `sl` is a well formed skiplist for the map `m`. -/
structure Rep (m : SlMap) (sl : Sl) : Prop where
  levels : ∀ l < maxHeight, Chain (sl.next l) .root (levelNodes m.ht m.live l) .nil
  sorted : m.live.Pairwise (·.1 < ·.1)
  keys : ∀ x ∈ m.live, sl.key (.el x.2) = x.1 ∧ x.1 < skiplistEnd
  nilKey : sl.key .nil = skiplistEnd
  free : Seg (sl.next 0) sl.freelist (m.free.map .el) .null
  freeKeys : ∀ e ∈ m.free, sl.key (.el e) = m.ht e
  height : ∀ e, m.ht e < maxHeight
  nodup : (m.live.map (·.2) ++ m.free).Nodup
  owned : ∀ e ∈ m.live.map (·.2) ++ m.free, e < sl.fresh
  slevel : sl.slevel < maxHeight

/-! ## Histories -/

inductive Op where
  | prealloc (size : Nat) (coin : Nat → Bool)
  | insert (key : Int)
  | delete (key : Int)
  | lookup (key : Int)

def exec (sl : Sl) : Op → Option (Sl × Node)
  | .prealloc size coin => (skiplistPrealloc sl size coin).map fun r => (r.1, .null)
  | .insert key => skiplistInsert sl key
  | .delete key => skiplistDelete sl key
  | .lookup key => (skiplistLookup sl key).map fun e => (sl, e)

/-- The element inserted last under `key` and not deleted since, newest call first. -/
def holder : List (Op × Node) → Int → Node
  | [], _ => .null
  | (.insert k, e) :: t, key => if k = key ∧ e ≠ .null then e else holder t key
  | (.delete k, _) :: t, key => if k = key then .null else holder t key
  | (.prealloc _ _, _) :: t, key => holder t key
  | (.lookup _, _) :: t, key => holder t key

/-- Keys are below `INT_MAX`, and only absent keys are inserted. -/
def Legal (t : List (Op × Node)) : Op → Prop
  | .prealloc _ _ => True
  | .insert key => key < skiplistEnd ∧ holder t key = .null
  | .delete key => key < skiplistEnd
  | .lookup key => key < skiplistEnd

/-- The height that `skiplist_prealloc` left in the key field of a new element. -/
def recordHeights (ht : Nat → Nat) (sl sl' : Sl) (i : Nat) : Nat :=
  if i < sl.fresh then ht i else if i < sl'.fresh then (sl'.key (.el i)).toNat else 0

inductive Run (datasize : Nat) : Sl → List (Op × Node) → (Nat → Nat) → Prop where
  | init : Run datasize (skiplistInit .blank datasize) [] (fun _ => 0)
  | step {sl sl' : Sl} {t : List (Op × Node)} {ht : Nat → Nat} {op : Op} {out : Node} :
      Run datasize sl t ht → Legal t op → exec sl op = some (sl', out) →
      Run datasize sl' ((op, out) :: t) (recordHeights ht sl sl')

end MacOnLinux.Skiplist
