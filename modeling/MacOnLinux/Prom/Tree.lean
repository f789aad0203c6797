import MacOnLinux.Prom.Text

/-! # The device tree (`main/promif.c`)

A node is named by its address, and 0 is NULL; memory of the obstack is never used twice.
-/

namespace MacOnLinux.Prom

open Function

open Linked (scan)

/-- `oftree`, with the fields of all nodes; `next` is `allnext` of a node. -/
structure OfTree where
  root : Nat
  allnext : Nat
  nextPhandle : Word
  top : Nat
  parent : Nat → Nat
  child : Nat → Nat
  sibling : Nat → Nat
  next : Nat → Nat
  node : Nat → Word
  unitString : Nat → Option Str
  properties : Nat → List Property

def init : OfTree where
  root := 0
  allnext := 0
  nextPhandle := 1
  top := 1
  parent := fun _ => 0
  child := fun _ => 0
  sibling := fun _ => 0
  next := fun _ => 0
  node := fun _ => 0
  unitString := fun _ => none
  properties := fun _ => []

/-! ## Import -/

def OfTree.alloc (o : OfTree) (parent : Nat) (d : Desc) : OfTree :=
  { o with
    top := o.top + 1
    nextPhandle := if d.phandle = 0 then o.nextPhandle + 1 else o.nextPhandle
    parent := update o.parent o.top parent
    child := update o.child o.top 0
    sibling := update o.sibling o.top 0
    next := update o.next o.top 0
    node := update o.node o.top (if d.phandle = 0 then o.nextPhandle else d.phandle)
    unitString := update o.unitString o.top d.unitString
    properties := update o.properties o.top d.properties }

/-- The children are read; then the node is put on the list of all nodes. -/
def OfTree.close (o : OfTree) (dn child : Nat) : OfTree :=
  { o with child := update o.child dn child, next := update o.next dn o.allnext, allnext := dn }

def readNode (parent : Nat) : Forest Desc → OfTree → Nat × OfTree
  | .nil, o => (0, o)
  | .node d child sibling, o =>
    let dn := o.top
    let (c, o) := readNode dn child (o.alloc parent d)
    let (s, o) := readNode parent sibling (o.close dn c)
    (dn, { o with sibling := update o.sibling dn s })

def importNode (text : Option Str) (par : Nat) (o : OfTree) : Nat × OfTree :=
  match text with
  | none => (0, o)
  | some text =>
    let (node, o) := readNode 0 (readForest text) o
    if par ≠ 0 ∧ node ≠ 0 then
      let last := (scan o.sibling (fun n => decide (o.sibling n = 0)) o.top node).getD 0
      (node, { o with
        sibling := update o.sibling last (o.child par)
        child := update o.child par node
        parent := update o.parent node par })
    else (node, o)

def importOftree (text : Option Str) (o : OfTree) : OfTree :=
  let (node, o) := importNode text 0 { o with allnext := 0 }
  { o with root := node }

def promImportNode (par : Nat) (text : Option Str) (o : OfTree) : OfTree :=
  if par = 0 then o else (importNode text par o).2

/-! ## Lookup -/

def nodeName (o : OfTree) (dn : Nat) : Str :=
  match (o.properties dn).find? fun p => p.name = "name".toList with
  | none => []
  | some p => if p.value.getLast? = some 0 then (p.value.takeWhile (· ≠ 0)).map toChar else []

def strcaseEq (a b : Str) : Bool := a.map Char.toLower = b.map Char.toLower

def strtoul16 (s : Str) : Word := ((scanNumber 16 s).map (·.1)).getD 0

/-- A child of `dn` for one part of a path: by its name, or else by its unit string. -/
def findChild (o : OfTree) (dn : Nat) (s : Str) : Nat :=
  let name := (scan o.sibling (fun n => n == 0 || strcaseEq (nodeName o n) s) o.top (o.child dn)).getD 0
  if name ≠ 0 then name
  else
    let s2 := s.takeWhile (· ≠ '@')
    let unit := (s.dropWhile (· ≠ '@')).drop 1
    (scan o.sibling (fun n => n == 0 || match o.unitString n with
      | none => false
      | some u => (s2 = [] || strcaseEq (nodeName o n) s2) &&
        (u.head? = some '*' || strtoul16 unit = strtoul16 u)) o.top (o.child dn)).getD 0

/-- One turn of `prom_find_dev_by_path`; `:flags` is stripped. -/
def walk (o : OfTree) (dn : Nat) (s : Str) : Nat :=
  if dn = 0 ∨ s = [] then dn else findChild o dn (s.takeWhile (· ≠ ':'))

def findDevByPath (o : OfTree) (path : Str) : Nat := (path.splitOn '/').foldl (walk o) o.root

def phandleToDn (o : OfTree) (ph : Word) : Nat :=
  (scan o.next (fun n => n == 0 || decide (o.node n = ph)) o.top o.allnext).getD 0

/-! ## Node creation -/

def addNode (par : Nat) (name : Str) (o : OfTree) : Nat × OfTree :=
  let dn := o.top
  let unit := if '@' ∈ name then some ((name.dropWhile (· ≠ '@')).drop 1) else none
  let name := name.takeWhile (· ≠ '@')
  (dn, { o with
    top := o.top + 1
    nextPhandle := o.nextPhandle + 1
    node := update o.node dn o.nextPhandle
    parent := update o.parent dn par
    sibling := update o.sibling dn (o.child par)
    child := update (update o.child dn 0) par dn
    next := update (update o.next dn (o.next par)) par dn
    unitString := update o.unitString dn unit
    properties := update o.properties dn [⟨"name".toList, name.map toByte ++ [0]⟩] })

/-- A path without its last part, and that part; slashes at the end are dropped. -/
def cutLast (path : Str) : Option (Str × Str) :=
  let rev := path.reverse.dropWhile (· = '/')
  match rev.dropWhile (· ≠ '/') with
  | [] => none
  | _ :: dir => some (dir.reverse, (rev.takeWhile (· ≠ '/')).reverse)

def addNamed (par : Nat) (name : Option Str) (o : OfTree) : Nat × OfTree :=
  if par = 0 then (0, o)
  else match name with
    | none => (par, o)
    | some name => addNode par name o

def createNode : Nat → Str → Option Str → OfTree → Nat × OfTree
  | 0, _, _, o => (0, o)
  | fuel + 1, path, name, o =>
    if findDevByPath o path ≠ 0 then addNamed (findDevByPath o path) name o
    else match cutLast path with
      | none => (0, o)
      | some (dir, last) =>
        let (par, o) := createNode fuel dir (some last) o
        addNamed par name o

def promCreateNode (path : Str) (o : OfTree) : Nat × OfTree := createNode (path.length + 1) path none o

/-! ## Deletion -/

/-- A list with its head in a field of its own, as cells; cell 0 is the head. -/
def link (head : Nat) (f : Nat → Nat) : Nat → Nat := update f 0 head

/-- The search and removal in a list linked by `f`; `none` is a failed assertion. -/
def unlink (head : Nat) (f : Nat → Nat) (dn fuel : Nat) : Option (Nat × (Nat → Nat)) :=
  let lk := link head f
  match scan lk (fun c => !(lk c != 0 && lk c != dn)) fuel 0 with
  | none => none
  | some c =>
    if lk c = 0 then none
    else if c = 0 then some (f (lk c), f)
    else some (head, update f c (f (lk c)))

def unlinkSibling (dn : Nat) (o : OfTree) : Option OfTree :=
  (unlink (o.child (o.parent dn)) o.sibling dn o.top).map fun (head, f) =>
    { o with child := update o.child (o.parent dn) head, sibling := f }

def unlinkAll (dn : Nat) (o : OfTree) : Option OfTree :=
  (unlink o.allnext o.next dn o.top).map fun (head, f) => { o with allnext := head, next := f }

def deleteChildren (delete : Nat → OfTree → Option OfTree) (dn : Nat) : Nat → OfTree → Option OfTree
  | 0, _ => none
  | fuel + 1, o =>
    if o.child dn = 0 then some o else (delete (o.child dn) o).bind (deleteChildren delete dn fuel)

def deleteNode : Nat → Nat → OfTree → Option OfTree
  | 0, _, _ => none
  | fuel + 1, dn, o =>
    if dn = 0 then some o
    else if o.parent dn = 0 then none
    else ((deleteChildren (deleteNode fuel) dn o.top o).bind (unlinkSibling dn)).bind (unlinkAll dn)

/-- `prom_delete_node`; `none` is a failed assertion or a loop that does not end. -/
def promDeleteNode (dn : Nat) (o : OfTree) : Option OfTree := deleteNode (o.top + 1) dn o

/-! ## Handles -/

def changePHandle (ph new : Word) (o : OfTree) : OfTree × Word :=
  let dn := phandleToDn o ph
  if dn = 0 then (o, -1)
  else if phandleToDn o new = 0 then ({ o with node := update o.node dn new }, 0)
  else if o.node dn ≠ new then (o, -1)
  else (o, 0)

end MacOnLinux.Prom
