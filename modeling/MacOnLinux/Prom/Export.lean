import MacOnLinux.Prom.Tree

/-! # Writing the text of a device tree (`main/promif.c`) -/

namespace MacOnLinux.Prom

structure Node where
  unitString : Option Str
  node : Word
  properties : List Property
  deriving DecidableEq, Repr

def dropProperties : List Str :=
  ["nvramrc".toList, "driver-ist".toList, "driver-pointer".toList, "driver-ref".toList, "driver-descriptor".toList,
    "driver-ptr".toList, "did".toList, "driver,AAPL,MacOS,PowerPC".toList]

def dropNodes : List Str := []

def indentValue : Nat := 4

def nameOf (properties : List Property) : Str :=
  match properties.find? fun p => p.name = "name".toList with
  | none => []
  | some p => if p.value.getLast? = some 0 then (p.value.takeWhile (· ≠ 0)).map toChar else []

/-- `path` is the name of the parent and `depth` the number of nodes above. -/
def fullName (path : Str) (depth : Nat) (d : Node) : Str :=
  path ++ ((if depth = 1 then [] else ['/']) ++ ((if depth = 0 then [] else nameOf d.properties) ++
    (match d.unitString with
      | none => []
      | some unit => '@' :: unit)))

/-! ## printf -/

def indprint (ind : Nat) (s : Str) : Str := List.replicate ind ' ' ++ s

def hexDigit (v : Nat) : Char := if v < 10 then Char.ofNat (48 + v) else Char.ofNat (87 + v)

def hexPad : Nat → Nat → Str
  | 0, _ => []
  | n + 1, v => hexPad n (v / 16) ++ [hexDigit (v % 16)]

def padRight (n : Nat) (s : Str) : Str := s ++ List.replicate (n - s.length) ' '

/-! ## Values -/

def likelyLoop : Option Byte → List Byte → Bool
  | _, [] => true
  | prev, ch :: rest =>
    if ch = 0 ∧ prev = some 0 ∧ rest ≠ [] then false
    else if ch ≠ 0 ∧ !isgraph (toChar ch) ∧ !isspace (toChar ch) then false
    else likelyLoop (some ch) rest

def likelyString (value : List Byte) : Bool := likelyLoop none value && value.getLast? == some 0

def cstrings : List Byte → List (List Byte)
  | [] => []
  | b :: bs =>
    if b = 0 then [] :: cstrings bs
    else match cstrings bs with
      | [] => [[b]]
      | s :: ss => (b :: s) :: ss

def strText (len ind : Nat) : Bool → List (List Byte) → Str
  | _, [] => []
  | first, s :: ss =>
    (if first then [] else ", ".toList) ++ ((if 50 < len then '\n' :: indprint ind [] else []) ++
      ('"' :: s.map toChar ++ '"' :: strText len ind false ss))

def words : List Byte → List Word
  | a :: b :: c :: d :: rest => (a ++ b ++ c ++ d : BitVec 32) :: words rest
  | _ => []

/-- `newline` tells before which numbers there is a line break. -/
def hexText (n ind : Nat) (newline : Nat → Bool) : Nat → List Nat → Str
  | _, [] => []
  | i, v :: vs =>
    (if newline i then '\n' :: indprint ind [] else []) ++
      ("0x".toList ++ (hexPad n v ++ ' ' :: hexText n ind newline (i + 1) vs))

def wordsPerLine (len : Nat) : Nat :=
  if len % (4 * 5) = 0 then 5
  else if len % (4 * 6) = 0 then 6
  else if len % (4 * 4) ≠ 0 then 2
  else 4

def valueText (ind : Nat) (value : List Byte) : Str :=
  if value = [] then []
  else if likelyString value then
    "<str>  \t".toList ++ (strText value.length (ind + indentValue) true (cstrings value) ++ [' '])
  else if value.length % 4 = 0 then
    let nw := wordsPerLine value.length
    "<word> \t".toList ++ (hexText 8 (ind + indentValue) (fun i => 8 < value.length && i % nw = 0) 0
      ((words value).map BitVec.toNat) ++ [' '])
  else
    "<byte> \t".toList ++ (hexText 2 (ind + indentValue) (fun i => i % 12 = 0 && 8 < value.length) 0
      (value.map BitVec.toNat) ++ [' '])

/-! ## Nodes -/

def propertyText (ind : Nat) (p : Property) : Str :=
  indprint ind ("(property ".toList ++ (padRight 18 p.name ++ (' ' :: valueText ind p.value ++ ")\n".toList)))

def unitText (ind : Nat) (unitString : Option Str) : Str :=
  match unitString with
  | none => []
  | some unit => if unit = [] then [] else indprint ind ("(unit_string ".toList ++ (unit ++ " )\n".toList))

def phandleText (ind : Nat) (node : Word) : Str :=
  if phandleBase < node then indprint ind ("(mol_phandle 0x".toList ++ (hexPad 8 node.toNat ++ " )\n".toList)) else []

def kept (properties : List Property) : List Property := properties.filter fun p => p.name ∉ dropProperties

def fieldsText (ind : Nat) (d : Node) : Str :=
  unitText ind d.unitString ++ (phandleText ind d.node ++ (kept d.properties).flatMap (propertyText ind))

def commentText (ind : Nat) (path : Str) (d : Node) : Str :=
  indprint ind "#\n".toList ++
    (indprint ind ("# **************** NODE ".toList ++ (nameOf d.properties ++ " ***************\n".toList)) ++
    (indprint ind ("# ".toList ++ (path.take 255 ++ ['\n'])) ++ indprint ind "#\n".toList))

def exportNode (path : Str) (depth ind : Nat) : Forest Node → Str
  | .nil => []
  | .node d child sibling =>
    if nameOf d.properties ∈ dropNodes then exportNode path depth ind sibling
    else
      commentText ind (fullName path depth d) d ++ (indprint ind "\x7b\n".toList ++
        (fieldsText (ind + indentValue) d ++ ((if child = .nil then []
            else indprint (ind + indentValue) ['\n'] ++ exportNode (fullName path depth d) (depth + 1)
              (ind + indentValue) child) ++
          (indprint ind "\x7d\n".toList ++ exportNode path depth ind sibling))))

end MacOnLinux.Prom
