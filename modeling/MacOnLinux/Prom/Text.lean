import MacOnLinux.Lib.File
import MacOnLinux.Mtable.Code

/-! # Reading the text of a device tree (`main/promif.c`)

Texts are lists of characters without the terminating zero; a pointer into a text is the rest of it.
-/

namespace MacOnLinux.Prom

abbrev Str := List Char

structure Property where
  name : Str
  value : List Byte
  deriving DecidableEq, Repr

def phandleBase : Word := 0x1000

/-! ## Characters -/

def isblank (c : Char) : Bool := c == ' ' || c == '\t'
def isspace (c : Char) : Bool := c == ' ' || (9 ≤ c.toNat && c.toNat ≤ 13)
def isgraph (c : Char) : Bool := 0x21 ≤ c.toNat && c.toNat ≤ 0x7e

def toByte (c : Char) : Byte := BitVec.ofNat 8 c.toNat
def toChar (b : Byte) : Char := Char.ofNat b.toNat

/-! ## Numbers -/

def digit (base : Nat) (c : Char) : Option Nat :=
  let v :=
    if '0' ≤ c ∧ c ≤ '9' then c.toNat - 48
    else if 'a' ≤ c ∧ c ≤ 'f' then c.toNat - 87
    else if 'A' ≤ c ∧ c ≤ 'F' then c.toNat - 55
    else 16
  if v < base then some v else none

def digitRun (base : Nat) : Nat → Str → Nat × Str
  | acc, [] => (acc, [])
  | acc, c :: s => match digit base c with
    | some v => digitRun base (acc * base + v) s
    | none => (acc, c :: s)

def skip0x : Str → Str
  | '0' :: x :: c :: s => if (x = 'x' ∨ x = 'X') ∧ (digit 16 c).isSome then c :: s else '0' :: x :: c :: s
  | s => s

/-- `strtoul` and `strtol` stop at the largest number. -/
def clamp (base : Nat) (neg : Bool) (v : Nat) : Word :=
  if base = 16 then
    if v < 2 ^ 32 then (if neg then -(BitVec.ofNat 32 v) else BitVec.ofNat 32 v) else 0xffffffff
  else if neg then
    if v ≤ 2 ^ 31 then -(BitVec.ofNat 32 v) else 0x80000000
  else if v < 2 ^ 31 then BitVec.ofNat 32 v else 0x7fffffff

def scanNumber (base : Nat) (s : Str) : Option (Word × Str) :=
  let s := s.dropWhile isspace
  let (neg, s) := match s with
    | '-' :: s => (true, s)
    | '+' :: s => (false, s)
    | s => (false, s)
  let s := if base = 16 then skip0x s else s
  match s with
  | [] => none
  | c :: _ =>
    if (digit base c).isSome then
      let (v, rest) := digitRun base 0 s
      some (clamp base neg v, rest)
    else none

/-- One turn of `hex_format`: `" 0x%x"` and, if that fails, `" %d"`. -/
def hexItem (s : Str) : Option (Word × Str) :=
  match s.dropWhile isspace with
  | '0' :: 'x' :: t => match scanNumber 16 t with
    | some r => some r
    | none => scanNumber 10 s
  | _ => scanNumber 10 s

/-! ## Formats -/

def wordBytes (v : Word) : List Byte :=
  [(v >>> 24).setWidth 8, (v >>> 16).setWidth 8, (v >>> 8).setWidth 8, v.setWidth 8]

def hexLoop (refcon : Nat) : Nat → Str → List Byte
  | 0, _ => []
  | fuel + 1, s => match hexItem s with
    | none => []
    | some (v, rest) => (if refcon = 1 then [v.setWidth 8] else wordBytes v) ++ hexLoop refcon fuel rest

def hexFormat (refcon : Nat) (s : Str) : List Byte :=
  let s := match s.dropWhile (· ≠ '(') with
    | [] => s
    | _ :: t => t
  hexLoop refcon (s.length + 1) s

def stringLoop : Bool → Str → List Byte
  | _, [] => []
  | on, c :: s =>
    if c = '"' then stringLoop (!on) s
    else if on then toByte c :: stringLoop on s
    else if c = ',' then 0 :: stringLoop on s
    else stringLoop on s

def stringFormat (s : Str) : List Byte := stringLoop false s ++ [0]

/-! ## Parentheses -/

/-- The rest of the text from the parenthesis that closes `count` open ones. -/
def balanceLoop : Nat → Str → Option Str
  | _, [] => none
  | count, c :: s =>
    if c = '(' then balanceLoop (count + 1) s
    else if c = ')' then
      if count = 1 then some (c :: s) else balanceLoop (count - 1) s
    else balanceLoop count s

def balance : Str → Option Str
  | [] => none
  | c :: s => if c = '(' then balanceLoop 1 s else none

def before (buf p : Str) : Str := buf.take (buf.length - p.length)

/-- Something other than blanks stands before `p` in its line. -/
def commented (buf p : Str) : Bool :=
  match (before buf p).reverse.dropWhile isblank with
  | [] => false
  | c :: _ => !(c = '\n' || c = '\r')

def findkeyLoop (buf key : Str) : Nat → Str → Option (Str × Str)
  | 0, _ => none
  | fuel + 1, p => match p.dropWhile (· ≠ '(') with
    | [] => none
    | c :: s =>
      let p2 := s.dropWhile isspace
      if commented buf (c :: s) then (balance (c :: s)).bind (findkeyLoop buf key fuel)
      else if key.isPrefixOf p2 then (balance (c :: s)).map fun fin => (p2.drop key.length, fin)
      else (balance (c :: s)).bind (findkeyLoop buf key fuel)

/-- `findkey`: the text after the key, and the text from the closing parenthesis on. -/
def findkey (buf key : Str) : Option (Str × Str) := findkeyLoop buf key (buf.length + 1) buf

/-! ## Nodes -/

def token (width : Nat) (s : Str) : Str × Str :=
  let t := s.dropWhile isspace
  let w := (t.takeWhile fun c => !isspace c).take width
  (w, t.drop w.length)

/-- The text from `start` on while there is a zero in the place of `fin`. -/
def upto (start fin : Str) : Str :=
  if fin.length ≤ start.length then start.take (start.length - fin.length) else start

def readValue (format start fin : Str) : List Byte :=
  let s := upto ((start.dropWhile (· ≠ '>')).drop 1) fin
  if format = "<byte>".toList then hexFormat 1 s
  else if format = "<word>".toList then hexFormat 4 s
  else if format = "<str>".toList then stringFormat s
  else []

def readProperties : Nat → Str → List Property
  | 0, _ => []
  | fuel + 1, buf => match findkey buf "property".toList with
    | none => []
    | some (start, fin) =>
      let (name, rest) := token 99 start
      let format := (token 39 rest).1
      ⟨name, readValue format start fin⟩ :: readProperties fuel fin

/-- What `build_node` reads; a `mol_phandle` that is not accepted is 0. -/
structure Desc where
  unitString : Option Str
  phandle : Word
  properties : List Property
  deriving DecidableEq, Repr

def readPhandle (buf : Str) : Word :=
  match findkey buf "mol_phandle".toList with
  | none => 0
  | some (start, _) => match scanNumber 16 start with
    | none => 0
    | some (v, _) => if v < phandleBase then 0 else v

def buildNode (buf : Str) : Desc where
  unitString := (findkey buf "unit_string".toList).map fun (start, _) => (token 99 start).1
  phandle := readPhandle buf
  properties := readProperties (buf.length + 1) buf

/-! ## Braces -/

/-- Nodes by their first child and their next sibling. -/
inductive Forest (β : Type) where
  | nil
  | node (desc : β) (child sibling : Forest β)
  deriving DecidableEq, Repr

def Forest.map {β γ : Type} (f : β → γ) : Forest β → Forest γ
  | .nil => .nil
  | .node d c s => .node (f d) (c.map f) (s.map f)

def notBrace (c : Char) : Bool := c ≠ '{' ∧ c ≠ '}'

/-- The texts for `build_node`, and where the next level up goes on. -/
def readText : Nat → Str → Forest Str × Str
  | 0, buf => (.nil, buf)
  | fuel + 1, buf =>
    if '{' ∉ buf ∨ '}' ∉ buf then (.nil, buf)
    else match buf.dropWhile notBrace with
      | [] => (.nil, buf)
      | c :: rest =>
        if c = '}' then (.nil, rest)
        else
          let body := rest.takeWhile notBrace
          match rest.dropWhile notBrace with
          | [] => (.nil, buf)
          | c' :: rest' =>
            if c' = '}' then
              let (sibling, out) := readText fuel rest'
              (.node body .nil sibling, out)
            else
              let (child, next) := readText fuel (c' :: rest')
              let (sibling, out) := readText fuel next
              (.node body child sibling, out)

def readForest (text : Str) : Forest Desc := (readText (text.length + 1) text).1.map buildNode

end MacOnLinux.Prom
