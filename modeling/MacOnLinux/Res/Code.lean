import Mathlib.Logic.Function.Basic

/-! # The configuration files (`main/res_manager.c`)

Text is a list of characters without the NUL at its end. `expand` works on memory, where its buffer
is.
-/

namespace MacOnLinux.Res

open Function

abbrev Str := List Char

scoped instance : LawfulBEq Str := inferInstance

abbrev Mem := Nat → Char

def nul : Char := '\x00'

/-- A `res_t`, with the data of its `darg_t`s. -/
structure Resource where
  key : Str
  args : List Str
  deriving DecidableEq, Repr

/-- The list from `head.first_res` on. -/
abbrev Table := List Resource

/-- `get_str_res_ind( key, 0, i )` for i = 0, 1, ... -/
def argsOf (t : Table) (key : Str) : List Str := ((t.find? (·.key = key)).map (·.args)).getD []

/-! ## Strings in memory (`lib/extralib.c`) -/

def strncpy0 (mem : Mem) (dest : Nat) (src : Str) : Nat → Mem
  | 0 => mem
  | 1 => update mem dest nul
  | n + 2 =>
    match src with
    | [] => update mem dest nul
    | c :: cs => strncpy0 (update mem dest c) (dest + 1) cs (n + 1)

def strncat0 (mem : Mem) (dest : Nat) (src : Str) : Nat → Mem
  | 0 => mem
  | n + 1 => if n = 0 ∨ mem dest = nul then strncpy0 mem dest src (n + 1) else strncat0 mem (dest + 1) src n

def strncat3 (mem : Mem) (dest : Nat) (s1 s2 : Str) (n : Nat) : Mem :=
  strncat0 (strncat0 mem dest s1 n) dest s2 n

def strlen (mem : Mem) (a : Nat) : Nat → Option Nat
  | 0 => none
  | n + 1 => if mem a = nul then some 0 else (strlen mem (a + 1) n).map (· + 1)

/-! ## Expansion -/

def findRef : Str → Option (Str × Str)
  | [] => none
  | '$' :: '{' :: cs => some ([], cs)
  | c :: cs => (findRef cs).map fun (pre, rest) => (c :: pre, rest)

/-- The next reference: the text before it, its key and the text after it. -/
def nextRef (src : Str) : Option (Str × Str × Str) :=
  (findRef src).bind fun (pre, cs) =>
    if '}' ∈ cs then some (pre, cs.takeWhile (· ≠ '}'), (cs.dropWhile (· ≠ '}')).drop 1) else none

/-- The loop over the arguments of a key; `expand` is for one more level. -/
def expandArgs (expand : Mem → Nat → Str → Nat → Option Mem) (dest size : Nat) : Bool → List Str → Mem → Option Mem
  | _, [], mem => some mem
  | first, e :: es, mem => do
    let mem := if first then mem else strncat0 mem dest [' '] size
    let len ← strlen mem dest size
    let mem ← expand mem (dest + len) e (size - len)
    expandArgs expand dest size false es mem

def expandRef (t : Table) (expand : Mem → Nat → Str → Nat → Option Mem) (dest size : Nat) (key : Str) (mem : Mem) :
    Option Mem :=
  if argsOf t key = [] then some (strncat3 (strncat0 mem dest ['$', '{'] size) dest key ['}'] size)
  else expandArgs expand dest size true (argsOf t key) mem

def expandLoop (t : Table) (expand : Mem → Nat → Str → Nat → Option Mem) (dest size : Nat) :
    Nat → Str → Mem → Option Mem
  | 0, _, _ => none
  | fuel + 1, src, mem =>
    match nextRef src with
    | none => some (strncat0 mem dest src size)
    | some (pre, key, rest) =>
      (expandRef t expand dest size key (strncat0 mem dest pre size)).bind (expandLoop t expand dest size fuel rest)

/-- `nesting` may grow by `left`; each turn of the loop makes the text shorter. -/
def expand (t : Table) : Nat → Mem → Nat → Str → Nat → Option Mem
  | 0, mem, dest, src, size => some (strncat0 (update mem dest nul) dest src size)
  | left + 1, mem, dest, src, size =>
    expandLoop t (expand t left) dest size (src.length + 1) src (update mem dest nul)

def maxNesting : Nat := 10

def stringAt (mem : Mem) (a : Nat) : Nat → Str
  | 0 => []
  | n + 1 => if mem a = nul then [] else mem a :: stringAt mem (a + 1) n

def expanded (t : Table) (size : Nat) (s : Str) : Str :=
  ((expand t maxNesting (fun _ => nul) 0 s size).map (stringAt · 0 size)).getD []

/-! ## Lines -/

/-- The loop that puts a NUL for quotes, and for blanks and comments outside of them. -/
def cutFields : Bool → Bool → Str → Str
  | _, _, [] => []
  | cflag1, cflag2, c :: cs =>
    let (cflag1, c) := if !cflag2 && c = '"' then (!cflag1, nul) else (cflag1, c)
    let (cflag2, c) := if !cflag1 && c = '\'' then (!cflag2, nul) else (cflag2, c)
    if cflag1 || cflag2 then c :: cutFields cflag1 cflag2 cs
    else if c = '#' then List.replicate (cs.length + 1) nul
    else (if c ∈ ['\t', '\n', '\r', ',', ' '] then nul else c) :: cutFields cflag1 cflag2 cs

def fields (line : Str) : List Str := ((cutFields false false line).splitOn nul).filter (· ≠ [])

structure Parser where
  inIf : Int
  dummyIf : Int
  skipping : Int
  deriving DecidableEq, Repr

def idle : Parser := ⟨0, 0, 0⟩

inductive Stop where
  | fatal
  | exit
  deriving DecidableEq, Repr

inductive Keyword where
  | include
  | echo
  | fail
  | ifeq
  | ifempty
  | ifdef
  | endif
  deriving DecidableEq, Repr

/-- The table of keywords; the flag is `skip_interp`. -/
def keywords : List (Bool × Str × Keyword) :=
  [(false, "include".toList, .include), (false, "echo".toList, .echo), (false, "fail".toList, .fail),
    (true, "ifeq".toList, .ifeq), (true, "ifempty".toList, .ifempty), (true, "ifndef".toList, .ifempty),
    (true, "ifdef".toList, .ifdef), (true, ['}'], .endif)]

def findKeyword (skipping : Int) (field : Str) : Option Keyword :=
  (keywords.find? fun k => (skipping = 0 || k.1) && field = k.2.1).map (·.2.2)

/-! ## Keywords -/

def keywDoIf (st : Parser) (flag : Bool) : Parser :=
  if st.skipping ≠ 0 then { st with dummyIf := st.dummyIf + 1, skipping := st.skipping + 1 }
  else { st with inIf := st.inIf + 1, skipping := if flag then 0 else 1 }

def ifeqFlag (t : Table) : List Str → Bool
  | [] => false
  | s1 :: ss => ss.any fun s2 => expanded t 256 s1 = expanded t 256 s2

/-- `s && s[0] && s[0] != '$'` of the first argument. -/
def isDefined (t : Table) (args : List Str) : Bool :=
  match args.head?.bind fun s => (expanded t 256 s).head? with
  | none => false
  | some c => c ≠ '$'

def hasElse (t : Table) (args : List Str) : Bool := args.any fun s => "else".toList.isPrefixOf (expanded t 256 s)

def keywEndif (t : Table) (args : List Str) (st : Parser) : Parser :=
  if hasElse t args then
    if st.dummyIf = 0 then { st with skipping := if st.skipping = 0 then 1 else 0 } else st
  else if st.dummyIf ≠ 0 then { st with dummyIf := st.dummyIf - 1, skipping := st.skipping - 1 }
  else { st with inIf := st.inIf - 1, skipping := 0 }

/-- `parse_res_file` for `keyw_include`, if files are not nested too deep. -/
abbrev Include := Option (Str → Table → Except Stop Table)

def keywInclude (parse : Include) (args : List Str) (t : Table) : Except Stop Table :=
  match parse, args with
  | none, _ => .error .fatal
  | some _, [] => .ok t
  | some parse, s :: _ => parse (expanded t 128 s) t

def Keyword.act (parse : Include) (args : List Str) (st : Parser) (t : Table) :
    Keyword → Except Stop (Parser × Table)
  | .include => (keywInclude parse args t).map (st, ·)
  | .echo => .ok (st, t)
  | .fail => .error .exit
  | .ifeq => .ok (keywDoIf st (ifeqFlag t args), t)
  | .ifempty => .ok (keywDoIf st !(isDefined t args), t)
  | .ifdef => .ok (keywDoIf st (isDefined t args), t)
  | .endif => .ok (keywEndif t args st, t)

/-! ## Resources -/

def multiRes : List Str :=
  ["netdev", "blkdev", "symfile", "pseudofile", "pseudofile_", "@pseudofile", "remap_key", "remap_xkey",
    "remap_vnckey", "macos_rompath", "macos_rompath_", "allow", "deny", "drivers", "scsi_dev",
    "pci_proxy_device"].map String.toList

def addLine (field : Str) (args : List Str) (t : Table) : Except Stop Table :=
  if field.getLast? ≠ some ':' ∨ field.length = 1 then .error .fatal
  else
    let key := expanded t 256 field.dropLast
    if t.any (·.key = key) ∧ key ∉ multiRes then .ok t
    else .ok (t ++ [⟨key, args.map (expanded t 256)⟩])

def doAddRes (parse : Include) (line : Str) (st : Parser) (t : Table) : Except Stop (Parser × Table) :=
  match fields line with
  | [] => .ok (st, t)
  | field :: args =>
    match findKeyword st.skipping field with
    | some k => k.act parse args st t
    | none => if st.skipping ≠ 0 then .ok (st, t) else (addLine field args t).map (st, ·)

/-! ## Files -/

def getLine : Nat → Str → Str × Str
  | 0, cs => ([], cs)
  | _ + 1, [] => ([], [])
  | n + 1, c :: cs => if c = '\n' then ([c], cs) else ((getLine n cs).map (c :: ·) id)

/-- The string at the start of the buffer, and the rest of the file. -/
def fgets (size : Nat) (file : Str) : Option (Str × Str) :=
  if file = [] then none else some ((getLine (size - 1) file).map (·.takeWhile (· ≠ nul)) id)

def bufSize : Nat := 4096

/-- The inner loop, which joins lines at a backslash; each turn reads some of the file. -/
def joinLines : Nat → Str → Str → Str × Str
  | 0, buf, file => (buf, file)
  | fuel + 1, buf, file =>
    let n := buf.length
    if bufSize - 1 ≤ n ∨ n < 2 ∨ buf[n - 2]? ≠ some '\\' then (buf, file)
    else
      let buf := buf.set (n - 2) ' '
      match fgets (bufSize - n + 1) file with
      | none => (buf, file)
      | some (more, file) => joinLines fuel (buf.dropLast ++ more) file

def linesLoop : Nat → Str → List Str
  | 0, _ => []
  | fuel + 1, file =>
    match fgets bufSize file with
    | none | some ([], _) => []
    | some (buf, file) =>
      let (line, file) := joinLines file.length buf file
      line :: linesLoop fuel file

/-- What `do_add_res` is called with. -/
def fileLines (file : Str) : List Str := linesLoop (file.length + 1) file

def parseLines (parse : Include) : List Str → Parser → Table → Except Stop (Parser × Table)
  | [], st, t => .ok (st, t)
  | line :: lines, st, t => (doAddRes parse line st t).bind fun (st, t) => parseLines parse lines st t

def parseResFile_ (parse : Include) (file : Str) (t : Table) : Except Stop Table :=
  (parseLines parse (fileLines file) idle t).bind fun (st, t) =>
    if st.inIf ≠ 0 ∨ st.dummyIf ≠ 0 then .error .fatal else .ok t

/-- `parse_res_file`, when files may be included `left` deep (7 at first). -/
def parseResFile (files : Str → Option Str) (left : Nat) (fname : Str) (t : Table) : Except Stop Table :=
  match files fname, left with
  | none, _ => .error .fatal
  | some file, 0 => parseResFile_ none file t
  | some file, left + 1 => parseResFile_ (some (parseResFile files left)) file t

end MacOnLinux.Res
