import Mathlib.Data.List.TakeWhile
import MacOnLinux.Res.Code

/-! # Conditional blocks in configuration files -/

namespace MacOnLinux.Res

open List

variable {parse : Include} {st : Parser} {t : Table} {line : Str} {ls : List Str}

/-! ## Lines -/

inductive Kind where
  | ordinary
  | opens
  | alternative
  | closes
  deriving DecidableEq, Repr

def ifKeywords : List Str := ["ifeq", "ifempty", "ifndef", "ifdef"].map String.toList

def kind (t : Table) (line : Str) : Kind :=
  match fields line with
  | [] => .ordinary
  | field :: args =>
    if field ∈ ifKeywords then .opens
    else if field = ['}'] then if hasElse t args then .alternative else .closes
    else .ordinary

def condition (t : Table) (line : Str) : Bool :=
  match fields line with
  | [] => false
  | field :: args =>
    if field = "ifeq".toList then ifeqFlag t args
    else if field = "ifdef".toList then isDefined t args
    else !isDefined t args

theorem findKeyword_opens {field : Str} (skipping : Int) (h : field ∈ ifKeywords) :
    findKeyword skipping field = some (if field = "ifeq".toList then .ifeq
      else if field = "ifdef".toList then .ifdef else .ifempty) := by
  have hfind : ∀ field ∈ ifKeywords, ∀ b : Bool,
      (keywords.find? fun k => (b || k.1) && field = k.2.1).map (·.2.2) =
        some (if field = "ifeq".toList then .ifeq
          else if field = "ifdef".toList then .ifdef else .ifempty) := by decide
  exact hfind field h (decide (skipping = 0))

theorem doAddRes_opens (h : kind t line = .opens) :
    doAddRes parse line st t = .ok (keywDoIf st (condition t line), t) := by
  unfold kind at h
  unfold doAddRes condition
  cases hf : fields line with
  | nil => simp [hf] at h
  | cons field args =>
    have hif : field ∈ ifKeywords := by
      by_contra hif
      grind
    simp only [findKeyword_opens st.skipping hif]
    split
    · rfl
    · split <;> rfl

theorem doAddRes_brace (parse : Include) (st : Parser) (h : kind t line = .alternative ∨ kind t line = .closes) :
    ∃ args, hasElse t args = decide (kind t line = .alternative) ∧
      doAddRes parse line st t = .ok (keywEndif t args st, t) := by
  unfold kind at *
  unfold doAddRes
  cases hf : fields line with
  | nil => simp [hf] at h
  | cons field args =>
    simp only [hf] at h
    split at h
    · simp at h
    rename_i hif
    split at h
    · subst field
      refine ⟨args, by cases he : hasElse t args <;> simp [hif, he], ?_⟩
      have hk : findKeyword st.skipping ['}'] = some .endif := by
        cases hs : decide (st.skipping = 0) <;> simp [findKeyword, keywords, hs]
      simp only [hk]
      rfl
    · simp at h

theorem doAddRes_alternative (h : kind t line = .alternative) : doAddRes parse line st t =
    .ok (if st.dummyIf = 0 then { st with skipping := if st.skipping = 0 then 1 else 0 } else st, t) := by
  obtain ⟨args, hargs, heq⟩ := doAddRes_brace parse st (.inl h)
  rw [heq, keywEndif, hargs, h]
  rfl

theorem doAddRes_closes (h : kind t line = .closes) : doAddRes parse line st t =
    .ok (if st.dummyIf ≠ 0 then { st with dummyIf := st.dummyIf - 1, skipping := st.skipping - 1 }
      else { st with inIf := st.inIf - 1, skipping := 0 }, t) := by
  obtain ⟨args, hargs, heq⟩ := doAddRes_brace parse st (.inr h)
  rw [heq, keywEndif, hargs, h]
  rfl

/-- What an ordinary line is for. -/
def perform (parse : Include) (line : Str) (t : Table) : Except Stop Table :=
  match fields line with
  | [] => .ok t
  | field :: args =>
    if field = "include".toList then keywInclude parse args t
    else if field = "echo".toList then .ok t
    else if field = "fail".toList then .error .exit
    else addLine field args t

theorem findKeyword_ordinary {field : Str} (skipping : Int) (hif : field ∉ ifKeywords) (hbrace : field ≠ ['}']) :
    findKeyword skipping field =
      if skipping ≠ 0 then none
      else if field = "include".toList then some .include
      else if field = "echo".toList then some .echo
      else if field = "fail".toList then some .fail
      else none := by
  simp only [ifKeywords, map_cons, map_nil, mem_cons, not_mem_nil, or_false, not_or] at hif
  obtain ⟨hifeq, hifempty, hifndef, hifdef⟩ := hif
  simp only [findKeyword, keywords, find?_cons, hifeq, hifempty, hifndef, hifdef, hbrace]
  by_cases hskip : skipping = 0
  · rw [if_neg (not_not_intro hskip)]
    simp only [hskip, decide_true, Bool.true_or, Bool.true_and]
    by_cases hinclude : field = "include".toList
    · rw [hinclude]; rfl
    by_cases hecho : field = "echo".toList
    · rw [hecho]; rfl
    by_cases hfail : field = "fail".toList
    · rw [hfail]; rfl
    · simp only [hinclude, hecho, hfail, if_false, decide_false, find?_nil, Option.map_none]
  · rw [if_pos hskip]
    simp only [hskip, decide_false, Bool.or_false, Bool.false_and, Bool.and_false, find?_nil, Option.map_none]

theorem doAddRes_ordinary (h : kind t line = .ordinary) : doAddRes parse line st t =
    if st.skipping = 0 then (perform parse line t).map (st, ·) else .ok (st, t) := by
  unfold kind at h
  unfold perform doAddRes
  cases hf : fields line with
  | nil =>
    simp only
    split <;> rfl
  | cons field args =>
    simp only [hf] at h ⊢
    split at h
    · cases h
    rename_i hif
    split at h
    · split at h <;> cases h
    rename_i hbrace
    rw [findKeyword_ordinary st.skipping hif hbrace]
    by_cases hskip : st.skipping = 0
    · simp only [if_neg (not_not_intro hskip), if_pos hskip]
      split_ifs <;> rfl
    · simp only [hskip, ne_eq, not_false_eq_true, if_true, if_false]

/-! ## Scripts -/

/-- A line that is of the kind `k` with any definitions. -/
abbrev Line (k : Kind) := { s : Str // ∀ t, kind t s = k }

inductive Script where
  | nil
  | line (s : Line .ordinary) (rest : Script)
  | block (c : Line .opens) (body : Script) (e : Line .closes) (rest : Script)
  | branch (c : Line .opens) (body : Script) (a : Line .alternative) (other : Script) (e : Line .closes) (rest : Script)

def Script.lines : Script → List Str
  | .nil => []
  | .line s rest => s.1 :: rest.lines
  | .block c body e rest => c.1 :: (body.lines ++ e.1 :: rest.lines)
  | .branch c body a other e rest => c.1 :: (body.lines ++ a.1 :: (other.lines ++ e.1 :: rest.lines))

def Script.run (parse : Include) : Script → Table → Except Stop Table
  | .nil, t => .ok t
  | .line s rest, t => (perform parse s.1 t).bind (rest.run parse)
  | .block c body _ rest, t => (if condition t c.1 then body.run parse t else .ok t).bind (rest.run parse)
  | .branch c body _ other _ rest, t =>
    (if condition t c.1 then body.run parse t else other.run parse t).bind (rest.run parse)

theorem parseLines_cons {st' : Parser} {t' : Table} (h : doAddRes parse line st t = .ok (st', t')) :
    parseLines parse (line :: ls) st t = parseLines parse ls st' t' := by
  rw [parseLines, h]
  rfl

def Parser.deeper (st : Parser) : Parser := { st with dummyIf := st.dummyIf + 1, skipping := st.skipping + 1 }

theorem deeper_closes (e : Line .closes) (hd : 0 ≤ st.dummyIf) : doAddRes parse e.1 st.deeper t = .ok (st, t) := by
  rw [doAddRes_closes (e.2 t), if_pos (by simp only [Parser.deeper]; omega)]
  simp [Parser.deeper]

theorem parseLines_skipped (s : Script) (hs : 0 < st.skipping) (hd : 0 ≤ st.dummyIf) :
    parseLines parse (s.lines ++ ls) st t = parseLines parse ls st t := by
  have hopens {st : Parser} (c : Line .opens) (hs : 0 < st.skipping) :
      doAddRes parse c.1 st t = .ok (st.deeper, t) := by
    rw [doAddRes_opens (c.2 t), keywDoIf, if_pos (by omega)]
    rfl
  have hdeeper {st : Parser} (hs : 0 < st.skipping) (hd : 0 ≤ st.dummyIf) :
      0 < st.deeper.skipping ∧ 0 ≤ st.deeper.dummyIf := by
    simp only [Parser.deeper]
    omega
  induction s generalizing st ls with
  | nil => rfl
  | line s rest ih =>
    have hline : doAddRes parse s.1 st t = _ := doAddRes_ordinary (s.2 t)
    rw [if_neg (by omega)] at hline
    exact (parseLines_cons hline).trans (ih hs hd)
  | block c body e rest hbody hrest =>
    obtain ⟨hs', hd'⟩ := hdeeper hs hd
    rw [Script.lines, cons_append, parseLines_cons (hopens c hs), append_assoc, hbody hs' hd',
      cons_append, parseLines_cons (deeper_closes e hd), hrest hs hd]
  | branch c body a other e rest hbody hother hrest =>
    obtain ⟨hs', hd'⟩ := hdeeper hs hd
    -- the else line belongs to a block that was not looked at
    have ha : doAddRes parse a.1 st.deeper t = _ := doAddRes_alternative (a.2 t)
    rw [if_neg (by simp only [Parser.deeper]; omega)] at ha
    rw [Script.lines, cons_append, parseLines_cons (hopens c hs), append_assoc, hbody hs' hd',
      cons_append, parseLines_cons ha, append_assoc, hother hs' hd', cons_append,
      parseLines_cons (deeper_closes e hd), hrest hs hd]

def Parser.inside (st : Parser) (b : Bool) : Parser :=
  { st with inIf := st.inIf + 1, skipping := if b then 0 else 1 }

theorem inside_closes (e : Line .closes) (b : Bool) (hs : st.skipping = 0) (hd : st.dummyIf = 0) :
    doAddRes parse e.1 (st.inside b) t = .ok (st, t) := by
  rw [doAddRes_closes (e.2 t), if_neg (not_not_intro (show (st.inside b).dummyIf = 0 from hd))]
  simp [Parser.inside, ← hs]

theorem inside_alternative (a : Line .alternative) (b : Bool) (hd : st.dummyIf = 0) :
    doAddRes parse a.1 (st.inside b) t = .ok (st.inside !b, t) := by
  rw [doAddRes_alternative (a.2 t), if_pos (show (st.inside b).dummyIf = 0 from hd)]
  cases b <;> rfl

theorem parseLines_inside (s : Script) (b : Bool) (hd : st.dummyIf = 0)
    (hrun : parseLines parse (s.lines ++ ls) (st.inside true) t =
      (s.run parse t).bind fun t => parseLines parse ls (st.inside true) t) :
    parseLines parse (s.lines ++ ls) (st.inside b) t =
      (if b then s.run parse t else .ok t).bind fun t => parseLines parse ls (st.inside b) t := by
  cases b with
  | true => exact hrun
  | false => exact parseLines_skipped s (by simp [Parser.inside]) (Int.le_of_eq hd.symm)

theorem parseLines_run (s : Script) (hs : st.skipping = 0) (hd : st.dummyIf = 0) :
    parseLines parse (s.lines ++ ls) st t = (s.run parse t).bind fun t => parseLines parse ls st t := by
  have hopens {st : Parser} {t : Table} (c : Line .opens) (hs : st.skipping = 0) :
      doAddRes parse c.1 st t = .ok (st.inside (condition t c.1), t) := by
    rw [doAddRes_opens (c.2 t), keywDoIf, if_neg (not_not_intro hs)]
    rfl
  induction s generalizing st t ls with
  | nil => rfl
  | line s rest ih =>
    have hline : doAddRes parse s.1 st t = _ := doAddRes_ordinary (s.2 t)
    rw [if_pos hs] at hline
    rw [Script.lines, cons_append, parseLines, Script.run, hline]
    cases perform parse s.1 t with
    | error e => rfl
    | ok t' => exact ih hs hd
  | block c body e rest hbody hrest =>
    rw [Script.lines, cons_append, parseLines_cons (hopens c hs), append_assoc,
      parseLines_inside body _ hd (hbody rfl hd), Script.run]
    cases (if condition t c.1 then body.run parse t else .ok t) with
    | error e => rfl
    | ok t' => exact (parseLines_cons (inside_closes e _ hs hd)).trans (hrest hs hd)
  | branch c body a other e rest hbody hother hrest =>
    rw [Script.lines, cons_append, parseLines_cons (hopens c hs), append_assoc,
      parseLines_inside body _ hd (hbody rfl hd), Script.run]
    have hend (b : Bool) (t : Table) : parseLines parse (a.1 :: (other.lines ++ e.1 :: rest.lines) ++ ls)
      (st.inside b) t =
        ((if b then .ok t else other.run parse t).bind (rest.run parse)).bind fun t => parseLines parse ls st t := by
      rw [cons_append, parseLines_cons (inside_alternative a b hd), append_assoc,
        parseLines_inside other _ hd (hother rfl hd)]
      cases b with
      | true => exact (parseLines_cons (inside_closes e _ hs hd)).trans (hrest hs hd)
      | false =>
        cases other.run parse t with
        | error e => rfl
        | ok t' => exact (parseLines_cons (inside_closes e _ hs hd)).trans (hrest hs hd)
    cases condition t c.1 with
    | true =>
      cases body.run parse t with
      | error e => rfl
      | ok t' => exact hend true t'
    | false => exact hend false t

def defined : Script :=
  .line ⟨"x: 1\n".toList, fun _ => rfl⟩ <|
  .branch ⟨"ifdef  $\x7bx\x7d \x7b\n".toList, fun _ => rfl⟩ (.line ⟨"y: 2\n".toList, fun _ => rfl⟩ .nil)
    ⟨"\x7d else \x7b\n".toList, fun _ => rfl⟩ (.line ⟨"fail\n".toList, fun _ => rfl⟩ .nil)
    ⟨"\x7d\n".toList, fun _ => rfl⟩ .nil

def definedFile : Str := "x: 1\nifdef \\\n$\x7bx\x7d \x7b\ny: 2\n\x7d else \x7b\nfail\n\x7d\n".toList

theorem fields_comment (cs : Str) : fields ('#' :: cs) = [] := by
  have hsplit : ∀ n : Nat, (replicate n nul).splitOn nul = replicate (n + 1) [] := by
    intro n
    induction n with
    | zero => rfl
    | succ n ih =>
      rw [replicate_succ, splitOn, splitOnP_cons_eq_if_modifyHead, if_pos (by rfl)]
      exact congrArg ([] :: ·) ih
  have hcut : cutFields false false ('#' :: cs) = replicate (cs.length + 1) nul := rfl
  rw [fields, hcut, hsplit, filter_eq_nil_iff]
  simp

theorem getLine_append {cs : Str} (rest : Str) (h : '\n' ∉ cs) : getLine cs.length (cs ++ rest) = (cs, rest) := by
  induction cs with
  | nil => rfl
  | cons c cs ih =>
    obtain ⟨hc, hcs⟩ := not_or.mp (mem_cons.not.mp h)
    rw [cons_append, length_cons, getLine, if_neg (Ne.symm hc), ih hcs]
    rfl

/-- A line that fills the buffer is cut. -/
theorem fileLines_cut {c : Char} {cs : Str} (hlen : cs.length + 2 = bufSize) (hnl : '\n' ∉ c :: cs)
    (hnul : nul ∉ c :: cs) : fileLines (c :: cs ++ ['y', '\n']) = [c :: cs, ['y', '\n']] := by
  have hfgets : fgets bufSize (c :: cs ++ ['y', '\n']) = some (c :: cs, ['y', '\n']) := by
    have htake : (c :: cs).takeWhile (· ≠ nul) = c :: cs :=
      takeWhile_eq_self_iff.mpr fun x hx => decide_eq_true fun hxnul => hnul (hxnul ▸ hx)
    have hline := getLine_append ['y', '\n'] hnl
    rw [length_cons, show cs.length + 1 = bufSize - 1 by omega] at hline
    rw [fgets, if_neg (by simp), hline]
    exact congrArg (fun s => some (s, _)) htake
  have hjoin : joinLines 2 (c :: cs) ['y', '\n'] = (c :: cs, ['y', '\n']) :=
    if_pos (.inl (by rw [length_cons]; omega))
  have hfuel : (c :: cs ++ ['y', '\n']).length = 4097 := by
    simp only [length_append, length_cons, length_nil, bufSize] at hlen ⊢
    omega
  rw [fileLines, linesLoop, hfgets, hfuel]
  simp only [show ['y', '\n'].length = 2 from rfl, hjoin]
  rfl

/-- A file read with a stack of the open blocks; `true` is a block that starts where text is left out (`out`). -/
structure Reading where
  blocks : List Bool
  out : Bool
  stray : Bool
  surplus : Int
  deriving DecidableEq, Repr

def Reading.next (r : Reading) (c : Bool) : Kind → Reading
  | .ordinary => r
  | .opens => { r with blocks := r.out :: r.blocks, out := r.out || !c, surplus := r.surplus + 1 }
  | .alternative => { r with out := r.out ^^ r.blocks.head? ≠ some true, stray := r.stray || r.blocks.isEmpty }
  | .closes => ⟨r.blocks.tail, r.blocks.head? = some true, r.stray || r.blocks.isEmpty, r.surplus - 1⟩

def reading (parse : Include) : List Str → Reading → Table → Except Stop Reading
  | [], r, _ => .ok r
  | line :: ls, r, t =>
    (if kind t line = .ordinary ∧ r.out = false then perform parse line t else .ok t).bind
      (reading parse ls (r.next (condition t line) (kind t line)))

def readFile (parse : Include) (file : Str) (t : Table) : Except Stop Reading :=
  reading parse (fileLines file) ⟨[], false, false, 0⟩ t

/-- A closing line came when no block was open, or a block is open at the end. -/
def Unbalanced (parse : Include) (file : Str) (t : Table) : Prop :=
  ∃ r, readFile parse file t = .ok r ∧ (r.stray = true ∨ r.blocks ≠ [])

variable {r : Reading}

/-- The counters of the parser and the stack. -/
structure Tracks (st : Parser) (r : Reading) : Prop where
  blocks : ∃ m n : Nat, st.dummyIf = m ∧ r.blocks = replicate m true ++ replicate n false
  skipping : st.skipping = if r.out then st.dummyIf + 1 else 0
  live : r.out = false → st.dummyIf = 0
  surplus : r.surplus = st.inIf + st.dummyIf

theorem Tracks.opens (h : Tracks st r) (c : Bool) : Tracks (keywDoIf st c) (r.next c .opens) := by
  obtain ⟨⟨m, n, hm, hb⟩, hskip, hlive, hsur⟩ := h
  cases hout : r.out with
  | true =>
    rw [keywDoIf, if_pos (by simp [hskip, hout]; omega)]
    exact ⟨⟨m + 1, n, by simp [hm], by simp [Reading.next, hout, hb, replicate_succ]⟩,
      by simp [Reading.next, hskip, hout], by simp [Reading.next, hout], by simp only [Reading.next]; omega⟩
  | false =>
    obtain rfl : m = 0 := by have := hlive hout; omega
    rw [keywDoIf, if_neg (by simp [hskip, hout])]
    exact ⟨⟨0, n + 1, hm, by simp [Reading.next, hout, hb, replicate_succ]⟩,
      by cases c <;> simp [Reading.next, hout, hm], fun _ => hm, by simp only [Reading.next]; omega⟩

theorem Tracks.head (h : Tracks st r) : r.blocks.head? = some true ↔ st.dummyIf ≠ 0 := by
  obtain ⟨m, n, hm, hb⟩ := h.blocks
  rw [hm, hb]
  cases m with
  | zero => cases n <;> simp [replicate_succ]
  | succ m => simp [replicate_succ]; omega

theorem Tracks.alternative (h : Tracks st r) (c : Bool) (hk : kind t line = .alternative) :
    ∃ st', doAddRes parse line st t = .ok (st', t) ∧ Tracks st' (r.next c .alternative) := by
  refine ⟨_, doAddRes_alternative hk, ?_⟩
  have hhead := h.head
  obtain ⟨hb, hskip, hlive, hsur⟩ := h
  by_cases hd : st.dummyIf = 0
  · have hout : (r.next c .alternative).out = !r.out := by simp [Reading.next, hhead, hd]
    rw [if_pos hd]
    exact ⟨hb, by rw [hout]; cases ho : r.out <;> simp [hskip, ho, hd], fun _ => hd, hsur⟩
  · have hout : (r.next c .alternative).out = r.out := by simp [Reading.next, hhead, hd]
    rw [if_neg hd]
    exact ⟨hb, by rw [hout]; exact hskip, by rw [hout]; exact hlive, hsur⟩

theorem Tracks.closes (h : Tracks st r) (c : Bool) (hk : kind t line = .closes) :
    ∃ st', doAddRes parse line st t = .ok (st', t) ∧ Tracks st' (r.next c .closes) := by
  refine ⟨_, doAddRes_closes hk, ?_⟩
  have hhead := h.head
  obtain ⟨⟨m, n, hm, hb⟩, hskip, hlive, hsur⟩ := h
  by_cases hd : st.dummyIf = 0
  · rw [if_neg (not_not_intro hd)]
    obtain rfl : m = 0 := by omega
    exact ⟨⟨0, n - 1, hd, by simp [Reading.next, hb]⟩, by simp [Reading.next, hhead, hd], fun _ => hd,
      by simp only [Reading.next]; omega⟩
  -- a block that starts in text left out: the text around it is left out too
  have hout : r.out = true := eq_true_of_ne_false (mt hlive hd)
  rw [if_pos hd]
  obtain ⟨m, rfl⟩ : ∃ k, m = k + 1 := ⟨m - 1, by omega⟩
  exact ⟨⟨m, n, by simp only; omega, by simp [Reading.next, hb, replicate_succ]⟩,
    by simp [Reading.next, hhead, hd, hskip, hout], by simp [Reading.next, hhead, hd],
    by simp only [Reading.next]; omega⟩

theorem Tracks.next (h : Tracks st r) (parse : Include) (hk : kind t line ≠ .ordinary) :
    ∃ st', doAddRes parse line st t = .ok (st', t) ∧ Tracks st' (r.next (condition t line) (kind t line)) := by
  cases hkind : kind t line with
  | ordinary => exact absurd hkind hk
  | opens => exact ⟨_, doAddRes_opens hkind, h.opens _⟩
  | alternative => exact h.alternative _ hkind
  | closes => exact h.closes _ hkind

theorem reading_tracks (parse : Include) (ls : List Str) (t : Table) (h : Tracks st r) :
    match reading parse ls r t with
    | .error e => parseLines parse ls st t = .error e
    | .ok r' => ∃ st' t', parseLines parse ls st t = .ok (st', t') ∧ Tracks st' r' := by
  induction ls generalizing st r t with
  | nil => exact ⟨st, t, rfl, h⟩
  | cons line ls ih =>
    unfold reading
    by_cases hk : kind t line = .ordinary
    · have hline : doAddRes parse line st t = _ := doAddRes_ordinary hk
      rw [h.skipping] at hline
      rw [hk, parseLines, hline]
      cases hout : r.out with
      | true =>
        have hne : st.dummyIf + 1 ≠ 0 := by
          obtain ⟨m, n, hm, -⟩ := h.blocks
          omega
        rw [if_neg (by simp), if_neg (by simpa using hne)]
        exact ih _ h
      | false =>
        rw [if_pos ⟨rfl, rfl⟩, if_pos (by simp)]
        cases perform parse line t with
        | error e => rfl
        | ok t' => exact ih _ h
    · obtain ⟨st', hline, h'⟩ := h.next parse hk
      rw [if_neg (by simp [hk]), parseLines_cons hline]
      exact ih _ h'

theorem reading_surplus {r' : Reading} (hread : reading parse ls r t = .ok r') (hstray : r'.stray = false)
    (h : r.stray = false → r.surplus = r.blocks.length) : r'.surplus = r'.blocks.length := by
  have hnext (r : Reading) (c : Bool) (k : Kind) (h : r.stray = false → r.surplus = r.blocks.length)
      (hs : (r.next c k).stray = false) : (r.next c k).surplus = (r.next c k).blocks.length := by
    cases k with
    | ordinary => exact h hs
    | opens => simp [Reading.next, h hs]
    | alternative => exact h (Bool.or_eq_false_iff.mp hs).1
    | closes =>
      obtain ⟨hs, hne⟩ := Bool.or_eq_false_iff.mp hs
      have := length_pos_iff.mpr (by simpa using hne)
      simp only [Reading.next, h hs, length_tail]
      omega
  induction ls generalizing r t with
  | nil =>
    cases hread
    exact h hstray
  | cons line ls ih =>
    unfold reading at hread
    cases hline : (if kind t line = .ordinary ∧ r.out = false then perform parse line t else .ok t) with
    | error e => simp [hline, Except.bind] at hread
    | ok t' =>
      rw [hline] at hread
      exact ih hread (hnext r _ _ h)

end MacOnLinux.Res
