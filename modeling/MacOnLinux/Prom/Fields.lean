import MacOnLinux.Prom.Values

/-! # Fields of a node that are written and read again

A name or a string may have parentheses as long as they are balanced.
-/

namespace MacOnLinux.Prom

open List

/-! ## Parentheses -/

def parens : Nat → Str → Option Nat
  | open_, [] => some open_
  | open_, c :: s =>
    if c = '(' then parens (open_ + 1) s
    else if c = ')' then (if open_ = 0 then none else parens (open_ - 1) s)
    else parens open_ s

def balanced (s : Str) : Bool := parens 0 s = some 0

def isParen (c : Char) : Bool := c = '(' || c = ')'

variable {d d' : Nat} {s t u q p x e key rest : Str} {es : List Str}

variable {b : Bool} {r unit pre k : Str} {es' : List Str} {node : Word} {value : List Byte}
variable {c a : Char}

theorem balanceLoop_parens (h : parens d s = some d') (t : Str) :
    balanceLoop (d + 1) (s ++ t) = balanceLoop (d' + 1) t := by
  induction s generalizing d with
  | nil =>
    obtain rfl : d = d' := by simpa [parens] using h
    rfl
  | cons c s ih =>
    rw [parens] at h
    rw [cons_append, balanceLoop]
    split at h
    · rename_i hc
      rw [if_pos hc]
      exact ih h
    rename_i hc
    rw [if_neg hc]
    split at h
    · rename_i hc'
      split_ifs at h with hd
      obtain ⟨k, rfl⟩ := Nat.exists_eq_succ_of_ne_zero hd
      rw [if_pos hc', if_neg (by omega)]
      exact ih h
    · rename_i hc'
      rw [if_neg hc']
      exact ih h

theorem parens_filter (d : Nat) (s : Str) : parens d s = parens d (s.filter isParen) := by
  induction s generalizing d with
  | nil => rfl
  | cons c s ih =>
    by_cases hopen : c = '('
    · subst hopen
      simp [parens, isParen, ← ih]
    · by_cases hclose : c = ')'
      · subst hclose
        simp [parens, isParen, ← ih]
      · simp [parens, isParen, hopen, hclose, ih]

theorem parens_append (d : Nat) (s t : Str) : parens d (s ++ t) = (parens d s).bind fun d' => parens d' t := by
  induction s generalizing d with
  | nil => rfl
  | cons c s ih =>
    simp only [cons_append, parens, ih]
    split
    · rfl
    split
    · split <;> rfl
    · rfl

theorem parens_of_balanced (h : balanced s = true) (t : Str) : parens 0 (s ++ t) = parens 0 t := by
  have hs : parens 0 s = some 0 := by simpa [balanced] using h
  rw [parens_append, hs, Option.bind_some]

theorem filter_isParen_nil (h : ∀ c ∈ s, isParen c = false) : s.filter isParen = [] := by
  rw [filter_eq_nil_iff]
  intro c hc
  simp [h c hc]

theorem balanced_of_no (h : ∀ c ∈ s, isParen c = false) : balanced s = true := by
  simp [balanced, parens_filter 0 s, filter_isParen_nil h, parens]

theorem balanced_append (hs : balanced s = true) (ht : balanced t = true) : balanced (s ++ t) = true := by
  simpa [balanced, parens_of_balanced hs] using ht

theorem balance_of_balanced (h : balanced e = true) (t : Str) : balance ('(' :: (e ++ ')' :: t)) = some (')' :: t) := by
  have he : parens 0 e = some 0 := by simpa [balanced] using h
  have hloop := balanceLoop_parens he (')' :: t)
  simp only [balance, if_true]
  rw [zero_add] at hloop
  rw [hloop]
  simp [balanceLoop]

theorem balanceLoop_suffix {n : Nat} (h : balanceLoop n s = some t) : ∃ v, s = v ++ t := by
  induction s generalizing n with
  | nil => simp [balanceLoop] at h
  | cons c s ih =>
    rw [balanceLoop] at h
    have hgo {m : Nat} (hm : balanceLoop m s = some t) : ∃ v, c :: s = v ++ t := by
      obtain ⟨v, rfl⟩ := ih hm
      exact ⟨c :: v, rfl⟩
    split at h
    · exact hgo h
    split at h
    · split at h
      · cases h
        exact ⟨[], rfl⟩
      · exact hgo h
    · exact hgo h

/-! ## Comments -/

def see (c : Char) (b : Bool) : Bool := if isblank c then b else !(c = '\n' || c = '\r')

/-- Something other than blanks stands in the last line; `b` for the text before. -/
def seen (b : Bool) (s : Str) : Bool := s.foldl (fun b c => see c b) b

/-- All parentheses that are opened are in comments. -/
def hidden : Bool → Str → Bool
  | _, [] => true
  | b, c :: s => (c ≠ '(' || b) && hidden (see c b) s

theorem seen_append (b : Bool) (s t : Str) : seen b (s ++ t) = seen (seen b s) t := foldl_append

theorem commented_append (q p : Str) : commented (q ++ p) p = seen false q := by
  have hbefore : before (q ++ p) p = q := by simp [before]
  unfold commented
  rw [hbefore]
  induction q using reverseRecOn with
  | nil => rfl
  | append_singleton q c ih =>
    have hq : before (q ++ p) p = q := by simp [before]
    rw [seen_append, ← ih hq]
    simp only [reverse_append, reverse_singleton, singleton_append, dropWhile_cons, seen, foldl_cons,
      foldl_nil, see]
    by_cases hc : isblank c = true
    · simp [hc]
    · simp [hc]

theorem hidden_append : hidden b (s ++ t) = (hidden b s && hidden (seen b s) t) := by
  induction s generalizing b with
  | nil => simp [hidden, seen]
  | cons c s ih =>
    simp only [cons_append, hidden, ih, Bool.and_assoc]
    rfl

theorem hidden_of_no (h : '(' ∉ x) : hidden b x = true := by
  induction x generalizing b with
  | nil => rfl
  | cons c x ih =>
    rw [mem_cons, not_or] at h
    simp [hidden, Ne.symm h.1, ih h.2]

theorem dropWhile_open (h : '(' ∉ u) (s : Str) : (u ++ '(' :: s).dropWhile (· ≠ '(') = '(' :: s := by
  rw [dropWhile_append_of_pos]
  · simp
  · intro c hc
    have : c ≠ '(' := fun heq => h (heq ▸ hc)
    simp [this]

theorem findkeyLoop_hidden (key : Str) (fuel : Nat) (q p : Str) (h : hidden (seen false q) p = true) :
    findkeyLoop (q ++ p) key fuel p = none := by
  induction fuel generalizing q p with
  | zero => rfl
  | succ fuel ih =>
    rw [findkeyLoop]
    by_cases hopen : '(' ∈ p
    · obtain ⟨u, s, rfl, hu⟩ := eq_append_cons_of_mem hopen
      rw [hidden_append, Bool.and_eq_true] at h
      -- the first parenthesis is in a comment, and so is what comes after it
      have hseen : seen false (q ++ u) = true := by
        have hs := h.2
        simp only [hidden, ne_eq, not_true_eq_false, decide_false, Bool.false_or, Bool.and_eq_true] at hs
        rw [seen_append]
        exact hs.1
      rw [dropWhile_open hu, ← append_assoc]
      simp only [commented_append, hseen, if_true]
      cases hb : balance ('(' :: s) with
      | none => rfl
      | some t =>
        obtain ⟨v, hv⟩ : ∃ v, '(' :: s = v ++ t := by
          simp only [balance, if_true] at hb
          obtain ⟨v, rfl⟩ := balanceLoop_suffix hb
          exact ⟨'(' :: v, rfl⟩
        rw [hv, Option.bind_some, ← append_assoc]
        apply ih
        rw [hv, hidden_append, Bool.and_eq_true] at h
        rw [seen_append, seen_append]
        exact h.2.2
    · have hdrop : p.dropWhile (· ≠ '(') = [] := by
        rw [dropWhile_eq_nil_iff]
        intro c hc
        have : c ≠ '(' := fun heq => hopen (heq ▸ hc)
        simp [this]
      rw [hdrop]

/-! ## Expressions -/

def linesOf (ind : Nat) : List Str → Str → Str
  | [], rest => '\n' :: rest
  | e :: es, rest => '\n' :: indprint ind ('(' :: (e ++ ')' :: linesOf ind es rest))

/-- What is between the parentheses: it starts with a key. -/
structure IsExpr (e : Str) : Prop where
  balanced : balanced e = true
  key : ∃ c s, e = c :: s ∧ isspace c = false

variable {ind fuel : Nat}

theorem open_not_mem_indent (hx : '(' ∉ x) : '(' ∉ x ++ '\n' :: indprint ind [] := by
  simp [indprint, hx]

theorem seen_indent (q : Str) (ind : Nat) : seen false (q ++ '\n' :: indprint ind []) = false := by
  have hblank (n : Nat) : seen false (replicate n ' ') = false := by
    induction n with
    | zero => rfl
    | succ n ih =>
      rw [replicate_succ]
      exact ih
  rw [seen_append]
  simp only [indprint, append_nil]
  exact hblank ind

theorem findkeyLoop_cons (hx : '(' ∉ x) (he : IsExpr e) :
    findkeyLoop (q ++ (x ++ linesOf ind (e :: es) rest)) key (fuel + 1) (x ++ linesOf ind (e :: es) rest) =
      if key.isPrefixOf (e ++ ')' :: linesOf ind es rest) then
        some ((e ++ ')' :: linesOf ind es rest).drop key.length, ')' :: linesOf ind es rest)
      else findkeyLoop (q ++ (x ++ linesOf ind (e :: es) rest)) key fuel (')' :: linesOf ind es rest) := by
  have htext : x ++ linesOf ind (e :: es) rest =
    (x ++ '\n' :: indprint ind []) ++ '(' :: (e ++ ')' :: linesOf ind es rest) := by
    simp [linesOf, indprint]
  obtain ⟨c, s, hes, hc⟩ := he.key
  have hkey : (e ++ ')' :: linesOf ind es rest).dropWhile isspace = e ++ ')' :: linesOf ind es rest := by
    simp [hes, hc]
  have hcom : commented (q ++ ((x ++ '\n' :: indprint ind []) ++ '(' :: (e ++ ')' :: linesOf ind es rest)))
      ('(' :: (e ++ ')' :: linesOf ind es rest)) = false := by
    rw [← append_assoc, commented_append, ← append_assoc, seen_indent]
  rw [htext, findkeyLoop, dropWhile_open (open_not_mem_indent hx)]
  simp only [hcom, hkey, balance_of_balanced he.balanced, Option.map_some, Option.bind_some]
  simp

def Lacks (key : Str) (es : List Str) : Prop := ∀ e ∈ es, ∀ s, key.isPrefixOf (e ++ s) = false

theorem linesOf_cons (q x : Str) : q ++ (x ++ linesOf ind (e :: es) rest) =
    (q ++ (x ++ '\n' :: indprint ind ('(' :: e))) ++ ([')'] ++ linesOf ind es rest) := by
  simp [linesOf, indprint]

theorem close_not_open : '(' ∉ [')'] := by decide

theorem findkeyLoop_miss
    (hx : '(' ∉ x) (hes : ∀ e ∈ es, IsExpr e) (hmiss : Lacks key es) (hrest : hidden false rest = true) :
    findkeyLoop (q ++ (x ++ linesOf ind es rest)) key fuel (x ++ linesOf ind es rest) = none := by
  induction es generalizing q x fuel with
  | nil =>
    apply findkeyLoop_hidden
    rw [linesOf, hidden_append, hidden_of_no hx]
    exact hrest
  | cons e es ih =>
    cases fuel with
    | zero => rfl
    | succ fuel =>
      rw [findkeyLoop_cons hx (hes e mem_cons_self), hmiss e mem_cons_self, linesOf_cons]
      exact ih close_not_open (forall_mem_cons.mp hes).2 (forall_mem_cons.mp hmiss).2

theorem findkeyLoop_hit
    (hx : '(' ∉ x) (hes : ∀ e ∈ es, IsExpr e) (he : IsExpr (key ++ r)) (hmiss : Lacks key es)
    (hfuel : es.length < fuel) :
    findkeyLoop (q ++ (x ++ linesOf ind (es ++ (key ++ r) :: es') rest)) key fuel
      (x ++ linesOf ind (es ++ (key ++ r) :: es') rest) =
        some (r ++ ')' :: linesOf ind es' rest, ')' :: linesOf ind es' rest) := by
  obtain ⟨fuel, rfl⟩ : ∃ k, fuel = k + 1 := ⟨fuel - 1, by omega⟩
  induction es generalizing q x fuel with
  | nil =>
    rw [nil_append, findkeyLoop_cons hx he, if_pos (by simp)]
    simp
  | cons e es ih =>
    obtain ⟨fuel, rfl⟩ : ∃ k, fuel = k + 1 := ⟨fuel - 1, by simp at hfuel; omega⟩
    rw [cons_append, findkeyLoop_cons hx (hes e mem_cons_self), hmiss e mem_cons_self, linesOf_cons]
    exact ih close_not_open (forall_mem_cons.mp hes).2 (forall_mem_cons.mp hmiss).2 fuel
      (by simp at hfuel; omega)

theorem length_le_linesOf (ind : Nat) (es : List Str) (rest : Str) : es.length < (linesOf ind es rest).length := by
  induction es with
  | nil => simp [linesOf]
  | cons e es ih =>
    simp only [linesOf, indprint, length_cons, length_append]
    omega

theorem findkey_miss
    (hx : '(' ∉ x) (hes : ∀ e ∈ es, IsExpr e) (hmiss : Lacks key es) (hrest : hidden false rest = true) :
    findkey (x ++ linesOf ind es rest) key = none :=
  findkeyLoop_miss (q := []) hx hes hmiss hrest

theorem findkey_hit
    (hx : '(' ∉ x) (hes : ∀ e ∈ es, IsExpr e) (he : IsExpr (key ++ r)) (hmiss : Lacks key es) :
    findkey (x ++ linesOf ind (es ++ (key ++ r) :: es') rest) key =
      some (r ++ ')' :: linesOf ind es' rest, ')' :: linesOf ind es' rest) := by
  have hlen := length_le_linesOf ind (es ++ (key ++ r) :: es') rest
  refine findkeyLoop_hit (q := []) hx hes he hmiss ?_
  simp only [length_append, length_cons] at hlen ⊢
  omega

/-! ## What can be read back -/

def isprint (c : Char) : Bool := 0x20 ≤ c.toNat && c.toNat ≤ 0x7e

/-- A name that the parser takes as one word. -/
structure PlainWord (s : Str) : Prop where
  nonempty : s ≠ []
  length : s.length ≤ 99
  graph : ∀ c ∈ s, isgraph c = true
  noBrace : ∀ c ∈ s, notBrace c = true
  balanced : balanced s = true

/-- Only values that look like strings are restricted. -/
structure Property.Plain (p : Property) : Prop where
  word : PlainWord p.name
  name : '>' ∉ p.name
  noQuote : likelyString p.value = true → ∀ b ∈ p.value, toChar b ≠ '"'
  noBrace : likelyString p.value = true → ∀ b ∈ p.value, notBrace (toChar b) = true
  balanced : likelyString p.value = true → balanced (p.value.map toChar) = true

structure Node.Plain (d : Node) : Prop where
  name : ∀ c ∈ nameOf d.properties, isprint c = true ∧ notBrace c = true
  unit : ∀ u, d.unitString = some u → PlainWord u
  properties : ∀ p ∈ kept d.properties, p.Plain

instance (w : Str) : Decidable (PlainWord w) :=
  decidable_of_iff (w ≠ [] ∧ w.length ≤ 99 ∧ w.all isgraph = true ∧ w.all notBrace = true ∧ balanced w = true)
    ⟨fun h => ⟨h.1, h.2.1, List.all_eq_true.mp h.2.2.1, List.all_eq_true.mp h.2.2.2.1, h.2.2.2.2⟩,
      fun h => ⟨h.nonempty, h.length, List.all_eq_true.mpr h.graph, List.all_eq_true.mpr h.noBrace, h.balanced⟩⟩

def plainString (value : List Byte) : Bool :=
  value.all (fun b => toChar b != '"' && notBrace (toChar b)) && balanced (value.map toChar)

theorem Property.plain_of {p : Property} (hw : PlainWord p.name) (hn : '>' ∉ p.name)
    (hv : likelyString p.value = true → plainString p.value = true) : p.Plain := by
  have hchars (h : likelyString p.value = true) (b : Byte) (hb : b ∈ p.value) :
    toChar b ≠ '"' ∧ notBrace (toChar b) = true := by
    have hall := hv h
    rw [plainString, Bool.and_eq_true, all_eq_true] at hall
    simpa using hall.1 b hb
  refine ⟨hw, hn, fun h b hb => (hchars h b hb).1, fun h b hb => (hchars h b hb).2, fun h => ?_⟩
  have hall := hv h
  rw [plainString, Bool.and_eq_true] at hall
  exact hall.2

/-! ## Expressions of a node -/

def unitExpr (unit : Str) : Str := "unit_string".toList ++ ' ' :: (unit ++ [' '])

def phandleExpr (node : Word) : Str := "mol_phandle".toList ++ ' ' :: '0' :: 'x' :: (hexPad 8 node.toNat ++ [' '])

def propertyExpr (ind : Nat) (p : Property) : Str :=
  "property".toList ++ ' ' :: (padRight 18 p.name ++ ' ' :: valueText ind p.value)

def unitExprs (unitString : Option Str) : List Str :=
  match unitString with
  | none => []
  | some unit => if unit = [] then [] else [unitExpr unit]

def phandleExprs (node : Word) : List Str := if phandleBase < node then [phandleExpr node] else []

def exprs (ind : Nat) (d : Node) : List Str :=
  unitExprs d.unitString ++ (phandleExprs d.node ++ (kept d.properties).map (propertyExpr ind))

def lineOf (ind : Nat) (e : Str) : Str := indprint ind ('(' :: (e ++ [')', '\n']))

theorem linesOf_flatMap (ind : Nat) (es : List Str) (rest : Str) :
    '\n' :: (es.flatMap (lineOf ind) ++ rest) = linesOf ind es rest := by
  induction es with
  | nil => rfl
  | cons e es ih =>
    rw [linesOf, ← ih]
    simp [lineOf, indprint, append_assoc, cons_append, nil_append]

theorem propertyText_eq (ind : Nat) (p : Property) : propertyText ind p = lineOf ind (propertyExpr ind p) := by
  have hkey : "(property ".toList = '(' :: ("property".toList ++ [' ']) := rfl
  have hend : ")\n".toList = [')', '\n'] := rfl
  unfold propertyText propertyExpr lineOf
  rw [hkey, hend]
  simp

theorem unitText_eq (ind : Nat) (h : unit ≠ []) : unitText ind (some unit) = lineOf ind
    (unitExpr unit) := by
  have hkey : "(unit_string ".toList = '(' :: ("unit_string".toList ++ [' ']) := rfl
  have hend : " )\n".toList = [' ', ')', '\n'] := rfl
  unfold unitText unitExpr lineOf
  rw [hkey, hend]
  simp only [if_neg h, append_assoc, cons_append, nil_append]

theorem phandleText_eq (ind : Nat) (h : phandleBase < node) : phandleText ind node = lineOf ind
    (phandleExpr node) := by
  have hkey : "(mol_phandle 0x".toList = '(' :: ("mol_phandle".toList ++ [' ', '0', 'x']) := rfl
  have hend : " )\n".toList = [' ', ')', '\n'] := rfl
  unfold phandleText phandleExpr lineOf
  rw [hkey, hend, if_pos h]
  simp

theorem unitExprs_text (ind : Nat) (unitString : Option Str) :
    unitText ind unitString = (unitExprs unitString).flatMap (lineOf ind) := by
  cases unitString with
  | none => rfl
  | some unit =>
    unfold unitExprs
    by_cases hu : unit = []
    · unfold unitText
      simp only [if_pos hu, flatMap_nil]
    · simp [unitText_eq ind hu, if_neg hu]

theorem phandleExprs_text (ind : Nat) (node : Word) :
    phandleText ind node = (phandleExprs node).flatMap (lineOf ind) := by
  unfold phandleExprs
  by_cases hn : phandleBase < node
  · simp [phandleText_eq ind hn, if_pos hn]
  · unfold phandleText
    simp only [if_neg hn, flatMap_nil]

theorem fieldsText_eq (ind : Nat) (d : Node) (rest : Str) :
    '\n' :: (fieldsText ind d ++ rest) = linesOf ind (exprs ind d) rest := by
  have hprops : (kept d.properties).flatMap (propertyText ind) =
    ((kept d.properties).map (propertyExpr ind)).flatMap (lineOf ind) := by
    rw [flatMap_map]
    exact flatMap_congr fun p _ => propertyText_eq ind p
  rw [← linesOf_flatMap, exprs, flatMap_append, flatMap_append, ← unitExprs_text, ← phandleExprs_text, fieldsText,
    hprops]

/-! ### Balance -/

theorem filter_strText (len ind : Nat) (first : Bool) (ss : List (List Byte)) :
    (strText len ind first ss).filter isParen = (ss.flatMap fun b => (b ++ [0]).map toChar).filter isParen := by
  induction ss generalizing first with
  | nil => rfl
  | cons b ss ih =>
    have hsep : (if first then [] else ", ".toList).filter isParen = [] := by
      cases first
      · rfl
      · rfl
    have hline : (if 50 < len then '\n' :: indprint ind [] else []).filter isParen = [] :=
      filter_isParen_nil (all_newline (P := fun c => isParen c = false) rfl rfl _)
    have hquote : isParen '"' = false := rfl
    have hzero : isParen (toChar 0) = false := rfl
    simp only [strText, filter_append, cons_append, filter_cons, hsep, hline, hquote, ih false, flatMap_cons,
      map_append, map_cons, map_nil, hzero, filter_nil, nil_append]
    simp

theorem balanced_valueText (ind : Nat)
    (h : likelyString value = true → balanced (value.map toChar) = true) :
    balanced (valueText ind value) = true := by
  have hhex (n : Nat) (newline : Nat → Bool) (vs : List Nat) :
      ∀ c ∈ hexText n (ind + indentValue) newline 0 vs, isParen c = false :=
    all_hexText (P := fun c => isParen c = false) rfl rfl rfl rfl (by decide) 0 vs
  have hblank : balanced [' '] = true := rfl
  unfold valueText
  split
  · rfl
  split
  · rename_i hstr
    have hlast : value.getLast? = some 0 := by
      simp only [likelyString, Bool.and_eq_true, beq_iff_eq] at hstr
      exact hstr.2
    have hvalue : parens 0 (strText value.length (ind + indentValue) true (cstrings value)) =
      parens 0 (value.map toChar) := by
      rw [parens_filter, filter_strText, ← parens_filter, ← map_flatMap, flatMap_cstrings value hlast]
    have hbody : balanced (strText value.length (ind + indentValue) true (cstrings value)) = true := by
      rw [balanced, hvalue]
      exact h hstr
    exact balanced_append rfl (balanced_append hbody hblank)
  split
  · exact balanced_append rfl (balanced_append (balanced_of_no (hhex 8 _ _)) hblank)
  · exact balanced_append rfl (balanced_append (balanced_of_no (hhex 2 _ _)) hblank)

theorem isExpr_unit (h : PlainWord unit) : IsExpr (unitExpr unit) := by
  refine ⟨?_, 'u', _, rfl, rfl⟩
  have hkey : balanced ("unit_string".toList ++ [' ']) = true := rfl
  have hend : balanced [' '] = true := rfl
  have hall := balanced_append hkey (balanced_append h.balanced hend)
  unfold unitExpr
  simpa only [append_assoc, singleton_append] using hall

theorem isExpr_phandle (node : Word) : IsExpr (phandleExpr node) := by
  refine ⟨?_, 'm', _, rfl, rfl⟩
  have hkey : balanced ("mol_phandle".toList ++ [' ', '0', 'x']) = true := rfl
  have hend : balanced [' '] = true := rfl
  have hdigit : ∀ v < 16, isParen (hexDigit v) = false := by decide
  have hhex : ∀ c ∈ hexPad 8 node.toNat, isParen c = false := by
    intro c hc
    obtain ⟨v, hv, rfl⟩ := mem_hexPad hc
    exact hdigit v hv
  have hall := balanced_append hkey (balanced_append (balanced_of_no hhex) hend)
  unfold phandleExpr
  simpa only [append_assoc, cons_append, nil_append] using hall

theorem isExpr_property {ind : Nat} {p : Property} (h : p.Plain) : IsExpr (propertyExpr ind p) := by
  refine ⟨?_, 'p', _, rfl, rfl⟩
  have hkey : balanced ("property".toList ++ [' ']) = true := rfl
  have hpad : balanced (replicate (18 - p.name.length) ' ' ++ [' ']) = true := by
    apply balanced_of_no
    intro c hc
    have hc : c = ' ' := by
      rcases mem_append.mp hc with hc | hc
      · exact (mem_replicate.mp hc).2
      · exact mem_singleton.mp hc
    subst hc
    rfl
  have hall :=
    balanced_append hkey (balanced_append h.word.balanced (balanced_append hpad (balanced_valueText ind h.balanced)))
  unfold propertyExpr padRight
  simpa only [append_assoc, cons_append, nil_append] using hall

/-! ### Words -/

theorem not_isspace_of_isgraph (h : isgraph c = true) : isspace c = false := by
  have hne : c ≠ ' ' := by
    rintro rfl
    revert h
    decide
  simp only [isgraph, Bool.and_eq_true, decide_eq_true_eq] at h
  simp only [isspace, Bool.or_eq_false_iff, beq_eq_false_iff_ne, Bool.and_eq_false_iff, decide_eq_false_iff_not]
  exact ⟨hne, by omega⟩

theorem token_word {width : Nat} {ws w : Str} (hws : ∀ c ∈ ws, isspace c = true) (hne : w ≠ [])
    (hw : ∀ c ∈ w, isspace c = false) (hlen : w.length ≤ width) (hc : isspace c = true) (t : Str) :
    token width (ws ++ (w ++ c :: t)) = (w, c :: t) := by
  obtain ⟨a, v, rfl⟩ := exists_cons_of_ne_nil hne
  have hdrop : (ws ++ (a :: v ++ c :: t)).dropWhile isspace = a :: v ++ c :: t := by
    rw [dropWhile_append_of_pos hws]
    simp [hw a mem_cons_self]
  have htake : (a :: v ++ c :: t).takeWhile (fun c => !isspace c) = a :: v := by
    rw [takeWhile_append_of_pos fun x hx => by simp [hw x hx]]
    simp [hc]
  unfold token
  simp only [hdrop, htake, take_of_length_le hlen]
  simp

theorem upto_append (s fin : Str) : upto (s ++ fin) fin = s := by simp [upto]

theorem drop_format {body : Str} (h : '>' ∉ pre) :
    ((pre ++ '>' :: body).dropWhile (· ≠ '>')).drop 1 = body := by
  rw [dropWhile_append_of_pos]
  · simp
  · intro c hc
    have : c ≠ '>' := fun heq => h (heq ▸ hc)
    simp [this]

theorem readValue_eq (format start fin : Str) :
    readValue format start fin = readBody format (upto ((start.dropWhile (· ≠ '>')).drop 1) fin) := rfl

theorem valueFormat_eq (value : List Byte) :
    ∃ f, valueFormat value = f ++ ['>'] ∧ '>' ∉ f ∧ (∀ c ∈ valueFormat value, isspace c = false) ∧
      valueFormat value ≠ [] ∧
      (valueFormat value).length ≤ 39 := by
  have hspace {w : Str} (hw : w.all (fun c => !isspace c) = true) : ∀ c ∈ w, isspace c = false := by
    intro c hc
    simpa using all_eq_true.mp hw c hc
  unfold valueFormat
  split
  · exact ⟨"<str".toList, rfl, by decide, hspace rfl, by decide, by decide⟩
  split
  · exact ⟨"<word".toList, rfl, by decide, hspace rfl, by decide, by decide⟩
  · exact ⟨"<byte".toList, rfl, by decide, hspace rfl, by decide, by decide⟩

theorem blanks_spaces (n : Nat) : ∀ c ∈ ' ' :: replicate n ' ', isspace c = true := by
  intro c hc
  rw [← replicate_succ] at hc
  rw [(mem_replicate.mp hc).2]
  rfl

theorem token_close (n : Nat) (text : Str) :
    (token 39 (' ' :: replicate n ' ' ++ ([] ++ ')' :: '\n' :: text))).1 = [')'] := by
  have hclose : ∀ c ∈ [')'], isspace c = false := by
    intro c hc
    rw [mem_singleton.mp hc]
    rfl
  have htoken : token 39 (' ' :: replicate n ' ' ++ ([')'] ++ '\n' :: text)) = ([')'], '\n' :: text) :=
    token_word (blanks_spaces n) (by simp) hclose (by decide) rfl text
  exact congrArg Prod.fst htoken

theorem token_format (n ind : Nat) (h : value ≠ []) (t : Str) :
    (token 39 (' ' :: replicate n ' ' ++ (valueText ind value ++ t))).1 = valueFormat value := by
  obtain ⟨f, -, -, hspace, hne, hlen⟩ := valueFormat_eq value
  have htext : valueText ind value ++ t = valueFormat value ++ ' ' :: (valueBody ind value ++ t) := by
    rw [valueText_eq ind h, append_assoc]
    rfl
  rw [htext]
  exact congrArg Prod.fst (token_word (blanks_spaces n) hne hspace hlen (c := ' ') rfl _)

theorem readValue_valueText {ind : Nat} {fin : Str} (hpre : '>' ∉ pre) (hne : value ≠ [])
    (h : likelyString value = true → ∀ b ∈ value, toChar b ≠ '"') :
    readValue (valueFormat value) (pre ++ (valueText ind value ++ fin)) fin = value := by
  obtain ⟨f, hf, hnot, -⟩ := valueFormat_eq value
  have htext : pre ++ (valueText ind value ++ fin) = (pre ++ f) ++ '>' :: (' ' :: valueBody ind value ++ fin) := by
    rw [valueText_eq ind hne, hf]
    simp
  have hno : '>' ∉ pre ++ f := by
    rw [mem_append, not_or]
    exact ⟨hpre, hnot⟩
  rw [readValue_eq, htext, drop_format hno, upto_append, readBody_valueBody ind h]

theorem read_property (ind : Nat) {p : Property} (h : p.Plain) (text : Str) :
    let start := ' ' :: (padRight 18 p.name ++ ' ' :: valueText ind p.value) ++ ')' :: '\n' :: text
    (⟨(token 99 start).1, readValue (token 39 (token 99 start).2).1 start (')' :: '\n' :: text)⟩ : Property) = p := by
  intro start
  have hpad (x : Str) : replicate (18 - p.name.length) ' ' ++ ' ' :: x =
    ' ' :: replicate (18 - p.name.length) ' ' ++ x := by
    rw [← singleton_append, ← append_assoc, ← replicate_succ', replicate_succ]
  have hstart : start = [' '] ++ (p.name ++ (' ' :: replicate (18 - p.name.length) ' ' ++
      (valueText ind p.value ++ ')' :: '\n' :: text))) := by
    simp only [start, padRight, append_assoc, cons_append, nil_append, hpad]
  have hblank : ∀ c ∈ [' '], isspace c = true := all_eq_true.mp rfl
  have hname : token 99 start = (p.name, ' ' :: replicate (18 - p.name.length) ' ' ++
      (valueText ind p.value ++ ')' :: '\n' :: text)) := by
    rw [hstart]
    exact token_word hblank h.word.nonempty (fun c hc => not_isspace_of_isgraph (h.word.graph c hc)) h.word.length rfl _
  rw [hname]
  by_cases hv : p.value = []
  · have hempty : valueText ind p.value = [] := by rw [valueText, if_pos hv]
    rw [hempty, token_close]
    have hread : readValue [')'] start (')' :: '\n' :: text) = [] := rfl
    rw [hread, ← hv]
  have hpre : '>' ∉ [' '] ++ (p.name ++ ' ' :: replicate (18 - p.name.length) ' ') := by
    simp [h.name]
  have hvalue : readValue (valueFormat p.value) (([' '] ++ (p.name ++ ' ' :: replicate (18 - p.name.length) ' ')) ++
      (valueText ind p.value ++ ')' :: '\n' :: text)) (')' :: '\n' :: text) =
        p.value := readValue_valueText hpre hv h.noQuote
  rw [token_format _ ind hv, hstart]
  simp only [append_assoc] at hvalue ⊢
  rw [hvalue]

/-! ## build_node -/

theorem lacks_of_head (hes : ∀ e ∈ es, ∃ b s, e = b :: s ∧ a ≠ b) : Lacks (a :: k) es := by
  intro e he s
  obtain ⟨b, t, rfl, hab⟩ := hes e he
  simp [isPrefixOf, hab]

theorem linesOf_head (ind : Nat) (es : List Str) (rest : Str) : ∃ text, linesOf ind es rest = '\n' :: text := by
  cases es with
  | nil | cons e es => exact ⟨_, rfl⟩

theorem readProperties_lines {ind : Nat} (ps : List Property) (hps : ∀ p ∈ ps, p.Plain) (pre : List Str)
    (hpre : ∀ e ∈ pre, IsExpr e)
    (hlacks : Lacks "property".toList pre)
    (hx : '(' ∉ x) (hrest : hidden false rest = true) (hfuel : ps.length < fuel) :
    readProperties fuel (x ++ linesOf ind (pre ++ ps.map (propertyExpr ind)) rest) = ps := by
  induction ps generalizing x pre fuel with
  | nil =>
    obtain _ | fuel := fuel
    · cases hfuel
    rw [readProperties, map_nil, append_nil, findkey_miss hx hpre hlacks hrest]
  | cons p ps ih =>
    obtain ⟨fuel, rfl⟩ : ∃ k, fuel = k + 1 := ⟨fuel - 1, by omega⟩
    have hp := hps p mem_cons_self
    have hexpr : propertyExpr ind p =
      "property".toList ++ ' ' :: (padRight 18 p.name ++ ' ' :: valueText ind p.value) := by
      unfold propertyExpr
      rfl
    have hnext : readProperties fuel ([')'] ++ linesOf ind ([] ++ ps.map (propertyExpr ind)) rest) = ps :=
      ih (forall_mem_cons.mp hps).2 [] (by simp) (by simp [Lacks]) close_not_open (by simp at hfuel; omega)
    obtain ⟨text, htext⟩ := linesOf_head ind (ps.map (propertyExpr ind)) rest
    rw [readProperties, map_cons, hexpr, findkey_hit hx hpre (hexpr ▸ isExpr_property hp) hlacks]
    rw [nil_append] at hnext
    rw [htext] at hnext ⊢
    have hread := read_property ind hp text
    simp only at hread ⊢
    rw [hread]
    exact congrArg _ hnext

def Node.desc (d : Node) : Desc where
  unitString := d.unitString
  phandle := if phandleBase < d.node then d.node else 0
  properties := kept d.properties

variable {d : Node}

theorem mem_unitExprs {unitString : Option Str} (h : e ∈ unitExprs unitString) :
    ∃ unit, unitString = some unit ∧ e = unitExpr unit := by
  cases unitString with
  | none => simp [unitExprs] at h
  | some unit =>
    unfold unitExprs at h
    simp only at h
    split at h
    · simp at h
    · exact ⟨unit, rfl, mem_singleton.mp h⟩

theorem mem_phandleExprs (h : e ∈ phandleExprs node) : e = phandleExpr node := by
  unfold phandleExprs at h
  split at h
  · exact mem_singleton.mp h
  · simp at h

theorem isExpr_exprs (ind : Nat) (h : d.Plain) : ∀ e ∈ exprs ind d, IsExpr e := by
  intro e he
  rw [exprs, mem_append, mem_append] at he
  rcases he with he | he | he
  · obtain ⟨unit, hunit, rfl⟩ := mem_unitExprs he
    exact isExpr_unit (h.unit unit hunit)
  · exact mem_phandleExprs he ▸ isExpr_phandle d.node
  · obtain ⟨p, hp, rfl⟩ := mem_map.mp he
    exact isExpr_property (h.properties p hp)

theorem lacks_units (ha : a ≠ 'u') (unitString : Option Str) : Lacks (a :: k) (unitExprs unitString) := by
  apply lacks_of_head
  intro e he
  obtain ⟨unit, -, rfl⟩ := mem_unitExprs he
  exact ⟨'u', _, rfl, ha⟩

theorem lacks_phandles (ha : a ≠ 'm') (node : Word) : Lacks (a :: k) (phandleExprs node) := by
  apply lacks_of_head
  intro e he
  exact ⟨'m', _, mem_phandleExprs he, ha⟩

theorem lacks_properties (ha : a ≠ 'p') (ind : Nat) (ps : List Property) :
    Lacks (a :: k) (ps.map (propertyExpr ind)) := by
  apply lacks_of_head
  intro e he
  obtain ⟨p, -, rfl⟩ := mem_map.mp he
  exact ⟨'p', _, rfl, ha⟩

theorem Lacks.append (h : Lacks key es) (h' : Lacks key es') : Lacks key (es ++ es') := by
  intro e he
  rcases mem_append.mp he with he | he
  · exact h e he
  · exact h' e he

theorem scanNumber_handle (node : Word) (s : Str) :
    scanNumber 16 (' ' :: '0' :: 'x' :: (hexPad 8 node.toNat ++ ' ' :: s)) = some (node, ' ' :: s) := by
  have hlt : node.toNat < 16 ^ 8 := node.isLt
  have hrun := digitRun_hexPad hlt 0 (' ' :: s)
  rw [digitRun_blank, zero_mul, zero_add] at hrun
  obtain ⟨c, t, heq⟩ : ∃ c t, hexPad 8 node.toNat = c :: t :=
    exists_cons_of_ne_nil fun hnil => by simpa [hnil] using length_hexPad 8 node.toNat
  obtain ⟨v, hv, rfl⟩ : ∃ v < 16, c = hexDigit v := mem_hexPad (by rw [heq]; exact mem_cons_self)
  rw [heq] at hrun ⊢
  simp only [cons_append] at hrun ⊢
  have hdigit := digit_hexDigit v hv
  have hdrop : (' ' :: '0' :: 'x' :: hexDigit v :: (t ++ ' ' :: s)).dropWhile isspace =
    '0' :: 'x' :: hexDigit v :: (t ++ ' ' :: s) := by
    simp [isspace]
  have hskip : skip0x ('0' :: 'x' :: hexDigit v :: (t ++ ' ' :: s)) = hexDigit v :: (t ++ ' ' :: s) := by
    simp [skip0x, hdigit]
  have hfits : node.toNat < 4294967296 := node.isLt
  unfold scanNumber
  simp [hdrop, hskip, hdigit, hrun, clamp, hfits]

theorem lacks_nil (key : Str) : Lacks key [] := by
  intro e he
  cases he

section Keys

variable (ind) (h : d.Plain) (hrest : hidden false rest = true)

include h hrest

theorem findkey_unit :
    (findkey (linesOf ind (exprs ind d) rest) "unit_string".toList).map
    (fun (start, _) => (token 99 start).1) = d.unitString := by
  have hno : '(' ∉ ([] : Str) := by simp
  cases hunit : d.unitString with
  | none =>
    have hlacks : Lacks "unit_string".toList (exprs ind d) := by
      rw [exprs, hunit]
      exact (lacks_phandles (by decide) d.node).append (lacks_properties (by decide) ind _)
    have hmiss : findkey (linesOf ind (exprs ind d) rest) "unit_string".toList = none :=
      findkey_miss hno (isExpr_exprs ind h) hlacks hrest
    rw [hmiss]
    rfl
  | some unit =>
    have hplain := h.unit unit hunit
    have hunits : unitExprs (some unit) = [unitExpr unit] := by
      unfold unitExprs
      simp only [if_neg hplain.nonempty]
    have hhit (es' : List Str) : findkey (linesOf ind (unitExpr unit :: es') rest) "unit_string".toList =
        some (' ' :: (unit ++ [' ']) ++ ')' :: linesOf ind es' rest, ')' :: linesOf ind es' rest) :=
      findkey_hit hno (by simp) (isExpr_unit hplain) (lacks_nil _)
    have hblank : ∀ c ∈ [' '], isspace c = true := all_eq_true.mp rfl
    have htoken (t : Str) : token 99 ([' '] ++ (unit ++ ' ' :: t)) = (unit, ' ' :: t) :=
      token_word hblank hplain.nonempty (fun c hc => not_isspace_of_isgraph (hplain.graph c hc)) hplain.length rfl t
    rw [exprs, hunit, hunits, singleton_append, hhit, Option.map_some]
    simp only [cons_append, nil_append, append_assoc] at htoken ⊢
    rw [htoken]

theorem readPhandle_lines :
    readPhandle (linesOf ind (exprs ind d) rest) = if phandleBase < d.node then d.node else 0 := by
  have hno : '(' ∉ ([] : Str) := by simp
  unfold readPhandle
  by_cases hn : phandleBase < d.node
  · have hphandles : phandleExprs d.node = [phandleExpr d.node] := by
      unfold phandleExprs
      rw [if_pos hn]
    have hunits : ∀ e ∈ unitExprs d.unitString, IsExpr e :=
      fun e he => isExpr_exprs ind h e (mem_append_left _ he)
    have hhit (es' : List Str) : findkey (linesOf ind (unitExprs d.unitString ++ phandleExpr d.node :: es') rest)
        "mol_phandle".toList = some (' ' :: '0' :: 'x' :: (hexPad 8 d.node.toNat ++ [' ']) ++
          ')' :: linesOf ind es' rest, ')' :: linesOf ind es' rest) :=
      findkey_hit hno hunits (isExpr_phandle d.node) (lacks_units (by decide) _)
    have hge : ¬ d.node < phandleBase := by
      rw [BitVec.lt_def] at hn ⊢
      omega
    rw [exprs, hphandles, singleton_append, hhit, if_pos hn]
    simp [cons_append, nil_append, scanNumber_handle, if_neg hge]
  · have hphandles : phandleExprs d.node = [] := by
      unfold phandleExprs
      rw [if_neg hn]
    have hlacks : Lacks "mol_phandle".toList (exprs ind d) := by
      rw [exprs, hphandles]
      exact (lacks_units (by decide) _).append (lacks_properties (by decide) ind _)
    have hmiss : findkey (linesOf ind (exprs ind d) rest) "mol_phandle".toList = none :=
      findkey_miss hno (isExpr_exprs ind h) hlacks hrest
    rw [hmiss, if_neg hn]

theorem buildNode_lines : buildNode (linesOf ind (exprs ind d) rest) = d.desc := by
  have hlen := length_le_linesOf ind (exprs ind d) rest
  have hcount : (kept d.properties).length ≤ (exprs ind d).length := by
    simp only [exprs, length_append, length_map]
    omega
  have hpre : ∀ e ∈ unitExprs d.unitString ++ phandleExprs d.node, IsExpr e := by
    intro e he
    refine isExpr_exprs ind h e ?_
    rw [exprs, ← append_assoc]
    exact mem_append_left _ he
  have hprops : readProperties ((linesOf ind (exprs ind d) rest).length + 1) ([] ++ linesOf ind (exprs ind d) rest) =
    kept d.properties := by
    have hfuel : (kept d.properties).length < (linesOf ind (exprs ind d) rest).length + 1 := by omega
    rw [exprs, ← append_assoc] at hfuel ⊢
    exact readProperties_lines _ h.properties _ hpre ((lacks_units (by decide) _).append (lacks_phandles (by decide) _))
      (by simp) hrest hfuel
  unfold buildNode Node.desc
  rw [findkey_unit ind h hrest, readPhandle_lines ind h hrest]
  exact congrArg _ hprops

end Keys

end MacOnLinux.Prom
