import MacOnLinux.Prom.Export

/-! # Values that are written and read again -/

namespace MacOnLinux.Prom

open List

variable {n v ind refcon : Nat} {ws : Str} {newline : Nat → Bool} {value : List Byte}

/-! ## Numbers -/

theorem digit_hexDigit : ∀ v < 16, digit 16 (hexDigit v) = some v := by decide

theorem hexDigit_plain : ∀ v < 16, isspace (hexDigit v) = false ∧ hexDigit v ≠ '-' ∧ hexDigit v ≠ '+' ∧
    hexDigit v ≠ 'x' ∧ hexDigit v ≠ 'X' := by decide

theorem length_hexPad (n v : Nat) : (hexPad n v).length = n := by
  induction n generalizing v with
  | zero => rfl
  | succ n ih => simp [hexPad, ih]

theorem mem_hexPad {c : Char} (h : c ∈ hexPad n v) : ∃ d < 16, c = hexDigit d := by
  induction n generalizing v with
  | zero => simp [hexPad] at h
  | succ n ih =>
    rcases mem_append.mp h with h | h
    · exact ih h
    · exact ⟨v % 16, Nat.mod_lt _ (by omega), mem_singleton.mp h⟩

theorem digitRun_hexPad (h : v < 16 ^ n) (acc : Nat) (s : Str) :
    digitRun 16 acc (hexPad n v ++ s) = digitRun 16 (acc * 16 ^ n + v) s := by
  induction n generalizing v s with
  | zero =>
    have hv : v = 0 := by omega
    simp [hexPad, hv]
  | succ n ih =>
    have hdiv : v / 16 < 16 ^ n := Nat.div_lt_of_lt_mul (by rw [pow_succ] at h; omega)
    have hval : (acc * 16 ^ n + v / 16) * 16 + v % 16 = acc * 16 ^ (n + 1) + v := by
      rw [pow_succ, ← mul_assoc]
      omega
    rw [hexPad, append_assoc, ih hdiv]
    simp only [singleton_append, digitRun, digit_hexDigit _ (Nat.mod_lt v (by omega : 0 < 16)), hval]

theorem digitRun_blank (acc : Nat) (s : Str) : digitRun 16 acc (' ' :: s) = (acc, ' ' :: s) := by
  have hdigit : digit 16 ' ' = none := by decide
  simp only [digitRun, hdigit]

theorem skip0x_of_ne {a b : Char} (hx : b ≠ 'x') (hX : b ≠ 'X') (s : Str) : skip0x (a :: b :: s) = a :: b :: s := by
  unfold skip0x
  split
  · rename_i heq
    obtain ⟨rfl, rfl, rfl⟩ := heq
    simp [hx, hX]
  · rfl

theorem scanNumber_digits {c : Char} {s : Str} (hsp : isspace c = false) (hminus : c ≠ '-') (hplus : c ≠ '+')
    (hdigit : (digit 16 c).isSome) (hskip : skip0x (c :: s) = c :: s) :
    scanNumber 16 (c :: s) = some (clamp 16 false (digitRun 16 0 (c :: s)).1, (digitRun 16 0 (c :: s)).2) := by
  have hdrop : (c :: s).dropWhile isspace = c :: s := by simp [hsp]
  unfold scanNumber
  simp [hdrop, hminus, hplus, hskip, hdigit]

theorem scanNumber_hexPad (hn : 2 ≤ n) (h : v < 16 ^ n) (hv : v < 2 ^ 32) (s : Str) :
    scanNumber 16 (hexPad n v ++ ' ' :: s) = some (BitVec.ofNat 32 v, ' ' :: s) := by
  have hrun := digitRun_hexPad h 0 (' ' :: s)
  rw [digitRun_blank, zero_mul, zero_add] at hrun
  obtain ⟨a, b, t, heq⟩ : ∃ a b t, hexPad n v = a :: b :: t := by
    have hlen := length_hexPad n v
    match hp : hexPad n v with
    | [] => simp [hp] at hlen; omega
    | [_] => simp [hp] at hlen; omega
    | a :: b :: t => exact ⟨a, b, t, rfl⟩
  obtain ⟨i, hi, rfl⟩ : ∃ d < 16, a = hexDigit d := mem_hexPad (n := n) (v := v) (by simp [heq])
  obtain ⟨j, hj, rfl⟩ : ∃ d < 16, b = hexDigit d := mem_hexPad (n := n) (v := v) (by simp [heq])
  obtain ⟨hsp, hminus, hplus, -, -⟩ := hexDigit_plain i hi
  obtain ⟨-, -, -, hx, hX⟩ := hexDigit_plain j hj
  rw [heq] at hrun ⊢
  simp only [cons_append] at hrun ⊢
  rw [scanNumber_digits hsp hminus hplus (by simp [digit_hexDigit i hi]) (skip0x_of_ne hx hX _), hrun]
  simp only [clamp, if_pos hv]
  simp

theorem hexItem_hexPad (hn : 2 ≤ n) (h : v < 16 ^ n) (hv : v < 2 ^ 32)
    (hws : ∀ c ∈ ws, isspace c = true) (s : Str) : hexItem
    (ws ++ '0' :: 'x' :: (hexPad n v ++ ' ' :: s)) = some (BitVec.ofNat 32 v, ' ' :: s) := by
  have hdrop : (ws ++ '0' :: 'x' :: (hexPad n v ++ ' ' :: s)).dropWhile isspace =
    '0' :: 'x' :: (hexPad n v ++ ' ' :: s) := by
    rw [dropWhile_append_of_pos hws]
    simp [isspace]
  unfold hexItem
  rw [hdrop]
  simp only [scanNumber_hexPad hn h hv]

theorem hexItem_blank (hws : ∀ c ∈ ws, isspace c = true) : hexItem ws = none := by
  have hdrop : ws.dropWhile isspace = [] := dropWhile_eq_nil_iff.mpr hws
  unfold hexItem scanNumber
  simp [hdrop]

/-! ## Characters of a text -/

section chars

variable {P : Char → Prop} {n ind : Nat} {newline : Nat → Bool}

theorem all_newline (hsp : P ' ') (hnl : P '\n') (p : Prop) [Decidable p] :
    ∀ c ∈ (if p then '\n' :: indprint ind [] else []), P c := by
  intro c hc
  split at hc
  · simp only [indprint, append_nil, mem_cons, mem_replicate] at hc
    rcases hc with rfl | ⟨-, rfl⟩
    · exact hnl
    · exact hsp
  · simp at hc

theorem all_hexText (hsp : P ' ') (hnl : P '\n') (h0 : P '0') (hx : P 'x') (hd : ∀ v < 16, P (hexDigit v)) (i : Nat)
    (vs : List Nat) : ∀ c ∈ hexText n ind newline i vs, P c := by
  induction vs generalizing i with
  | nil => simp [hexText]
  | cons v vs ih =>
    intro c hc
    simp only [hexText, mem_append, mem_cons] at hc
    rcases hc with hc | hc | hc | rfl | hc
    · exact all_newline hsp hnl _ c hc
    · have hc : c = '0' ∨ c = 'x' := by simpa using hc
      rcases hc with rfl | rfl
      · exact h0
      · exact hx
    · obtain ⟨v, hv, rfl⟩ := mem_hexPad hc
      exact hd v hv
    · exact hsp
    · exact ih (i + 1) c hc

theorem all_strText (hsp : P ' ') (hnl : P '\n') (hcomma : P ',') (hquote : P '"') (len : Nat) (first : Bool)
    (ss : List (List Byte)) (h : ∀ s ∈ ss, ∀ b ∈ s, P (toChar b)) : ∀ c ∈ strText len ind first ss, P c := by
  induction ss generalizing first with
  | nil => simp [strText]
  | cons s ss ih =>
    intro c hc
    simp only [strText, mem_append, mem_cons, cons_append, mem_map] at hc
    rcases hc with hc | hc | rfl | ⟨b, hb, rfl⟩ | rfl | hc
    · split at hc
      · simp at hc
      · have hc : c = ',' ∨ c = ' ' := by simpa using hc
        rcases hc with rfl | rfl
        · exact hcomma
        · exact hsp
    · exact all_newline hsp hnl _ c hc
    · exact hquote
    · exact h s mem_cons_self b hb
    · exact hquote
    · exact ih false (forall_mem_cons.mp h).2 c hc

end chars

theorem newline_blank (ind : Nat) (p : Prop) [Decidable p] :
    ∀ c ∈ (if p then '\n' :: indprint ind [] else []), isspace c = true :=
  all_newline (P := fun c => isspace c = true) rfl rfl p

/-! ## Numbers in a value -/

def itemBytes (refcon v : Nat) : List Byte :=
  if refcon = 1 then [(BitVec.ofNat 32 v).setWidth 8] else wordBytes (BitVec.ofNat 32 v)

theorem hexLoop_hexText (hn : 2 ≤ n) (vs : List Nat) (h : ∀ v ∈ vs, v < 16 ^ n)
    (hv : ∀ v ∈ vs, v < 2 ^ 32) (i fuel : Nat) (hfuel : vs.length < fuel) (ws : Str)
    (hws : ∀ c ∈ ws, isspace c = true) :
    hexLoop refcon fuel (ws ++ (hexText n ind newline i vs ++ [' '])) = vs.flatMap (itemBytes refcon) := by
  induction vs generalizing i fuel ws with
  | nil =>
    have hblank : ∀ c ∈ ws ++ ([] ++ [' ']), isspace c = true := by
      intro c hc
      rcases mem_append.mp hc with hc | hc
      · exact hws c hc
      · simp at hc
        subst hc
        rfl
    cases fuel with
    | zero => rfl
    | succ fuel => simp only [hexText, hexLoop, hexItem_blank hblank, flatMap_nil]
  | cons v vs ih =>
    obtain ⟨fuel, rfl⟩ : ∃ k, fuel = k + 1 := ⟨fuel - 1, by simp at hfuel; omega⟩
    have hws' : ∀ c ∈ ws ++ (if newline i then '\n' :: indprint ind [] else []), isspace c = true := by
      intro c hc
      rcases mem_append.mp hc with hc | hc
      · exact hws c hc
      · exact newline_blank ind _ c hc
    have htext : ws ++ (hexText n ind newline i (v :: vs) ++ [' ']) =
        (ws ++ (if newline i then '\n' :: indprint ind [] else [])) ++
          '0' :: 'x' :: (hexPad n v ++ ' ' :: (hexText n ind newline (i + 1) vs ++ [' '])) := by
      simp [hexText]
    have hblank : ∀ c ∈ [' '], isspace c = true := all_eq_true.mp rfl
    have hrest := ih (forall_mem_cons.mp h).2 (forall_mem_cons.mp hv).2 (i + 1) fuel
      (by simp at hfuel; omega) [' '] hblank
    rw [htext, hexLoop, hexItem_hexPad hn (h v mem_cons_self) (hv v mem_cons_self) hws']
    simp only [flatMap_cons]
    rw [← hrest]
    rfl

theorem itemBytes_byte (b : Byte) : itemBytes 1 b.toNat = [b] := by
  have hb : (BitVec.ofNat 32 b.toNat).setWidth 8 = b := by
    apply BitVec.eq_of_toNat_eq
    simp only [BitVec.toNat_setWidth, BitVec.toNat_ofNat]
    omega
  rw [itemBytes, if_pos rfl, hb]

theorem flatMap_itemBytes_byte (value : List Byte) : (value.map BitVec.toNat).flatMap (itemBytes 1) = value := by
  induction value with
  | nil => rfl
  | cons b value ih =>
    rw [map_cons, flatMap_cons, ih, itemBytes_byte]
    rfl

theorem wordBytes_append (a b c d : Byte) : wordBytes (a ++ b ++ c ++ d : BitVec 32) = [a, b, c, d] := by
  simp only [wordBytes, cons.injEq, and_true]
  refine ⟨?_, ?_, ?_, ?_⟩
  all_goals
    apply BitVec.eq_of_getLsbD_eq
    intro i hi
    simp only [BitVec.getLsbD_setWidth]
    grind

theorem flatMap_itemBytes_word (value : List Byte) (h : value.length % 4 = 0) :
    ((words value).map BitVec.toNat).flatMap (itemBytes 4) = value := by
  induction value using words.induct with
  | case1 a b c d rest ih =>
    have hrest := ih (by simp at h; omega)
    simp only [words, map_cons, flatMap_cons, hrest, itemBytes]
    simp [wordBytes_append]
  | case2 value hne =>
    match value with
    | [] => rfl
    | [_] | [_, _] | [_, _, _] => simp at h
    | a :: b :: c :: d :: rest => exact absurd rfl (hne a b c d rest)

/-! ## Strings -/

theorem toByte_toChar (b : Byte) : toByte (toChar b) = b := by
  revert b
  decide +kernel

theorem stringLoop_on (s : List Byte) (h : ∀ b ∈ s, toChar b ≠ '"') (t : Str) :
    stringLoop true (s.map toChar ++ '"' :: t) = s ++ stringLoop false t := by
  induction s with
  | nil => simp [stringLoop]
  | cons b s ih =>
    have hb := h b mem_cons_self
    simp only [map_cons, cons_append, stringLoop, if_neg hb, if_true, toByte_toChar]
    rw [ih (forall_mem_cons.mp h).2]

theorem stringLoop_blank (hws : ∀ c ∈ ws, isspace c = true) (t : Str) : stringLoop false
    (ws ++ t) = stringLoop false t := by
  induction ws with
  | nil => rfl
  | cons c ws ih =>
    have hc := hws c mem_cons_self
    have hquote : c ≠ '"' := by
      rintro rfl
      revert hc
      decide
    have hcomma : c ≠ ',' := by
      rintro rfl
      revert hc
      decide
    simp only [cons_append, stringLoop, if_neg hquote, if_neg hcomma]
    exact ih (forall_mem_cons.mp hws).2

theorem stringLoop_strText (len ind : Nat) (ss : List (List Byte)) (h : ∀ s ∈ ss, ∀ b ∈ s, toChar b ≠ '"') (t : Str) :
    stringLoop false (strText len ind false ss ++ t) = ss.flatMap (fun s => 0 :: s) ++ stringLoop false t := by
  induction ss with
  | nil => rfl
  | cons s ss ih =>
    have htext : strText len ind false (s :: ss) ++ t =
        ',' :: ([' '] ++ ((if 50 < len then '\n' :: indprint ind [] else []) ++
          '"' :: (s.map toChar ++ '"' :: (strText len ind false ss ++ t)))) := by
      simp [strText]
    have hblank : ∀ c ∈ [' '], isspace c = true := all_eq_true.mp rfl
    have hcomma (u : Str) : stringLoop false (',' :: u) = 0 :: stringLoop false u := by simp [stringLoop]
    have hquote (u : Str) : stringLoop false ('"' :: u) = stringLoop true u := by simp [stringLoop]
    rw [htext, hcomma, stringLoop_blank hblank, stringLoop_blank (newline_blank ind _), hquote,
      stringLoop_on s (h s mem_cons_self), ih (forall_mem_cons.mp h).2]
    simp

theorem cstrings_ne_nil (h : value ≠ []) : cstrings value ≠ [] := by
  cases value with
  | nil => exact absurd rfl h
  | cons b bs =>
    rw [cstrings]
    split
    · simp
    · split <;> simp

theorem flatMap_cstrings (value : List Byte) (h : value.getLast? = some 0) :
    (cstrings value).flatMap (fun s => s ++ [0]) = value := by
  induction value with
  | nil => rfl
  | cons b bs ih =>
    cases bs with
    | nil =>
      obtain rfl : b = 0 := by simpa using h
      rfl
    | cons b' bs =>
      have hrest := ih (by simpa using h)
      rw [cstrings]
      split
      · rename_i hb
        rw [flatMap_cons, hrest, hb]
        rfl
      · cases hc : cstrings (b' :: bs) with
        | nil => exact absurd hc (cstrings_ne_nil (by simp))
        | cons s ss =>
          rw [hc, flatMap_cons] at hrest
          simp only [flatMap_cons, cons_append, hrest]

theorem mem_cstrings {s : List Byte} {b : Byte} (hs : s ∈ cstrings value) (hb : b ∈ s) : b ∈ value := by
  induction value generalizing s with
  | nil => simp [cstrings] at hs
  | cons x xs ih =>
    rw [cstrings] at hs
    split at hs
    · rcases mem_cons.mp hs with rfl | hs
      · simp at hb
      · exact mem_cons_of_mem _ (ih hs hb)
    split at hs
    · obtain rfl := mem_singleton.mp hs
      exact mem_cons.mpr (.inl (mem_singleton.mp hb))
    rename_i s' ss heq
    rcases mem_cons.mp hs with rfl | hs
    · rcases mem_cons.mp hb with rfl | hb
      · exact mem_cons_self
      · exact mem_cons_of_mem _ (ih (heq ▸ mem_cons_self) hb)
    · exact mem_cons_of_mem _ (ih (heq ▸ mem_cons_of_mem _ hs) hb)

theorem stringFormat_strText (len ind : Nat) (hlast : value.getLast? = some 0)
    (h : ∀ b ∈ value, toChar b ≠ '"') (hws : ∀ c ∈ ws, isspace c = true) :
    stringFormat (ws ++ (strText len ind true (cstrings value) ++ [' '])) = value := by
  have hne : value ≠ [] := by
    rintro rfl
    simp at hlast
  have hjoin := flatMap_cstrings value hlast
  have hmem : ∀ s ∈ cstrings value, ∀ b ∈ s, toChar b ≠ '"' := fun s hs b hb => h b (mem_cstrings hs hb)
  cases hc : cstrings value with
  | nil => exact absurd hc (cstrings_ne_nil hne)
  | cons s ss =>
    rw [hc] at hjoin hmem
    have htext : strText len ind true (s :: ss) ++ [' '] =
        (if 50 < len then '\n' :: indprint ind [] else []) ++
          '"' :: (s.map toChar ++ '"' :: (strText len ind false ss ++ [' '])) := by
      simp [strText]
    have hquote (u : Str) : stringLoop false ('"' :: u) = stringLoop true u := by simp [stringLoop]
    have hend : stringLoop false [' '] = [] := by decide
    -- each comma stands for the zero of the string before it
    have hshift (xs : List (List Byte)) : xs.flatMap (fun x => 0 :: x) ++ [0] =
      0 :: xs.flatMap (fun x => x ++ [0]) := by
      induction xs with
      | nil => rfl
      | cons x xs ih =>
        rw [flatMap_cons, append_assoc, ih]
        simp
    rw [stringFormat, stringLoop_blank hws, htext, stringLoop_blank (newline_blank ind _), hquote,
      stringLoop_on s (hmem s mem_cons_self), stringLoop_strText len ind ss (forall_mem_cons.mp hmem).2, hend,
      append_nil, append_assoc, hshift, ← hjoin]
    simp

/-! ## Formats -/

def valueFormat (value : List Byte) : Str :=
  if likelyString value then "<str>".toList
  else if value.length % 4 = 0 then "<word>".toList
  else "<byte>".toList

def valueBody (ind : Nat) (value : List Byte) : Str :=
  if likelyString value then
    " \t".toList ++ (strText value.length (ind + indentValue) true (cstrings value) ++ [' '])
  else if value.length % 4 = 0 then
    '\t' :: (hexText 8 (ind + indentValue) (fun i => 8 < value.length && i % wordsPerLine value.length = 0) 0
      ((words value).map BitVec.toNat) ++ [' '])
  else
    '\t' :: (hexText 2 (ind + indentValue) (fun i => i % 12 = 0 && 8 < value.length) 0
      (value.map BitVec.toNat) ++ [' '])

theorem valueText_eq (ind : Nat) (h : value ≠ []) :
    valueText ind value = valueFormat value ++ ' ' :: valueBody ind value := by
  unfold valueText valueFormat valueBody
  rw [if_neg h]
  split
  · simp
  split
  · simp
  · simp

theorem hexFormat_of_no {s : Str}
    (h : '(' ∉ s) (refcon : Nat) : hexFormat refcon s = hexLoop refcon (s.length + 1) s := by
  have hdrop : s.dropWhile (· ≠ '(') = [] := by
    rw [dropWhile_eq_nil_iff]
    intro c hc
    have : c ≠ '(' := fun heq => h (heq ▸ hc)
    simp [this]
  rw [hexFormat, hdrop]

theorem length_hexText_ge (n ind : Nat) (newline : Nat → Bool) (i : Nat) (vs : List Nat) :
    vs.length ≤ (hexText n ind newline i vs).length := by
  induction vs generalizing i with
  | nil => simp
  | cons v vs ih =>
    have := ih (i + 1)
    simp only [hexText, length_append, length_cons]
    omega

theorem hexFormat_hexText (hn : 2 ≤ n) (vs : List Nat) (h : ∀ v ∈ vs, v < 16 ^ n)
    (hv : ∀ v ∈ vs, v < 2 ^ 32) :
    hexFormat refcon (' ' :: '\t' :: (hexText n ind newline 0 vs ++ [' '])) = vs.flatMap (itemBytes refcon) := by
  have hno : '(' ∉ ' ' :: '\t' :: (hexText n ind newline 0 vs ++ [' ']) := by
    have hall : ∀ c ∈ hexText n ind newline 0 vs, c ≠ '(' :=
      all_hexText (by decide) (by decide) (by decide) (by decide) (by decide) 0 vs
    simp only [mem_cons, mem_append]
    rintro (hc | hc | hc | hc)
    · revert hc
      decide
    · revert hc
      decide
    · exact hall _ hc rfl
    · revert hc
      decide
  have hblank : ∀ c ∈ [' ', '\t'], isspace c = true := all_eq_true.mp rfl
  have hlen := length_hexText_ge n ind newline 0 vs
  rw [hexFormat_of_no hno]
  exact hexLoop_hexText hn vs h hv 0 _ (by simp; omega) [' ', '\t'] hblank

def readBody (format s : Str) : List Byte :=
  if format = "<byte>".toList then hexFormat 1 s
  else if format = "<word>".toList then hexFormat 4 s
  else if format = "<str>".toList then stringFormat s
  else []

theorem readBody_byte (s : Str) : readBody "<byte>".toList s = hexFormat 1 s := by simp [readBody]
theorem readBody_word (s : Str) : readBody "<word>".toList s = hexFormat 4 s := by simp [readBody]

theorem readBody_valueBody (ind : Nat) (h : likelyString value = true → ∀ b ∈ value, toChar b ≠ '"') :
    readBody (valueFormat value) (' ' :: valueBody ind value) = value := by
  unfold valueFormat valueBody
  split
  · rename_i hstr
    have hlast : value.getLast? = some 0 := by
      simp only [likelyString, Bool.and_eq_true, beq_iff_eq] at hstr
      exact hstr.2
    have hblank : ∀ c ∈ [' ', ' ', '\t'], isspace c = true := all_eq_true.mp rfl
    have hread := stringFormat_strText value.length (ind + indentValue) hlast (h hstr) hblank
    exact hread
  · split
    · rename_i hlen
      rw [readBody_word, hexFormat_hexText (by omega), flatMap_itemBytes_word value hlen]
      · intro v hv
        obtain ⟨w, -, rfl⟩ := mem_map.mp hv
        exact w.isLt
      · intro v hv
        obtain ⟨w, -, rfl⟩ := mem_map.mp hv
        exact w.isLt
    · rw [readBody_byte, hexFormat_hexText (by omega), flatMap_itemBytes_byte]
      · intro v hv
        obtain ⟨b, -, rfl⟩ := mem_map.mp hv
        exact b.isLt
      · intro v hv
        obtain ⟨b, -, rfl⟩ := mem_map.mp hv
        omega

end MacOnLinux.Prom
