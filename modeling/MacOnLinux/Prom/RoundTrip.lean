import MacOnLinux.Prom.Fields
import MacOnLinux.Prom.Handles

/-! # Export and import -/

namespace MacOnLinux.Prom

variable {path s : Str}

open Function List

variable {buf tail rest out t body : Str} {c : Char} {fuel ind : Nat} {d : Node}

/-! ## Braces -/

def skim (s : Str) : Str := s.dropWhile notBrace

/-- Two texts in which `read_node` finds the same. -/
def Leads (t buf : Str) : Prop := skim buf = skim t ∨ ('{' ∉ buf ∧ '{' ∉ t)

/-- A level ends with `tail`, and `rest` comes after it. -/
def Closes (tail rest : Str) : Prop := skim tail = '}' :: rest ∨ ('{' ∉ tail ∧ '{' ∉ rest)

def NoBrace (s : Str) : Prop := ∀ c ∈ s, notBrace c = true

theorem noBrace_lit (h : t.all notBrace = true) : NoBrace t := all_eq_true.mp h

theorem NoBrace.append (h : NoBrace s) (h' : NoBrace t) : NoBrace (s ++ t) := by
  intro c hc
  rcases mem_append.mp hc with hc | hc
  · exact h c hc
  · exact h' c hc

theorem NoBrace.cons (hc : notBrace c = true) (h : NoBrace t) : NoBrace (c :: t) := by
  intro a ha
  rcases mem_cons.mp ha with rfl | ha
  · exact hc
  · exact h a ha

theorem noBrace_indprint (ind : Nat) (h : NoBrace t) : NoBrace (indprint ind t) := by
  refine NoBrace.append (fun c hc => ?_) h
  rw [(mem_replicate.mp hc).2]
  rfl

theorem skim_append (h : NoBrace t) (s : Str) : skim (t ++ s) = skim s := dropWhile_append_of_pos h

theorem skim_brace (h : notBrace c = false) (s : Str) : skim (c :: s) = c :: s := by simp [skim, h]

theorem mem_skim (hc : notBrace c = false) : c ∈ skim t ↔ c ∈ t := by
  constructor
  · exact fun h => (dropWhile_sublist _).subset h
  · intro h
    rw [← takeWhile_append_dropWhile (p := notBrace) (l := t), mem_append] at h
    refine h.resolve_left fun hm => ?_
    rw [mem_takeWhile_imp hm] at hc
    cases hc

theorem Leads.open_mem (h : Leads t buf) : '{' ∈ buf ↔ '{' ∈ t := by
  rcases h with h | ⟨hb, ht⟩
  · rw [← mem_skim rfl, h, mem_skim rfl]
  · exact iff_of_false hb ht

theorem Leads.skim_eq (h : Leads t buf) (ht : '{' ∈ t) : skim buf = skim t := h.resolve_right fun hn => hn.2 ht

theorem Leads.drop (hs : NoBrace s) (h : Leads (s ++ t) buf) : Leads t buf := by
  rcases h with h | ⟨hb, ht⟩
  · rw [skim_append hs] at h
    exact .inl h
  · exact .inr ⟨hb, fun hm => ht (mem_append_right _ hm)⟩

theorem readText_stop (h : '{' ∉ buf) : readText (fuel + 1) buf = (.nil, buf) := by
  rw [readText, if_pos (.inl h)]

theorem readText_close (h : skim buf = '}' :: rest) (hopen : '{' ∈ buf) : readText (fuel + 1) buf = (.nil, rest) := by
  have hclose : '}' ∈ buf := (mem_skim rfl).mp (by rw [h]; exact mem_cons_self)
  unfold skim at h
  rw [readText, if_neg (by simp [hopen, hclose]), h]
  simp

theorem readText_nil (fuel : Nat) (hb : Leads tail buf) (hc : Closes tail rest) :
    ∃ out, readText (fuel + 1) buf = (.nil, out) ∧ Leads rest out := by
  by_cases hopen : '{' ∈ buf
  · have htail := hb.open_mem.mp hopen
    have hskim := hc.resolve_right fun hn => hn.1 htail
    rw [← hb.skim_eq htail] at hskim
    exact ⟨rest, readText_close hskim hopen, .inl rfl⟩
  refine ⟨buf, readText_stop hopen, .inr ⟨hopen, ?_⟩⟩
  rcases hc with hc | hc
  · intro hm
    refine hopen (hb.open_mem.mpr ((mem_skim rfl).mp ?_))
    rw [hc]
    exact mem_cons_of_mem _ hm
  · exact hc.2

theorem takeWhile_body (h : NoBrace body) (hc : notBrace c = false) (s : Str) :
    (body ++ c :: s).takeWhile notBrace = body ∧ (body ++ c :: s).dropWhile notBrace = c :: s := by
  constructor
  · rw [takeWhile_append_of_pos h]
    simp [hc]
  · rw [dropWhile_append_of_pos h]
    simp [hc]

theorem readText_leaf (h : skim buf = '{' :: (body ++ '}' :: rest)) (hbody : NoBrace body) :
    readText (fuel + 1) buf = (.node body .nil (readText fuel rest).1, (readText fuel rest).2) := by
  have hopen : '{' ∈ buf := (mem_skim rfl).mp (by rw [h]; exact mem_cons_self)
  have hclose : '}' ∈ buf := (mem_skim rfl).mp (by rw [h]; simp)
  obtain ⟨htake, hdrop⟩ := takeWhile_body hbody (c := '}') rfl rest
  unfold skim at h
  rw [readText, if_neg (by simp [hopen, hclose]), h]
  simp [htake, hdrop]

theorem readText_parent (h : skim buf = '{' :: (body ++ '{' :: rest)) (hbody : NoBrace body) (hclose : '}' ∈ rest) :
    readText (fuel + 1) buf =
      (.node body (readText fuel ('{' :: rest)).1 (readText fuel (readText fuel ('{' :: rest)).2).1,
        (readText fuel (readText fuel ('{' :: rest)).2).2) := by
  have hopen : '{' ∈ buf := (mem_skim rfl).mp (by rw [h]; exact mem_cons_self)
  have hclose : '}' ∈ buf := (mem_skim rfl).mp (by rw [h]; simp [hclose])
  obtain ⟨htake, hdrop⟩ := takeWhile_body hbody (c := '{') rfl rest
  unfold skim at h
  rw [readText, if_neg (by simp [hopen, hclose]), h]
  simp [htake, hdrop]

/-! ## Texts without braces -/

theorem noBrace_hexPad (n v : Nat) : NoBrace (hexPad n v) := by
  have hdigit : ∀ v < 16, notBrace (hexDigit v) = true := by decide
  intro c hc
  obtain ⟨v, hv, rfl⟩ := mem_hexPad hc
  exact hdigit v hv

theorem noBrace_valueText (ind : Nat) {value : List Byte}
    (h : likelyString value = true → ∀ b ∈ value, notBrace (toChar b) = true) :
    NoBrace (valueText ind value) := by
  have hdigit : ∀ v < 16, notBrace (hexDigit v) = true := by decide
  have hhex (n : Nat) (newline : Nat → Bool) (vs : List Nat) :
      NoBrace (hexText n (ind + indentValue) newline 0 vs ++ [' ']) :=
    NoBrace.append (all_hexText (P := fun c => notBrace c = true) rfl rfl rfl rfl hdigit 0 vs) (noBrace_lit rfl)
  unfold valueText
  split
  · exact fun c hc => absurd hc (by simp)
  split
  · rename_i hstr
    have hbody : NoBrace (strText value.length (ind + indentValue) true (cstrings value)) :=
      all_strText (P := fun c => notBrace c = true) rfl rfl rfl rfl _ _ _ fun s hs b hb => h hstr b (mem_cstrings hs hb)
    exact NoBrace.append (noBrace_lit rfl) (hbody.append (noBrace_lit rfl))
  split
  · exact NoBrace.append (noBrace_lit rfl) (hhex 8 _ _)
  · exact NoBrace.append (noBrace_lit rfl) (hhex 2 _ _)

theorem noBrace_propertyText (ind : Nat) {p : Property} (h : p.Plain) : NoBrace (propertyText ind p) := by
  have hpad : NoBrace (replicate (18 - p.name.length) ' ') := by
    intro c hc
    rw [(mem_replicate.mp hc).2]
    rfl
  have hname : NoBrace p.name := h.word.noBrace
  apply noBrace_indprint
  refine NoBrace.append (noBrace_lit rfl) ((hname.append hpad).append ?_)
  exact NoBrace.cons rfl ((noBrace_valueText ind h.noBrace).append (noBrace_lit rfl))

theorem noBrace_fieldsText (ind : Nat) (h : d.Plain) : NoBrace (fieldsText ind d) := by
  have hnil : NoBrace [] := fun c hc => absurd hc (by simp)
  have hunit : NoBrace (unitText ind d.unitString) := by
    unfold unitText
    split
    · exact hnil
    · rename_i unit hu
      have hword : NoBrace unit := (h.unit unit hu).noBrace
      split
      · exact hnil
      · exact noBrace_indprint _ (NoBrace.append (noBrace_lit rfl) (hword.append (noBrace_lit rfl)))
  have hphandle : NoBrace (phandleText ind d.node) := by
    unfold phandleText
    split
    · exact noBrace_indprint _ (NoBrace.append (noBrace_lit rfl) ((noBrace_hexPad _ _).append (noBrace_lit rfl)))
    · exact hnil
  refine hunit.append (hphandle.append fun c hc => ?_)
  obtain ⟨p, hp, hc⟩ := mem_flatMap.mp hc
  exact noBrace_propertyText ind (h.properties p hp) c hc

/-! ## Comments -/

def OneLine (s : Str) : Prop := ∀ c ∈ s, isprint c = true ∧ notBrace c = true

theorem isprint_of_isgraph (h : isgraph c = true) : isprint c = true := by
  simp only [isgraph, Bool.and_eq_true, decide_eq_true_eq] at h
  simp only [isprint, Bool.and_eq_true, decide_eq_true_eq]
  omega

theorem oneLine_lit (h : t.all (fun c => isprint c && notBrace c) = true) : OneLine t := by
  intro c hc
  simpa using all_eq_true.mp h c hc

theorem OneLine.append (h : OneLine s) (h' : OneLine t) : OneLine (s ++ t) := by
  intro c hc
  rcases mem_append.mp hc with hc | hc
  · exact h c hc
  · exact h' c hc

theorem OneLine.noBrace (h : OneLine t) : NoBrace t := fun c hc => (h c hc).2

theorem OneLine.line (h : OneLine t) : ∀ c ∈ t, c ≠ '\n' ∧ c ≠ '\r' := by
  intro c hc
  have hprint := (h c hc).1
  constructor
  · rintro rfl
    revert hprint
    decide
  · rintro rfl
    revert hprint
    decide

theorem oneLine_fullName (depth : Nat) (hpath : OneLine path) (h : d.Plain) : OneLine
    (fullName path depth d) := by
  have hnil : OneLine [] := fun c hc => absurd hc (by simp)
  have hslash : OneLine ['/'] := oneLine_lit rfl
  have hname : OneLine (nameOf d.properties) := h.name
  refine hpath.append (OneLine.append ?_ (OneLine.append ?_ ?_))
  · split
    · exact hnil
    · exact hslash
  · split
    · exact hnil
    · exact hname
  split
  · exact hnil
  rename_i unit hu
  have hword := h.unit unit hu
  intro c hc
  rcases mem_cons.mp hc with rfl | hc
  · decide
  · exact ⟨isprint_of_isgraph (hword.graph c hc), hword.noBrace c hc⟩

theorem oneLine_take (n : Nat) (h : OneLine path) : OneLine (path.take n) :=
  fun c hc => h c (mem_of_mem_take hc)

theorem noBrace_commentText (ind : Nat) (hpath : OneLine path) (h : d.Plain) : NoBrace
    (commentText ind path d) := by
  have hname : NoBrace (nameOf d.properties) := (show OneLine (nameOf d.properties) from h.name).noBrace
  have hnl : NoBrace ['\n'] := noBrace_lit rfl
  have hhash : NoBrace (indprint ind "#\n".toList) := noBrace_indprint ind (noBrace_lit rfl)
  refine hhash.append (NoBrace.append (noBrace_indprint ind ?_) (NoBrace.append (noBrace_indprint ind ?_) hhash))
  · exact NoBrace.append (noBrace_lit rfl) (hname.append (noBrace_lit rfl))
  · exact NoBrace.append (noBrace_lit rfl) ((oneLine_take 255 hpath).noBrace.append hnl)

theorem hidden_indent (ind : Nat) (s : Str) : hidden false (indprint ind s) = hidden false s := by
  induction ind with
  | zero => rfl
  | succ ind ih =>
    exact ih

theorem hidden_comment (ind : Nat) {l : Str} (h : ∀ c ∈ l, c ≠ '\n' ∧ c ≠ '\r') (s : Str) :
    hidden false (indprint ind ('#' :: (l ++ '\n' :: s))) = hidden false s := by
  have hline : hidden true (l ++ '\n' :: s) = hidden false s := by
    induction l with
    | nil => rfl
    | cons c l ih =>
      have hc := h c mem_cons_self
      have hsee : see c true = true := by simp [see, hc.1, hc.2]
      rw [cons_append, hidden, hsee, ih (forall_mem_cons.mp h).2]
      simp
  rw [hidden_indent]
  exact hline

theorem hidden_commentText (ind : Nat) (hpath : OneLine path) (h : d.Plain) (s : Str) :
    hidden false (commentText ind path d ++ s) = hidden false s := by
  have hname : OneLine (nameOf d.properties) := h.name
  have hstars : OneLine " **************** NODE ".toList ∧ OneLine " ***************".toList ∧ OneLine [' '] :=
    ⟨oneLine_lit rfl, oneLine_lit rfl, oneLine_lit rfl⟩
  have htext : commentText ind path d ++ s =
      indprint ind ('#' :: ([] ++ '\n' :: indprint ind ('#' :: ((" **************** NODE ".toList ++
        (nameOf d.properties ++ " ***************".toList)) ++ '\n' ::
        indprint ind ('#' :: (([' '] ++ path.take 255) ++ '\n' :: indprint ind ('#' :: ([] ++ '\n' :: s)))))))) := by
    have hhash : "#\n".toList = ['#', '\n'] := rfl
    have hnode : "# **************** NODE ".toList = '#' :: " **************** NODE ".toList := rfl
    have hend : " ***************\n".toList = " ***************".toList ++ ['\n'] := rfl
    have hpath : "# ".toList = ['#', ' '] := rfl
    unfold commentText indprint
    rw [hhash, hnode, hend, hpath]
    simp
  have hnil : ∀ c ∈ ([] : Str), c ≠ '\n' ∧ c ≠ '\r' := by simp
  rw [htext, hidden_comment ind hnil, hidden_comment ind (hstars.1.append (hname.append hstars.2.1)).line,
    hidden_comment ind (hstars.2.2.append (oneLine_take 255 hpath)).line, hidden_comment ind hnil]

/-! ## read_node -/

def Forest.All {β : Type} (P : β → Prop) : Forest β → Prop
  | .nil => True
  | .node d c s => P d ∧ c.All P ∧ s.All P

def Forest.size {β : Type} : Forest β → Nat
  | .nil => 0
  | .node _ c s => c.size + s.size + 1

def coreText (path : Str) (depth ind : Nat) (d : Node) (child sibling : Forest Node) : Str :=
  '\n' :: (fieldsText (ind + indentValue) d ++ ((if child = .nil then []
      else indprint (ind + indentValue) ['\n'] ++ exportNode (fullName path depth d) (depth + 1)
        (ind + indentValue) child) ++
    (indprint ind "\x7d\n".toList ++ exportNode path depth ind sibling)))

theorem exportNode_node (path : Str) (depth ind : Nat) (d : Node) (child sibling : Forest Node) :
    exportNode path depth ind (.node d child sibling) =
      (commentText ind (fullName path depth d) d ++ indprint ind []) ++
        '{' :: coreText path depth ind d child sibling := by
  have hdrop : nameOf d.properties ∉ dropNodes := by
    unfold dropNodes
    simp
  have hbrace : "\x7b\n".toList = ['{', '\n'] := rfl
  conv_lhs => unfold exportNode
  rw [if_neg hdrop, hbrace]
  unfold coreText indprint
  simp

theorem skim_exportNode (depth ind : Nat) (hpath : OneLine path) (hd : d.Plain)
    (child sibling : Forest Node) (tail : Str) :
    skim (exportNode path depth ind (.node d child sibling) ++ tail) =
      '{' :: (coreText path depth ind d child sibling ++ tail) := by
  have hname := oneLine_fullName depth hpath hd
  have hno : NoBrace (commentText ind (fullName path depth d) d ++ indprint ind []) :=
    (noBrace_commentText ind hname hd).append (noBrace_indprint ind fun c hc => absurd hc (by simp))
  rw [exportNode_node, append_assoc, skim_append hno, cons_append, skim_brace rfl]

theorem closes_children (ind : Nat) (s : Str) : Closes (indprint ind ('}' :: s)) s := by
  have hno : NoBrace (indprint ind []) := noBrace_indprint ind fun c hc => absurd hc (by simp)
  have htext : indprint ind ('}' :: s) = indprint ind [] ++ '}' :: s := by
    unfold indprint
    simp
  refine .inl ?_
  rw [htext, skim_append hno, skim_brace rfl]

theorem buildNode_text (ind : Nat) (hd : d.Plain) (hrest : hidden false rest = true) :
    buildNode ('\n' :: (fieldsText ind d ++ rest)) = d.desc := by
  rw [fieldsText_eq]
  exact buildNode_lines ind hd hrest

def childHead (ind : Nat) (path : Str) (d : Node) : Str :=
  indprint ind ['\n'] ++ (commentText ind path d ++ indprint ind [])

theorem noBrace_childHead (ind : Nat) (hpath : OneLine path) (hd : d.Plain) : NoBrace
    (childHead ind path d) := by
  have hnl : NoBrace ['\n'] := noBrace_lit rfl
  exact (noBrace_indprint ind hnl).append ((noBrace_commentText ind hpath hd).append
    (noBrace_indprint ind fun c hc => absurd hc (by simp)))

theorem hidden_childHead (ind : Nat) (hpath : OneLine path) (hd : d.Plain) : hidden false
    (childHead ind path d) = true := by
  have htext : childHead ind path d = indprint ind ('\n' :: (commentText ind path d ++ indprint ind [])) := by
    unfold childHead indprint
    simp
  have hnl (s : Str) : hidden false ('\n' :: s) = hidden false s := rfl
  rw [htext, hidden_indent, hnl, hidden_commentText ind hpath hd, hidden_indent]
  rfl

theorem readText_exportNode (f : Forest Node) (hf : f.All Node.Plain) (path : Str) (hpath : OneLine path)
    (depth ind : Nat)
    (hb : Leads (exportNode path depth ind f ++ tail) buf) (hc : Closes tail rest) (hfuel : f.size < fuel) :
    ∃ g out, readText fuel buf = (g, out) ∧ g.map buildNode = f.map Node.desc ∧ Leads rest out := by
  obtain ⟨fuel, rfl⟩ : ∃ k, fuel = k + 1 := ⟨fuel - 1, by omega⟩
  induction f generalizing path depth ind tail buf rest fuel with
  | nil =>
    obtain ⟨out, hread, hout⟩ := readText_nil fuel hb hc
    exact ⟨.nil, out, hread, rfl, hout⟩
  | node d child sibling ihc ihs =>
    obtain ⟨hd, hchild, hsibling⟩ := hf
    rw [Forest.size] at hfuel
    obtain ⟨fuel, rfl⟩ : ∃ k, fuel = k + 1 := ⟨fuel - 1, by omega⟩
    have hnl : NoBrace ['\n'] := noBrace_lit rfl
    have hend : "\x7d\n".toList = ['}', '\n'] := rfl
    have hfields := noBrace_fieldsText (ind + indentValue) hd
    have hskim : skim buf = '{' :: (coreText path depth ind d child sibling ++ tail) := by
      have heq := skim_exportNode depth ind hpath hd child sibling tail
      have hopen : '{' ∈ exportNode path depth ind (.node d child sibling) ++ tail :=
        (mem_skim rfl).mp (by rw [heq]; exact mem_cons_self)
      rw [hb.skim_eq hopen, heq]
    -- the siblings are read from any text that leads to them
    have hsiblings (next : Str) (hnext : Leads ('\n' :: (exportNode path depth ind sibling ++ tail)) next) :
        ∃ g out, readText (fuel + 1) next = (g, out) ∧ g.map buildNode = sibling.map Node.desc ∧ Leads rest out :=
      ihs hsibling path hpath depth ind (Leads.drop hnl hnext) hc fuel (by omega)
    cases child with
    | nil =>
      have hcore : coreText path depth ind d .nil sibling ++ tail =
        ('\n' :: (fieldsText (ind + indentValue) d ++ indprint ind [])) ++
          '}' :: ('\n' :: (exportNode path depth ind sibling ++ tail)) := by
        unfold coreText indprint
        rw [hend]
        simp
      have hbody : NoBrace ('\n' :: (fieldsText (ind + indentValue) d ++ indprint ind [])) :=
        NoBrace.cons rfl (hfields.append (noBrace_indprint ind fun c hc => absurd hc (by simp)))
      rw [hcore] at hskim
      obtain ⟨g, out, hread, hmap, hout⟩ := hsiblings _ (.inl rfl)
      rw [readText_leaf hskim hbody, hread]
      refine ⟨_, out, rfl, ?_, hout⟩
      rw [Forest.map, Forest.map, hmap, buildNode_text _ hd (by rw [hidden_indent]; rfl)]
      rfl
    | node d' child' sibling' =>
      have hname := oneLine_fullName depth hpath hd
      have hname' := oneLine_fullName (depth + 1) hname hchild.1
      have hcore : coreText path depth ind d (.node d' child' sibling') sibling ++ tail =
          ('\n' :: (fieldsText (ind + indentValue) d ++
            childHead (ind + indentValue) (fullName (fullName path depth d) (depth + 1) d') d')) ++
          '{' :: (coreText (fullName path depth d) (depth + 1) (ind + indentValue) d' child' sibling' ++
            indprint ind ('}' :: '\n' :: (exportNode path depth ind sibling ++ tail))) := by
        conv_lhs => unfold coreText
        rw [exportNode_node, if_neg (by simp), hend]
        unfold childHead indprint
        simp
      have hbody : NoBrace ('\n' :: (fieldsText (ind + indentValue) d ++
          childHead (ind + indentValue) (fullName (fullName path depth d) (depth + 1) d') d')) :=
        NoBrace.cons rfl (hfields.append (noBrace_childHead _ hname' hchild.1))
      have hlead : Leads (exportNode (fullName path depth d) (depth + 1) (ind + indentValue)
        (.node d' child' sibling') ++
          indprint ind ('}' :: '\n' :: (exportNode path depth ind sibling ++ tail)))
          ('{' :: (coreText (fullName path depth d) (depth + 1) (ind + indentValue) d' child' sibling' ++
            indprint ind ('}' :: '\n' :: (exportNode path depth ind sibling ++ tail)))) := by
        refine .inl ?_
        rw [skim_brace rfl, skim_exportNode _ _ hname hchild.1]
      rw [hcore] at hskim
      obtain ⟨g, next, hread, hmap, hnext⟩ :=
        ihc hchild _ hname (depth + 1) (ind + indentValue) hlead (closes_children ind _) fuel (by omega)
      obtain ⟨g', out, hread', hmap', hout⟩ := hsiblings next hnext
      rw [readText_parent hskim hbody (by simp [indprint]), hread, hread']
      refine ⟨_, out, rfl, ?_, hout⟩
      rw [Forest.map, Forest.map, hmap, hmap', buildNode_text _ hd (hidden_childHead _ hname' hchild.1)]

theorem size_le_exportNode (path : Str) (depth ind : Nat) (f : Forest Node) :
    f.size ≤ (exportNode path depth ind f).length := by
  induction f generalizing path depth ind with
  | nil => exact Nat.zero_le _
  | node d child sibling ihc ihs =>
    have hs := ihs path depth ind
    have hc := ihc (fullName path depth d) (depth + 1) (ind + indentValue)
    rw [exportNode_node, Forest.size]
    simp only [coreText, length_append, length_cons]
    cases child with
    | nil =>
      simp only [Forest.size] at hc ⊢
      omega
    | node d' child' sibling' =>
      rw [if_neg (by simp)]
      simp only [length_append]
      omega

theorem readForest_exportNode (f : Forest Node) (hf : f.All Node.Plain) {head : Str} (hhead : NoBrace head) :
    readForest (head ++ exportNode [] 0 0 f) = f.map Node.desc := by
  have hlead : Leads (exportNode [] 0 0 f ++ []) (head ++ exportNode [] 0 0 f) := by
    refine .inl ?_
    rw [skim_append hhead, append_nil]
  have hclose : Closes [] [] := .inr ⟨by simp, by simp⟩
  have hsize := size_le_exportNode [] 0 0 f
  obtain ⟨g, out, hread, hmap, -⟩ := readText_exportNode f hf [] (fun c hc => absurd hc (by simp)) 0 0 hlead hclose
    (show f.size < (head ++ exportNode [] 0 0 f).length + 1 by rw [length_append]; omega)
  rw [readForest, hread]
  exact hmap

/-! ## The tree -/

variable {o o' : OfTree} {n m lo : Nat} {g : Forest Node}

def OfTree.toNode (o : OfTree) (n : Nat) : Node := ⟨o.unitString n, o.node n, o.properties n⟩

def Shows (o : OfTree) : Nat → Forest Node → Prop
  | n, .nil => n = 0
  | n, .node d child sibling => n ≠ 0 ∧ o.toNode n = d ∧ Shows o (o.child n) child ∧ Shows o (o.sibling n) sibling

def ShownFrom (o : OfTree) (lo : Nat) : Nat → Forest Node → Prop
  | n, .nil => n = 0
  | n, .node d child sibling =>
    (lo ≤ n ∧ n < o.top) ∧ o.toNode n = d ∧ ShownFrom o lo (o.child n) child ∧ ShownFrom o lo (o.sibling n) sibling

structure SameNode (o o' : OfTree) (n : Nat) : Prop where
  fields : o'.toNode n = o.toNode n
  child : o'.child n = o.child n
  sibling : o'.sibling n = o.sibling n

theorem SameNode.trans {o'' : OfTree} (h : SameNode o o' n) (h' : SameNode o' o'' n) : SameNode o o'' n :=
  ⟨h'.fields.trans h.fields, h'.child.trans h.child, h'.sibling.trans h.sibling⟩

theorem ShownFrom.shows (h : ShownFrom o lo n g) (hlo : 0 < lo) : Shows o n g := by
  induction g generalizing n with
  | nil => exact h
  | node d child sibling ihc ihs =>
    obtain ⟨hn, hd, hc, hs⟩ := h
    exact ⟨(hlo.trans_le hn.1).ne', hd, ihc hc, ihs hs⟩

theorem ShownFrom.mono {lo' : Nat} (h : ShownFrom o lo n g) (hlo : lo' ≤ lo) : ShownFrom o lo' n g := by
  induction g generalizing n with
  | nil => exact h
  | node d child sibling ihc ihs =>
    obtain ⟨hn, hd, hc, hs⟩ := h
    exact ⟨⟨hlo.trans hn.1, hn.2⟩, hd, ihc hc, ihs hs⟩

theorem ShownFrom.frame (h : ShownFrom o lo n g) (htop : o.top ≤ o'.top)
    (hsame : ∀ m, lo ≤ m → m < o.top → SameNode o o' m) :
    ShownFrom o' lo n g := by
  induction g generalizing n with
  | nil => exact h
  | node d child sibling ihc ihs =>
    obtain ⟨hn, hd, hc, hs⟩ := h
    have hn' := hsame n hn.1 hn.2
    refine ⟨⟨hn.1, hn.2.trans_le htop⟩, hn'.fields.trans hd, ?_, ?_⟩
    · rw [hn'.child]
      exact ihc hc
    · rw [hn'.sibling]
      exact ihs hs

/-- Nodes as the file tells; a handle that it does not give is any. -/
def Built : Forest Desc → Forest Node → Prop
  | .nil, .nil => True
  | .node d child sibling, .node n child' sibling' =>
    n.unitString = d.unitString ∧ n.properties = d.properties ∧ (d.phandle ≠ 0 → n.node = d.phandle) ∧
      Built child child' ∧ Built sibling sibling'
  | _, _ => False

theorem readNode_shown (f : Forest Desc) (parent : Nat) (o : OfTree) :
    o.top ≤ (readNode parent f o).2.top ∧ (∀ m < o.top, SameNode o (readNode parent f o).2 m) ∧
      ∃ g, ShownFrom (readNode parent f o).2 o.top (readNode parent f o).1 g ∧ Built f g := by
  induction f generalizing parent o with
  | nil => exact ⟨le_refl _, fun m _ => ⟨rfl, rfl, rfl⟩, .nil, rfl, trivial⟩
  | node d child sibling ihc ihs =>
    obtain ⟨htop1, hsame1, gc, hgc, hbc⟩ := ihc o.top (o.alloc parent d)
    rw [readNode]
    generalize readNode o.top child (o.alloc parent d) = q at htop1 hsame1 hgc
    obtain ⟨c, o1⟩ := q
    simp only at htop1 hsame1 hgc ⊢
    obtain ⟨htop2, hsame2, gs, hgs, hbs⟩ := ihs parent (o1.close o.top c)
    generalize readNode parent sibling (o1.close o.top c) = q at htop2 hsame2 hgs
    obtain ⟨s, o2⟩ := q
    simp only at htop2 hsame2 hgs ⊢
    have halloc : (o.alloc parent d).top = o.top + 1 := rfl
    have hclose : (o1.close o.top c).top = o1.top := rfl
    -- the last link is that of the new node
    obtain ⟨o3, ho3⟩ : ∃ o3, o3 = { o2 with sibling := update o2.sibling o.top s } := ⟨_, rfl⟩
    have hlink (m : Nat) (hm : m ≠ o.top) : SameNode o2 o3 m := by
      rw [ho3]
      exact ⟨rfl, rfl, update_of_ne hm _ _⟩
    have hrest (m : Nat) (hm : m ≠ o.top) (hlt : m < o1.top) : SameNode o1 o3 m := by
      have hc : SameNode o1 (o1.close o.top c) m := ⟨rfl, update_of_ne hm _ _, rfl⟩
      exact (hc.trans (hsame2 m hlt)).trans (hlink m hm)
    have htop3 : o3.top = o2.top := by rw [ho3]
    have hnode : o3.toNode o.top =
      ⟨d.unitString, if d.phandle = 0 then o.nextPhandle else d.phandle, d.properties⟩ := by
      have hfields := (hsame2 o.top (by omega)).fields.trans (hsame1 o.top (by omega)).fields
      rw [ho3]
      refine hfields.trans ?_
      simp [OfTree.toNode, OfTree.alloc]
    have hchild : o3.child o.top = c := by
      rw [ho3]
      exact (hsame2 o.top (by omega)).child.trans (update_self ..)
    have hsibling : o3.sibling o.top = s := by
      rw [ho3]
      exact update_self ..
    rw [← ho3]
    refine ⟨by omega, fun m hm => ?_, .node (o3.toNode o.top) gc gs, ⟨⟨le_refl _, by omega⟩, rfl, ?_, ?_⟩, ?_⟩
    · have ha : SameNode o (o.alloc parent d) m := by
        refine ⟨?_, update_of_ne hm.ne _ _, update_of_ne hm.ne _ _⟩
        simp [OfTree.toNode, OfTree.alloc, update_of_ne hm.ne]
      exact (ha.trans (hsame1 m (by omega))).trans (hrest m hm.ne (by omega))
    · rw [hchild]
      have hframe := hgc.frame (htop2.trans htop3.ge) fun m hlo hlt => hrest m (by omega) hlt
      exact hframe.mono (Nat.le_succ _)
    · rw [hsibling]
      have hframe := hgs.frame htop3.ge fun m hlo _ => hlink m (by omega)
      exact hframe.mono (by omega)
    · rw [hnode]
      exact ⟨rfl, rfl, fun hp => if_neg hp, hbc, hbs⟩

def Same : Forest Node → Forest Node → Prop
  | .nil, .nil => True
  | .node d child sibling, .node n child' sibling' =>
    n.unitString = d.unitString ∧ n.properties = kept d.properties ∧ (phandleBase < d.node → n.node = d.node) ∧
      Same child child' ∧ Same sibling sibling'
  | _, _ => False

theorem same_of_built (f g : Forest Node) (h : Built (f.map Node.desc) g) : Same f g := by
  induction f generalizing g with
  | nil =>
    cases g with
    | nil => trivial
    | node => exact h
  | node d child sibling ihc ihs =>
    cases g with
    | nil => exact h
    | node n child' sibling' =>
      obtain ⟨hunit, hprops, hhandle, hc, hs⟩ := h
      refine ⟨hunit, hprops, fun hn => ?_, ihc child' hc, ihs sibling' hs⟩
      have hphandle : d.desc.phandle = d.node := by
        exact if_pos hn
      rw [hphandle] at hhandle
      refine hhandle fun hz => ?_
      rw [hz] at hn
      revert hn
      decide

/-- An exported tree is imported as it was. -/
theorem export_import (f : Forest Node) (hf : f.All Node.Plain) (o : OfTree) (htop : 0 < o.top) :
    ∃ g, Shows (readNode 0 (readForest (exportNode [] 0 0 f)) o).2
      (readNode 0 (readForest (exportNode [] 0 0 f)) o).1 g ∧
      Same f g := by
  have hread : readForest ([] ++ exportNode [] 0 0 f) = f.map Node.desc :=
    readForest_exportNode f hf fun c hc => absurd hc (by simp)
  rw [nil_append] at hread
  rw [hread]
  obtain ⟨-, -, g, hg, hb⟩ := readNode_shown (f.map Node.desc) 0 o
  exact ⟨g, hg.shows htop, same_of_built f g hb⟩

def deviceTree : Node :=
  ⟨none, 0x2000, [⟨"name".toList, "mac".toList.map toByte ++ [0]⟩, ⟨"reg".toList, [0, 0, 0x10, 0x80]⟩]⟩

def cpuNode : Node :=
  ⟨some "0".toList, 0x2001, [⟨"name".toList, "cpu (G4)".toList.map toByte ++ [0]⟩, ⟨"state".toList, [1, 2, 3]⟩]⟩

theorem deviceTree_plain : deviceTree.Plain := by
  refine ⟨oneLine_lit rfl, by simp [deviceTree], fun p hp => ?_⟩
  have hp := mem_of_mem_filter hp
  simp only [deviceTree, mem_cons, not_mem_nil, or_false] at hp
  rcases hp with rfl | rfl
  all_goals exact Property.plain_of (by decide) (by decide) (by decide)

theorem cpuNode_plain : cpuNode.Plain := by
  refine ⟨oneLine_lit rfl, fun u hu => ?_, fun p hp => ?_⟩
  · obtain rfl : "0".toList = u := by simpa [cpuNode] using hu
    decide
  · have hp := mem_of_mem_filter hp
    simp only [cpuNode, mem_cons, not_mem_nil, or_false] at hp
    rcases hp with rfl | rfl
    all_goals exact Property.plain_of (by decide) (by decide) (by decide)

theorem export_import_small :
    ∃ g, Shows (readNode 0 (readForest (exportNode [] 0 0 (.node deviceTree (.node cpuNode .nil .nil) .nil))) init).2
        (readNode 0 (readForest (exportNode [] 0 0 (.node deviceTree (.node cpuNode .nil .nil) .nil))) init).1 g ∧
      Same (.node deviceTree (.node cpuNode .nil .nil) .nil) g :=
  export_import (.node deviceTree (.node cpuNode .nil .nil) .nil)
    ⟨deviceTree_plain, ⟨cpuNode_plain, trivial, trivial⟩, trivial⟩ init
    (by decide)

/-- The handle 5 becomes 1, and a quotation mark is lost. -/
theorem export_loses :
    (readNode 0 (readForest (exportNode [] 0 0 (.node ⟨none, 5, []⟩ .nil .nil))) init).2.node 1 = 1 ∧
      (readNode 0 (readForest (exportNode [] 0 0
        (.node ⟨none, 0x2000, [⟨"a".toList, [0x22, 0]⟩]⟩ .nil .nil))) init).2.properties 1 =
        [⟨"a".toList, [0x20, 0]⟩] := by
  decide +kernel

end MacOnLinux.Prom
