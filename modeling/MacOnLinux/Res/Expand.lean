import Mathlib.Data.List.Basic
import MacOnLinux.Res.Code

/-! # Expansion stays in its buffer and replaces the references -/

namespace MacOnLinux.Res

open Function List

variable {mem mem0 : Mem} {d n size : Nat} {s x : Str} {t : Table}

/-! ## The text with its references replaced -/

/-- The references of a text, and the text behind the last one. -/
def pieces : Nat → Str → List (Str × Str) × Str
  | 0, src => ([], src)
  | fuel + 1, src =>
    match nextRef src with
    | none => ([], src)
    | some (pre, key, rest) => ((pre, key) :: (pieces fuel rest).1, (pieces fuel rest).2)

def replacement (t : Table) (sub : Str → Str) (key : Str) : Str :=
  if argsOf t key = [] then ['$', '{'] ++ key ++ ['}'] else [' '].intercalate ((argsOf t key).map sub)

def replaced (t : Table) (sub : Str → Str) (ps : List (Str × Str) × Str) : Str :=
  ps.1.flatMap (fun p => p.1 ++ replacement t sub p.2) ++ ps.2

/-- The expansion of a text, with references followed `n` deep. -/
def expansion (t : Table) : Nat → Str → Str
  | 0, src => src
  | n + 1, src => replaced t (expansion t n) (pieces (src.length + 1) src)

/-- Every chain of references from the text is shorter than `n`. -/
def ChainsBelow (t : Table) : Nat → Str → Prop
  | 0, _ => False
  | n + 1, src => ∀ p ∈ (pieces (src.length + 1) src).1, ∀ arg ∈ argsOf t p.2, ChainsBelow t n arg

instance ChainsBelow.decide (t : Table) : (n : Nat) → (src : Str) → Decidable (ChainsBelow t n src)
  | 0, _ => .isFalse id
  | n + 1, src =>
    have := ChainsBelow.decide t n
    inferInstanceAs (Decidable (∀ p ∈ (pieces (src.length + 1) src).1, ∀ arg ∈ argsOf t p.2, ChainsBelow t n arg))

theorem expansion_stable {m : Nat} (h : ChainsBelow t m s) (hn : m ≤ n) : expansion t n s = expansion t m s := by
  induction m generalizing n s with
  | zero => exact h.elim
  | succ m ih =>
    obtain ⟨n, rfl⟩ : ∃ k, n = k + 1 := ⟨n - 1, by omega⟩
    have hsub : ∀ p ∈ (pieces (s.length + 1) s).1,
        replacement t (expansion t n) p.2 = replacement t (expansion t m) p.2 := by
      intro p hp
      have hargs : (argsOf t p.2).map (expansion t n) = (argsOf t p.2).map (expansion t m) :=
        map_congr_left fun arg harg => ih (h p hp arg harg) (by omega)
      simp [replacement, hargs]
    simp only [expansion, replaced]
    rw [flatMap_congr fun p hp => by rw [hsub p hp]]

/-! ## C strings -/

def Holds (mem : Mem) : Nat → Str → Prop
  | a, [] => mem a = nul
  | a, c :: cs => c ≠ nul ∧ mem a = c ∧ Holds mem (a + 1) cs

def Same (mem mem' : Mem) (a n : Nat) : Prop := ∀ b, b < a ∨ a + n ≤ b → mem' b = mem b

theorem strncpy0_spec (hn : 0 < n) (hx : nul ∉ x) :
    Holds (strncpy0 mem d x n) d (x.take (n - 1)) ∧ Same mem (strncpy0 mem d x n) d n := by
  induction n generalizing mem d x with
  | zero => cases hn
  | succ n ih =>
    have hend : Same mem (update mem d nul) d (n + 1) := fun b hb => update_of_ne (by omega) ..
    match n, x with
    | 0, _ => exact ⟨update_self .., hend⟩
    | n + 1, [] => exact ⟨update_self .., hend⟩
    | n + 1, c :: cs =>
      obtain ⟨hc, hcs⟩ := not_or.mp (mt mem_cons.mpr hx)
      obtain ⟨hholds, hsame⟩ : Holds (strncpy0 (update mem d c) (d + 1) _ _) _ _ ∧ _ := ih n.succ_pos hcs
      refine ⟨⟨Ne.symm hc, ?_, hholds⟩, fun b hb => ?_⟩
      · exact (hsame d (.inl d.lt_succ_self)).trans (update_self ..)
      · exact (hsame b (by omega)).trans (update_of_ne (by omega) ..)

theorem strncat0_spec (hs : Holds mem d s) (hn : s.length < n) (hx : nul ∉ x) :
    Holds (strncat0 mem d x n) d ((s ++ x).take (n - 1)) ∧ Same mem (strncat0 mem d x n) d n := by
  induction s generalizing d n with
  | nil =>
    obtain ⟨n, rfl⟩ : ∃ k, n = k + 1 := ⟨n - 1, by omega⟩
    rw [strncat0, if_pos (.inr hs)]
    exact strncpy0_spec n.succ_pos hx
  | cons c cs ih =>
    obtain ⟨hc, hmem, hcs⟩ := hs
    rw [length_cons] at hn
    obtain ⟨n, rfl⟩ : ∃ k, n = k + 2 := ⟨n - 2, by omega⟩
    obtain ⟨hholds, hsame⟩ := ih hcs (n := n + 1) (by omega)
    rw [strncat0, if_neg (by rw [hmem]; simp [hc])]
    refine ⟨⟨hc, (hsame d (.inl d.lt_succ_self)).trans hmem, hholds⟩, fun b hb => hsame b (by omega)⟩

theorem strlen_spec (hs : Holds mem d s) (hn : s.length < n) : strlen mem d n = some s.length := by
  induction s generalizing d n with
  | nil =>
    obtain ⟨n, rfl⟩ : ∃ k, n = k + 1 := ⟨n - 1, by omega⟩
    exact if_pos hs
  | cons c cs ih =>
    obtain ⟨hc, hmem, hcs⟩ := hs
    rw [length_cons] at hn
    obtain ⟨n, rfl⟩ : ∃ k, n = k + 1 := ⟨n - 1, by omega⟩
    rw [strlen, if_neg (by rwa [hmem]), ih hcs (by omega)]
    rfl

theorem Holds.append (hs : Holds mem d s) {mem' : Mem} {m : Nat} (hsame : Same mem mem' (d + s.length) m)
    (hx : Holds mem' (d + s.length) x) : Holds mem' d (s ++ x) := by
  induction s generalizing d with
  | nil => exact hx
  | cons c cs ih =>
    obtain ⟨hc, hmem, hcs⟩ := hs
    rw [length_cons, ← Nat.add_assoc, Nat.add_right_comm] at hsame hx
    exact ⟨hc, (hsame d (.inl (by omega))).trans hmem, ih hcs hsame hx⟩

theorem Holds.nul (hs : Holds mem d s) : mem (d + s.length) = nul := by
  induction s generalizing d with
  | nil => exact hs
  | cons c cs ih => simpa [Nat.add_assoc, Nat.add_comm 1] using ih hs.2.2

/-! ## The buffer -/

/-- Only the buffer has changed, and it has what fits in of the text `s`. -/
structure Out (mem0 mem : Mem) (d size : Nat) (s : Str) : Prop where
  holds : Holds mem d (s.take (size - 1))
  same : Same mem0 mem d size

variable {expandSub : Mem → Nat → Str → Nat → Option Mem} {sub : Str → Str}

theorem out_nil (mem : Mem) (d : Nat) (hsize : 0 < size) : Out mem (update mem d nul) d size [] :=
  ⟨by simp [Holds], fun b hb => update_of_ne (by omega) ..⟩

theorem length_cut (s : Str) (hsize : 0 < size) : (s.take (size - 1)).length < size := by
  rw [length_take]
  omega

theorem cut_append (k : Nat) (s x : Str) : (s.take k ++ x).take k = (s ++ x).take k := by
  rw [take_append, take_append, take_take, Nat.min_self, length_take]
  congr 2
  omega

theorem Out.strncat0 (h : Out mem0 mem d size s) (hsize : 0 < size) (hx : nul ∉ x) :
    Out mem0 (strncat0 mem d x size) d size (s ++ x) := by
  obtain ⟨hholds, hsame⟩ := strncat0_spec h.holds (length_cut s hsize) hx
  exact ⟨cut_append .. ▸ hholds, fun b hb => (hsame b hb).trans (h.same b hb)⟩

def Expands (expandSub : Mem → Nat → Str → Nat → Option Mem) (sub : Str → Str) : Prop :=
  ∀ mem d size src, 0 < size → nul ∉ src →
    ∃ mem', expandSub mem d src size = some mem' ∧ Out mem mem' d size (sub src)

theorem Out.expand (h : Out mem0 mem d size s) (hsub : Expands expandSub sub) (hsize : 0 < size) (hx : nul ∉ x) :
    ∃ len mem', strlen mem d size = some len ∧ expandSub mem (d + len) x (size - len) = some mem' ∧
      Out mem0 mem' d size (s ++ sub x) := by
  have hlen := length_cut s hsize
  obtain ⟨mem', hmem', hout⟩ := hsub mem (d + (s.take (size - 1)).length) (size - (s.take (size - 1)).length) x
    (by omega) hx
  refine ⟨_, mem', strlen_spec h.holds hlen, hmem', ?_, fun b hb => ?_⟩
  · have hrest : size - (s.take (size - 1)).length - 1 = size - 1 - s.length := by
      rw [length_take]
      omega
    rw [take_append, ← hrest]
    exact h.holds.append hout.same hout.holds
  · exact (hout.same b (by omega)).trans (h.same b hb)

theorem expandArgs_spec (hsub : Expands expandSub sub) (hsize : 0 < size) (es : List Str)
    (hes : ∀ e ∈ es, nul ∉ e) (h : Out mem0 mem d size s) :
    ∃ mem', expandArgs expandSub d size false es mem = some mem' ∧
      Out mem0 mem' d size (s ++ es.flatMap fun e => ' ' :: sub e) := by
  induction es generalizing mem s with
  | nil => exact ⟨mem, rfl, by simpa using h⟩
  | cons e es ih =>
    obtain ⟨he, hes⟩ := forall_mem_cons.mp hes
    obtain ⟨len, mem1, hlen, hmem1, hout⟩ := (h.strncat0 hsize (by decide : nul ∉ [' '])).expand hsub hsize he
    obtain ⟨mem2, hmem2, hout⟩ := ih hes hout
    refine ⟨mem2, ?_, by simpa using hout⟩
    simp [expandArgs, hlen, hmem1, hmem2]

theorem intercalate_cons (e : Str) (es : List Str) :
    [' '].intercalate ((e :: es).map sub) = sub e ++ es.flatMap fun e => ' ' :: sub e := by
  induction es generalizing e with
  | nil => simp [intercalate]
  | cons a es ih =>
    simp_all [intercalate]

theorem findRef_eq {src pre rest : Str} (h : findRef src = some (pre, rest)) : src = pre ++ '$' :: '{' :: rest := by
  fun_induction findRef src generalizing pre with
  | case1 => cases h
  | case2 cs =>
    cases h
    rfl
  | case3 c cs hc ih =>
    obtain ⟨⟨pre', rest'⟩, hr, heq⟩ := Option.map_eq_some_iff.mp h
    cases heq
    rw [ih hr]
    rfl

theorem cut_at {c : Char} {cs : Str} (h : c ∈ cs) :
    cs.takeWhile (· ≠ c) ++ c :: (cs.dropWhile (· ≠ c)).drop 1 = cs := by
  induction cs with
  | nil => cases h
  | cons a cs ih =>
    by_cases ha : a = c
    · simp [ha]
    · simpa [ha] using ih ((mem_cons.mp h).resolve_left (Ne.symm ha))

theorem nextRef_eq {src pre key rest : Str} (h : nextRef src = some (pre, key, rest)) :
    src = pre ++ '$' :: '{' :: (key ++ '}' :: rest) := by
  obtain ⟨⟨pre', cs⟩, hr, hcs⟩ := Option.bind_eq_some_iff.mp h
  dsimp only at hcs
  split at hcs
  · rename_i hmem
    cases hcs
    rw [findRef_eq hr, cut_at hmem]
  · cases hcs

/-! ## The whole call -/

structure CStrings (t : Table) (src : Str) : Prop where
  src : nul ∉ src
  table : ∀ r ∈ t, ∀ arg ∈ r.args, nul ∉ arg

section NoNul

variable (ht : ∀ r ∈ t, ∀ arg ∈ r.args, nul ∉ arg)

include ht

theorem nul_notMem_args (key : Str) : ∀ arg ∈ argsOf t key, nul ∉ arg := by
  intro arg harg
  unfold argsOf at harg
  cases hr : t.find? (·.key = key) with
  | none => simp [hr] at harg
  | some r =>
    rw [hr] at harg
    exact ht r (mem_of_find?_eq_some hr) arg harg

theorem expandRef_spec (hsub : Expands expandSub sub) (hsize : 0 < size)
    {key : Str} (hkey : nul ∉ key) (h : Out mem0 mem d size s) :
    ∃ mem', expandRef t expandSub d size key mem = some mem' ∧ Out mem0 mem' d size (s ++ replacement t sub key) := by
  unfold expandRef replacement
  split
  · refine ⟨_, rfl, ?_⟩
    have hout := (h.strncat0 hsize (by decide : nul ∉ ['$', '{'])).strncat0 hsize hkey
    simpa [strncat3] using hout.strncat0 hsize (by decide : nul ∉ ['}'])
  obtain ⟨e, es, hargs⟩ := exists_cons_of_ne_nil ‹_›
  have hnul := nul_notMem_args ht key
  rw [hargs] at hnul ⊢
  obtain ⟨len, mem1, hlen, hmem1, hout⟩ := h.expand hsub hsize (hnul e mem_cons_self)
  obtain ⟨mem2, hmem2, hout⟩ := expandArgs_spec hsub hsize es (forall_mem_cons.mp hnul).2 hout
  refine ⟨mem2, by simp [expandArgs, hlen, hmem1, hmem2], ?_⟩
  rwa [intercalate_cons, ← append_assoc]

theorem expandLoop_spec (hsub : Expands expandSub sub) (hsize : 0 < size)
    {fuel : Nat} {src : Str} (hfuel : src.length < fuel) (hsrc : nul ∉ src) (h : Out mem0 mem d size s) :
    ∃ mem', expandLoop t expandSub d size fuel src mem = some mem' ∧
      Out mem0 mem' d size (s ++ replaced t sub (pieces fuel src)) := by
  induction fuel generalizing src mem s with
  | zero => cases hfuel
  | succ fuel ih =>
    unfold expandLoop pieces
    cases hr : nextRef src with
    | none => exact ⟨_, rfl, by simpa [replaced] using h.strncat0 hsize hsrc⟩
    | some ref =>
      rw [nextRef_eq hr] at hfuel hsrc
      simp only [length_append, length_cons, mem_append, mem_cons, not_or] at hfuel hsrc
      obtain ⟨hpre, -, -, hkey, -, hrest⟩ := hsrc
      obtain ⟨mem1, hmem1, hout⟩ := expandRef_spec ht hsub hsize hkey (h.strncat0 hsize hpre)
      obtain ⟨mem2, hmem2, hout⟩ := ih (by omega) hrest hout
      exact ⟨mem2, by simp [hmem1, hmem2], by simpa [replaced] using hout⟩

theorem expand_spec (left : Nat) :
    Expands (expand t left) (expansion t left) := by
  induction left with
  | zero =>
    intro mem d size src hsize hsrc
    exact ⟨_, rfl, by simpa [expansion] using (out_nil mem d hsize).strncat0 hsize hsrc⟩
  | succ left ih =>
    intro mem d size src hsize hsrc
    obtain ⟨mem', hmem', hout⟩ := expandLoop_spec ht ih hsize src.length.lt_succ_self hsrc (out_nil mem d hsize)
    exact ⟨mem', hmem', by simpa [expansion] using hout⟩

end NoNul

/-- `expand` writes into its buffer only, and the right string if it fits. -/
theorem expand_bounded (t : Table) (src : Str) (hstr : CStrings t src) (mem : Mem) (dest size : Nat)
    (hsize : 1 ≤ size) :
    ∃ mem', expand t maxNesting mem dest src size = some mem' ∧
      (∀ a, a < dest ∨ dest + size ≤ a → mem' a = mem a) ∧
      (∃ k < size, mem' (dest + k) = nul) ∧
      (ChainsBelow t 10 src → ∀ n ≥ 10, (expansion t n src).length < size →
        Holds mem' dest (expansion t n src)) := by
  obtain ⟨mem', hmem', hout⟩ := expand_spec hstr.table maxNesting mem dest size src hsize hstr.src
  refine ⟨mem', hmem', hout.same, ⟨_, length_cut _ hsize, hout.holds.nul⟩, fun hchains n hn hfits => ?_⟩
  rw [expansion_stable hchains hn] at hfits ⊢
  have hholds := hout.holds
  rwa [take_of_length_le (by unfold maxNesting; omega)] at hholds

def references : Table := [⟨['a'], ["x$\x7bb\x7d".toList, "$\x7bc\x7d".toList]⟩, ⟨['b'], [['y']]⟩]

theorem expand_bounded_two :
    ∃ mem', expand references maxNesting (fun _ => 'z') 5 "<$\x7ba\x7d>".toList 20 = some mem' ∧
    mem' 4 = 'z' ∧ Holds mem' 5 "<xy $\x7bc\x7d>".toList := by
  obtain ⟨mem', hmem', hsame, -, hholds⟩ := expand_bounded references "<$\x7ba\x7d>".toList
    ⟨by decide, by decide⟩ (fun _ => 'z') 5 20 (by decide)
  exact ⟨mem', hmem', hsame 4 (by decide), hholds (by decide) 10 (Nat.le_refl _) (by decide)⟩

end MacOnLinux.Res
