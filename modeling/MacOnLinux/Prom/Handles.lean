import MacOnLinux.Prom.Runs

/-! # Package handles

Nobody compares the counter with the handles of a file or of the guest.
-/

namespace MacOnLinux.Prom

open Linked List Function

/-! ## The handles of a file -/

def Forest.given : Forest Desc → List Word
  | .nil => []
  | .node d c s => (if d.phandle = 0 then [] else [d.phandle]) ++ (c.given ++ s.given)

def Forest.counted : Forest Desc → Nat
  | .nil => 0
  | .node d c s => (if d.phandle = 0 then 1 else 0) + (c.counted + s.counted)

def counters (next : Word) (k : Nat) : List Word := (List.range k).map fun i => next + BitVec.ofNat 32 i

theorem counters_add (next : Word) (j k : Nat) :
    counters next (j + k) = counters next j ++ counters (next + BitVec.ofNat 32 j) k := by
  unfold counters
  rw [range_add, map_append, map_map]
  congr 1
  apply map_congr_left
  intro i _
  simp [BitVec.ofNat_add, BitVec.add_assoc]

variable {o o' o'' : OfTree} {l : List Nat} {n p par k j : Nat} {given given' : List Word}

/-- New nodes got the handles `given` and `k` handles from the counter. -/
structure Handed (o o' : OfTree) (given : List Word) (k : Nat) : Prop where
  top : o.top ≤ o'.top
  old : ∀ n < o.top, o'.node n = o.node n
  next : o'.nextPhandle = o.nextPhandle + BitVec.ofNat 32 k
  perm : ((List.range' o.top (o'.top - o.top)).map o'.node).Perm (given ++ counters o.nextPhandle k)

theorem Handed.of_eq (htop : o'.top = o.top) (hnode : o'.node = o.node) (hnext : o'.nextPhandle = o.nextPhandle) :
    Handed o o' [] 0 := by
  refine ⟨htop.ge, fun n _ => by rw [hnode], by simp [hnext], ?_⟩
  simp [htop, counters]

theorem Handed.trans (h : Handed o o' given k) (h' : Handed o' o'' given' j) :
    Handed o o'' (given ++ given') (k + j) := by
  have htop := h.top
  have htop' := h'.top
  refine ⟨htop.trans htop', fun n hn => ?_, ?_, ?_⟩
  · rw [h'.old n (hn.trans_le htop), h.old n hn]
  · rw [h'.next, h.next]
    simp [BitVec.ofNat_add, BitVec.add_assoc]
  have hrange : range' o.top (o''.top - o.top) =
      range' o.top (o'.top - o.top) ++ range' o'.top (o''.top - o'.top) := by
    have hsplit : o''.top - o.top = (o'.top - o.top) + (o''.top - o'.top) := by omega
    have hjoin : o'.top = o.top + (o'.top - o.top) := by omega
    rw [hsplit, ← range'_append_1, ← hjoin]
  have hfirst : (range' o.top (o'.top - o.top)).map o''.node = (range' o.top (o'.top - o.top)).map o'.node := by
    apply map_congr_left
    intro n hn
    have := (mem_range'_1.mp hn).2
    exact h'.old n (by omega)
  rw [hrange, map_append, hfirst, counters_add, ← h.next]
  refine (h.perm.append h'.perm).trans (perm_iff_count.mpr fun a => ?_)
  simp only [count_append]
  omega

theorem alloc_handed (o : OfTree) (parent : Nat) (d : Desc) :
    Handed o (o.alloc parent d) (if d.phandle = 0 then [] else [d.phandle]) (if d.phandle = 0 then 1 else 0) := by
  refine ⟨Nat.le_succ _, fun n hn => by simp [OfTree.alloc, hn.ne], ?_, ?_⟩
  · by_cases hd : d.phandle = 0
    · simp [OfTree.alloc, hd]
    · simp only [OfTree.alloc, if_neg hd]
      simp
  · by_cases hd : d.phandle = 0
    · simp [OfTree.alloc, hd, counters]
    · simp only [OfTree.alloc, if_neg hd]
      simp [counters]

theorem readNode_handed (parent : Nat) (f : Forest Desc) (o : OfTree) :
    Handed o (readNode parent f o).2 f.given f.counted := by
  induction f generalizing parent o with
  | nil => exact .of_eq rfl rfl rfl
  | node d child sibling ihc ihs =>
    have hc := ihc o.top (o.alloc parent d)
    have hclose (o2 : OfTree) (c : Nat) : Handed o2 (o2.close o.top c) [] 0 := .of_eq rfl rfl rfl
    have hs := ihs parent ((readNode o.top child (o.alloc parent d)).2.close o.top
      (readNode o.top child (o.alloc parent d)).1)
    have hall := (alloc_handed o parent d).trans ((hc.trans (hclose _ _)).trans hs)
    rw [append_nil] at hall
    exact ⟨hall.top, hall.old, hall.next, hall.perm⟩

/-! ## The invariant -/

/-- The next `k` values of the counter and the handles `given` are new and not 0. -/
structure Fresh (o : OfTree) (l : List Nat) (given : List Word) (k : Nat) : Prop where
  nodup : (given ++ counters o.nextPhandle k).Nodup
  zero : 0 ∉ given ++ counters o.nextPhandle k
  other : ∀ n ∈ l, o.node n ∉ given ++ counters o.nextPhandle k

/-- The nodes are `l`, no link leads out of them, and their handles differ. -/
structure HInv (o : OfTree) (l : List Nat) : Prop extends Nodes o l where
  root : o.root ∈ l ∨ o.root = 0
  child : ∀ n ∈ l, o.child n ∈ l ∨ o.child n = 0
  sibling : ∀ n ∈ l, o.sibling n ∈ l ∨ o.sibling n = 0
  inj : (l.map o.node).Nodup
  zero : ∀ n ∈ l, o.node n ≠ 0

theorem Handed.handles {new : List Nat} (h : Handed o o' given k) (hi : HInv o l) (hf : Fresh o l given k)
    (hnew : ∀ n, n ∈ new ↔ o.top ≤ n ∧ n < o'.top) (hnodup : new.Nodup) :
    ((new ++ l).map o'.node).Nodup ∧ ∀ n ∈ new ++ l, o'.node n ≠ 0 := by
  have hperm : new.Perm (range' o.top (o'.top - o.top)) := by
    rw [perm_ext_iff_of_nodup hnodup nodup_range']
    intro n
    rw [hnew, mem_range'_1]
    omega
  have hhandles := (hperm.map o'.node).trans h.perm
  have hold : l.map o'.node = l.map o.node := map_congr_left fun n hn => h.old n (hi.lt n hn)
  have hin (n : Nat) (hn : n ∈ new) : o'.node n ∈ given ++ counters o.nextPhandle k :=
    hhandles.mem_iff.mp (mem_map_of_mem hn)
  constructor
  · rw [map_append, hold, nodup_append]
    refine ⟨hhandles.nodup_iff.mpr hf.nodup, hi.inj, ?_⟩
    intro a ha b hb
    obtain ⟨m, hm, rfl⟩ := mem_map.mp ha
    obtain ⟨n, hn, rfl⟩ := mem_map.mp hb
    intro heq
    exact hf.other n hn (heq ▸ hin m hm)
  · intro n hn
    rcases mem_append.mp hn with hn | hn
    · intro heq
      exact hf.zero (heq ▸ hin n hn)
    · rw [h.old n (hi.lt n hn)]
      exact hi.zero n hn

namespace HInv

theorem empty (htop : 0 < o.top) (hall : o.allnext = 0) (hroot : o.root = 0) : HInv o [] :=
  ⟨.empty htop hall, .inr hroot, by simp, by simp, nodup_nil, by simp⟩

theorem length_lt (h : HInv o l) : l.length < o.top := length_lt_top h.nodup h.pos h.lt h.top

theorem scan_sibling (h : HInv o l) {stop : Nat → Bool} (hstop : stop 0 = true) (fuel : Nat) (hn : n ∈ l ∨ n = 0) :
    (scan o.sibling stop fuel n).getD 0 ∈ l ∨ (scan o.sibling stop fuel n).getD 0 = 0 := by
  induction fuel generalizing n with
  | zero => exact .inr rfl
  | succ fuel ih =>
    rw [scan]
    split_ifs with hgo
    · exact hn
    · rcases hn with hn | rfl
      · exact ih (h.sibling n hn)
      · exact absurd hstop hgo

theorem findDevByPath (h : HInv o l) (path : Str) : findDevByPath o path ∈ l ∨ findDevByPath o path = 0 := by
  refine findDevByPath_mem h.root (fun p hp s => ?_) path
  unfold findChild
  simp only
  split
  · exact h.scan_sibling rfl _ (h.child p hp)
  · exact h.scan_sibling rfl _ (h.child p hp)

theorem phandleToDn (h : HInv o l) (hn : n ∈ l) : phandleToDn o (o.node n) = n := by
  obtain ⟨xs, ys, rfl⟩ := append_of_mem hn
  obtain ⟨m, hseg, rfl, -⟩ := seg_append.mp h.all
  have hinj := h.inj
  rw [map_append, map_cons, nodup_append] at hinj
  have hlen := h.length_lt
  have hscan : scan o.next (fun q => q == 0 || decide (o.node q = o.node m)) o.top o.allnext = some m := by
    refine scan_seg hseg (fun x hx => ?_) (by simp) (by simp at hlen; omega)
    have hx0 := (h.pos x (by simp [hx])).ne'
    have hne := hinj.2.2 (o.node x) (mem_map_of_mem hx) (o.node m) mem_cons_self
    simp [hx0, hne]
  rw [Prom.phandleToDn, hscan]
  rfl

/-! ### Import -/

theorem closed_grown {parent first : Nat} {roots new : List Nat} {kids : Nat → List Nat}
    (hg : Grown o o' parent first roots new kids) :
    (∀ n ∈ new, o'.child n ∈ new ∨ o'.child n = 0) ∧ (∀ n ∈ new, o'.sibling n ∈ new ∨ o'.sibling n = 0) ∧
      (first ∈ new ∨ first = 0) := by
  refine ⟨fun n hn => ?_, fun n hn => ?_, (seg_start_mem hg.level).imp_left (hg.rootsNew _)⟩
  · have hf := hg.family n hn
    exact (seg_start_mem hf.seg).imp_left (hf.mem _)
  · by_cases hr : n ∈ roots
    · exact (seg_next_mem hg.level hr).imp_left (hg.rootsNew _)
    · obtain ⟨hp, hk⟩ := hg.listed n hn hr
      have hf := hg.family _ hp
      exact (seg_next_mem hf.seg hk).imp_left (hf.mem _)

theorem importOftree (htop : 0 < o.top) (f : Option Str)
    (hf : ∀ s, f = some s → Fresh o [] (readForest s).given (readForest s).counted) :
    ∃ l', HInv (importOftree f o) l' := by
  unfold Prom.importOftree importNode
  cases f with
  | none => exact ⟨[], .empty htop rfl rfl⟩
  | some s =>
    simp only [ne_eq, not_true_eq_false, false_and, if_false]
    obtain ⟨roots, new, kids, hg, -, -⟩ := readNode_grown 0 (readForest s) { o with allnext := 0 }
    have hh := readNode_handed 0 (readForest s) { o with allnext := 0 }
    generalize readNode 0 (readForest s) { o with allnext := 0 } = q at hg hh
    obtain ⟨r, o1⟩ := q
    obtain ⟨hchild, hsibling, hfirst⟩ := closed_grown hg
    have hempty : HInv { o with allnext := 0, root := 0 } [] := .empty htop rfl rfl
    have hfresh := hf s rfl
    have hh' : Handed { o with allnext := 0, root := 0 } o1 (readForest s).given (readForest s).counted :=
      ⟨hh.top, hh.old, hh.next, hh.perm⟩
    obtain ⟨hinj, hzero⟩ := hh'.handles hempty ⟨hfresh.nodup, hfresh.zero, hfresh.other⟩ hg.mem hg.nodup
    rw [append_nil] at hinj hzero
    have hnew (n : Nat) (hn : n ∈ new) : o.top ≤ n ∧ n < o1.top := (hg.mem n).mp hn
    exact ⟨new, ⟨htop.trans_le hg.top, hg.all, hg.nodup, fun n hn => htop.trans_le
      (hnew n hn).1, fun n hn => (hnew n hn).2⟩,
      hfirst, hchild, hsibling, hinj, hzero⟩

theorem promImportNode (h : HInv o l) (hpar : par ∈ l) (s : Str)
    (hf : Fresh o l (readForest s).given (readForest s).counted) :
    ∃ l', HInv (promImportNode par (some s) o) l' := by
  obtain ⟨roots, new, kids, hg, -, -⟩ := readNode_grown 0 (readForest s) o
  have hh := readNode_handed 0 (readForest s) o
  unfold Prom.promImportNode importNode
  rw [if_neg (h.pos par hpar).ne']
  simp only
  generalize readNode 0 (readForest s) o = q at hg hh
  obtain ⟨r, o1⟩ := q
  obtain ⟨hchild, hsibling, hfirst⟩ := closed_grown hg
  obtain ⟨hinj, hzero⟩ := hh.handles h hf hg.mem hg.nodup
  have hold (n : Nat) (hn : n ∈ l) : Agree o o1 n := hg.old n (h.lt n hn)
  have hmem (n : Nat) : n ∈ new ++ l ↔ n ∈ new ∨ n ∈ l := mem_append
  -- what holds before the nodes are linked
  have hread : HInv o1 (new ++ l) := by
    have hnodes := h.toNodes.grown hg
    refine ⟨hnodes, ?_, ?_, ?_, hinj, hzero⟩
    · rw [hg.root]
      exact h.root.imp_left fun hm => (hmem _).mpr (.inr hm)
    · intro n hn
      rcases (hmem n).mp hn with hn | hn
      · exact (hchild n hn).imp_left fun hm => (hmem _).mpr (.inl hm)
      · rw [(hold n hn).child]
        exact (h.child n hn).imp_left fun hm => (hmem _).mpr (.inr hm)
    · intro n hn
      rcases (hmem n).mp hn with hn | hn
      · exact (hsibling n hn).imp_left fun hm => (hmem _).mpr (.inl hm)
      · rw [(hold n hn).sibling]
        exact (h.sibling n hn).imp_left fun hm => (hmem _).mpr (.inr hm)
  split
  · rename_i hgo
    have hr : r ∈ new := hfirst.resolve_right hgo.2
    refine ⟨new ++ l, { hread with child := fun n hn => ?_, sibling := fun n hn => ?_ }⟩
    · by_cases heq : n = par
      · subst heq
        simp [hr]
      · simpa [heq] using hread.child n hn
    · simp only [update_apply]
      split
      · exact hread.child par ((hmem par).mpr (.inr hpar))
      · exact hread.sibling n hn
  · exact ⟨new ++ l, hread⟩

/-! ### Creation -/

theorem fresh_one (hf : Fresh o l [] (1 + k)) : Fresh o l [] 1 := by
  obtain ⟨hnodup, hzero, hother⟩ := hf
  simp only [nil_append, counters_add, nodup_append, mem_append, not_or] at hnodup hzero hother
  exact ⟨hnodup.1, hzero.1, fun n hn => (hother n hn).1⟩

theorem fresh_rest (h : Handed o o' [] 1) (hf : Fresh o l [] (1 + k)) {l' : List Nat} (hi : HInv o l)
    (hmem : ∀ n, n ∈ l' ↔ n = o.top ∨ n ∈ l) (hnode : o'.node o.top = o.nextPhandle) : Fresh o' l' [] k := by
  have hnodup := hf.nodup
  have hzero := hf.zero
  have hother := hf.other
  simp only [nil_append, counters_add, nodup_append, mem_append, not_or] at hnodup hzero hother
  have hone : counters o.nextPhandle 1 = [o.nextPhandle] := by simp [counters]
  rw [hone] at hnodup
  refine ⟨?_, ?_, fun n hn => ?_⟩
  · simp only [h.next]
    exact hnodup.2.1
  · simp only [h.next]
    exact hzero.2
  simp only [h.next]
  rcases (hmem n).mp hn with rfl | hn
  · rw [hnode]
    exact fun hm => hnodup.2.2 _ mem_cons_self _ hm rfl
  · rw [h.old n (hi.lt n hn)]
    exact (hother n hn).2

theorem addNode (h : HInv o l) (hpar : par ∈ l) (name : Str) (hf : Fresh o l [] (1 + k)) :
    ∃ l', HInv (addNode par name o).2 l' ∧ (addNode par name o).1 ∈ l' ∧ Fresh (addNode par name o).2 l' [] k := by
  have hne (n : Nat) (hn : n ∈ l) : n ≠ o.top := (h.lt n hn).ne
  have hh : Handed o (Prom.addNode par name o).2 [] 1 := by
    refine ⟨Nat.le_succ _, fun n hn => by simp [Prom.addNode, hn.ne], by simp [Prom.addNode], ?_⟩
    have hone : o.top + 1 - o.top = 1 := by omega
    simp [Prom.addNode, hone, counters]
  obtain ⟨l', hnodes, hperm⟩ := h.toNodes.addNode hpar name
  have hmem (n : Nat) : n ∈ l' ↔ n = o.top ∨ n ∈ l := by
    rw [hperm.mem_iff, mem_cons]
  have hnew (n : Nat) : n ∈ [o.top] ↔ o.top ≤ n ∧ n < (Prom.addNode par name o).2.top := by
    simp only [mem_singleton, Prom.addNode]
    omega
  obtain ⟨hinj, hzero⟩ := hh.handles h (fresh_one hf) hnew (nodup_singleton _)
  refine ⟨l', ⟨hnodes, ?_, fun n hn => ?_, fun n hn => ?_, ?_,
    fun n hn => ?_⟩, (hmem _).mpr (.inl rfl), fresh_rest hh hf h hmem (by simp [Prom.addNode])⟩
  · exact h.root.imp_left fun hm => (hmem _).mpr (.inr hm)
  · rcases (hmem n).mp hn with rfl | hn
    · simp [Prom.addNode, (hne par hpar).symm]
    by_cases heq : n = par
    · subst heq
      simp [Prom.addNode, hmem]
    · rcases h.child n hn with hc | hc
      · simp [Prom.addNode, heq, hne n hn, (hmem _).mpr (.inr hc)]
      · simp [Prom.addNode, heq, hne n hn, hc]
  · rcases (hmem n).mp hn with rfl | hn
    · rcases h.child par hpar with hc | hc
      · simp [Prom.addNode, (hmem _).mpr (.inr hc)]
      · simp [Prom.addNode, hc]
    · rcases h.sibling n hn with hs | hs
      · simp [Prom.addNode, hne n hn, (hmem _).mpr (.inr hs)]
      · simp [Prom.addNode, hne n hn, hs]
  · exact (hperm.map _).nodup_iff.mpr hinj
  · exact hzero n (hperm.mem_iff.mp hn)

theorem addNamed (h : HInv o l) (hpar : par ∈ l) (name : Option Str)
    (hf : Fresh o l [] ((if name.isSome then 1 else 0) + k)) :
    ∃ l', HInv (addNamed par name o).2 l' ∧ (addNamed par name o).1 ∈ l' ∧ Fresh (addNamed par name o).2 l' [] k := by
  unfold Prom.addNamed
  rw [if_neg (h.pos par hpar).ne']
  cases name with
  | none => exact ⟨l, h, hpar, by simpa using hf⟩
  | some name => exact h.addNode hpar name hf

end HInv

def missing (o : OfTree) : Nat → Str → Option Nat
  | 0, _ => none
  | fuel + 1, path =>
    if findDevByPath o path ≠ 0 then some 0
    else match cutLast path with
      | none => none
      | some (dir, _) => (missing o fuel dir).map (· + 1)

namespace HInv

theorem createNode_none (fuel : Nat) (path : Str) (name : Option Str) (hm : missing o fuel path = none) :
    createNode fuel path name o = (0, o) := by
  induction fuel generalizing path name with
  | zero => rfl
  | succ fuel ih =>
    rw [missing] at hm
    rw [createNode]
    split_ifs at hm with hnone
    rw [if_neg hnone]
    cases hc : cutLast path with
    | none => rfl
    | some q =>
      simp only [hc, Option.map_eq_none_iff] at hm
      simp [ih q.1 (some q.2) hm, Prom.addNamed]

theorem createNode_some {m : Nat} (h : HInv o l) (fuel : Nat) (path : Str) (name : Option Str)
    (hm : missing o fuel path = some m) (hf : Fresh o l [] (m + ((if name.isSome then 1 else 0) + k))) :
    ∃ l', HInv (createNode fuel path name o).2 l' ∧ (createNode fuel path name o).1 ∈ l' ∧
      Fresh (createNode fuel path name o).2 l' [] k := by
  induction fuel generalizing path name m k with
  | zero => simp [missing] at hm
  | succ fuel ih =>
    rw [missing] at hm
    rw [createNode]
    split at hm
    · rename_i hfound
      cases hm
      rw [if_pos hfound]
      rw [zero_add] at hf
      exact h.addNamed ((h.findDevByPath path).resolve_right hfound) name hf
    rename_i hnone
    rw [if_neg hnone]
    cases hc : cutLast path with
    | none => simp [hc] at hm
    | some q =>
      obtain ⟨dir, last⟩ := q
      simp only [hc, Option.map_eq_some_iff] at hm
      obtain ⟨m', hm', rfl⟩ := hm
      -- the nodes above take the first values
      obtain ⟨l1, h1, hpar, hf1⟩ := ih dir (some last) hm' (by simpa [add_assoc] using hf)
      exact h1.addNamed hpar name hf1

theorem promCreateNode (h : HInv o l) (path : Str) (hf : Fresh o l [] ((missing o (path.length + 1) path).getD 0)) :
    ∃ l', HInv (promCreateNode path o).2 l' := by
  unfold Prom.promCreateNode
  cases hm : missing o (path.length + 1) path with
  | none =>
    rw [createNode_none _ path none hm]
    exact ⟨l, h⟩
  | some m =>
    obtain ⟨l', h', -, -⟩ := h.createNode_some (k := 0) _ path none hm (by simpa [hm] using hf)
    exact ⟨l', h'⟩

/-! ### The guest -/

theorem changePHandle (h : HInv o l) (ph new : Word) (hnew : new ≠ 0 ∨ Prom.phandleToDn o ph = 0) :
    HInv (changePHandle ph new o).1 l := by
  unfold Prom.changePHandle
  simp only
  split
  · exact h
  rename_i hdn
  have hnew := hnew.resolve_right hdn
  split
  · rename_i hfree
    have hunused (n : Nat) (hn : n ∈ l) : o.node n ≠ new := by
      rintro rfl
      rw [h.phandleToDn hn] at hfree
      exact (h.pos n hn).ne' hfree
    refine { h with inj := ?_, zero := fun n hn => ?_ }
    · refine (nodup_map_iff_inj_on h.nodup).mpr fun x hx y hy hxy => ?_
      have hinj := (nodup_map_iff_inj_on h.nodup).mp h.inj x hx y hy
      simp only [update_apply] at hxy
      split at hxy <;> split at hxy
      · simp_all
      · exact absurd hxy.symm (hunused y hy)
      · exact absurd hxy (hunused x hx)
      · exact hinj hxy
    · simp only [update_apply]
      split
      · exact hnew
      · exact h.zero n hn
  · split
    · exact h
    · exact h

end HInv

/-! ## Runs -/

namespace Handle

inductive Event where
  | importOftree (text : Option Str)
  | importNode (par : Nat) (text : Option Str)
  | addNode (par : Nat) (name : Str)
  | createNode (path : Str)
  | change (ph new : Word)

def step : Event → OfTree → OfTree
  | .importOftree text, o => Prom.importOftree text o
  | .importNode par text, o => promImportNode par text o
  | .addNode par name, o => (Prom.addNode par name o).2
  | .createNode path, o => (promCreateNode path o).2
  | .change ph new, o => (changePHandle ph new o).1

def after : List Event → OfTree
  | [] => init
  | e :: es => step e (after es)

def Listed (o : OfTree) (n : Nat) : Prop := ∃ l, Seg o.next o.allnext l 0 ∧ 0 ∉ l ∧ n ∈ l

def Event.Legal (o : OfTree) : Event → Prop
  | .importNode par _ => Listed o par
  | .addNode par _ => Listed o par
  | _ => True

def Unused (o : OfTree) (given : List Word) (k : Nat) : Prop :=
  (given ++ counters o.nextPhandle k).Nodup ∧ 0 ∉ given ++ counters o.nextPhandle k ∧
    ∀ n, Listed o n → o.node n ∉ given ++ counters o.nextPhandle k

def Event.Fresh (o : OfTree) : Event → Prop
  | .importOftree text =>
    ∀ s, text = some s → Unused { o with allnext := 0 } (readForest s).given (readForest s).counted
  | .importNode _ text => ∀ s, text = some s → Unused o (readForest s).given (readForest s).counted
  | .addNode _ _ => Unused o [] 1
  | .createNode path => Unused o [] ((missing o (path.length + 1) path).getD 0)
  | .change ph new => new ≠ 0 ∨ phandleToDn o ph = 0

structure HandlesOk (o : OfTree) : Prop where
  /-- The nodes of the tree are on the list of all nodes. -/
  listed : ∀ n, Reach o n → Listed o n
  inj : ∀ m n, Listed o m → Listed o n → o.node m = o.node n → m = n
  zero : ∀ n, Listed o n → o.node n ≠ 0
  lookup : ∀ n, Listed o n → phandleToDn o (o.node n) = n

end Handle

open Handle

theorem listed_iff (hs : Seg o.next o.allnext l 0) (hzero : 0 ∉ l) : Listed o n ↔ n ∈ l := by
  constructor
  · rintro ⟨l', hs', hzero', hn⟩
    rw [seg_unique hs hs' hzero hzero']
    exact hn
  · exact fun hn => ⟨l, hs, hzero, hn⟩

namespace HInv

theorem zero_not_mem (h : HInv o l) : 0 ∉ l := fun h0 => (h.pos 0 h0).ne rfl

theorem listed (h : HInv o l) : Listed o n ↔ n ∈ l := listed_iff h.all h.zero_not_mem

theorem fresh (h : HInv o l) (hu : Unused o given k) : Fresh o l given k :=
  ⟨hu.1, hu.2.1, fun n hn => hu.2.2 n (h.listed.mpr hn)⟩

theorem level (h : HInv o l) {first : Nat} {ks : List Nat} (hfirst : first ∈ l ∨ first = 0)
    (hs : Seg o.sibling first ks 0)
    (hzero : 0 ∉ ks) : ∀ n ∈ ks, n ∈ l := by
  induction ks generalizing first with
  | nil => simp
  | cons x ks ih =>
    obtain ⟨rfl, hs⟩ := hs
    rw [mem_cons, not_or] at hzero
    have hx : first ∈ l := hfirst.resolve_right (Ne.symm hzero.1)
    intro n hn
    rcases mem_cons.mp hn with rfl | hn
    · exact hx
    · exact ih (h.sibling _ hx) hs hzero.2 n hn

theorem reach (h : HInv o l) (hr : Reach o n) : n ∈ l := by
  induction hr with
  | root hne => exact h.root.resolve_right hne
  | child _ hn ih =>
    obtain ⟨ks, hs, hzero, hn⟩ := hn
    exact h.level (h.child _ ih) hs hzero _ hn

theorem handlesOk (h : HInv o l) : HandlesOk o := by
  refine ⟨fun n hn => h.listed.mpr (h.reach hn), fun m n hm hn heq => ?_, fun n hn => h.zero n (h.listed.mp hn),
    fun n hn => h.phandleToDn (h.listed.mp hn)⟩
  exact (nodup_map_iff_inj_on h.nodup).mp h.inj m (h.listed.mp hm) n (h.listed.mp hn) heq

theorem init : HInv init [] :=
  .empty Nat.one_pos rfl rfl

theorem step {e : Handle.Event} (h : HInv o l) (hl : e.Legal o) (hf : e.Fresh o) : ∃ l', HInv (Handle.step e o) l' := by
  cases e with
  | importOftree text => exact importOftree h.top text fun s hs => ⟨(hf s hs).1, (hf s hs).2.1, by simp⟩
  | importNode par text =>
    cases text with
    | none =>
      refine ⟨l, ?_⟩
      change HInv (Prom.promImportNode par none o) l
      unfold Prom.promImportNode
      split
      · exact h
      · exact h
    | some s => exact h.promImportNode (h.listed.mp hl) s (h.fresh (hf s rfl))
  | addNode par name =>
    obtain ⟨l', h', -, -⟩ := h.addNode (k := 0) (h.listed.mp hl) name (h.fresh hf)
    exact ⟨l', h'⟩
  | createNode path => exact h.promCreateNode path (h.fresh hf)
  | change ph new => exact ⟨l, h.changePHandle ph new hf⟩

end HInv

/-- Handles identify nodes in every run that hands out new handles only. -/
theorem handles_identify (es : List Handle.Event)
    (hlegal : ∀ e es', e :: es' <:+ es → e.Legal (Handle.after es'))
    (hfresh : ∀ e es', e :: es' <:+ es → e.Fresh (Handle.after es')) : HandlesOk (Handle.after es) := by
  have hinv : ∃ l, HInv (Handle.after es) l := by
    induction es with
    | nil => exact ⟨[], .init⟩
    | cons e es ih =>
      obtain ⟨l, h⟩ := ih (fun e' es' hsuf => hlegal e' es' (hsuf.trans (suffix_cons e es)))
        fun e' es' hsuf => hfresh e' es' (hsuf.trans (suffix_cons e es))
      exact h.step (hlegal e es (suffix_refl _)) (hfresh e es (suffix_refl _))
  obtain ⟨l, h⟩ := hinv
  exact h.handlesOk

theorem handles_identify_mixed : HandlesOk (Handle.after [.change 1 0x3000, .createNode "/a".toList,
      .importOftree (some "{(mol_phandle 0x2000)}".toList)]) := by
  refine handles_identify _ (fun e es' hsuf => ?_) (fun e es' hsuf => ?_)
  · have he := hsuf.subset mem_cons_self
    simp only [mem_cons, not_mem_nil, or_false] at he
    rcases he with rfl | rfl | rfl <;> exact trivial
  simp only [suffix_cons_iff, suffix_nil, reduceCtorEq, or_false] at hsuf
  rcases hsuf with ⟨rfl, rfl⟩ | ⟨rfl, rfl⟩ | ⟨rfl, rfl⟩
  · exact .inl (by decide)
  · refine ⟨by decide, by decide, fun n hn => ?_⟩
    have hn : n ∈ [1] := by
      refine (listed_iff ?_ (by decide)).mp hn
      exact ⟨rfl, rfl⟩
    obtain rfl := mem_singleton.mp hn
    decide
  · rintro s ⟨⟩
    refine ⟨by decide, by decide, fun n hn => ?_⟩
    have hn : n ∈ [] := by
      refine (listed_iff ?_ (by decide)).mp hn
      exact rfl
    simp at hn

/-- A handle given twice, one set to 0, and one that the counter gives next. -/
theorem handles_clash :
    (Handle.after [.importOftree (some "{(mol_phandle 0x2000){(mol_phandle 0x2000)}}".toList)]).node 1 =
        (Handle.after [.importOftree (some "{(mol_phandle 0x2000){(mol_phandle 0x2000)}}".toList)]).node 2 ∧
      ¬ HandlesOk (Handle.after [.importOftree (some "{(mol_phandle 0x2000){(mol_phandle 0x2000)}}".toList)]) ∧
      ¬ HandlesOk (Handle.after [.change 1 0, .importOftree (some "{}".toList)]) ∧
      ¬ HandlesOk (Handle.after [.createNode "/a".toList, .change 1 2, .importOftree (some "{}".toList)]) := by
  refine ⟨by decide, fun h => ?_, fun h => ?_, fun h => ?_⟩
  · exact absurd (h.inj 1 2 ⟨[1, 2], ⟨rfl, rfl, rfl⟩, by decide, by decide⟩
      ⟨[1, 2], ⟨rfl, rfl, rfl⟩, by decide, by decide⟩
      (by decide)) (by decide)
  · exact h.zero 1 ⟨[1], ⟨rfl, rfl⟩, by decide, by decide⟩ (by decide)
  · exact absurd (h.inj 1 2 ⟨[1, 2], ⟨rfl, rfl, rfl⟩, by decide, by decide⟩
      ⟨[1, 2], ⟨rfl, rfl, rfl⟩, by decide, by decide⟩
      (by decide)) (by decide)

end MacOnLinux.Prom
