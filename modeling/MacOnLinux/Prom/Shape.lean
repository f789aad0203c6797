import MacOnLinux.Prom.Tree
import Mathlib.Data.List.Perm.Subperm

/-! # The device tree is a tree

A node always has a larger address than its parent.
-/

namespace MacOnLinux.Prom

open Function Linked List Nat

/-! ## Reading nodes -/

/-- A node has the same links in both states. -/
structure Agree (o o' : OfTree) (n : Nat) : Prop where
  parent : o'.parent n = o.parent n
  child : o'.child n = o.child n
  sibling : o'.sibling n = o.sibling n
  next : o'.next n = o.next n

variable {o o' o'' : OfTree} {n p dn par : Nat} {l : List Nat} {kids : Nat → List Nat}

variable {ks l' l : List Nat} {c : Nat} {kids' kids : Nat → List Nat} {gone gone' : Nat → Prop}
variable {o : OfTree}

theorem Agree.trans (h : Agree o o' n) (h' : Agree o' o'' n) : Agree o o'' n :=
  ⟨h'.parent.trans h.parent, h'.child.trans h.child, h'.sibling.trans h.sibling, h'.next.trans h.next⟩

theorem alloc_agree (hn : n ≠ o.top) (parent : Nat) (d : Desc) : Agree o (o.alloc parent d) n := by
  constructor <;> simp [OfTree.alloc, hn]

theorem close_agree (hn : n ≠ dn) (c : Nat) : Agree o (o.close dn c) n := by
  constructor <;> simp [OfTree.close, hn]

theorem sibling_agree (hn : n ≠ dn) (s : Nat) : Agree o { o with sibling := update o.sibling dn s } n := by
  constructor <;> simp [hn]

/-- The children of `p` are `ks`, all of them among the nodes `l`. -/
structure Family (o : OfTree) (l : List Nat) (p : Nat) (ks : List Nat) : Prop where
  seg : Seg o.sibling (o.child p) ks 0
  nodup : ks.Nodup
  mem : ∀ n ∈ ks, n ∈ l
  parent : ∀ n ∈ ks, o.parent n = p
  lt : ∀ n ∈ ks, p < n

theorem Family.congr (h : Family o l p ks) (hl : l ⊆ l') (hp : o'.child p = o.child p)
    (hks : ∀ n ∈ ks, Agree o o' n) : Family o' l' p ks where
  seg := by
    rw [hp, seg_congr fun n hn => (hks n hn).sibling]
    exact h.seg
  nodup := h.nodup
  mem := fun n hn => hl (h.mem n hn)
  parent := fun n hn => (hks n hn).parent.trans (h.parent n hn)
  lt := h.lt

/-- `read_node` adds the nodes `new`, with `roots` on the level of the first one. -/
structure Grown (o o' : OfTree) (parent first : Nat) (roots new : List Nat) (kids : Nat → List Nat) : Prop where
  top : o.top ≤ o'.top
  root : o'.root = o.root
  old : ∀ n < o.top, Agree o o' n
  mem : ∀ n, n ∈ new ↔ o.top ≤ n ∧ n < o'.top
  nodup : new.Nodup
  all : Seg o'.next o'.allnext new o.allnext
  level : Seg o'.sibling first roots 0
  rootsNodup : roots.Nodup
  rootsNew : ∀ r ∈ roots, r ∈ new
  rootsParent : ∀ r ∈ roots, o'.parent r = parent
  family : ∀ p ∈ new, Family o' new p (kids p)
  listed : ∀ n ∈ new, n ∉ roots → o'.parent n ∈ new ∧ n ∈ kids (o'.parent n)

section Node

-- the node at `o.top`, after the nodes below it, before those behind it
variable {parent s : Nat} {d : Desc} {o2 o4 : OfTree} {rootsC newC rootsS newS : List Nat}
variable {kidsC kidsS : Nat → List Nat}
variable (hc : Grown (o.alloc parent d) o2 o.top c rootsC newC kidsC)
variable (hs : Grown (o2.close o.top c) o4 parent s rootsS newS kidsS)

abbrev OfTree.linked (o : OfTree) (dn s : Nat) : OfTree := { o with sibling := update o.sibling dn s }

include hc in
theorem Grown.mem_children (n : Nat) : n ∈ newC ↔ o.top + 1 ≤ n ∧ n < o2.top := hc.mem n

include hs in
theorem Grown.mem_siblings (n : Nat) : n ∈ newS ↔ o2.top ≤ n ∧ n < o4.top := hs.mem n

include hs in
theorem Grown.keeps (hn : n < o2.top) (hne : n ≠ o.top) : Agree o2 (o4.linked o.top s) n :=
  ((close_agree hne c).trans (hs.old n hn)).trans (sibling_agree hne s)

include hc hs

theorem Grown.keeps_children (hn : n ∈ newC) : Agree o2 (o4.linked o.top s) n := by
  have hrange := (hc.mem_children n).mp hn
  exact hs.keeps hrange.2 (by omega)

theorem Grown.keeps_siblings (hn : n ∈ newS) : Agree o4 (o4.linked o.top s) n := by
  refine sibling_agree ?_ s
  have hrange := (hs.mem_siblings n).mp hn
  have htop : o.top + 1 ≤ o2.top := hc.top
  omega

theorem Grown.keeps_self : Agree (o2.close o.top c) o4 o.top :=
  hs.old o.top (lt_of_lt_of_le (lt_succ_self _) hc.top)

theorem Grown.parent_self : o4.parent o.top = parent := by
  rw [(hc.keeps_self hs).parent]
  simp only [OfTree.close]
  rw [(hc.old o.top (lt_succ_self _)).parent]
  simp [OfTree.alloc]

theorem Grown.nodup_node : (newS ++ o.top :: newC).Nodup := by
  have htop : o.top + 1 ≤ o2.top := hc.top
  rw [nodup_append, nodup_cons]
  refine ⟨hs.nodup, ⟨?_, hc.nodup⟩, ?_⟩
  · rw [hc.mem_children]
    omega
  intro a ha b hb
  rw [hs.mem_siblings] at ha
  rcases mem_cons.mp hb with rfl | hb
  · omega
  · rw [hc.mem_children] at hb
    omega

theorem Grown.all_node : Seg o4.next o4.allnext (newS ++ o.top :: newC) o.allnext := by
  rw [seg_append]
  refine ⟨o.top, hs.all, rfl, ?_⟩
  have hnext : o4.next o.top = o2.allnext := by
    rw [(hc.keeps_self hs).next]
    simp [OfTree.close]
  rw [hnext, seg_congr fun n hn => (hc.keeps_children hs hn).next]
  exact hc.all

/-- The children of the new node. -/
theorem Grown.family_self : Family (o4.linked o.top s) (newS ++ o.top :: newC) o.top rootsC where
  seg := by
    have hchild : o4.child o.top = c := by
      rw [(hc.keeps_self hs).child]
      simp [OfTree.close]
    simp only [hchild]
    rw [seg_congr fun n hn => (hc.keeps_children hs (hc.rootsNew n hn)).sibling]
    exact hc.level
  nodup := hc.rootsNodup
  mem := fun n hn => by simp [hc.rootsNew n hn]
  parent := fun n hn => (hc.keeps_children hs (hc.rootsNew n hn)).parent.trans (hc.rootsParent n hn)
  lt := fun n hn => ((hc.mem_children n).mp (hc.rootsNew n hn)).1

theorem Grown.family_node (hp : p ∈ newS ++ o.top :: newC) : Family (o4.linked o.top s) (newS ++ o.top :: newC) p
    (if p = o.top then rootsC else if p < o2.top then kidsC p else kidsS p) := by
  have htop : o.top + 1 ≤ o2.top := hc.top
  rcases mem_append.mp hp with hp | hp
  · have hrange := (hs.mem_siblings p).mp hp
    rw [if_neg (by omega), if_neg (by omega)]
    exact (hs.family p hp).congr (subset_append_left ..) rfl
      fun n hn => hc.keeps_siblings hs ((hs.family p hp).mem n hn)
  rcases mem_cons.mp hp with rfl | hp
  · rw [if_pos rfl]
    exact hc.family_self hs
  · have hrange := (hc.mem_children p).mp hp
    rw [if_neg (by omega), if_pos hrange.2]
    exact (hc.family p hp).congr (fun n hn => by simp [hn]) (hc.keeps_children hs hp).child
      fun n hn => hc.keeps_children hs ((hc.family p hp).mem n hn)

theorem Grown.listed_node (hn : n ∈ newS ++ o.top :: newC) (hroot : n ∉ o.top :: rootsS) :
    o4.parent n ∈ newS ++ o.top :: newC ∧ n ∈ if o4.parent n = o.top then rootsC
      else if o4.parent n < o2.top then kidsC (o4.parent n) else kidsS (o4.parent n) := by
  have htop : o.top + 1 ≤ o2.top := hc.top
  rw [mem_cons, not_or] at hroot
  rcases mem_append.mp hn with hn | hn
  · obtain ⟨hpn, hk⟩ := hs.listed n hn hroot.2
    have hrange := (hs.mem_siblings _).mp hpn
    rw [if_neg (by omega), if_neg (by omega)]
    exact ⟨mem_append_left _ hpn, hk⟩
  rcases mem_cons.mp hn with rfl | hn
  · exact absurd rfl hroot.1
  have hpar : o4.parent n = o2.parent n := (hc.keeps_children hs hn).parent
  rw [hpar]
  by_cases hr : n ∈ rootsC
  · rw [hc.rootsParent n hr]
    simp [hr]
  · obtain ⟨hpn, hk⟩ := hc.listed n hn hr
    have hrange := (hc.mem_children _).mp hpn
    rw [if_neg (by omega), if_pos hrange.2]
    exact ⟨by simp [hpn], hk⟩

theorem Grown.node : Grown o (o4.linked o.top s) parent o.top (o.top :: rootsS) (newS ++ o.top :: newC)
    (fun p => if p = o.top then rootsC else if p < o2.top then kidsC p else kidsS p) where
  top := le_trans (le_succ _) (le_trans hc.top hs.top)
  root := hs.root.trans hc.root
  old := by
    intro n hn
    have hne : n ≠ o.top := by omega
    have hlt : n < o2.top := lt_of_lt_of_le (lt_succ_of_lt hn) hc.top
    exact ((alloc_agree hne parent d).trans (hc.old n (lt_succ_of_lt hn))).trans (hs.keeps hlt hne)
  mem := by
    intro n
    have htopc : o.top + 1 ≤ o2.top := hc.top
    have htops : o2.top ≤ o4.top := hs.top
    rw [mem_append, mem_cons, hc.mem_children, hs.mem_siblings]
    show _ ↔ o.top ≤ n ∧ n < o4.top
    omega
  nodup := hc.nodup_node hs
  all := show Seg o4.next o4.allnext _ _ from hc.all_node hs
  level := by
    refine ⟨rfl, ?_⟩
    simp only [update_self]
    rw [seg_congr fun n hn => (hc.keeps_siblings hs (hs.rootsNew n hn)).sibling]
    exact hs.level
  rootsNodup := by
    refine nodup_cons.mpr ⟨fun hmem => ?_, hs.rootsNodup⟩
    have hrange := (hs.mem_siblings _).mp (hs.rootsNew _ hmem)
    have htop : o.top + 1 ≤ o2.top := hc.top
    omega
  rootsNew := by
    intro r hr
    rcases mem_cons.mp hr with rfl | hr
    · simp
    · exact mem_append_left _ (hs.rootsNew r hr)
  rootsParent := by
    intro r hr
    rcases mem_cons.mp hr with rfl | hr
    · show o4.parent _ = _
      exact hc.parent_self hs
    · exact hs.rootsParent r hr
  family := fun _ hp => hc.family_node hs hp
  listed := by
    intro n hn hroot
    have hlisted := hc.listed_node hs hn hroot
    exact hlisted

end Node

def Forest.width {β : Type} : Forest β → Nat
  | .nil => 0
  | .node _ _ s => s.width + 1

theorem readNode_grown (parent : Nat) (f : Forest Desc) (o : OfTree) :
    ∃ roots new kids, Grown o (readNode parent f o).2 parent (readNode parent f o).1 roots new kids ∧
      roots.length = f.width ∧ (f.width = 0 → new = []) := by
  induction f generalizing parent o with
  | nil =>
    refine ⟨[], [], fun _ => [], ⟨le_rfl, rfl, fun n _ => ⟨rfl, rfl, rfl, rfl⟩, fun n => ?_, nodup_nil, rfl, rfl,
      nodup_nil, ?_, ?_, ?_, ?_⟩, rfl, fun _ => rfl⟩
    · simp [readNode]
    all_goals simp
  | node d child sibling ihc ihs =>
    obtain ⟨rootsC, newC, kidsC, hc, -⟩ := ihc o.top (o.alloc parent d)
    obtain ⟨rootsS, newS, kidsS, hs, hlen, -⟩ := ihs parent ((readNode o.top child (o.alloc parent d)).2.close o.top
      (readNode o.top child (o.alloc parent d)).1)
    exact ⟨_, _, _, hc.node hs, by rw [length_cons, hlen, Forest.width], fun h => absurd h (succ_ne_zero _)⟩

/-! ## Lists of nodes -/

theorem length_lt_top {t : Nat} (hd : l.Nodup) (hpos : ∀ n ∈ l, 0 < n) (hlt : ∀ n ∈ l, n < t) (ht : 0 < t) :
    l.length < t := by
  have hzero : 0 ∉ l := fun hm => (hpos 0 hm).ne rfl
  have hsub : 0 :: l ⊆ range t := by
    intro n hn
    rw [mem_range]
    rcases mem_cons.mp hn with rfl | hn
    · exact ht
    · exact hlt n hn
  have hle := ((nodup_cons.mpr ⟨hzero, hd⟩).subperm hsub).length_le
  simpa [succ_le_iff] using hle

/-- The nodes are `l`. -/
structure Nodes (o : OfTree) (l : List Nat) : Prop where
  top : 0 < o.top
  all : Seg o.next o.allnext l 0
  nodup : l.Nodup
  pos : ∀ n ∈ l, 0 < n
  lt : ∀ n ∈ l, n < o.top

theorem Nodes.empty (htop : 0 < o.top) (hall : o.allnext = 0) : Nodes o [] :=
  ⟨htop, hall, nodup_nil, by simp, by simp⟩

theorem Nodes.grown {parent first : Nat} {roots new : List Nat} (h : Nodes o l)
    (hg : Grown o o' parent first roots new kids) : Nodes o' (new ++ l) where
  top := h.top.trans_le hg.top
  all := by
    rw [seg_append]
    refine ⟨_, hg.all, ?_⟩
    rw [seg_congr fun n hn => (hg.old n (h.lt n hn)).next]
    exact h.all
  nodup := by
    rw [nodup_append]
    refine ⟨hg.nodup, h.nodup, fun a ha b hb => ?_⟩
    have := (hg.mem a).mp ha
    have := h.lt b hb
    omega
  pos n hn := by
    rcases mem_append.mp hn with hn | hn
    · exact h.top.trans_le ((hg.mem n).mp hn).1
    · exact h.pos n hn
  lt n hn := by
    rcases mem_append.mp hn with hn | hn
    · exact ((hg.mem n).mp hn).2
    · exact (h.lt n hn).trans_le hg.top

theorem Nodes.addNode (h : Nodes o l) (hpar : par ∈ l) (name : Str) :
    ∃ l', Nodes (addNode par name o).2 l' ∧ l'.Perm (o.top :: l) := by
  have hdn : o.top ∉ l := fun hn => (h.lt _ hn).ne rfl
  obtain ⟨xs, ys, rfl⟩ := append_of_mem hpar
  have hperm : (xs ++ par :: o.top :: ys).Perm (o.top :: (xs ++ par :: ys)) := by
    rw [perm_iff_count]
    intro a
    simp only [count_append, count_cons]
    omega
  refine ⟨_, ⟨succ_pos _, seg_link h.all h.nodup hdn, ?_, fun n hn => ?_, fun n hn => ?_⟩, hperm⟩
  · exact hperm.nodup_iff.mpr (nodup_cons.mpr ⟨hdn, h.nodup⟩)
  · rcases mem_cons.mp (hperm.mem_iff.mp hn) with rfl | hn
    · exact h.top
    · exact h.pos n hn
  · rcases mem_cons.mp (hperm.mem_iff.mp hn) with rfl | hn
    · exact lt_succ_self _
    · exact (h.lt n hn).trans (lt_succ_self _)

theorem findDevByPath_mem (hroot : o.root ∈ l ∨ o.root = 0)
    (hchild : ∀ p ∈ l, ∀ s, findChild o p s ∈ l ∨ findChild o p s = 0)
    (path : Str) : findDevByPath o path ∈ l ∨ findDevByPath o path = 0 := by
  have hfold (parts : List Str) (dn : Nat) (hdn : dn ∈ l ∨ dn = 0) :
      parts.foldl (walk o) dn ∈ l ∨ parts.foldl (walk o) dn = 0 := by
    induction parts generalizing dn with
    | nil => exact hdn
    | cons s parts ih =>
      refine ih _ ?_
      unfold walk
      split_ifs with hgo
      · exact hdn
      · exact hchild dn (hdn.resolve_right (not_or.mp hgo).1) _
  exact hfold _ _ hroot

/-! ## The invariant -/

/-- The nodes are `l`, and the children of each of them are given by `kids`. -/
structure IsTree (o : OfTree) (l : List Nat) (kids : Nat → List Nat) : Prop extends Nodes o l where
  family : ∀ p ∈ l, Family o l p (kids p)
  listed : ∀ n ∈ l, n ≠ o.root → o.parent n ∈ l ∧ n ∈ kids (o.parent n)
  root : o.root = 0 ∧ l = [] ∨ o.root ∈ l ∧ o.parent o.root = 0

namespace IsTree

section Trees

variable (h : IsTree o l kids)

include h

theorem parent_lt (hn : n ∈ l) (hr : n ≠ o.root) : o.parent n < n := by
  obtain ⟨hp, hk⟩ := h.listed n hn hr
  exact (h.family _ hp).lt n hk

theorem parent_ne (hn : n ∈ l) (hr : n ≠ o.root) : o.parent n ≠ 0 :=
  (h.pos _ (h.listed n hn hr).1).ne'

theorem root_ne (hp : p ∈ l) (hn : n ∈ kids p) : n ≠ o.root := by
  rintro rfl
  have hparent := (h.family p hp).parent _ hn
  rcases h.root with ⟨-, rfl⟩ | ⟨-, hzero⟩
  · simp at hp
  · exact (h.pos p hp).ne' (hparent.symm.trans hzero)

theorem attach {new : List Nat} {r : Nat} (kidsN : Nat → List Nat)
    (hpar : par ∈ l) (hnodes : Nodes o' l') (hmem : ∀ n, n ∈ l' ↔ n ∈ new ∨ n ∈ l)
    (hnew : ∀ n ∈ new, o.top ≤ n) (hroot : o'.root = o.root)
    (hparent : ∀ n ∈ l, o'.parent n = o.parent n) (hsibling : ∀ n ∈ l, o'.sibling n = o.sibling n)
    (hchild : ∀ n ∈ l, n ≠ par → o'.child n = o.child n) (hfirst : o'.child par = r)
    (hr : r ∈ new) (hrp : o'.parent r = par) (hrs : o'.sibling r = o.child par)
    (hfam : ∀ p ∈ new, Family o' new p (kidsN p))
    (hlisted : ∀ n ∈ new, n ≠ r → o'.parent n ∈ new ∧ n ∈ kidsN (o'.parent n)) :
    IsTree o' l' (fun p => if p = par then r :: kids par else if p < o.top then kids p else kidsN p) := by
  have hold : l ⊆ l' := fun n hn => (hmem n).mpr (.inr hn)
  have hsub : new ⊆ l' := fun n hn => (hmem n).mpr (.inl hn)
  have hlt := h.lt par hpar
  refine ⟨hnodes, ?_, ?_, ?_⟩
  · intro p hp
    rcases (hmem p).mp hp with hp | hp
    · have hge := hnew p hp
      simp only [if_neg (show ¬ p = par by omega), if_neg (show ¬ p < o.top by omega)]
      exact ⟨(hfam p hp).seg, (hfam p hp).nodup, fun n hn => hsub ((hfam p hp).mem n hn), (hfam p hp).parent,
        (hfam p hp).lt⟩
    have hf := h.family p hp
    have hseg : Seg o'.sibling (o.child p) (kids p) 0 := by
      rw [seg_congr fun n hn => hsibling n (hf.mem n hn)]
      exact hf.seg
    by_cases heq : p = par
    · subst heq
      simp only [if_pos]
      have hge := hnew r hr
      refine ⟨⟨hfirst, by rw [hrs]; exact hseg⟩, nodup_cons.mpr ⟨fun hk => ?_, hf.nodup⟩, ?_, ?_, ?_⟩
      · have := h.lt r (hf.mem r hk)
        omega
      · intro n hn
        rcases mem_cons.mp hn with rfl | hn
        · exact hsub hr
        · exact hold (hf.mem n hn)
      · intro n hn
        rcases mem_cons.mp hn with rfl | hn
        · exact hrp
        · exact (hparent n (hf.mem n hn)).trans (hf.parent n hn)
      · intro n hn
        rcases mem_cons.mp hn with rfl | hn
        · omega
        · exact hf.lt n hn
    · simp only [if_neg heq, if_pos (h.lt p hp)]
      refine ⟨by rw [hchild p hp heq]; exact hseg, hf.nodup, fun n hn => hold (hf.mem n hn), ?_, hf.lt⟩
      intro n hn
      exact (hparent n (hf.mem n hn)).trans (hf.parent n hn)
  · intro n hn hne
    rw [hroot] at hne
    rcases (hmem n).mp hn with hn | hn
    · by_cases heq : n = r
      · subst heq
        rw [hrp]
        simp [hold hpar]
      · obtain ⟨hp, hk⟩ := hlisted n hn heq
        have hge := hnew _ hp
        refine ⟨hsub hp, ?_⟩
        simp only [if_neg (show ¬ o'.parent n = par by omega), if_neg (show ¬ o'.parent n < o.top by omega)]
        exact hk
    · obtain ⟨hp, hk⟩ := h.listed n hn hne
      rw [hparent n hn]
      refine ⟨hold hp, ?_⟩
      by_cases heq : o.parent n = par
      · rw [if_pos heq]
        rw [heq] at hk
        exact mem_cons_of_mem _ hk
      · rw [if_neg heq, if_pos (h.lt _ hp)]
        exact hk
  · rw [hroot]
    rcases h.root with ⟨hz, hnil⟩ | ⟨hm, hz⟩
    · rw [hnil] at hpar
      simp at hpar
    · exact .inr ⟨hold hm, (hparent _ hm).trans hz⟩

theorem promImportNode {f : Str} (hpar : par ∈ l) (hw : (readForest f).width ≤ 1) :
    ∃ l' kids', IsTree (promImportNode par (some f) o) l' kids' := by
  obtain ⟨roots, new, kidsN, hg, hlen, hnil⟩ := readNode_grown 0 (readForest f) o
  have hpos := h.pos par hpar
  unfold Prom.promImportNode importNode
  rw [if_neg hpos.ne']
  simp only
  generalize readNode 0 (readForest f) o = q at hg
  obtain ⟨r, o1⟩ := q
  simp only at hg ⊢
  have hnodes := h.toNodes.grown hg
  rcases roots with _ | ⟨r', _ | ⟨_, _⟩⟩
  · obtain rfl : r = 0 := hg.level
    obtain rfl := hnil (by simpa using hlen.symm)
    rw [if_neg (by simp)]
    refine ⟨l, kids, hnodes, ?_, ?_, ?_⟩
    · intro p hp
      refine (h.family p hp).congr (fun _ hn => hn) (hg.old p (h.lt p hp)).child fun n hn => ?_
      exact hg.old n (h.lt n ((h.family p hp).mem n hn))
    · intro n hn hne
      rw [hg.root] at hne
      rw [(hg.old n (h.lt n hn)).parent]
      exact h.listed n hn hne
    · rw [hg.root]
      rcases h.root with hz | ⟨hm, hz⟩
      · exact .inl hz
      · exact .inr ⟨hm, (hg.old _ (h.lt _ hm)).parent.trans hz⟩
  · obtain ⟨rfl, hsib⟩ : r = r' ∧ o1.sibling r' = 0 := hg.level
    have hr := hg.rootsNew r mem_cons_self
    have hrange := (hg.mem r).mp hr
    have htop := h.top
    have hlast : (scan o1.sibling (fun n => decide (o1.sibling n = 0)) o1.top r).getD 0 = r := by
      obtain ⟨k, hk⟩ : ∃ k, o1.top = k + 1 := ⟨o1.top - 1, by omega⟩
      rw [hk, scan, if_pos (by simpa using hsib)]
      rfl
    have hlt := h.lt par hpar
    have hne (n : Nat) (hn : n < o.top) : n ≠ r := by omega
    rw [if_pos ⟨hpos.ne', hne 0 h.top |>.symm⟩]
    simp only [hlast]
    have hnew (n : Nat) (hn : n ∈ new) : o.top ≤ n ∧ n < o1.top := (hg.mem n).mp hn
    have hnodes' : Nodes { o1 with
        child := update o1.child par r, parent := update o1.parent r par,
        sibling := update o1.sibling r (o1.child par) } (new ++ l) := { hnodes with }
    refine ⟨new ++ l, _, h.attach kidsN hpar hnodes' (fun n => mem_append) (fun n hn => (hnew n hn).1) hg.root
      ?_ ?_ ?_ (update_self ..) hr (update_self ..) ?_ ?_ ?_⟩
    · intro n hn
      simpa [hne n (h.lt n hn)] using (hg.old n (h.lt n hn)).parent
    · intro n hn
      simpa [hne n (h.lt n hn)] using (hg.old n (h.lt n hn)).sibling
    · intro n hn hnp
      simpa [hnp] using (hg.old n (h.lt n hn)).child
    · simpa using (hg.old par hlt).child
    · -- the root of the new nodes is nobody's child among them
      intro p hp
      have hf := hg.family p hp
      have hpne : p ≠ par := by
        have := hnew p hp
        omega
      have hkr : ∀ n ∈ kidsN p, n ≠ r := by
        rintro n hn rfl
        have hzero := hg.rootsParent n mem_cons_self
        have hp0 := hf.parent n hn
        have := hnew p hp
        omega
      refine ⟨?_, hf.nodup, hf.mem, fun n hn => ?_, hf.lt⟩
      · have hcongr : ∀ n ∈ kidsN p, update o1.sibling r (o1.child par) n = o1.sibling n := fun n hn => by
          simp [hkr n hn]
        rw [seg_congr hcongr]
        simpa [hpne] using hf.seg
      · simpa [hkr n hn] using hf.parent n hn
    · intro n hn hnr
      simpa [hnr] using hg.listed n hn (by simpa using hnr)
  · simp at hlen
    omega

end Trees

theorem importOftree (f : Option Str) (htop : 0 < o.top) (hw : ∀ text, f = some text → (readForest text).width ≤ 1) :
    ∃ l' kids', IsTree (importOftree f o) l' kids' := by
  unfold Prom.importOftree importNode
  cases f with
  | none => exact ⟨[], fun _ => [], .empty htop rfl, by simp, by simp, .inl ⟨rfl, rfl⟩⟩
  | some text =>
    simp only [ne_eq, not_true_eq_false, false_and, if_false]
    obtain ⟨roots, new, kidsN, hg, hlen, hnil⟩ := readNode_grown 0 (readForest text) { o with allnext := 0 }
    generalize readNode 0 (readForest text) { o with allnext := 0 } = q at hg
    obtain ⟨r, o1⟩ := q
    have hnew (n : Nat) (hn : n ∈ new) : o.top ≤ n ∧ n < o1.top := (hg.mem n).mp hn
    have hone := hw text rfl
    refine ⟨new, kidsN, ⟨htop.trans_le hg.top, hg.all, hg.nodup, fun n hn => htop.trans_le (hnew n hn).1,
      fun n hn => (hnew n hn).2⟩, fun p hp => ?_, ?_, ?_⟩
    · exact ⟨(hg.family p hp).seg, (hg.family p hp).nodup, (hg.family p hp).mem, (hg.family p hp).parent,
        (hg.family p hp).lt⟩
    · intro n hn hne
      refine hg.listed n hn fun hr => hne ?_
      rcases roots with _ | ⟨r', _ | ⟨_, _⟩⟩
      · simp at hr
      · obtain ⟨rfl, -⟩ : r = r' ∧ _ := hg.level
        simpa using hr
      · simp at hlen
        omega
    · rcases roots with _ | ⟨r', rest⟩
      · exact .inl ⟨hg.level, hnil (by simpa using hlen.symm)⟩
      · obtain ⟨rfl, -⟩ : r = r' ∧ _ := hg.level
        exact .inr ⟨hg.rootsNew _ mem_cons_self, hg.rootsParent _ mem_cons_self⟩

section Created

variable (h : IsTree o l kids)

include h

theorem addNode (hpar : par ∈ l) (name : Str) :
    ∃ l' kids', IsTree (addNode par name o).2 l' kids' ∧ (addNode par name o).1 ∈ l' := by
  have hlt := h.lt par hpar
  have hne (n : Nat) (hn : n ∈ l) : n ≠ o.top := (h.lt n hn).ne
  obtain ⟨l', hnodes, hperm⟩ := h.toNodes.addNode hpar name
  have hmem (n : Nat) : n ∈ l' ↔ n ∈ [o.top] ∨ n ∈ l := by
    rw [hperm.mem_iff, mem_cons, mem_singleton]
  refine ⟨l', _, h.attach (fun _ => []) hpar hnodes hmem ?_ rfl ?_ ?_ ?_ (update_self ..) mem_cons_self
    (update_self ..) (update_self ..) ?_ ?_, ?_⟩
  · intro n hn
    rw [mem_singleton.mp hn]
  · intro n hn
    simp [Prom.addNode, hne n hn]
  · intro n hn
    simp [Prom.addNode, hne n hn]
  · intro n hn hnp
    simp [Prom.addNode, hne n hn, hnp]
  · intro p hp
    rw [mem_singleton.mp hp]
    refine ⟨?_, nodup_nil, by simp, by simp, by simp⟩
    simp [Prom.addNode, hlt.ne']
  · intro n hn hnr
    exact absurd (mem_singleton.mp hn) hnr
  · exact (hmem _).mpr (.inl mem_cons_self)

/-! ### Paths -/

theorem length_lt (hks : ks ⊆ l) (hd : ks.Nodup) : ks.length < o.top :=
  length_lt_top hd (fun n hn => h.pos n (hks hn)) (fun n hn => h.lt n (hks hn)) h.top

theorem scan_kids (hp : p ∈ l) {stop : Nat → Bool} (hstop : stop 0 = true) :
    (scan o.sibling stop o.top (o.child p)).getD 0 ∈ l ∨ (scan o.sibling stop o.top (o.child p)).getD 0 = 0 := by
  have hf := h.family p hp
  obtain ⟨r, hr, hmem⟩ := scan_mem hf.seg hstop (h.length_lt hf.mem hf.nodup)
  rw [hr]
  exact hmem.imp_left (hf.mem r)

theorem findChild (hp : p ∈ l) (s : Str) : findChild o p s ∈ l ∨ findChild o p s = 0 := by
  unfold Prom.findChild
  simp only
  split
  · exact h.scan_kids hp rfl
  · exact h.scan_kids hp rfl

theorem findDevByPath (path : Str) : findDevByPath o path ∈ l ∨ findDevByPath o path = 0 := by
  refine findDevByPath_mem ?_ (fun p hp => h.findChild hp) path
  rcases h.root with ⟨hz, -⟩ | ⟨hm, -⟩
  · exact .inr hz
  · exact .inl hm

theorem addNamed (hpar : par ∈ l ∨ par = 0) (name : Option Str) :
    ∃ l' kids', IsTree (addNamed par name o).2 l' kids' ∧
      ((addNamed par name o).1 ∈ l' ∨ (addNamed par name o).1 = 0) := by
  unfold Prom.addNamed
  split
  · exact ⟨l, kids, h, .inr rfl⟩
  rename_i hne
  have hmem := hpar.resolve_right hne
  split
  · exact ⟨l, kids, h, .inl hmem⟩
  · obtain ⟨l', kids', h', hdn⟩ := h.addNode hmem _
    exact ⟨l', kids', h', .inl hdn⟩

theorem createNode (fuel : Nat) (path : Str) (name : Option Str) :
    ∃ l' kids', IsTree (createNode fuel path name o).2 l' kids' ∧
      ((createNode fuel path name o).1 ∈ l' ∨ (createNode fuel path name o).1 = 0) := by
  induction fuel generalizing path name with
  | zero => exact ⟨l, kids, h, .inr rfl⟩
  | succ fuel ih =>
    rw [Prom.createNode]
    split
    · exact h.addNamed (h.findDevByPath path) name
    · split
      · exact ⟨l, kids, h, .inr rfl⟩
      · rename_i dir last _
        obtain ⟨l', kids', h', hpar⟩ := ih dir (some last)
        exact h'.addNamed hpar name

end Created

end IsTree

/-! ## Ancestors -/

/-- `is_ancestor`; a node is its own ancestor. -/
inductive Anc (parent : Nat → Nat) (a : Nat) : Nat → Prop where
  | refl : Anc parent a a
  | up {n : Nat} (hne : parent n ≠ 0) (h : Anc parent a (parent n)) : Anc parent a n

namespace IsTree

variable {a c : Nat}

theorem ne_root (h : IsTree o l kids) (hn : n ∈ l) (hne : o.parent n ≠ 0) : n ≠ o.root := by
  rintro rfl
  rcases h.root with ⟨-, rfl⟩ | ⟨-, hz⟩
  · simp at hn
  · exact hne hz

theorem anc_mem (h : IsTree o l kids) (ha : Anc o.parent a n) (hn : n ∈ l) : a ∈ l ∧ a ≤ n := by
  induction ha with
  | refl => exact ⟨hn, le_rfl⟩
  | @up n hne _ ih =>
    have hr := h.ne_root hn hne
    obtain ⟨hm, hle⟩ := ih (h.listed n hn hr).1
    exact ⟨hm, hle.trans (h.parent_lt hn hr).le⟩

theorem anc_kid (h : IsTree o l kids) (ha : Anc o.parent a n) (hn : n ∈ l) (hne : n ≠ a) :
    ∃ c ∈ kids a, Anc o.parent c n := by
  induction ha with
  | refl => exact absurd rfl hne
  | @up n hpne _ ih =>
    have hr := h.ne_root hn hpne
    obtain ⟨hp, hk⟩ := h.listed n hn hr
    by_cases heq : o.parent n = a
    · subst heq
      exact ⟨n, hk, .refl⟩
    · obtain ⟨c, hc, hanc⟩ := ih hp heq
      exact ⟨c, hc, .up hpne hanc⟩

theorem anc_of_kid (h : IsTree o l kids) (ha : a ∈ l) (hc : c ∈ kids a) (hanc : Anc o.parent c n) :
    Anc o.parent a n := by
  have hparent := (h.family a ha).parent c hc
  induction hanc with
  | refl => exact .up (by rw [hparent]; exact (h.pos a ha).ne') (by rw [hparent]; exact .refl)
  | up hne _ ih => exact .up hne ih

theorem anc_root (h : IsTree o l kids) (hn : n ∈ l) : Anc o.parent o.root n := by
  induction n using Nat.strong_induction_on with
  | _ n ih =>
    by_cases hr : n = o.root
    · subst hr
      exact .refl
    · exact .up (h.parent_ne hn hr) (ih _ (h.parent_lt hn hr) (h.listed n hn hr).1)

end IsTree

/-! ## Deletion -/

structure Pruned (o o' : OfTree) (l l' : List Nat) (kids kids' : Nat → List Nat) (gone : Nat → Prop) : Prop where
  tree : IsTree o' l' kids'
  mem : ∀ n, n ∈ l' ↔ n ∈ l ∧ ¬ gone n
  kids : ∀ p ∈ l', kids' p = (kids p).filter (· ∈ l')
  parent : o'.parent = o.parent
  root : o'.root = o.root
  top : o'.top = o.top

theorem Pruned.trans {l'' : List Nat} {kids'' : Nat → List Nat}
    (h : Pruned o o' l l' kids kids' gone) (h' : Pruned o' o'' l' l'' kids' kids'' gone') :
    Pruned o o'' l l'' kids kids'' (fun n => gone n ∨ gone' n) where
  tree := h'.tree
  mem := fun n => by
    rw [h'.mem, h.mem, not_or, and_assoc]
  kids := fun p hp => by
    have hp' : p ∈ l' := ((h'.mem p).mp hp).1
    rw [h'.kids p hp, h.kids p hp', filter_filter]
    apply filter_congr
    intro n _
    have hsub : n ∈ l'' → n ∈ l' := fun hn => ((h'.mem n).mp hn).1
    by_cases hn : n ∈ l''
    · simp [hn, hsub hn]
    · simp [hn]
  parent := h'.parent.trans h.parent
  root := h'.root.trans h.root
  top := h'.top.trans h.top

theorem Pruned.congr (h : Pruned o o' l l' kids kids' gone) (hg : ∀ n ∈ l, gone n ↔ gone' n) :
    Pruned o o' l l' kids kids' gone' := by
  refine { h with mem := fun n => ?_ }
  rw [h.mem]
  exact and_congr_right fun hn => not_congr (hg n hn)

theorem unlink_spec (fuel : Nat) {head : Nat} {f : Nat → Nat} (hs : Seg f head l 0) (hd : l.Nodup) (hzero : 0 ∉ l)
    (hmem : dn ∈ l) (hlen : l.length < fuel) :
    ∃ head' f', unlink head f dn fuel = some (head', f') ∧ Seg f' head' (l.erase dn) 0 ∧ ∀ n, n ∉ l → f' n = f n := by
  obtain ⟨xs, ys, rfl⟩ := append_of_mem hmem
  have hf : xs.length < fuel := by
    simp only [length_append] at hlen
    omega
  rw [erase_append_right _ fun h => (nodup_append.mp hd).2.2 dn h dn mem_cons_self rfl, erase_cons_head]
  have hchain : Chain (link head f) 0 (xs ++ dn :: ys) 0 := by
    unfold Linked.Chain link
    rw [seg_update hzero]
    exact hs
  have hdn : dn ≠ 0 := fun h => hzero (by simp [h])
  have hcell : scan (link head f) (fun c => !(link head f c != 0 && link head f c != dn)) fuel 0 =
    some (xs.getLastD 0) := by
    have hgood : ∀ x ∈ xs, (x != 0 && x != dn) = true := by
      intro x hx
      have hx0 : x ≠ 0 := fun h => hzero (by simp [← h, hx])
      have hxd : x ≠ dn := (nodup_append.mp hd).2.2 x hx dn mem_cons_self
      simp [hx0, hxd]
    have hstop := scan_chain hchain hgood (by simp) hf
    exact hstop
  have hval : link head f (xs.getLastD 0) = dn := chain_next_last hchain
  unfold unlink
  simp only [hcell, hval, if_neg hdn]
  rcases eq_nil_or_concat xs with rfl | ⟨zs, c, rfl⟩
  · obtain ⟨rfl, hrest⟩ : head = dn ∧ _ := hs
    exact ⟨_, _, rfl, hrest, fun _ _ => rfl⟩
  rw [concat_eq_append] at *
  have hc0 : c ≠ 0 := fun h => hzero (by simp [h])
  rw [getLastD_concat, if_neg hc0]
  refine ⟨_, _, rfl, ?_, fun n hn => update_of_ne (fun h => hn (by simp [h])) _ _⟩
  -- the cell before `dn` is the last one of the first part
  rw [append_assoc, singleton_append] at hs hd ⊢
  obtain ⟨m, hz, rfl, hs'⟩ := seg_append.mp hs
  obtain ⟨hcd, hys⟩ := hs'
  have hnd := (nodup_append.mp hd)
  have hmz : m ∉ zs := fun h => hnd.2.2 m h m mem_cons_self rfl
  have hmy : m ∉ ys := fun h => (nodup_cons.mp hnd.2.1).1 (mem_cons_of_mem _ h)
  rw [seg_append]
  refine ⟨m, (seg_update hmz).mpr hz, rfl, ?_⟩
  rw [update_self, seg_update hmy]
  exact hys

theorem IsTree.unlinkLeaf (h : IsTree o l kids) (hn : dn ∈ l) (hr : dn ≠ o.root) (hleaf : kids dn = []) :
    ∃ o' l' kids', (unlinkSibling dn o).bind (unlinkAll dn) = some o' ∧ Pruned o o' l l' kids kids' (· = dn) := by
  obtain ⟨hp, hk⟩ := h.listed dn hn hr
  have hfp := h.family _ hp
  have hzero : 0 ∉ l := fun h0 => (h.pos 0 h0).ne rfl
  obtain ⟨head, sib, hsib, hseg, hsame⟩ := unlink_spec o.top hfp.seg hfp.nodup (fun h0 => hzero (hfp.mem 0 h0)) hk
    (h.length_lt hfp.mem hfp.nodup)
  obtain ⟨first, next, hnext, hall, -⟩ := unlink_spec o.top h.all h.nodup hzero hn
    (h.length_lt (List.Subset.refl l) h.nodup)
  have hmem (n : Nat) : n ∈ l.erase dn ↔ n ∈ l ∧ ¬ n = dn := by rw [h.nodup.mem_erase_iff, and_comm]
  have hrun : (unlinkSibling dn o).bind (unlinkAll dn) = some { o with
      child := update o.child (o.parent dn) head, sibling := sib, allnext := first, next := next } := by
    simp [unlinkSibling, hsib, Option.map_some, unlinkAll, hnext]
  have hkids (p : Nat) (hp' : p ∈ l.erase dn) : (kids p).erase dn = (kids p).filter (· ∈ l.erase dn) := by
    have hf := h.family p ((hmem p).mp hp').1
    rw [hf.nodup.erase_eq_filter]
    refine filter_congr fun n hk' => ?_
    rw [Bool.eq_iff_iff]
    simp [hmem, hf.mem n hk']
  refine ⟨_, l.erase dn, fun p => (kids p).erase dn, hrun, ?_, hmem, hkids, rfl, rfl, rfl⟩
  refine ⟨⟨h.top, hall, h.nodup.erase dn, fun n hm => h.pos n ((hmem n).mp hm).1,
    fun n hm => h.lt n ((hmem n).mp hm).1⟩, ?_, ?_, ?_⟩
  · intro p hp'
    have hf := h.family p ((hmem p).mp hp').1
    refine ⟨?_, hf.nodup.erase dn, fun n hm => ?_, fun n hm => hf.parent n (mem_of_mem_erase hm),
      fun n hm => hf.lt n (mem_of_mem_erase hm)⟩
    · by_cases heq : p = o.parent dn
      · subst heq
        simpa using hseg
      · have hcongr : ∀ n ∈ kids p, sib n = o.sibling n := by
          intro n hk'
          refine hsame n fun hx => heq ?_
          exact (hf.parent n hk').symm.trans (hfp.parent n hx)
        rw [erase_of_not_mem fun hm => heq (hf.parent dn hm).symm, seg_congr hcongr]
        simpa [heq] using hf.seg
    · obtain ⟨hne, hk'⟩ := hf.nodup.mem_erase_iff.mp hm
      exact (hmem n).mpr ⟨hf.mem n hk', hne⟩
  · intro n hm hne
    obtain ⟨hnl, hnd⟩ := (hmem n).mp hm
    obtain ⟨hpn, hkn⟩ := h.listed n hnl hne
    refine ⟨(hmem _).mpr ⟨hpn, fun heq => ?_⟩, (mem_erase_of_ne hnd).mpr hkn⟩
    rw [heq, hleaf] at hkn
    simp at hkn
  · rcases h.root with ⟨-, hnil⟩ | ⟨hm, hz⟩
    · rw [hnil] at hn
      simp at hn
    · exact .inr ⟨(hmem _).mpr ⟨hm, hr.symm⟩, hz⟩

theorem IsTree.deleteChildren {fuel : Nat}
    (ih : ∀ {o l kids c}, IsTree o l kids → c ∈ l → c ≠ o.root → o.top < c + fuel →
      ∃ o' l' kids', deleteNode fuel c o = some o' ∧ Pruned o o' l l' kids kids' (Anc o.parent c))
    {k : Nat} (h : IsTree o l kids) (hn : dn ∈ l) (hr : dn ≠ o.root) (hfuel : o.top ≤ dn + fuel)
    (hk : (kids dn).length < k) :
    ∃ o' l' kids', deleteChildren (deleteNode fuel) dn k o = some o' ∧
      Pruned o o' l l' kids kids' (fun n => n ≠ dn ∧ Anc o.parent dn n) := by
  induction k generalizing o l kids with
  | zero => exact absurd hk (not_lt_zero _)
  | succ k ihk =>
    have hf := h.family dn hn
    have hseg := hf.seg
    rw [Prom.deleteChildren]
    cases hks : kids dn with
    | nil =>
      rw [hks] at hseg
      have hzero : o.child dn = 0 := hseg
      rw [if_pos hzero]
      refine ⟨o, l, kids, rfl, h, fun n => ?_, fun p hp => ?_, rfl, rfl, rfl⟩
      · refine ⟨fun hm => ⟨hm, ?_⟩, And.left⟩
        rintro ⟨hne, hanc⟩
        obtain ⟨c, hc, -⟩ := h.anc_kid hanc hm hne
        simp [hks] at hc
      · exact (filter_eq_self.mpr fun n hm => decide_eq_true ((h.family p hp).mem n hm)).symm
    | cons c ks =>
      have hc : c ∈ kids dn := by simp [hks]
      rw [hks] at hseg
      obtain ⟨hchild, -⟩ := hseg
      have hcl := hf.mem c hc
      have hlt := hf.lt c hc
      rw [if_neg (by rw [hchild]; exact (h.pos c hcl).ne'), hchild]
      obtain ⟨o1, l1, kids1, hdel, hp1⟩ := ih h hcl (h.root_ne hn hc) (by omega)
      -- none of the others is below the first child
      have hstay (n : Nat) (hm : n ∈ l) (hnc : n ≠ c) (hpar : n = dn ∨ o.parent n = dn) : n ∈ l1 := by
        refine (hp1.mem n).mpr ⟨hm, fun hanc => ?_⟩
        have hle : c ≤ dn := by
          cases hanc with
          | refl => exact absurd rfl hnc
          | up hne hup =>
            rcases hpar with rfl | hpar
            · exact (h.anc_mem (.up hne hup) hm).2
            · rw [hpar] at hup
              exact (h.anc_mem hup hn).2
        omega
      have hn1 : dn ∈ l1 := hstay dn hn hlt.ne (.inl rfl)
      have hks1 : kids1 dn = ks := by
        have hnd := hf.nodup
        rw [hks] at hnd
        have hgone : ¬ decide (c ∈ l1) = true := by
          rw [decide_eq_true_eq, hp1.mem]
          exact fun hm => hm.2 .refl
        rw [hp1.kids dn hn1, hks, filter_cons_of_neg (p := fun x => decide (x ∈ l1)) hgone]
        refine filter_eq_self.mpr fun n hm => decide_eq_true (hstay n (hf.mem n (by simp [hks, hm])) ?_ (.inr ?_))
        · rintro rfl
          exact (nodup_cons.mp hnd).1 hm
        · exact hf.parent n (by simp [hks, hm])
      have hlen : (kids1 dn).length < k := by
        rw [hks] at hk
        rw [hks1]
        simpa using hk
      obtain ⟨o2, l2, kids2, hrest, hp2⟩ :=
        ihk hp1.tree hn1 (by rw [hp1.root]; exact hr) (by rw [hp1.top]; exact hfuel) hlen
      refine ⟨o2, l2, kids2, by rw [hdel, Option.bind_some, hrest], (hp1.trans hp2).congr fun n hm => ?_⟩
      rw [hp1.parent]
      constructor
      · rintro (hanc | hrest)
        · refine ⟨?_, h.anc_of_kid hn hc hanc⟩
          rintro rfl
          have := (h.anc_mem hanc hm).2
          omega
        · exact hrest
      · exact .inr

theorem IsTree.deleteNode (fuel : Nat) (h : IsTree o l kids) (hn : dn ∈ l) (hr : dn ≠ o.root)
    (hfuel : o.top < dn + fuel) :
    ∃ o' l' kids', deleteNode fuel dn o = some o' ∧ Pruned o o' l l' kids kids' (Anc o.parent dn) := by
  induction fuel generalizing o l kids dn with
  | zero =>
    have := h.lt dn hn
    omega
  | succ fuel ih =>
    have hlen := h.length_lt (h.family dn hn).mem (h.family dn hn).nodup
    obtain ⟨o1, l1, kids1, hkids, hp1⟩ := h.deleteChildren ih hn hr (by omega) hlen
    have hn1 : dn ∈ l1 := (hp1.mem dn).mpr ⟨hn, fun hg => hg.1 rfl⟩
    have hleaf : kids1 dn = [] := by
      rw [hp1.kids dn hn1, filter_eq_nil_iff]
      intro c hc hin
      have hanc : Anc o.parent dn c := h.anc_of_kid hn hc .refl
      exact ((hp1.mem c).mp (of_decide_eq_true hin)).2 ⟨((h.family dn hn).lt c hc).ne', hanc⟩
    obtain ⟨o2, l2, kids2, hunlink, hp2⟩ := hp1.tree.unlinkLeaf hn1 (by rw [hp1.root]; exact hr) hleaf
    refine ⟨o2, l2, kids2, ?_, (hp1.trans hp2).congr fun n _ => ?_⟩
    · rw [Prom.deleteNode, if_neg (h.pos dn hn).ne', if_neg (h.parent_ne hn hr), hkids, Option.bind_some, hunlink]
    constructor
    · rintro (⟨-, hanc⟩ | rfl)
      · exact hanc
      · exact .refl
    · intro hanc
      by_cases heq : n = dn
      · exact .inr heq
      · exact .inl ⟨heq, hanc⟩

end MacOnLinux.Prom
