import MacOnLinux.Prom.Shape

/-! # Imports, new nodes and deletions in any order -/

namespace MacOnLinux.Prom

open Linked List

/-! ## What a tree is -/

def OnLevel (o : OfTree) (first n : Nat) : Prop := ∃ ks, Seg o.sibling first ks 0 ∧ 0 ∉ ks ∧ n ∈ ks

inductive Reach (o : OfTree) : Nat → Prop where
  | root (h : o.root ≠ 0) : Reach o o.root
  | child {p n : Nat} (hp : Reach o p) (hn : OnLevel o (o.child p) n) : Reach o n

structure TreeOk (o : OfTree) : Prop where
  /-- The list of all nodes has each of them once. -/
  all : ∃ l, Seg o.next o.allnext l 0 ∧ 0 ∉ l ∧ l.Nodup ∧ ∀ n, n ∈ l ↔ Reach o n
  /-- The lists of children end, and have each node once. -/
  children : ∀ p, Reach o p → ∃ ks, Seg o.sibling (o.child p) ks 0 ∧ 0 ∉ ks ∧ ks.Nodup
  /-- A node is on the list of its parent and on no other. -/
  listed : ∀ n, Reach o n → n ≠ o.root → Reach o (o.parent n) ∧ ∀ p, Reach o p →
    (OnLevel o (o.child p) n ↔ p = o.parent n)
  /-- From each node the parents lead to the root, and never back. -/
  ancestor : ∀ n, Reach o n → Anc o.parent o.root n
  acyclic : ∀ n, Reach o n → n ≠ o.root → ¬ Anc o.parent n (o.parent n)
  root : o.root ≠ 0 → o.parent o.root = 0

variable {o o' : OfTree} {l l' : List Nat} {kids kids' : Nat → List Nat} {n p dn : Nat}

namespace IsTree

theorem zero_not_mem (h : IsTree o l kids) (hp : p ∈ l) : 0 ∉ kids p :=
  fun h0 => (h.pos 0 ((h.family p hp).mem 0 h0)).ne rfl

theorem onLevel (h : IsTree o l kids) (hp : p ∈ l) : OnLevel o (o.child p) n ↔ n ∈ kids p := by
  have hf := h.family p hp
  have hzero : 0 ∉ kids p := h.zero_not_mem hp
  constructor
  · rintro ⟨ks, hs, hks, hn⟩
    rw [seg_unique hf.seg hs hzero hks]
    exact hn
  · exact fun hn => ⟨kids p, hf.seg, hzero, hn⟩

theorem reach (h : IsTree o l kids) : Reach o n ↔ n ∈ l := by
  constructor
  · intro hr
    induction hr with
    | root hne =>
      rcases h.root with ⟨hz, -⟩ | ⟨hm, -⟩
      · exact absurd hz hne
      · exact hm
    | child _ hn ih => exact (h.family _ ih).mem _ ((h.onLevel ih).mp hn)
  · intro hn
    induction n using Nat.strong_induction_on with
    | _ n ih =>
      by_cases hr : n = o.root
      · subst hr
        exact .root (h.pos _ hn).ne'
      · obtain ⟨hp, hk⟩ := h.listed n hn hr
        exact .child (ih _ (h.parent_lt hn hr) hp) ((h.onLevel hp).mpr hk)

theorem treeOk (h : IsTree o l kids) : TreeOk o := by
  constructor
  · exact ⟨l, h.all, fun h0 => (h.pos 0 h0).ne rfl, h.nodup, fun n => h.reach.symm⟩
  · intro p hp
    have hpl := h.reach.mp hp
    exact ⟨kids p, (h.family p hpl).seg, h.zero_not_mem hpl, (h.family p hpl).nodup⟩
  · intro n hn hne
    obtain ⟨hp, hk⟩ := h.listed n (h.reach.mp hn) hne
    refine ⟨h.reach.mpr hp, fun p hr => ?_⟩
    have hpl := h.reach.mp hr
    rw [h.onLevel hpl]
    constructor
    · exact fun hm => ((h.family p hpl).parent n hm).symm
    · rintro rfl
      exact hk
  · exact fun n hn => h.anc_root (h.reach.mp hn)
  · intro n hn hne hanc
    have hnl := h.reach.mp hn
    have hle := (h.anc_mem hanc (h.listed n hnl hne).1).2
    have hlt := h.parent_lt hnl hne
    omega
  · intro hne
    rcases h.root with ⟨hz, -⟩ | ⟨-, hz⟩
    · exact absurd hz hne
    · exact hz

end IsTree

/-! ## Runs -/

inductive Event where
  | importOftree (text : Option Str)
  | importNode (par : Nat) (text : Option Str)
  | addNode (par : Nat) (name : Str)
  | createNode (path : Str)
  | deleteNode (dn : Nat)

def step : Event → OfTree → Option OfTree
  | .importOftree text, o => some (importOftree text o)
  | .importNode par text, o => some (promImportNode par text o)
  | .addNode par name, o => some (addNode par name o).2
  | .createNode path, o => some (promCreateNode path o).2
  | .deleteNode dn, o => promDeleteNode dn o

def after : List Event → Option OfTree
  | [] => some init
  | e :: es => (after es).bind (step e)

def Event.Legal (o : OfTree) : Event → Prop
  | .importNode par _ | .addNode par _ => Reach o par
  | .deleteNode dn => Reach o dn ∧ dn ≠ o.root
  | .importOftree _ | .createNode _ => True

def Event.Single : Event → Prop
  | .importOftree text | .importNode _ text => ∀ s, text = some s → (readForest s).width ≤ 1
  | _ => True

theorem isTree_init : IsTree init [] (fun _ => []) := by
  refine ⟨.empty Nat.one_pos rfl, ?_, ?_, .inl ⟨rfl, rfl⟩⟩
  all_goals simp

theorem IsTree.promDeleteNode (h : IsTree o l kids) (hn : dn ∈ l) (hr : dn ≠ o.root) :
    ∃ o' l' kids', promDeleteNode dn o = some o' ∧ Pruned o o' l l' kids kids' (Anc o.parent dn) :=
  h.deleteNode (o.top + 1) hn hr (by omega)

theorem IsTree.step {e : Event} (h : IsTree o l kids) (hl : e.Legal o) (hs : e.Single) :
    ∃ o', step e o = some o' ∧ ∃ l' kids', IsTree o' l' kids' := by
  cases e with
  | importOftree text => exact ⟨_, rfl, IsTree.importOftree text h.top hs⟩
  | importNode par text =>
    refine ⟨_, rfl, ?_⟩
    cases text with
    | none =>
      unfold Prom.promImportNode
      split
      · exact ⟨l, kids, h⟩
      · exact ⟨l, kids, h⟩
    | some s => exact h.promImportNode (h.reach.mp hl) (hs s rfl)
  | addNode par name =>
    obtain ⟨l', kids', h', -⟩ := h.addNode (h.reach.mp hl) name
    exact ⟨_, rfl, l', kids', h'⟩
  | createNode path =>
    obtain ⟨l', kids', h', -⟩ := h.createNode (path.length + 1) path none
    exact ⟨_, rfl, l', kids', h'⟩
  | deleteNode dn =>
    obtain ⟨o', l', kids', hdel, hp⟩ := h.promDeleteNode (h.reach.mp hl.1) hl.2
    exact ⟨o', hdel, l', kids', hp.tree⟩

/-- The tree stays a tree, and a deletion takes out the node and its descendants. -/
theorem device_tree (es : List Event)
    (hlegal : ∀ e es', e :: es' <:+ es → ∀ o, after es' = some o → e.Legal o) (hsingle : ∀ e ∈ es, e.Single) :
    ∃ o, after es = some o ∧ TreeOk o ∧ ∀ dn, Reach o dn → dn ≠ o.root →
        ∃ o', promDeleteNode dn o = some o' ∧ ∀ n, Reach o' n ↔ Reach o n ∧ ¬ Anc o.parent dn n := by
  have hinv : ∃ o, after es = some o ∧ ∃ l kids, IsTree o l kids := by
    induction es with
    | nil => exact ⟨init, rfl, [], _, isTree_init⟩
    | cons e es ih =>
      obtain ⟨o, ho, l, kids, h⟩ := ih (fun e' es' hsuf => hlegal e' es' (hsuf.trans (suffix_cons e es)))
        (forall_mem_cons.mp hsingle).2
      obtain ⟨o', ho', h'⟩ := h.step (hlegal e es (suffix_refl _) o ho) (hsingle e mem_cons_self)
      exact ⟨o', by rw [after, ho, Option.bind_some, ho'], h'⟩
  obtain ⟨o, ho, l, kids, h⟩ := hinv
  refine ⟨o, ho, h.treeOk, fun dn hn hr => ?_⟩
  obtain ⟨o', l', kids', hdel, hp⟩ := h.promDeleteNode (h.reach.mp hn) hr
  refine ⟨o', hdel, fun n => ?_⟩
  rw [hp.tree.reach, h.reach, hp.mem]

theorem device_tree_created :
    ∃ o, after [.createNode "/a".toList, .importOftree (some "\x7b\x7d".toList)] = some o ∧ TreeOk o ∧
      ∀ dn, Reach o dn → dn ≠ o.root →
        ∃ o', promDeleteNode dn o = some o' ∧ ∀ n, Reach o' n ↔ Reach o n ∧ ¬ Anc o.parent dn n := by
  refine device_tree [.createNode "/a".toList, .importOftree (some "\x7b\x7d".toList)] (fun e es' hsuf o _ => ?_)
    (fun e he => ?_)
  · have he := hsuf.subset mem_cons_self
    simp only [mem_cons, not_mem_nil, or_false] at he
    rcases he with rfl | rfl <;> exact trivial
  · simp only [mem_cons, not_mem_nil, or_false] at he
    rcases he with rfl | rfl
    · exact trivial
    · rintro s ⟨⟩
      decide

/-- The second node on the first level has no parent, and deleting it fails. -/
theorem second_node_orphan :
    ∃ o, after [.importNode 1 (some "\x7b\x7d\x7b\x7d".toList), .importOftree (some "\x7b\x7d".toList)] = some o ∧
      Reach o 3 ∧ 3 ≠ o.root ∧ o.parent 3 = 0 ∧ promDeleteNode 3 o = none ∧ ¬ TreeOk o := by
  refine ⟨_, rfl, ?_⟩
  have hreach : Reach ((after [.importNode 1 (some "\x7b\x7d\x7b\x7d".toList),
    .importOftree (some "\x7b\x7d".toList)]).get rfl) 3 :=
    .child (.root (by decide)) ⟨[2, 3], ⟨rfl, rfl, rfl⟩, by decide, by decide⟩
  refine ⟨hreach, by decide, rfl, rfl, fun h => ?_⟩
  obtain ⟨l, -, hzero, -, hmem⟩ := h.all
  exact hzero ((hmem 0).mpr (h.listed 3 hreach (by decide)).1)

end MacOnLinux.Prom
