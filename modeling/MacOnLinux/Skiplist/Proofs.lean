import Mathlib.Data.Finset.Card
import Mathlib.Data.List.TakeWhile
import MacOnLinux.Skiplist.Spec

/-! # The skiplist code keeps the map -/

namespace MacOnLinux.Skiplist

open Function Linked List Node

variable {ht : Nat → Nat} {xs ys : List (Int × Nat)} {sl : Sl} {m : SlMap} {key : Int} {e l : Nat}
variable {p : Node}

/-! ## Levels -/

theorem levelNodes_append (ht : Nat → Nat) (xs ys : List (Int × Nat)) (l : Nat) :
    levelNodes ht (xs ++ ys) l = levelNodes ht xs l ++ levelNodes ht ys l := by
  simp [levelNodes]

theorem mem_levelNodes :
    p ∈ levelNodes ht xs l ↔ ∃ x ∈ xs, l ≤ ht x.2 ∧ .el x.2 = p := by
  simp only [levelNodes, mem_map, mem_filter, decide_eq_true_eq]
  constructor
  · rintro ⟨x, ⟨hx, hl⟩, rfl⟩; exact ⟨x, hx, hl, rfl⟩
  · rintro ⟨x, hx, hl, rfl⟩; exact ⟨x, ⟨hx, hl⟩, rfl⟩

theorem levelNodes_succ_sublist (ht : Nat → Nat) (xs : List (Int × Nat)) (l : Nat) :
    (levelNodes ht xs (l + 1)).Sublist (levelNodes ht xs l) := by
  apply Sublist.map
  apply monotone_filter_right
  intro x hx
  simp only [decide_eq_true_eq] at *
  omega

theorem levelNodes_nodup (h : (xs.map (·.2)).Nodup) (l : Nat) : (levelNodes ht xs l).Nodup := by
  have h' : (xs.map (el ·.2)).Nodup := by
    have := h.map (f := el) (fun a b => el.inj)
    rwa [map_map] at this
  exact h'.sublist (Sublist.map _ filter_sublist)

theorem root_notMem_levelNodes (ht : Nat → Nat) (xs : List (Int × Nat)) (l : Nat) :
    root ∉ levelNodes ht xs l := by
  rw [mem_levelNodes]
  rintro ⟨x, -, -, h⟩
  cases h

theorem length_le_of_lt {l : List Nat} {n : Nat} (hd : l.Nodup) (hlt : ∀ x ∈ l, x < n) :
    l.length ≤ n := by
  rw [← toFinset_card_of_nodup hd, ← Finset.card_range n]
  apply Finset.card_le_card
  intro x hx
  exact Finset.mem_range.mpr (hlt x (mem_toFinset.mp hx))

theorem levelNodes_length_le (ht : Nat → Nat) (xs : List (Int × Nat)) (l : Nat) :
    (levelNodes ht xs l).length ≤ xs.length := by
  simp only [levelNodes, length_map]
  exact length_filter_le ..

/-! ## Where a search stops -/

structure Between (sl : Sl) (key : Int) (xs ys : List (Int × Nat)) : Prop where
  left : ∀ x ∈ xs, sl.key (.el x.2) < key
  right : ∀ y ∈ ys, key ≤ sl.key (.el y.2)
  atEnd : key < sl.key .nil
  room : xs.length ≤ sl.fresh

theorem headD_levelNodes {P : Node → Prop} (hnil : P .nil) (hys : ∀ y ∈ ys, P (.el y.2)) :
    P ((levelNodes ht ys l).headD .nil) := by
  cases hn : levelNodes ht ys l with
  | nil => exact hnil
  | cons q qs =>
    have hq : q ∈ levelNodes ht ys l := hn ▸ mem_cons_self
    obtain ⟨y, hy, -, rfl⟩ := mem_levelNodes.mp hq
    exact hys y hy

theorem seek_spec (hb : Between sl key xs ys)
    (hc : Chain (sl.next l) .root (levelNodes ht (xs ++ ys) l) .nil)
    (hp : p ∈ root :: levelNodes ht xs l) :
    seek sl l key p = some ((levelNodes ht xs l).getLastD .root) := by
  have hgood : ∀ q ∈ levelNodes ht xs l, decide (sl.key q < key) = true := by
    intro q hq
    obtain ⟨x, hx, -, rfl⟩ := mem_levelNodes.mp hq
    simpa using hb.left x hx
  have hbad : decide (sl.key ((levelNodes ht ys l).headD .nil) < key) = false := by
    have hge : key ≤ sl.key ((levelNodes ht ys l).headD .nil) :=
      headD_levelNodes (P := fun q => key ≤ sl.key q) (Int.le_of_lt hb.atEnd) hb.right
    simpa using hge
  have hlen := levelNodes_length_le ht xs l
  have hroom := hb.room
  rw [levelNodes_append] at hc
  rcases mem_cons.mp hp with rfl | hp
  · exact scan_chain hc hgood hbad (by omega)
  obtain ⟨as, bs, hab⟩ := append_of_mem hp
  rw [hab] at hc hgood hlen ⊢
  rw [append_assoc, cons_append, chain_append_cons] at hc
  rw [getLastD_append_cons]
  refine scan_chain hc.2 (fun q hq => hgood q (by simp [hq])) hbad ?_
  simp only [length_append, length_cons] at hlen
  omega

theorem getLastD_levelNodes_mem :
    (levelNodes ht xs (l + 1)).getLastD .root ∈ root :: levelNodes ht xs l := by
  rcases mem_cons.mp (getLastD_mem root (levelNodes ht xs (l + 1))) with h | h
  · rw [h]; exact mem_cons_self
  · exact mem_cons_of_mem _ ((levelNodes_succ_sublist ht xs l).subset h)

/-- Where the search at the level before `n` may start. -/
def OnPath (ht : Nat → Nat) (xs : List (Int × Nat)) (n : Nat) (p : Node) : Prop :=
  ∀ k, n = k + 1 → p ∈ root :: levelNodes ht xs k

theorem onPath_root (n : Nat) : OnPath ht xs n .root := fun _ _ => mem_cons_self

theorem onPath_last (n : Nat) : OnPath ht xs n ((levelNodes ht xs n).getLastD .root) := by
  rintro k rfl
  exact getLastD_levelNodes_mem

theorem setNext_next (sl : Sl) (n l : Nat) (p q : Node) :
    (sl.setNext n p q).next l = if l = n then update (sl.next n) p q else sl.next l := by
  unfold Sl.setNext
  by_cases h : l = n
  · subst h; simp
  · simp [h]

/-! ## Insertion -/

/-- What the loops over the levels leave alone. -/
structure SameBut (ps : List Node) (sl sl' : Sl) : Prop where
  key : sl'.key = sl.key
  freelist : sl'.freelist = sl.freelist
  fresh : sl'.fresh = sl.fresh
  nel : sl'.nel = sl.nel
  slevel : sl'.slevel = sl.slevel
  datasize : sl'.datasize = sl.datasize
  next : ∀ l, ∀ q ∉ ps, sl'.next l q = sl.next l q

theorem SameBut.refl (ps : List Node) (sl : Sl) : SameBut ps sl sl :=
  ⟨rfl, rfl, rfl, rfl, rfl, rfl, fun _ _ _ => rfl⟩

theorem SameBut.trans {ps : List Node} {a b c : Sl} (h : SameBut ps a b) (h' : SameBut ps b c) :
    SameBut ps a c :=
  ⟨h'.key.trans h.key, h'.freelist.trans h.freelist, h'.fresh.trans h.fresh, h'.nel.trans h.nel,
    h'.slevel.trans h.slevel, h'.datasize.trans h.datasize,
    fun l q hq => (h'.next l q hq).trans (h.next l q hq)⟩

theorem same_but_setNext {ps : List Node} (sl : Sl) (n : Nat) (q : Node) (hp : p ∈ ps) :
    SameBut ps sl (sl.setNext n p q) := by
  refine ⟨rfl, rfl, rfl, rfl, rfl, rfl, ?_⟩
  intro l r hr
  rw [setNext_next]
  split
  · subst_vars
    have hne : r ≠ p := fun h => hr (h ▸ hp)
    exact update_of_ne hne _ _
  · rfl

/-- The list when a loop has made `todo` into `done` at the levels from `n` on. -/
structure Half (ht : Nat → Nat) (todo done : List (Int × Nat)) (n : Nat) (sl : Sl) : Prop where
  above : ∀ l < maxHeight, n ≤ l → Chain (sl.next l) .root (levelNodes ht done l) .nil
  below : ∀ l < n, Chain (sl.next l) .root (levelNodes ht todo l) .nil

theorem Half.step {todo done : List (Int × Nat)} {n : Nat} {sl' : Sl} (h : Half ht todo done (n + 1) sl)
    (hother : ∀ l ≠ n, sl'.next l = sl.next l) (hc : Chain (sl'.next n) .root (levelNodes ht done n) .nil) :
    Half ht todo done n sl' := by
  constructor
  · intro l hl hn
    by_cases heq : l = n
    · exact heq ▸ hc
    · rw [hother l heq]
      exact h.above l hl (by omega)
  · intro l hl
    rw [hother l (by omega)]
    exact h.below l (by omega)

/-- The cells that a search left of the key can stop at. -/
def searchPath (xs : List (Int × Nat)) : List Node := .root :: xs.map (el ·.2)

theorem levelNodes_subset_path (hp : p ∈ root :: levelNodes ht xs l) : p ∈ searchPath xs := by
  rcases mem_cons.mp hp with rfl | hp
  · exact mem_cons_self
  · obtain ⟨x, hx, -, rfl⟩ := mem_levelNodes.mp hp
    exact mem_cons_of_mem _ (mem_map.mpr ⟨x, hx, rfl⟩)

theorem levelNodes_cons (ht : Nat → Nat) (x : Int × Nat) (xs : List (Int × Nat)) (l : Nat) :
    levelNodes ht (x :: xs) l =
      if l ≤ ht x.2 then .el x.2 :: levelNodes ht xs l else levelNodes ht xs l := by
  unfold levelNodes
  by_cases h : l ≤ ht x.2 <;> simp [h]

theorem levelNodes_skip (hlt : ¬ l ≤ ht e) :
    levelNodes ht (xs ++ (key, e) :: ys) l = levelNodes ht (xs ++ ys) l := by
  rw [levelNodes_append, levelNodes_cons, if_neg hlt, ← levelNodes_append]

theorem insert_level_spec {slev : Nat} (hd : ((xs ++ ys).map (·.2)).Nodup)
    (he : e ∉ (xs ++ ys).map (·.2)) (hh : Half ht (xs ++ ys) (xs ++ (key, e) :: ys) (slev + 1) sl) :
    let pleft := (levelNodes ht xs slev).getLastD .root
    Half ht (xs ++ ys) (xs ++ (key, e) :: ys) slev
      (if slev ≤ ht e then (sl.setNext slev (.el e) (sl.next slev pleft)).setNext slev pleft (.el e)
        else sl) := by
  intro pleft
  have hc := hh.below slev (by omega)
  by_cases hle : slev ≤ ht e
  · have hnd : (root :: (levelNodes ht xs slev ++ levelNodes ht ys slev)).Nodup := by
      rw [← levelNodes_append]
      exact nodup_cons.mpr ⟨root_notMem_levelNodes _ _ _, levelNodes_nodup hd slev⟩
    have hel : el e ∉ root :: (levelNodes ht xs slev ++ levelNodes ht ys slev) := by
      rw [← levelNodes_append, mem_cons, mem_levelNodes]
      rintro (h | ⟨x, hx, -, h⟩)
      · cases h
      · cases h
        exact he (mem_map.mpr ⟨x, hx, rfl⟩)
    rw [if_pos hle]
    refine hh.step (fun l hl => ?_) ?_
    · rw [setNext_next, if_neg hl, setNext_next, if_neg hl]
    rw [setNext_next, if_pos rfl, setNext_next, if_pos rfl, levelNodes_append, levelNodes_cons, if_pos hle]
    rw [levelNodes_append] at hc
    exact chain_link hc hnd hel
  · rw [if_neg hle]
    refine hh.step (fun _ _ => rfl) ?_
    rwa [levelNodes_skip hle]

theorem Between.same {sl' : Sl} (hb : Between sl key xs ys) (hk : sl'.key = sl.key)
    (hf : sl'.fresh = sl.fresh) : Between sl' key xs ys := by
  constructor
  · rw [hk]; exact hb.left
  · rw [hk]; exact hb.right
  · rw [hk]; exact hb.atEnd
  · rw [hf]; exact hb.room

theorem insert_loop_spec (hd : ((xs ++ ys).map (·.2)).Nodup) (he : e ∉ (xs ++ ys).map (·.2)) :
    ∀ (slev : Nat) (sl : Sl) (pleft : Node), slev ≤ maxHeight → Between sl key xs ys →
      Half ht (xs ++ ys) (xs ++ (key, e) :: ys) slev sl → OnPath ht xs slev pleft →
      ∃ sl', insertLoop key (.el e) (ht e) slev sl pleft = some sl' ∧
        Half ht (xs ++ ys) (xs ++ (key, e) :: ys) 0 sl' ∧ SameBut (.el e :: searchPath xs) sl sl' := by
  intro slev
  induction slev with
  | zero =>
    intro sl pleft _ _ hh _
    exact ⟨sl, rfl, hh, SameBut.refl _ _⟩
  | succ slev ih =>
    intro sl pleft hmax hb hh hp
    have hseek := seek_spec hb (hh.below slev (by omega)) (hp slev rfl)
    have hlevel := insert_level_spec hd he hh
    have hmem : (levelNodes ht xs slev).getLastD .root ∈ root :: levelNodes ht xs slev :=
      getLastD_mem _ _
    set pleft' := (levelNodes ht xs slev).getLastD .root with hpl
    set sl1 := if slev ≤ ht e then
      (sl.setNext slev (.el e) (sl.next slev pleft')).setNext slev pleft' (.el e) else sl with hsl1
    have hsame : SameBut (.el e :: searchPath xs) sl sl1 := by
      rw [hsl1]
      split
      · exact (same_but_setNext sl slev _ mem_cons_self).trans
          (same_but_setNext _ slev _ (mem_cons_of_mem _ (levelNodes_subset_path hmem)))
      · exact SameBut.refl _ _
    obtain ⟨sl', hrun, hdone, hsame'⟩ := ih sl1 pleft' (by omega)
      (hb.same hsame.key hsame.fresh) hlevel (onPath_last slev)
    refine ⟨sl', ?_, hdone, hsame.trans hsame'⟩
    unfold insertLoop
    rw [hseek]
    exact hrun

/-! ## The map around a key -/

theorem below_append_above (m : SlMap) (key : Int) : m.below key ++ m.above key = m.live :=
  takeWhile_append_dropWhile

theorem below_lt {x : Int × Nat} (hx : x ∈ m.below key) : x.1 < key := by
  have := mem_takeWhile_imp hx
  simpa using this

theorem above_ge (hs : m.live.Pairwise (·.1 < ·.1)) {y : Int × Nat} (hy : y ∈ m.above key) :
    key ≤ y.1 := by
  unfold SlMap.above at hy
  generalize m.live = live at *
  induction live with
  | nil => simp at hy
  | cons x xs ih =>
    rw [pairwise_cons] at hs
    rw [dropWhile_cons] at hy
    split_ifs at hy with hx
    · exact ih hs.2 hy
    · have hx : key ≤ x.1 := by simpa using hx
      rcases mem_cons.mp hy with rfl | hy
      · exact hx
      · have := hs.1 y hy; omega

theorem mem_live_iff {x : Int × Nat} (key : Int) :
    x ∈ m.live ↔ x ∈ m.below key ∨ x ∈ m.above key := by
  rw [← below_append_above m key, mem_append]

theorem lookup_eq_some (hs : m.live.Pairwise (·.1 < ·.1)) :
    m.lookup key = some e ↔ (key, e) ∈ m.live := by
  unfold SlMap.lookup
  generalize m.live = live at *
  induction live with
  | nil => simp
  | cons x xs ih =>
    rw [pairwise_cons] at hs
    by_cases hx : x.1 = key
    · rw [find?_cons_of_pos (by simpa using hx)]
      simp only [Option.map_some, Option.some.injEq, mem_cons]
      constructor
      · rintro rfl; exact .inl (by rw [← hx])
      · rintro (h | h)
        · rw [← h]
        · have := hs.1 _ h; simp only at this; omega
    · rw [find?_cons_of_neg (by simpa using hx), ih hs.2, mem_cons]
      constructor
      · exact .inr
      · rintro (h | h)
        · exact absurd (by rw [← h]) hx
        · exact h

theorem lookup_eq_none :
    m.lookup key = none ↔ ∀ x ∈ m.live, x.1 ≠ key := by
  simp [SlMap.lookup]

theorem above_of_absent (hs : m.live.Pairwise (·.1 < ·.1)) (hl : m.lookup key = none)
    {y : Int × Nat} (hy : y ∈ m.above key) : key < y.1 := by
  have h1 := above_ge hs hy
  have h2 := lookup_eq_none.mp hl y ((mem_live_iff key).mpr (.inr hy))
  omega

theorem Rep.live_lt (hr : Rep m sl) {x : Int × Nat} (hx : x ∈ m.live) : x.2 < sl.fresh :=
  hr.owned _ (mem_append_left _ (mem_map.mpr ⟨x, hx, rfl⟩))

theorem Rep.length_live (hr : Rep m sl) : m.live.length ≤ sl.fresh := by
  have hlen := length_le_of_lt (nodup_append.mp hr.nodup).1 fun e he => hr.owned e (mem_append_left _ he)
  rwa [length_map] at hlen

theorem Rep.between (hr : Rep m sl) (hk : key < skiplistEnd) :
    Between sl key (m.below key) (m.above key) := by
  have hlen := hr.length_live
  constructor
  · intro x hx
    rw [(hr.keys x ((mem_live_iff key).mpr (.inl hx))).1]
    exact below_lt hx
  · intro y hy
    rw [(hr.keys y ((mem_live_iff key).mpr (.inr hy))).1]
    exact above_ge hr.sorted hy
  · rw [hr.nilKey]; exact hk
  · rw [← below_append_above m key] at hlen
    rw [length_append] at hlen
    omega

theorem freelist_eq (hr : Rep m sl) :
    sl.freelist = (m.free.head?.map el).getD .null := by
  have := hr.free
  cases hf : m.free with
  | nil => rw [hf] at this; simpa using this
  | cons e fs => rw [hf] at this; simpa using this.1

theorem Rep.free_notMem_path (hr : Rep m sl) (hf : e ∈ m.free) : .el e ∉ searchPath (m.below key) := by
  intro hm
  obtain ⟨x, hx, h⟩ := mem_map.mp ((mem_cons.mp hm).resolve_left nofun)
  cases h
  have hlive : x ∈ m.live := (mem_live_iff key).mpr (.inl hx)
  exact (nodup_append.mp hr.nodup).2.2 x.2 (mem_map.mpr ⟨x, hlive, rfl⟩) x.2 hf rfl

def toNode (e : Option Nat) : Node := (e.map el).getD .null

theorem searchLevel_lt (nel : Nat) : searchLevel nel < maxHeight := by
  unfold searchLevel maxHeight
  omega

theorem insert_perm (m : SlMap) (key : Int) :
    Perm ((m.insert key).live.map (·.2) ++ (m.insert key).free)
      (m.live.map (·.2) ++ m.free) := by
  unfold SlMap.insert
  cases hf : m.free with
  | nil => simp [hf]
  | cons e fs =>
    rw [← below_append_above m key]
    simp only [map_append, append_assoc]
    exact Perm.append_left _ perm_middle.symm

theorem skiplist_insert_spec (hr : Rep m sl) (hk : key < skiplistEnd) (ha : m.lookup key = none) :
    ∃ sl', skiplistInsert sl key = some (sl', toNode m.free.head?) ∧ Rep (m.insert key) sl' ∧
      sl'.fresh = sl.fresh ∧ sl'.datasize = sl.datasize := by
  have hfl := freelist_eq hr
  cases hf : m.free with
  | nil =>
    rw [hf] at hfl
    refine ⟨sl, ?_, ?_, rfl, rfl⟩
    · unfold skiplistInsert; simp [hfl, toNode]
    · unfold SlMap.insert; rw [hf]; exact hr
  | cons e fs =>
    have hfree := hr.free
    rw [hf] at hfl hfree
    simp only [head?_cons, Option.map_some, Option.getD_some] at hfl
    obtain ⟨-, hrest⟩ := seg_cons.mp hfree
    have hnd := hr.nodup
    rw [hf, nodup_append] at hnd
    obtain ⟨hdl, hdf, hdis⟩ := hnd
    have hel : e ∉ m.live.map (·.2) := fun h => hdis e h e mem_cons_self rfl
    have hkey : sl.key (.el e) = m.ht e := hr.freeKeys e (by rw [hf]; exact mem_cons_self)
    have hhe := hr.height e
    -- The list right before the loop: `e` is off the freelist and has its key.
    set sl1 : Sl := { sl with
      freelist := sl.next 0 (.el e)
      key := update sl.key (.el e) key
      nel := sl.nel + 1
      slevel := searchLevel (sl.nel + 1) } with hsl1
    have hkeys : ∀ x ∈ m.live, sl1.key (.el x.2) = sl.key (.el x.2) := by
      intro x hx
      apply update_of_ne
      rintro h
      exact hel (el.inj h ▸ mem_map.mpr ⟨x, hx, rfl⟩)
    have hb := hr.between hk
    have hb1 : Between sl1 key (m.below key) (m.above key) := by
      constructor
      · intro x hx; rw [hkeys x ((mem_live_iff key).mpr (.inl hx))]; exact hb.left x hx
      · intro y hy; rw [hkeys y ((mem_live_iff key).mpr (.inr hy))]; exact hb.right y hy
      · exact hb.atEnd
      · exact hb.room
    have hhalf : Half m.ht (m.below key ++ m.above key) (m.below key ++ (key, e) :: m.above key)
        (max (searchLevel (sl.nel + 1)) (m.ht e) + 1) sl1 := by
      constructor
      · intro l hl hle
        rw [levelNodes_skip (by omega), below_append_above]
        exact hr.levels l hl
      · intro l hl
        rw [below_append_above]
        have := searchLevel_lt (sl.nel + 1)
        exact hr.levels l (by omega)
    obtain ⟨sl', hrun, hdone, hsame⟩ := insert_loop_spec
      (by rw [below_append_above]; exact hdl) (by rw [below_append_above]; exact hel)
      (max (searchLevel (sl.nel + 1)) (m.ht e) + 1) sl1 .root
      (by have := searchLevel_lt (sl.nel + 1); omega) hb1 hhalf (onPath_root _)
    refine ⟨sl', ?_, ?_, hsame.fresh, hsame.datasize⟩
    · unfold skiplistInsert
      rw [if_neg (by rw [hfl]; simp), hfl, hkey, Int.toNat_natCast]
      simp [← hsl1, hrun, some_bind, toNode, head?_cons, Option.map_some]
    have hins : m.insert key =
        { m with live := m.below key ++ (key, e) :: m.above key, free := fs } := by
      unfold SlMap.insert; rw [hf]
    have hmem : ∀ x ∈ m.below key ++ (key, e) :: m.above key, x = (key, e) ∨ x ∈ m.live := by
      intro x hx
      rw [mem_live_iff key]
      simp only [mem_append, mem_cons] at hx
      tauto
    have hperm := insert_perm m key
    rw [hins] at hperm ⊢
    constructor
    · exact fun l hl => hdone.above l hl (Nat.zero_le _)
    · rw [pairwise_append]
      have hs := hr.sorted
      rw [← below_append_above m key, pairwise_append] at hs
      refine ⟨hs.1, pairwise_cons.mpr ⟨fun y hy => above_of_absent hr.sorted ha hy, hs.2.1⟩, ?_⟩
      intro x hx y hy
      rcases mem_cons.mp hy with rfl | hy
      · exact below_lt hx
      · exact hs.2.2 x hx y hy
    · intro x hx
      rw [hsame.key]
      rcases hmem x hx with rfl | hx
      · exact ⟨update_self .., hk⟩
      · rw [hkeys x hx]; exact hr.keys x hx
    · rw [hsame.key]; exact hr.nilKey
    · rw [hsame.freelist]
      apply (seg_congr ?_).mpr hrest
      · intro q hq
        obtain ⟨f, hfm, rfl⟩ := mem_map.mp hq
        refine hsame.next 0 _ fun hm => ?_
        rcases mem_cons.mp hm with h | h
        · cases h
          exact (nodup_cons.mp hdf).1 hfm
        · exact hr.free_notMem_path (by rw [hf]; exact mem_cons_of_mem _ hfm) h
    · intro f hfm
      rw [hsame.key]
      have hne : f ≠ e := fun h => (nodup_cons.mp hdf).1 (h ▸ hfm)
      have : sl1.key (.el f) = sl.key (.el f) :=
        update_of_ne (fun h => hne (el.inj h)) _ _
      rw [this]
      exact hr.freeKeys f (by rw [hf]; exact mem_cons_of_mem _ hfm)
    · exact hr.height
    · exact hperm.nodup_iff.mpr hr.nodup
    · intro f hfm
      rw [hsame.fresh]
      exact hr.owned f (hperm.mem_iff.mp hfm)
    · rw [hsame.slevel]; exact searchLevel_lt _

/-! ## Deletion -/

/-- What the loop has found above level `n`: nothing yet, or `e` and its height. -/
def Found (ht : Nat → Nat) (e n : Nat) (delptr : Node) (level : Option Nat) : Prop :=
  if ht e < n then level = none else delptr = .el e ∧ level = some (ht e)

theorem next_seek_present
    (hc : Chain (sl.next l) .root (levelNodes ht (xs ++ (key, e) :: ys) l) .nil) (hle : l ≤ ht e) :
    sl.next l ((levelNodes ht xs l).getLastD .root) = .el e := by
  rw [levelNodes_append, levelNodes_cons, if_pos hle] at hc
  rw [chain_next_last hc]
  rfl

theorem next_seek_absent (hc : Chain (sl.next l) .root (levelNodes ht (xs ++ ys) l) .nil)
    (hnil : key < sl.key .nil) (hys : ∀ y ∈ ys, key < sl.key (.el y.2)) :
    key < sl.key (sl.next l ((levelNodes ht xs l).getLastD .root)) := by
  rw [levelNodes_append] at hc
  rw [chain_next_last hc]
  exact headD_levelNodes (P := fun q => key < sl.key q) hnil hys

theorem delete_level_spec {n : Nat} (hd : ((xs ++ (key, e) :: ys).map (·.2)).Nodup)
    (hh : Half ht (xs ++ (key, e) :: ys) (xs ++ ys) (n + 1) sl) (hle : n ≤ ht e) :
    Half ht (xs ++ (key, e) :: ys) (xs ++ ys) n
      (sl.setNext n ((levelNodes ht xs n).getLastD .root) (sl.next n (.el e))) := by
  have hc := hh.below n (by omega)
  have hnd : (root :: (levelNodes ht xs n ++ .el e :: levelNodes ht ys n)).Nodup := by
    have hlev : levelNodes ht xs n ++ .el e :: levelNodes ht ys n =
        levelNodes ht (xs ++ (key, e) :: ys) n := by
      rw [levelNodes_append, levelNodes_cons, if_pos hle]
    rw [hlev]
    exact nodup_cons.mpr ⟨root_notMem_levelNodes _ _ _, levelNodes_nodup hd n⟩
  refine hh.step (fun l hl => ?_) ?_
  · rw [setNext_next, if_neg hl]
  rw [setNext_next, if_pos rfl, levelNodes_append]
  rw [levelNodes_append, levelNodes_cons, if_pos hle] at hc
  exact chain_unlink hc hnd

theorem delete_loop_present (hd : ((xs ++ (key, e) :: ys).map (·.2)).Nodup) :
    ∀ (n : Nat) (sl : Sl) (p delptr : Node) (level : Option Nat), n ≤ maxHeight →
      Between sl key xs ((key, e) :: ys) → sl.key (.el e) = key → (∀ y ∈ ys, key < sl.key (.el y.2)) →
      Half ht (xs ++ (key, e) :: ys) (xs ++ ys) n sl → Found ht e n delptr level → OnPath ht xs n p →
      ∃ sl', deleteLoop key n sl p delptr level = some (sl', .el e, some (ht e)) ∧
        Half ht (xs ++ (key, e) :: ys) (xs ++ ys) 0 sl' ∧ SameBut (searchPath xs) sl sl' := by
  intro n
  induction n with
  | zero =>
    intro sl p delptr level _ _ _ _ hh hf _
    obtain ⟨rfl, rfl⟩ := hf
    exact ⟨sl, rfl, hh, SameBut.refl _ _⟩
  | succ n ih =>
    intro sl p delptr level hmax hb hkey hys hh hf hp
    have hseek := seek_spec hb (hh.below n (by omega)) (hp n rfl)
    have hmem : (levelNodes ht xs n).getLastD .root ∈ root :: levelNodes ht xs n :=
      getLastD_mem _ _
    unfold deleteLoop
    simp only [hseek, some_bind]
    by_cases hle : n ≤ ht e
    · -- `e` is linked here, so the loop meets it; above its height it had not.
      have hat := next_seek_present (hh.below n (by omega)) hle
      rw [hat, if_neg (by simp [hkey])]
      have hfound : firstMet delptr level (.el e) n = (.el e, ht e) := by
        unfold Found at hf
        unfold firstMet
        split at hf
        · subst hf
          simp only [Prod.mk.injEq, true_and]
          omega
        · obtain ⟨rfl, rfl⟩ := hf; rfl
      rw [hfound]
      have hsame : SameBut (searchPath xs) sl
          (sl.setNext n ((levelNodes ht xs n).getLastD .root) (sl.next n (.el e))) :=
        same_but_setNext sl n _ (levelNodes_subset_path hmem)
      obtain ⟨sl', hrun, hdone, hsame'⟩ := ih
        (sl.setNext n ((levelNodes ht xs n).getLastD .root) (sl.next n (.el e)))
        ((levelNodes ht xs n).getLastD .root) (.el e) (some (ht e)) (by omega)
        (hb.same hsame.key hsame.fresh) hkey hys (delete_level_spec hd hh hle)
        (by unfold Found; rw [if_neg (by omega)]; exact ⟨rfl, rfl⟩) (onPath_last n)
      exact ⟨sl', hrun, hdone, hsame.trans hsame'⟩
    · -- This level passes `e` by.
      have hc := hh.below n (by omega)
      rw [levelNodes_skip hle] at hc
      rw [if_pos (Int.ne_of_gt (next_seek_absent hc hb.atEnd hys))]
      have hf' : Found ht e n delptr level := by
        unfold Found at hf ⊢
        rw [if_pos (by omega)] at hf
        rw [if_pos (by omega)]
        exact hf
      exact ih sl _ delptr level (by omega) hb hkey hys (hh.step (fun _ _ => rfl) hc) hf' (onPath_last n)

theorem delete_loop_absent (hb : Between sl key xs ys) (hys : ∀ y ∈ ys, key < sl.key (.el y.2))
    (hc : ∀ l < maxHeight, Chain (sl.next l) .root (levelNodes ht (xs ++ ys) l) .nil) :
    ∀ (n : Nat) (p delptr : Node), n ≤ maxHeight → OnPath ht xs n p →
      deleteLoop key n sl p delptr none = some (sl, delptr, none) := by
  intro n
  induction n with
  | zero => intro p delptr _ _; rfl
  | succ n ih =>
    intro p delptr hmax hp
    have hgt := next_seek_absent (hc n (by omega)) hb.atEnd hys
    unfold deleteLoop
    simp only [seek_spec hb (hc n (by omega)) (hp n rfl), some_bind]
    rw [if_pos (by omega)]
    exact ih _ delptr (by omega) (onPath_last n)

theorem above_of_lookup (hs : m.live.Pairwise (·.1 < ·.1)) (hl : m.lookup key = some e) :
    ∃ ys, m.above key = (key, e) :: ys ∧ ∀ y ∈ ys, key < y.1 := by
  have hmem := (lookup_eq_some hs).mp hl
  have hab : (key, e) ∈ m.above key := by
    rcases (mem_live_iff key).mp hmem with h | h
    · exact absurd (below_lt h) (by simp)
    · exact h
  have hs' := hs
  rw [← below_append_above m key, pairwise_append] at hs'
  cases ha : m.above key with
  | nil => rw [ha] at hab; cases hab
  | cons y ys =>
    have hsy := hs'.2.1
    rw [ha, pairwise_cons] at hsy
    have hy : y = (key, e) := by
      rw [ha] at hab
      rcases mem_cons.mp hab with h | h
      · exact h.symm
      · have h1 := hsy.1 _ h
        have h2 : key ≤ y.1 := above_ge hs (by rw [ha]; exact mem_cons_self)
        omega
    subst hy
    exact ⟨ys, rfl, hsy.1⟩

theorem delete_live (ha : m.above key = (key, e) :: ys) (hgt : ∀ y ∈ ys, key < y.1) :
    m.live.filter (·.1 ≠ key) = m.below key ++ ys := by
  have hkept (l : List (Int × Nat)) (hl : ∀ x ∈ l, x.1 ≠ key) : l.filter (·.1 ≠ key) = l := by
    rw [filter_eq_self]
    simpa using hl
  have hb := hkept (m.below key) fun x hx => Int.ne_of_lt (below_lt hx)
  have hy := hkept ys fun y hy => Int.ne_of_gt (hgt y hy)
  rw [← below_append_above m key, ha, filter_append, hb, filter_cons_of_neg (by simp), hy]

theorem delete_perm (hs : m.live.Pairwise (·.1 < ·.1)) (key : Int) :
    Perm ((m.delete key).live.map (·.2) ++ (m.delete key).free)
      (m.live.map (·.2) ++ m.free) := by
  unfold SlMap.delete
  cases hl : m.lookup key with
  | none => simp
  | some e =>
    obtain ⟨ys, ha, hgt⟩ := above_of_lookup hs hl
    simp only [delete_live ha hgt]
    rw [← below_append_above m key, ha]
    simp only [map_append, append_assoc]
    exact Perm.append_left _ perm_middle

theorem Rep.levels_split (hr : Rep m sl) (key : Int) : ∀ l < maxHeight,
    Chain (sl.next l) .root (levelNodes m.ht (m.below key ++ m.above key) l) .nil := by
  rw [below_append_above]
  exact hr.levels

theorem Rep.absent (hr : Rep m sl) (hl : m.lookup key = none) :
    ∀ y ∈ m.above key, key < sl.key (.el y.2) := by
  intro y hy
  rw [(hr.keys y ((mem_live_iff key).mpr (.inr hy))).1]
  exact above_of_absent hr.sorted hl hy

theorem Rep.present (hr : Rep m sl) (ha : m.above key = (key, e) :: ys) (hgt : ∀ y ∈ ys, key < y.1) :
    sl.key (.el e) = key ∧ ∀ y ∈ ys, key < sl.key (.el y.2) := by
  have hkeys : ∀ y ∈ (key, e) :: ys, sl.key (.el y.2) = y.1 := fun y hy =>
    (hr.keys y ((mem_live_iff key).mpr (.inr (ha ▸ hy)))).1
  refine ⟨hkeys _ mem_cons_self, fun y hy => ?_⟩
  rw [hkeys y (mem_cons_of_mem _ hy)]
  exact hgt y hy

theorem skiplist_delete_spec (hr : Rep m sl) (hk : key < skiplistEnd) :
    ∃ sl', skiplistDelete sl key = some (sl', toNode (m.lookup key)) ∧ Rep (m.delete key) sl' ∧
      sl'.fresh = sl.fresh ∧ sl'.datasize = sl.datasize := by
  have hb := hr.between hk
  have hlevels := hr.levels_split key
  cases hl : m.lookup key with
  | none =>
    refine ⟨sl, ?_, ?_, rfl, rfl⟩
    · unfold skiplistDelete
      rw [delete_loop_absent hb (hr.absent hl) hlevels maxHeight .root .null le_rfl (onPath_root _)]
      rfl
    · unfold SlMap.delete; rw [hl]; exact hr
  | some e =>
    obtain ⟨ys, ha, hgt⟩ := above_of_lookup hr.sorted hl
    have hlive : m.live = m.below key ++ (key, e) :: ys := by rw [← ha, below_append_above]
    rw [ha] at hb hlevels
    have hmem : (key, e) ∈ m.live := (lookup_eq_some hr.sorted).mp hl
    have hnd := nodup_append.mp hr.nodup
    obtain ⟨hkey, hys⟩ := hr.present ha hgt
    obtain ⟨sl1, hrun, hdone, hsame⟩ := delete_loop_present (hlive ▸ hnd.1) maxHeight sl .root .null
      none le_rfl hb hkey hys ⟨fun l hl hle => absurd hle (by omega), hlevels⟩
      (by unfold Found; rw [if_pos (hr.height e)]) (onPath_root _)
    have hdel : m.delete key = { m with live := m.below key ++ ys, free := e :: m.free } := by
      unfold SlMap.delete
      rw [hl, ← delete_live ha hgt]
    have hperm := delete_perm hr.sorted key
    rw [hdel] at hperm
    have hsub : ∀ x ∈ m.below key ++ ys, x ∈ m.live := by
      intro x hx
      rw [hlive]
      simp only [mem_append] at hx ⊢
      tauto
    have hne : ∀ x ∈ m.below key ++ ys, x.2 ≠ e := by
      intro x hx h
      have h1 := hnd.1
      rw [hlive, map_append] at h1
      have h2 := (nodup_middle.mp h1)
      rw [nodup_cons, ← map_append] at h2
      exact h2.1 (h ▸ mem_map.mpr ⟨x, hx, rfl⟩)
    refine ⟨{ sl1.setNext 0 (.el e) sl1.freelist with
      key := update sl1.key (.el e) (m.ht e), freelist := .el e, nel := sl1.nel - 1 }, ?_, ?_,
      hsame.fresh, hsame.datasize⟩
    · unfold skiplistDelete
      rw [hrun]
      rfl
    rw [hdel]
    constructor
    · intro l hl
      have hc := hdone.above l hl (Nat.zero_le _)
      rw [setNext_next]
      split
      · subst_vars
        rw [chain_update]
        · exact hc
        · rw [mem_cons, mem_levelNodes]
          rintro (h | ⟨x, hx, -, h⟩)
          · cases h
          · exact hne x hx (el.inj h)
      · exact hc
    · exact hr.sorted.sublist (by
        rw [hlive]
        exact Sublist.append_left (sublist_cons_self _ _) _)
    · intro x hx
      have hk' := hr.keys x (hsub x hx)
      refine ⟨?_, hk'.2⟩
      have hx' : el x.2 ≠ .el e := fun h => hne x hx (el.inj h)
      simp only [update_of_ne hx', hsame.key]
      exact hk'.1
    · simp only [hsame.key]
      exact hr.nilKey
    · refine seg_cons.mpr ⟨rfl, ?_⟩
      rw [setNext_next, if_pos rfl, update_self, seg_update, hsame.freelist]
      · apply (seg_congr ?_).mpr hr.free
        intro q hq
        obtain ⟨f, hf, rfl⟩ := mem_map.mp hq
        exact hsame.next 0 _ (hr.free_notMem_path hf)
      · intro h
        obtain ⟨f, hf, he⟩ := mem_map.mp h
        exact hnd.2.2 e (mem_map.mpr ⟨_, hmem, rfl⟩) f hf (el.inj he).symm
    · intro f hf
      by_cases hfe : f = e
      · subst hfe; exact update_self ..
      · have hf' : f ∈ m.free := (mem_cons.mp hf).resolve_left hfe
        have hx' : el f ≠ .el e := fun h => hfe (el.inj h)
        simp only [update_of_ne hx', hsame.key]
        exact hr.freeKeys f hf'
    · exact hr.height
    · exact hperm.nodup_iff.mpr hr.nodup
    · intro f hf
      exact lt_of_lt_of_eq (hr.owned f (hperm.mem_iff.mp hf)) hsame.fresh.symm
    · exact lt_of_eq_of_lt hsame.slevel hr.slevel

/-! ## Lookup and iteration -/

theorem lookup_loop_present (hb : Between sl key xs ((key, e) :: ys))
    (hkey : sl.key (.el e) = key) (hys : ∀ y ∈ ys, key < sl.key (.el y.2))
    (hc : ∀ l < maxHeight, Chain (sl.next l) .root (levelNodes ht (xs ++ (key, e) :: ys) l) .nil) :
    ∀ (n : Nat) (p : Node), n < maxHeight → p ∈ root :: levelNodes ht xs n →
      lookupLoop sl key (n + 1) p = some (.el e) := by
  intro n
  induction n with
  | zero =>
    intro p hn hp
    unfold lookupLoop
    simp only [seek_spec hb (hc 0 hn) hp, some_bind,
      next_seek_present (hc 0 hn) (Nat.zero_le _)]
    rw [if_neg (by omega)]
  | succ n ih =>
    intro p hn hp
    unfold lookupLoop
    simp only [seek_spec hb (hc (n + 1) hn) hp, some_bind]
    by_cases hle : n + 1 ≤ ht e
    · rw [next_seek_present (hc (n + 1) hn) hle, if_neg (by omega)]
    have hskip := hc (n + 1) hn
    rw [levelNodes_skip hle] at hskip
    rw [if_pos (next_seek_absent hskip hb.atEnd hys)]
    exact ih _ (by omega) getLastD_levelNodes_mem

theorem lookup_loop_absent (hb : Between sl key xs ys) (hys : ∀ y ∈ ys, key < sl.key (.el y.2))
    (hc : ∀ l < maxHeight, Chain (sl.next l) .root (levelNodes ht (xs ++ ys) l) .nil) :
    ∀ (n : Nat) (p : Node), n ≤ maxHeight → OnPath ht xs n p →
      lookupLoop sl key n p = some .null := by
  intro n
  induction n with
  | zero => intro p _ _; rfl
  | succ n ih =>
    intro p hmax hp
    unfold lookupLoop
    simp only [seek_spec hb (hc n (by omega)) (hp n rfl), some_bind]
    rw [if_pos (next_seek_absent (hc n (by omega)) hb.atEnd hys)]
    exact ih _ (by omega) (onPath_last n)

theorem skiplist_lookup_spec (hr : Rep m sl) (hk : key < skiplistEnd) :
    skiplistLookup sl key = some (toNode (m.lookup key)) := by
  have hb := hr.between hk
  have hlevels := hr.levels_split key
  cases hl : m.lookup key with
  | none => exact lookup_loop_absent hb (hr.absent hl) hlevels _ _ hr.slevel (onPath_root _)
  | some e =>
    obtain ⟨ys, ha, hgt⟩ := above_of_lookup hr.sorted hl
    obtain ⟨hkey, hys⟩ := hr.present ha hgt
    rw [ha] at hb hlevels
    exact lookup_loop_present hb hkey hys hlevels _ _ hr.slevel mem_cons_self

theorem iter_loop_spec {xs : List Node} {fuel : Nat} (hs : Seg (sl.next 0) p xs .nil)
    (hx : .nil ∉ xs) (hf : xs.length < fuel) :
    iterLoop sl fuel p = some xs := by
  induction xs generalizing p fuel with
  | nil =>
    obtain _ | fuel := fuel
    · cases hf
    obtain rfl : p = .nil := hs
    simp [iterLoop, skiplistGetnext]
  | cons x xs ih =>
    obtain _ | fuel := fuel
    · cases hf
    obtain ⟨rfl, hs⟩ := seg_cons.mp hs
    have hne : p ≠ .nil := fun h => hx (h ▸ mem_cons_self)
    simp only [iterLoop, skiplistGetnext, hne, ne_eq, not_false_eq_true, decide_true]
    rw [ih hs (fun h => hx (mem_cons_of_mem _ h)) (by simpa using hf)]
    rfl

theorem levelNodes_zero (ht : Nat → Nat) (xs : List (Int × Nat)) :
    levelNodes ht xs 0 = xs.map (el ·.2) := by
  simp [levelNodes]

theorem skiplist_elements_spec (hr : Rep m sl) :
    skiplistElements sl = some (m.live.map (el ·.2)) := by
  have hc := hr.levels 0 (by decide)
  rw [levelNodes_zero] at hc
  refine iter_loop_spec hc (by simp) ?_
  rw [length_map]
  exact Nat.lt_succ_of_le hr.length_live

/-! ## Preallocation -/

theorem drawHeight_le (coin : Nat → Bool) (left pos n : Nat) :
    (drawHeight coin left pos n).1 ≤ n + left := by
  induction left generalizing pos n with
  | zero => simp [drawHeight]
  | succ left ih =>
    unfold drawHeight
    split
    · have := ih (pos + 1) (n + 1); omega
    · simp

structure Carved (sl sl' : Sl) (els new : List Nat) (size : Nat) : Prop where
  fresh : sl'.fresh = sl.fresh + new.length
  mem : ∀ e, e ∈ new ↔ sl.fresh ≤ e ∧ e < sl'.fresh
  nodup : new.Nodup
  links : Seg (sl.next 0) (toNode els.head?) (els.map .el) .null →
    (∀ e ∈ els, e < sl.fresh) →
    Seg (sl'.next 0) (toNode (new ++ els).head?) ((new ++ els).map .el) .null
  heights : ∀ e ∈ new, ∃ n < maxHeight, sl'.key (.el e) = (n : Nat)
  key : ∀ p, (∀ e ∈ new, p ≠ .el e) → sl'.key p = sl.key p
  next : ∀ l p, (∀ e ∈ new, p ≠ .el e) → sl'.next l p = sl.next l p
  freelist : sl'.freelist = sl.freelist
  slevel : sl'.slevel = sl.slevel
  datasize : sl'.datasize = sl.datasize
  fits : new.length * (sl.datasize + sizeofSkiplist) ≤ size

theorem carve_spec (coin : Nat → Bool) :
    ∀ (fuel : Nat) (sl : Sl) (size pos : Nat) (els : List Nat), size < fuel →
      ∃ sl' new, carve coin fuel sl size pos els = some (sl', new ++ els) ∧
        Carved sl sl' els new size := by
  intro fuel
  induction fuel with
  | zero => intro sl size pos els h; omega
  | succ fuel ih =>
    intro sl size pos els hsize
    unfold carve
    have hn := drawHeight_le coin (maxHeight - 1) pos 0
    generalize drawHeight coin (maxHeight - 1) pos 0 = d at *
    obtain ⟨n, pos'⟩ := d
    simp only at hn ⊢
    by_cases hs : sl.datasize + sizeofSkiplist + n * sizeofLevel > size
    · rw [if_pos hs]
      refine ⟨sl, [], rfl, ?_⟩
      exact ⟨by simp, by simp, by simp, fun h _ => h, by simp, fun _ _ => rfl, fun _ _ _ => rfl,
        rfl, rfl, rfl, by simp⟩
    rw [if_neg hs]
    set sl1 : Sl := { sl.setNext 0 (.el sl.fresh) (toNode els.head?) with
      key := update sl.key (.el sl.fresh) n
      fresh := sl.fresh + 1 } with hsl1
    have hpos : 0 < sizeofSkiplist := by decide
    obtain ⟨sl', new, hrun, hc⟩ := ih sl1
      (size - (sl.datasize + sizeofSkiplist + n * sizeofLevel)) pos' (sl.fresh :: els) (by omega)
    refine ⟨sl', new ++ [sl.fresh], by rw [append_assoc]; exact hrun, ?_⟩
    have hfr : sl1.fresh = sl.fresh + 1 := rfl
    have hnew : ∀ e ∈ new, sl.fresh ≠ e := by
      intro e he h
      have := (hc.mem e).mp he
      omega
    refine ⟨?_, ?_, ?_, ?_, ?_, ?_, ?_, hc.freelist, hc.slevel, hc.datasize, ?_⟩
    · rw [hc.fresh, length_append, length_singleton]; omega
    · intro e
      rw [mem_append, hc.mem, mem_singleton, hc.fresh]
      omega
    · rw [nodup_append]
      refine ⟨hc.nodup, by simp, ?_⟩
      intro a ha b hb
      rw [mem_singleton] at hb
      subst hb
      exact (hnew a ha).symm
    · intro hseg hels
      rw [append_assoc]
      refine hc.links ?_ ?_
      · have hne : el sl.fresh ∉ els.map el := by
          intro h
          obtain ⟨e, he, heq⟩ := mem_map.mp h
          have := hels e he
          have := el.inj heq
          omega
        refine seg_cons.mpr ⟨rfl, ?_⟩
        rw [setNext_next, if_pos rfl, update_self, seg_update hne]
        exact hseg
      · intro e he
        rcases mem_cons.mp he with rfl | he
        · omega
        · have := hels e he; omega
    · intro e he
      rcases mem_append.mp he with he | he
      · exact hc.heights e he
      · rw [mem_singleton] at he
        subst he
        refine ⟨n, by unfold maxHeight at *; omega, ?_⟩
        rw [hc.key _ (fun e he h => hnew e he (el.inj h))]
        exact update_self ..
    · intro p hp
      rw [hc.key p (fun e he => hp e (mem_append_left _ he))]
      exact update_of_ne (hp sl.fresh (by simp)) _ _
    · intro l p hp
      rw [hc.next l p (fun e he => hp e (mem_append_left _ he))]
      rw [setNext_next]
      split
      · subst_vars
        exact update_of_ne (hp sl.fresh (by simp)) _ _
      · rfl
    · have hfits := hc.fits
      simp only [hsl1, Sl.setNext] at hfits
      rw [length_append, length_singleton, Nat.add_mul]
      omega

/-- The map after `new` elements with the given heights were put on the freelist. -/
def SlMap.prealloc (m : SlMap) (new : List Nat) (ht : Nat → Nat) : SlMap :=
  { m with free := new ++ m.free, ht := ht }

/-- `new` is in front of the freelist, and the elements from before are as they were. -/
structure Preallocated (m : SlMap) (sl sl' : Sl) (new : List Nat) : Prop where
  mem : ∀ e, e ∈ new ↔ sl.fresh ≤ e ∧ e < sl'.fresh
  nodup : new.Nodup
  heights : ∀ e ∈ new, ∃ n < maxHeight, sl'.key (.el e) = (n : Nat)
  key : ∀ p, (∀ e ∈ new, p ≠ .el e) → sl'.key p = sl.key p
  next : ∀ l p, (∀ e ∈ new, p ≠ .el e) → sl'.next l p = sl.next l p
  free : Seg (sl'.next 0) sl'.freelist ((new ++ m.free).map .el) .null
  slevel : sl'.slevel = sl.slevel
  fresh : sl.fresh ≤ sl'.fresh

theorem old_ne_new {new : List Nat} {fresh : Nat} (hmem : ∀ e, e ∈ new ↔ sl.fresh ≤ e ∧ e < fresh)
    {f : Nat} (hf : f < sl.fresh) : ∀ e ∈ new, el f ≠ .el e := by
  intro e he heq
  have hlow := ((hmem e).mp he).1
  rw [el.inj heq] at hf
  omega

theorem Carved.free {sl1 : Sl} {new : List Nat} {size : Nat} (hc : Carved sl sl1 [] new size) (hr : Rep m sl) :
    Seg (sl1.next 0) sl1.freelist (m.free.map .el) .null := by
  rw [hc.freelist]
  refine (seg_congr ?_).mpr hr.free
  intro p hp
  obtain ⟨f, hf, rfl⟩ := mem_map.mp hp
  exact hc.next 0 _ (old_ne_new hc.mem (hr.owned f (mem_append_right _ hf)))

/-- Both endings of `skiplist_prealloc`. -/
theorem Carved.preallocated {sl1 : Sl} {new : List Nat} {size : Nat} {coin : Nat → Bool}
    (hc : Carved sl sl1 [] new size) (hr : Rep m sl) (hrun : carve coin (size + 1) sl size 0 [] = some (sl1, new)) :
    ∃ sl', skiplistPrealloc sl size coin = some (sl', new) ∧ Preallocated m sl sl' new ∧
      sl'.datasize = sl.datasize := by
  have hfresh : sl.fresh ≤ sl1.fresh := by
    rw [hc.fresh]
    omega
  have hold := hc.free hr
  unfold skiplistPrealloc
  rw [hrun, some_bind]
  rcases eq_nil_or_concat new with rfl | ⟨init, last, rfl⟩
  · exact ⟨sl1, rfl, ⟨hc.mem, hc.nodup, hc.heights, hc.key, hc.next, hold, hc.slevel, hfresh⟩, hc.datasize⟩
  rw [concat_eq_append] at *
  have hlinks := hc.links rfl (by simp)
  have hlast : last ∈ init ++ [last] := by simp
  obtain ⟨head, tail, hhead⟩ := exists_cons_of_ne_nil (ne_nil_of_mem hlast)
  have hinit : el last ∉ init.map .el := by
    rintro hmem
    obtain ⟨e, he, heq⟩ := mem_map.mp hmem
    exact (nodup_append.mp hc.nodup).2.2 e he last mem_cons_self (el.inj heq)
  have hfree : el last ∉ m.free.map .el := by
    intro hmem
    obtain ⟨f, hf, heq⟩ := mem_map.mp hmem
    exact old_ne_new hc.mem (hr.owned f (mem_append_right _ hf)) last hlast heq
  have hhead' : (init ++ [last]).head? = some head := by
    rw [hhead, head?_cons]
  dsimp only
  rw [getLast?_concat, hhead']
  refine ⟨_, rfl, ⟨hc.mem, hc.nodup, hc.heights, hc.key, ?_, ?_, hc.slevel, hfresh⟩, hc.datasize⟩
  · intro l p hp
    refine Eq.trans ?_ (hc.next l p hp)
    rw [setNext_next]
    split
    · subst_vars
      exact update_of_ne (hp last hlast) _ _
    · rfl
  -- the chain of the new elements, with its last link moved
  · rw [append_nil, map_append, map_singleton, hhead'] at hlinks
    rw [setNext_next, if_pos rfl, map_append, seg_append, map_append, map_singleton]
    exact ⟨sl1.freelist, seg_update_last hlinks hinit, (seg_update hfree).mpr hold⟩

section Preallocated

variable {sl' : Sl} {new : List Nat} (h : Preallocated m sl sl' new) (hr : Rep m sl)
include h hr

theorem Preallocated.levels {l : Nat} (hl : l < maxHeight) :
    Chain (sl'.next l) .root (levelNodes (recordHeights m.ht sl sl') m.live l) .nil := by
  have hlev : levelNodes (recordHeights m.ht sl sl') m.live l = levelNodes m.ht m.live l := by
    unfold levelNodes
    congr 1
    apply filter_congr
    intro x hx
    rw [recordHeights, if_pos (hr.live_lt hx)]
  rw [hlev]
  refine (chain_congr ?_).mpr (hr.levels l hl)
  intro p hp
  refine h.next l p ?_
  rcases mem_cons.mp hp with rfl | hp
  · simp
  · obtain ⟨x, hx, -, rfl⟩ := mem_levelNodes.mp hp
    exact old_ne_new h.mem (hr.live_lt hx)

theorem Preallocated.freeKeys {e : Nat} (he : e ∈ new ++ m.free) :
    sl'.key (.el e) = recordHeights m.ht sl sl' e := by
  unfold recordHeights
  rcases mem_append.mp he with he | he
  · have := (h.mem e).mp he
    obtain ⟨n, -, hn⟩ := h.heights e he
    rw [if_neg (by omega), if_pos (by omega), hn]
    rfl
  · have hold := hr.owned e (mem_append_right _ he)
    rw [if_pos hold, h.key _ (old_ne_new h.mem hold)]
    exact hr.freeKeys e he

theorem Preallocated.height (e : Nat) : recordHeights m.ht sl sl' e < maxHeight := by
  unfold recordHeights
  split
  · exact hr.height e
  split
  · obtain ⟨n, hn, hkey⟩ := h.heights e ((h.mem e).mpr ⟨by omega, by omega⟩)
    rw [hkey]
    exact hn
  · decide

theorem Preallocated.rep : Rep (m.prealloc new (recordHeights m.ht sl sl')) sl' where
  levels := fun _ hl => h.levels hr hl
  sorted := hr.sorted
  keys := by
    intro x hx
    rw [h.key _ (old_ne_new h.mem (hr.live_lt hx))]
    exact hr.keys x hx
  nilKey := by
    rw [h.key _ (by simp)]
    exact hr.nilKey
  free := h.free
  freeKeys := fun _ he => h.freeKeys hr he
  height := h.height hr
  nodup := by
    have hp : Perm (m.live.map (·.2) ++ (new ++ m.free)) (new ++ (m.live.map (·.2) ++ m.free)) := by
      rw [← append_assoc, ← append_assoc]
      exact Perm.append_right _ perm_append_comm
    refine hp.nodup_iff.mpr (nodup_append.mpr ⟨h.nodup, hr.nodup, ?_⟩)
    rintro a ha b hb rfl
    exact old_ne_new h.mem (hr.owned a hb) a ha rfl
  owned := by
    intro e he
    simp only [SlMap.prealloc, mem_append] at he
    rcases he with he | he | he
    · exact lt_of_lt_of_le (hr.owned e (mem_append_left _ he)) h.fresh
    · exact ((h.mem e).mp he).2
    · exact lt_of_lt_of_le (hr.owned e (mem_append_right _ he)) h.fresh
  slevel := by
    rw [h.slevel]
    exact hr.slevel

end Preallocated

theorem skiplist_prealloc_spec (hr : Rep m sl) (size : Nat) (coin : Nat → Bool) :
    ∃ sl' new, skiplistPrealloc sl size coin = some (sl', new) ∧
      Rep (m.prealloc new (recordHeights m.ht sl sl')) sl' ∧
      (∀ e, e ∈ new ↔ sl.fresh ≤ e ∧ e < sl'.fresh) ∧ new.Nodup ∧
      new.length * (sl.datasize + sizeofSkiplist) ≤ size ∧ sl'.datasize = sl.datasize ∧
      sl.fresh ≤ sl'.fresh := by
  obtain ⟨sl1, new, hrun, hc⟩ := carve_spec coin (size + 1) sl size 0 [] (by omega)
  rw [append_nil] at hrun
  obtain ⟨sl', hpre, h, hdatasize⟩ := hc.preallocated hr hrun
  exact ⟨sl', new, hpre, h.rep hr, h.mem, h.nodup, hc.fits, hdatasize, h.fresh⟩

/-! ## Initialisation -/

theorem skiplist_init_spec (sl : Sl) (datasize : Nat) (ht : Nat → Nat) (hh : ∀ e, ht e < maxHeight) :
    Rep { live := [], free := [], ht := ht } (skiplistInit sl datasize) := by
  constructor
  · intro l hl
    simp [levelNodes, Linked.Chain, skiplistInit]
  · simp
  · simp
  · simp [skiplistInit]
  · simp [skiplistInit]
  · simp
  · exact hh
  · simp
  · simp
  · simp [skiplistInit, maxHeight]

end MacOnLinux.Skiplist
