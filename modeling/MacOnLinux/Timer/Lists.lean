import MacOnLinux.Timer.Code
import Mathlib.Data.List.FinRange
import Mathlib.Data.List.Perm.Basic

/-! # The lists of timers

`timer_init` leaves the overflow timer on the inactive list too, so both lists end in it and in what
is behind it. The links make up four walks without a common slot.
-/

namespace MacOnLinux.Timer

open Function List State Linked
open Linked (Chain)

inductive Part where
  | active
  | inactive
  | parked
  | free
  deriving DecidableEq, Repr

def State.headCell (s : State) : Part → Cell
  | .active => .active
  | .inactive => .inactive
  | .parked => .slot s.overflow
  | .free => .free

def State.endCell (s : State) : Part → Cell
  | .active => .slot s.overflow
  | .inactive => .slot s.overflow
  | .parked => .null
  | .free => .null

abbrev Lists := Part → List Slot

def Lists.all (L : Lists) : List Slot := L .active ++ (L .inactive ++ (L .parked ++ L .free))

/-- The walks visit the slots in `L`; the slots in `hand` are on none of them. -/
structure Laid (s : State) (L : Lists) (hand : List Slot) : Prop where
  chain : ∀ k, Chain s.next (s.headCell k) ((L k).map .slot) (s.endCell k)
  perm : (s.overflow :: (hand ++ L.all)).Perm (List.finRange 16)

variable {s s' : State} {L L' : Lists} {hand : List Slot} {k k' : Part} {xs ys : List Slot}
variable {t x y : Slot} {c v : Cell} {id : Word}

/-! ## Slots are in one place -/

theorem Laid.nodup (h : Laid s L hand) : (s.overflow :: (hand ++ L.all)).Nodup :=
  h.perm.nodup_iff.mpr (nodup_finRange 16)

theorem Lists.mem_all (hx : x ∈ L k) : x ∈ L.all := by
  unfold Lists.all
  cases k <;> simp [hx]

section Parts

variable (h : Laid s L hand)

include h

theorem Laid.part_nodup (k : Part) : (L k).Nodup := by
  have hall : L.all.Nodup := ((nodup_cons.mp h.nodup).2).of_append_right
  unfold Lists.all at hall
  simp only [nodup_append] at hall
  cases k
  · exact hall.1
  · exact hall.2.1.1
  · exact hall.2.1.2.1.1
  · exact hall.2.1.2.1.2.1

theorem Laid.part_unique (hx : x ∈ L k) (hx' : x ∈ L k') : k = k' := by
  have hall : L.all.Nodup := ((nodup_cons.mp h.nodup).2).of_append_right
  unfold Lists.all at hall
  cases k <;> cases k' <;> first | rfl | grind

theorem Laid.overflow_notMem (k : Part) : s.overflow ∉ L k :=
  fun hx => (nodup_cons.mp h.nodup).1 (mem_append_right _ (Lists.mem_all hx))

theorem Laid.hand_notMem (hx : x ∈ hand) (k : Part) : x ∉ L k := by
  intro hx'
  have hsplit := nodup_append.mp (nodup_cons.mp h.nodup).2
  exact hsplit.2.2 x hx x (Lists.mem_all hx') rfl

theorem Laid.hand_ne (hx : x ∈ hand) : x ≠ s.overflow :=
  fun he => (nodup_cons.mp h.nodup).1 (he ▸ mem_append_left _ hx)

end Parts

def State.cells (s : State) (L : Lists) (k : Part) : List Cell := s.headCell k :: (L k).map .slot

section Cells

variable (h : Laid s L hand)

include h

theorem Laid.cells_nodup (k : Part) : (s.cells L k).Nodup := by
  refine nodup_cons.mpr ⟨fun hm => ?_, ?_⟩
  · obtain ⟨x, hx, he⟩ := mem_map.mp hm
    cases k with
    | parked =>
      cases he
      exact h.overflow_notMem .parked hx
    | active | inactive | free => cases he
  · exact (h.part_nodup k).map fun _ _ he => Cell.slot.inj he

theorem Laid.cells_unique (hc : c ∈ s.cells L k) (hc' : c ∈ s.cells L k') : k = k' := by
  have hslot : ∀ {k k'}, s.headCell k ∈ (L k').map Cell.slot → k = k' := by
    intro k k' hm
    obtain ⟨x, hx, he⟩ := mem_map.mp hm
    cases k with
    | parked =>
      cases he
      exact absurd hx (h.overflow_notMem k')
    | active | inactive | free => cases he
  rcases mem_cons.mp hc with rfl | hc
  · rcases mem_cons.mp hc' with he | hc'
    · cases k <;> cases k' <;> first | rfl | cases he
    · exact hslot hc'
  rcases mem_cons.mp hc' with rfl | hc'
  · exact (hslot hc).symm
  · obtain ⟨x, hx, rfl⟩ := mem_map.mp hc
    obtain ⟨y, hy, he⟩ := mem_map.mp hc'
    cases he
    exact h.part_unique hx hy

theorem Laid.hand_cell (hx : x ∈ hand) (k : Part) : .slot x ∉ s.cells L k := by
  intro hm
  rcases mem_cons.mp hm with he | hm
  · cases k with
    | parked => exact h.hand_ne hx (Cell.slot.inj he)
    | active | inactive | free => cases he
  · obtain ⟨y, hy, he⟩ := mem_map.mp hm
    cases he
    exact h.hand_notMem hx k hy

/-! ## Taking out and putting in -/

theorem Laid.congr (hnext : s'.next = s.next) (hover : s'.overflow = s.overflow) : Laid s' L hand := by
  have hhead : s'.headCell = s.headCell := by
    funext k
    cases k <;> simp [headCell, hover]
  have hend : s'.endCell = s.endCell := by
    funext k
    cases k <;> simp [endCell, hover]
  refine ⟨?_, ?_⟩
  · rw [hnext, hhead, hend]
    exact h.chain
  · rw [hover]
    exact h.perm

theorem Laid.unique {hand' : List Slot} (h' : Laid s L' hand') : L = L' := by
  have hend : ∀ {L hand}, Laid s L hand → ∀ k, s.endCell k ∉ (L k).map Cell.slot := by
    intro L hand h k hm
    obtain ⟨x, hx, he⟩ := mem_map.mp hm
    have hne : x ≠ s.overflow := fun he => h.overflow_notMem k (he ▸ hx)
    cases k with
    | active | inactive => exact hne (Cell.slot.inj he)
    | parked | free => cases he
  funext k
  have hmap := seg_unique (h.chain k) (h'.chain k) (hend h k) (hend h' k)
  exact map_injective_iff.mpr (fun _ _ he => Cell.slot.inj he) hmap

end Cells

def State.lastCell (s : State) (k : Part) (xs : List Slot) : Cell :=
  (xs.map Cell.slot).getLastD (s.headCell k)

theorem lastCell_mem (s : State) (hk : L k = xs ++ ys) : s.lastCell k xs ∈ s.cells L k := by
  have hm := getLastD_mem (s.headCell k) (xs.map Cell.slot)
  unfold lastCell cells
  rw [hk, map_append]
  rcases mem_cons.mp hm with he | hm
  · rw [he]
    exact mem_cons_self
  · exact mem_cons_of_mem _ (mem_append_left _ hm)

theorem all_update (hk : L k = xs ++ ys) :
    (Lists.all (update L k (xs ++ x :: ys))).Perm (x :: L.all) := by
  rw [perm_iff_count]
  intro a
  unfold Lists.all
  cases k <;> simp [hk, count_cons] <;> omega

theorem Laid.scribble (h : Laid s L hand) (hx : x ∈ hand) (v : Cell) :
    Laid (s.setNext (.slot x) v) L hand := by
  refine ⟨fun k => ?_, h.perm⟩
  exact (chain_update (h.hand_cell hx k)).mpr (h.chain k)

theorem Laid.chain_other (h : Laid s L hand) (hc : c ∈ s.cells L k) (hne : k' ≠ k) (v : Cell) :
    Chain (update s.next c v) (s.headCell k') ((L k').map .slot) (s.endCell k') :=
  (chain_update fun hm => hne (h.cells_unique hm hc)).mpr (h.chain k')

theorem Laid.unlink (h : Laid s L hand) (hk : L k = xs ++ x :: ys) :
    Laid (s.setNext (s.lastCell k xs) (s.next (.slot x))) (update L k (xs ++ ys)) (x :: hand) := by
  refine ⟨fun k' => ?_, ?_⟩
  · by_cases hkk : k' = k
    · subst hkk
      rw [update_self, map_append]
      have hchain := h.chain k'
      have hnodup := h.cells_nodup k'
      unfold cells at hnodup
      rw [hk, map_append] at hchain hnodup
      exact chain_unlink hchain hnodup
    · rw [update_of_ne hkk]
      exact h.chain_other (lastCell_mem s hk) hkk _
  · have hperm := all_update (L := update L k (xs ++ ys)) (x := x) (update_self ..)
    rw [update_idem, ← hk, update_eq_self] at hperm
    refine List.Perm.trans (.cons _ ?_) h.perm
    exact (perm_middle.symm.trans (hperm.symm.append_left hand))

theorem Laid.link (h : Laid s L (x :: hand)) (hk : L k = xs ++ ys) :
    Laid (s.link (s.lastCell k xs) x) (update L k (xs ++ x :: ys)) hand := by
  have hx : x ∈ x :: hand := mem_cons_self
  refine ⟨fun k' => ?_, ?_⟩
  · by_cases hkk : k' = k
    · subst hkk
      rw [update_self, map_append]
      have hchain := h.chain k'
      have hnodup := h.cells_nodup k'
      have hfresh := h.hand_cell hx k'
      unfold cells at hnodup hfresh
      rw [hk, map_append] at hchain hnodup hfresh
      exact chain_link hchain hnodup hfresh
    · rw [update_of_ne hkk]
      exact (h.scribble hx _).chain_other (lastCell_mem s hk) hkk _
  · have hperm := all_update (x := x) hk
    refine List.Perm.trans (.cons _ ?_) h.perm
    exact (hperm.append_left hand).trans perm_middle

/-! ## Walks -/

def Relinked (s s' : State) : Prop := s' = { s with next := s'.next }

/-- A list that ends in the overflow timer and in what is behind it. -/
def Part.isOpen (k : Part) : Prop := k = .active ∨ k = .inactive

theorem Laid.walk (h : Laid s L hand) (hk : k.isOpen) :
    Chain s.next (s.headCell k) ((L k ++ s.overflow :: L .parked).map .slot) .null := by
  have hchain := h.chain k
  have hend : s.endCell k = .slot s.overflow := by rcases hk with rfl | rfl <;> rfl
  rw [hend] at hchain
  rw [map_append]
  exact chain_append_cons.mpr ⟨hchain, h.chain .parked⟩

theorem Laid.walk_length (h : Laid s L hand) (hk : k.isOpen) :
    ((L k ++ s.overflow :: L .parked).map Cell.slot).length < fuel := by
  have hlen := h.perm.length_eq
  rw [length_finRange] at hlen
  unfold Lists.all at hlen
  simp only [length_cons, length_append, length_map] at hlen ⊢
  unfold fuel
  rcases hk with rfl | rfl <;> omega

theorem split_cases {o : Slot} {A R : List Slot} (hw : A ++ o :: R = xs ++ ys) :
    (∃ rest, A = xs ++ rest ∧ ys = rest ++ o :: R) ∨ ∃ rest, xs = A ++ o :: rest ∧ R = rest ++ ys := by
  rcases append_eq_append_iff.mp hw with ⟨rest, hx, hy⟩ | ⟨rest, hx, hy⟩
  · cases rest with
    | nil => exact .inl ⟨[], by simpa using hx.symm, by simpa using hy.symm⟩
    | cons z rest =>
      obtain ⟨rfl, htail⟩ := cons.inj hy
      exact .inr ⟨rest, hx, htail⟩
  · exact .inl ⟨rest, hx, hy⟩

theorem lastCell_parked (s : State) (k : Part) (A rest : List Slot) :
    s.lastCell k (A ++ s.overflow :: rest) = s.lastCell .parked rest := by
  unfold lastCell
  rw [map_append, map_cons, getLastD_append_cons]
  rfl

theorem Laid.scan (h : Laid s L hand) (hk : k.isOpen) (good : Cell → Bool)
    (hnull : good .null = false) :
    ∃ k' xs ys, L k' = xs ++ ys ∧
      Linked.scan s.next (fun c => !good (s.next c)) fuel (s.headCell k) = some (s.lastCell k' xs) ∧
      (k' = k ∧ (∀ y ∈ xs, good (.slot y) = true) ∧
          (∀ y ∈ (ys ++ [s.overflow]).head?, good (.slot y) = false) ∨
        k' = .parked ∧ (∀ y ∈ L k ++ s.overflow :: xs, good (.slot y) = true) ∧
          ∀ y ∈ ys.head?, good (.slot y) = false) := by
  obtain ⟨cs, ds, hsplit, hgood, hstop, hscan⟩ :=
    scan_split (h.walk hk) hnull (h.walk_length hk)
  obtain ⟨xs, ys, hw, rfl, rfl⟩ := map_eq_append_iff.mp hsplit
  have hgood : ∀ y ∈ xs, good (.slot y) = true := fun y hy => hgood _ (mem_map_of_mem hy)
  have hstop : ∀ y ∈ ys.head?, good (.slot y) = false := by
    intro y hy
    refine hstop _ ?_
    rw [head?_map, Option.mem_def.mp hy]
    rfl
  rcases split_cases hw with ⟨rest, hx, rfl⟩ | ⟨rest, rfl, hy⟩
  · refine ⟨k, xs, rest, hx, hscan, .inl ⟨rfl, hgood, fun y hy => hstop y ?_⟩⟩
    cases rest with
    | nil | cons z rest => exact hy
  · refine ⟨.parked, rest, ys, hy, ?_, .inr ⟨rfl, hgood, hstop⟩⟩
    rw [← lastCell_parked s k (L k) rest]
    exact hscan

theorem Laid.next_last (h : Laid s L hand) (hk : L k = xs ++ ys) :
    s.next (s.lastCell k xs) = (ys.map Cell.slot).headD (s.endCell k) := by
  have hchain := h.chain k
  rw [hk, map_append] at hchain
  exact chain_next_last hchain

/-! ## The functions of the source -/

theorem Laid.dequeue (h : Laid s L hand) (hk : k.isOpen) (hid : (s.entry s.overflow).id ≠ id) :
    (dequeueTimer s (s.headCell k) id = some (none, s) ∧ ∀ x ∈ L k ++ L .parked, (s.entry x).id ≠ id) ∨
    ∃ k' xs x ys s', (k' = k ∨ k' = .parked) ∧ L k' = xs ++ x :: ys ∧ (s.entry x).id = id ∧
      dequeueTimer s (s.headCell k) id = some (some x, s') ∧ Relinked s s' ∧
      Laid s' (update L k' (xs ++ ys)) (x :: hand) := by
  have hmiss : ∀ x, s.misses id (.slot x) = true ↔ (s.entry x).id ≠ id := fun x => bne_iff_ne
  have hhit : ∀ x, s.misses id (.slot x) = false ↔ (s.entry x).id = id := fun x => bne_eq_false_iff_eq
  obtain ⟨k', xs, ys, hL, hscan, hpos⟩ := h.scan hk (s.misses id) rfl
  have hnext := h.next_last hL
  unfold dequeueTimer
  rw [hscan, Option.map_some]
  cases ys with
  | nil =>
    refine .inl ?_
    rcases hpos with ⟨rfl, -, hstop⟩ | ⟨rfl, hgood, -⟩
    · exact absurd ((hhit _).mp (hstop s.overflow rfl)) hid
    rw [hnext]
    refine ⟨rfl, fun x hx => (hmiss x).mp (hgood x ?_)⟩
    rw [append_nil] at hL
    rcases mem_append.mp hx with hx | hx
    · exact mem_append_left _ hx
    · exact mem_append_right _ (mem_cons_of_mem _ (hL ▸ hx))
  | cons x ys =>
    refine .inr ⟨k', xs, x, ys, _, ?_, hL, ?_, ?_, ?_, h.unlink hL⟩
    · exact hpos.imp (·.1) (·.1)
    · rcases hpos with ⟨-, -, hstop⟩ | ⟨-, -, hstop⟩
      · exact (hhit x).mp (hstop x rfl)
      · exact (hhit x).mp (hstop x rfl)
    · rw [hnext]
      rfl
    · rfl

theorem Laid.setEntry (h : Laid s L hand) (i : Slot) (e : Entry) : Laid (s.setEntry i e) L hand :=
  h.congr rfl rfl

theorem Laid.push (h : Laid s L (t :: hand)) (k : Part) :
    Laid (s.link (s.headCell k) t) (update L k (t :: L k)) hand :=
  h.link (show L k = [] ++ L k from rfl)

theorem Laid.pop (h : Laid s L hand) (hk : L k = t :: ys) :
    Laid (s.setNext (s.headCell k) (s.next (.slot t))) (update L k ys) (t :: hand) :=
  h.unlink (show L k = [] ++ t :: ys from hk)

theorem Laid.insert_far (h : Laid s L (t :: hand)) (hfar : s.isFar t = true) : ∃ s', insertTimer s t =
        some { s' with entry := update s.entry t { s.entry t with overflow := true } } ∧
      Relinked s s' ∧ Laid s' (update L .parked (t :: L .parked)) hand := by
  refine ⟨s.link (s.headCell .parked) t, ?_, rfl, h.push .parked⟩
  rw [insertTimer, if_pos hfar]
  rfl

theorem Laid.insert_near (h : Laid s L (t :: hand)) (hnear : s.isFar t = false) :
    ∃ k xs ys s', L k = xs ++ ys ∧ insertTimer s t = some s' ∧ Relinked s s' ∧
      Laid s' (update L k (xs ++ t :: ys)) hand ∧
      (k = .active ∧ (∀ y ∈ xs, s.sooner t (.slot y) = true) ∧
          (∀ y ∈ (ys ++ [s.overflow]).head?, s.sooner t (.slot y) = false) ∨
        k = .parked ∧ ∀ y ∈ L .active ++ s.overflow :: xs, s.sooner t (.slot y) = true) := by
  obtain ⟨k, xs, ys, hL, hscan, hpos⟩ := h.scan (.inl rfl : Part.active.isOpen) (s.sooner t) rfl
  refine ⟨k, xs, ys, s.link (s.lastCell k xs) t, hL, ?_, rfl, h.link hL, ?_⟩
  · have hscan : Linked.scan s.next (fun c => !s.sooner t (s.next c)) fuel .active =
      some (s.lastCell k xs) := hscan
    rw [insertTimer, if_neg (by rw [hnear]; decide), hscan]
    rfl
  · exact hpos.imp id fun hparked => ⟨hparked.1, hparked.2.1⟩

theorem Laid.newTimer_none (h : Laid s L hand) (hfree : L .free = []) (f : Handler) (p a : Bool) :
    newTimer s f p a = (none, s) := by
  have hnext := h.chain .free
  rw [hfree] at hnext
  have hnext : s.next .free = .null := hnext
  rw [newTimer, hnext]

theorem Laid.newTimer_some (h : Laid s L hand) (hfree : L .free = t :: ys) (f : Handler) (p a : Bool) :
    ∃ s', newTimer s f p a = (some t, { s' with
        entry := update s.entry t { s.entry t with
          periodic := p, overflow := false, autoresume := a, id := (s.entry t).id + 0x100, period := 0,
          handler := f, uses := (s.entry t).uses + 1 } }) ∧
      Relinked s s' ∧ Laid s' (update L .free ys) (t :: hand) := by
  have hnext : s.next .free = .slot t := by
    have hchain := h.chain .free
    rw [hfree] at hchain
    exact hchain.1
  refine ⟨(s.setNext .free (s.next (.slot t))).setNext (.slot t) .null, ?_, rfl, ?_⟩
  · rw [newTimer, hnext]
    rfl
  · exact (h.pop hfree).scribble mem_cons_self .null

/-! ## The overflow timer -/

theorem isFar_overflow (s : State) : s.isFar s.overflow = false := by
  unfold isFar
  rw [Int.sub_self]
  decide

theorem Laid.refire (h : Laid s L hand) (hactive : L .active = []) (s1 : State)
    (hs1 : s1.next = update s.next .active (s.next (.slot s.overflow)))
    (hover : s1.overflow = s.overflow) :
    ∃ xs ys s', L .parked = xs ++ ys ∧ insertTimer s1 s.overflow = some s' ∧ Relinked s1 s' ∧
      Laid s' (update (update L .active xs) .parked ys) hand := by
  have hhead : Cell.active ∉ (L .parked).map Cell.slot := by simp
  have hchain : Chain s1.next .active ((L .parked).map .slot) .null := by
    have hparked := h.chain .parked
    unfold Linked.Chain at hparked ⊢
    rw [hs1, seg_update hhead]
    exact hparked
  have hlen : ((L .parked).map Cell.slot).length < fuel := by
    have hlen := h.walk_length (.inl rfl : Part.active.isOpen)
    simp only [map_append, map_cons, length_append, length_cons] at hlen
    omega
  obtain ⟨cs, ds, hsplit, -, -, hscan⟩ := scan_split hchain
    (show s1.sooner s.overflow .null = false from rfl) hlen
  obtain ⟨xs, ys, hL, rfl, rfl⟩ := map_eq_append_iff.mp hsplit
  have hcell : .active ∉ s.cells L .inactive ∧ .active ∉ s.cells L .free := by
    simp [cells, headCell]
  have hc := getLastD_mem Cell.active (xs.map Cell.slot)
  refine ⟨xs, ys, s1.link ((xs.map Cell.slot).getLastD .active) s.overflow, hL, ?_, rfl, ?_, ?_⟩
  · have hnear := isFar_overflow s1
    rw [hover] at hnear
    rw [insertTimer, if_neg (by rw [hnear]; decide), hscan]
    rfl
  · have hnodup : (Cell.active :: (xs.map Cell.slot ++ ys.map Cell.slot)).Nodup := by
      have hparked := h.cells_nodup .parked
      refine nodup_cons.mpr ⟨by simp, ?_⟩
      rw [← map_append, ← hL]
      exact (nodup_cons.mp hparked).2
    have hfresh : Cell.slot s.overflow ∉ Cell.active :: (xs.map Cell.slot ++ ys.map Cell.slot) := by
      have hparked := (nodup_cons.mp (h.cells_nodup .parked)).1
      rw [hL, map_append] at hparked
      intro hm
      rcases mem_cons.mp hm with he | hm
      · cases he
      · exact hparked hm
    rw [hsplit] at hchain
    have hlink := chain_link hchain hnodup hfresh
    obtain ⟨hfront, hback⟩ := chain_append_cons.mp hlink
    -- the two other lists do not meet the cells that are written
    have hsame : ∀ k, k = .inactive ∨ k = .free →
        Chain (s1.link ((xs.map Cell.slot).getLastD .active) s.overflow).next (s.headCell k)
          ((L k).map .slot) (s.endCell k) := by
      intro k hk
      refine (chain_congr fun c hc' => ?_).mpr (h.chain k)
      have hne1 : c ≠ .active := by
        rintro rfl
        rcases hk with rfl | rfl
        · exact hcell.1 hc'
        · exact hcell.2 hc'
      have hne2 : c ≠ .slot s.overflow := by
        rintro rfl
        have := h.cells_unique (k := .parked) mem_cons_self hc'
        rcases hk with rfl | rfl <;> cases this
      have hne3 : c ≠ (xs.map Cell.slot).getLastD .active := by
        rintro rfl
        rcases mem_cons.mp hc with he | hm
        · exact hne1 he
        have hm' : (xs.map Cell.slot).getLastD .active ∈ s.cells L .parked := by
          refine mem_cons_of_mem _ ?_
          rw [hL, map_append]
          exact mem_append_left _ hm
        have := h.cells_unique hm' hc'
        rcases hk with rfl | rfl <;> cases this
      show update (update s1.next _ _) _ _ c = s.next c
      rw [update_of_ne hne3, update_of_ne hne2, hs1, update_of_ne hne1]
    intro k
    cases k with
    | active =>
      show Chain _ Cell.active (xs.map .slot) (.slot s1.overflow)
      rw [hover]
      exact hfront
    | inactive =>
      show Chain _ Cell.inactive ((L .inactive).map .slot) (.slot s1.overflow)
      rw [hover]
      exact hsame .inactive (.inl rfl)
    | parked =>
      show Chain _ (Cell.slot s1.overflow) (ys.map .slot) .null
      rw [hover]
      exact hback
    | free => exact hsame .free (.inr rfl)
  · have hperm := h.perm
    rw [← hover] at hperm
    refine List.Perm.trans (.cons _ (.append_left _ ?_)) hperm
    unfold Lists.all
    simp only [update_self, hactive, hL, nil_append, ne_eq, reduceCtorEq,
      not_false_eq_true, update_of_ne]
    rw [perm_iff_count]
    intro a
    simp only [count_append]
    omega

end MacOnLinux.Timer
