import MacOnLinux.Lib.Result
import Mathlib.Algebra.Order.Ring.Nat
import Mathlib.Data.List.Nodup
import Mathlib.Data.List.TakeWhile
import Mathlib.Logic.Function.Basic

/-! # Linked memory

`Seg` says which addresses a walk along the link field `next` visits, `Chain` the same for the walk
that starts after a head cell, and `scan` is the search loop. A circular list with head cell `h` is
a `Chain` from `h` back to `h`.
-/

namespace Linked

open Function List

variable {α : Type} {next : α → α} {a b c h n p q v : α} {xs ys zs : List α}

variable {next' : α → α} {stop good : α → Bool} {fuel : Nat}

/-! ## Walks -/

/-- Following `next` from `a` visits `xs` in order and then arrives at `b`. -/
def Seg (next : α → α) : α → List α → α → Prop
  | a, [], b => a = b
  | a, x :: xs, b => a = x ∧ Seg next (next x) xs b

/-- Following `next` after the cell `h` visits `xs` and then arrives at `b`. -/
def Chain (next : α → α) (h : α) (xs : List α) (b : α) : Prop := Seg next (next h) xs b

@[simp] theorem seg_nil : Seg next a [] b ↔ a = b := Iff.rfl

@[simp] theorem seg_cons {x : α} : Seg next a (x :: xs) b ↔ a = x ∧ Seg next (next x) xs b := Iff.rfl

theorem chain_cons : Chain next h (p :: xs) b ↔ next h = p ∧ Chain next p xs b := Iff.rfl

theorem seg_append : Seg next a (xs ++ ys) b ↔ ∃ m, Seg next a xs m ∧ Seg next m ys b := by
  induction xs generalizing a with
  | nil => simp
  | cons x xs ih => simp [ih, and_assoc]

theorem chain_append_cons : Chain next h (xs ++ p :: ys) b ↔ Chain next h xs p ∧ Chain next p ys b := by
  simp only [Chain, seg_append]
  constructor
  · rintro ⟨m, hx, rfl, hy⟩; exact ⟨hx, hy⟩
  · rintro ⟨hx, hy⟩; exact ⟨p, hx, rfl, hy⟩

theorem seg_start_mem (hs : Seg next a xs b) : a ∈ xs ∨ a = b := by
  cases xs with
  | nil => exact .inr hs
  | cons x xs => exact .inl (hs.1 ▸ mem_cons_self)

theorem seg_next_mem (hs : Seg next a xs b) (hx : p ∈ xs) : next p ∈ xs ∨ next p = b := by
  induction xs generalizing a with
  | nil => simp at hx
  | cons x xs ih =>
    obtain ⟨rfl, hs⟩ := hs
    rcases mem_cons.mp hx with rfl | hx
    · exact (seg_start_mem hs).imp_left (mem_cons_of_mem _)
    · exact (ih hs hx).imp_left (mem_cons_of_mem _)

theorem seg_congr (hn : ∀ x ∈ xs, next' x = next x) : Seg next' a xs b ↔ Seg next a xs b := by
  induction xs generalizing a with
  | nil => simp
  | cons x xs ih =>
    simp only [seg_cons, hn x mem_cons_self]
    rw [ih (forall_mem_cons.mp hn).2]

theorem chain_congr (hn : ∀ x ∈ h :: xs, next' x = next x) :
    Chain next' h xs b ↔ Chain next h xs b := by
  unfold Chain
  rw [hn h mem_cons_self, seg_congr (forall_mem_cons.mp hn).2]

theorem chain_last (hc : Chain next h xs b) : next (xs.getLastD h) = b := by
  induction xs generalizing h with
  | nil => exact hc
  | cons x xs ih =>
    rw [getLastD_cons]
    exact ih (chain_cons.mp hc).2

theorem seg_head (hs : Seg next a xs b) : a = xs.headD b := by
  cases xs with
  | nil => exact hs
  | cons x xs => exact hs.1

theorem chain_next_last (hc : Chain next h (xs ++ ys) b) : next (xs.getLastD h) = ys.headD b := by
  obtain ⟨m, hx, hy⟩ := seg_append.mp hc
  rw [chain_last hx]
  exact seg_head hy

theorem getLastD_mem (h : α) (xs : List α) : xs.getLastD h ∈ h :: xs := by
  induction xs generalizing h with
  | nil => simp
  | cons x xs ih =>
    rw [getLastD_cons]
    exact mem_cons_of_mem _ (ih x)

theorem getLastD_mem_append (h : α) (xs ys : List α) : xs.getLastD h ∈ h :: (xs ++ ys) :=
  cons_subset_cons h (subset_append_left xs ys) (getLastD_mem h xs)

theorem getLastD_append_cons (h p : α) (xs ys : List α) :
    (xs ++ p :: ys).getLastD h = ys.getLastD p := by
  induction xs generalizing h with
  | nil => rw [nil_append, getLastD_cons]
  | cons x xs ih => rw [cons_append, getLastD_cons, ih]

/-- The only cell of a duplicate-free walk whose link is its end is the last one. -/
theorem chain_next_eq_end (hc : Chain next h xs b) (hb : b ∉ xs) (hx : q ∈ h :: xs)
    (hq : next q = b) : q = xs.getLastD h := by
  induction xs generalizing h with
  | nil => simpa using hx
  | cons x xs ih =>
    rw [getLastD_cons]
    obtain ⟨hh, hc⟩ := chain_cons.mp hc
    rcases mem_cons.mp hx with rfl | hx
    · exact absurd (hq ▸ hh ▸ mem_cons_self) hb
    · exact ih hc (fun hm => hb (mem_cons_of_mem _ hm)) hx

theorem ring_rotate (hc : Chain next h (xs ++ p :: ys) h) : Chain next p (ys ++ h :: xs) p := by
  rw [chain_append_cons] at hc ⊢
  exact ⟨hc.2, hc.1⟩

theorem nodup_rotate (hd : (h :: (xs ++ p :: ys)).Nodup) : (p :: (ys ++ h :: xs)).Nodup := by
  have hperm : ((h :: xs) ++ (p :: ys)).Perm ((p :: ys) ++ (h :: xs)) := perm_append_comm
  exact hperm.nodup_iff.mp hd

theorem seg_unique (h1 : Seg next a xs b) (h2 : Seg next a ys b) (hx : b ∉ xs) (hy : b ∉ ys) :
    xs = ys := by
  induction xs generalizing a ys with
  | nil =>
    cases ys with
    | nil => rfl
    | cons y ys =>
      obtain rfl : a = b := h1
      exact absurd (h2.1 ▸ mem_cons_self) hy
  | cons x xs ih =>
    cases ys with
    | nil =>
      obtain rfl : a = b := h2
      exact absurd (h1.1 ▸ mem_cons_self) hx
    | cons y ys =>
      obtain ⟨rfl, h1⟩ := h1
      obtain ⟨rfl, h2⟩ := h2
      rw [ih h1 h2 (fun hm => hx (mem_cons_of_mem _ hm)) (fun hm => hy (mem_cons_of_mem _ hm))]

theorem seg_range {f : Nat → α} {a d : Nat} (hd : 0 < d)
    (hnext : ∀ i, a ≤ i → i < a + d → next (f i) = if i + 1 < a + d then f (i + 1) else b) :
    Seg next (f a) ((range' a d).map f) b := by
  induction d generalizing a with
  | zero => omega
  | succ d ih =>
    refine ⟨rfl, ?_⟩
    rw [hnext a (Nat.le_refl a) (by omega)]
    by_cases hd' : 0 < d
    · rw [if_pos (by omega)]
      refine ih hd' ?_
      intro i h1 h2
      rw [hnext i (by omega) (by omega), show a + (d + 1) = a + 1 + d by omega]
    · obtain rfl : d = 0 := by omega
      rw [if_neg (by omega)]
      rfl

/-! ## Writes -/

section Writes

variable [DecidableEq α]

theorem seg_update (hn : n ∉ xs) : Seg (update next n v) a xs b ↔ Seg next a xs b := by
  apply seg_congr
  intro x hx
  have hne : x ≠ n := fun he => hn (he ▸ hx)
  exact update_of_ne hne _ _

theorem chain_update (hn : n ∉ h :: xs) : Chain (update next n v) h xs b ↔ Chain next h xs b := by
  apply chain_congr
  intro x hx
  have hne : x ≠ n := fun he => hn (he ▸ hx)
  exact update_of_ne hne _ _

theorem chain_update_last (hc : Chain next h xs b) (hd : (h :: xs).Nodup) :
    Chain (update next (xs.getLastD h) c) h xs c := by
  induction xs generalizing h with
  | nil => exact update_self ..
  | cons x xs ih =>
    rw [getLastD_cons]
    obtain ⟨hh, hc⟩ := chain_cons.mp hc
    have hne : h ≠ xs.getLastD x := by
      intro he
      exact (nodup_cons.mp hd).1 (he ▸ getLastD_mem x xs)
    exact chain_cons.mpr ⟨by rw [update_of_ne hne, hh], ih hc (nodup_cons.mp hd).2⟩

theorem seg_update_last (hs : Seg next a (xs ++ [p]) b) (hp : p ∉ xs) : Seg (update next p c) a (xs ++ [p]) c := by
  obtain ⟨m, hx, rfl, -⟩ := seg_append.mp hs
  exact seg_append.mpr ⟨m, (seg_update hp).mpr hx, rfl, update_self ..⟩

theorem chain_unlink (hc : Chain next h (xs ++ p :: ys) b) (hd : (h :: (xs ++ p :: ys)).Nodup) :
    Chain (update next (xs.getLastD h) (next p)) h (xs ++ ys) b := by
  obtain ⟨hx, hy⟩ := chain_append_cons.mp hc
  have hd' : (h :: xs ++ p :: ys).Nodup := hd
  obtain ⟨hdx, hdy, hdis⟩ := nodup_append.mp hd'
  have hx' : Chain (update next (xs.getLastD h) (next p)) h xs (next p) :=
    chain_update_last hx hdx
  have hlast : ∀ y ∈ ys, y ≠ xs.getLastD h := by
    intro y hy he
    exact hdis _ (getLastD_mem h xs) y (mem_cons_of_mem _ hy) he.symm
  have hy' : Seg (update next (xs.getLastD h) (next p)) (next p) ys b := by
    rw [seg_update (fun hm => hlast _ hm rfl)]
    exact hy
  exact seg_append.mpr ⟨next p, hx', hy'⟩

/-- `p->next = q->next; q->next = p` puts `p` behind the cell `q` that `xs` ends in. -/
theorem chain_link (hc : Chain next h (xs ++ ys) b) (hd : (h :: (xs ++ ys)).Nodup)
    (hp : p ∉ h :: (xs ++ ys)) :
    Chain (update (update next p (next (xs.getLastD h))) (xs.getLastD h) p) h (xs ++ p :: ys) b := by
  obtain ⟨m, hx, hy⟩ := seg_append.mp hc
  have hm : next (xs.getLastD h) = m := chain_last hx
  have hd' : (h :: xs ++ ys).Nodup := hd
  obtain ⟨hdx, hdy, hdis⟩ := nodup_append.mp hd'
  have hpx : p ∉ h :: xs := fun hm => hp (by simp at hm ⊢; tauto)
  have hpy : p ∉ ys := fun hm => hp (by simp; tauto)
  have hpl : p ≠ xs.getLastD h := fun he => hpx (he ▸ getLastD_mem h xs)
  have hly : xs.getLastD h ∉ ys := fun hm => hdis _ (getLastD_mem h xs) _ hm rfl
  rw [chain_append_cons]
  constructor
  · exact chain_update_last ((chain_update hpx).mpr hx) hdx
  · unfold Chain
    rw [update_of_ne hpl, update_self, seg_update hly, seg_update hpy, hm]
    exact hy

theorem seg_link (hs : Seg next a (xs ++ p :: ys) b) (hd : (xs ++ p :: ys).Nodup) (hq : q ∉ xs ++ p :: ys) :
    Seg (update (update next q (next p)) p q) a (xs ++ p :: q :: ys) b := by
  obtain ⟨m, hx, rfl, hy⟩ := seg_append.mp hs
  obtain ⟨-, hdy, hdis⟩ := nodup_append.mp hd
  simp only [mem_append, mem_cons, not_or] at hq
  have hpx : m ∉ xs := fun hm => hdis m hm m mem_cons_self rfl
  rw [seg_append]
  refine ⟨m, ?_, rfl, ?_⟩
  · rw [seg_update hpx, seg_update hq.1]
    exact hx
  · rw [update_self]
    refine ⟨rfl, ?_⟩
    rw [update_of_ne hq.2.1, update_self, seg_update (nodup_cons.mp hdy).1, seg_update hq.2.2]
    exact hy

theorem chain_replace (hc : Chain next h (xs ++ p :: ys) b) (hd : (h :: (xs ++ p :: ys)).Nodup)
    (hq : q ∉ h :: (xs ++ p :: ys)) :
    Chain (update (update next q (next p)) (xs.getLastD h) q) h (xs ++ q :: ys) b := by
  obtain ⟨hx, hy⟩ := chain_append_cons.mp hc
  have hd' : (h :: xs ++ p :: ys).Nodup := hd
  obtain ⟨hdx, hdy, hdis⟩ := nodup_append.mp hd'
  have hqx : q ∉ h :: xs := fun hm => hq (by simp at hm ⊢; tauto)
  have hqy : q ∉ ys := fun hm => hq (by simp; tauto)
  have hql : q ≠ xs.getLastD h := fun he => hqx (he ▸ getLastD_mem h xs)
  have hly : xs.getLastD h ∉ ys :=
    fun hm => hdis _ (getLastD_mem h xs) _ (mem_cons_of_mem _ hm) rfl
  rw [chain_append_cons]
  constructor
  · exact chain_update_last ((chain_update hqx).mpr hx) hdx
  · unfold Chain
    rw [update_of_ne hql, update_self, seg_update hly, seg_update hqy]
    exact hy

end Writes

/-! ## Search loops -/

/-- `for (p = a; !stop(p); p = next(p))`; `none` when the fuel is used up. -/
def scan (next : α → α) (stop : α → Bool) : Nat → α → Option α
  | 0, _ => none
  | fuel + 1, a => if stop a then some a else scan next stop fuel (next a)

theorem scan_seg (hs : Seg next a xs b) (hx : ∀ x ∈ xs, stop x = false) (hb : stop b = true)
    (hf : xs.length < fuel) :
    scan next stop fuel a = some b := by
  induction xs generalizing a fuel with
  | nil =>
    obtain _ | fuel := fuel
    · cases hf
    obtain rfl : a = b := hs
    simp [scan, hb]
  | cons x xs ih =>
    obtain _ | fuel := fuel
    · cases hf
    obtain ⟨rfl, hs⟩ := hs
    rw [scan, if_neg (by simp [hx a mem_cons_self])]
    exact ih hs (forall_mem_cons.mp hx).2 (by simpa using hf)

theorem scan_mem (hs : Seg next a xs b) (hb : stop b = true) (hf : xs.length < fuel) :
    ∃ r, scan next stop fuel a = some r ∧ (r ∈ xs ∨ r = b) := by
  induction xs generalizing a fuel with
  | nil =>
    exact ⟨b, scan_seg hs (by simp) hb hf, .inr rfl⟩
  | cons x xs ih =>
    obtain _ | fuel := fuel
    · cases hf
    obtain ⟨rfl, hs⟩ := hs
    rw [scan]
    split
    · exact ⟨a, rfl, .inl mem_cons_self⟩
    · obtain ⟨r, hr, hmem⟩ := ih hs (by simpa using hf)
      exact ⟨r, hr, hmem.imp_left (mem_cons_of_mem _)⟩

/-- `for (; good(p->next); p = p->next)` stops at the last good cell of the walk. -/
theorem scan_chain (hc : Chain next p (xs ++ ys) b) (hx : ∀ x ∈ xs, good x = true)
    (hy : good (ys.headD b) = false) (hf : xs.length < fuel) :
    scan next (fun q => !good (next q)) fuel p = some (xs.getLastD p) := by
  induction xs generalizing p fuel with
  | nil =>
    obtain _ | fuel := fuel
    · cases hf
    have hn : next p = ys.headD b := chain_next_last hc
    rw [scan, if_pos (by rw [hn, hy]; rfl)]
    rfl
  | cons x xs ih =>
    obtain _ | fuel := fuel
    · cases hf
    obtain ⟨hn, hc⟩ := chain_cons.mp hc
    rw [scan, hn, hx x mem_cons_self, getLastD_cons]
    exact ih hc (forall_mem_cons.mp hx).2 (by simpa using hf)

/-- `for (; good(p->next); p = p->next)` on a walk that ends in a cell that is not good. -/
theorem scan_split (hc : Chain next p zs b) (hb : good b = false) (hf : zs.length < fuel) :
    ∃ xs ys, zs = xs ++ ys ∧ (∀ x ∈ xs, good x = true) ∧ (∀ y ∈ ys.head?, good y = false) ∧
      scan next (fun q => !good (next q)) fuel p = some (xs.getLastD p) := by
  have hsplit : zs.takeWhile good ++ zs.dropWhile good = zs := takeWhile_append_dropWhile
  have hhead : ∀ y ∈ (zs.dropWhile good).head?, good y = false := by
    intro y hy
    have hnot := head?_dropWhile_not good zs
    rw [Option.mem_def.mp hy] at hnot
    exact hnot
  refine ⟨_, _, hsplit.symm, fun x hx => mem_takeWhile_imp hx, hhead, ?_⟩
  have hlen : (zs.takeWhile good).length ≤ zs.length := ( takeWhile_prefix good).length_le
  have hc' : Chain next p (zs.takeWhile good ++ zs.dropWhile good) b := hsplit.symm ▸ hc
  refine scan_chain hc' (fun x hx => mem_takeWhile_imp hx) ?_ (by omega)
  cases hd : zs.dropWhile good with
  | nil => exact hb
  | cons y ys => exact hhead y (by rw [hd]; rfl)

theorem scan_before [DecidableEq α] (hc : Chain next p (xs ++ ys) b) (hx : q ∉ xs)
    (hy : ys.headD b = q) (hf : xs.length < fuel) :
    scan next (fun z => decide (next z = q)) fuel p = some (xs.getLastD p) := by
  induction xs generalizing p fuel with
  | nil =>
    obtain _ | fuel := fuel
    · cases hf
    have hn : next p = q := (chain_next_last hc).trans hy
    rw [scan, if_pos (decide_eq_true hn)]
    rfl
  | cons x xs ih =>
    obtain _ | fuel := fuel
    · cases hf
    obtain ⟨hn, hc⟩ := chain_cons.mp hc
    have hxq : next p ≠ q := by rintro rfl; exact hx (hn ▸ mem_cons_self)
    rw [scan, if_neg (by simpa using hxq), hn, getLastD_cons]
    exact ih hc (fun hm => hx (mem_cons_of_mem _ hm)) (by simpa using hf)

theorem scan_pred [DecidableEq α] (hc : Chain next p zs p) (hd : (p :: zs).Nodup)
    (hf : zs.length < fuel) :
    scan next (fun q => decide (next q = p)) fuel (next p) = some (zs.getLastD p) := by
  have hp : p ∉ zs := (nodup_cons.mp hd).1
  rcases eq_nil_or_concat zs with rfl | ⟨ys, z, rfl⟩
  · have hn : next p = p := hc
    have hs : Seg next (next p) [] p := hn
    exact scan_seg hs (by simp) (by simp [hn]) hf
  rw [concat_eq_append] at *
  obtain ⟨hy, hz⟩ := chain_append_cons.mp hc
  have hz : next z = p := hz
  rw [getLastD_concat]
  refine scan_seg hy ?_ (by simp [hz]) (by simp at hf; omega)
  intro y hy'
  by_contra hstop
  have hyp : next y = p := by simpa using hstop
  have := chain_next_eq_end hc hp (mem_cons_of_mem _ (mem_append_left _ hy')) hyp
  rw [getLastD_concat] at this
  have hnd := (nodup_cons.mp hd).2
  rw [nodup_append] at hnd
  exact hnd.2.2 y hy' z (by simp) this

/-! ## Loops that take cells out -/

/-- `for (p = h; !stop(q = p->next); )` goes on to `q` or takes it out. -/
def sweep [DecidableEq α] (stop keep : α → Bool) :
    Nat → (α → α) → α → List α → Option ((α → α) × List α)
  | 0, _, _, _ => none
  | fuel + 1, next, p, acc =>
    if stop (next p) then some (next, acc)
    else if keep (next p) then sweep stop keep fuel next (next p) acc
    else sweep stop keep fuel (Function.update next p (next (next p))) p (next p :: acc)

theorem sweep_spec [DecidableEq α] (keep : α → Bool) (acc : List α) (hc : Chain next h xs b)
    (hd : (h :: xs).Nodup) (hx : ∀ x ∈ xs, stop x = false) (hb : stop b = true)
    (hf : xs.length < fuel) :
    ∃ next', sweep stop keep fuel next h acc =
        some (next', (xs.filter fun x => !keep x).reverse ++ acc) ∧
      Chain next' h (xs.filter keep) b ∧ ∀ c, c ∉ h :: xs → next' c = next c := by
  induction xs generalizing h fuel next acc with
  | nil =>
    obtain _ | fuel := fuel
    · cases hf
    have hn : next h = b := hc
    refine ⟨next, ?_, hc, fun c _ => rfl⟩
    rw [sweep, hn, if_pos hb]
    rfl
  | cons x xs ih =>
    obtain _ | fuel := fuel
    · cases hf
    obtain ⟨hn, hc⟩ := chain_cons.mp hc
    have hx' : ∀ y ∈ xs, stop y = false := (forall_mem_cons.mp hx).2
    have hf' : xs.length < fuel := by simpa using hf
    rw [sweep, hn, if_neg (by simp [hx x mem_cons_self])]
    cases hk : keep x with
    | true =>
      obtain ⟨next', hs, hc', hsame⟩ := ih acc hc (nodup_cons.mp hd).2 hx' hf'
      refine ⟨next', ?_, ?_, fun c hcm => hsame c fun hm => hcm (mem_cons_of_mem _ hm)⟩
      · rw [if_pos rfl, hs, filter_cons_of_neg (by simp [hk])]
      · rw [filter_cons_of_pos hk]
        refine chain_cons.mpr ⟨?_, hc'⟩
        rw [hsame h (nodup_cons.mp hd).1, hn]
    | false =>
      have hdel : Chain (update next h (next x)) h xs b := by
        have hd' : (h :: ([] ++ x :: xs)).Nodup := hd
        exact chain_unlink (h := h) (show Chain next h ([] ++ x :: xs) b from chain_cons.mpr ⟨hn, hc⟩) hd'
      have hdx : (h :: xs).Nodup := by
        rw [nodup_cons] at hd ⊢
        exact ⟨fun hm => hd.1 (mem_cons_of_mem _ hm), (nodup_cons.mp hd.2).2⟩
      obtain ⟨next', hs, hc', hsame⟩ := ih (x :: acc) hdel hdx hx' hf'
      refine ⟨next', ?_, ?_, fun c hcm => ?_⟩
      · rw [if_neg Bool.false_ne_true, hs, filter_cons_of_pos (by simp [hk]),
          reverse_cons, append_assoc]
        rfl
      · rw [filter_cons_of_neg (by simp [hk])]
        exact hc'
      rw [hsame c fun hm => hcm ?_]
      · have hne : c ≠ h := fun he => hcm (he ▸ mem_cons_self)
        exact update_of_ne hne _ _
      · rcases mem_cons.mp hm with rfl | hm
        · exact mem_cons_self
        · exact mem_cons_of_mem _ (mem_cons_of_mem _ hm)

end Linked
