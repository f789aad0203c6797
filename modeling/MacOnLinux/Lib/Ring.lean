import Mathlib.Algebra.Order.Ring.Nat
import Mathlib.Data.Nat.ModEq

/-! # Rings of slots

All that the producer and the consumer of a ring see of each other is the flags that say which slots
are in use. A slot that is taken can be held by the consumer before it is free again.
-/

namespace MacOnLinux.Ring

variable {α : Type} {n first : Nat} {full full' held held' : Nat → Prop} {item item' : Nat → α} {xs : List α} {x : α}

/-- The items `xs` are in the slots from `first` on, behind the held ones. -/
structure Holds (n : Nat) (full : Nat → Prop) (item : Nat → α) (held : Nat → Prop) (first : Nat) (xs : List α) :
    Prop where
  fits : xs.length ≤ n
  full_iff : ∀ slot < n, full slot ↔ held slot ∨ ∃ i < xs.length, (first + i) % n = slot
  items : ∀ i x, xs[i]? = some x → item ((first + i) % n) = x
  apart : ∀ i < xs.length, ¬ held ((first + i) % n)

theorem slot_inj {i j : Nat} (hi : i < n) (hj : j < n) (h : (first + i) % n = (first + j) % n) : i = j := by
  have hmod : i % n = j % n := Nat.ModEq.add_left_cancel' first h
  rwa [Nat.mod_eq_of_lt hi, Nat.mod_eq_of_lt hj] at hmod

theorem holds_nil (hn : ∀ slot < n, ¬ full slot) : Holds n full item (fun _ => False) first [] where
  fits := Nat.zero_le n
  full_iff := by
    intro slot hslot
    simp [hn slot hslot]
  items := by simp
  apart := by simp

namespace Holds

section Held

variable (h : Holds n full item held first xs) (hn : 0 < n)

include h hn

theorem room (hfree : ¬ full ((first + xs.length) % n)) : xs.length < n := by
  by_contra hge
  -- all slots have an item: the next slot is the one of the first item
  have hlen : xs.length = n := le_antisymm h.fits (not_lt.mp hge)
  apply hfree
  rw [h.full_iff _ (Nat.mod_lt _ hn)]
  exact .inr ⟨0, by omega, by simp [hlen]⟩

theorem push (hfree : ¬ full ((first + xs.length) % n))
    (hfull : ∀ slot, full' slot ↔ slot = (first + xs.length) % n ∨ full slot)
    (hitem : item' ((first + xs.length) % n) = x)
    (hrest : ∀ slot, slot ≠ (first + xs.length) % n → item' slot = item slot) :
    Holds n full' item' held first (xs ++ [x]) := by
  have hroom := h.room hn hfree
  have hne (i : Nat) (hi : i < xs.length) : (first + i) % n ≠ (first + xs.length) % n := by
    intro heq
    exact absurd (slot_inj (by omega) hroom heq) (by omega)
  constructor
  · simpa [Nat.succ_le_iff] using hroom
  · intro slot hslot
    rw [hfull, h.full_iff slot hslot]
    constructor
    · rintro (rfl | hheld | ⟨i, hi, rfl⟩)
      · exact .inr ⟨xs.length, by simp, rfl⟩
      · exact .inl hheld
      · exact .inr ⟨i, by simp; omega, rfl⟩
    · rintro (hheld | ⟨i, hi, rfl⟩)
      · exact .inr (.inl hheld)
      · obtain hlt | rfl : i < xs.length ∨ i = xs.length := by simp at hi; omega
        · exact .inr (.inr ⟨i, hlt, rfl⟩)
        · exact .inl rfl
  · intro i y hy
    by_cases hi : i < xs.length
    · rw [List.getElem?_append_left hi] at hy
      rw [hrest _ (hne i hi)]
      exact h.items i y hy
    · have hlast := (List.getElem?_eq_some_iff.mp hy).1
      obtain rfl : i = xs.length := by simp at hlast; omega
      rw [List.getElem?_concat_length, Option.some_inj] at hy
      rw [hitem, hy]
  · intro i hi hheld
    obtain hlt | rfl : i < xs.length ∨ i = xs.length := by simp at hi; omega
    · exact h.apart i hlt hheld
    · exact hfree ((h.full_iff _ (Nat.mod_lt _ hn)).mpr (.inl hheld))

theorem next (hfull : full (first % n)) (hheld : ¬ held (first % n)) :
    ∃ ys, xs = item (first % n) :: ys := by
  obtain hh | ⟨i, hi, heq⟩ := (h.full_iff _ (Nat.mod_lt _ hn)).mp hfull
  · exact absurd hh hheld
  cases xs with
  | nil => simp at hi
  | cons y ys =>
    have hy := h.items 0 y rfl
    rw [add_zero] at hy
    exact ⟨ys, by rw [hy]⟩

theorem eq_nil (hfree : ¬ full (first % n)) : xs = [] := by
  by_contra hne
  apply hfree
  rw [h.full_iff _ (Nat.mod_lt _ hn)]
  exact .inr ⟨0, List.length_pos_iff.mpr hne, rfl⟩

end Held

theorem pop (h : Holds n full item held first (x :: xs)) (hheld : ∀ slot, held' slot ↔ slot = first % n ∨ held slot) :
    Holds n full item held' (first + 1) xs := by
  have hshift (i : Nat) : first + 1 + i = first + (i + 1) := by omega
  have hfits : xs.length + 1 ≤ n := h.fits
  constructor
  · omega
  · intro slot hslot
    rw [h.full_iff slot hslot, hheld]
    constructor
    · rintro (hh | ⟨i, hi, rfl⟩)
      · exact .inl (.inr hh)
      · cases i with
        | zero => exact .inl (.inl rfl)
        | succ i => exact .inr ⟨i, by simpa using hi, by rw [hshift]⟩
    · rintro ((rfl | hh) | ⟨i, hi, rfl⟩)
      · exact .inr ⟨0, by simp, rfl⟩
      · exact .inl hh
      · exact .inr ⟨i + 1, by simpa using hi, by rw [hshift]⟩
  · intro i y hy
    rw [hshift]
    exact h.items (i + 1) y hy
  intro i hi
  rw [hheld, hshift]
  rintro (heq | hh)
  · have hzero : (first + (i + 1)) % n = (first + 0) % n := heq
    exact absurd (slot_inj (by omega) (by omega) hzero) (by omega)
  · exact h.apart (i + 1) (by simpa using hi) hh

theorem release {slot : Nat} (h : Holds n full item held first xs) (hslot : held slot)
    (hheld : ∀ s, held' s ↔ s ≠ slot ∧ held s) (hfull : ∀ s, full' s ↔ s ≠ slot ∧ full s) :
    Holds n full' item held' first xs := by
  constructor
  · exact h.fits
  · intro s hs
    rw [hfull, hheld, h.full_iff s hs]
    constructor
    · rintro ⟨hne, hh | hi⟩
      · exact .inl ⟨hne, hh⟩
      · exact .inr hi
    · rintro (⟨hne, hh⟩ | ⟨i, hi, rfl⟩)
      · exact ⟨hne, .inl hh⟩
      · refine ⟨?_, .inr ⟨i, hi, rfl⟩⟩
        rintro rfl
        exact h.apart i hi hslot
  · exact h.items
  · intro i hi
    rw [hheld]
    exact fun hh => h.apart i hi hh.2

theorem take (h : Holds n full item held first (x :: xs)) (hfull : ∀ s, full' s ↔ s ≠ first % n ∧ full s) :
    Holds n full' item held (first + 1) xs := by
  have hfirst : ¬ held (first % n) := h.apart 0 (Nat.succ_pos _)
  have htaken : Holds n full item (fun s => s = first % n ∨ held s) (first + 1) xs := h.pop fun _ => Iff.rfl
  refine htaken.release (.inl rfl) (fun s => ?_) hfull
  constructor
  · intro hs
    refine ⟨?_, .inr hs⟩
    rintro rfl
    exact hfirst hs
  · rintro ⟨hne, heq | hs⟩
    · exact absurd heq hne
    · exact hs

end Holds

end MacOnLinux.Ring
