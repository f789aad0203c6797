import MacOnLinux.Mtable.Ranges

/-! # Partial addresses

Five bits of the address are the place of the slot in its table, the sixth is stored in the record.
-/

namespace MacOnLinux

/-- `lev2_alloc` rounds its page up to the size of a table. -/
def lev2Base (p : Nat) : Nat := if p % 128 ≠ 0 then p + 128 - p % 128 else p

def tableAddr (page : Nat → Nat) (t : Nat) : Nat :=
  lev2Base (page (t / Mtable.tablesPerChunk)) + 128 * (t % Mtable.tablesPerChunk)

/-- `page n` is what the host returned for the level 2 tables the `n`-th time. -/
structure Layout where
  addr : Ptr → Nat
  page : Nat → Nat
  aligned : ∀ n, page n % 4096 = 0
  slot : ∀ t j, addr (.slot t j) = tableAddr page t + 4 * j

def Layout.flat : Layout where
  addr
    | .slot t j => tableAddr (fun n => 4096 * n) t + 4 * j
    | _ => 0
  page := fun n => 4096 * n
  aligned := fun n => Nat.mul_mod_right 4096 n
  slot := fun _ _ => rfl

theorem Layout.slot_bits (L : Layout) (t : Nat) {j : Nat} (hj : j < 32) :
    L.addr (.slot t j) / 4 % 32 = j := by
  have hp := L.aligned (t / Mtable.tablesPerChunk)
  rw [L.slot, tableAddr, lev2Base, if_neg (by omega)]
  omega

def Layout.tlbie (L : Layout) (c : Tlbie) : Nat :=
  let ea := L.addr c.head / 4 % 32
  let ea := if c.eaBit14 then ea ||| 0x20 else ea
  ea <<< 12

theorem Tlbie.Of.low (L : Layout) {c : Tlbie} {k : Key} (h : c.Of k) :
    L.tlbie c / 2 ^ 12 % 64 = k.page % 64 := by
  obtain ⟨⟨t, hhead⟩, hbit⟩ := h
  have hlow : k.page % 32 < 32 := Nat.mod_lt _ (by decide)
  simp only [Layout.tlbie, hhead, hbit, L.slot_bits t hlow]
  by_cases h14 : k.page / 32 % 2 = 1
  · have hor : k.page % 32 ||| 0x20 = k.page % 32 + 32 := by
      rw [Nat.or_comm]
      exact (Nat.two_pow_add_eq_or_of_lt (i := 5) hlow 1).symm.trans (Nat.add_comm ..)
    rw [decide_eq_true h14, if_pos rfl]
    omega
  · rw [decide_eq_false h14, if_neg (by decide)]
    omega

end MacOnLinux
