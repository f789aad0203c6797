import Mathlib.Algebra.Order.Ring.Nat
import Mathlib.Data.List.GetD
import Mathlib.Data.List.Induction

/-! # Files of bytes

Behind the end everything reads as zero. Words are 64 bits, the most significant byte first.
-/

namespace MacOnLinux

open List

abbrev Byte := BitVec 8

structure File where
  size : Nat
  data : Nat → Byte
  zero : ∀ i, size ≤ i → data i = 0

namespace File

/-- The most bytes that one call transfers. -/
def maxRw : Nat := 0x7ffff000

/-! ## Operations -/

def read (f : File) (off len : Nat) : List Byte := (List.range (min len (f.size - off))).map fun i => f.data (off + i)

def write (f : File) (off : Nat) (bs : List Byte) : File where
  size := if bs = [] then f.size else max f.size (off + bs.length)
  data := fun i => if off ≤ i then bs.getD (i - off) (f.data i) else f.data i
  zero := by
    intro i hi
    have hsize : f.size ≤ i := by
      split at hi <;> omega
    split
    · rename_i hoff
      have hlen : bs.length ≤ i - off := by
        split at hi
        · simp_all
        · omega
      rw [List.getD_eq_default _ _ hlen]
      exact f.zero i hsize
    · exact f.zero i hsize

def truncate (f : File) (size : Nat) : File where
  size := size
  data := fun i => if i < size then f.data i else 0
  zero := fun _ hi => if_neg (Nat.not_lt.mpr hi)

/-- A number whose digits to the base 256 are bytes. -/
def ofBytes (bs : List Byte) : Nat := bs.foldl (fun n b => n * 256 + b.toNat) 0

def word (f : File) (off : Nat) : Nat := ofBytes ((List.range 8).map fun i => f.data (off + i))

/-- The bytes of a number, the most significant one first. -/
def toBytes : Nat → Nat → List Byte
  | 0, _ => []
  | n + 1, v => toBytes n (v / 256) ++ [BitVec.ofNat 8 v]

/-! ## Words -/

@[simp] theorem length_toBytes (n v : Nat) : (toBytes n v).length = n := by
  induction n generalizing v with
  | zero => rfl
  | succ n ih => simp [toBytes, ih]

theorem ofBytes_append (bs : List Byte) (b : Byte) : ofBytes (bs ++ [b]) = ofBytes bs * 256 + b.toNat := by
  simp [ofBytes]

theorem ofBytes_lt (bs : List Byte) : ofBytes bs < 256 ^ bs.length := by
  induction bs using reverseRecOn with
  | nil => decide
  | append_singleton bs b ih =>
    rw [ofBytes_append, length_append, length_singleton]
    omega

theorem ofBytes_toBytes {n v : Nat} (h : v < 256 ^ n) : ofBytes (toBytes n v) = v := by
  induction n generalizing v with
  | zero =>
    have : v = 0 := by simpa using h
    simp [toBytes, ofBytes, this]
  | succ n ih =>
    have hdiv : v / 256 < 256 ^ n := by
      rw [Nat.div_lt_iff_lt_mul (by decide)]
      rwa [pow_succ] at h
    rw [toBytes, ofBytes_append, ih hdiv]
    exact Nat.div_add_mod' v 256

theorem word_eq_zero {f : File} {off : Nat} (h : ∀ i, i < 8 → f.data (off + i) = 0) : f.word off = 0 := by
  have hmap : ((range 8).map fun i => f.data (off + i)) = replicate 8 0 := by
    rw [eq_replicate_iff]
    refine ⟨by simp, fun b hb => ?_⟩
    obtain ⟨i, hi, rfl⟩ := mem_map.mp hb
    exact h i (mem_range.mp hi)
  rw [word, hmap]
  decide

/-! ## Reads after writes -/

variable {f : File} {off off' i : Nat} {bs : List Byte}

theorem size_write : (f.write off bs).size = if bs = [] then f.size else max f.size (off + bs.length) := rfl

theorem size_le_write : f.size ≤ (f.write off bs).size := by
  rw [size_write]
  split <;> omega

theorem le_size_write (f : File) (off : Nat) (h : bs ≠ []) : off + bs.length ≤ (f.write off bs).size := by
  rw [size_write, if_neg h]
  omega

theorem data_write_of_lt (h : i < off) : (f.write off bs).data i = f.data i := if_neg (not_le.mpr h)

theorem data_write_of_ge (h : off + bs.length ≤ i) : (f.write off bs).data i = f.data i := by
  show (if off ≤ i then _ else _) = _
  rw [if_pos (by omega), getD_eq_default _ _ (by omega)]

theorem data_write_of_mem (h : off ≤ i) (h' : i < off + bs.length) : (f.write off bs).data i = bs.getD (i - off) 0 := by
  show (if off ≤ i then _ else _) = _
  have hlt : i - off < bs.length := by omega
  rw [if_pos h, getD_eq_getElem _ _ hlt, getD_eq_getElem _ _ hlt]

theorem data_truncate (h : f.size ≤ off) : (f.truncate off).data i = f.data i := by
  show (if i < off then _ else _) = _
  split
  · rfl
  · exact (f.zero i (by omega)).symm

theorem word_congr {g : File} (h : ∀ i, i < 8 → g.data (off + i) = f.data (off + i)) : g.word off = f.word off := by
  unfold word
  congr 1
  apply map_congr_left
  intro i hi
  exact h i (mem_range.mp hi)

theorem word_write_of_disjoint (h : off' + 8 ≤ off ∨ off + bs.length ≤ off') :
    (f.write off bs).word off' = f.word off' := by
  apply word_congr
  intro i hi
  obtain h | h := h
  · exact data_write_of_lt (by omega)
  · exact data_write_of_ge (by omega)

theorem map_data_write (f : File) (off : Nat) (bs : List Byte) :
    ((range bs.length).map fun i => (f.write off bs).data (off + i)) = bs := by
  apply ext_getElem
  · simp
  · intro i hi hi'
    simp only [getElem_map, getElem_range]
    rw [data_write_of_mem (by omega) (by omega), Nat.add_sub_cancel_left, getD_eq_getElem _ _ hi']

theorem word_write_self {v : Nat} (h : v < 2 ^ 64) : (f.write off (toBytes 8 v)).word off = v := by
  have hmap := map_data_write f off (toBytes 8 v)
  rw [length_toBytes] at hmap
  rw [word, hmap]
  exact ofBytes_toBytes (by omega)

theorem length_read_of_le {len : Nat} (h : off + len ≤ f.size) : (f.read off len).length = len := by
  simp only [read, length_map, length_range]
  omega

theorem read_congr {g : File} {len : Nat} (h : off + len ≤ f.size) (h' : off + len ≤ g.size)
    (hdata : ∀ i, off ≤ i → i < off + len → g.data i = f.data i) : g.read off len = f.read off len := by
  have hmin : min len (f.size - off) = len := by omega
  have hmin' : min len (g.size - off) = len := by omega
  rw [read, read, hmin, hmin']
  apply map_congr_left
  intro i hi
  exact hdata _ (Nat.le_add_right _ _) (Nat.add_lt_add_left (mem_range.mp hi) _)

theorem read_eq_map {len : Nat} (h : off + len ≤ f.size) :
    f.read off len = (range len).map fun i => f.data (off + i) := by
  rw [read, min_eq_left (by omega)]

end File

end MacOnLinux
