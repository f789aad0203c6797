import Mathlib.Algebra.Group.Nat.Defs
import Mathlib.Data.List.GetD

/-! # Byte memory with little-endian words -/

namespace MacOnLinux

variable {w : Nat}

open BitVec

theorem and_high (x : BitVec w) (n : Nat) : (x &&& (allOnes w <<< n)).toNat = x.toNat / 2 ^ n * 2 ^ n := by
  have hle := Nat.div_mul_le_self x.toNat (2 ^ n)
  rw [← shiftLeft_ushiftRight, toNat_shiftLeft, toNat_ushiftRight, Nat.shiftRight_eq_div_pow, Nat.shiftLeft_eq,
    Nat.mod_eq_of_lt (Nat.lt_of_le_of_lt hle x.isLt)]

theorem and_low (x : BitVec w) (n : Nat) (hn : n < w) : (x &&& BitVec.ofNat w (2 ^ n - 1)).toNat = x.toNat % 2 ^ n := by
  have hlt := Nat.pow_lt_pow_right (a := 2) (by decide) hn
  rw [toNat_and, toNat_ofNat, Nat.mod_eq_of_lt (Nat.sub_lt_of_lt hlt), Nat.and_two_pow_sub_one_eq_mod]

namespace LeMem

abbrev Mem (w : Nat) := BitVec w → BitVec 8

def store (m : Mem w) (a : BitVec w) (bytes : List (BitVec 8)) : Mem w :=
  fun x => bytes.getD (x - a).toNat (m x)

def load32 (m : Mem w) (a : BitVec w) : BitVec 32 := m (a + 3) ++ m (a + 2) ++ m (a + 1) ++ m a

def bytes32 (v : BitVec 32) : List (BitVec 8) :=
  [v.setWidth 8, (v >>> 8).setWidth 8, (v >>> 16).setWidth 8, (v >>> 24).setWidth 8]

def store32 (m : Mem w) (a : BitVec w) (v : BitVec 32) : Mem w := store m a (bytes32 v)

end LeMem

end MacOnLinux
