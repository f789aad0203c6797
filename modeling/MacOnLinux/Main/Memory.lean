import MacOnLinux.Mtable.Code

/-!
# Mac-physical addresses in the emulator (`main/memory.c`)
-/

namespace MacOnLinux

/-- The part of a `struct mmu_mapping` that is used to translate addresses. -/
structure Mapping where
  mbase : Word
  lvbase : Word
  size : Word
  deriving DecidableEq, Repr

structure Memory where
  ram : Mapping
  rom : Mapping
  deriving DecidableEq, Repr

inductive Region where
  | ram
  | rom
  deriving DecidableEq, Repr

def Mapping.covers (m : Mapping) (mptr : Word) : Bool := mptr - m.mbase < m.size

def Mapping.lvptr (m : Mapping) (mptr : Word) : Word := m.lvbase + (mptr - m.mbase)

/-- It returns 0 for RAM, 1 for ROM and -1 (here `none`) for anything else. -/
def mphysToLvptr (m : Memory) (mptr : Word) : Option (Region × Word) :=
  if m.ram.covers mptr then some (.ram, m.ram.lvptr mptr)
  else if m.rom.covers mptr then some (.rom, m.rom.lvptr mptr)
  else none

def translMphys (m : Memory) (mphys : Word) : Word := if m.ram.covers mphys then m.ram.lvptr mphys else 0

def translRoMphys (m : Memory) (mphys : Word) : Word :=
  if m.ram.covers mphys then m.ram.lvptr mphys
  else if m.rom.size ≠ 0 ∧ m.rom.covers mphys then m.rom.lvptr mphys
  else 0

def Memory.mapping (m : Memory) : Region → Mapping
  | .ram => m.ram
  | .rom => m.rom

def Mapping.holds (m : Mapping) (lvptr : Word) : Bool := lvptr - m.lvbase < m.size

end MacOnLinux
