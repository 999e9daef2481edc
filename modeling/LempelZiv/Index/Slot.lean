/-!
Contract: one 32-bit cell of an index table.

Owns: the cell that holds a position or nothing.

A position below `limit` is kept without loss; `limit` itself is the value of
the empty cell.
-/

namespace LempelZiv

/-- A 32-bit cell holding a position, or the reserved value for no position. -/
structure Slot where
  raw : UInt32
deriving DecidableEq, Repr

namespace Slot

/-- The first number that is not a position: the value of an empty cell. -/
def limit : Nat := 0xFFFFFFFF

/-- The cell without a position. -/
def empty : Slot := ⟨0xFFFFFFFF⟩

/-- The cell for a position, of which 32 bits are kept. -/
def ofPosition (position : Nat) : Slot := ⟨UInt32.ofNat position⟩

/-- The position in a cell, if it holds one. -/
def position? (slot : Slot) : Option Nat :=
  if slot = empty then none else some slot.raw.toNat

@[simp] theorem position?_empty : empty.position? = none := rfl

theorem position?_ofPosition
    {position : Nat}
    (addressable : position < limit) :
    (ofPosition position).position? = some position := by
  have exact32 : (UInt32.ofNat position).toNat = position := by
    simp only [UInt32.toNat_ofNat', limit] at *
    omega
  have notEmpty : ofPosition position ≠ empty := by
    intro equal
    have rawEqual : UInt32.ofNat position = 0xFFFFFFFF := congrArg Slot.raw equal
    have valueEqual := congrArg UInt32.toNat rawEqual
    rw [exact32] at valueEqual
    simp only [limit] at addressable
    have : (0xFFFFFFFF : UInt32).toNat = 4294967295 := rfl
    omega
  simp only [position?, if_neg notEmpty]
  exact congrArg some exact32

end Slot

end LempelZiv
