import LempelZiv.Buffer.Basic

/-!
Contract: which buckets the windows at a position fall into.

Owns:
- the multiplicative hash of a window, reduced to a number of bits;
- the sizes of the two bucket tables and the bucket numbers of a position.

Bucket numbers are bounded by their tables: the hash keeps the top bits of a
32-bit product, so reduced to `order` bits it is below `1 <<< order`.
-/

namespace LempelZiv

/-- Bits of a bucket number in the table of three-byte windows. -/
def shortOrder : Nat := 15

/-- Bits of a bucket number in the table of four-byte windows. -/
def longOrder : Nat := 16

/-- Number of buckets for three-byte windows. -/
abbrev shortBuckets : Nat := 1 <<< shortOrder

/-- Number of buckets for four-byte windows. -/
abbrev longBuckets : Nat := 1 <<< longOrder

/-- The top `order` bits of the window's product with a fixed odd constant. -/
def multiplicativeHash (window : UInt32) (order : Nat) : UInt32 :=
  (window * 0x1E35A7BD) >>> UInt32.ofNat (32 - order)

theorem toNat_multiplicativeHash_lt
    (window : UInt32)
    {order : Nat}
    (positive : 0 < order)
    (atMost : order ≤ 32) :
    (multiplicativeHash window order).toNat < 1 <<< order := by
  have shiftSmall : (32 - order) % 2 ^ 32 % 32 = 32 - order := by omega
  have product := (window * 0x1E35A7BD).toNat_lt
  simp only [multiplicativeHash, UInt32.toNat_shiftRight, UInt32.toNat_ofNat', shiftSmall,
    Nat.shiftRight_eq_div_pow]
  rw [Nat.one_shiftLeft, Nat.div_lt_iff_lt_mul (Nat.two_pow_pos _), ← Nat.pow_add,
    show order + (32 - order) = 32 by omega]
  exact product

/-- The two buckets of one position. -/
structure Buckets where
  short : Fin shortBuckets
  long : Fin longBuckets
deriving DecidableEq, Repr

namespace Buckets

/-- The buckets of the first three bytes and of all four bytes of a window. -/
def ofWindow (window : UInt32) : Buckets where
  short :=
    ⟨(multiplicativeHash (Buffer.firstThree window) shortOrder).toNat,
      toNat_multiplicativeHash_lt _ (by decide) (by decide)⟩
  long :=
    ⟨(multiplicativeHash window longOrder).toNat,
      toNat_multiplicativeHash_lt _ (by decide) (by decide)⟩

/-- The buckets of `position`, from which four bytes must be readable. -/
def read (buffer : Buffer) (position : Nat) : Except Violation Buckets :=
  (buffer.word32At position).map ofWindow

end Buckets

end LempelZiv
