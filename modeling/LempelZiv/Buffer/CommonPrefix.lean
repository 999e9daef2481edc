import LempelZiv.Buffer.Basic

/-!
Contract: how many bytes two positions of one buffer share.

Owns:
- the comparison of two eight-byte words;
- the extension of a known common prefix, a word at a time while a whole word
  fits under the limit and byte by byte after that.

The two ranges may overlap: they are only read.
-/

namespace LempelZiv.Buffer

/-- Number of low-order bytes, of at most `width`, on which two words agree. -/
def agreeingBytes : (width : Nat) → (left right : UInt64) → Nat
  | 0, _, _ => 0
  | width + 1, left, right =>
      if left % 256 = right % 256 then
        agreeingBytes width (left / 256) (right / 256) + 1
      else
        0

/-- Place of the first byte in which two words differ, if they do. -/
def firstDifference (left right : UInt64) : Option Nat :=
  if left = right then
    none
  else
    some (agreeingBytes 8 left right)

/-- Extend a common prefix of `length` bytes byte by byte, up to `limit`. -/
def extendByBytes (buffer : Buffer) (later earlier length limit : Nat) :
    Except Violation Nat :=
  if length < limit then do
    let left ← buffer.byteAt (later + length)
    let right ← buffer.byteAt (earlier + length)
    if left = right then
      extendByBytes buffer later earlier (length + 1) limit
    else
      pure length
  else
    pure length
termination_by limit - length

/-- Extend a common prefix of `length` bytes of the positions `later` and
`earlier` as far as the bytes agree, up to `limit`. -/
def extend (buffer : Buffer) (later earlier length limit : Nat) :
    Except Violation Nat :=
  if length + 8 ≤ limit then do
    let left ← buffer.word64At (later + length)
    let right ← buffer.word64At (earlier + length)
    match firstDifference left right with
    | some place => pure (length + place)
    | none => extend buffer later earlier (length + 8) limit
  else
    extendByBytes buffer later earlier length limit
termination_by limit - length

end LempelZiv.Buffer
