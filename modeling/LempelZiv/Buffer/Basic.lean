import LempelZiv.Violation

/-!
Contract: checked reads of bytes and little-endian windows.

Owns:
- the byte buffer and its reads of one, three, four and eight bytes;
- the little-endian words those reads produce.

Every read checks its whole range before it touches a byte, so a program that
never answers `indexOutOfBounds` never reads outside its buffer.
-/

namespace LempelZiv

/-- The bytes that are searched, parsed or produced. -/
abbrev Buffer := Array UInt8

namespace Buffer

/-- Three bytes, the first one least significant. -/
@[inline] def word24 (byte0 byte1 byte2 : UInt8) : UInt32 :=
  byte0.toUInt32 + 256 * (byte1.toUInt32 + 256 * byte2.toUInt32)

/-- Four bytes, the first one least significant. -/
@[inline] def word32 (byte0 byte1 byte2 byte3 : UInt8) : UInt32 :=
  byte0.toUInt32 + 256 * (byte1.toUInt32 + 256 * (byte2.toUInt32 + 256 * byte3.toUInt32))

/-- Eight bytes, the first one least significant. -/
@[inline] def word64 (byte0 byte1 byte2 byte3 byte4 byte5 byte6 byte7 : UInt8) : UInt64 :=
  byte0.toUInt64 + 256 * (byte1.toUInt64 + 256 * (byte2.toUInt64 + 256 * (byte3.toUInt64 +
    256 * (byte4.toUInt64 + 256 * (byte5.toUInt64 + 256 * (byte6.toUInt64 +
      256 * byte7.toUInt64))))))

/-- The byte at `position`. -/
@[inline] def byteAt (buffer : Buffer) (position : Nat) : Except Violation UInt8 :=
  if inside : position < buffer.size then
    .ok buffer[position]
  else
    .error (.indexOutOfBounds buffer.size position)

/-- The three-byte window at `position`. -/
@[inline] def word24At (buffer : Buffer) (position : Nat) : Except Violation UInt32 :=
  if inside : position + 2 < buffer.size then
    .ok (word24 buffer[position] buffer[position + 1] buffer[position + 2])
  else
    .error (.indexOutOfBounds buffer.size (position + 2))

/-- The four-byte window at `position`. -/
@[inline] def word32At (buffer : Buffer) (position : Nat) : Except Violation UInt32 :=
  if inside : position + 3 < buffer.size then
    .ok (word32 buffer[position] buffer[position + 1] buffer[position + 2]
      buffer[position + 3])
  else
    .error (.indexOutOfBounds buffer.size (position + 3))

/-- The eight-byte window at `position`. -/
@[inline] def word64At (buffer : Buffer) (position : Nat) : Except Violation UInt64 :=
  if inside : position + 7 < buffer.size then
    .ok (word64 buffer[position] buffer[position + 1] buffer[position + 2]
      buffer[position + 3] buffer[position + 4] buffer[position + 5]
      buffer[position + 6] buffer[position + 7])
  else
    .error (.indexOutOfBounds buffer.size (position + 7))

/-- The first three bytes of a four-byte window. -/
@[inline] def firstThree (window : UInt32) : UInt32 :=
  window % 0x1000000

theorem byteAt_eq_ok
    {buffer : Buffer}
    {position : Nat}
    (inside : position < buffer.size) :
    buffer.byteAt position = .ok buffer[position] := by
  simp [byteAt, inside]

theorem word24At_eq_ok
    {buffer : Buffer}
    {position : Nat}
    (inside : position + 2 < buffer.size) :
    buffer.word24At position =
      .ok (word24 buffer[position] buffer[position + 1] buffer[position + 2]) := by
  simp [word24At, inside]

theorem word32At_eq_ok
    {buffer : Buffer}
    {position : Nat}
    (inside : position + 3 < buffer.size) :
    buffer.word32At position =
      .ok (word32 buffer[position] buffer[position + 1] buffer[position + 2]
        buffer[position + 3]) := by
  simp [word32At, inside]

theorem word64At_eq_ok
    {buffer : Buffer}
    {position : Nat}
    (inside : position + 7 < buffer.size) :
    buffer.word64At position =
      .ok (word64 buffer[position] buffer[position + 1] buffer[position + 2]
        buffer[position + 3] buffer[position + 4] buffer[position + 5]
        buffer[position + 6] buffer[position + 7]) := by
  simp [word64At, inside]

end Buffer

end LempelZiv
