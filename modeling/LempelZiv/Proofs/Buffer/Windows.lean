import LempelZiv.Buckets

/-!
Contract: the windows of a buffer as functions of its bytes.

Owns:
- the byte, the short and the long window and the buckets of a position, total
  because bytes past the end count as zero;
- the agreement of the checked reads with them where they succeed;
- the bytes that a window determines.

Does not own: how many bytes two positions share.
-/

namespace LempelZiv

namespace Buffer

/-- The byte at `position`, zero past the end. -/
def byte (buffer : Buffer) (position : Nat) : UInt8 :=
  buffer.getD position 0

def shortWindow (buffer : Buffer) (position : Nat) : UInt32 :=
  word24 (buffer.byte position) (buffer.byte (position + 1)) (buffer.byte (position + 2))

def window (buffer : Buffer) (position : Nat) : UInt32 :=
  word32 (buffer.byte position) (buffer.byte (position + 1)) (buffer.byte (position + 2))
    (buffer.byte (position + 3))

/-- The buckets of the windows at `position`. -/
def buckets (buffer : Buffer) (position : Nat) : Buckets :=
  Buckets.ofWindow (buffer.window position)

/-! ### Checked reads -/

section Reads

variable {buffer : Buffer} {position : Nat}

theorem byte_eq_getElem (inside : position < buffer.size) :
    buffer.byte position = buffer[position] := by
  simp [byte, inside]

theorem getElem?_eq_byte (inside : position < buffer.size) :
    buffer[position]? = some (buffer.byte position) := by
  rw [byte_eq_getElem inside, Array.getElem?_eq_getElem inside]

theorem getElem?_eq_of_byte_eq
    {other : Nat}
    (inside : position < buffer.size)
    (otherInside : other < buffer.size)
    (equal : buffer.byte position = buffer.byte other) :
    buffer[position]? = buffer[other]? := by
  rw [getElem?_eq_byte inside, getElem?_eq_byte otherInside, equal]

theorem getElem?_ne_of_byte_ne
    {other : Nat}
    (different : buffer.byte position ≠ buffer.byte other) :
    buffer[position]? ≠ buffer[other]? := by
  intro equal
  apply different
  rw [byte, byte, Array.getD_eq_getD_getElem?, Array.getD_eq_getD_getElem?, equal]

theorem byteAt_eq_byte (inside : position < buffer.size) :
    buffer.byteAt position = .ok (buffer.byte position) := by
  rw [byteAt_eq_ok inside, byte_eq_getElem inside]

theorem word24At_eq_shortWindow (inside : position + 2 < buffer.size) :
    buffer.word24At position = .ok (buffer.shortWindow position) := by
  rw [word24At_eq_ok inside, shortWindow, byte_eq_getElem (by omega),
    byte_eq_getElem (by omega), byte_eq_getElem inside]

theorem word32At_eq_window (inside : position + 3 < buffer.size) :
    buffer.word32At position = .ok (buffer.window position) := by
  rw [word32At_eq_ok inside, window, byte_eq_getElem (by omega), byte_eq_getElem (by omega),
    byte_eq_getElem (by omega), byte_eq_getElem inside]

theorem word64At_eq_bytes (inside : position + 7 < buffer.size) :
    buffer.word64At position =
      .ok (word64 (buffer.byte position) (buffer.byte (position + 1))
        (buffer.byte (position + 2)) (buffer.byte (position + 3))
        (buffer.byte (position + 4)) (buffer.byte (position + 5))
        (buffer.byte (position + 6)) (buffer.byte (position + 7))) := by
  rw [word64At_eq_ok inside, byte_eq_getElem (by omega), byte_eq_getElem (by omega),
    byte_eq_getElem (by omega), byte_eq_getElem (by omega), byte_eq_getElem (by omega),
    byte_eq_getElem (by omega), byte_eq_getElem (by omega), byte_eq_getElem inside]

theorem read_eq_buckets (inside : position + 3 < buffer.size) :
    Buckets.read buffer position = .ok (buffer.buckets position) := by
  rw [Buckets.read, word32At_eq_window inside]
  rfl

end Reads

/-! ### What a window determines -/

theorem toNat_word24 (byte0 byte1 byte2 : UInt8) :
    (word24 byte0 byte1 byte2).toNat =
      byte0.toNat + 256 * (byte1.toNat + 256 * byte2.toNat) := by
  have bound0 := byte0.toNat_lt
  have bound1 := byte1.toNat_lt
  have bound2 := byte2.toNat_lt
  simp only [word24, UInt32.toNat_add, UInt32.toNat_mul, UInt8.toNat_toUInt32,
    UInt32.reduceToNat]
  omega

theorem toNat_word32 (byte0 byte1 byte2 byte3 : UInt8) :
    (word32 byte0 byte1 byte2 byte3).toNat =
      byte0.toNat + 256 * (byte1.toNat + 256 * (byte2.toNat + 256 * byte3.toNat)) := by
  have bound0 := byte0.toNat_lt
  have bound1 := byte1.toNat_lt
  have bound2 := byte2.toNat_lt
  have bound3 := byte3.toNat_lt
  simp only [word32, UInt32.toNat_add, UInt32.toNat_mul, UInt8.toNat_toUInt32,
    UInt32.reduceToNat]
  omega

theorem word24_inj
    {left0 left1 left2 right0 right1 right2 : UInt8} :
    word24 left0 left1 left2 = word24 right0 right1 right2 ↔
      left0 = right0 ∧ left1 = right1 ∧ left2 = right2 := by
  constructor
  · intro equal
    have values := congrArg UInt32.toNat equal
    rw [toNat_word24, toNat_word24] at values
    have := left0.toNat_lt
    have := left1.toNat_lt
    have := right0.toNat_lt
    have := right1.toNat_lt
    simp only [← UInt8.toNat_inj]
    omega
  · intro equal
    obtain ⟨rfl, rfl, rfl⟩ := equal
    rfl

theorem word32_inj
    {left0 left1 left2 left3 right0 right1 right2 right3 : UInt8} :
    word32 left0 left1 left2 left3 = word32 right0 right1 right2 right3 ↔
      left0 = right0 ∧ left1 = right1 ∧ left2 = right2 ∧ left3 = right3 := by
  constructor
  · intro equal
    have values := congrArg UInt32.toNat equal
    rw [toNat_word32, toNat_word32] at values
    have := left0.toNat_lt
    have := left1.toNat_lt
    have := left2.toNat_lt
    have := right0.toNat_lt
    have := right1.toNat_lt
    have := right2.toNat_lt
    simp only [← UInt8.toNat_inj]
    omega
  · intro equal
    obtain ⟨rfl, rfl, rfl, rfl⟩ := equal
    rfl

variable (buffer : Buffer) (left right : Nat)

/-- The short window is the long one without its most significant byte. -/
theorem firstThree_window (position : Nat) :
    firstThree (buffer.window position) = buffer.shortWindow position := by
  apply UInt32.toNat_inj.mp
  rw [firstThree, UInt32.toNat_mod, window, shortWindow, toNat_word32, toNat_word24]
  have := (buffer.byte position).toNat_lt
  have := (buffer.byte (position + 1)).toNat_lt
  have := (buffer.byte (position + 2)).toNat_lt
  simp only [UInt32.reduceToNat]
  omega

theorem shortWindow_eq_iff :
    buffer.shortWindow left = buffer.shortWindow right ↔
      ∀ place < 3, buffer.byte (left + place) = buffer.byte (right + place) := by
  rw [shortWindow, shortWindow, word24_inj]
  constructor
  · intro equal place below
    obtain ⟨first, second, third⟩ := equal
    match place with
    | 0 => exact first
    | 1 => exact second
    | 2 => exact third
  · intro agree
    exact ⟨agree 0 (by decide), agree 1 (by decide), agree 2 (by decide)⟩

theorem window_eq_iff :
    buffer.window left = buffer.window right ↔
      ∀ place < 4, buffer.byte (left + place) = buffer.byte (right + place) := by
  rw [window, window, word32_inj]
  constructor
  · intro equal place below
    obtain ⟨first, second, third, fourth⟩ := equal
    match place with
    | 0 => exact first
    | 1 => exact second
    | 2 => exact third
    | 3 => exact fourth
  · intro agree
    exact ⟨agree 0 (by decide), agree 1 (by decide), agree 2 (by decide),
      agree 3 (by decide)⟩

theorem short_buckets_eq
    {left right : Nat}
    (equal : buffer.shortWindow left = buffer.shortWindow right) :
    (buffer.buckets left).short = (buffer.buckets right).short := by
  simp only [buckets, Buckets.ofWindow, firstThree_window, equal]

end Buffer

end LempelZiv
