import LempelZiv.Buffer.CommonPrefix
import LempelZiv.Proofs.Buffer.Windows

/-!
Contract: the number of bytes that two positions share, byte by byte.

Owns:
- the bytewise count, its characterization and how it splits;
- the repetition of bytes inside a buffer;
- what a shared prefix says about windows and buckets;
- the agreement of the word-wise extension with the bytewise count.

The eight-byte words are related to the count through `lowBytes`, a word built
by the recursion by which the count compares.
-/

namespace LempelZiv.Buffer

/-- Number of equal leading bytes at two positions, of at most `limit`. -/
def sharedLength (buffer : Buffer) (left right : Nat) : (limit : Nat) → Nat
  | 0 => 0
  | limit + 1 =>
      if buffer.byte left = buffer.byte right then
        sharedLength buffer (left + 1) (right + 1) limit + 1
      else
        0

variable {buffer : Buffer}

theorem sharedLength_le (left right limit : Nat) :
    buffer.sharedLength left right limit ≤ limit := by
  induction limit generalizing left right with
  | zero => simp [sharedLength]
  | succ limit inductionHypothesis =>
      have rest := inductionHypothesis (left + 1) (right + 1)
      rw [sharedLength]
      split <;> omega

theorem le_sharedLength_iff {left right limit length : Nat} :
    length ≤ buffer.sharedLength left right limit ↔
      length ≤ limit ∧
        ∀ place < length, buffer.byte (left + place) = buffer.byte (right + place) := by
  induction limit generalizing left right length with
  | zero =>
      rw [sharedLength]
      constructor
      · intro none
        exact ⟨none, fun place below => by omega⟩
      · exact And.left
  | succ limit inductionHypothesis =>
      rw [sharedLength]
      cases length with
      | zero => simp
      | succ length =>
          by_cases first : buffer.byte left = buffer.byte right
          · rw [if_pos first, Nat.add_le_add_iff_right, Nat.add_le_add_iff_right,
              inductionHypothesis, Nat.forall_lt_succ_left]
            simp only [Nat.add_zero, first, true_and, Nat.add_assoc, Nat.add_comm 1]
          · rw [if_neg first, Nat.forall_lt_succ_left]
            simp only [Nat.add_zero, first, false_and, and_false, iff_false]
            omega

theorem byte_eq_of_lt_sharedLength
    {left right limit place : Nat}
    (below : place < buffer.sharedLength left right limit) :
    buffer.byte (left + place) = buffer.byte (right + place) :=
  (le_sharedLength_iff.mp below).2 place (Nat.lt_succ_self place)

theorem byte_ne_of_sharedLength_lt
    {left right limit : Nat}
    (below : buffer.sharedLength left right limit < limit) :
    buffer.byte (left + buffer.sharedLength left right limit) ≠
      buffer.byte (right + buffer.sharedLength left right limit) := by
  intro equal
  have longer : buffer.sharedLength left right limit + 1 ≤
      buffer.sharedLength left right limit := by
    apply le_sharedLength_iff.mpr
    refine ⟨below, fun place placeBelow => ?_⟩
    rcases Nat.lt_succ_iff_lt_or_eq.mp placeBelow with earlier | rfl
    · exact byte_eq_of_lt_sharedLength earlier
    · exact equal
  omega

/-- The count over a longer limit goes on where the first part ended. -/
theorem sharedLength_add (buffer : Buffer) (left right first second : Nat) :
    buffer.sharedLength left right (first + second) =
      if buffer.sharedLength left right first = first then
        first + buffer.sharedLength (left + first) (right + first) second
      else
        buffer.sharedLength left right first := by
  induction first generalizing left right with
  | zero => simp [sharedLength]
  | succ first inductionHypothesis =>
      rw [Nat.succ_add, sharedLength, sharedLength]
      by_cases equal : buffer.byte left = buffer.byte right
      · simp only [if_pos equal, inductionHypothesis, Nat.add_right_cancel_iff]
        split
        · rw [Nat.add_right_comm left, Nat.add_right_comm right, Nat.add_assoc left,
            Nat.add_assoc right]
          omega
        · rfl
      · simp [if_neg equal]

/-! ### Repeated bytes -/

/-- The bytes at `position` repeat so many bytes at `source`. -/
def Repeats (buffer : Buffer) (position source length : Nat) : Prop :=
  ∀ place < length, buffer[position + place]? = buffer[source + place]?

theorem repeats_iff_le_sharedLength
    {position source length limit : Nat}
    (inside : position + limit ≤ buffer.size)
    (earlier : source ≤ position)
    (permitted : length ≤ limit) :
    buffer.Repeats position source length ↔
      length ≤ buffer.sharedLength position source limit := by
  rw [le_sharedLength_iff]
  constructor
  · intro repeats
    refine ⟨permitted, fun place below => ?_⟩
    apply Decidable.byContradiction
    intro different
    exact getElem?_ne_of_byte_ne different (repeats place below)
  · intro shared place below
    exact getElem?_eq_of_byte_eq (by omega) (by omega) (shared.2 place below)

/-! ### Windows and buckets -/

theorem window_eq_iff_le_sharedLength
    {left right limit : Nat}
    (wide : 4 ≤ limit) :
    buffer.window left = buffer.window right ↔
      4 ≤ buffer.sharedLength left right limit := by
  rw [window_eq_iff, le_sharedLength_iff]
  simp only [wide, true_and]

theorem shortWindow_eq_iff_le_sharedLength
    {left right limit : Nat}
    (wide : 3 ≤ limit) :
    buffer.shortWindow left = buffer.shortWindow right ↔
      3 ≤ buffer.sharedLength left right limit := by
  rw [shortWindow_eq_iff, le_sharedLength_iff]
  simp only [wide, true_and]

theorem long_buckets_eq
    {left right limit : Nat}
    (shared : 4 ≤ buffer.sharedLength left right limit) :
    (buffer.buckets left).long = (buffer.buckets right).long := by
  have wide : 4 ≤ limit := (le_sharedLength_iff.mp shared).1
  rw [buckets, buckets, (window_eq_iff_le_sharedLength wide).mpr shared]

theorem short_buckets_eq_of_shared
    {left right limit : Nat}
    (shared : 3 ≤ buffer.sharedLength left right limit) :
    (buffer.buckets left).short = (buffer.buckets right).short := by
  have wide : 3 ≤ limit := (le_sharedLength_iff.mp shared).1
  exact short_buckets_eq buffer ((shortWindow_eq_iff_le_sharedLength wide).mpr shared)

/-! ### Words -/

/-- The `width` bytes at `position` as a word, the first one least significant. -/
def lowBytes (buffer : Buffer) (position : Nat) : (width : Nat) → UInt64
  | 0 => 0
  | width + 1 => (buffer.byte position).toUInt64 + 256 * lowBytes buffer (position + 1) width

theorem toNat_lowBytes_lt
    (position : Nat)
    {width : Nat}
    (fits : width ≤ 8) :
    (buffer.lowBytes position width).toNat < 1 <<< (8 * width) := by
  induction width generalizing position with
  | zero => simp [lowBytes]
  | succ width inductionHypothesis =>
      have tail := inductionHypothesis (position + 1) (by omega)
      have head := (buffer.byte position).toNat_lt
      have wider : 1 <<< (8 * (width + 1)) = 1 <<< (8 * width) * 256 := by
        rw [Nat.one_shiftLeft, Nat.one_shiftLeft, Nat.mul_succ, Nat.pow_add]
      rw [lowBytes, UInt64.toNat_add, UInt64.toNat_mul, UInt8.toNat_toUInt64, wider]
      refine Nat.lt_of_le_of_lt (Nat.mod_le _ _) ?_
      have product : (256 : UInt64).toNat * (buffer.lowBytes (position + 1) width).toNat %
          2 ^ 64 ≤ 256 * (buffer.lowBytes (position + 1) width).toNat :=
        Nat.mod_le _ _
      omega

theorem word64_eq_lowBytes (position : Nat) :
    word64 (buffer.byte position) (buffer.byte (position + 1)) (buffer.byte (position + 2))
        (buffer.byte (position + 3)) (buffer.byte (position + 4))
        (buffer.byte (position + 5)) (buffer.byte (position + 6))
        (buffer.byte (position + 7)) =
      buffer.lowBytes position 8 := by
  simp [word64, lowBytes, Nat.add_assoc]

theorem lowBytes_split
    (buffer : Buffer)
    (position : Nat)
    {width : Nat}
    (fits : width < 8) :
    buffer.lowBytes position (width + 1) % 256 = (buffer.byte position).toUInt64 ∧
      buffer.lowBytes position (width + 1) / 256 = buffer.lowBytes (position + 1) width := by
  have narrow : 1 <<< (8 * width) ≤ 1 <<< 56 := by
    rw [Nat.one_shiftLeft, Nat.one_shiftLeft]
    exact Nat.pow_le_pow_right (by decide) (by omega)
  have tail : (buffer.lowBytes (position + 1) width).toNat < 1 <<< 56 :=
    Nat.lt_of_lt_of_le (toNat_lowBytes_lt (position + 1) (by omega)) narrow
  have head := (buffer.byte position).toNat_lt
  simp only [lowBytes, ← UInt64.toNat_inj, UInt64.toNat_mod, UInt64.toNat_div,
    UInt64.toNat_add, UInt64.toNat_mul, UInt8.toNat_toUInt64, UInt64.reduceToNat]
  omega

theorem agreeingBytes_lowBytes
    (left right : Nat)
    {width : Nat}
    (fits : width ≤ 8) :
    agreeingBytes width (buffer.lowBytes left width) (buffer.lowBytes right width) =
      buffer.sharedLength left right width := by
  induction width generalizing left right with
  | zero => rfl
  | succ width inductionHypothesis =>
      have leftSplit := lowBytes_split buffer left fits
      have rightSplit := lowBytes_split buffer right fits
      rw [agreeingBytes, sharedLength, leftSplit.1, leftSplit.2, rightSplit.1, rightSplit.2,
        inductionHypothesis (left + 1) (right + 1) (by omega)]
      simp only [← UInt64.toNat_inj, UInt8.toNat_toUInt64, UInt8.toNat_inj]

theorem lowBytes_eq_iff
    (left right : Nat)
    {width : Nat}
    (fits : width ≤ 8) :
    buffer.lowBytes left width = buffer.lowBytes right width ↔
      buffer.sharedLength left right width = width := by
  induction width generalizing left right with
  | zero => simp [lowBytes, sharedLength]
  | succ width inductionHypothesis =>
      have rest := inductionHypothesis (left + 1) (right + 1) (by omega)
      constructor
      · intro equal
        have leftSplit := lowBytes_split buffer left fits
        have rightSplit := lowBytes_split buffer right fits
        have headEqual : buffer.byte left = buffer.byte right := by
          have words : (buffer.byte left).toUInt64 = (buffer.byte right).toUInt64 := by
            rw [← leftSplit.1, equal, rightSplit.1]
          simpa only [← UInt64.toNat_inj, UInt8.toNat_toUInt64, UInt8.toNat_inj] using words
        have tailEqual : buffer.lowBytes (left + 1) width =
            buffer.lowBytes (right + 1) width := by
          rw [← leftSplit.2, equal, rightSplit.2]
        rw [sharedLength, if_pos headEqual, rest.mp tailEqual]
      · intro all
        by_cases headEqual : buffer.byte left = buffer.byte right
        · rw [sharedLength, if_pos headEqual, Nat.add_right_cancel_iff] at all
          rw [lowBytes, lowBytes, headEqual, rest.mpr all]
        · rw [sharedLength, if_neg headEqual] at all
          omega

/-- The place of the first difference of two eight-byte words is the count of
the bytes before it; equal words share all eight. -/
theorem firstDifference_lowBytes (left right : Nat) :
    firstDifference (buffer.lowBytes left 8) (buffer.lowBytes right 8) =
      if buffer.sharedLength left right 8 = 8 then
        none
      else
        some (buffer.sharedLength left right 8) := by
  rw [firstDifference, agreeingBytes_lowBytes left right (by decide)]
  simp only [lowBytes_eq_iff left right (show 8 ≤ 8 by decide)]

/-! ### Extension -/

theorem extendByBytes_eq_ok
    {later earlier length limit : Nat}
    (before : earlier ≤ later)
    (atMost : length ≤ limit)
    (inside : later + limit ≤ buffer.size) :
    buffer.extendByBytes later earlier length limit =
      .ok (length + buffer.sharedLength (later + length) (earlier + length)
        (limit - length)) := by
  induction remaining : limit - length generalizing length with
  | zero =>
      rw [extendByBytes, if_neg (by omega)]
      rfl
  | succ remaining inductionHypothesis =>
      rw [extendByBytes, if_pos (by omega), byteAt_eq_byte (by omega),
        byteAt_eq_byte (by omega)]
      change (if buffer.byte (later + length) = buffer.byte (earlier + length) then
        buffer.extendByBytes later earlier (length + 1) limit else Except.ok length) = _
      rw [sharedLength]
      split
      · have rest : buffer.extendByBytes later earlier (length + 1) limit = _ :=
          inductionHypothesis (by omega) (by omega)
        rw [rest]
        simp only [Nat.add_assoc, Nat.add_comm 1]
      · rfl

/-- Extension by words counts what the bytewise comparison counts. -/
theorem extend_eq_ok
    {later earlier length limit : Nat}
    (before : earlier ≤ later)
    (atMost : length ≤ limit)
    (inside : later + limit ≤ buffer.size) :
    buffer.extend later earlier length limit =
      .ok (length + buffer.sharedLength (later + length) (earlier + length)
        (limit - length)) := by
  rw [extend]
  split
  · rename_i wordFits
    rw [word64At_eq_bytes (by omega), word64At_eq_bytes (by omega), word64_eq_lowBytes,
      word64_eq_lowBytes]
    have split8 := sharedLength_add buffer (later + length) (earlier + length) 8
      (limit - (length + 8))
    rw [show 8 + (limit - (length + 8)) = limit - length by omega] at split8
    simp only [bind, Except.bind, pure, Except.pure, firstDifference_lowBytes, split8]
    by_cases equal : buffer.sharedLength (later + length) (earlier + length) 8 = 8
    · simp only [if_pos equal]
      rw [extend_eq_ok before wordFits inside]
      simp only [Nat.add_assoc]
    · simp only [if_neg equal]
  · exact extendByBytes_eq_ok before atMost inside
termination_by limit - length

/-- From a prefix that agrees, extension counts from the start. -/
theorem extend_eq_sharedLength
    {later earlier length limit : Nat}
    (before : earlier ≤ later)
    (inside : later + limit ≤ buffer.size)
    (agree : length ≤ buffer.sharedLength later earlier limit) :
    buffer.extend later earlier length limit =
      .ok (buffer.sharedLength later earlier limit) := by
  have atMost := (le_sharedLength_iff.mp agree).1
  have first : buffer.sharedLength later earlier length = length :=
    Nat.le_antisymm (sharedLength_le _ _ _)
      (le_sharedLength_iff.mpr ⟨Nat.le_refl _, (le_sharedLength_iff.mp agree).2⟩)
  have whole := sharedLength_add buffer later earlier length (limit - length)
  rw [if_pos first, Nat.add_sub_of_le atMost] at whole
  rw [extend_eq_ok before atMost inside, whole]

end LempelZiv.Buffer
