import LempelZiv.Proofs.Search.Guarded
import Mathlib.Order.Basic

/-!
Contract: the extension of a common prefix by words of eight bytes.

Owns:
- the first byte in which two words differ, as the one of the lowest bit of their exclusive
  or, and its agreement with the comparison byte by byte;
- the number of bytes on which two positions agree, up to a limit;
- the extension as this number, whatever prefix is known and wherever the last word ends.

Both ways to compare words are told apart by the low-order bits alone: so many bytes agree
exactly if the words are the same modulo a power of two.
-/

namespace LempelZiv.Buffer

/-- Place of the first byte in which two words differ, as the place of the lowest bit of
their exclusive or. -/
def lowestDifference (left right : UInt64) : Option Nat :=
  if left ^^^ right = 0 then
    none
  else
    some ((left ^^^ right).toBitVec.ctz.toNat / 8)

/-! ### Low-order bits -/

section Words

variable {left right : UInt64} {count : Nat}

theorem le_ctz_iff
    {word : BitVec 64}
    (nonzero : word ≠ 0) :
    count ≤ word.ctz.toNat ↔ ∀ bit < count, word.getLsbD bit = false := by
  constructor
  · intro atMost bit below
    exact BitVec.getLsbD_false_of_lt_ctz (Nat.lt_of_lt_of_le below atMost)
  · intro clear
    by_contra exceeds
    have lowest := BitVec.getLsbD_true_ctz_of_ne_zero nonzero
    rw [clear _ (Nat.lt_of_not_le exceeds)] at lowest
    cases lowest

theorem getLsbD_xor_eq_false_iff {bit : Nat} :
    (left ^^^ right).toBitVec.getLsbD bit = false ↔
      left.toNat.testBit bit = right.toNat.testBit bit := by
  rw [UInt64.toBitVec_xor, BitVec.getLsbD_xor, bne_eq_false_iff_eq]
  rfl

theorem mod_two_pow_eq_iff :
    left.toNat % 2 ^ count = right.toNat % 2 ^ count ↔
      ∀ bit < count, (left ^^^ right).toBitVec.getLsbD bit = false := by
  constructor
  · intro same bit below
    have bits := congrArg (Nat.testBit · bit) same
    simp only [Nat.testBit_mod_two_pow, below, decide_true, Bool.true_and] at bits
    exact getLsbD_xor_eq_false_iff.mpr bits
  · intro clear
    apply Nat.eq_of_testBit_eq
    intro bit
    rw [Nat.testBit_mod_two_pow, Nat.testBit_mod_two_pow]
    by_cases below : bit < count
    · rw [getLsbD_xor_eq_false_iff.mp (clear bit below)]
    · simp only [below, decide_false, Bool.false_and]

/-- Bytes are compared from the low-order end, and the remainders tell the same. -/
theorem le_agreeingBytes_iff {width : Nat} :
    count ≤ agreeingBytes width left right ↔
      count ≤ width ∧ left.toNat % 256 ^ count = right.toNat % 256 ^ count := by
  induction width generalizing left right count with
  | zero =>
      rw [agreeingBytes]
      constructor
      · intro none
        rw [Nat.le_zero.mp none]
        simp [Nat.mod_one]
      · exact And.left
  | succ width inductionHypothesis =>
      cases count with
      | zero => simp [Nat.mod_one]
      | succ count =>
          have first : left % 256 = right % 256 ↔ left.toNat % 256 = right.toNat % 256 := by
            simp only [← UInt64.toNat_inj, UInt64.toNat_mod, UInt64.reduceToNat]
          have split : ∀ value : Nat, value % 256 ^ (count + 1) =
              value % 256 + 256 * (value / 256 % 256 ^ count) := by
            intro value
            rw [Nat.pow_succ', Nat.mod_mul]
          rw [agreeingBytes, split, split]
          by_cases equal : left % 256 = right % 256
          · rw [if_pos equal, Nat.add_le_add_iff_right, Nat.add_le_add_iff_right,
              inductionHypothesis, UInt64.toNat_div, UInt64.toNat_div, first.mp equal]
            simp only [UInt64.reduceToNat]
            omega
          · rw [if_neg equal]
            have different := mt first.mpr equal
            omega

/-- The byte of the lowest bit in which two words differ is the first one in which they
do. -/
theorem firstDifference_eq_lowestDifference (left right : UInt64) :
    firstDifference left right = lowestDifference left right := by
  unfold firstDifference lowestDifference
  by_cases equal : left = right
  · rw [if_pos equal, if_pos (UInt64.xor_eq_zero_iff.mpr equal)]
  · have nonzero : (left ^^^ right).toBitVec ≠ 0 := by
      intro zero
      exact equal (UInt64.xor_eq_zero_iff.mp (UInt64.toBitVec_inj.mp zero))
    rw [if_neg equal, if_neg (mt UInt64.xor_eq_zero_iff.mp equal), Option.some.injEq]
    apply eq_of_forall_le_iff
    intro count
    have narrow : (left ^^^ right).toBitVec.ctz.toNat < 64 :=
      BitVec.lt_def.mp (BitVec.ctz_lt_iff_ne_zero.mpr nonzero)
    have bits : 256 ^ count = 2 ^ (count * 8) := by
      rw [Nat.mul_comm, Nat.pow_mul]
    rw [le_agreeingBytes_iff, Nat.le_div_iff_mul_le (by decide), bits, mod_two_pow_eq_iff,
      ← le_ctz_iff nonzero]
    omega

end Words

/-! ### The whole extension -/

/-- From two positions on so many bytes agree, of at most `limit`. -/
structure AgreesFor (buffer : Buffer) (left right limit count : Nat) : Prop where
  atMost : count ≤ limit
  agrees : buffer.Repeats left right count
  differs : count < limit → ¬ buffer.Repeats left right (count + 1)

theorem agreesFor_sharedLength
    {buffer : Buffer}
    {left right limit : Nat}
    (inside : left + limit ≤ buffer.size)
    (earlier : right ≤ left) :
    buffer.AgreesFor left right limit (buffer.sharedLength left right limit) where
  atMost := buffer.sharedLength_le left right limit
  agrees :=
    (repeats_iff_le_sharedLength inside earlier (buffer.sharedLength_le left right limit)).mpr
      (Nat.le_refl _)
  differs := by
    intro below longer
    exact Nat.not_succ_le_self _
      ((repeats_iff_le_sharedLength inside earlier below).mp longer)

/-- Extension adds to a known prefix the number of bytes that agree behind it.  All reads and
ranges lie in the buffer, and a limit of 32 bits keeps the length there.  The words are
compared by the lowest bit in which they differ. -/
theorem extend_countsAgreeing
    {buffer : Buffer}
    {later earlier length limit : Nat}
    (before : earlier < later)
    (atMost : length ≤ limit)
    (inside : later + limit ≤ buffer.size) :
    (∃ count,
      buffer.AgreesFor (later + length) (earlier + length) (limit - length) count ∧
      buffer.extend later earlier length limit = .ok (length + count) ∧
      (limit < 2 ^ 32 →
        Guarded.extend buffer later earlier length limit = .ok (length + count))) ∧
    ∀ left right, firstDifference left right = lowestDifference left right := by
  have extended := extend_eq_ok (Nat.le_of_lt before) atMost inside
  have behind : later + length + (limit - length) ≤ buffer.size := by omega
  refine ⟨⟨_, agreesFor_sharedLength behind (by omega), extended, ?_⟩,
    firstDifference_eq_lowestDifference⟩
  intro fits
  rw [Guarded.extend_eq_lift fits (Nat.le_of_lt before) atMost inside, extended]
  rfl

/-- A run of twenty equal bytes overlaps itself one byte later.  Three bytes are known, two
words agree, and the last byte, which the words leave over, differs. -/
theorem extend_countsAgreeing_run :
    ∃ buffer : Buffer,
      buffer = (Array.replicate 20 97).push 98 ∧
      0 < 1 ∧ 3 ≤ 20 ∧ 1 + 20 ≤ buffer.size ∧
      buffer.AgreesFor (1 + 3) (0 + 3) (20 - 3) 16 ∧
      buffer.extend 1 0 3 20 = .ok 19 ∧
      Guarded.extend buffer 1 0 3 20 = .ok 19 := by
  have before : 0 < 1 := by decide
  have atMost : 3 ≤ 20 := by decide
  have inside : 1 + 20 ≤ ((Array.replicate 20 97).push 98 : Buffer).size := by decide
  obtain ⟨count, agrees, extended, guarded⟩ :=
    (extend_countsAgreeing before atMost inside).1
  have repeats : Repeats ((Array.replicate 20 97).push 98) (1 + 3) (0 + 3) 16 := by
    unfold Repeats
    decide
  have sixteen : count = 16 := by
    apply Nat.le_antisymm
    · by_contra exceeds
      exact absurd (agrees.agrees 16 (Nat.lt_of_not_le exceeds)) (by decide)
    · by_contra short
      apply agrees.differs (by omega)
      intro place below
      exact repeats place (by omega)
  subst sixteen
  exact ⟨_, rfl, before, atMost, inside, agrees, extended, guarded (by decide)⟩

end LempelZiv.Buffer
