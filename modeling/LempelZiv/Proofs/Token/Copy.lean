import LempelZiv.Token.Expansion
import Mathlib.Logic.Relation
import Mathlib.Tactic.Ring

/-!
Contract: what an overlapping copy appends.

Owns:
- the periodic part of a buffer, and the passes of the doubling copy that reproduce it;
- the tokens that spell a buffer from a position on, and their expansion.

A copy is compared with the buffer that it is meant to reproduce: whenever the
output is a prefix of a buffer whose next bytes repeat those an offset before,
each pass extends the prefix.  This covers sources that overlap their copy.
-/

namespace LempelZiv

namespace Buffer

/-- From `start` on and before `stop`, bytes repeat after `offset` places. -/
def Periodic (buffer : Buffer) (start offset stop : Nat) : Prop :=
  ∀ place, start ≤ place → place + offset < stop → buffer[place + offset]? = buffer[place]?

variable {buffer : Buffer} {start offset stop : Nat}

theorem Periodic.getElem?_add_mul
    (periodic : buffer.Periodic start offset stop)
    (rounds : Nat)
    {place : Nat}
    (after : start ≤ place)
    (before : place + rounds * offset < stop) :
    buffer[place + rounds * offset]? = buffer[place]? := by
  induction rounds with
  | zero => rw [Nat.zero_mul, Nat.add_zero]
  | succ rounds inductionHypothesis =>
      have next : place + (rounds + 1) * offset = place + rounds * offset + offset := by ring
      rw [next] at before ⊢
      rw [periodic _ (Nat.le_add_right_of_le after) before]
      exact inductionHypothesis (Nat.lt_of_le_of_lt (Nat.le_add_right _ offset) before)

theorem extract_eq_extract
    {left right span : Nat}
    (leftInside : left + span ≤ buffer.size)
    (rightInside : right + span ≤ buffer.size)
    (same : ∀ place < span, buffer[left + place]? = buffer[right + place]?) :
    buffer.extract left (left + span) = buffer.extract right (right + span) := by
  apply Array.ext
  · simp only [Array.size_extract]
    omega
  · intro place leftBound rightBound
    simp only [Array.size_extract] at leftBound
    have equal := same place (by omega)
    rw [Array.getElem?_eq_getElem (by omega), Array.getElem?_eq_getElem (by omega)] at equal
    rw [Array.getElem_extract, Array.getElem_extract]
    exact Option.some.inj equal

/-- One pass extends a prefix that ends a whole number of periods after the start. -/
theorem extract_append_pass
    (periodic : buffer.Periodic start offset stop)
    (inside : stop ≤ buffer.size)
    {rounds span : Nat}
    (spanInside : span ≤ rounds * offset)
    (spanBefore : start + rounds * offset + span ≤ stop) :
    buffer.extract 0 (start + rounds * offset) ++
        (buffer.extract 0 (start + rounds * offset)).extract start (start + span) =
      buffer.extract 0 (start + rounds * offset + span) := by
  have copied : buffer.extract start (start + span) =
      buffer.extract (start + rounds * offset) (start + rounds * offset + span) := by
    apply extract_eq_extract (by omega) (by omega)
    intro place below
    rw [Nat.add_right_comm start, periodic.getElem?_add_mul rounds (by omega) (by omega)]
  rw [Array.extract_extract, Nat.zero_add, Nat.zero_add, Nat.min_eq_left (by omega), copied,
    Array.extract_append_extract, Nat.zero_min, Nat.max_eq_right (Nat.le_add_right _ span)]

/-- A pass of a copy that is not finished appends what follows `start` again, or as much of
it as is missing. -/
inductive Pass (start stop : Nat) : (before after : Buffer) → Prop where
  | again
      {output : Buffer}
      (unfinished : output.size < stop) :
      Pass start stop output
        (output ++ output.extract start (start + min (stop - output.size) (output.size - start)))

/-- The copy is made in passes and finished by them. -/
theorem repeatFrom_passes
    {output : Buffer}
    (nonempty : start < output.size) :
    Relation.ReflTransGen (Pass start stop) output (repeatFrom start stop output nonempty) ∧
      stop ≤ (repeatFrom start stop output nonempty).size := by
  fun_induction repeatFrom start stop output nonempty with
  | case1 output nonempty unfinished span grows inductionHypothesis =>
      exact ⟨.head (.again unfinished) inductionHypothesis.1, inductionHypothesis.2⟩
  | case2 output nonempty finished => exact ⟨.refl, Nat.le_of_not_lt finished⟩

/-- The output is a prefix of the buffer that ends a whole number of periods after `start`,
unless it is finished. -/
structure InPhase (buffer : Buffer) (start offset stop : Nat) (output : Buffer) : Prop where
  isPrefix : output = buffer.extract 0 output.size
  nonempty : start < output.size
  atMost : output.size ≤ stop
  whole : output.size < stop → offset ∣ output.size - start

theorem InPhase.pass
    {before after : Buffer}
    (periodic : buffer.Periodic start offset stop)
    (inside : stop ≤ buffer.size)
    (inPhase : buffer.InPhase start offset stop before)
    (passed : Pass start stop before after) :
    buffer.InPhase start offset stop after := by
  have begun := inPhase.nonempty
  cases passed with
  | again unfinished =>
      obtain ⟨rounds, periods⟩ := inPhase.whole unfinished
      rw [Nat.mul_comm] at periods
      have size : before.size = start + rounds * offset := by omega
      have isPrefix : before = buffer.extract 0 (start + rounds * offset) := by
        rw [← size]
        exact inPhase.isPrefix
      generalize chosen : min (stop - before.size) (before.size - start) = span
      have extended : before ++ before.extract start (start + span) =
          buffer.extract 0 (before.size + span) := by
        rw [size, isPrefix]
        exact extract_append_pass periodic inside (by omega) (by omega)
      have grown : (before ++ before.extract start (start + span)).size = before.size + span := by
        rw [extended, Array.size_extract]
        omega
      refine ⟨by rw [grown, extended], by omega, by omega, ?_⟩
      intro remains
      -- only the last pass is cut short, so this one doubled what follows the start
      have doubled : before.size + span - start = 2 * (before.size - start) := by omega
      rw [grown, doubled]
      exact Nat.dvd_mul_left_of_dvd (inPhase.whole unfinished) 2

theorem InPhase.passes
    {before after : Buffer}
    (periodic : buffer.Periodic start offset stop)
    (inside : stop ≤ buffer.size)
    (inPhase : buffer.InPhase start offset stop before)
    (passed : Relation.ReflTransGen (Pass start stop) before after) :
    buffer.InPhase start offset stop after := by
  induction passed with
  | refl => exact inPhase
  | tail _ last inductionHypothesis => exact inductionHypothesis.pass periodic inside last

/-- Passes repeated up to `stop` reproduce a periodic buffer. -/
theorem InPhase.repeatFrom_eq
    {output : Buffer}
    (periodic : buffer.Periodic start offset stop)
    (inside : stop ≤ buffer.size)
    (inPhase : buffer.InPhase start offset stop output) :
    repeatFrom start stop output inPhase.nonempty = buffer.extract 0 stop := by
  obtain ⟨passed, finished⟩ := @repeatFrom_passes start stop output inPhase.nonempty
  have final := inPhase.passes periodic inside passed
  rw [final.isPrefix, Nat.le_antisymm final.atMost finished]

/-- Bytes that repeat those an offset before have this period, with what they repeat. -/
theorem periodic_of_agrees
    {position length : Nat}
    (reaches : offset ≤ position)
    (agrees : ∀ place < length,
      buffer[position + place]? = buffer[position - offset + place]?) :
    buffer.Periodic (position - offset) offset (position + length) := by
  intro place after before
  have same := agrees (place + offset - position) (by omega)
  rwa [show position + (place + offset - position) = place + offset by omega,
    show position - offset + (place + offset - position) = place by omega] at same

/-- A copy begins with one period after its start. -/
theorem inPhase_extract
    {position length : Nat}
    (backward : 1 ≤ offset)
    (reaches : offset ≤ position)
    (inside : position + length ≤ buffer.size) :
    buffer.InPhase (position - offset) offset (position + length)
      (buffer.extract 0 position) := by
  have size : (buffer.extract 0 position).size = position := by
    rw [Array.size_extract]
    omega
  refine ⟨by rw [size], by omega, by omega, fun _ => ?_⟩
  rw [size, Nat.sub_sub_self reaches]

/-- A copy of bytes that are repeated extends a prefix by them. -/
theorem copyBack_extract
    {position offset length : Nat}
    (backward : 1 ≤ offset)
    (reaches : offset ≤ position)
    (nonempty : 1 ≤ length)
    (inside : position + length ≤ buffer.size)
    (agrees : ∀ place < length,
      buffer[position + place]? = buffer[position - offset + place]?) :
    copyBack offset length (buffer.extract 0 position) =
      .ok () (buffer.extract 0 (position + length)) := by
  have size : (buffer.extract 0 position).size = position := by
    rw [Array.size_extract]
    omega
  have inPhase := @inPhase_extract _ _ _ length backward reaches inside
  simp only [copyBack, size]
  rw [dif_neg (by omega), dif_neg (by omega), if_neg (by omega)]
  congr 1
  exact inPhase.repeatFrom_eq (periodic_of_agrees reaches agrees) inside

end Buffer

namespace Token

/-- The tokens stand for the bytes of a buffer from a position to its end. -/
inductive Spells (buffer : Buffer) : (position : Nat) → List Token → Prop where
  | done : Spells buffer buffer.size []
  | literal
      {position : Nat}
      {rest : List Token}
      (inside : position < buffer.size)
      (spelled : Spells buffer (position + 1) rest) :
      Spells buffer position (.literal buffer[position] :: rest)
  | copy
      {position length offset : Nat}
      {rest : List Token}
      (nonempty : 1 ≤ length)
      (backward : 1 ≤ offset)
      (reaches : offset ≤ position)
      (inside : position + length ≤ buffer.size)
      (agrees : ∀ place < length,
        buffer[position + place]? = buffer[position - offset + place]?)
      (spelled : Spells buffer (position + length) rest) :
      Spells buffer position (.copy length offset :: rest)

/-- Expansion extends the part before the position to the whole buffer. -/
theorem Spells.expandFrom_eq
    {buffer : Buffer}
    {position : Nat}
    {tokens : List Token}
    (spells : Spells buffer position tokens)
    (number : Nat) :
    expandFrom number (buffer.extract 0 position) tokens = .ok buffer := by
  induction spells generalizing number with
  | done => rw [expandFrom, Array.extract_size]
  | @literal position rest inside spelled inductionHypothesis =>
      have pushed : (buffer.extract 0 position).push buffer[position] =
          buffer.extract 0 (position + 1) := by
        rw [Array.push_extract_getElem inside, Nat.zero_min]
      simp only [expandFrom, append, pushed]
      exact inductionHypothesis (number + 1)
  | copy nonempty backward reaches inside agrees spelled inductionHypothesis =>
      simp only [expandFrom, append,
        Buffer.copyBack_extract backward reaches nonempty inside agrees]
      exact inductionHypothesis (number + 1)

theorem Spells.expand_eq
    {buffer : Buffer}
    {tokens : List Token}
    (spells : Spells buffer 0 tokens) :
    expand tokens = .ok buffer := by
  have empty : buffer.extract 0 0 = #[] := Array.extract_eq_empty_of_le (Nat.min_le_left _ _)
  rw [expand, ← empty]
  exact spells.expandFrom_eq 0

end Token

end LempelZiv
