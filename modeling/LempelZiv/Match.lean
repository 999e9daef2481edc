/-!
Contract: the answer of one match search.

Owns: the answer and the test that tells a match from "nothing longer".
-/

namespace LempelZiv

/-- A length and how far back its source lies.

A search that finds nothing longer than the length it was given answers that
length with offset zero; an offset of zero is never a match. -/
structure Match where
  length : Nat
  offset : Nat
deriving DecidableEq, Repr

namespace Match

/-- The answer of a search that found nothing longer than `bestLen`. -/
def unimproved (bestLen : Nat) : Match :=
  ⟨bestLen, 0⟩

/-- Whether the answer is a match longer than `bestLen`. -/
def improvesOn (result : Match) (bestLen : Nat) : Bool :=
  bestLen < result.length && result.offset != 0

theorem lt_length_of_improvesOn
    {result : Match}
    {bestLen : Nat}
    (improves : result.improvesOn bestLen) :
    bestLen < result.length := by
  simp only [improvesOn, Bool.and_eq_true, decide_eq_true_eq] at improves
  exact improves.1

/-- A match of at least one byte. -/
abbrev Found := { found : Match // 0 < found.length }

/-- The answer if it is a match longer than `bestLen`. -/
def found? (result : Match) (bestLen : Nat) : Option Found :=
  if improves : result.improvesOn bestLen then
    some ⟨result, Nat.zero_lt_of_lt (lt_length_of_improvesOn improves)⟩
  else
    none

theorem found?_eq_some_iff
    {result : Match}
    {bestLen : Nat}
    {found : Found} :
    result.found? bestLen = some found ↔
      result.improvesOn bestLen ∧ result = found.val := by
  unfold found?
  split
  · rename_i improves
    simp only [Option.some.injEq, Subtype.ext_iff, improves, true_and]
  · rename_i improves
    simp only [improves, reduceCtorEq, false_and]

end Match

end LempelZiv
