/-!
Contract: the two rules by which a parse decides between literals and copies.

Owns: the rules and their names.
-/

namespace LempelZiv

/-- How a parse decides whether to take a match.

`greedy` takes the longest match at every position.  `lazy` first looks at the
following position and emits a literal if the match there is strictly longer. -/
inductive Strategy where
  | greedy
  | lazy
deriving DecidableEq, Repr

/-- The name shown in the journal. -/
def Strategy.name : Strategy → String
  | .greedy => "Greedy"
  | .lazy => "Lazy"

end LempelZiv
