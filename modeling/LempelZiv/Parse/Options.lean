import LempelZiv.Parse.Strategy
import LempelZiv.Scan.Query

/-!
Contract: how much effort a parse makes and what it may emit.

Owns:
- the options of a parse, their preset levels and their validity;
- the limits they set at a position, and the query they lead to.
-/

namespace LempelZiv

/-- The shortest copy a parse emits. -/
def minMatchLen : Nat := 3

/-- The longest copy a parse emits unless it is told otherwise. -/
def defaultMaxMatchLen : Nat := 258

/-- The parameters of a parse. -/
structure Options where
  strategy : Strategy
  /-- Chain nodes inspected by each search. -/
  maxDepth : Nat
  /-- A match of this length ends a search. -/
  niceLen : Nat
  /-- The longest copy to emit. -/
  maxMatchLen : Nat
deriving DecidableEq, Repr

/-- An option that is out of range. -/
inductive OptionFault where
  | maxDepth
  | niceLen
  | maxMatchLen
deriving DecidableEq, Repr

/-- The option and its constraint. -/
def OptionFault.message : OptionFault → String
  | .maxDepth => "max_depth must be at least 1"
  | .niceLen => "nice_len must be at least 3"
  | .maxMatchLen => "max_match_len must be at least 3"

/-- The lengths that bound a search at one position. -/
structure Limits where
  maxLen : Nat
  niceLen : Nat
deriving DecidableEq, Repr

/-- Preset trade-offs between effort and match length. -/
inductive Level where
  | fastest
  | fast
  | standard
  | best
deriving DecidableEq, Repr

namespace Strategy

/-- The strategy used when none is chosen. -/
def standard : Strategy := .lazy

end Strategy

namespace Options

/-- The first option that is out of range. -/
def validate (options : Options) : Except OptionFault Unit :=
  if options.maxDepth = 0 then
    .error .maxDepth
  else if options.niceLen < minMatchLen then
    .error .niceLen
  else if options.maxMatchLen < minMatchLen then
    .error .maxMatchLen
  else
    .ok ()

/-- The limits at a position with `remaining` bytes left. -/
def limits (options : Options) (remaining : Nat) : Limits :=
  let maxLen := min options.maxMatchLen remaining
  ⟨maxLen, min options.niceLen maxLen⟩

/-- The query for a match longer than `bestLen` at a position of a buffer of
`size` bytes. -/
def query (options : Options) (size position bestLen : Nat) : Query :=
  let limits := options.limits (size - position)
  { position := position
    bestLen := bestLen
    maxLen := limits.maxLen
    niceLen := limits.niceLen
    maxDepth := options.maxDepth }

/-- The options of a preset level. -/
def ofLevel : Level → Options
  | .fastest => ⟨.greedy, 4, 16, defaultMaxMatchLen⟩
  | .fast => ⟨.greedy, 16, 32, defaultMaxMatchLen⟩
  | .standard => ⟨.lazy, 32, 64, defaultMaxMatchLen⟩
  | .best => ⟨.lazy, 256, defaultMaxMatchLen, defaultMaxMatchLen⟩

/-- The options used when none are chosen. -/
def standard : Options := ofLevel .standard

end Options

end LempelZiv
