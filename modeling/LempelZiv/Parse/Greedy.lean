import LempelZiv.Parse.Options
import LempelZiv.Scan.Visit
import LempelZiv.Token.Basic

/-!
Contract: the parse that takes the longest match at every position.

Owns: the greedy loop.
-/

namespace LempelZiv.Parse

variable {m : Type → Type} [Monad m] [MonadVisit m]

/-- Emit tokens from `position` to the end of the buffer, taking every match of
at least three bytes. -/
@[specialize] def greedyFrom (options : Options) (buffer : Buffer) (position : Nat)
    (tokens : Array Token) : m (Array Token) := do
  if inside : position < buffer.size then
    let result ← MonadVisit.search
      (options.query buffer.size position (minMatchLen - 1))
    match result.found? (minMatchLen - 1) with
    | some ⟨found, nonempty⟩ =>
        MonadVisit.skip (position + 1) (found.length - 1)
        greedyFrom options buffer (position + found.length)
          (tokens.push (.copy found.length found.offset))
    | none =>
        greedyFrom options buffer (position + 1)
          (tokens.push (.literal buffer[position]))
  else
    pure tokens
termination_by buffer.size - position

/-- Parse a buffer greedily. -/
@[specialize] def greedy (options : Options) (buffer : Buffer) : m (Array Token) :=
  greedyFrom options buffer 0 #[]

end LempelZiv.Parse
