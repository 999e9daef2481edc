import LempelZiv.Parse.Greedy

/-!
Contract: the parse that looks one position ahead before it takes a match.

Owns: the look ahead and the lazy loop.

A match is held back while the position after it has a strictly longer one: the
first byte becomes a literal and the later match is held instead.  A match that
reaches the nice length is taken without looking further.
-/

namespace LempelZiv.Parse

/-- Whether a match held at `position` leaves the next position worth a search. -/
def worthLooking (options : Options) (size position : Nat) (held : Match) : Bool :=
  position + 1 < size && held.length < (options.limits (size - position)).niceLen

variable {m : Type → Type} [Monad m] [MonadVisit m]

/-- Visit the positions of a taken match that no search has visited yet. -/
@[specialize] def skipTo (visited stop : Nat) : m Unit := do
  if visited < stop then
    MonadVisit.skip visited (stop - visited)

/-- Emit tokens from `position` to the end of the buffer.  A held match begins at
`position`, which is then visited already. -/
@[specialize] def lazyFrom (options : Options) (buffer : Buffer) (position : Nat)
    (held? : Option Match.Found) (tokens : Array Token) : m (Array Token) := do
  if inside : position < buffer.size then
    match held? with
    | none =>
        let result ← MonadVisit.search
          (options.query buffer.size position (minMatchLen - 1))
        match result.found? (minMatchLen - 1) with
        | some held =>
            lazyFrom options buffer position (some held) tokens
        | none =>
            lazyFrom options buffer (position + 1) none
              (tokens.push (.literal buffer[position]))
    | some ⟨held, nonempty⟩ =>
        if worthLooking options buffer.size position held then
          let result ← MonadVisit.search
            (options.query buffer.size (position + 1) held.length)
          match result.found? held.length with
          | some later =>
              lazyFrom options buffer (position + 1) (some later)
                (tokens.push (.literal buffer[position]))
          | none =>
              skipTo (position + 2) (position + held.length)
              lazyFrom options buffer (position + held.length) none
                (tokens.push (.copy held.length held.offset))
        else
          skipTo (position + 1) (position + held.length)
          lazyFrom options buffer (position + held.length) none
            (tokens.push (.copy held.length held.offset))
  else
    pure tokens
termination_by 2 * (buffer.size - position) + (if held?.isSome then 0 else 1)
decreasing_by all_goals
  simp only [Option.isSome_some, Option.isSome_none, ↓reduceIte, Bool.false_eq_true]
  omega

/-- Parse a buffer with one position of look ahead. -/
@[specialize] def lazy (options : Options) (buffer : Buffer) : m (Array Token) :=
  lazyFrom options buffer 0 none #[]

end LempelZiv.Parse
