/-!
Contract: the rules a caller of the match index can break.

Owns:
- one constructor for each rule, with the numbers its text names;
- the text of each violation.

Does not own: refused parses and refused expansions, which are ordinary answers
and have causes of their own.
-/

namespace LempelZiv

/-- A broken rule of the match index. -/
inductive Violation where
  /-- Positions are kept in 32 bits and one value is taken by the empty slot. -/
  | capacityTooLarge (capacity : Nat)
  /-- A buffer must fit the index it is bound to. -/
  | bufferTooLarge (length capacity : Nat)
  /-- A search inspects at least one chain node. -/
  | depthZero
  /-- A length that ends a search must itself be permitted. -/
  | niceLenTooLarge (niceLen maxLen : Nat)
  /-- A match ends inside the buffer. -/
  | matchPastEnd (maxLen position : Nat)
  /-- Positions are visited in strictly increasing order. -/
  | positionVisited (position : Nat)
  /-- A skip covers at least one position. -/
  | skipEmpty
  /-- A skip ends inside the buffer. -/
  | skipPastEnd (count position : Nat)
  /-- A read or a write stays inside its table or buffer. -/
  | indexOutOfBounds (length index : Nat)
deriving DecidableEq, Repr

/-- The text shown for a broken rule. -/
def Violation.message : Violation → String
  | .capacityTooLarge capacity =>
      s!"Match index capacity `{capacity}` does not fit in a u32 position"
  | .bufferTooLarge length capacity =>
      s!"Buffer of `{length}` bytes exceeds match index capacity of `{capacity}` bytes"
  | .depthZero =>
      "Search depth must be at least 1"
  | .niceLenTooLarge niceLen maxLen =>
      s!"Nice length `{niceLen}` exceeds max length `{maxLen}`"
  | .matchPastEnd maxLen position =>
      s!"Max length `{maxLen}` at position `{position}` reaches past the end of the buffer"
  | .positionVisited position =>
      s!"Position `{position}` was already visited; positions must be strictly increasing"
  | .skipEmpty =>
      "Skip count must be at least 1"
  | .skipPastEnd count position =>
      s!"Skipping `{count}` positions from `{position}` reaches past the end of the buffer"
  | .indexOutOfBounds length index =>
      s!"index out of bounds: the len is {length} but the index is {index}"

end LempelZiv
