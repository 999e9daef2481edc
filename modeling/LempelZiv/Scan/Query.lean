import LempelZiv.Violation

/-!
Contract: what a search is asked.

Owns: the arguments of a search and the rules they obey.
-/

namespace LempelZiv

/-- The arguments of one match search. -/
structure Query where
  /-- The position whose match is wanted. -/
  position : Nat
  /-- Only longer matches are answered. -/
  bestLen : Nat
  /-- The longest permissible match. -/
  maxLen : Nat
  /-- A match of this length ends the search. -/
  niceLen : Nat
  /-- The number of chain nodes that may be inspected. -/
  maxDepth : Nat
deriving DecidableEq, Repr

/-- The rules of a query on a buffer of `size` bytes, in the order in which they
are checked.

The end of the match is a natural number.  An end that overflows a machine word is
past the buffer like any other and thus refused, as checked arithmetic refuses it;
arithmetic that wraps around could let it through. -/
def Query.check (query : Query) (size : Nat) : Except Violation Unit :=
  if query.maxDepth = 0 then
    .error .depthZero
  else if query.maxLen < query.niceLen then
    .error (.niceLenTooLarge query.niceLen query.maxLen)
  else if size < query.position + query.maxLen then
    .error (.matchPastEnd query.maxLen query.position)
  else
    .ok ()

end LempelZiv
