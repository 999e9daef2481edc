import LempelZiv.Scan.Basic

/-!
Contract: visiting positions without searching them.

Owns: the checks of a skip and the insertion of the positions it covers.

A position with fewer than five bytes left is visited but not inserted, exactly
as a search would leave it out.
-/

namespace LempelZiv.Scan

/-- The rules of a skip, in the order in which they are checked.  As for a query, an
end that overflows a machine word is past the buffer. -/
def checkSkip (position count : Nat) (scan : Scan) : Except Violation Unit :=
  if count = 0 then
    .error .skipEmpty
  else if scan.buffer.size < position + count then
    .error (.skipPastEnd count position)
  else
    .ok ()

/-- Insert the positions from `position` up to `stop`, whose first buckets are
given, and answer the buckets of `stop`. -/
def enterRange (position stop : Nat) (buckets : Buckets) : ScanM Buckets := do
  if position < stop then
    let _ ← enter buckets position
    let next ← reading fun scan => Buckets.read scan.buffer (position + 1)
    enterRange (position + 1) stop next
  else
    pure buckets
termination_by stop - position

/-- The end of the part of a range that can be inserted. -/
def insertableEnd (size position count : Nat) : Nat :=
  min (position + count) (size + 1 - minLookahead)

/-- Visit `count` positions from `position` on without searching them.  A skip
that breaks a rule leaves the scan as it was. -/
def skipPositions (position count : Nat) : ScanM Unit := do
  reading (checkSkip position count)
  let ready ← advance position count
  let stop ← reading fun scan => .ok (insertableEnd scan.buffer.size position count)
  if position < stop then
    let first ← bucketsOr ready position
    let last ← enterRange position stop first
    if stop = position + count then
      keep last

end LempelZiv.Scan
