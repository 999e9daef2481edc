import LempelZiv.Index.Basic

/-!
Contract: an index bound to one buffer for a single forward pass.

Owns:
- the scan state and how a scan begins;
- the claim on positions, which must be visited in strictly increasing order;
- the entry of one position into the index.

The buckets of the next position may be computed one call ahead.  They are
kept only for exactly that position: a gap discards them.
-/

namespace LempelZiv

/-- A position with fewer bytes left than this is never inserted: its own
window takes four and the window of its successor one more. -/
def minLookahead : Nat := 5

/-- An index bound to a buffer. -/
structure Scan where
  index : Index
  buffer : Buffer
  /-- The first position that no call has visited yet. -/
  nextPos : Nat
  /-- The buckets of `nextPos`, if the last call computed them. -/
  pending : Option Buckets
  /-- Every position of the buffer has a link. -/
  fits : buffer.size ≤ index.capacity

/-- A step of a scan, which answers or reports the rule it broke. -/
abbrev ScanM := EStateM Violation Scan

namespace Scan

/-- Begin a scan of a buffer that fits the index; whatever the index held before
is cleared. -/
def start (index : Index) (buffer : Buffer) (fits : buffer.size ≤ index.capacity) :
    Scan where
  index := index.reset
  buffer := buffer
  nextPos := 0
  pending := none
  fits := by simpa using fits

/-- The short text by which a scan is shown. -/
def describe (scan : Scan) : String :=
  s!"MatchFinder \x7b index: {scan.index.describe}, " ++
    s!"buffer_len: {scan.buffer.size}, next_pos: {scan.nextPos}, .. \x7d"

/-- Answer a question that does not change the scan. -/
@[inline] def reading {α : Type} (question : Scan → Except Violation α) : ScanM α :=
  fun scan =>
    match question scan with
    | .ok answer => .ok answer scan
    | .error violation => .error violation scan

/-- Claim `count` positions from `position` on, and take the buckets computed
ahead if they belong to `position`.

The calls check their own range against the buffer first, so a claim ends at most
one past the buffer and its end fits a machine word. -/
def advance (position count : Nat) : ScanM (Option Buckets) :=
  fun scan =>
    if scan.nextPos ≤ position then
      match scan with
      | ⟨index, buffer, nextPos, pending, fits⟩ =>
          .ok (if position = nextPos then pending else none)
            ⟨index, buffer, position + count, none, fits⟩
    else
      .error (.positionVisited position) scan

/-- The buckets computed ahead, or else those read at `position`. -/
def bucketsOr (ready : Option Buckets) (position : Nat) : ScanM Buckets :=
  match ready with
  | some buckets => pure buckets
  | none => reading fun scan => Buckets.read scan.buffer position

/-- Insert `position` into its buckets and answer what they held before. -/
def enter (buckets : Buckets) (position : Nat) : ScanM Occupants :=
  fun scan =>
    if inside : position < scan.index.capacity then
      match scan, inside with
      | ⟨index, buffer, nextPos, pending, fits⟩, inside =>
          .ok (index.occupants buckets)
            ⟨index.insert buckets position inside, buffer, nextPos, pending,
              by simpa using fits⟩
    else
      .error (.indexOutOfBounds scan.index.capacity position) scan

/-- Keep the buckets of the next position for the next call. -/
def keep (buckets : Buckets) : ScanM Unit :=
  fun scan =>
    match scan with
    | ⟨index, buffer, nextPos, _, fits⟩ =>
        .ok () ⟨index, buffer, nextPos, some buckets, fits⟩

end Scan

namespace Index

/-- Begin a scan, or refuse a buffer that is longer than the capacity. -/
def scan (index : Index) (buffer : Buffer) : Except Violation Scan :=
  if fits : buffer.size ≤ index.capacity then
    .ok (Scan.start index buffer fits)
  else
    .error (.bufferTooLarge buffer.size index.capacity)

end Index

end LempelZiv
