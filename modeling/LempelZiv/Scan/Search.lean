import LempelZiv.Buffer.CommonPrefix
import LempelZiv.Match
import LempelZiv.Scan.Query
import LempelZiv.Scan.Skip

/-!
Contract: the search for the longest earlier match of a position.

Owns:
- the walk along a chain, in two phases that share one budget of nodes;
- the short match that the three-byte table offers before the walk;
- the search step of a scan, the search of a range of positions, and the
  search of one position of an otherwise skipped buffer with a new index.

Every four-byte match also lies in the three-byte bucket, so an empty one ends
a search for fewer than four bytes at once.  From four bytes on a candidate can
only be longer if it agrees on the byte that would extend the best match, which
is tested first.
-/

namespace LempelZiv

/-- What stays fixed while one search walks its chain. -/
structure Search where
  links : Array Slot
  buffer : Buffer
  position : Nat
  /-- The four bytes at `position`. -/
  window : UInt32
  maxLen : Nat
  niceLen : Nat

namespace Search

/-- Whether `candidate` agrees on the byte after the first `length` bytes and on
the first four. -/
@[inline] def mayExceed (search : Search) (candidate length : Nat) :
    Except Violation Bool := do
  let left ← search.buffer.byteAt (candidate + length)
  let right ← search.buffer.byteAt (search.position + length)
  if left = right then
    let window ← search.buffer.word32At candidate
    pure (window = search.window)
  else
    pure false

/-- The match with `candidate`, with which the first four bytes agree. -/
@[inline] def matchWith (search : Search) (candidate : Nat) : Except Violation Match := do
  let length ← search.buffer.extend search.position candidate 4 search.maxLen
  pure ⟨length, search.position - candidate⟩

/-- Look for matches longer than `best`, of at least four bytes. -/
def improve (search : Search) : (budget : Nat) → Slot → (best : Match) →
    Except Violation Match
  | 0, _, best => .ok best
  | budget + 1, slot, best =>
      match slot.position? with
      | none => .ok best
      | some candidate => do
          let next ← Index.linkAt search.links candidate
          if ← search.mayExceed candidate best.length then
            let found ← search.matchWith candidate
            if best.length < found.length then
              if search.niceLen ≤ found.length then
                pure found
              else
                improve search budget next found
            else
              improve search budget next best
          else
            improve search budget next best

/-- Look for a first match of at least four bytes and then for longer ones. -/
def discover (search : Search) : (budget : Nat) → Slot → (best : Match) →
    Except Violation Match
  | 0, _, best => .ok best
  | budget + 1, slot, best =>
      match slot.position? with
      | none => .ok best
      | some candidate => do
          let next ← Index.linkAt search.links candidate
          let window ← search.buffer.word32At candidate
          if window = search.window then
            let found ← search.matchWith candidate
            if search.niceLen ≤ found.length then
              pure found
            else
              improve search budget next found
          else
            discover search budget next best

/-- The match of three bytes with `candidate`, if there is one and the search
asks for it, or else no match. -/
def shortMatch (search : Search) (candidate bestLen : Nat) : Except Violation Match := do
  if bestLen < 3 then
    let window ← search.buffer.word24At candidate
    if window = Buffer.firstThree search.window then
      pure ⟨3, search.position - candidate⟩
    else
      pure (.unimproved bestLen)
  else
    pure (.unimproved bestLen)

/-- The longest match among the earlier occupants of the position's buckets. -/
def run (search : Search) (occupants : Occupants) (bestLen maxDepth : Nat) :
    Except Violation Match :=
  if bestLen < 4 then
    match occupants.short.position? with
    | none => .ok (.unimproved bestLen)
    | some candidate => do
        let best ← search.shortMatch candidate bestLen
        search.discover maxDepth occupants.long best
  else if search.niceLen ≤ bestLen then
    .ok (.unimproved bestLen)
  else
    search.improve maxDepth occupants.long (.unimproved bestLen)

end Search

namespace Scan

/-- The answer to a query whose position had the given earlier occupants. -/
def bestMatch (query : Query) (occupants : Occupants) (scan : Scan) :
    Except Violation Match := do
  let window ← scan.buffer.word32At query.position
  let search : Search :=
    { links := scan.index.links
      buffer := scan.buffer
      position := query.position
      window := window
      maxLen := query.maxLen
      niceLen := query.niceLen }
  search.run occupants query.bestLen query.maxDepth

/-- Visit the query's position: insert it and answer its longest match.

A position at which fewer than five bytes may match is visited without being
inserted, and has no match.  A query that breaks a rule leaves the scan as it
was. -/
def longestMatch (query : Query) : ScanM Match := do
  reading fun scan => query.check scan.buffer.size
  let ready ← advance query.position 1
  if query.maxLen < minLookahead then
    pure (.unimproved query.bestLen)
  else
    let buckets ← bucketsOr ready query.position
    let occupants ← enter buckets query.position
    let next ← reading fun scan => Buckets.read scan.buffer (query.position + 1)
    keep next
    reading (bestMatch query occupants)

/-- The arguments of the searches of a range of positions. -/
structure Sweep where
  first : Nat
  stop : Nat
  bestLen : Nat
  maxMatchLen : Nat
  niceLen : Nat
  maxDepth : Nat
deriving DecidableEq, Repr

/-- The query at one position of a sweep; no length exceeds what is left of a
buffer of `size` bytes. -/
def Sweep.query (sweep : Sweep) (size position : Nat) : Query :=
  let maxLen := min sweep.maxMatchLen (size - position)
  { position := position
    bestLen := min sweep.bestLen maxLen
    maxLen := maxLen
    niceLen := min sweep.niceLen maxLen
    maxDepth := sweep.maxDepth }

/-- Search every position of a range in turn, up to the end of the buffer. -/
def searchRange (sweep : Sweep) : ScanM (List Match) := do
  let size ← reading fun scan => .ok scan.buffer.size
  let count := min sweep.stop size - sweep.first
  (List.range' sweep.first count).mapM fun position =>
    longestMatch (sweep.query size position)

/-- Skip everything before the query's position and then answer the query. -/
def matchAfterSkip (query : Query) : ScanM Match := do
  if 0 < query.position then
    skipPositions 0 query.position
  longestMatch query

/-- Answer a query about a buffer with a new index, in which everything before
the query's position was skipped, and tell what was reported. -/
def freshMatch (buffer : Buffer) (query : Query) : Except Violation Match × Journal :=
  match Index.create buffer.size >>= fun index => index.scan buffer with
  | .error violation => (.error violation, #[])
  | .ok scan =>
      match matchAfterSkip query scan with
      | .ok result after => (.ok result, after.index.journal)
      | .error violation after => (.error violation, after.index.journal)

end Scan

end LempelZiv
