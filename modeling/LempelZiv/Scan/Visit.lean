import LempelZiv.Scan.Search

/-!
Contract: the calls that visit positions, as operations and as data.

Owns:
- the two operations a parse needs of a scan;
- a visit as a value, with the positions it claims;
- the scan as a provider of the operations, and the recorded scan, which also
  keeps the visits that were made.
-/

namespace LempelZiv

/-- A visit of one or more positions. -/
inductive Visit where
  | search (query : Query)
  | skip (position count : Nat)
deriving DecidableEq, Repr

namespace Visit

/-- The first position a visit claims. -/
def first : Visit → Nat
  | search query => query.position
  | skip position _ => position

/-- The number of positions a visit claims. -/
def count : Visit → Nat
  | search _ => 1
  | skip _ count => count

end Visit

/-- Programs that can search a position or skip positions. -/
class MonadVisit (m : Type → Type) where
  /-- Visit the query's position and answer its longest match. -/
  search : Query → m Match
  /-- Visit `count` positions from `position` on. -/
  skip : (position count : Nat) → m Unit

instance : MonadVisit ScanM where
  search := Scan.longestMatch
  skip := Scan.skipPositions

/-- A scan that keeps the visits made so far, oldest first. -/
abbrev RecordedScanM := StateT (List Visit) ScanM

namespace Scan

/-- Keep a visit that was made. -/
def recorded {α : Type} (visit : Visit) (action : ScanM α) : RecordedScanM α :=
  fun visits => do
    let answer ← action
    pure (answer, visits ++ [visit])

end Scan

instance : MonadVisit RecordedScanM where
  search query := Scan.recorded (.search query) (Scan.longestMatch query)
  skip position count :=
    Scan.recorded (.skip position count) (Scan.skipPositions position count)

end LempelZiv
