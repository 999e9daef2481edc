import LempelZiv.Index.Chain
import LempelZiv.Scan.Search

/-!
Contract: an index used step by step, with at most one scan open.

Owns:
- the state of a session: an index at rest or a scan;
- the steps of a session and their replies.

A rejected search or skip leaves the scan open as it was.  A rejected scan
leaves the index as it was, without an open scan.
-/

namespace LempelZiv

/-- An index at rest, or bound to a buffer by an open scan. -/
inductive Session where
  | idle (index : Index)
  | scanning (scan : Scan)

namespace Session

/-- One step of a session. -/
inductive Step where
  /-- Close the open scan and begin one of this buffer. -/
  | scan (buffer : Buffer)
  /-- Close the open scan and clear the index. -/
  | reset
  | search (query : Query)
  | skip (position count : Nat)
  | searchRange (sweep : Scan.Sweep)
  /-- Show the open scan. -/
  | showScan
  /-- List one four-byte bucket. -/
  | chain (bucket : Nat)
  /-- List all four-byte buckets that hold a position. -/
  | chains
  /-- Show the index. -/
  | showIndex
deriving DecidableEq, Repr

/-- What a step answers. -/
inductive Reply where
  | done
  | found (result : Match) (improves : Bool)
  | foundRange (results : List Match)
  | scanShown (text : String) (buffer : Buffer)
  | chain (positions : List Nat)
  | chains (entries : List (Nat × List Nat))
  | indexShown (capacity memoryUsage : Nat) (text : String)
  /-- The step broke a rule; a range keeps the positions it searched before. -/
  | rejected (violation : Violation)
  /-- The step needs an open scan. -/
  | noScan
deriving DecidableEq, Repr

/-- A session on a new index. -/
def create (capacity : Nat) : Except Violation Session :=
  (Index.create capacity).map idle

/-- The index, bound or at rest. -/
def index : Session → Index
  | idle index => index
  | scanning scan => scan.index

/-- Ask something of the index without changing the session. -/
def askIndex (question : Index → Except Violation Reply) (session : Session) :
    Reply × Session :=
  match question session.index with
  | .ok reply => (reply, session)
  | .error violation => (.rejected violation, session)

/-- Take a step of the open scan. -/
def withScan {α : Type} (action : ScanM α) (reply : α → Reply) :
    Session → Reply × Session
  | idle index => (.noScan, idle index)
  | scanning scan =>
      match action scan with
      | .ok answer after => (reply answer, scanning after)
      | .error violation after => (.rejected violation, scanning after)

/-- Carry out one step. -/
def step (session : Session) : Step → Reply × Session
  | .scan buffer =>
      match session.index.scan buffer with
      | .ok scan => (.done, scanning scan)
      | .error violation => (.rejected violation, idle session.index)
  | .reset =>
      (.done, idle session.index.reset)
  | .search query =>
      withScan (Scan.longestMatch query)
        (fun result => .found result (result.improvesOn query.bestLen)) session
  | .skip position count =>
      withScan (Scan.skipPositions position count) (fun _ => .done) session
  | .searchRange sweep =>
      withScan (Scan.searchRange sweep) .foundRange session
  | .showScan =>
      withScan (Scan.reading fun scan => .ok (scan.describe, scan.buffer))
        (fun shown => .scanShown shown.1 shown.2) session
  | .chain bucket =>
      askIndex (fun index => (index.chain bucket).map .chain) session
  | .chains =>
      askIndex (fun index => index.chains.map .chains) session
  | .showIndex =>
      askIndex
        (fun index => .ok (.indexShown index.capacity index.memoryUsage index.describe))
        session

/-- Carry out steps in order, with the reply of each. -/
def run : Session → List Step → List Reply × Session
  | session, [] => ([], session)
  | session, first :: rest =>
      let (reply, next) := session.step first
      let (replies, last) := run next rest
      (reply :: replies, last)

end Session

end LempelZiv
