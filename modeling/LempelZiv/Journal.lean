import LempelZiv.Parse.Strategy

/-!
Contract: what an observer of an index and its parses is told.

Owns: the events, their severities and their texts, oldest first.
-/

namespace LempelZiv

/-- How much an event matters. -/
inductive Severity where
  | debug
  | trace
deriving DecidableEq, Repr

/-- The name shown before an event's text. -/
def Severity.name : Severity → String
  | .debug => "DEBUG"
  | .trace => "TRACE"

/-- Something that happened to an index. -/
inductive Event where
  /-- Tables of `tableBytes` bytes were made for buffers of `capacity` bytes. -/
  | allocated (capacity tableBytes : Nat)
  /-- Every bucket and link was emptied. -/
  | cleared
  /-- A buffer was parsed into tokens. -/
  | parsed (strategy : Strategy) (bytes tokens copies : Nat)
deriving DecidableEq, Repr

namespace Event

/-- Clearing is routine; the other events are worth a look. -/
def severity : Event → Severity
  | .allocated _ _ => .debug
  | .cleared => .trace
  | .parsed _ _ _ _ => .debug

/-- The text of an event. -/
def text : Event → String
  | .allocated capacity tableBytes =>
      s!"allocated match index for {capacity} bytes ({tableBytes} bytes of tables)"
  | .cleared =>
      "resetting match index"
  | .parsed strategy bytes tokens copies =>
      s!"{strategy.name} parse of {bytes} bytes produced {tokens} tokens ({copies} matches)"

/-- The event as one line: severity, colon, text. -/
def render (event : Event) : String :=
  s!"{event.severity.name}: {event.text}"

end Event

/-- The events so far, oldest first. -/
abbrev Journal := Array Event

end LempelZiv
