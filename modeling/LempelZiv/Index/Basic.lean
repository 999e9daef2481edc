import LempelZiv.Buckets
import LempelZiv.Index.Slot
import LempelZiv.Journal

/-!
Contract: the tables of a hash-chain index.

Owns:
- the table of the most recent position in each three-byte bucket;
- the table of the most recent position in each four-byte bucket, and the
  links from each position to the one it replaced there;
- creation, clearing and insertion, and the journal of what happened.

Does not own: the buffer whose positions are kept, nor the order in which
positions are inserted.
-/

namespace LempelZiv

/-- Hash-chain tables for buffers of up to `links.size` bytes. -/
structure Index where
  /-- The most recent position in each three-byte bucket. -/
  recent : Vector Slot shortBuckets
  /-- The most recent position in each four-byte bucket. -/
  heads : Vector Slot longBuckets
  /-- For each position, the one it replaced in its four-byte bucket. -/
  links : Array Slot
  /-- What was reported so far. -/
  journal : Journal
  /-- Every position of a fitting buffer is kept without loss. -/
  addressable : links.size < Slot.limit

/-- What a position's two buckets held before it was inserted. -/
structure Occupants where
  short : Slot
  long : Slot
deriving DecidableEq, Repr

namespace Index

/-- The longest buffer the index can be bound to. -/
def capacity (index : Index) : Nat :=
  index.links.size

/-- Bytes held by the tables of an index, four for each cell. -/
def tableBytes (capacity : Nat) : Nat :=
  (shortBuckets + longBuckets + capacity) * 4

/-- Bytes held by the tables. -/
def memoryUsage (index : Index) : Nat :=
  tableBytes index.capacity

/-- An index without positions for buffers of up to `capacity` bytes. -/
def blank (capacity : Nat) (journal : Journal) (addressable : capacity < Slot.limit) :
    Index where
  recent := Vector.replicate shortBuckets .empty
  heads := Vector.replicate longBuckets .empty
  links := Array.replicate capacity .empty
  journal := journal
  addressable := by simpa using addressable

/-- A new index for buffers of up to `capacity` bytes. -/
def create (capacity : Nat) : Except Violation Index :=
  if addressable : capacity < Slot.limit then
    .ok (blank capacity #[.allocated capacity (tableBytes capacity)] addressable)
  else
    .error (.capacityTooLarge capacity)

/-- Add an event to the journal. -/
def report (index : Index) (event : Event) : Index :=
  match index with
  | ⟨recent, heads, links, journal, addressable⟩ =>
      ⟨recent, heads, links, journal.push event, addressable⟩

/-- Empty every bucket and every link. -/
def reset (index : Index) : Index :=
  blank index.capacity (index.journal.push .cleared) index.addressable

/-- What the buckets hold now. -/
def occupants (index : Index) (buckets : Buckets) : Occupants where
  short := index.recent[buckets.short]
  long := index.heads[buckets.long]

/-- Make `position` the newest entry of both buckets, linked to the entry it
replaces in the four-byte bucket. -/
def insert (index : Index) (buckets : Buckets) (position : Nat)
    (inside : position < index.capacity) : Index :=
  match index, inside with
  | ⟨recent, heads, links, journal, addressable⟩, inside =>
      have inside : position < links.size := inside
      let replaced := heads[buckets.long]
      ⟨recent.set buckets.short (.ofPosition position),
        heads.set buckets.long (.ofPosition position),
        links.set position replaced inside,
        journal,
        by simpa using addressable⟩

/-- The entry that `position` replaced when it was inserted. -/
@[inline] def linkAt (links : Array Slot) (position : Nat) : Except Violation Slot :=
  if inside : position < links.size then
    .ok links[position]
  else
    .error (.indexOutOfBounds links.size position)

/-- The short text by which an index is shown. -/
def describe (index : Index) : String :=
  s!"MatchIndex \x7b capacity: {index.capacity}, .. \x7d"

@[simp] theorem capacity_blank
    (capacity : Nat)
    (journal : Journal)
    (addressable : capacity < Slot.limit) :
    (blank capacity journal addressable).capacity = capacity := by
  simp [Index.capacity, blank]

@[simp] theorem capacity_report (index : Index) (event : Event) :
    (index.report event).capacity = index.capacity := rfl

@[simp] theorem capacity_reset (index : Index) :
    index.reset.capacity = index.capacity :=
  capacity_blank _ _ _

@[simp] theorem capacity_insert
    (index : Index)
    (buckets : Buckets)
    (position : Nat)
    (inside : position < index.capacity) :
    (index.insert buckets position inside).capacity = index.capacity :=
  Array.size_set inside

end Index

end LempelZiv
