import LempelZiv.Index.Basic

/-!
Contract: the positions of a four-byte bucket, newest first.

Owns: the walk along the links from a bucket's head, and the list of all
buckets that hold a position.

A chain has no repeated position, so a walk of `capacity` nodes sees all of it.
-/

namespace LempelZiv.Index

/-- The first `budget` positions reached from `slot` along the links. -/
def follow (links : Array Slot) : (budget : Nat) → Slot → Except Violation (List Nat)
  | 0, _ => .ok []
  | budget + 1, slot =>
      match slot.position? with
      | none => .ok []
      | some position => do
          let next ← linkAt links position
          let older ← follow links budget next
          pure (position :: older)

/-- The positions in a four-byte bucket, newest first. -/
def chain (index : Index) (bucket : Nat) : Except Violation (List Nat) :=
  if inside : bucket < longBuckets then
    follow index.links index.capacity index.heads[bucket]
  else
    .error (.indexOutOfBounds longBuckets bucket)

/-- The buckets that hold a position, in increasing order, with their chains. -/
def chains (index : Index) : Except Violation (List (Nat × List Nat)) := do
  let entries ← (List.range longBuckets).mapM fun bucket => do
    let positions ← index.chain bucket
    pure (bucket, positions)
  pure (entries.filter fun entry => !entry.2.isEmpty)

end LempelZiv.Index
