import LempelZiv.Proofs.Scan.Visits

/-!
Contract: what two scans of one buffer have in common.

Owns:
- the agreement of two indexes, whatever their capacities, and of two scans;
- twins: scans of one buffer that stand at the same place and have inserted the same
  positions;
- the agreement of the tables of twins, and the like outcome of every step on them.

The inserted positions determine every cell of the tables, so it shows neither in the
tables nor in an answer how they came to be inserted, nor what the index held before
the scan, nor how long a buffer it could hold.  The buckets kept ahead are not
compared: a claim that takes them would read the same ones.
-/

namespace LempelZiv

theorem Slot.position?_inj {left right : Slot} :
    left.position? = right.position? ↔ left = right := by
  constructor
  · intro same
    by_cases vacant : left = empty
    · by_cases vacantRight : right = empty
      · rw [vacant, vacantRight]
      · simp [position?, vacant, vacantRight] at same
    · by_cases vacantRight : right = empty
      · simp [position?, vacant, vacantRight] at same
      · simp only [position?, if_neg vacant, if_neg vacantRight, Option.some.injEq,
          UInt32.toNat_inj] at same
        cases left
        exact congrArg Slot.mk same
  · intro same
    rw [same]

namespace Index

/-! ### Tables -/

/-- The link of a position, empty past the capacity. -/
def link (index : Index) (position : Nat) : Slot :=
  index.links.getD position .empty

/-- The same buckets and the same links; a capacity that is larger adds nothing but
empty links. -/
structure Agrees (left right : Index) : Prop where
  recent : left.recent = right.recent
  heads : left.heads = right.heads
  links : ∀ position, left.link position = right.link position

variable {left right : Index} {buffer : Buffer} {inserted : Finset Nat}

theorem Holds.link {index : Index} (holds : index.Holds buffer inserted) (position : Nat) :
    (index.link position).position? =
      if position ∈ inserted then newest? (olderEntries buffer inserted position) else none := by
  by_cases inside : position < index.links.size
  · rw [← holds.links position inside]
    simp [Index.link, inside]
  · have absent : position ∉ inserted :=
      fun member => inside (holds.lt_capacity member)
    simp [Index.link, inside, absent]

/-- What an index holds determines its tables. -/
theorem Holds.agrees
    (holds : left.Holds buffer inserted)
    (holdsRight : right.Holds buffer inserted) :
    left.Agrees right where
  recent := by
    apply Vector.ext
    intro bucket inside
    apply Slot.position?_inj.mp
    exact (holds.recent ⟨bucket, inside⟩).trans (holdsRight.recent ⟨bucket, inside⟩).symm
  heads := by
    apply Vector.ext
    intro bucket inside
    apply Slot.position?_inj.mp
    exact (holds.heads ⟨bucket, inside⟩).trans (holdsRight.heads ⟨bucket, inside⟩).symm
  links := by
    intro position
    apply Slot.position?_inj.mp
    rw [holds.link, holdsRight.link]

theorem Agrees.links_eq
    (agrees : left.Agrees right)
    (sameCapacity : left.capacity = right.capacity) :
    left.links = right.links := by
  apply Array.ext sameCapacity
  intro position inside insideRight
  have same := agrees.links position
  simpa [link, inside, insideRight] using same

theorem Agrees.eq
    (agrees : left.Agrees right)
    (sameCapacity : left.capacity = right.capacity)
    (sameJournal : left.journal = right.journal) :
    left = right := by
  have sameRecent := agrees.recent
  have sameHeads := agrees.heads
  have sameLinks := agrees.links_eq sameCapacity
  cases left
  cases right
  simp only at sameRecent sameHeads sameLinks sameJournal
  subst sameRecent sameHeads sameLinks sameJournal
  rfl

/-- Indexes that hold the same positions list the same chains. -/
theorem Holds.chain_congr
    (holds : left.Holds buffer inserted)
    (holdsRight : right.Holds buffer inserted) :
    left.chain = right.chain := by
  funext bucket
  by_cases inside : bucket < longBuckets
  · rw [holds.chain_eq ⟨bucket, inside⟩, holdsRight.chain_eq ⟨bucket, inside⟩]
  · rw [chain, chain, dif_neg inside, dif_neg inside]

theorem chains_congr (same : left.chain = right.chain) : left.chains = right.chains := by
  simp only [chains, same]

end Index

namespace Scan

/-! ### Twins -/

/-- The same buffer and tables, at the same place and with the same buckets kept. -/
structure Agrees (left right : Scan) : Prop where
  index : left.index.Agrees right.index
  buffer : left.buffer = right.buffer
  nextPos : left.nextPos = right.nextPos
  pending : left.pending = right.pending

/-- Scans of one buffer that stand at the same place and have inserted the same
positions. -/
structure Twins (left right : Scan) : Prop where
  buffer : left.buffer = right.buffer
  nextPos : left.nextPos = right.nextPos
  tracked : ∃ inserted, left.Tracks inserted ∧ right.Tracks inserted

variable {left right : Scan} {inserted : Finset Nat}

theorem Agrees.eq (agrees : left.Agrees right) (sameFrame : left.frame = right.frame) :
    left = right := by
  have sameIndex : left.index = right.index :=
    agrees.index.eq (congrArg Frame.capacity sameFrame) (congrArg Frame.journal sameFrame)
  have sameBuffer := agrees.buffer
  have sameNextPos := agrees.nextPos
  have samePending := agrees.pending
  cases left
  cases right
  simp only at sameIndex sameBuffer sameNextPos samePending
  subst sameIndex sameBuffer sameNextPos samePending
  rfl

theorem Twins.agrees (twins : Twins left right) (samePending : left.pending = right.pending) :
    left.Agrees right where
  index := by
    obtain ⟨inserted, tracks, tracksRight⟩ := twins.tracked
    apply tracks.holds.agrees
    rw [twins.buffer]
    exact tracksRight.holds
  buffer := twins.buffer
  nextPos := twins.nextPos
  pending := samePending

/-- Scans that begin on one buffer are twins, whatever their indexes held before. -/
theorem twins_start
    {index other : Index}
    {buffer : Buffer}
    (fits : buffer.size ≤ index.capacity)
    (fitsOther : buffer.size ≤ other.capacity) :
    Twins (start index buffer fits) (start other buffer fitsOther) :=
  ⟨rfl, rfl, ∅, tracks_start fits, tracks_start fitsOther⟩

/-- Twins that go to the same place and insert the same positions stay twins. -/
theorem Twins.advance
    {after afterRight : Scan}
    {stop : Nat}
    (twins : Twins left right)
    (frame : after.frame = left.frame)
    (frameRight : afterRight.frame = right.frame)
    (nextPos : after.nextPos = stop)
    (nextPosRight : afterRight.nextPos = stop)
    (tracks : after.Tracks inserted)
    (tracksRight : afterRight.Tracks inserted) :
    Twins after afterRight where
  buffer := by rw [buffer_eq_of_frame frame, buffer_eq_of_frame frameRight, twins.buffer]
  nextPos := nextPos.trans nextPosRight.symm
  tracked := ⟨inserted, tracks, tracksRight⟩

theorem Twins.chain_congr (twins : Twins left right) : left.index.chain = right.index.chain := by
  obtain ⟨inserted, tracks, tracksRight⟩ := twins.tracked
  apply tracks.holds.chain_congr
  rw [twins.buffer]
  exact tracksRight.holds

/-! ### Steps on twins -/

/-- The outcomes of one program on two scans: the same answer or the same broken rule,
and twins. -/
inductive Alike {α : Type} :
    EStateM.Result Violation Scan α → EStateM.Result Violation Scan α → Prop where
  | answered {left right : Scan} (answer : α) (twins : Twins left right) :
      Alike (.ok answer left) (.ok answer right)
  | rejected {left right : Scan} (violation : Violation) (twins : Twins left right) :
      Alike (.error violation left) (.error violation right)

theorem Alike.bind
    {α β : Type}
    {action : ScanM α}
    {next : α → ScanM β}
    (first : Alike (action left) (action right))
    (rest : ∀ {answer : α} {left right : Scan}, Twins left right →
      Alike (next answer left) (next answer right)) :
    Alike ((action >>= next) left) ((action >>= next) right) := by
  generalize ran : action left = outcome at first
  generalize ranRight : action right = outcomeRight at first
  cases first with
  | answered answer twins =>
      rw [bind_of_ok ran, bind_of_ok ranRight]
      exact rest twins
  | rejected violation twins =>
      rw [bind_of_error ran, bind_of_error ranRight]
      exact .rejected violation twins

theorem longestMatch_alike (twins : Twins left right) (query : Query) :
    Alike (longestMatch query left) (longestMatch query right) := by
  have sameSize : right.buffer.size = left.buffer.size := by rw [twins.buffer]
  cases checked : query.check left.buffer.size with
  | error violation =>
      rw [longestMatch_of_check checked, longestMatch_of_check (sameSize ▸ checked)]
      exact .rejected violation twins
  | ok =>
      by_cases order : left.nextPos ≤ query.position
      · obtain ⟨inserted, tracks, tracksRight⟩ := twins.tracked
        have accepted : query.Accepted left := Query.accepted_of_check checked order
        have acceptedRight : query.Accepted right :=
          Query.accepted_of_check (sameSize ▸ checked) (twins.nextPos ▸ order)
        obtain ⟨after, ran, tracked, nextPos, _, frame⟩ := longestMatch_spec tracks accepted
        obtain ⟨afterRight, ranRight, trackedRight, nextPosRight, _, frameRight⟩ :=
          longestMatch_spec tracksRight acceptedRight
        rw [← twins.buffer] at ranRight trackedRight
        rw [ran, ranRight]
        apply Alike.answered
        exact twins.advance frame frameRight nextPos nextPosRight tracked trackedRight
      · have revisit := Nat.lt_of_not_le order
        rw [longestMatch_of_revisit checked revisit,
          longestMatch_of_revisit (sameSize ▸ checked) (twins.nextPos ▸ revisit)]
        exact .rejected _ twins

theorem skipPositions_alike (twins : Twins left right) (position count : Nat) :
    Alike (skipPositions position count left) (skipPositions position count right) := by
  have sameCheck : checkSkip position count right = checkSkip position count left := by
    rw [checkSkip, checkSkip, twins.buffer]
  cases checked : checkSkip position count left with
  | error violation =>
      rw [skipPositions_of_check checked, skipPositions_of_check (sameCheck.trans checked)]
      exact .rejected violation twins
  | ok =>
      by_cases order : left.nextPos ≤ position
      · obtain ⟨inserted, tracks, tracksRight⟩ := twins.tracked
        have accepted : left.SkipAccepted position count := skipAccepted_of_check checked order
        have acceptedRight : right.SkipAccepted position count :=
          skipAccepted_of_check (sameCheck.trans checked) (twins.nextPos ▸ order)
        obtain ⟨after, ran, tracked, nextPos, _, frame⟩ := skipPositions_spec tracks accepted
        obtain ⟨afterRight, ranRight, trackedRight, nextPosRight, _, frameRight⟩ :=
          skipPositions_spec tracksRight acceptedRight
        rw [← twins.buffer] at trackedRight
        rw [ran, ranRight]
        apply Alike.answered
        exact twins.advance frame frameRight nextPos nextPosRight tracked trackedRight
      · have revisit := Nat.lt_of_not_le order
        rw [skipPositions_of_revisit checked revisit,
          skipPositions_of_revisit (sameCheck.trans checked) (twins.nextPos ▸ revisit)]
        exact .rejected _ twins

theorem searchRange_alike (twins : Twins left right) (sweep : Sweep) :
    Alike (searchRange sweep left) (searchRange sweep right) := by
  rw [searchRange, bind_of_ok (reading_apply (fun scan => scan.buffer.size) left),
    bind_of_ok (reading_apply (fun scan => scan.buffer.size) right), twins.buffer]
  generalize List.range' sweep.first (min sweep.stop right.buffer.size - sweep.first) = positions
  generalize right.buffer.size = size
  induction positions generalizing left right with
  | nil => exact .answered [] twins
  | cons position rest inductionHypothesis =>
      rw [List.mapM_cons]
      apply Alike.bind (longestMatch_alike twins _)
      intro result left right twins
      apply Alike.bind (inductionHypothesis twins)
      intro results left right twins
      exact .answered (result :: results) twins

end Scan

end LempelZiv
