import LempelZiv.Proofs.Index.Contents
import LempelZiv.Scan.Visit
import Mathlib.Order.Interval.Finset.Nat

/-!
Contract: what a scan knows about the positions it has visited.

Owns:
- the laws by which a program of scan steps is taken apart;
- the invariant of a scan: its tables hold exactly the inserted positions, all
  of them visited, and buckets kept ahead are those of the next position;
- the positions that a visit inserts;
- the effect of a skip on the invariant.

Does not own: searches, whose answer is related to the inserted positions in a
module of its own.
-/

namespace LempelZiv

/-- The positions that an accepted visit of a buffer of `size` bytes inserts. -/
def Visit.inserts (size : Nat) : Visit → Finset Nat
  | search query =>
      if minLookahead ≤ query.maxLen then {query.position} else ∅
  | skip position count =>
      (Finset.Ico position (position + count)).filter (· + minLookahead ≤ size)

namespace Scan

/-! ### Programs of scan steps -/

section Steps

variable {α β : Type} {scan after : Scan}

theorem bind_of_ok
    {action : ScanM α}
    {answer : α}
    (ran : action scan = .ok answer after)
    (next : α → ScanM β) :
    (action >>= next) scan = next answer after := by
  simp only [bind, EStateM.bind, ran]

theorem bind_of_error
    {action : ScanM α}
    {violation : Violation}
    (broke : action scan = .error violation after)
    (next : α → ScanM β) :
    (action >>= next) scan = .error violation after := by
  simp only [bind, EStateM.bind, broke]

theorem reading_of_ok
    {question : Scan → Except Violation α}
    {answer : α}
    (answered : question scan = .ok answer) :
    reading question scan = .ok answer scan := by
  simp only [reading, answered]

theorem reading_eq_ok
    {question : Scan → Except Violation α}
    {answer : α}
    (ran : reading question scan = .ok answer after) :
    question scan = .ok answer ∧ scan = after := by
  unfold reading at ran
  split at ran
  · rename_i answered
    cases ran
    exact ⟨answered, rfl⟩
  · cases ran

theorem reading_apply (answer : Scan → α) (scan : Scan) :
    reading (fun scan => .ok (answer scan)) scan = .ok (answer scan) scan := rfl

theorem reading_buckets
    {position : Nat}
    (inside : position + 4 ≤ scan.buffer.size) :
    reading (fun scan => Buckets.read scan.buffer position) scan =
      .ok (scan.buffer.buckets position) scan :=
  reading_of_ok (Buffer.read_eq_buckets (by omega))

theorem reading_of_error
    {question : Scan → Except Violation α}
    {violation : Violation}
    (refused : question scan = .error violation) :
    reading question scan = .error violation scan := by
  simp only [reading, refused]

end Steps

/-- The part of a scan that no visit changes. -/
structure Frame where
  buffer : Buffer
  capacity : Nat
  journal : Journal

def frame (scan : Scan) : Frame :=
  ⟨scan.buffer, scan.index.capacity, scan.index.journal⟩

theorem buffer_eq_of_frame
    {scan after : Scan}
    (same : after.frame = scan.frame) :
    after.buffer = scan.buffer :=
  congrArg Frame.buffer same

/-- Every position of the buffer has a link. -/
theorem lt_capacity_of_lt_size
    {scan : Scan}
    {position : Nat}
    (inside : position < scan.buffer.size) :
    position < scan.index.capacity :=
  Nat.lt_of_lt_of_le inside scan.fits

/-! ### The invariant -/

/-- The scan has inserted exactly the positions of `inserted`. -/
structure Tracks (scan : Scan) (inserted : Finset Nat) : Prop where
  holds : scan.index.Holds scan.buffer inserted
  visited : ∀ position ∈ inserted, position < scan.nextPos
  ahead : ∀ buckets, scan.pending = some buckets →
    scan.nextPos + 4 ≤ scan.buffer.size ∧ buckets = scan.buffer.buckets scan.nextPos

theorem tracks_start
    {index : Index}
    {buffer : Buffer}
    (fits : buffer.size ≤ index.capacity) :
    (start index buffer fits).Tracks ∅ where
  holds := Index.holds_blank _ index.addressable fits
  visited := by simp
  ahead := by simp [start]

theorem Tracks.lt_of_nextPos_le
    {scan : Scan}
    {inserted : Finset Nat}
    (tracks : scan.Tracks inserted)
    {position : Nat}
    (order : scan.nextPos ≤ position) :
    ∀ entry ∈ inserted, entry < position := by
  intro entry member
  exact Nat.lt_of_lt_of_le (tracks.visited entry member) order

/-! ### Claiming and entering positions -/

/-- The scan after a claim that ends before `stop`. -/
def claimed (scan : Scan) (stop : Nat) : Scan :=
  { scan with nextPos := stop, pending := none }

section Claimed

variable (scan : Scan) (stop : Nat)

@[simp] theorem index_claimed : (scan.claimed stop).index = scan.index := rfl

@[simp] theorem buffer_claimed : (scan.claimed stop).buffer = scan.buffer := rfl

@[simp] theorem nextPos_claimed : (scan.claimed stop).nextPos = stop := rfl

@[simp] theorem pending_claimed : (scan.claimed stop).pending = none := rfl

@[simp] theorem frame_claimed : (scan.claimed stop).frame = scan.frame := rfl

end Claimed

theorem advance_of_le
    {scan : Scan}
    {position : Nat}
    (order : scan.nextPos ≤ position)
    (count : Nat) :
    advance position count scan =
      .ok (if position = scan.nextPos then scan.pending else none)
        (scan.claimed (position + count)) := by
  simp only [advance, if_pos order, claimed]

theorem advance_of_lt
    {scan : Scan}
    {position : Nat}
    (revisit : position < scan.nextPos)
    (count : Nat) :
    advance position count scan = .error (.positionVisited position) scan := by
  simp only [advance, if_neg (Nat.not_le.mpr revisit)]

theorem bucketsOr_of_ready
    {scan : Scan}
    {ready : Option Buckets}
    {position : Nat}
    (known : ∀ buckets, ready = some buckets → buckets = scan.buffer.buckets position)
    (inside : position + 4 ≤ scan.buffer.size) :
    bucketsOr ready position scan = .ok (scan.buffer.buckets position) scan := by
  cases ready with
  | some buckets => rw [known buckets rfl]; rfl
  | none => exact reading_buckets inside

/-- What a claim hands out are the buckets of the claimed position. -/
theorem Tracks.ready_exact
    {scan : Scan}
    {inserted : Finset Nat}
    (tracks : scan.Tracks inserted)
    (position : Nat) :
    ∀ buckets, (if position = scan.nextPos then scan.pending else none) = some buckets →
      buckets = scan.buffer.buckets position := by
  intro buckets taken
  split at taken
  · rename_i same
    rw [same]
    exact (tracks.ahead buckets taken).2
  · cases taken

def entered (scan : Scan) (position : Nat) (inside : position < scan.index.capacity) :
    Scan :=
  { scan with
    index := scan.index.insert (scan.buffer.buckets position) position inside
    fits := by simpa using scan.fits }

theorem enter_eq
    {scan : Scan}
    {position : Nat}
    (inside : position < scan.index.capacity) :
    enter (scan.buffer.buckets position) position scan =
      .ok (scan.index.occupants (scan.buffer.buckets position))
        (scan.entered position inside) := by
  simp only [enter, dif_pos inside, entered]

def prepared (scan : Scan) (buckets : Buckets) : Scan :=
  { scan with pending := some buckets }

theorem keep_eq (scan : Scan) (buckets : Buckets) :
    keep buckets scan = .ok () (scan.prepared buckets) := rfl

@[simp] theorem frame_prepared (scan : Scan) (buckets : Buckets) :
    (scan.prepared buckets).frame = scan.frame := rfl

@[simp] theorem frame_entered
    (scan : Scan)
    (position : Nat)
    (inside : position < scan.index.capacity) :
    (scan.entered position inside).frame = scan.frame := by
  simp only [frame, entered, Index.capacity_insert]
  rfl

/-- Entering later positions one by one adds all of them. -/
theorem enterRange_spec
    {scan : Scan}
    {inserted : Finset Nat}
    {position stop : Nat}
    (holds : scan.index.Holds scan.buffer inserted)
    (later : ∀ entry ∈ inserted, entry < position)
    (order : position ≤ stop)
    (inside : stop + 4 ≤ scan.buffer.size) :
    ∃ after,
      enterRange position stop (scan.buffer.buckets position) scan =
        .ok (scan.buffer.buckets stop) after ∧
      after.index.Holds scan.buffer (inserted ∪ Finset.Ico position stop) ∧
      after.nextPos = scan.nextPos ∧
      after.pending = scan.pending ∧
      after.frame = scan.frame := by
  induction remaining : stop - position generalizing scan inserted position with
  | zero =>
      have same : position = stop := by omega
      refine ⟨scan, ?_, ?_, rfl, rfl, rfl⟩
      · rw [enterRange, if_neg (by omega), same]
        rfl
      · rw [same, Finset.Ico_self, Finset.union_empty]
        exact holds
  | succ remaining inductionHypothesis =>
      have below : position < scan.index.capacity := lt_capacity_of_lt_size (by omega)
      have readable : position + minLookahead ≤ scan.buffer.size := by
        simp only [minLookahead]
        omega
      let first := scan.entered position below
      have firstHolds : first.index.Holds first.buffer (inserted ∪ {position}) :=
        holds.insert below readable later
      have firstLater : ∀ entry ∈ inserted ∪ {position}, entry < position + 1 := by
        intro entry member
        rcases Finset.mem_union.mp member with older | same
        · exact Nat.lt_succ_of_lt (later entry older)
        · exact Nat.lt_succ_of_le (Nat.le_of_eq (Finset.mem_singleton.mp same))
      obtain ⟨after, ran, afterHolds, nextPos, pending, frame⟩ :=
        inductionHypothesis firstHolds firstLater (by omega) inside (by omega)
      refine ⟨after, ?_, ?_, nextPos, pending, ?_⟩
      · rw [enterRange, if_pos (by omega), bind_of_ok (enter_eq below),
          bind_of_ok (reading_buckets (show position + 1 + 4 ≤ first.buffer.size from
            Nat.le_trans (by omega) inside))]
        exact ran
      · have range : Finset.Ico position stop = {position} ∪ Finset.Ico (position + 1) stop := by
          ext entry
          simp only [Finset.mem_union, Finset.mem_singleton, Finset.mem_Ico]
          omega
        rw [range, ← Finset.union_assoc]
        exact afterHolds
      · rw [frame, frame_entered]

/-! ### Skips -/

/-- A skip covers at least one position, all of them inside the buffer and none
of them visited before. -/
structure SkipAccepted (scan : Scan) (position count : Nat) : Prop where
  nonempty : 0 < count
  inside : position + count ≤ scan.buffer.size
  order : scan.nextPos ≤ position

theorem inserts_skip_eq (size position count : Nat) :
    (Visit.skip position count).inserts size =
      Finset.Ico position (insertableEnd size position count) := by
  ext entry
  rw [Visit.inserts, Finset.mem_filter, Finset.mem_Ico, Finset.mem_Ico]
  simp only [insertableEnd, minLookahead]
  omega

theorem SkipAccepted.checkSkip_eq
    {scan : Scan}
    {position count : Nat}
    (accepted : scan.SkipAccepted position count) :
    checkSkip position count scan = .ok () := by
  have nonempty := accepted.nonempty
  have inside := accepted.inside
  rw [checkSkip, if_neg (by omega), if_neg (by omega)]

private theorem skipPositions_eq
    {scan : Scan}
    {inserted : Finset Nat}
    {position count stop : Nat}
    (tracks : scan.Tracks inserted)
    (accepted : scan.SkipAccepted position count)
    (isStop : insertableEnd scan.buffer.size position count = stop)
    (stopInside : position < stop → stop + 4 ≤ scan.buffer.size) :
    skipPositions position count scan =
      (if position < stop then do
        let last ← enterRange position stop (scan.buffer.buckets position)
        if stop = position + count then keep last
      else
        pure ()) (scan.claimed (position + count)) := by
  rw [skipPositions, bind_of_ok (reading_of_ok accepted.checkSkip_eq),
    bind_of_ok (advance_of_le accepted.order count),
    bind_of_ok (reading_apply (fun scan => insertableEnd scan.buffer.size position count) _)]
  simp only [buffer_claimed, isStop]
  by_cases insertable : position < stop
  · have taken : bucketsOr (if position = scan.nextPos then scan.pending else none) position
        (scan.claimed (position + count)) =
          .ok (scan.buffer.buckets position) (scan.claimed (position + count)) :=
      bucketsOr_of_ready (tracks.ready_exact position)
        (Nat.le_trans (by omega) (stopInside insertable))
    rw [if_pos insertable, if_pos insertable, bind_of_ok taken]
  · rw [if_neg insertable, if_neg insertable]

/-- An accepted skip inserts the positions of its range that have five bytes
left, and keeps the buckets of the next position where they can be read. -/
theorem skipPositions_spec
    {scan : Scan}
    {inserted : Finset Nat}
    {position count : Nat}
    (tracks : scan.Tracks inserted)
    (accepted : scan.SkipAccepted position count) :
    ∃ after,
      skipPositions position count scan = .ok () after ∧
      after.Tracks (inserted ∪ (Visit.skip position count).inserts scan.buffer.size) ∧
      after.nextPos = position + count ∧
      after.pending =
        (if position + count + 4 ≤ scan.buffer.size then
          some (scan.buffer.buckets (position + count))
        else
          none) ∧
      after.frame = scan.frame := by
  have nonempty := accepted.nonempty
  have inside := accepted.inside
  have later := tracks.lt_of_nextPos_le accepted.order
  have visited : ∀ entry ∈ inserted ∪ (Visit.skip position count).inserts scan.buffer.size,
      entry < position + count := by
    intro entry member
    rcases Finset.mem_union.mp member with older | new
    · exact Nat.lt_add_right count (later entry older)
    · exact (Finset.mem_Ico.mp (Finset.mem_filter.mp new).1).2
  obtain ⟨stop, isStop⟩ : ∃ stop, insertableEnd scan.buffer.size position count = stop :=
    ⟨_, rfl⟩
  have stopValue : stop = min (position + count) (scan.buffer.size - 4) := by
    rw [← isStop, insertableEnd, minLookahead]
    omega
  have stopInside : position < stop → stop + 4 ≤ scan.buffer.size := by omega
  rw [inserts_skip_eq, isStop] at visited ⊢
  rw [skipPositions_eq tracks accepted isStop stopInside]
  by_cases insertable : position < stop
  · rw [if_pos insertable]
    obtain ⟨after, ran, holds, nextPos, pending, frame⟩ :=
      @enterRange_spec (scan.claimed (position + count)) _ _ _ tracks.holds later
        (Nat.le_of_lt insertable) (stopInside insertable)
    simp only [buffer_claimed, nextPos_claimed, pending_claimed, frame_claimed]
      at ran holds nextPos pending frame
    have buffer := buffer_eq_of_frame frame
    rw [bind_of_ok ran]
    by_cases complete : stop = position + count
    · rw [if_pos complete, if_pos (by omega)]
      refine ⟨after.prepared (scan.buffer.buckets stop), keep_eq _ _, ⟨?_, ?_, ?_⟩, nextPos,
        ?_, frame⟩
      · exact buffer ▸ holds
      · intro entry member
        exact nextPos ▸ visited entry member
      · intro buckets kept
        cases kept
        refine ⟨?_, ?_⟩
        · change after.nextPos + 4 ≤ after.buffer.size
          rw [nextPos, buffer]
          exact complete ▸ stopInside insertable
        · change scan.buffer.buckets stop = after.buffer.buckets after.nextPos
          rw [nextPos, buffer, complete]
      · rw [complete]
        rfl
    · rw [if_neg complete, if_neg (by omega)]
      refine ⟨after, rfl, ⟨buffer ▸ holds, ?_, ?_⟩, nextPos, pending, frame⟩
      · intro entry member
        exact nextPos ▸ visited entry member
      · rw [pending]
        intro buckets kept
        cases kept
  · rw [if_neg insertable, if_neg (by omega), Finset.Ico_eq_empty insertable,
      Finset.union_empty]
    refine ⟨scan.claimed (position + count), rfl, ⟨tracks.holds, ?_, ?_⟩, rfl, rfl, rfl⟩
    · intro entry member
      exact visited entry (Finset.mem_union_left _ member)
    · intro buckets kept
      cases kept

end Scan

end LempelZiv
