import LempelZiv.Proofs.Scan.Tracking
import LempelZiv.Proofs.Search.Reference

/-!
Contract: runs of searches and skips on one scan.

Owns:
- when a search is accepted, and what an accepted and a rejected one do;
- the search of a range of positions;
- visits as programs, runs of accepted visits, and the positions they insert;
- the scans of a buffer that such runs reach, and their invariant.

A gap needs no step of its own: a visit may begin after any number of positions
that no visit claimed.
-/

namespace LempelZiv

/-- The rules of a query are met and its position was not visited before. -/
structure Query.Accepted (query : Query) (scan : Scan) : Prop where
  depth : 1 ≤ query.maxDepth
  nice : query.niceLen ≤ query.maxLen
  inside : query.position + query.maxLen ≤ scan.buffer.size
  order : scan.nextPos ≤ query.position

theorem Query.check_eq_ok_iff {query : Query} {size : Nat} :
    query.check size = .ok () ↔
      1 ≤ query.maxDepth ∧ query.niceLen ≤ query.maxLen ∧
        query.position + query.maxLen ≤ size := by
  unfold Query.check
  split
  · simp only [reduceCtorEq, false_iff]
    omega
  · split
    · simp only [reduceCtorEq, false_iff]
      omega
    · split
      · simp only [reduceCtorEq, false_iff]
        omega
      · simp only [true_iff]
        omega

theorem Query.Accepted.check_eq
    {query : Query}
    {scan : Scan}
    (accepted : query.Accepted scan) :
    query.check scan.buffer.size = .ok () :=
  Query.check_eq_ok_iff.mpr ⟨accepted.depth, accepted.nice, accepted.inside⟩

theorem Query.accepted_of_check
    {query : Query}
    {scan : Scan}
    (checked : query.check scan.buffer.size = .ok ())
    (order : scan.nextPos ≤ query.position) :
    query.Accepted scan := by
  obtain ⟨depth, nice, inside⟩ := Query.check_eq_ok_iff.mp checked
  exact ⟨depth, nice, inside, order⟩

/-- Where five bytes may match, five bytes remain. -/
theorem Query.Accepted.insertable
    {query : Query}
    {scan : Scan}
    (accepted : query.Accepted scan)
    (wide : minLookahead ≤ query.maxLen) :
    query.position + minLookahead ≤ scan.buffer.size :=
  Nat.le_trans (Nat.add_le_add_left wide _) accepted.inside

namespace Scan

/-! ### Searches -/

section Searches

variable {scan : Scan} {inserted : Finset Nat} {query : Query}

private theorem longestMatch_narrow
    (accepted : query.Accepted scan)
    (narrow : query.maxLen < minLookahead) :
    longestMatch query scan =
      .ok (.unimproved query.bestLen) (scan.claimed (query.position + 1)) := by
  rw [longestMatch, bind_of_ok (reading_of_ok accepted.check_eq),
    bind_of_ok (advance_of_le accepted.order 1), if_pos narrow]
  rfl

private theorem longestMatch_wide
    (tracks : scan.Tracks inserted)
    (accepted : query.Accepted scan)
    (wide : minLookahead ≤ query.maxLen)
    (inside : query.position < scan.index.capacity) :
    longestMatch query scan =
      .ok (query.bestAmong scan.buffer inserted)
        (((scan.claimed (query.position + 1)).entered query.position inside).prepared
          (scan.buffer.buckets (query.position + 1))) := by
  have later := tracks.lt_of_nextPos_le accepted.order
  have readable := accepted.insertable wide
  have readableNext : query.position + 1 + 4 ≤ scan.buffer.size := readable
  have taken : bucketsOr (if query.position = scan.nextPos then scan.pending else none)
      query.position (scan.claimed (query.position + 1)) =
        .ok (scan.buffer.buckets query.position) (scan.claimed (query.position + 1)) :=
    bucketsOr_of_ready (tracks.ready_exact query.position) (Nat.le_of_succ_le readableNext)
  have entering : enter (scan.buffer.buckets query.position) query.position
      (scan.claimed (query.position + 1)) =
        .ok (scan.index.occupants (scan.buffer.buckets query.position))
          ((scan.claimed (query.position + 1)).entered query.position inside) :=
    @enter_eq (scan.claimed (query.position + 1)) query.position inside
  have readNext : reading (fun scan => Buckets.read scan.buffer (query.position + 1))
      ((scan.claimed (query.position + 1)).entered query.position inside) =
        .ok (scan.buffer.buckets (query.position + 1))
          ((scan.claimed (query.position + 1)).entered query.position inside) :=
    reading_of_ok (Buffer.read_eq_buckets
      (show query.position + 1 + 3 < scan.buffer.size by omega))
  rw [longestMatch, bind_of_ok (reading_of_ok accepted.check_eq),
    bind_of_ok (advance_of_le accepted.order 1), if_neg (Nat.not_lt.mpr wide),
    bind_of_ok taken, bind_of_ok entering, bind_of_ok readNext, bind_of_ok (keep_eq _ _)]
  apply reading_of_ok
  exact bestMatch_eq ⟨wide, accepted.inside⟩ accepted.nice later
    (tracks.holds.insert inside readable later) (tracks.holds.recent _) (tracks.holds.heads _)

/-- An accepted search gives the answer for the positions inserted so far, and
inserts its own position exactly if five bytes may match there. -/
theorem longestMatch_spec
    (tracks : scan.Tracks inserted)
    (accepted : query.Accepted scan) :
    ∃ after,
      longestMatch query scan = .ok (query.answer scan.buffer inserted) after ∧
      after.Tracks (inserted ∪ (Visit.search query).inserts scan.buffer.size) ∧
      after.nextPos = query.position + 1 ∧
      after.pending =
        (if minLookahead ≤ query.maxLen then
          some (scan.buffer.buckets (query.position + 1))
        else
          none) ∧
      after.frame = scan.frame := by
  have later := tracks.lt_of_nextPos_le accepted.order
  by_cases wide : minLookahead ≤ query.maxLen
  · have readable := accepted.insertable wide
    have inside : query.position < scan.index.capacity :=
      lt_capacity_of_lt_size (Nat.lt_of_lt_of_le (Nat.lt_add_of_pos_right (by decide)) readable)
    rw [longestMatch_wide tracks accepted wide inside, Visit.inserts, if_pos wide,
      if_pos wide, Query.answer, if_neg (Nat.not_lt.mpr wide)]
    refine ⟨_, rfl, ⟨tracks.holds.insert inside readable later, ?_, ?_⟩, rfl, rfl, ?_⟩
    · intro entry member
      rcases Finset.mem_union.mp member with older | same
      · exact Nat.lt_succ_of_lt (later entry older)
      · exact Nat.lt_succ_of_le (Nat.le_of_eq (Finset.mem_singleton.mp same))
    · intro buckets kept
      cases kept
      exact ⟨readable, rfl⟩
    · exact frame_entered scan query.position inside
  · have narrow := Nat.lt_of_not_le wide
    rw [longestMatch_narrow accepted narrow, Visit.inserts, if_neg wide, if_neg wide,
      Query.answer, if_pos narrow, Finset.union_empty]
    refine ⟨_, rfl, ⟨tracks.holds, ?_, ?_⟩, rfl, rfl, rfl⟩
    · intro entry member
      exact Nat.lt_succ_of_lt (later entry member)
    · intro buckets kept
      cases kept

/-- A search that breaks a rule leaves the scan as it was. -/
theorem longestMatch_of_check
    {violation : Violation}
    (checked : query.check scan.buffer.size = .error violation) :
    longestMatch query scan = .error violation scan :=
  bind_of_error (reading_of_error checked) _

theorem longestMatch_of_revisit
    (checked : query.check scan.buffer.size = .ok ())
    (revisit : query.position < scan.nextPos) :
    longestMatch query scan = .error (.positionVisited query.position) scan := by
  rw [longestMatch, bind_of_ok (reading_of_ok checked)]
  exact bind_of_error (advance_of_lt revisit 1) _

theorem longestMatch_of_not_accepted (rejected : ¬ query.Accepted scan) :
    ∃ violation, longestMatch query scan = .error violation scan := by
  cases checked : query.check scan.buffer.size with
  | error violation => exact ⟨violation, longestMatch_of_check checked⟩
  | ok =>
      have revisit : query.position < scan.nextPos := by
        by_contra order
        exact rejected (Query.accepted_of_check checked (Nat.le_of_not_lt order))
      exact ⟨_, longestMatch_of_revisit checked revisit⟩

end Searches

section Skips

variable {scan : Scan} {position count : Nat}

theorem skipAccepted_of_check
    (checked : checkSkip position count scan = .ok ())
    (order : scan.nextPos ≤ position) :
    scan.SkipAccepted position count := by
  unfold checkSkip at checked
  split at checked
  · cases checked
  · split at checked
    · cases checked
    · exact ⟨by omega, by omega, order⟩

/-- A skip that breaks a rule leaves the scan as it was. -/
theorem skipPositions_of_check
    {violation : Violation}
    (checked : checkSkip position count scan = .error violation) :
    skipPositions position count scan = .error violation scan :=
  bind_of_error (reading_of_error checked) _

theorem skipPositions_of_revisit
    (checked : checkSkip position count scan = .ok ())
    (revisit : position < scan.nextPos) :
    skipPositions position count scan = .error (.positionVisited position) scan := by
  rw [skipPositions, bind_of_ok (reading_of_ok checked)]
  exact bind_of_error (advance_of_lt revisit count) _

theorem skipPositions_of_not_accepted (rejected : ¬ scan.SkipAccepted position count) :
    ∃ violation, skipPositions position count scan = .error violation scan := by
  cases checked : checkSkip position count scan with
  | error violation => exact ⟨violation, skipPositions_of_check checked⟩
  | ok =>
      have revisit : position < scan.nextPos := by
        by_contra order
        exact rejected (skipAccepted_of_check checked (Nat.le_of_not_lt order))
      exact ⟨_, skipPositions_of_revisit checked revisit⟩

end Skips

theorem longestMatch_cases
    {scan : Scan}
    {inserted : Finset Nat}
    (tracks : scan.Tracks inserted)
    (query : Query) :
    (∃ result after,
      longestMatch query scan = .ok result after ∧
      after.Tracks (inserted ∪ (Visit.search query).inserts scan.buffer.size) ∧
      after.frame = scan.frame) ∨
    ∃ violation, longestMatch query scan = .error violation scan := by
  by_cases accepted : query.Accepted scan
  · obtain ⟨after, ran, tracked, _, _, frame⟩ := longestMatch_spec tracks accepted
    exact .inl ⟨_, after, ran, tracked, frame⟩
  · exact .inr (longestMatch_of_not_accepted accepted)

theorem skipPositions_cases
    {scan : Scan}
    {inserted : Finset Nat}
    (tracks : scan.Tracks inserted)
    (position count : Nat) :
    (∃ done after,
      skipPositions position count scan = .ok done after ∧
      after.Tracks (inserted ∪ (Visit.skip position count).inserts scan.buffer.size) ∧
      after.frame = scan.frame) ∨
    ∃ violation, skipPositions position count scan = .error violation scan := by
  by_cases accepted : scan.SkipAccepted position count
  · obtain ⟨after, ran, tracked, _, _, frame⟩ := skipPositions_spec tracks accepted
    exact .inl ⟨(), after, ran, tracked, frame⟩
  · exact .inr (skipPositions_of_not_accepted accepted)

/-! ### Sweeps -/

/-- The positions that an accepted sweep inserts. -/
def Sweep.inserts (sweep : Sweep) (size : Nat) : Finset Nat :=
  (Finset.Ico sweep.first (min sweep.stop size)).filter fun position =>
    minLookahead ≤ (sweep.query size position).maxLen

section Sweeps

variable {sweep : Sweep} {scan : Scan} {inserted : Finset Nat} {position : Nat}

theorem Sweep.query_accepted
    (depth : 1 ≤ sweep.maxDepth)
    (inside : position ≤ scan.buffer.size)
    (order : scan.nextPos ≤ position) :
    (sweep.query scan.buffer.size position).Accepted scan where
  depth := depth
  nice := Nat.min_le_right _ _
  inside := by
    simp only [Sweep.query]
    omega
  order := order

theorem searches_spec
    {size count : Nat}
    (tracks : scan.Tracks inserted)
    (sameSize : scan.buffer.size = size)
    (depth : 1 ≤ sweep.maxDepth)
    (order : scan.nextPos ≤ position)
    (inside : position + count ≤ size) :
    ∃ results after,
      ((List.range' position count).mapM fun place =>
        longestMatch (sweep.query size place)) scan = .ok results after ∧
      after.Tracks (inserted ∪ (Finset.Ico position (position + count)).filter fun place =>
        minLookahead ≤ (sweep.query size place).maxLen) ∧
      after.frame = scan.frame := by
  subst sameSize
  induction count generalizing scan inserted position with
  | zero =>
      refine ⟨[], scan, rfl, ?_, rfl⟩
      rw [Nat.add_zero, Finset.Ico_self, Finset.filter_empty, Finset.union_empty]
      exact tracks
  | succ count inductionHypothesis =>
      obtain ⟨next, ran, tracked, nextPos, _, frame⟩ :=
        longestMatch_spec tracks (Sweep.query_accepted depth (by omega) order)
      have sameBuffer := buffer_eq_of_frame frame
      have orderRest : next.nextPos ≤ position + 1 := Nat.le_of_eq nextPos
      have insideRest : position + 1 + count ≤ next.buffer.size := by
        rw [sameBuffer]
        omega
      obtain ⟨results, after, ranRest, trackedRest, frameRest⟩ :=
        inductionHypothesis tracked orderRest insideRest
      rw [sameBuffer] at ranRest trackedRest
      refine ⟨(sweep.query scan.buffer.size position).answer scan.buffer inserted :: results,
        after, ?_, ?_, frameRest.trans frame⟩
      · rw [List.range'_succ, List.mapM_cons, bind_of_ok ran, bind_of_ok ranRest]
        rfl
      · have parts : Finset.Ico position (position + (count + 1)) =
            {position} ∪ Finset.Ico (position + 1) (position + 1 + count) := by
          ext place
          simp only [Finset.mem_union, Finset.mem_singleton, Finset.mem_Ico]
          omega
        rw [parts, Finset.filter_union, ← Finset.union_assoc, Finset.filter_singleton]
        exact trackedRest

/-- A sweep searches all its positions or breaks a rule at the first one. -/
theorem searchRange_cases (tracks : scan.Tracks inserted) (sweep : Sweep) :
    (∃ results after,
      searchRange sweep scan = .ok results after ∧
      after.Tracks (inserted ∪ sweep.inserts scan.buffer.size) ∧
      after.frame = scan.frame) ∨
    ∃ violation, searchRange sweep scan = .error violation scan := by
  rw [searchRange, bind_of_ok (reading_apply (fun scan => scan.buffer.size) scan)]
  cases amount : min sweep.stop scan.buffer.size - sweep.first with
  | zero =>
      refine .inl ⟨[], scan, rfl, ?_, rfl⟩
      rw [Sweep.inserts, Finset.Ico_eq_empty (by omega), Finset.filter_empty,
        Finset.union_empty]
      exact tracks
  | succ count =>
      by_cases accepted : 1 ≤ sweep.maxDepth ∧ scan.nextPos ≤ sweep.first
      · have stop : min sweep.stop scan.buffer.size = sweep.first + (count + 1) := by omega
        rw [Sweep.inserts, stop]
        exact .inl (searches_spec tracks rfl accepted.1 accepted.2 (by omega))
      · -- no later position is reached, so nothing has been inserted yet
        have rejected : ¬ (sweep.query scan.buffer.size sweep.first).Accepted scan :=
          fun first => accepted ⟨first.depth, first.order⟩
        obtain ⟨violation, broke⟩ := longestMatch_of_not_accepted rejected
        refine .inr ⟨violation, ?_⟩
        rw [List.range'_succ, List.mapM_cons]
        exact bind_of_error broke _

end Sweeps

/-! ### Runs -/

def perform : Visit → ScanM Unit
  | .search query => do
      let _ ← longestMatch query
  | .skip position count => skipPositions position count

def performAll : List Visit → ScanM Unit
  | [] => pure ()
  | visit :: rest => do
      perform visit
      performAll rest

end Scan

def Visit.Accepted (scan : Scan) : Visit → Prop
  | search query => query.Accepted scan
  | skip position count => scan.SkipAccepted position count

/-- The positions that accepted visits of a buffer of `size` bytes insert. -/
def Visit.insertedBy (size : Nat) : List Visit → Finset Nat
  | [] => ∅
  | visit :: rest => visit.inserts size ∪ insertedBy size rest

namespace Scan

variable {scan after : Scan} {inserted : Finset Nat} {visit : Visit}

theorem perform_spec
    (tracks : scan.Tracks inserted)
    (accepted : visit.Accepted scan) :
    ∃ after,
      perform visit scan = .ok () after ∧
      after.Tracks (inserted ∪ visit.inserts scan.buffer.size) ∧
      after.nextPos = visit.first + visit.count ∧
      after.frame = scan.frame := by
  cases visit with
  | search query =>
      obtain ⟨after, ran, tracked, nextPos, _, frame⟩ := longestMatch_spec tracks accepted
      exact ⟨after, bind_of_ok ran _, tracked, nextPos, frame⟩
  | skip position count =>
      obtain ⟨after, ran, tracked, nextPos, _, frame⟩ := skipPositions_spec tracks accepted
      exact ⟨after, ran, tracked, nextPos, frame⟩

theorem accepted_of_perform_eq_ok (ran : perform visit scan = .ok () after) :
    visit.Accepted scan := by
  by_contra rejected
  cases visit with
  | search query =>
      obtain ⟨violation, broke⟩ := longestMatch_of_not_accepted rejected
      rw [perform, bind_of_error broke] at ran
      cases ran
  | skip position count =>
      obtain ⟨violation, broke⟩ := skipPositions_of_not_accepted rejected
      rw [perform, broke] at ran
      cases ran

/-- A visit that is made keeps the invariant. -/
theorem Tracks.perform
    (tracks : scan.Tracks inserted)
    (ran : Scan.perform visit scan = .ok () after) :
    after.Tracks (inserted ∪ visit.inserts scan.buffer.size) ∧
      after.nextPos = visit.first + visit.count ∧
      after.frame = scan.frame := by
  obtain ⟨visited, performed, tracked, nextPos, frame⟩ :=
    perform_spec tracks (accepted_of_perform_eq_ok ran)
  rw [ran] at performed
  cases performed
  exact ⟨tracked, nextPos, frame⟩

theorem performAll_cons_eq_ok_iff {rest : List Visit} :
    performAll (visit :: rest) scan = .ok () after ↔
      ∃ next, perform visit scan = .ok () next ∧ performAll rest next = .ok () after := by
  cases first : perform visit scan with
  | error violation broken =>
      rw [performAll, bind_of_error first]
      simp only [reduceCtorEq, false_and, exists_false]
  | ok answer next =>
      rw [performAll, bind_of_ok first]
      constructor
      · intro ran
        exact ⟨next, rfl, ran⟩
      · rintro ⟨same, ⟨rfl⟩, ran⟩
        exact ran

theorem performAll_append_eq_ok_iff {visits rest : List Visit} :
    performAll (visits ++ rest) scan = .ok () after ↔
      ∃ next, performAll visits scan = .ok () next ∧ performAll rest next = .ok () after := by
  induction visits generalizing scan with
  | nil =>
      constructor
      · intro ran
        exact ⟨scan, rfl, ran⟩
      · rintro ⟨same, ⟨rfl⟩, ran⟩
        exact ran
  | cons first visits inductionHypothesis =>
      simp only [List.cons_append, performAll_cons_eq_ok_iff, inductionHypothesis]
      constructor
      · rintro ⟨second, performed, next, followed, ran⟩
        exact ⟨next, ⟨second, performed, followed⟩, ran⟩
      · rintro ⟨next, ⟨second, performed, followed⟩, ran⟩
        exact ⟨second, performed, next, followed, ran⟩

theorem Tracks.performAll
    {visits : List Visit}
    (tracks : scan.Tracks inserted)
    (ran : Scan.performAll visits scan = .ok () after) :
    after.Tracks (inserted ∪ Visit.insertedBy scan.buffer.size visits) ∧
      after.frame = scan.frame := by
  induction visits generalizing scan inserted with
  | nil =>
      cases ran
      rw [Visit.insertedBy, Finset.union_empty]
      exact ⟨tracks, rfl⟩
  | cons visit rest inductionHypothesis =>
      obtain ⟨next, first, followed⟩ := performAll_cons_eq_ok_iff.mp ran
      obtain ⟨tracked, _, frame⟩ := tracks.perform first
      obtain ⟨tracked, sameFrame⟩ := inductionHypothesis tracked followed
      rw [buffer_eq_of_frame frame, Finset.union_assoc] at tracked
      exact ⟨tracked, sameFrame.trans frame⟩

/-- The scan was begun on `buffer`, with any index, and has made these visits,
all of them accepted. -/
def Reached (buffer : Buffer) (visits : List Visit) (scan : Scan) : Prop :=
  ∃ (index : Index) (fits : buffer.size ≤ index.capacity),
    performAll visits (start index buffer fits) = .ok () scan

theorem Reached.buffer_eq
    {buffer : Buffer}
    {visits : List Visit}
    (reached : Reached buffer visits scan) :
    scan.buffer = buffer := by
  obtain ⟨index, fits, ran⟩ := reached
  exact buffer_eq_of_frame ((tracks_start fits).performAll ran).2

/-- A reached scan holds exactly what its visits inserted. -/
theorem Reached.tracks
    {buffer : Buffer}
    {visits : List Visit}
    (reached : Reached buffer visits scan) :
    scan.Tracks (Visit.insertedBy buffer.size visits) := by
  obtain ⟨index, fits, ran⟩ := reached
  have tracked := ((tracks_start fits).performAll ran).1
  rwa [Finset.empty_union] at tracked

section ReachedSearches

variable {buffer : Buffer} {visits : List Visit} {query : Query}

theorem Reached.inside
    (reached : Reached buffer visits scan)
    (accepted : query.Accepted scan) :
    query.position + query.maxLen ≤ buffer.size := by
  have inside := accepted.inside
  rwa [reached.buffer_eq] at inside

theorem Reached.earlier
    (reached : Reached buffer visits scan)
    (accepted : query.Accepted scan) :
    ∀ entry ∈ Visit.insertedBy buffer.size visits, entry < query.position :=
  reached.tracks.lt_of_nextPos_le accepted.order

/-- An accepted search of a reached scan gives the answer for what the visits inserted. -/
theorem Reached.longestMatch_eq
    (reached : Reached buffer visits scan)
    (accepted : query.Accepted scan) :
    ∃ after,
      longestMatch query scan =
        .ok (query.answer buffer (Visit.insertedBy buffer.size visits)) after := by
  obtain ⟨after, ran, _⟩ := longestMatch_spec reached.tracks accepted
  rw [reached.buffer_eq] at ran
  exact ⟨after, ran⟩

theorem Reached.result_eq
    {result : Match}
    (reached : Reached buffer visits scan)
    (accepted : query.Accepted scan)
    (ran : longestMatch query scan = .ok result after) :
    result = query.answer buffer (Visit.insertedBy buffer.size visits) := by
  obtain ⟨_, answered⟩ := reached.longestMatch_eq accepted
  cases ran.symm.trans answered
  rfl

end ReachedSearches

theorem Reached.perform
    {buffer : Buffer}
    {visits : List Visit}
    (reached : Reached buffer visits scan)
    (accepted : visit.Accepted scan) :
    ∃ after,
      Reached buffer (visits ++ [visit]) after ∧
      after.nextPos = visit.first + visit.count := by
  obtain ⟨after, performed, _, nextPos, _⟩ := perform_spec reached.tracks accepted
  obtain ⟨index, fits, ran⟩ := reached
  have ranAll : performAll (visits ++ [visit]) (start index buffer fits) = .ok () after :=
    performAll_append_eq_ok_iff.mpr
      ⟨scan, ran, performAll_cons_eq_ok_iff.mpr ⟨after, performed, rfl⟩⟩
  exact ⟨after, ⟨index, fits, ranAll⟩, nextPos⟩

/-- A new index for the buffer can be scanned. -/
theorem exists_reached_nil
    {buffer : Buffer}
    (addressable : buffer.size < Slot.limit) :
    ∃ scan, Reached buffer [] scan ∧ scan.nextPos = 0 := by
  have fits : buffer.size ≤ (Index.blank buffer.size #[] addressable).capacity := by
    rw [Index.capacity_blank]
  exact ⟨start _ buffer fits, ⟨_, fits, rfl⟩, rfl⟩

/-- The beginning can be skipped first. -/
theorem exists_reached_skip
    {buffer : Buffer}
    {count : Nat}
    (addressable : buffer.size < Slot.limit)
    (nonempty : 0 < count)
    (inside : count ≤ buffer.size) :
    ∃ scan, Reached buffer [.skip 0 count] scan ∧ scan.nextPos = count := by
  obtain ⟨begun, reachedBegun, nextPosBegun⟩ := exists_reached_nil addressable
  have accepted : (Visit.skip 0 count).Accepted begun := by
    refine ⟨nonempty, ?_, Nat.le_of_eq nextPosBegun⟩
    rw [Nat.zero_add, reachedBegun.buffer_eq]
    exact inside
  obtain ⟨scan, reached, nextPos⟩ := reachedBegun.perform accepted
  refine ⟨scan, reached, ?_⟩
  rw [nextPos, Visit.first, Visit.count, Nat.zero_add]

/-- After everything before its position was skipped, a query that obeys the rules is
accepted. -/
theorem exists_reached_accepted
    {buffer : Buffer}
    {query : Query}
    (addressable : buffer.size < Slot.limit)
    (nonempty : 0 < query.position)
    (depth : 1 ≤ query.maxDepth)
    (nice : query.niceLen ≤ query.maxLen)
    (inside : query.position + query.maxLen ≤ buffer.size) :
    ∃ scan, Reached buffer [.skip 0 query.position] scan ∧ query.Accepted scan := by
  obtain ⟨scan, reached, nextPos⟩ :=
    exists_reached_skip addressable nonempty (Nat.le_of_add_right_le inside)
  refine ⟨scan, reached, depth, nice, ?_, Nat.le_of_eq nextPos⟩
  rw [reached.buffer_eq]
  exact inside

end Scan

end LempelZiv
