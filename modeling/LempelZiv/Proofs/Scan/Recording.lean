import LempelZiv.Proofs.Scan.Confluence

/-!
Contract: which visits record their position.

Owns:
- what it means that a position is the newest entry of its buckets;
- the visits that make their last position the newest entry, and the tables that visits
  leave which insert the same positions or none;
- the searches that leave the tables as a skip of their position would.

A skip goes by the bytes that are left from a position, and a search by the bytes that it
permits.  The two differ where a search permits fewer than five of five or more bytes.
-/

namespace LempelZiv

/-- The position is the newest entry of both of its buckets. -/
structure Index.Newest (index : Index) (buffer : Buffer) (position : Nat) : Prop where
  short : (index.occupants (buffer.buckets position)).short.position? = some position
  long : (index.occupants (buffer.buckets position)).long.position? = some position

namespace Scan

variable {scan after left right : Scan} {inserted : Finset Nat} {visit : Visit}
  {query : Query} {position count : Nat}

/-! ### Tables and inserted positions -/

/-- The last visited position is the newest entry of its buckets if it was inserted. -/
theorem Tracks.newest_iff
    (tracks : scan.Tracks inserted)
    (last : scan.nextPos = position + 1) :
    scan.index.Newest scan.buffer position ↔ position ∈ inserted := by
  have newest : ∀ {positions : Finset Nat}, positions ⊆ inserted → position ∈ positions →
      newest? positions = some position := by
    intro positions within listed
    refine newest?_eq_some_iff.mpr ⟨listed, fun other present => ?_⟩
    have visited := tracks.visited other (within present)
    omega
  constructor
  · intro recorded
    have short := recorded.short
    simp only [Index.occupants, tracks.holds.recent, newest?_eq_some_iff] at short
    exact (Finset.mem_filter.mp short.1).1
  · intro member
    constructor
    · simp only [Index.occupants, tracks.holds.recent]
      exact newest (Finset.filter_subset _ _) (Finset.mem_filter.mpr ⟨member, rfl⟩)
    · simp only [Index.occupants, tracks.holds.heads]
      exact newest (Finset.filter_subset _ _) (Finset.mem_filter.mpr ⟨member, rfl⟩)

/-- Scans that have inserted the same positions and differ in no more have one index. -/
theorem Tracks.index_eq
    (tracks : left.Tracks inserted)
    (tracksRight : right.Tracks inserted)
    (sameFrame : left.frame = right.frame) :
    left.index = right.index := by
  have sameBuffer : right.buffer = left.buffer := (congrArg Frame.buffer sameFrame).symm
  have agrees := tracks.holds.agrees (sameBuffer ▸ tracksRight.holds)
  exact agrees.eq (congrArg Frame.capacity sameFrame) (congrArg Frame.journal sameFrame)

/-! ### Visits -/

/-- The last position of a visit becomes the newest entry if the visit inserts it. -/
theorem newest_perform_iff
    (tracks : scan.Tracks inserted)
    (ran : perform visit scan = .ok () after)
    (last : visit.first + visit.count = position + 1) :
    after.index.Newest scan.buffer position ↔ position ∈ visit.inserts scan.buffer.size := by
  obtain ⟨tracked, nextPos, frame⟩ := tracks.perform ran
  have accepted := accepted_of_perform_eq_ok ran
  have nonempty := Visit.count_pos accepted
  have unvisited : position ∉ inserted := by
    intro member
    have earlier := tracks.lt_of_nextPos_le (Visit.nextPos_le_first accepted) position member
    omega
  have recorded := tracked.newest_iff (nextPos.trans last)
  rw [buffer_eq_of_frame frame] at recorded
  rw [recorded, Finset.mem_union, or_iff_right unvisited]

/-- Visits that insert the same positions leave the same tables. -/
theorem index_perform_congr
    {other : Visit}
    (tracks : scan.Tracks inserted)
    (ran : perform visit scan = .ok () left)
    (ranOther : perform other scan = .ok () right)
    (same : visit.inserts scan.buffer.size = other.inserts scan.buffer.size) :
    left.index = right.index := by
  obtain ⟨tracked, _, frame⟩ := tracks.perform ran
  obtain ⟨trackedOther, _, frameOther⟩ := tracks.perform ranOther
  rw [same] at tracked
  exact tracked.index_eq trackedOther (frame.trans frameOther.symm)

/-- A visit that inserts nothing leaves the tables as they were. -/
theorem index_perform_of_inserts_eq_empty
    (tracks : scan.Tracks inserted)
    (ran : perform visit scan = .ok () after)
    (nothing : visit.inserts scan.buffer.size = ∅) :
    after.index = scan.index := by
  obtain ⟨tracked, _, frame⟩ := tracks.perform ran
  rw [nothing, Finset.union_empty] at tracked
  exact tracked.index_eq tracks frame

/-- A search makes its position the newest entry if it permits five bytes. -/
theorem newest_search_iff
    (tracks : scan.Tracks inserted)
    (ran : perform (.search query) scan = .ok () after) :
    after.index.Newest scan.buffer query.position ↔ minLookahead ≤ query.maxLen := by
  have last : (Visit.search query).first + (Visit.search query).count = query.position + 1 := rfl
  rw [newest_perform_iff tracks ran last, Visit.inserts]
  split
  · rename_i wide
    simp only [Finset.mem_singleton, wide]
  · rename_i narrow
    simp only [Finset.notMem_empty, narrow]

/-- A skip makes its last position the newest entry if five bytes are left from it. -/
theorem newest_skip_iff
    (tracks : scan.Tracks inserted)
    (ran : perform (.skip position (count + 1)) scan = .ok () after) :
    after.index.Newest scan.buffer (position + count) ↔
      position + count + minLookahead ≤ scan.buffer.size := by
  have last : (Visit.skip position (count + 1)).first + (Visit.skip position (count + 1)).count =
      position + count + 1 := rfl
  rw [newest_perform_iff tracks ran last, Visit.inserts, Finset.mem_filter, Finset.mem_Ico]
  omega

/-- A search leaves the tables that a skip of its position leaves if it permits five bytes
or so many are not left; only if it permits five does it record its position. -/
theorem longestMatch_records_iff
    {buffer : Buffer}
    {visits : List Visit}
    (reached : Reached buffer visits scan)
    (accepted : query.Accepted scan)
    (inside : query.position < buffer.size) :
    ∃ result searched skipped,
      longestMatch query scan = .ok result searched ∧
      skipPositions query.position 1 scan = .ok () skipped ∧
      (searched.index = skipped.index ↔
        minLookahead ≤ query.maxLen ∨ buffer.size < query.position + minLookahead) ∧
      (searched.index.Newest buffer query.position ↔ minLookahead ≤ query.maxLen) ∧
      (skipped.index.Newest buffer query.position ↔
        query.position + minLookahead ≤ buffer.size) ∧
      (query.maxLen < minLookahead → searched.index = scan.index) := by
  have sameBuffer := reached.buffer_eq
  subst sameBuffer
  have tracks := reached.tracks
  have skipAccepted : scan.SkipAccepted query.position 1 :=
    ⟨Nat.one_pos, inside, accepted.order⟩
  obtain ⟨searched, searching, _⟩ := longestMatch_spec tracks accepted
  obtain ⟨skipped, skipping, _⟩ := skipPositions_spec tracks skipAccepted
  have performed : perform (.search query) scan = .ok () searched := bind_of_ok searching _
  have performedSkip : perform (.skip query.position 1) scan = .ok () skipped := skipping
  have newestSearched := newest_search_iff tracks performed
  have newestSkipped := newest_skip_iff tracks performedSkip
  rw [Nat.add_zero] at newestSkipped
  refine ⟨_, searched, skipped, searching, skipping, ?_, newestSearched, newestSkipped, ?_⟩
  · constructor
    · intro same
      rw [same, newestSkipped] at newestSearched
      exact (Visit.unclipped_iff accepted).mpr newestSearched.symm
    · intro unclipped
      apply index_perform_congr tracks performed performedSkip
      exact @Visit.inserts_of_unclipped scan (.search query) accepted unclipped
  · intro narrow
    apply index_perform_of_inserts_eq_empty tracks performed
    exact if_neg (Nat.not_le.mpr narrow)

/-- A search that permits all five bytes that are left. -/
theorem longestMatch_records_aaaaaaaa :
    ∃ scan,
      Reached #[97, 97, 97, 97, 97, 97, 97, 97] [.skip 0 3] scan ∧
      (⟨3, 2, 5, 5, 1⟩ : Query).Accepted scan ∧
      3 < 8 ∧
      ∃ searched skipped,
        longestMatch ⟨3, 2, 5, 5, 1⟩ scan = .ok ⟨5, 1⟩ searched ∧
        skipPositions 3 1 scan = .ok () skipped ∧
        searched.index = skipped.index ∧
        searched.index.Newest #[97, 97, 97, 97, 97, 97, 97, 97] 3 := by
  have addressable : (#[97, 97, 97, 97, 97, 97, 97, 97] : Buffer).size < Slot.limit := by decide
  obtain ⟨scan, reached, accepted⟩ :=
    @exists_reached_accepted _ ⟨3, 2, 5, 5, 1⟩ addressable (by decide) (by decide) (by decide)
      (by decide)
  have inside : 3 < 8 := by decide
  obtain ⟨result, searched, skipped, searching, skipping, same, newest, _⟩ :=
    longestMatch_records_iff reached accepted inside
  have found : result = ⟨5, 1⟩ := by
    rw [reached.result_eq accepted searching, Query.answer_eq_chainWalk (by decide)]
    decide +kernel
  exact ⟨scan, reached, accepted, inside, searched, skipped, found ▸ searching, skipping,
    same.mpr (.inl (by decide)), newest.mpr (by decide)⟩

/-- A search that permits four of six bytes does not record its position, as a skip of the
position would. -/
theorem longestMatch_unrecorded_aaaaaa :
    ∃ scan result searched skipped,
      Reached #[97, 97, 97, 97, 97, 97] [] scan ∧
      (⟨0, 0, 4, 4, 1⟩ : Query).Accepted scan ∧
      longestMatch ⟨0, 0, 4, 4, 1⟩ scan = .ok result searched ∧
      skipPositions 0 1 scan = .ok () skipped ∧
      0 + minLookahead ≤ 6 ∧
      skipped.index.Newest #[97, 97, 97, 97, 97, 97] 0 ∧
      ¬ searched.index.Newest #[97, 97, 97, 97, 97, 97] 0 ∧
      searched.index ≠ skipped.index := by
  have addressable : (#[97, 97, 97, 97, 97, 97] : Buffer).size < Slot.limit := by decide
  obtain ⟨scan, reached, nextPos⟩ := exists_reached_nil addressable
  have tracks := reached.tracks
  have sameBuffer := reached.buffer_eq
  have size : scan.buffer.size = 6 := congrArg Array.size sameBuffer
  have left : 0 + minLookahead ≤ 6 := by decide
  have accepted : (⟨0, 0, 4, 4, 1⟩ : Query).Accepted scan :=
    ⟨by decide, by decide, by simp [size], Nat.le_of_eq nextPos⟩
  have skipAccepted : scan.SkipAccepted 0 1 :=
    ⟨Nat.one_pos, by simp [size], Nat.le_of_eq nextPos⟩
  obtain ⟨searched, searching, _⟩ := longestMatch_spec tracks accepted
  obtain ⟨skipped, skipping, _⟩ := skipPositions_spec tracks skipAccepted
  have performed : perform (.search ⟨0, 0, 4, 4, 1⟩) scan = .ok () searched :=
    bind_of_ok searching _
  have newestSearched := newest_search_iff tracks performed
  have newestSkipped := @newest_skip_iff _ skipped _ 0 0 tracks skipping
  rw [sameBuffer] at newestSearched newestSkipped
  have recorded : skipped.index.Newest #[97, 97, 97, 97, 97, 97] 0 := newestSkipped.mpr left
  have unrecorded : ¬ searched.index.Newest #[97, 97, 97, 97, 97, 97] 0 := by
    rw [newestSearched]
    decide
  refine ⟨scan, _, searched, skipped, reached, accepted, searching, skipping, left, recorded,
    unrecorded, ?_⟩
  intro same
  exact unrecorded (same ▸ recorded)

end Scan

end LempelZiv
