import LempelZiv.Proofs.Search.Soundness

/-!
Contract: a search answers the nearest source of what it answers.

Owns:
- what it takes for the source of a match to be the nearest;
- the proof that the short match and the bytewise walk, however early it stops, have no
  nearer source;
- the same for every search of every scan that a run reaches.

Does not own: whether a longer match exists farther back.  The limits of a search may hide
one, but they never replace a source by a farther one: whatever a walk does not reach is
older than what it answers.
-/

namespace LempelZiv

namespace Query

/-- The source of the match is an inserted position that has its bytes, and no later one
before the query's position has them. -/
structure Nearest (query : Query) (buffer : Buffer) (inserted : Finset Nat)
    (result : Match) : Prop where
  reaches : result.offset ≤ query.position
  source : query.position - result.offset ∈ inserted
  repeats :
    buffer.Repeats query.position (query.position - result.offset) result.length
  nearest : ∀ other ∈ inserted,
    query.position - result.offset < other → other < query.position →
      ¬ buffer.Repeats query.position other result.length

variable {query : Query} {buffer : Buffer} {inserted : Finset Nat} {candidate other : Nat}

/-- A position that shares three bytes is no newer than the newest one of the short
bucket. -/
theorem not_repeats_of_shortCandidate
    (wide : 3 ≤ query.maxLen)
    (inside : query.position + query.maxLen ≤ buffer.size)
    (newest : query.shortCandidate buffer inserted = some candidate)
    (member : other ∈ inserted)
    (later : candidate < other)
    (earlier : other < query.position) :
    ¬ buffer.Repeats query.position other 3 := by
  intro repeats
  have shared := (Buffer.repeats_iff_le_sharedLength inside (Nat.le_of_lt earlier) wide).mp
    repeats
  have entry : other ∈
      Index.shortEntries buffer inserted (buffer.buckets query.position).short :=
    Finset.mem_filter.mpr ⟨member, (Buffer.short_buckets_eq_of_shared shared).symm⟩
  exact absurd later (Nat.not_lt.mpr ((newest?_eq_some_iff.mp newest).2 other entry))

/-- A position that shares as much as a candidate of the walk is no newer than it if all
candidates before share less. -/
theorem not_repeats_of_candidates
    (inside : query.position + query.maxLen ≤ buffer.size)
    {newer older : List Nat}
    (split : query.candidates buffer inserted = newer ++ candidate :: older)
    (shared : 4 ≤ query.sharedWith buffer candidate)
    (shorter : ∀ other ∈ newer,
      query.sharedWith buffer other < query.sharedWith buffer candidate)
    (member : other ∈ inserted)
    (later : candidate < other)
    (earlier : other < query.position) :
    ¬ buffer.Repeats query.position other (query.sharedWith buffer candidate) := by
  intro repeats
  have asLong : query.sharedWith buffer candidate ≤ query.sharedWith buffer other :=
    (Buffer.repeats_iff_le_sharedLength inside (Nat.le_of_lt earlier)
      (query.sharedWith_le buffer candidate)).mp repeats
  have entry := mem_longEntries_of_shared member (Nat.le_trans shared asLong)
  -- the walk may stop early, but what it leaves out comes after the candidate
  have whole : newestFirst
      (Index.longEntries buffer inserted (buffer.buckets query.position).long) =
        newer ++ candidate :: (older ++ (newestFirst (Index.longEntries buffer inserted
          (buffer.buckets query.position).long)).drop query.maxDepth) := by
    rw [← List.cons_append, ← List.append_assoc, ← split]
    exact (List.take_append_drop query.maxDepth _).symm
  have visited := mem_of_newestFirst_eq_append whole entry later
  exact absurd asLong (Nat.not_le.mpr (shorter other visited))

/-- An answered match has the nearest source of its length. -/
theorem Origin.nearest
    {result : Match}
    (origin : query.Origin buffer inserted result)
    (inside : query.position + query.maxLen ≤ buffer.size)
    (earlier : ∀ entry ∈ inserted, entry < query.position)
    (found : 0 < result.offset) :
    query.Nearest buffer inserted result := by
  have genuine : query.Genuine buffer inserted result := by
    rcases origin.unimproved_or_genuine inside earlier with rfl | genuine
    · exact absurd found (Nat.lt_irrefl 0)
    · exact genuine
  refine ⟨genuine.reaches, genuine.source, genuine.agrees, ?_⟩
  clear genuine
  intro other member later earlierOther
  cases origin with
  | unimproved => exact absurd found (Nat.lt_irrefl 0)
  | short wide newest =>
      have before := earlier _ (mem_of_shortCandidate newest)
      rw [Nat.sub_sub_self (Nat.le_of_lt before)] at later
      exact not_repeats_of_shortCandidate (Nat.le_trans (by decide) wide) inside newest member
        later earlierOther
  | long split shared longer exceeds =>
      have before := earlier _ (mem_of_candidates_eq_append split)
      rw [matchOf, Nat.sub_sub_self (Nat.le_of_lt before)] at later
      exact not_repeats_of_candidates inside split shared exceeds member later earlierOther

end Query

namespace Scan

/-- Every accepted search of every reached scan, whatever its limits, answers the nearest
source of what it answers. -/
theorem longestMatch_nearest
    {buffer : Buffer}
    {visits : List Visit}
    {scan : Scan}
    {query : Query}
    (reached : Reached buffer visits scan)
    (accepted : query.Accepted scan) :
    ∃ result after,
      longestMatch query scan = .ok result after ∧
      (0 < result.offset →
        query.Nearest buffer (Visit.insertedBy buffer.size visits) result) := by
  obtain ⟨after, ran⟩ := reached.longestMatch_eq accepted
  have origin := query.answer_origin buffer (Visit.insertedBy buffer.size visits)
  exact ⟨_, after, ran, origin.nearest (reached.inside accepted) (reached.earlier accepted)⟩

/-- One node of the chain hides the eight bytes that `abcdefgh` shares with the beginning;
the four bytes of the newest node are answered. -/
theorem longestMatch_nearest_abcdefgh :
    ∃ scan,
      Reached #[97, 98, 99, 100, 101, 102, 103, 104, 88, 97, 98, 99, 100, 89, 97, 98, 99, 100,
        101, 102, 103, 104] [.skip 0 14] scan ∧
      (Query.mk 14 2 8 8 1).Accepted scan ∧
      ∃ after,
        longestMatch (Query.mk 14 2 8 8 1) scan = .ok ⟨4, 5⟩ after ∧
        (Query.mk 14 2 8 8 1).Nearest
          #[97, 98, 99, 100, 101, 102, 103, 104, 88, 97, 98, 99, 100, 89, 97, 98, 99, 100,
            101, 102, 103, 104] (Visit.insertedBy 22 [.skip 0 14]) ⟨4, 5⟩ := by
  have addressable : 22 < Slot.limit := by decide
  obtain ⟨scan, reached, accepted⟩ := @exists_reached_accepted
    #[97, 98, 99, 100, 101, 102, 103, 104, 88, 97, 98, 99, 100, 89, 97, 98, 99, 100, 101, 102,
      103, 104] ⟨14, 2, 8, 8, 1⟩ addressable (by decide) (by decide) (by decide) (by decide)
  obtain ⟨result, after, ran, nearest⟩ := longestMatch_nearest reached accepted
  have equal : result = ⟨4, 5⟩ := by
    rw [reached.result_eq accepted ran, Query.answer_eq_chainWalk (by decide)]
    decide +kernel
  subst equal
  exact ⟨scan, reached, accepted, after, ran, nearest (by decide)⟩

end Scan

end LempelZiv
