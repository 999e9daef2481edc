import LempelZiv.Proofs.Scan.Visits
import Mathlib.Data.Finset.Lattice.Fold
import Mathlib.Order.Lattice.Nat

/-!
Contract: the answer of a search that may inspect every inserted position.

Owns:
- the answer as a choice among all inserted positions, without hash chains;
- the agreement of the bytewise walk over a whole chain with that choice;
- the same for every search of sufficient depth on every reached scan.

Does not own: searches whose depth cuts the chain short.

Positions outside the chain of the query share fewer than four bytes with it, so
the walk misses none of those that the choice can make.  Only the match of three
bytes still speaks of a bucket: a collision there hides an older candidate.
-/

namespace LempelZiv

namespace Query

/-- The most bytes that an inserted position shares with the query's. -/
def mostShared (query : Query) (buffer : Buffer) (inserted : Finset Nat) : Nat :=
  inserted.sup (query.sharedWith buffer)

/-- The match of three bytes with the newest position of the short bucket, if it
shares them and the query asks for so few. -/
def shortest (query : Query) (buffer : Buffer) (inserted : Finset Nat) : Match :=
  match query.shortCandidate buffer inserted with
  | some candidate =>
      if query.bestLen < 3 ∧ 3 ≤ query.sharedWith buffer candidate then
        ⟨3, query.position - candidate⟩
      else
        .unimproved query.bestLen
  | none => .unimproved query.bestLen

/-- The choice among all inserted positions: the newest that shares enough, else
the newest of those that share most, else the match of three bytes. -/
def exhaustive (query : Query) (buffer : Buffer) (inserted : Finset Nat) : Match :=
  if query.enough ≤ query.bestLen then
    .unimproved query.bestLen
  else
    match newest? (inserted.filter (query.enough ≤ query.sharedWith buffer ·)) with
    | some candidate => query.matchOf buffer candidate
    | none =>
        let length := query.mostShared buffer inserted
        if 4 ≤ length ∧ query.bestLen < length then
          match newest? (inserted.filter (query.sharedWith buffer · = length)) with
          | some candidate => query.matchOf buffer candidate
          | none => .unimproved query.bestLen
        else
          query.shortest buffer inserted

variable {query : Query} {buffer : Buffer} {inserted : Finset Nat} {chosen : Nat}

/-! ### The walk up to a chosen candidate -/

/-- Candidates that share less than the chosen one, and not enough, do not keep
the walk from taking it. -/
theorem bestAlong_append
    {newer : List Nat}
    (older : List Nat)
    {best : Match}
    (fewer : ∀ candidate ∈ newer, query.sharedWith buffer candidate < query.enough)
    (shorter : ∀ candidate ∈ newer,
      query.sharedWith buffer candidate < query.sharedWith buffer chosen)
    (shared : 4 ≤ query.sharedWith buffer chosen)
    (longer : best.length < query.sharedWith buffer chosen) :
    query.bestAlong buffer (newer ++ chosen :: older) best =
      if query.niceLen ≤ query.sharedWith buffer chosen then
        query.matchOf buffer chosen
      else
        query.bestAlong buffer older (query.matchOf buffer chosen) := by
  induction newer generalizing best with
  | nil => rw [List.nil_append, bestAlong, if_pos ⟨shared, longer⟩]
  | cons candidate rest inductionHypothesis =>
      have here : candidate ∈ candidate :: rest := List.mem_cons_self ..
      have notEnough := fewer candidate here
      have restFewer : ∀ other ∈ rest, query.sharedWith buffer other < query.enough :=
        fun other member => fewer other (List.mem_cons_of_mem candidate member)
      have restShorter : ∀ other ∈ rest,
          query.sharedWith buffer other < query.sharedWith buffer chosen :=
        fun other member => shorter other (List.mem_cons_of_mem candidate member)
      rw [List.cons_append, bestAlong]
      by_cases taken : 4 ≤ query.sharedWith buffer candidate ∧
          best.length < query.sharedWith buffer candidate
      · have unfinished : ¬ query.niceLen ≤ query.sharedWith buffer candidate := by
          rw [enough] at notEnough
          omega
        rw [if_pos taken, if_neg unfinished]
        exact inductionHypothesis restFewer restShorter (shorter candidate here)
      · rw [if_neg taken]
        exact inductionHypothesis restFewer restShorter longer

theorem exists_newestFirst_eq_append
    {positions : Finset Nat}
    (member : chosen ∈ positions) :
    ∃ newer older,
      newestFirst positions = newer ++ chosen :: older ∧
      (∀ other ∈ newer, other ∈ positions ∧ chosen < other) ∧
      ∀ other ∈ older, other ∈ positions := by
  obtain ⟨newer, older, whole⟩ := List.append_of_mem (mem_newestFirst.mpr member)
  have ordered := newestFirst_pairwise positions
  rw [whole, List.pairwise_append] at ordered
  refine ⟨newer, older, whole, fun other listed => ⟨?_, ?_⟩, fun other listed => ?_⟩
  · rw [← mem_newestFirst, whole]
    exact List.mem_append_left _ listed
  · exact ordered.2.2 other listed chosen (List.mem_cons_self ..)
  · rw [← mem_newestFirst, whole]
    exact List.mem_append_right _ (List.mem_cons_of_mem chosen listed)

/-! ### The whole chain -/

theorem candidates_eq_newestFirst (depth : inserted.card ≤ query.maxDepth) :
    query.candidates buffer inserted =
      newestFirst
        (Index.longEntries buffer inserted (buffer.buckets query.position).long) := by
  apply List.take_of_length_le
  rw [length_newestFirst]
  exact Nat.le_trans (Finset.card_filter_le _ _) depth

/-- The walk over a whole chain reaches a chosen position if all newer ones share
less than it, and not enough. -/
theorem bestAlong_candidates
    (depth : inserted.card ≤ query.maxDepth)
    (member : chosen ∈ inserted)
    (shared : 4 ≤ query.sharedWith buffer chosen)
    (newest : ∀ other ∈ inserted, chosen < other →
      query.sharedWith buffer other < query.enough ∧
        query.sharedWith buffer other < query.sharedWith buffer chosen)
    {best : Match}
    (longer : best.length < query.sharedWith buffer chosen) :
    ∃ older : List Nat,
      (∀ other ∈ older, other ∈ inserted) ∧
      query.bestAlong buffer (query.candidates buffer inserted) best =
        if query.niceLen ≤ query.sharedWith buffer chosen then
          query.matchOf buffer chosen
        else
          query.bestAlong buffer older (query.matchOf buffer chosen) := by
  obtain ⟨newer, older, whole, newerThan, olderMembers⟩ :=
    exists_newestFirst_eq_append (mem_longEntries_of_shared member shared)
  have newerInserted : ∀ other ∈ newer, other ∈ inserted := by
    intro other listed
    exact (Finset.mem_filter.mp (newerThan other listed).1).1
  refine ⟨older, fun other listed => (Finset.mem_filter.mp (olderMembers other listed)).1, ?_⟩
  rw [candidates_eq_newestFirst depth, whole]
  refine bestAlong_append older ?_ ?_ shared longer
  · intro other listed
    exact (newest other (newerInserted other listed) (newerThan other listed).2).1
  · intro other listed
    exact (newest other (newerInserted other listed) (newerThan other listed).2).2

theorem opening_eq_shortest (wide : 3 ≤ query.maxLen) :
    query.opening buffer (query.shortCandidate buffer inserted) =
      query.shortest buffer inserted := by
  unfold shortest
  cases query.shortCandidate buffer inserted with
  | none => rfl
  | some candidate =>
      have same : buffer.shortWindow candidate = buffer.shortWindow query.position ↔
          3 ≤ query.sharedWith buffer candidate := by
        rw [eq_comm, Buffer.shortWindow_eq_iff_le_sharedLength wide, sharedWith]
      simp only [opening, same]

/-! ### The choice -/

/-- The newest position that shares enough is answered. -/
theorem bestAlong_of_enough
    (depth : inserted.card ≤ query.maxDepth)
    {best : Match}
    (small : best.length < query.enough)
    (newest : newest? (inserted.filter (query.enough ≤ query.sharedWith buffer ·)) =
      some chosen) :
    query.bestAlong buffer (query.candidates buffer inserted) best =
      query.matchOf buffer chosen := by
  obtain ⟨member, greatest⟩ := newest?_eq_some_iff.mp newest
  obtain ⟨present, sufficient⟩ := Finset.mem_filter.mp member
  have nice : query.niceLen ≤ query.sharedWith buffer chosen :=
    Nat.le_trans (Nat.le_max_left _ _) sufficient
  have shared : 4 ≤ query.sharedWith buffer chosen :=
    Nat.le_trans (Nat.le_max_right _ _) sufficient
  have newerFewer : ∀ other ∈ inserted, chosen < other →
      query.sharedWith buffer other < query.enough := by
    intro other otherPresent later
    by_contra reaches
    have bounded := greatest other
      (Finset.mem_filter.mpr ⟨otherPresent, Nat.le_of_not_lt reaches⟩)
    exact absurd later (Nat.not_lt.mpr bounded)
  obtain ⟨older, _, walked⟩ := bestAlong_candidates depth present shared
    (fun other otherPresent later =>
      ⟨newerFewer other otherPresent later,
        Nat.lt_of_lt_of_le (newerFewer other otherPresent later) sufficient⟩)
    (Nat.lt_of_lt_of_le small sufficient)
  rw [walked, if_pos nice]

/-- If none shares enough, the newest of those that share most is answered. -/
theorem bestAlong_of_mostShared
    (depth : inserted.card ≤ query.maxDepth)
    {best : Match}
    (fewer : ∀ other ∈ inserted, query.sharedWith buffer other < query.enough)
    (four : 4 ≤ query.mostShared buffer inserted)
    (longer : best.length < query.mostShared buffer inserted)
    (newest : newest? (inserted.filter
      (query.sharedWith buffer · = query.mostShared buffer inserted)) = some chosen) :
    query.bestAlong buffer (query.candidates buffer inserted) best =
      query.matchOf buffer chosen := by
  obtain ⟨member, greatest⟩ := newest?_eq_some_iff.mp newest
  obtain ⟨present, most⟩ := Finset.mem_filter.mp member
  have bounded : ∀ other ∈ inserted,
      query.sharedWith buffer other ≤ query.sharedWith buffer chosen := by
    intro other otherPresent
    rw [most]
    exact Finset.le_sup otherPresent
  have newerShorter : ∀ other ∈ inserted, chosen < other →
      query.sharedWith buffer other < query.sharedWith buffer chosen := by
    intro other otherPresent later
    refine Nat.lt_of_le_of_ne (bounded other otherPresent) fun same => ?_
    have noLater := greatest other
      (Finset.mem_filter.mpr ⟨otherPresent, same.trans most⟩)
    exact absurd later (Nat.not_lt.mpr noLater)
  rw [← most] at four longer
  obtain ⟨older, olderPresent, walked⟩ := bestAlong_candidates depth present four
    (fun other otherPresent later =>
      ⟨fewer other otherPresent, newerShorter other otherPresent later⟩) longer
  rw [walked]
  split
  · rfl
  · apply bestAlong_eq_of_none
    intro other listed taken
    exact absurd taken.2 (Nat.not_lt.mpr (bounded other (olderPresent other listed)))

theorem exists_newest_of_mostShared (positive : 0 < query.mostShared buffer inserted) :
    ∃ candidate, newest? (inserted.filter
      (query.sharedWith buffer · = query.mostShared buffer inserted)) = some candidate := by
  have inhabited : inserted.Nonempty := by
    by_contra uninhabited
    rw [Finset.not_nonempty_iff_eq_empty] at uninhabited
    rw [mostShared, uninhabited, Finset.sup_empty] at positive
    exact absurd positive (Nat.lt_irrefl 0)
  obtain ⟨candidate, member, most⟩ :=
    Finset.exists_mem_eq_sup inserted inhabited (query.sharedWith buffer)
  apply Option.ne_none_iff_exists'.mp
  intro vacant
  have listed : candidate ∈ inserted.filter
      (query.sharedWith buffer · = query.mostShared buffer inserted) :=
    Finset.mem_filter.mpr ⟨member, most.symm⟩
  rw [newest?_eq_none_iff.mp vacant] at listed
  cases listed

theorem bestAmong_eq_exhaustive
    (wide : minLookahead ≤ query.maxLen)
    (depth : inserted.card ≤ query.maxDepth) :
    query.bestAmong buffer inserted = query.exhaustive buffer inserted := by
  unfold bestAmong exhaustive
  by_cases finished : query.enough ≤ query.bestLen
  · have both : 4 ≤ query.bestLen ∧ query.niceLen ≤ query.bestLen := by
      rw [enough] at finished
      omega
    rw [if_pos both, if_pos finished]
  have unfinished : ¬ (4 ≤ query.bestLen ∧ query.niceLen ≤ query.bestLen) := by
    rw [enough] at finished
    omega
  rw [if_neg unfinished, if_neg finished]
  have openingBounded :
      (query.opening buffer (query.shortCandidate buffer inserted)).length ≤
        max query.bestLen 3 :=
    opening_length_le _
  cases sufficient : newest?
      (inserted.filter (query.enough ≤ query.sharedWith buffer ·)) with
  | some chosen =>
      apply bestAlong_of_enough depth _ sufficient
      rw [enough] at finished ⊢
      omega
  | none =>
      have fewer : ∀ other ∈ inserted, query.sharedWith buffer other < query.enough := by
        have insufficient := Finset.filter_eq_empty_iff.mp (newest?_eq_none_iff.mp sufficient)
        exact fun other member => Nat.lt_of_not_le (insufficient member)
      by_cases improves : 4 ≤ query.mostShared buffer inserted ∧
          query.bestLen < query.mostShared buffer inserted
      · obtain ⟨chosen, newest⟩ :=
          exists_newest_of_mostShared (Nat.lt_of_lt_of_le (by decide) improves.1)
        simp only [if_pos improves, newest]
        exact bestAlong_of_mostShared depth fewer improves.1 (by omega) newest
      · simp only [if_neg improves]
        rw [← opening_eq_shortest (Nat.le_trans (by decide) wide)]
        apply bestAlong_eq_of_none
        intro candidate listed taken
        have bounded : query.sharedWith buffer candidate ≤ query.mostShared buffer inserted :=
          Finset.le_sup (mem_of_mem_candidates listed)
        have atLeast : query.bestLen ≤
            (query.opening buffer (query.shortCandidate buffer inserted)).length :=
          le_opening_length _
        omega

/-- If nothing but the longest permissible match ends the search, the newest of the
positions that share most is chosen. -/
theorem exhaustive_of_maxLen_le_niceLen
    (patient : query.maxLen ≤ query.niceLen)
    (four : 4 ≤ query.mostShared buffer inserted)
    (longer : query.bestLen < query.mostShared buffer inserted) :
    ∃ candidate,
      newest? (inserted.filter
        (query.sharedWith buffer · = query.mostShared buffer inserted)) = some candidate ∧
      query.exhaustive buffer inserted = query.matchOf buffer candidate := by
  obtain ⟨candidate, newest⟩ :=
    exists_newest_of_mostShared (Nat.lt_of_lt_of_le (by decide) four)
  have attained := (Finset.mem_filter.mp (newest?_eq_some_iff.mp newest).1).2
  have permitted := query.sharedWith_le buffer candidate
  have limit : query.maxLen ≤ query.enough := Nat.le_trans patient (Nat.le_max_left _ _)
  refine ⟨candidate, newest, ?_⟩
  rw [exhaustive, if_neg (by omega)]
  cases sufficient : newest?
      (inserted.filter (query.enough ≤ query.sharedWith buffer ·)) with
  | none => simp only [if_pos (And.intro four longer), newest]
  | some chosen =>
      obtain ⟨member, enough⟩ :=
        Finset.mem_filter.mp (newest?_eq_some_iff.mp sufficient).1
      -- a match that suffices is as long as permitted, so it shares most
      have most : query.sharedWith buffer chosen ≤ query.mostShared buffer inserted :=
        Finset.le_sup member
      have same : inserted.filter (query.enough ≤ query.sharedWith buffer ·) =
          inserted.filter
            (query.sharedWith buffer · = query.mostShared buffer inserted) := by
        apply Finset.filter_congr
        intro other present
        have bounded : query.sharedWith buffer other ≤ query.mostShared buffer inserted :=
          Finset.le_sup present
        omega
      rw [same, newest] at sufficient
      cases sufficient
      rfl

end Query

namespace Scan

/-- Every accepted search of every reached scan that may inspect as many nodes as
positions were inserted answers the choice among all of them. -/
theorem longestMatch_exhaustive
    {buffer : Buffer}
    {visits : List Visit}
    {scan : Scan}
    {query : Query}
    (reached : Reached buffer visits scan)
    (accepted : query.Accepted scan)
    (wide : minLookahead ≤ query.maxLen)
    (depth : (Visit.insertedBy buffer.size visits).card ≤ query.maxDepth) :
    ∃ after,
      longestMatch query scan =
        .ok (query.exhaustive buffer (Visit.insertedBy buffer.size visits)) after := by
  obtain ⟨after, ran, _⟩ := longestMatch_spec reached.tracks accepted
  rw [reached.buffer_eq, Query.answer, if_neg (Nat.not_lt.mpr wide),
    Query.bestAmong_eq_exhaustive wide depth] at ran
  exact ⟨after, ran⟩

/-- After `abcabcdX` was skipped, `abcdabcY` is searched through all eight positions.  The
fourth shares four bytes with it, the first no more than three. -/
theorem longestMatch_exhaustive_abcabcd :
    ∃ scan,
      Reached #[97, 98, 99, 97, 98, 99, 100, 88, 97, 98, 99, 100, 97, 98, 99, 89]
        [.skip 0 8] scan ∧
      (Query.mk 8 0 8 8 8).Accepted scan ∧
      minLookahead ≤ 8 ∧
      (Visit.insertedBy 16 [.skip 0 8]).card ≤ 8 ∧
      (Query.mk 8 0 8 8 8).exhaustive
        #[97, 98, 99, 97, 98, 99, 100, 88, 97, 98, 99, 100, 97, 98, 99, 89]
        (Visit.insertedBy 16 [.skip 0 8]) = ⟨4, 5⟩ ∧
      ∃ after, longestMatch (Query.mk 8 0 8 8 8) scan = .ok ⟨4, 5⟩ after := by
  have addressable : 16 < Slot.limit := by decide
  obtain ⟨scan, reached, accepted⟩ := @exists_reached_accepted
    #[97, 98, 99, 97, 98, 99, 100, 88, 97, 98, 99, 100, 97, 98, 99, 89] ⟨8, 0, 8, 8, 8⟩
    addressable (by decide) (by decide) (by decide) (by decide)
  have wide : minLookahead ≤ 8 := by decide
  have depth : (Visit.insertedBy 16 [.skip 0 8]).card ≤ 8 := by decide
  have chosen : (Query.mk 8 0 8 8 8).exhaustive
      #[97, 98, 99, 97, 98, 99, 100, 88, 97, 98, 99, 100, 97, 98, 99, 89]
      (Visit.insertedBy 16 [.skip 0 8]) = ⟨4, 5⟩ := by
    decide +kernel
  obtain ⟨after, ran⟩ := longestMatch_exhaustive reached accepted wide depth
  exact ⟨scan, reached, accepted, wide, depth, chosen, after, chosen ▸ ran⟩

end Scan

end LempelZiv
