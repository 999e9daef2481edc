import LempelZiv.Proofs.Scan.Visits

/-!
Contract: a search of limited depth as a walk over the tables before it.

Owns:
- what the tables of a scan hold for the position of a query;
- the agreement of every accepted search of every reached scan with the bytewise
  walk over the first nodes of its chain, in the answer;
- the agreement in the nodes counted, and the search that counts fewer.

The walk compares every node byte by byte and knows no filters.  That the search
may stop at an empty short bucket rests on the short and the long table holding the
same positions: whoever shares four bytes also shares the short bucket.  The stop
keeps the answer but not the count: the search has inspected nothing then, while the
walk would pass over every node that its depth allows.
-/

namespace LempelZiv

namespace Scan

/-- A search of a scan is the walk over the first nodes of its position's chain, as
the tables were before the search. -/
structure WalksChain (query : Query) (newest : Option Nat) (chain : List Nat)
    (scan after : Scan) : Prop where
  short :
    (scan.index.occupants (scan.buffer.buckets query.position)).short.position? = newest
  long : scan.index.chain (scan.buffer.buckets query.position).long = .ok chain
  answers : longestMatch query scan = .ok (query.chainWalk scan.buffer newest chain) after
  /-- Every node of the walk is counted, whether a filter rejects it or not, except
  that a search which ends at an empty short bucket counts none. -/
  counts :
    (Search.ofQuery query scan.buffer after.index.links).runCounting
        (scan.index.occupants (scan.buffer.buckets query.position)) query.bestLen
        query.maxDepth =
      .ok (query.chainWalk scan.buffer newest chain,
        if query.bestLen < 4 ∧ newest = none then 0
        else query.chainNodes scan.buffer newest chain)
  /-- The walk could not have taken any node there. -/
  vacant : newest = none → ∀ candidate ∈ chain, query.sharedWith scan.buffer candidate < 4

variable {scan : Scan} {inserted : Finset Nat} {query : Query}

/-- With a position inserted, the links from what it replaced lead the counting search
along the entries that its bucket held before. -/
theorem runCounting_of_tracks
    {after : Scan}
    (tracks : scan.Tracks inserted)
    (accepted : query.Accepted scan)
    (wide : minLookahead ≤ query.maxLen)
    (holds : after.index.Holds scan.buffer (inserted ∪ {query.position})) :
    (Search.ofQuery query scan.buffer after.index.links).runCounting
        (scan.index.occupants (scan.buffer.buckets query.position)) query.bestLen
        query.maxDepth =
      .ok (query.chainWalk scan.buffer (query.shortCandidate scan.buffer inserted)
          (query.chainBelow scan.buffer inserted),
        if query.bestLen < 4 ∧ query.shortCandidate scan.buffer inserted = none then 0
        else query.chainNodes scan.buffer (query.shortCandidate scan.buffer inserted)
          (query.chainBelow scan.buffer inserted)) := by
  have earlier := tracks.lt_of_nextPos_le accepted.order
  rw [← Query.newestFirst_longEntries earlier]
  apply Search.runCounting_eq ⟨wide, accepted.inside⟩ accepted.nice
  · exact tracks.holds.recent _
  · exact holds.walk_replaced earlier (tracks.holds.heads _)
  · intro candidate newest
    exact earlier candidate (Query.mem_of_shortCandidate newest)
  · intro candidate listed
    exact earlier candidate (Finset.mem_filter.mp (mem_newestFirst.mp listed)).1
  · intro vacant candidate listed
    exact Search.not_shared_of_shortCandidate_eq_none vacant
      (Finset.mem_filter.mp (mem_newestFirst.mp listed)).1

/-- In terms of the inserted positions, the walk begins with the newest one of the short
bucket and counts down those of the long one. -/
theorem Tracks.walksChain
    (tracks : scan.Tracks inserted)
    (accepted : query.Accepted scan)
    (wide : minLookahead ≤ query.maxLen) :
    ∃ after,
      WalksChain query (query.shortCandidate scan.buffer inserted)
        (query.chainBelow scan.buffer inserted) scan after := by
  have earlier := tracks.lt_of_nextPos_le accepted.order
  obtain ⟨after, ran, tracked, _, _, frame⟩ := longestMatch_spec tracks accepted
  rw [Query.answer_eq_chainWalk earlier, if_neg (Nat.not_lt.mpr wide)] at ran
  rw [Visit.inserts, if_pos wide] at tracked
  have holds := tracked.holds
  rw [buffer_eq_of_frame frame] at holds
  have listed := tracks.holds.chain_eq (scan.buffer.buckets query.position).long
  rw [Query.newestFirst_longEntries earlier] at listed
  refine ⟨after, tracks.holds.recent _, listed, ran,
    runCounting_of_tracks tracks accepted wide holds, ?_⟩
  intro vacant candidate member
  rw [← Query.newestFirst_longEntries earlier, mem_newestFirst] at member
  exact Nat.lt_of_not_le (Search.not_shared_of_shortCandidate_eq_none vacant
    (Finset.mem_filter.mp member).1)

/-- Every accepted search of every reached scan that permits five bytes is the walk
over the first nodes of its chain. -/
theorem longestMatch_chainWalk
    {buffer : Buffer}
    {visits : List Visit}
    (reached : Reached buffer visits scan)
    (accepted : query.Accepted scan)
    (wide : minLookahead ≤ query.maxLen) :
    ∃ newest chain after, WalksChain query newest chain scan after :=
  ⟨_, _, reached.tracks.walksChain accepted wide⟩

/-- The chain of the last `abcdefgh` has two nodes, of which the query may inspect one: the
newest node is counted and its four bytes are answered. -/
theorem longestMatch_chainWalk_one_node :
    ∃ scan,
      Reached #[97, 98, 99, 100, 101, 102, 103, 104, 88, 97, 98, 99, 100, 89, 97, 98, 99, 100,
        101, 102, 103, 104] [.skip 0 14] scan ∧
      (Query.mk 14 2 8 8 1).Accepted scan ∧
      minLookahead ≤ 8 ∧
      ∃ after,
        WalksChain (Query.mk 14 2 8 8 1) (some 9) [9, 0] scan after ∧
        longestMatch (Query.mk 14 2 8 8 1) scan = .ok ⟨4, 5⟩ after ∧
        (Search.ofQuery (Query.mk 14 2 8 8 1) scan.buffer after.index.links).runCounting
            (scan.index.occupants (scan.buffer.buckets 14)) 2 1 =
          .ok (⟨4, 5⟩, 1) := by
  have addressable : 22 < Slot.limit := by decide
  obtain ⟨scan, reached, accepted⟩ := @exists_reached_accepted
    #[97, 98, 99, 100, 101, 102, 103, 104, 88, 97, 98, 99, 100, 89, 97, 98, 99, 100, 101, 102,
      103, 104] ⟨14, 2, 8, 8, 1⟩ addressable (by decide) (by decide) (by decide) (by decide)
  have wide : minLookahead ≤ 8 := by decide
  obtain ⟨newest, chain, after, walks⟩ := longestMatch_chainWalk reached accepted wide
  obtain ⟨_, below⟩ := reached.tracks.walksChain accepted wide
  have newestHere : newest = some 9 := by
    rw [← walks.short, below.short, reached.buffer_eq]
    decide +kernel
  have chainHere : chain = [9, 0] := by
    rw [Except.ok.inj (walks.long.symm.trans below.long), reached.buffer_eq]
    decide +kernel
  subst newestHere chainHere
  have walked : (Query.mk 14 2 8 8 1).chainWalk scan.buffer (some 9) [9, 0] = ⟨4, 5⟩ := by
    rw [reached.buffer_eq]
    decide +kernel
  have visited : (Query.mk 14 2 8 8 1).chainNodes scan.buffer (some 9) [9, 0] = 1 := by
    rw [reached.buffer_eq]
    decide +kernel
  have counted := walks.counts
  rw [if_neg (by decide), walked, visited] at counted
  exact ⟨scan, reached, accepted, wide, after, walks, walked ▸ walks.answers, counted⟩

/-- The two agree in their answers only: `aawa` and `aiab` share their long bucket but
not their short one, so the walk visits a node that the search does not count. -/
theorem longestMatch_uncounted_aiab :
    ∃ scan after,
      Reached #[97, 97, 119, 97, 88, 89, 90, 95, 97, 105, 97, 98, 85, 86, 87, 88, 89, 90]
        [.skip 0 8] scan ∧
      (Query.mk 8 0 8 8 4).Accepted scan ∧
      minLookahead ≤ 8 ∧
      (scan.index.occupants (scan.buffer.buckets 8)).short.position? = none ∧
      scan.index.chain (scan.buffer.buckets 8).long = .ok [0] ∧
      longestMatch (Query.mk 8 0 8 8 4) scan = .ok ⟨0, 0⟩ after ∧
      (Query.mk 8 0 8 8 4).chainWalk scan.buffer none [0] = ⟨0, 0⟩ ∧
      (Query.mk 8 0 8 8 4).chainNodes scan.buffer none [0] = 1 ∧
      (Search.ofQuery (Query.mk 8 0 8 8 4) scan.buffer after.index.links).runCounting
          (scan.index.occupants (scan.buffer.buckets 8)) 0 4 =
        .ok (⟨0, 0⟩, 0) := by
  have addressable : 18 < Slot.limit := by decide
  obtain ⟨scan, reached, accepted⟩ := @exists_reached_accepted
    #[97, 97, 119, 97, 88, 89, 90, 95, 97, 105, 97, 98, 85, 86, 87, 88, 89, 90]
    ⟨8, 0, 8, 8, 4⟩ addressable (by decide) (by decide) (by decide) (by decide)
  have wide : minLookahead ≤ 8 := by decide
  have tracks : scan.Tracks (Visit.insertedBy 18 [.skip 0 8]) := reached.tracks
  obtain ⟨after, walks⟩ := tracks.walksChain accepted wide
  have newest : (Query.mk 8 0 8 8 4).shortCandidate scan.buffer
      (Visit.insertedBy 18 [.skip 0 8]) = none := by
    rw [reached.buffer_eq]
    decide +kernel
  have chain : (Query.mk 8 0 8 8 4).chainBelow scan.buffer
      (Visit.insertedBy 18 [.skip 0 8]) = [0] := by
    rw [reached.buffer_eq]
    decide +kernel
  have walked : (Query.mk 8 0 8 8 4).chainWalk scan.buffer none [0] = ⟨0, 0⟩ := by
    rw [reached.buffer_eq]
    decide +kernel
  have visited : (Query.mk 8 0 8 8 4).chainNodes scan.buffer none [0] = 1 := by
    rw [reached.buffer_eq]
    decide +kernel
  rw [newest, chain] at walks
  have counted := walks.counts
  rw [if_pos (by decide), walked] at counted
  exact ⟨scan, after, reached, accepted, wide, walks.short, walks.long, walked ▸ walks.answers,
    walked, visited, counted⟩

end Scan

end LempelZiv
