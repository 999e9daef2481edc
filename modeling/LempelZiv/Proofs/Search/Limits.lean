import LempelZiv.Proofs.Scan.Confluence
import LempelZiv.Proofs.Search.Threshold

/-!
Contract: how the limits of a search bear on its answer and on the scan it leaves.

Owns:
- the scan that a search leaves, which its position and its longest permissible match
  determine;
- the best length as a threshold on what the searches of a reached scan answer.
-/

namespace LempelZiv

theorem Query.Accepted.withBest
    {query : Query}
    {scan : Scan}
    (accepted : query.Accepted scan)
    (bestLen : Nat) :
    (query.withBest bestLen).Accepted scan :=
  ⟨accepted.depth, accepted.nice, accepted.inside, accepted.order⟩

namespace Scan

variable {scan : Scan} {query other : Query}

/-- Two searches of one position that permit the same lengths leave the same scan. -/
theorem longestMatch_leaves_same
    {inserted : Finset Nat}
    (tracks : scan.Tracks inserted)
    (accepted : query.Accepted scan)
    (acceptedOther : other.Accepted scan)
    (position : other.position = query.position)
    (maxLen : other.maxLen = query.maxLen) :
    ∃ after,
      longestMatch query scan = .ok (query.answer scan.buffer inserted) after ∧
      longestMatch other scan = .ok (other.answer scan.buffer inserted) after := by
  obtain ⟨after, ran, tracked, nextPos, pending, frame⟩ := longestMatch_spec tracks accepted
  obtain ⟨afterOther, ranOther, trackedOther, nextPosOther, pendingOther, frameOther⟩ :=
    longestMatch_spec tracks acceptedOther
  rw [Visit.inserts, position, maxLen] at trackedOther
  rw [position] at nextPosOther
  rw [position, maxLen] at pendingOther
  have same : after = afterOther :=
    eq_of_tracks tracked trackedOther frame frameOther (nextPos.trans nextPosOther.symm)
      (pending.trans pendingOther.symm)
  exact ⟨after, ran, same ▸ ranOther⟩

/-- A higher best length, as long as it does not end the search at once, keeps the answer if
that exceeds it and answers itself otherwise.  It leaves the same scan. -/
theorem longestMatch_threshold
    {buffer : Buffer}
    {visits : List Visit}
    {bestLen : Nat}
    (reached : Reached buffer visits scan)
    (accepted : query.Accepted scan)
    (raised : query.bestLen ≤ bestLen)
    (unfinished : bestLen < 4 ∨ bestLen < query.niceLen) :
    ∃ result after,
      longestMatch query scan = .ok result after ∧
      longestMatch (query.withBest bestLen) scan =
        .ok (if bestLen < result.length then result else .unimproved bestLen) after := by
  obtain ⟨after, ran, ranHigher⟩ :=
    longestMatch_leaves_same reached.tracks accepted (accepted.withBest bestLen) rfl rfl
  have below : bestLen < query.enough := by
    rw [Query.enough]
    omega
  rw [Query.answer_withBest raised below] at ranHigher
  exact ⟨_, after, ran, ranHigher⟩

/-- The eight bytes that `abcdefgh` shares with the beginning exceed a best length of five
as they exceed one of zero. -/
theorem longestMatch_threshold_abcdefgh :
    ∃ scan,
      Reached #[97, 98, 99, 100, 101, 102, 103, 104, 88, 97, 98, 99, 100, 89, 97, 98, 99, 100,
        101, 102, 103, 104] [.skip 0 14] scan ∧
      (Query.mk 14 0 8 8 2).Accepted scan ∧
      ∃ after,
        longestMatch (Query.mk 14 0 8 8 2) scan = .ok ⟨8, 14⟩ after ∧
        longestMatch (Query.mk 14 5 8 8 2) scan = .ok ⟨8, 14⟩ after := by
  have addressable : 22 < Slot.limit := by decide
  obtain ⟨scan, reached, accepted⟩ := @exists_reached_accepted
    #[97, 98, 99, 100, 101, 102, 103, 104, 88, 97, 98, 99, 100, 89, 97, 98, 99, 100, 101, 102,
      103, 104] ⟨14, 0, 8, 8, 2⟩ addressable (by decide) (by decide) (by decide) (by decide)
  obtain ⟨result, after, ran, ranHigher⟩ :=
    longestMatch_threshold reached accepted (show 0 ≤ 5 by decide) (by decide)
  have equal : result = ⟨8, 14⟩ := by
    rw [reached.result_eq accepted ran, Query.answer_eq_chainWalk (by decide)]
    decide +kernel
  subst equal
  exact ⟨scan, reached, accepted, after, ran, ranHigher⟩

end Scan

end LempelZiv
