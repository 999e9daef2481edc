import LempelZiv.Proofs.Search.Limits

/-!
Contract: more effort never answers a worse match.

Owns:
- the order of matches in which more effort can only go up;
- the same query with another nice length and another number of nodes;
- the growth of a walk, and of the answer to a query, with both of them;
- the same for every search of every scan that a run reaches.

Does not own: what the best length does to an answer, which is a threshold and has a
module of its own.

A walk that goes on where another one stopped already holds the other's match, and gives
it up only for a longer one.  So two efforts answer two lengths or one match.
-/

namespace LempelZiv

namespace Match

/-- The match is longer than the other or the very same. -/
def Supersedes (result other : Match) : Prop :=
  other.length < result.length ∨ result = other

variable {result other : Match}

theorem Supersedes.refl (result : Match) : result.Supersedes result :=
  .inr rfl

/-- It is no shorter, and of one length only the same match. -/
theorem Supersedes.length_le_and_offset_eq (supersedes : result.Supersedes other) :
    other.length ≤ result.length ∧
      (other.length = result.length → other.offset = result.offset) := by
  rcases supersedes with longer | rfl
  · exact ⟨Nat.le_of_lt longer, fun same => absurd same (Nat.ne_of_lt longer)⟩
  · exact ⟨Nat.le_refl _, fun _ => rfl⟩

end Match

namespace Query

def withEffort (query : Query) (niceLen maxDepth : Nat) : Query :=
  { query with niceLen := niceLen, maxDepth := maxDepth }

variable {query : Query} {buffer : Buffer} {inserted : Finset Nat} {niceLen maxDepth : Nat}

theorem Accepted.withEffort
    {scan : Scan}
    (accepted : query.Accepted scan)
    (permitted : niceLen ≤ query.maxLen)
    (deeper : query.maxDepth ≤ maxDepth) :
    (query.withEffort niceLen maxDepth).Accepted scan :=
  ⟨Nat.le_trans accepted.depth deeper, permitted, accepted.inside, accepted.order⟩

/-! ### Walks -/

theorem bestAlong_supersedes (positions : List Nat) (best : Match) :
    (query.bestAlong buffer positions best).Supersedes best := by
  rcases bestAlong_split positions best with
    kept | ⟨newer, candidate, older, _, answered, _, longer, _⟩
  · exact .inr kept
  · rw [answered]
    exact .inl longer

/-- A walk over more candidates with a higher nice length supersedes the shorter walk. -/
theorem bestAlong_withEffort_supersedes
    (nicer : query.niceLen ≤ niceLen)
    (positions more : List Nat)
    (best : Match) :
    ((query.withEffort niceLen maxDepth).bestAlong buffer (positions ++ more) best).Supersedes
      (query.bestAlong buffer positions best) := by
  induction positions generalizing best with
  | nil => exact bestAlong_supersedes more best
  | cons candidate older inductionHypothesis =>
      rw [List.cons_append, bestAlong, bestAlong]
      by_cases taken : 4 ≤ query.sharedWith buffer candidate ∧
          best.length < query.sharedWith buffer candidate
      · have taken' : 4 ≤ (query.withEffort niceLen maxDepth).sharedWith buffer candidate ∧
            best.length < (query.withEffort niceLen maxDepth).sharedWith buffer candidate :=
          taken
        simp only [if_pos taken, if_pos taken']
        by_cases stops : query.niceLen ≤ query.sharedWith buffer candidate
        · -- the higher nice length may let the walk go on from the match that ends the other
          rw [if_pos stops]
          split
          · exact .refl _
          · exact bestAlong_supersedes _ _
        · have goesOn : ¬ (query.withEffort niceLen maxDepth).niceLen ≤
              (query.withEffort niceLen maxDepth).sharedWith buffer candidate :=
            fun reached => stops (Nat.le_trans nicer reached)
          rw [if_neg stops, if_neg goesOn]
          exact inductionHypothesis _
      · have passed : ¬ (4 ≤ (query.withEffort niceLen maxDepth).sharedWith buffer candidate ∧
            best.length < (query.withEffort niceLen maxDepth).sharedWith buffer candidate) :=
          taken
        rw [if_neg taken, if_neg passed]
        exact inductionHypothesis best

/-! ### Answers -/

/-- With more nodes to inspect, the candidates are those of before and later ones. -/
theorem exists_candidates_withEffort_eq_append (deeper : query.maxDepth ≤ maxDepth) :
    ∃ more, (query.withEffort niceLen maxDepth).candidates buffer inserted =
      query.candidates buffer inserted ++ more := by
  obtain ⟨extra, rfl⟩ := Nat.exists_eq_add_of_le deeper
  exact ⟨_, List.take_add⟩

theorem answer_withEffort_supersedes
    (nicer : query.niceLen ≤ niceLen)
    (deeper : query.maxDepth ≤ maxDepth) :
    ((query.withEffort niceLen maxDepth).answer buffer inserted).Supersedes
      (query.answer buffer inserted) := by
  have sameMaxLen : (query.withEffort niceLen maxDepth).maxLen = query.maxLen := rfl
  have sameBestLen : (query.withEffort niceLen maxDepth).bestLen = query.bestLen := rfl
  have sameNiceLen : (query.withEffort niceLen maxDepth).niceLen = niceLen := rfl
  have sameOpening : (query.withEffort niceLen maxDepth).opening buffer
      ((query.withEffort niceLen maxDepth).shortCandidate buffer inserted) =
        query.opening buffer (query.shortCandidate buffer inserted) := rfl
  rw [answer, answer, sameMaxLen]
  split
  · exact .refl _
  rw [bestAmong, bestAmong, sameBestLen, sameNiceLen, sameOpening]
  by_cases finished : 4 ≤ query.bestLen ∧ query.niceLen ≤ query.bestLen
  · -- the lower effort ends before any candidate, with what the other one starts from
    rw [if_pos finished]
    split
    · exact .refl _
    · rw [opening_of_three_le _ (Nat.le_of_succ_le finished.1)]
      exact bestAlong_supersedes _ _
  · have unfinished : ¬ (4 ≤ query.bestLen ∧ niceLen ≤ query.bestLen) :=
      fun both => finished ⟨both.1, Nat.le_trans nicer both.2⟩
    obtain ⟨more, candidates⟩ :=
      @exists_candidates_withEffort_eq_append query buffer inserted niceLen maxDepth deeper
    rw [if_neg finished, if_neg unfinished, candidates]
    exact bestAlong_withEffort_supersedes nicer _ more _

end Query

namespace Scan

/-- On every reached scan, a search with a higher nice length and more nodes answers no
shorter match than an accepted one, and of the same length the same match.  Whatever its
best length, its nice length and its number of nodes, a search leaves the same scan. -/
theorem longestMatch_effort
    {buffer : Buffer}
    {visits : List Visit}
    {scan : Scan}
    {query : Query}
    {niceLen maxDepth : Nat}
    (reached : Reached buffer visits scan)
    (accepted : query.Accepted scan)
    (nicer : query.niceLen ≤ niceLen)
    (permitted : niceLen ≤ query.maxLen)
    (deeper : query.maxDepth ≤ maxDepth) :
    ∃ result better after,
      longestMatch query scan = .ok result after ∧
      longestMatch (query.withEffort niceLen maxDepth) scan = .ok better after ∧
      result.length ≤ better.length ∧
      (result.length = better.length → result.offset = better.offset) ∧
      ∀ other : Query,
        other.Accepted scan → other.position = query.position → other.maxLen = query.maxLen →
          ∃ answer, longestMatch other scan = .ok answer after := by
  have tracks := reached.tracks
  obtain ⟨after, ran, ranBetter⟩ :=
    longestMatch_leaves_same tracks accepted (accepted.withEffort permitted deeper) rfl rfl
  obtain ⟨noShorter, sameSource⟩ :=
    (Query.answer_withEffort_supersedes nicer deeper).length_le_and_offset_eq
  refine ⟨_, _, after, ran, ranBetter, noShorter, sameSource, ?_⟩
  intro other acceptedOther samePosition sameMaxLen
  obtain ⟨left, ranFirst, ranOther⟩ :=
    longestMatch_leaves_same tracks accepted acceptedOther samePosition sameMaxLen
  rw [ran] at ranFirst
  cases ranFirst
  exact ⟨_, ranOther⟩

/-- One node of the chain answers the four bytes of the newest node; two nodes and a nice
length of eight answer the eight bytes that `abcdefgh` shares with the beginning. -/
theorem longestMatch_effort_abcdefgh :
    ∃ scan,
      Reached #[97, 98, 99, 100, 101, 102, 103, 104, 88, 97, 98, 99, 100, 89, 97, 98, 99, 100,
        101, 102, 103, 104] [.skip 0 14] scan ∧
      (Query.mk 14 2 8 4 1).Accepted scan ∧
      4 ≤ 8 ∧ 1 ≤ 2 ∧
      ∃ after,
        longestMatch (Query.mk 14 2 8 4 1) scan = .ok ⟨4, 5⟩ after ∧
        longestMatch (Query.mk 14 2 8 8 2) scan = .ok ⟨8, 14⟩ after := by
  have addressable : 22 < Slot.limit := by decide
  obtain ⟨scan, reached, accepted⟩ := @exists_reached_accepted
    #[97, 98, 99, 100, 101, 102, 103, 104, 88, 97, 98, 99, 100, 89, 97, 98, 99, 100, 101, 102,
      103, 104] ⟨14, 2, 8, 4, 1⟩ addressable (by decide) (by decide) (by decide) (by decide)
  have nicer : 4 ≤ 8 := by decide
  have deeper : 1 ≤ 2 := by decide
  obtain ⟨result, better, after, ran, ranBetter, _⟩ :=
    longestMatch_effort reached accepted nicer (Nat.le_refl 8) deeper
  have equal : result = ⟨4, 5⟩ := by
    rw [reached.result_eq accepted ran, Query.answer_eq_chainWalk (by decide)]
    decide +kernel
  have equalBetter : better = ⟨8, 14⟩ := by
    rw [reached.result_eq (accepted.withEffort (Nat.le_refl 8) deeper) ranBetter,
      Query.answer_eq_chainWalk (by decide)]
    decide +kernel
  subst equal equalBetter
  exact ⟨scan, reached, accepted, nicer, deeper, after, ran, ranBetter⟩

end Scan

end LempelZiv
