import LempelZiv.Proofs.Search.Reference

/-!
Contract: the best length of a query is a threshold and nothing else.

Owns: the comparison of the answers to two queries that differ in their best
length only.

The walks may take different candidates on the way.  As long as the higher best
length does not end the search, whatever the lower one takes below it is taken
over by a longer match or is not answered.
-/

namespace LempelZiv

variable {query : Query} {buffer : Buffer} {inserted : Finset Nat}

namespace Query

def withBest (query : Query) (bestLen : Nat) : Query :=
  { query with bestLen := bestLen }

theorem bestAlong_withBest (bestLen : Nat) (positions : List Nat) (best : Match) :
    (query.withBest bestLen).bestAlong buffer positions best =
      query.bestAlong buffer positions best := by
  induction positions generalizing best with
  | nil => rfl
  | cons candidate older inductionHypothesis =>
      rw [bestAlong, bestAlong, inductionHypothesis, inductionHypothesis]
      rfl

/-- A walk from a better match answers the same if that is better still. -/
theorem bestAlong_raise
    (positions : List Nat)
    {low high : Match}
    (raised : low.length ≤ high.length)
    (unfinished : high.length < query.enough) :
    query.bestAlong buffer positions high =
      if high.length < (query.bestAlong buffer positions low).length then
        query.bestAlong buffer positions low
      else
        high := by
  induction positions generalizing low with
  | nil => rw [bestAlong, bestAlong, if_neg (Nat.not_lt.mpr raised)]
  | cons candidate older inductionHypothesis =>
      rw [bestAlong, bestAlong]
      by_cases takenHigh : 4 ≤ query.sharedWith buffer candidate ∧
          high.length < query.sharedWith buffer candidate
      · -- both take the candidate and go on alike
        have takenLow : 4 ≤ query.sharedWith buffer candidate ∧
            low.length < query.sharedWith buffer candidate :=
          ⟨takenHigh.1, Nat.lt_of_le_of_lt raised takenHigh.2⟩
        simp only [if_pos takenHigh, if_pos takenLow]
        split
        · exact (if_pos takenHigh.2).symm
        · have atLeast : query.sharedWith buffer candidate ≤
              (query.bestAlong buffer older (query.matchOf buffer candidate)).length :=
            le_bestAlong_length older (query.matchOf buffer candidate)
          exact (if_pos (Nat.lt_of_lt_of_le takenHigh.2 atLeast)).symm
      · rw [if_neg takenHigh]
        by_cases takenLow : 4 ≤ query.sharedWith buffer candidate ∧
            low.length < query.sharedWith buffer candidate
        · -- the candidate is no longer than `high`, which is short of the nice length
          have bounded : query.sharedWith buffer candidate ≤ high.length := by omega
          have unfinishedLow : ¬ query.niceLen ≤ query.sharedWith buffer candidate := by
            rw [enough] at unfinished
            omega
          simp only [if_pos takenLow, if_neg unfinishedLow]
          exact @inductionHypothesis (query.matchOf buffer candidate) bounded
        · simp only [if_neg takenLow]
          exact inductionHypothesis raised

theorem opening_withBest
    {bestLen : Nat}
    (raised : query.bestLen ≤ bestLen)
    (newest : Option Nat) :
    ((query.withBest bestLen).opening buffer newest = query.opening buffer newest ∧
        bestLen < (query.opening buffer newest).length) ∨
      ((query.withBest bestLen).opening buffer newest = .unimproved bestLen ∧
        (query.opening buffer newest).length ≤ bestLen) := by
  cases newest with
  | none => exact .inr ⟨rfl, raised⟩
  | some candidate =>
      by_cases same : buffer.shortWindow candidate = buffer.shortWindow query.position
      · by_cases small : bestLen < 3
        · have short : query.opening buffer (some candidate) =
              ⟨3, query.position - candidate⟩ :=
            if_pos ⟨Nat.lt_of_le_of_lt raised small, same⟩
          have short' : (query.withBest bestLen).opening buffer (some candidate) =
              ⟨3, query.position - candidate⟩ :=
            if_pos ⟨small, same⟩
          rw [short, short']
          exact .inl ⟨rfl, small⟩
        · have bounded : (query.opening buffer (some candidate)).length ≤
              max query.bestLen 3 :=
            opening_length_le _
          exact .inr ⟨if_neg fun both => small both.1, by omega⟩
      · have kept : query.opening buffer (some candidate) = .unimproved query.bestLen :=
          if_neg fun both => same both.2
        rw [kept]
        exact .inr ⟨if_neg fun both => same both.2, raised⟩

/-- Below what ends the search, a higher best length keeps exactly the answers that
exceed it. -/
theorem answer_withBest
    {bestLen : Nat}
    (raised : query.bestLen ≤ bestLen)
    (unfinished : bestLen < query.enough) :
    (query.withBest bestLen).answer buffer inserted =
      if bestLen < (query.answer buffer inserted).length then
        query.answer buffer inserted
      else
        .unimproved bestLen := by
  rw [answer, answer]
  by_cases narrow : query.maxLen < minLookahead
  · have narrow' : (query.withBest bestLen).maxLen < minLookahead := narrow
    rw [if_pos narrow, if_pos narrow']
    exact (if_neg (Nat.not_lt.mpr raised)).symm
  have narrow' : ¬ (query.withBest bestLen).maxLen < minLookahead := narrow
  have searches : ¬ (4 ≤ query.bestLen ∧ query.niceLen ≤ query.bestLen) := by
    rw [enough] at unfinished
    omega
  have searches' : ¬ (4 ≤ (query.withBest bestLen).bestLen ∧
      (query.withBest bestLen).niceLen ≤ (query.withBest bestLen).bestLen) := by
    rw [enough] at unfinished
    simp only [withBest]
    omega
  rw [if_neg narrow, if_neg narrow', bestAmong, bestAmong, if_neg searches,
    if_neg searches', bestAlong_withBest]
  change query.bestAlong buffer (query.candidates buffer inserted)
    ((query.withBest bestLen).opening buffer (query.shortCandidate buffer inserted)) = _
  rcases opening_withBest raised (query.shortCandidate buffer inserted) with
    ⟨same, longer⟩ | ⟨unimproved, bounded⟩
  · rw [same]
    exact (if_pos (Nat.lt_of_lt_of_le longer (le_bestAlong_length _ _))).symm
  · rw [unimproved]
    exact bestAlong_raise _ bounded unfinished

end Query

namespace Match

variable {result : Match} {low high : Nat}

theorem found?_eq_none_of_length_le (bounded : result.length ≤ high) :
    result.found? high = none := by
  have fails : ¬ result.improvesOn high :=
    fun improves => absurd (lt_length_of_improvesOn improves) (Nat.not_lt.mpr bounded)
  exact dif_neg fails

/-- What is found above a higher length is what is found above a lower one and
exceeds the higher. -/
theorem found?_eq_some_iff_of_le
    {found : Found}
    (raised : low ≤ high) :
    result.found? high = some found ↔
      result.found? low = some found ∧ high < found.val.length := by
  rw [found?_eq_some_iff, found?_eq_some_iff]
  simp only [improvesOn, Bool.and_eq_true, decide_eq_true_eq]
  constructor
  · intro found
    obtain ⟨⟨longer, genuine⟩, same⟩ := found
    exact ⟨⟨⟨Nat.lt_of_le_of_lt raised longer, genuine⟩, same⟩, same ▸ longer⟩
  · intro found
    obtain ⟨⟨⟨_, genuine⟩, same⟩, longer⟩ := found
    exact ⟨⟨same ▸ longer, genuine⟩, same⟩

end Match

namespace Query

theorem Origin.length_le
    {result : Match}
    (origin : query.Origin buffer inserted result) :
    result.length ≤ max query.bestLen query.maxLen := by
  cases origin with
  | unimproved => exact Nat.le_max_left _ _
  | short wide =>
      rw [minLookahead] at wide
      simp only
      omega
  | long => exact Nat.le_trans (query.sharedWith_le buffer _) (Nat.le_max_right _ _)

theorem answer_length_le :
    (query.answer buffer inserted).length ≤ max query.bestLen query.maxLen :=
  (query.answer_origin buffer inserted).length_le

/-- A query with a higher best length finds what exceeds it, unless that length
ends the search although longer matches are permitted. -/
theorem found?_answer_withBest
    {bestLen : Nat}
    (raised : query.bestLen ≤ bestLen)
    (settled : bestLen < query.enough ∨ query.maxLen ≤ bestLen) :
    ((query.withBest bestLen).answer buffer inserted).found? bestLen =
      (query.answer buffer inserted).found? bestLen := by
  rcases settled with unfinished | exhausted
  · rw [answer_withBest raised unfinished]
    split
    · rfl
    · rename_i bounded
      rw [Match.found?_eq_none_of_length_le (Nat.le_of_not_lt bounded)]
      exact Match.found?_eq_none_of_length_le (Nat.le_refl bestLen)
  · have lowBounded : (query.answer buffer inserted).length ≤
        max query.bestLen query.maxLen :=
      answer_length_le
    have highBounded : ((query.withBest bestLen).answer buffer inserted).length ≤
        max bestLen query.maxLen :=
      answer_length_le
    rw [Match.found?_eq_none_of_length_le (Nat.le_trans highBounded (by omega)),
      Match.found?_eq_none_of_length_le (Nat.le_trans lowBounded (by omega))]

end Query

end LempelZiv
