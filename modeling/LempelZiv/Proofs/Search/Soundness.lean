import LempelZiv.Proofs.Scan.Visits

/-!
Contract: what a search may answer.

Owns:
- what it takes for an answer to be a genuine match with an inserted position;
- the proof that the bytewise walk and the short match produce nothing else;
- the same for every search of every scan that a run reaches.

Does not own: which of the genuine matches is answered.
-/

namespace LempelZiv

namespace Query

/-- A match of permitted length, longer than the query's best, whose source is an
inserted position.  From four bytes on it ends only where the bytes differ or the
limit is reached; a match of three bytes is not extended. -/
structure Genuine (query : Query) (buffer : Buffer) (inserted : Finset Nat)
    (result : Match) : Prop where
  longer : query.bestLen < result.length
  atLeast : 3 ≤ result.length
  atMost : result.length ≤ query.maxLen
  backward : 1 ≤ result.offset
  reaches : result.offset ≤ query.position
  source : query.position - result.offset ∈ inserted
  agrees : ∀ place < result.length,
    buffer[query.position + place]? = buffer[query.position - result.offset + place]?
  ends : 4 ≤ result.length → result.length < query.maxLen →
    buffer[query.position + result.length]? ≠
      buffer[query.position - result.offset + result.length]?

variable {query : Query} {buffer : Buffer} {inserted : Finset Nat} {candidate : Nat}

theorem genuine_matchOf
    (inside : query.position + query.maxLen ≤ buffer.size)
    (earlier : candidate < query.position)
    (member : candidate ∈ inserted)
    (shared : 4 ≤ query.sharedWith buffer candidate)
    (longer : query.bestLen < query.sharedWith buffer candidate) :
    query.Genuine buffer inserted (query.matchOf buffer candidate) := by
  have atMost := query.sharedWith_le buffer candidate
  have origin := Nat.sub_sub_self (Nat.le_of_lt earlier)
  refine ⟨longer, Nat.le_of_succ_le shared, atMost, ?_, ?_, ?_, ?_, ?_⟩
  · exact Nat.sub_pos_of_lt earlier
  · exact Nat.sub_le query.position candidate
  · rw [matchOf, origin]
    exact member
  · intro place below
    have belowShared : place < query.sharedWith buffer candidate := below
    rw [matchOf, origin]
    exact Buffer.getElem?_eq_of_byte_eq (by omega) (by omega)
      (Buffer.byte_eq_of_lt_sharedLength belowShared)
  · intro _ unlimited
    rw [matchOf, origin]
    exact Buffer.getElem?_ne_of_byte_ne (Buffer.byte_ne_of_sharedLength_lt unlimited)

theorem genuine_short
    (wide : 3 ≤ query.maxLen)
    (inside : query.position + query.maxLen ≤ buffer.size)
    (earlier : candidate < query.position)
    (member : candidate ∈ inserted)
    (small : query.bestLen < 3)
    (same : buffer.shortWindow candidate = buffer.shortWindow query.position) :
    query.Genuine buffer inserted ⟨3, query.position - candidate⟩ := by
  have origin := Nat.sub_sub_self (Nat.le_of_lt earlier)
  refine ⟨small, Nat.le_refl 3, wide, Nat.sub_pos_of_lt earlier,
    Nat.sub_le query.position candidate, ?_, ?_, ?_⟩
  · rw [origin]
    exact member
  · intro place (below : place < 3)
    rw [origin]
    have equal := (Buffer.shortWindow_eq_iff _ _ _).mp same place below
    exact Buffer.getElem?_eq_of_byte_eq (by omega) (by omega) equal.symm
  · intro four
    exact absurd four (Nat.not_succ_le_self 3)

theorem Origin.unimproved_or_genuine
    {result : Match}
    (origin : query.Origin buffer inserted result)
    (inside : query.position + query.maxLen ≤ buffer.size)
    (earlier : ∀ entry ∈ inserted, entry < query.position) :
    result = .unimproved query.bestLen ∨ query.Genuine buffer inserted result := by
  cases origin with
  | unimproved => exact .inl rfl
  | short wide newest small same =>
      rw [minLookahead] at wide
      have member := mem_of_shortCandidate newest
      exact .inr (genuine_short (by omega) inside (earlier _ member) member small same)
  | long split shared longer =>
      have member := mem_of_candidates_eq_append split
      exact .inr (genuine_matchOf inside (earlier _ member) member shared longer)

/-- A query has no answer but its own best length and genuine matches. -/
theorem answer_cases
    (inside : query.position + query.maxLen ≤ buffer.size)
    (earlier : ∀ entry ∈ inserted, entry < query.position) :
    query.answer buffer inserted = .unimproved query.bestLen ∨
      query.Genuine buffer inserted (query.answer buffer inserted) :=
  (query.answer_origin buffer inserted).unimproved_or_genuine inside earlier

/-- The three ways to tell a match from the unimproved answer agree. -/
theorem improvesOn_iff
    {result : Match}
    (answers : result = .unimproved query.bestLen ∨ query.Genuine buffer inserted result) :
    (result.improvesOn query.bestLen = true ↔ result.offset ≠ 0) ∧
      (result.offset ≠ 0 ↔ query.bestLen < result.length) := by
  simp only [Match.improvesOn, Bool.and_eq_true, decide_eq_true_eq, bne_iff_ne]
  rcases answers with rfl | genuine
  · simp [Match.unimproved]
  · have longer := genuine.longer
    have backward := genuine.backward
    omega

end Query

namespace Scan

/-- Every accepted search of every reached scan answers, and what it answers is
its own best length or a genuine match with a position that an earlier visit of
this scan inserted. -/
theorem longestMatch_sound
    {buffer : Buffer}
    {visits : List Visit}
    {scan : Scan}
    {query : Query}
    (reached : Reached buffer visits scan)
    (accepted : query.Accepted scan) :
    ∃ result after,
      longestMatch query scan = .ok result after ∧
      (result = .unimproved query.bestLen ∨
        query.Genuine buffer (Visit.insertedBy buffer.size visits) result) ∧
      (result.improvesOn query.bestLen = true ↔ result.offset ≠ 0) ∧
      (result.offset ≠ 0 ↔ query.bestLen < result.length) := by
  have tracks := reached.tracks
  obtain ⟨after, ran, _⟩ := longestMatch_spec tracks accepted
  have inside := accepted.inside
  rw [reached.buffer_eq] at ran inside
  have answers := Query.answer_cases inside (tracks.lt_of_nextPos_le accepted.order)
  exact ⟨_, after, ran, answers, Query.improvesOn_iff answers⟩

/-- After `abcdabcX` was skipped, `abcdabcY` is searched at its first byte: seven bytes
match, and the eighth differs. -/
theorem longestMatch_sound_abcdabc :
    ∃ scan,
      Reached #[97, 98, 99, 100, 97, 98, 99, 88, 97, 98, 99, 100, 97, 98, 99, 89]
        [.skip 0 8] scan ∧
      (Query.mk 8 0 8 8 4).Accepted scan ∧
      ∃ after,
        longestMatch (Query.mk 8 0 8 8 4) scan = .ok ⟨7, 8⟩ after ∧
        (Query.mk 8 0 8 8 4).Genuine
          #[97, 98, 99, 100, 97, 98, 99, 88, 97, 98, 99, 100, 97, 98, 99, 89]
          (Visit.insertedBy 16 [.skip 0 8]) ⟨7, 8⟩ ∧
        (Match.mk 7 8).improvesOn 0 = true := by
  have addressable : 16 < Slot.limit := by decide
  obtain ⟨scan, reached, accepted⟩ := @exists_reached_accepted
    #[97, 98, 99, 100, 97, 98, 99, 88, 97, 98, 99, 100, 97, 98, 99, 89] ⟨8, 0, 8, 8, 4⟩
    addressable (by decide) (by decide) (by decide) (by decide)
  obtain ⟨result, after, ran, answers, improves, _⟩ := longestMatch_sound reached accepted
  have equal : result = ⟨7, 8⟩ := by
    rw [reached.result_eq accepted ran, Query.answer_eq_chainWalk (by decide)]
    decide +kernel
  subst equal
  have genuine := answers.resolve_left (by decide)
  exact ⟨scan, reached, accepted, after, ran, genuine, improves.mpr (by decide)⟩

end Scan

end LempelZiv
