import LempelZiv.Proofs.Search.Reference

/-!
Contract: how far ahead a search looks.

Owns:
- buffers that begin with the same bytes, and what they have in common;
- the answers of a query to two such buffers, if its longest permissible match ends among
  these bytes.

Does not own: which positions of the two buffers were inserted.  A position close to the end
of one buffer may be missing from its tables and present in those of the other.
-/

namespace LempelZiv

namespace Buffer

/-- The two buffers begin with the same `known` bytes. -/
structure SamePrefix (left right : Buffer) (known : Nat) : Prop where
  insideLeft : known ≤ left.size
  insideRight : known ≤ right.size
  agrees : ∀ place < known, left[place]? = right[place]?

variable {left right : Buffer} {known position : Nat}

namespace SamePrefix

theorem getElem_eq
    (same : left.SamePrefix right known)
    (below : position < known)
    (insideLeft : position < left.size)
    (insideRight : position < right.size) :
    left[position] = right[position] := by
  have equal := same.agrees position below
  rwa [Array.getElem?_eq_getElem insideLeft, Array.getElem?_eq_getElem insideRight,
    Option.some_inj] at equal

theorem byte_eq
    (same : left.SamePrefix right known)
    (below : position < known) :
    left.byte position = right.byte position := by
  have insideLeft := Nat.lt_of_lt_of_le below same.insideLeft
  have insideRight := Nat.lt_of_lt_of_le below same.insideRight
  rw [byte_eq_getElem insideLeft, byte_eq_getElem insideRight,
    same.getElem_eq below insideLeft insideRight]

theorem shortWindow_eq
    (same : left.SamePrefix right known)
    (inside : position + 3 ≤ known) :
    left.shortWindow position = right.shortWindow position := by
  rw [shortWindow, shortWindow, same.byte_eq (by omega), same.byte_eq (by omega),
    same.byte_eq (by omega)]

theorem buckets_eq
    (same : left.SamePrefix right known)
    (inside : position + 4 ≤ known) :
    left.buckets position = right.buckets position := by
  rw [buckets, buckets, window, window, same.byte_eq (by omega), same.byte_eq (by omega),
    same.byte_eq (by omega), same.byte_eq (by omega)]

theorem sharedLength_eq
    (same : left.SamePrefix right known)
    {source limit : Nat}
    (inside : position + limit ≤ known)
    (sourceInside : source + limit ≤ known) :
    left.sharedLength position source limit = right.sharedLength position source limit := by
  induction limit generalizing position source with
  | zero => rfl
  | succ limit inductionHypothesis =>
      rw [sharedLength, sharedLength, same.byte_eq (by omega), same.byte_eq (by omega),
        inductionHypothesis (by omega) (by omega)]

end SamePrefix

end Buffer

namespace Index

variable {left right : Buffer} {inserted : Finset Nat} {known : Nat}

theorem shortEntries_congr
    (same : left.SamePrefix right known)
    (inside : ∀ entry ∈ inserted, entry + 4 ≤ known)
    (bucket : Fin shortBuckets) :
    shortEntries left inserted bucket = shortEntries right inserted bucket := by
  apply Finset.filter_congr
  intro entry member
  rw [same.buckets_eq (inside entry member)]

theorem longEntries_congr
    (same : left.SamePrefix right known)
    (inside : ∀ entry ∈ inserted, entry + 4 ≤ known)
    (bucket : Fin longBuckets) :
    longEntries left inserted bucket = longEntries right inserted bucket := by
  apply Finset.filter_congr
  intro entry member
  rw [same.buckets_eq (inside entry member)]

end Index

namespace Query

variable {query : Query} {left right : Buffer} {inserted : Finset Nat} {known : Nat}

theorem opening_congr
    (same : left.SamePrefix right known)
    {newest : Option Nat}
    (inside : query.position + 3 ≤ known)
    (insideNewest : ∀ candidate, newest = some candidate → candidate + 3 ≤ known) :
    query.opening left newest = query.opening right newest := by
  cases newest with
  | none => rfl
  | some candidate =>
      rw [opening, opening, same.shortWindow_eq inside,
        same.shortWindow_eq (insideNewest candidate rfl)]

theorem bestAlong_congr
    {positions : List Nat}
    (shared : ∀ candidate ∈ positions,
      query.sharedWith left candidate = query.sharedWith right candidate)
    (best : Match) :
    query.bestAlong left positions best = query.bestAlong right positions best := by
  induction positions generalizing best with
  | nil => rfl
  | cons candidate older inductionHypothesis =>
      have later := inductionHypothesis fun other member =>
        shared other (List.mem_cons_of_mem candidate member)
      simp only [bestAlong, matchOf, shared candidate (List.mem_cons_self ..), later]

/-- A query reads no byte past its longest permissible match. -/
theorem answer_congr
    (same : left.SamePrefix right known)
    (inside : query.position + query.maxLen ≤ known)
    (earlier : ∀ entry ∈ inserted, entry < query.position) :
    query.answer left inserted = query.answer right inserted := by
  rw [answer, answer]
  by_cases narrow : query.maxLen < minLookahead
  · rw [if_pos narrow, if_pos narrow]
  rw [if_neg narrow, if_neg narrow]
  rw [minLookahead] at narrow
  have entries : ∀ entry ∈ inserted, entry + 4 ≤ known := by
    intro entry member
    have before := earlier entry member
    omega
  have sameBuckets : left.buckets query.position = right.buckets query.position :=
    same.buckets_eq (by omega)
  have sameNewest : query.shortCandidate left inserted =
      query.shortCandidate right inserted := by
    rw [shortCandidate, shortCandidate, sameBuckets, Index.shortEntries_congr same entries]
  have sameCandidates : query.candidates left inserted = query.candidates right inserted := by
    rw [candidates, candidates, sameBuckets, Index.longEntries_congr same entries]
  have sameOpening : query.opening left (query.shortCandidate right inserted) =
      query.opening right (query.shortCandidate right inserted) := by
    apply opening_congr same (by omega)
    intro candidate newest
    exact Nat.le_of_succ_le (entries candidate (mem_of_shortCandidate newest))
  have shared : ∀ candidate ∈ query.candidates right inserted,
      query.sharedWith left candidate = query.sharedWith right candidate := by
    intro candidate listed
    have before := earlier candidate (mem_of_mem_candidates listed)
    exact same.sharedLength_eq inside (by omega)
  rw [bestAmong, bestAmong, sameCandidates, sameNewest, sameOpening, bestAlong_congr shared]

end Query

end LempelZiv
