import LempelZiv.Parse.Parser
import LempelZiv.Proofs.Scan.Visits
import LempelZiv.Proofs.Search.Soundness
import LempelZiv.Proofs.Search.Threshold

/-!
Contract: a parse as a function of its input and options.

Owns:
- the match at a position, given that all earlier positions were visited;
- the choice of each strategy and the tokens it leads to, without any scan;
- what a search and a skip do once every earlier position was visited.

Both loops visit every position before they decide about the next one, so what
they find there does not depend on the tokens emitted so far.
-/

namespace LempelZiv

theorem Options.validate_eq_ok_iff {options : Options} :
    options.validate = .ok () ↔
      1 ≤ options.maxDepth ∧ 3 ≤ options.niceLen ∧ 3 ≤ options.maxMatchLen := by
  unfold Options.validate
  split
  · simp only [reduceCtorEq, false_iff]
    omega
  · split
    · rename_i short
      rw [minMatchLen] at short
      simp only [reduceCtorEq, false_iff]
      omega
    · split
      · rename_i short
        rw [minMatchLen] at short
        simp only [reduceCtorEq, false_iff]
        omega
      · rename_i nice long
        rw [minMatchLen] at nice long
        simp only [true_iff]
        omega

namespace Parse

/-! ### Matches and choices -/

/-- The positions before `position` at which five bytes are left. -/
def available (buffer : Buffer) (position : Nat) : Finset Nat :=
  (Finset.range position).filter (· + minLookahead ≤ buffer.size)

/-- The match at a position after all earlier ones were visited. -/
def matchAt (options : Options) (buffer : Buffer) (position : Nat) : Option Match.Found :=
  ((options.query buffer.size position (minMatchLen - 1)).answer buffer
    (available buffer position)).found? (minMatchLen - 1)

/-- A held match gives way to a longer one at the next position, unless it has the
nice length. -/
def postponed (options : Options) (buffer : Buffer) (position : Nat)
    (held : Match.Found) : Bool :=
  held.val.length < (options.limits (buffer.size - position)).niceLen &&
    (matchAt options buffer (position + 1)).any fun later =>
      held.val.length < later.val.length

/-- The match that a strategy takes at a position where a token begins. -/
def choice (options : Options) (buffer : Buffer) (position : Nat) : Option Match.Found :=
  match options.strategy with
  | .greedy => matchAt options buffer position
  | .lazy =>
      (matchAt options buffer position).filter fun held =>
        !postponed options buffer position held

/-- The tokens from `position` on: the chosen copies, and literals where no match is
chosen. -/
def tokensFrom (chosen : Nat → Option Match.Found) (buffer : Buffer) (position : Nat) :
    List Token :=
  if inside : position < buffer.size then
    match chosen position with
    | some ⟨found, nonempty⟩ =>
        .copy found.length found.offset ::
          tokensFrom chosen buffer (position + found.length)
    | none =>
        .literal buffer[position] :: tokensFrom chosen buffer (position + 1)
  else
    []
termination_by buffer.size - position

variable {options : Options} {buffer : Buffer} {position : Nat} {held : Match.Found}

theorem lt_of_mem_available {entry : Nat} (member : entry ∈ available buffer position) :
    entry < position :=
  Finset.mem_range.mp (Finset.mem_filter.mp member).1

theorem available_add (buffer : Buffer) (position count : Nat) :
    available buffer (position + count) =
      available buffer position ∪
        (Finset.Ico position (position + count)).filter (· + minLookahead ≤ buffer.size) := by
  ext entry
  simp only [available, Finset.mem_union, Finset.mem_filter, Finset.mem_range,
    Finset.mem_Ico]
  omega

/-- Where five bytes are left, every earlier position was inserted. -/
theorem available_eq_range (lookahead : position + minLookahead ≤ buffer.size) :
    available buffer position = Finset.range position := by
  apply Finset.filter_true_of_mem
  intro entry member
  have earlier := Finset.mem_range.mp member
  omega

theorem matchAt_genuine
    (inside : position ≤ buffer.size)
    (found : matchAt options buffer position = some held) :
    (options.query buffer.size position (minMatchLen - 1)).Genuine buffer
      (available buffer position) held.val := by
  obtain ⟨improves, same⟩ := Match.found?_eq_some_iff.mp found
  rw [← same]
  have queryInside : (options.query buffer.size position (minMatchLen - 1)).position +
      (options.query buffer.size position (minMatchLen - 1)).maxLen ≤ buffer.size := by
    simp only [Options.query, Options.limits]
    omega
  have earlier : ∀ entry ∈ available buffer position, entry < position :=
    fun entry => lt_of_mem_available
  rcases Query.answer_cases queryInside earlier with
    unimproved | genuine
  · rw [unimproved] at improves
    exact absurd (Match.lt_length_of_improvesOn improves) (Nat.lt_irrefl _)
  · exact genuine

theorem matchAt_inside
    (inside : position ≤ buffer.size)
    (found : matchAt options buffer position = some held) :
    3 ≤ held.val.length ∧ position + held.val.length ≤ buffer.size := by
  have genuine := matchAt_genuine inside found
  have atMost : held.val.length ≤ min options.maxMatchLen (buffer.size - position) :=
    genuine.atMost
  exact ⟨genuine.atLeast, by omega⟩

theorem matchAt_eq_none
    (narrow : (options.limits (buffer.size - position)).maxLen < minLookahead) :
    matchAt options buffer position = none := by
  have unimproved : (options.query buffer.size position (minMatchLen - 1)).answer buffer
      (available buffer position) = .unimproved (minMatchLen - 1) :=
    if_pos narrow
  rw [matchAt, unimproved]
  exact Match.found?_eq_none_of_length_le (Nat.le_refl _)

/-- Nothing comes before the first position. -/
theorem matchAt_zero : matchAt options buffer 0 = none := by
  apply Option.eq_none_iff_forall_ne_some.mpr
  intro held found
  have genuine := matchAt_genuine (Nat.zero_le _) found
  exact Nat.lt_irrefl 0 (Nat.le_trans genuine.backward genuine.reaches)

theorem matchAt_of_size_le (finished : buffer.size ≤ position) :
    matchAt options buffer position = none := by
  apply matchAt_eq_none
  simp only [Options.limits, minLookahead]
  omega

/-- A search with the length of a match held at the position before as its best finds
the match at its position exactly if that is longer. -/
theorem found?_ahead_iff
    {bestLen : Nat}
    {later : Match.Found}
    (three : 3 ≤ bestLen)
    (short : bestLen < (options.limits (buffer.size - position)).niceLen) :
    ((options.query buffer.size (position + 1) bestLen).answer buffer
        (available buffer (position + 1))).found? bestLen = some later ↔
      matchAt options buffer (position + 1) = some later ∧ bestLen < later.val.length := by
  have raised : minMatchLen - 1 ≤ bestLen := by
    rw [minMatchLen]
    omega
  have settled :
      bestLen < (options.query buffer.size (position + 1) (minMatchLen - 1)).enough ∨
        (options.query buffer.size (position + 1) (minMatchLen - 1)).maxLen ≤ bestLen := by
    simp only [Options.limits, Options.query, Query.enough] at short ⊢
    omega
  have same := @Query.found?_answer_withBest _ buffer (available buffer (position + 1)) _
    raised settled
  rw [matchAt, ← Match.found?_eq_some_iff_of_le raised, ← same]
  rfl

theorem postponed_eq_true_iff :
    postponed options buffer position held = true ↔
      held.val.length < (options.limits (buffer.size - position)).niceLen ∧
        ∃ later, matchAt options buffer (position + 1) = some later ∧
          held.val.length < later.val.length := by
  simp only [postponed, Bool.and_eq_true, decide_eq_true_eq, Option.any_eq_true]

theorem choice_of_greedy (greedy : options.strategy = .greedy) :
    choice options buffer position = matchAt options buffer position := by
  simp only [choice, greedy]

theorem choice_of_none (absent : matchAt options buffer position = none) :
    choice options buffer position = none := by
  unfold choice
  rw [absent]
  split <;> rfl

theorem choice_of_postponed
    (lazy : options.strategy = .lazy)
    (found : matchAt options buffer position = some held)
    (waits : postponed options buffer position held = true) :
    choice options buffer position = none := by
  simp only [choice, lazy, found]
  rw [Option.filter_some, waits]
  rfl

theorem choice_of_not_postponed
    (lazy : options.strategy = .lazy)
    (found : matchAt options buffer position = some held)
    (taken : ¬ postponed options buffer position held = true) :
    choice options buffer position = some held := by
  simp only [choice, lazy, found]
  rw [Option.filter_some, Bool.eq_false_of_not_eq_true taken]
  rfl

/-- A match of the nice length is taken whatever the strategy. -/
theorem choice_of_nice
    (found : matchAt options buffer position = some held)
    (nice : (options.limits (buffer.size - position)).niceLen ≤ held.val.length) :
    choice options buffer position = some held := by
  cases strategy : options.strategy with
  | greedy => exact (choice_of_greedy strategy).trans found
  | lazy =>
      apply choice_of_not_postponed strategy found
      intro waits
      exact absurd (postponed_eq_true_iff.mp waits).1 (Nat.not_lt.mpr nice)

theorem matchAt_of_choice (chosen : choice options buffer position = some held) :
    matchAt options buffer position = some held := by
  unfold choice at chosen
  split at chosen
  · exact chosen
  · exact (Option.filter_eq_some_iff.mp chosen).1

/-! ### Tokens -/

section Tokens

variable {chosen : Nat → Option Match.Found}

theorem tokensFrom_of_some
    (inside : position < buffer.size)
    (taken : chosen position = some held) :
    tokensFrom chosen buffer position =
      .copy held.val.length held.val.offset ::
        tokensFrom chosen buffer (position + held.val.length) := by
  rw [tokensFrom, dif_pos inside, taken]

theorem tokensFrom_of_none
    (inside : position < buffer.size)
    (absent : chosen position = none) :
    tokensFrom chosen buffer position =
      .literal buffer[position] :: tokensFrom chosen buffer (position + 1) := by
  rw [tokensFrom, dif_pos inside, absent]

theorem tokensFrom_of_end (finished : buffer.size ≤ position) :
    tokensFrom chosen buffer position = [] := by
  rw [tokensFrom, dif_neg (Nat.not_lt.mpr finished)]

/-- Where no matches are chosen, the bytes become literals. -/
theorem tokensFrom_of_stretch
    {stop : Nat}
    (order : position ≤ stop)
    (inside : stop ≤ buffer.size)
    (absent : ∀ place, position ≤ place → place < stop → chosen place = none) :
    tokensFrom chosen buffer position =
      ((buffer.toList.take stop).drop position).map .literal ++
        tokensFrom chosen buffer stop := by
  induction remaining : stop - position generalizing position with
  | zero =>
      have same : position = stop := by omega
      rw [same, List.drop_of_length_le (List.length_take_le stop _), List.map_nil,
        List.nil_append]
  | succ remaining inductionHypothesis =>
      have before : position < stop := by omega
      have listed : position < (buffer.toList.take stop).length := by
        simp only [List.length_take, Array.length_toList]
        omega
      have rest := @inductionHypothesis (position + 1) before
        (fun place later => absent place (Nat.le_of_succ_le later)) (by omega)
      rw [tokensFrom_of_none (Nat.lt_of_lt_of_le before inside)
        (absent position (Nat.le_refl _) before), rest, List.drop_eq_getElem_cons listed,
        List.map_cons, List.cons_append, List.getElem_take, Array.getElem_toList]

/-- The tokens after some of them are those from the position where these end. -/
theorem tokensFrom_of_append
    {earlier later : List Token}
    (split : tokensFrom chosen buffer position = earlier ++ later) :
    tokensFrom chosen buffer (position + Token.totalLength earlier) = later := by
  induction earlier generalizing position with
  | nil => exact split
  | cons first earlier inductionHypothesis =>
      by_cases inside : position < buffer.size
      · rw [Token.totalLength_cons, ← Nat.add_assoc]
        apply inductionHypothesis
        cases taken : chosen position with
        | some held =>
            rw [tokensFrom_of_some inside taken] at split
            obtain ⟨rfl, following⟩ := List.cons.inj split
            exact following
        | none =>
            rw [tokensFrom_of_none inside taken] at split
            obtain ⟨rfl, following⟩ := List.cons.inj split
            exact following
      · rw [tokensFrom_of_end (Nat.le_of_not_lt inside)] at split
        cases split

/-- Nothing comes before the first byte, so it is a literal. -/
theorem tokensFrom_zero (nonempty : 0 < buffer.size) :
    tokensFrom (choice options buffer) buffer 0 =
      .literal buffer[0] :: tokensFrom (choice options buffer) buffer 1 :=
  tokensFrom_of_none nonempty (choice_of_none matchAt_zero)

/-- If one match is chosen for all that follows the first byte, it is the only copy. -/
theorem tokensFrom_zero_of_rest
    (nonempty : 1 < buffer.size)
    (taken : choice options buffer 1 = some held)
    (rest : buffer.size ≤ 1 + held.val.length) :
    tokensFrom (choice options buffer) buffer 0 =
      [.literal buffer[0], .copy held.val.length held.val.offset] := by
  rw [tokensFrom_zero (Nat.lt_of_succ_lt nonempty), tokensFrom_of_some nonempty taken,
    tokensFrom_of_end rest]

end Tokens

/-! ### Visiting every position -/

/-- The scan has visited the positions before `position` and no others, and has
inserted those with five bytes left if matches may have so many. -/
structure Visited (options : Options) (buffer : Buffer) (position : Nat) (scan : Scan) :
    Prop where
  sameBuffer : scan.buffer = buffer
  nextPos : scan.nextPos = position
  tracks : ∃ inserted, scan.Tracks inserted ∧
    (minLookahead ≤ options.maxMatchLen → inserted = available buffer position)

theorem visited_start
    {index : Index}
    (fits : buffer.size ≤ index.capacity) :
    Visited options buffer 0 (Scan.start index buffer fits) :=
  ⟨rfl, rfl, ∅, Scan.tracks_start fits, fun _ => rfl⟩

variable {scan : Scan}

theorem query_accepted
    (valid : options.validate = .ok ())
    (visited : Visited options buffer position scan)
    (inside : position < buffer.size)
    (bestLen : Nat) :
    (options.query buffer.size position bestLen).Accepted scan where
  depth := (Options.validate_eq_ok_iff.mp valid).1
  nice := Nat.min_le_right _ _
  inside := by
    simp only [Options.query, Options.limits, visited.sameBuffer]
    omega
  order := Nat.le_of_eq visited.nextPos

/-- A search of the next position answers as if all earlier ones were inserted. -/
theorem Visited.search
    (valid : options.validate = .ok ())
    (visited : Visited options buffer position scan)
    (inside : position < buffer.size)
    (bestLen : Nat) :
    ∃ after,
      (MonadVisit.search (options.query buffer.size position bestLen) : ScanM Match) scan =
        .ok ((options.query buffer.size position bestLen).answer buffer
          (available buffer position)) after ∧
      Visited options buffer (position + 1) after := by
  obtain ⟨inserted, tracks, complete⟩ := visited.tracks
  obtain ⟨after, ran, tracked, nextPos, _, frame⟩ :=
    Scan.longestMatch_spec tracks (query_accepted valid visited inside bestLen)
  have sameBuffer := visited.sameBuffer
  rw [sameBuffer] at ran tracked
  have maxLen : (options.query buffer.size position bestLen).maxLen =
      min options.maxMatchLen (buffer.size - position) := rfl
  refine ⟨after, ?_, (Scan.buffer_eq_of_frame frame).trans sameBuffer, nextPos, _, tracked, ?_⟩
  · by_cases wide : minLookahead ≤ options.maxMatchLen
    · rw [← complete wide]
      exact ran
    · -- no search inserts anything, but none has a match either
      have narrow : (options.query buffer.size position bestLen).maxLen < minLookahead := by
        omega
      rw [Query.answer, if_pos narrow] at ran ⊢
      exact ran
  · intro wide
    rw [available_add, complete wide, Visit.inserts, maxLen]
    congr 1
    ext entry
    simp only [Finset.mem_filter, Finset.mem_Ico]
    split
    · rw [Finset.mem_singleton]
      constructor
      · intro same
        subst same
        omega
      · intro both
        obtain ⟨bounds, _⟩ := both
        change entry = position
        omega
    · simp only [Finset.notMem_empty, false_iff]
      omega

theorem Visited.searchFirst
    (valid : options.validate = .ok ())
    (visited : Visited options buffer position scan)
    (inside : position < buffer.size) :
    ∃ result after,
      (MonadVisit.search (options.query buffer.size position (minMatchLen - 1)) :
        ScanM Match) scan = .ok result after ∧
      result.found? (minMatchLen - 1) = matchAt options buffer position ∧
      Visited options buffer (position + 1) after := by
  obtain ⟨after, ran, visitedAfter⟩ := visited.search valid inside (minMatchLen - 1)
  exact ⟨_, after, ran, rfl, visitedAfter⟩

/-- With a match held at the position before, a search finds the match at its
position if that is longer. -/
theorem Visited.searchAhead
    (valid : options.validate = .ok ())
    (visited : Visited options buffer (position + 1) scan)
    (inside : position + 1 < buffer.size)
    (three : 3 ≤ held.val.length)
    (short : held.val.length < (options.limits (buffer.size - position)).niceLen) :
    ∃ result after,
      (MonadVisit.search (options.query buffer.size (position + 1) held.val.length) :
        ScanM Match) scan = .ok result after ∧
      (∀ later, result.found? held.val.length = some later ↔
        matchAt options buffer (position + 1) = some later ∧
          held.val.length < later.val.length) ∧
      Visited options buffer (position + 1 + 1) after := by
  obtain ⟨after, ran, visitedAfter⟩ := visited.search valid inside held.val.length
  exact ⟨_, after, ran, fun later => found?_ahead_iff three short, visitedAfter⟩

theorem Visited.skip
    {count : Nat}
    (visited : Visited options buffer position scan)
    (nonempty : 0 < count)
    (inside : position + count ≤ buffer.size) :
    ∃ after,
      (MonadVisit.skip position count : ScanM Unit) scan = .ok () after ∧
      Visited options buffer (position + count) after := by
  obtain ⟨inserted, tracks, complete⟩ := visited.tracks
  have sameBuffer := visited.sameBuffer
  have accepted : scan.SkipAccepted position count :=
    ⟨nonempty, sameBuffer ▸ inside, Nat.le_of_eq visited.nextPos⟩
  obtain ⟨after, ran, tracked, nextPos, _, frame⟩ := Scan.skipPositions_spec tracks accepted
  rw [sameBuffer] at tracked
  refine ⟨after, ran, (Scan.buffer_eq_of_frame frame).trans sameBuffer, nextPos, _, tracked, ?_⟩
  intro wide
  rw [available_add, complete wide]
  rfl

theorem Visited.skipTo
    {stop : Nat}
    (visited : Visited options buffer position scan)
    (order : position ≤ stop)
    (inside : stop ≤ buffer.size) :
    ∃ after,
      (skipTo position stop : ScanM Unit) scan = .ok () after ∧
      Visited options buffer stop after := by
  unfold Parse.skipTo
  by_cases remains : position < stop
  · rw [if_pos remains]
    obtain ⟨after, ran, visitedAfter⟩ :=
      visited.skip (Nat.sub_pos_of_lt remains) (by omega)
    rw [Nat.add_sub_of_le order] at visitedAfter
    exact ⟨after, ran, visitedAfter⟩
  · rw [if_neg remains]
    have same : position = stop := by omega
    exact ⟨scan, rfl, same ▸ visited⟩

end Parse

end LempelZiv
