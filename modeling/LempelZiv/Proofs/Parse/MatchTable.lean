import LempelZiv.Proofs.Parse.Loops

/-!
Contract: a parse as a function of one table of matches.

Owns:
- the table of what a new index finds at each position once all earlier positions
  were skipped;
- the choice of each strategy over a table, without any scan;
- the agreement of every parse with the tokens of these choices, and of each of its
  searches with the table.

A parse searches some positions and skips others, and the lazy one searches with a
match in hand.  None of this shows: an index depends on the set of visited positions
only, and the match in hand only hides matches that are no longer than itself.
-/

namespace LempelZiv

namespace Parse

/-- The match that a new index finds at a position of the buffer after everything
before it was skipped. -/
def matchTable (options : Options) (buffer : Buffer) (position : Nat) :
    Option Match.Found :=
  if position < buffer.size then
    (Scan.freshMatch buffer
      (options.query buffer.size position (minMatchLen - 1))).1.toOption.bind
        (·.found? (minMatchLen - 1))
  else
    none

/-- A match of this length at a position is taken without a look at the next one. -/
def matchLimit (options : Options) (buffer : Buffer) (position : Nat) : Nat :=
  min options.niceLen (min options.maxMatchLen (buffer.size - position))

/-- The match that a strategy takes at a position where a token begins, given the
matches of all positions.

`greedy` takes every match.  `lazy` leaves one that is shorter than the limit if the
next position has a longer one. -/
def pick (strategy : Strategy) (table : Nat → Option Match.Found) (limit : Nat → Nat)
    (position : Nat) : Option Match.Found :=
  match strategy with
  | .greedy => table position
  | .lazy =>
      (table position).filter fun held =>
        !(held.val.length < limit position &&
          (table (position + 1)).any fun later => held.val.length < later.val.length)

variable {options : Options} {buffer : Buffer} {position : Nat}

theorem pick_matchAt :
    pick options.strategy (matchAt options buffer) (matchLimit options buffer) =
      choice options buffer := by
  funext position
  unfold pick choice
  cases options.strategy <;> rfl

theorem matchAfterSkip_eq_skipTo (query : Query) :
    Scan.matchAfterSkip query =
      (skipTo 0 query.position >>= fun _ => Scan.longestMatch query : ScanM Match) := by
  unfold Scan.matchAfterSkip skipTo
  split <;> rfl

/-- A new index answers a query as if all earlier positions were inserted. -/
theorem freshMatch_eq
    (addressable : buffer.size < Slot.limit)
    (valid : options.validate = .ok ())
    (inside : position < buffer.size)
    (bestLen : Nat) :
    (Scan.freshMatch buffer (options.query buffer.size position bestLen)).1 =
      .ok ((options.query buffer.size position bestLen).answer buffer
        (available buffer position)) := by
  let index := Index.blank buffer.size
    #[.allocated buffer.size (Index.tableBytes buffer.size)] addressable
  have fits : buffer.size ≤ index.capacity := by rw [Index.capacity_blank]
  have opened : (Index.create buffer.size >>= fun index => index.scan buffer) =
      .ok (Scan.start index buffer fits) := by
    rw [Index.create, dif_pos addressable]
    exact dif_pos fits
  have begun : Visited options buffer 0 (Scan.start index buffer fits) := visited_start fits
  obtain ⟨skipped, ranSkip, visited⟩ :=
    begun.skipTo (Nat.zero_le position) (Nat.le_of_lt inside)
  obtain ⟨after, ran, _⟩ := visited.search valid inside bestLen
  have answered : Scan.matchAfterSkip (options.query buffer.size position bestLen)
      (Scan.start index buffer fits) =
        .ok ((options.query buffer.size position bestLen).answer buffer
          (available buffer position)) after := by
    rw [matchAfterSkip_eq_skipTo]
    exact (Scan.bind_of_ok ranSkip _).trans ran
  rw [Scan.freshMatch, opened]
  simp only [answered]

theorem matchTable_eq_matchAt
    (addressable : buffer.size < Slot.limit)
    (valid : options.validate = .ok ()) :
    matchTable options buffer = matchAt options buffer := by
  funext position
  rw [matchTable]
  by_cases inside : position < buffer.size
  · rw [if_pos inside, freshMatch_eq addressable valid inside]
    rfl
  · rw [if_neg inside, matchAt_of_size_le (Nat.le_of_not_lt inside)]

/-- A search finds what the table holds, provided that this is longer than the best
length it was asked with. -/
theorem found?_of_sought
    {bestLen : Nat}
    (sought : Sought options buffer position bestLen) :
    ((options.query buffer.size position bestLen).answer buffer
        (available buffer position)).found? bestLen =
      (matchAt options buffer position).filter (bestLen < ·.val.length) := by
  apply Option.ext
  intro found
  rw [Option.filter_eq_some_iff, decide_eq_true_eq]
  rcases sought with rfl | ⟨previous, rfl, three, short⟩
  · exact Match.found?_eq_some_iff_of_le (Nat.le_refl _)
  · exact found?_ahead_iff three short

end Parse

namespace Parser

open Parse

/-- A parse is a function of a table of matches: the tokens are those that its strategy
picks from the table, and its searches find what the table holds. -/
structure FollowsTable (parser : Parser) (input : Buffer) (options : Options)
    (table : Nat → Option Match.Found) (visits : List Visit) (tokens : List Token)
    (after : Parser) : Prop where
  answers : Parser.parse input options parser = .ok tokens after
  picks : tokens = tokensFrom (pick options.strategy table (matchLimit options input)) input 0
  makes : parser.Makes input options visits tokens
  /-- Of the match in the table, a search only misses one that is no longer than the
  best length it was asked with. -/
  finds : ∀ earlier query later,
    visits = earlier ++ .search query :: later →
      ∃ before result next,
        parser.Arrives input earlier before ∧
        Scan.longestMatch query before = .ok result next ∧
        result.found? query.bestLen =
          (table query.position).filter (query.bestLen < ·.val.length)

variable {parser : Parser} {input : Buffer} {options : Options}

/-- Each search of a parse finds what the table holds. -/
theorem Arrives.search
    {earlier later : List Visit}
    {query : Query}
    {scan : Scan}
    {stop : Nat}
    (addressable : input.size < Slot.limit)
    (valid : options.validate = .ok ())
    (arrives : parser.Arrives input (earlier ++ .search query :: later) scan)
    (calls : Calls options input 0 (earlier ++ .search query :: later) stop) :
    ∃ before result next,
      parser.Arrives input earlier before ∧
      Scan.longestMatch query before = .ok result next ∧
      result.found? query.bestLen =
        (matchTable options input query.position).filter (query.bestLen < ·.val.length) := by
  obtain ⟨position, before, arrivesBefore, visited, following, _⟩ := arrives.split valid calls
  cases following with
  | @search _ _ bestLen _ inside sought _ =>
      obtain ⟨next, ran, _⟩ := visited.search valid inside bestLen
      refine ⟨before, _, next, arrivesBefore, ran, ?_⟩
      rw [matchTable_eq_matchAt addressable valid]
      exact found?_of_sought sought

/-- Every parse of a non-empty input that fits, with valid options, follows the table
of what a new index finds at each position. -/
theorem parse_followsTable
    (nonempty : 0 < input.size)
    (valid : options.validate = .ok ())
    (fits : input.size ≤ parser.capacity) :
    (∀ position < input.size, ∃ result,
      (Scan.freshMatch input (options.query input.size position (minMatchLen - 1))).1 =
        .ok result) ∧
      ∃ visits tokens after,
        parser.FollowsTable input options (matchTable options input) visits tokens after := by
  have addressable : input.size < Slot.limit :=
    Nat.lt_of_le_of_lt fits parser.index.addressable
  refine ⟨fun position inside => ⟨_, freshMatch_eq addressable valid inside _⟩, ?_⟩
  obtain ⟨visits, scan, after, answers, makes, arrives, calls⟩ := parse_makes nonempty valid fits
  refine ⟨visits, _, after, answers, ?_, makes, ?_⟩
  · rw [matchTable_eq_matchAt addressable valid, pick_matchAt]
  · intro earlier query later split
    subst split
    exact arrives.search addressable valid calls

/-- The standard level leaves the second `x` to a literal, since the match of `abcde`
after it is longer than the one of `xab`. -/
theorem parse_followsTable_xabcde :
    ∃ parser : Parser,
      0 < 15 ∧
      Options.standard.validate = .ok () ∧
      15 ≤ parser.capacity ∧
      (∀ position < 15, ∃ result,
        (Scan.freshMatch
          #[120, 97, 98, 81, 97, 98, 99, 100, 101, 120, 97, 98, 99, 100, 101]
          (Options.standard.query 15 position (minMatchLen - 1))).1 = .ok result) ∧
      (matchTable Options.standard
        #[120, 97, 98, 81, 97, 98, 99, 100, 101, 120, 97, 98, 99, 100, 101] 9).map Subtype.val =
          some ⟨3, 9⟩ ∧
      (matchTable Options.standard
        #[120, 97, 98, 81, 97, 98, 99, 100, 101, 120, 97, 98, 99, 100, 101] 10).map Subtype.val =
          some ⟨5, 6⟩ ∧
      ∃ visits after,
        parser.FollowsTable
          #[120, 97, 98, 81, 97, 98, 99, 100, 101, 120, 97, 98, 99, 100, 101]
          Options.standard
          (matchTable Options.standard
            #[120, 97, 98, 81, 97, 98, 99, 100, 101, 120, 97, 98, 99, 100, 101])
          visits
          [.literal 120, .literal 97, .literal 98, .literal 81, .literal 97, .literal 98,
            .literal 99, .literal 100, .literal 101, .literal 120, .copy 5 6]
          after := by
  obtain ⟨parser, capacity⟩ := exists_capacity_eq (show 15 < Slot.limit by decide)
  have fits : 15 ≤ parser.capacity := Nat.le_of_eq capacity.symm
  have nonempty : 0 < 15 := by decide
  have valid : Options.standard.validate = .ok () := rfl
  have table := @matchTable_eq_matchAt Options.standard
    #[120, 97, 98, 81, 97, 98, 99, 100, 101, 120, 97, 98, 99, 100, 101] (by decide) valid
  have literals : ∀ place, 0 ≤ place → place < 10 →
      choice Options.standard
        #[120, 97, 98, 81, 97, 98, 99, 100, 101, 120, 97, 98, 99, 100, 101] place = none := by
    decide +kernel
  have copied : choice Options.standard
      #[120, 97, 98, 81, 97, 98, 99, 100, 101, 120, 97, 98, 99, 100, 101] 10 =
        some ⟨⟨5, 6⟩, by decide⟩ := by
    decide +kernel
  obtain ⟨answers, visits, tokens, after, follows⟩ := @parse_followsTable parser
    #[120, 97, 98, 81, 97, 98, 99, 100, 101, 120, 97, 98, 99, 100, 101] _ nonempty valid fits
  have picked := follows.picks
  rw [table, pick_matchAt, tokensFrom_of_stretch (Nat.zero_le 10) (by decide) literals,
    tokensFrom_of_some (by decide) copied, tokensFrom_of_end (by decide)] at picked
  subst picked
  refine ⟨parser, nonempty, valid, fits, answers, ?_, ?_, visits, after, follows⟩
  · rw [table]
    decide +kernel
  · rw [table]
    decide +kernel

end Parser

end LempelZiv
