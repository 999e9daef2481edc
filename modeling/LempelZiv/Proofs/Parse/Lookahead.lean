import LempelZiv.Proofs.Parse.Loops
import LempelZiv.Proofs.Search.Locality

/-!
Contract: how far ahead of a token a parse looks.

Owns:
- the positions at which tokens begin, and the bytes that follow there;
- the match at a position and the choice of each strategy, for two inputs that begin with
  the same bytes;
- the tokens that two such inputs have in common.

A greedy choice looks at the bytes that a copy from its position could cover, a lazy one also
at those that a copy from the next position could cover.  Where an input ends sooner, its
limits, its tables and its choices may differ, but only for tokens that lack these bytes.
-/

namespace LempelZiv

/-! ### Placed tokens -/

namespace Token

/-- The tokens with the positions at which they begin, the first one at `position`. -/
def placedFrom (position : Nat) : List Token → List (Nat × Token)
  | [] => []
  | token :: later => (position, token) :: placedFrom (position + token.length) later

/-- A token begins where those before it end. -/
theorem mem_placedFrom
    {position start : Nat}
    {token : Token}
    {tokens : List Token} :
    (start, token) ∈ placedFrom position tokens ↔
      ∃ earlier later,
        tokens = earlier ++ token :: later ∧ start = position + totalLength earlier := by
  induction tokens generalizing position with
  | nil => simp [placedFrom]
  | cons first rest inductionHypothesis =>
      rw [placedFrom, List.mem_cons, inductionHypothesis]
      constructor
      · rintro (here | ⟨earlier, later, rfl, rfl⟩)
        · cases here
          exact ⟨[], rest, rfl, rfl⟩
        · exact ⟨first :: earlier, later, rfl, Nat.add_assoc ..⟩
      · rintro ⟨earlier, later, split, rfl⟩
        cases earlier with
        | nil =>
            cases split
            exact .inl rfl
        | cons head earlier =>
            cases split
            exact .inr ⟨earlier, later, rfl, (Nat.add_assoc ..).symm⟩

/-- Those placed tokens after whose first byte so many of the first `known` bytes follow. -/
def withLookahead (known lookahead : Nat) (tokens : List (Nat × Token)) : List (Nat × Token) :=
  tokens.filter fun placed => placed.1 + 1 + lookahead ≤ known

variable {position known lookahead : Nat}

theorem withLookahead_cons
    (early : position + 1 + lookahead ≤ known)
    (token : Token)
    (later : List Token) :
    withLookahead known lookahead (placedFrom position (token :: later)) =
      (position, token) ::
        withLookahead known lookahead (placedFrom (position + token.length) later) :=
  List.filter_cons_of_pos (decide_eq_true early)

/-- Past the last position with enough bytes no token has enough. -/
theorem withLookahead_eq_nil
    (late : known < position + 1 + lookahead)
    (tokens : List Token) :
    withLookahead known lookahead (placedFrom position tokens) = [] := by
  apply List.filter_eq_nil_iff.mpr
  rintro ⟨start, token⟩ member
  obtain ⟨earlier, _, _, rfl⟩ := mem_placedFrom.mp member
  rw [decide_eq_true_eq]
  omega

end Token

namespace Parse

variable {options : Options} {left right : Buffer} {known position : Nat}

/-! ### Choices -/

/-- The end of the input does not show where the longest permissible copy fits before it. -/
theorem limits_of_le
    {remaining : Nat}
    (fits : options.maxMatchLen ≤ remaining) :
    options.limits remaining =
      ⟨options.maxMatchLen, min options.niceLen options.maxMatchLen⟩ := by
  rw [Options.limits, Nat.min_eq_left fits]

/-- Matches at a position with enough bytes among the common ones do not differ. -/
theorem matchAt_congr
    (same : left.SamePrefix right known)
    (inside : position + options.maxMatchLen ≤ known) :
    matchAt options left position = matchAt options right position := by
  have insideLeft := same.insideLeft
  have insideRight := same.insideRight
  by_cases narrow : options.maxMatchLen < minLookahead
  · rw [matchAt_eq_none (Nat.lt_of_le_of_lt (Nat.min_le_left ..) narrow),
      matchAt_eq_none (Nat.lt_of_le_of_lt (Nat.min_le_left ..) narrow)]
  have wide := Nat.le_of_not_lt narrow
  have sameQuery : options.query left.size position (minMatchLen - 1) =
      options.query right.size position (minMatchLen - 1) := by
    rw [Options.query, Options.query, limits_of_le (by omega), limits_of_le (by omega)]
  have queryInside : (options.query right.size position (minMatchLen - 1)).position +
      (options.query right.size position (minMatchLen - 1)).maxLen ≤ known := by
    simp only [Options.query, Options.limits]
    omega
  have earlier : ∀ entry ∈ Finset.range position, entry < position :=
    fun entry => Finset.mem_range.mp
  have sameAnswer := Query.answer_congr same queryInside earlier
  rw [matchAt, matchAt, sameQuery, available_eq_range (by omega), available_eq_range (by omega),
    sameAnswer]

/-- Neither strategy looks further ahead than at the match of the next position. -/
theorem choice_congr
    (same : left.SamePrefix right known)
    (inside : position + 1 + options.maxMatchLen ≤ known) :
    choice options left position = choice options right position := by
  have insideLeft := same.insideLeft
  have insideRight := same.insideRight
  have sameLimits : options.limits (left.size - position) =
      options.limits (right.size - position) := by
    rw [limits_of_le (by omega), limits_of_le (by omega)]
  have sameMatch : matchAt options left position = matchAt options right position :=
    matchAt_congr same (by omega)
  have sameAhead : matchAt options left (position + 1) = matchAt options right (position + 1) :=
    matchAt_congr same inside
  simp only [choice, postponed, sameMatch, sameAhead, sameLimits]

/-! ### Tokens -/

/-- Choices that agree where enough bytes are common lead to the same tokens there. -/
theorem withLookahead_tokensFrom_congr
    {lookahead : Nat}
    {chosen chosenOther : Nat → Option Match.Found}
    (same : left.SamePrefix right known)
    (sameChoice : ∀ place, place + 1 + lookahead ≤ known → chosen place = chosenOther place) :
    Token.withLookahead known lookahead
        (Token.placedFrom position (tokensFrom chosen left position)) =
      Token.withLookahead known lookahead
        (Token.placedFrom position (tokensFrom chosenOther right position)) := by
  induction remaining : known - position using Nat.strong_induction_on generalizing position with
  | _ remaining inductionHypothesis =>
      by_cases early : position + 1 + lookahead ≤ known
      · have below : position < known := by omega
        have insideLeft := Nat.lt_of_lt_of_le below same.insideLeft
        have insideRight := Nat.lt_of_lt_of_le below same.insideRight
        have sameHere := sameChoice position early
        cases taken : chosenOther position with
        | some held =>
            have nonempty := held.property
            have later := inductionHypothesis (known - (position + held.val.length)) (by omega) rfl
            rw [tokensFrom_of_some insideLeft (sameHere.trans taken),
              tokensFrom_of_some insideRight taken, Token.withLookahead_cons early,
              Token.withLookahead_cons early]
            exact congrArg _ later
        | none =>
            have later := inductionHypothesis (known - (position + 1)) (by omega) rfl
            rw [tokensFrom_of_none insideLeft (sameHere.trans taken),
              tokensFrom_of_none insideRight taken,
              same.getElem_eq below insideLeft insideRight,
              Token.withLookahead_cons early, Token.withLookahead_cons early]
            exact congrArg _ later
      · have late := Nat.lt_of_not_le early
        rw [Token.withLookahead_eq_nil late, Token.withLookahead_eq_nil late]

end Parse

namespace Parser

open Parse

variable {parser other : Parser} {left right : Buffer} {options : Options} {known : Nat}

/-- Inputs that begin with the same bytes are parsed, by whatever parsers can hold them, into
the same tokens as long as the first byte of a token, and as many bytes after it as a copy may
have, are among the common ones. -/
theorem parse_lookahead
    (valid : options.validate = .ok ())
    (same : left.SamePrefix right known)
    (nonempty : 0 < left.size)
    (nonemptyOther : 0 < right.size)
    (fits : left.size ≤ parser.capacity)
    (fitsOther : right.size ≤ other.capacity) :
    ∃ tokens after tokensOther afterOther,
      Parser.parse left options parser = .ok tokens after ∧
      Parser.parse right options other = .ok tokensOther afterOther ∧
      Token.withLookahead known options.maxMatchLen (Token.placedFrom 0 tokens) =
        Token.withLookahead known options.maxMatchLen (Token.placedFrom 0 tokensOther) := by
  obtain ⟨after, answered⟩ := parse_eq nonempty valid fits
  obtain ⟨afterOther, answeredOther⟩ := parse_eq nonemptyOther valid fitsOther
  exact ⟨_, after, _, afterOther, answered, answeredOther,
    withLookahead_tokensFrom_congr same fun place => choice_congr same⟩

/-- `abcdeabcdef` by itself and followed by `abcdef`: all tokens up to the copy have six common
bytes from their first on. -/
theorem parse_lookahead_abcdef :
    ∃ parser other,
      (Options.mk .lazy 4 5 5).validate = .ok () ∧
      11 ≤ parser.capacity ∧
      17 ≤ other.capacity ∧
      Buffer.SamePrefix #[97, 98, 99, 100, 101, 97, 98, 99, 100, 101, 102]
        #[97, 98, 99, 100, 101, 97, 98, 99, 100, 101, 102, 97, 98, 99, 100, 101, 102] 11 ∧
      ∃ tokens after tokensOther afterOther,
        Parser.parse #[97, 98, 99, 100, 101, 97, 98, 99, 100, 101, 102] ⟨.lazy, 4, 5, 5⟩
          parser = .ok tokens after ∧
        Parser.parse
          #[97, 98, 99, 100, 101, 97, 98, 99, 100, 101, 102, 97, 98, 99, 100, 101, 102]
          ⟨.lazy, 4, 5, 5⟩ other = .ok tokensOther afterOther ∧
        Token.withLookahead 11 5 (Token.placedFrom 0 tokens) =
          [(0, .literal 97), (1, .literal 98), (2, .literal 99), (3, .literal 100),
            (4, .literal 101), (5, .copy 5 5)] ∧
        Token.withLookahead 11 5 (Token.placedFrom 0 tokensOther) =
          Token.withLookahead 11 5 (Token.placedFrom 0 tokens) := by
  obtain ⟨parser, capacity⟩ := exists_capacity_eq (show 11 < Slot.limit by decide)
  obtain ⟨other, capacityOther⟩ := exists_capacity_eq (show 17 < Slot.limit by decide)
  have fits : 11 ≤ parser.capacity := Nat.le_of_eq capacity.symm
  have fitsOther : 17 ≤ other.capacity := Nat.le_of_eq capacityOther.symm
  have valid : (Options.mk .lazy 4 5 5).validate = .ok () := rfl
  have same : Buffer.SamePrefix #[97, 98, 99, 100, 101, 97, 98, 99, 100, 101, 102]
      #[97, 98, 99, 100, 101, 97, 98, 99, 100, 101, 102, 97, 98, 99, 100, 101, 102] 11 :=
    ⟨by decide, by decide, by decide⟩
  have nonempty : 0 < (#[97, 98, 99, 100, 101, 97, 98, 99, 100, 101, 102] : Buffer).size := by
    decide
  obtain ⟨tokens, after, tokensOther, afterOther, answered, answeredOther, agree⟩ :=
    parse_lookahead valid same nonempty (by decide) fits fitsOther
  obtain ⟨_, answeredTokens⟩ := parse_eq nonempty valid fits
  have literals : ∀ place, 0 ≤ place → place < 5 →
      choice ⟨.lazy, 4, 5, 5⟩ #[97, 98, 99, 100, 101, 97, 98, 99, 100, 101, 102] place = none := by
    decide +kernel
  have copied : choice ⟨.lazy, 4, 5, 5⟩ #[97, 98, 99, 100, 101, 97, 98, 99, 100, 101, 102] 5 =
      some ⟨⟨5, 5⟩, by decide⟩ := by
    decide +kernel
  have last :
      choice ⟨.lazy, 4, 5, 5⟩ #[97, 98, 99, 100, 101, 97, 98, 99, 100, 101, 102] 10 = none := by
    decide +kernel
  have ended : tokensFrom
      (choice ⟨.lazy, 4, 5, 5⟩ #[97, 98, 99, 100, 101, 97, 98, 99, 100, 101, 102])
      #[97, 98, 99, 100, 101, 97, 98, 99, 100, 101, 102] 10 = [.literal 102] := by
    rw [tokensFrom_of_none (by decide) last, tokensFrom_of_end (by decide)]
    rfl
  have listed : Token.withLookahead 11 5 (Token.placedFrom 0 tokens) =
      [(0, .literal 97), (1, .literal 98), (2, .literal 99), (3, .literal 100),
        (4, .literal 101), (5, .copy 5 5)] := by
    cases answered.symm.trans answeredTokens
    rw [tokensFrom_of_stretch (Nat.zero_le 5) (by decide) literals,
      tokensFrom_of_some (by decide) copied]
    simp only [Nat.reduceAdd, ended]
    rfl
  exact ⟨parser, other, valid, fits, fitsOther, same, tokens, after, tokensOther, afterOther,
    answered, answeredOther, listed, agree.symm⟩

end Parser

end LempelZiv
