import LempelZiv.Proofs.Parse.Outcome

/-!
Contract: what a parse may emit.

Owns:
- the tokens that may stand at a position of an input, and lists of them that cover the
  input from a position to its end;
- the proof that every answered parse emits such a list.

Does not own: the expansion of such lists.
-/

namespace LempelZiv

/-- The token may stand at a position: it is the byte there, or it copies a permitted
number of equal bytes from an earlier position. -/
inductive Options.Encodes (options : Options) (input : Buffer) (position : Nat) :
    Token → Prop where
  | literal
      {byte : UInt8}
      (same : input[position]? = some byte) :
      Encodes options input position (.literal byte)
  | copy
      {length offset : Nat}
      (atLeast : 3 ≤ length)
      (atMost : length ≤ min options.maxMatchLen (input.size - position))
      (backward : 1 ≤ offset)
      (reaches : offset ≤ position)
      (lookahead : position + 5 ≤ input.size)
      (agrees : ∀ place < length,
        input[position + place]? = input[position - offset + place]?) :
      Encodes options input position (.copy length offset)

namespace Parse

/-- Tokens from `position` to the end of the buffer, each of which may stand where the
one before ends. -/
inductive Encodable (options : Options) (buffer : Buffer) : (position : Nat) →
    List Token → Prop where
  | done : Encodable options buffer buffer.size []
  | token
      {position : Nat}
      {token : Token}
      {rest : List Token}
      (encodes : options.Encodes buffer position token)
      (following : Encodable options buffer (position + token.length) rest) :
      Encodable options buffer position (token :: rest)

variable {options : Options} {buffer : Buffer} {position : Nat} {tokens : List Token}

/-! ### Covering a buffer -/

theorem Encodable.add_totalLength (encodable : Encodable options buffer position tokens) :
    position + Token.totalLength tokens = buffer.size := by
  induction encodable with
  | done => rfl
  | @token position token rest _ _ inductionHypothesis =>
      rw [Token.totalLength_cons, ← Nat.add_assoc]
      exact inductionHypothesis

theorem Encodable.encodes_of_append
    {earlier later : List Token}
    {token : Token}
    (encodable : Encodable options buffer position (earlier ++ token :: later)) :
    options.Encodes buffer (position + Token.totalLength earlier) token := by
  induction earlier generalizing position with
  | nil =>
      cases encodable with
      | token encodes _ => exact encodes
  | cons first earlier inductionHypothesis =>
      cases encodable with
      | token _ following =>
          rw [Token.totalLength_cons, ← Nat.add_assoc]
          exact inductionHypothesis following

/-! ### Chosen tokens -/

/-- Where fewer than five bytes are left, no match is found. -/
theorem lookahead_of_matchAt
    {held : Match.Found}
    (found : matchAt options buffer position = some held) :
    position + 5 ≤ buffer.size := by
  by_contra narrow
  have absent : matchAt options buffer position = none := by
    apply matchAt_eq_none
    simp only [Options.limits, minLookahead]
    omega
  rw [absent] at found
  cases found

theorem encodes_of_matchAt
    {held : Match.Found}
    (inside : position ≤ buffer.size)
    (found : matchAt options buffer position = some held) :
    options.Encodes buffer position (.copy held.val.length held.val.offset) := by
  have genuine := matchAt_genuine inside found
  exact .copy genuine.atLeast genuine.atMost genuine.backward genuine.reaches
    (lookahead_of_matchAt found) genuine.agrees

/-- Whatever a strategy chooses can be encoded. -/
theorem encodable_tokensFrom (inside : position ≤ buffer.size) :
    Encodable options buffer position
      (tokensFrom (choice options buffer) buffer position) := by
  induction remaining : buffer.size - position using Nat.strong_induction_on
    generalizing position with
  | _ remaining inductionHypothesis =>
      by_cases more : position < buffer.size
      · cases chosen : choice options buffer position with
        | some held =>
            have found := matchAt_of_choice chosen
            obtain ⟨three, ends⟩ := matchAt_inside inside found
            have following : Encodable options buffer (position + held.val.length)
                (tokensFrom (choice options buffer) buffer (position + held.val.length)) :=
              inductionHypothesis _ (by omega) ends rfl
            rw [tokensFrom_of_some more chosen]
            exact .token (encodes_of_matchAt inside found) following
        | none =>
            have following : Encodable options buffer (position + 1)
                (tokensFrom (choice options buffer) buffer (position + 1)) :=
              inductionHypothesis _ (by omega) more rfl
            rw [tokensFrom_of_none more chosen]
            exact .token (.literal (Array.getElem?_eq_getElem more)) following
      · have finished : position = buffer.size := by omega
        rw [tokensFrom_of_end (Nat.le_of_not_lt more), finished]
        exact .done

end Parse

namespace Parser

variable {parser after : Parser} {input : Buffer} {options : Options} {tokens : List Token}

/-- A parse that answers emits the tokens of its choices. -/
theorem tokens_of_parse_eq_ok (ran : Parser.parse input options parser = .ok tokens after) :
    tokens = Parse.tokensFrom (Parse.choice options input) input 0 := by
  obtain ⟨nonempty, valid, fits⟩ := parsable_of_parse_eq_ok ran
  obtain ⟨done, answered⟩ := parse_eq nonempty valid fits
  rw [answered] at ran
  cases ran
  rfl

/-- The tokens of an answered parse stand for as many bytes as the input has, and each
may stand where the tokens before it end. -/
theorem parse_encodes (ran : Parser.parse input options parser = .ok tokens after) :
    Token.totalLength tokens = input.size ∧
      ∀ earlier token later,
        tokens = earlier ++ token :: later →
          options.Encodes input (Token.totalLength earlier) token := by
  have encodable : Parse.Encodable options input 0 tokens := by
    rw [tokens_of_parse_eq_ok ran]
    exact Parse.encodable_tokensFrom (Nat.zero_le _)
  constructor
  · rw [← encodable.add_totalLength, Nat.zero_add]
  · intro earlier token later split
    subst split
    have encodes := encodable.encodes_of_append
    rwa [Nat.zero_add] at encodes

/-- Eight equal bytes, parsed at the standard level. -/
theorem parse_encodes_aaaaaaaa :
    ∃ parser after,
      Parser.parse #[97, 97, 97, 97, 97, 97, 97, 97] Options.standard parser =
        .ok [.literal 97, .copy 7 1] after ∧
      Token.totalLength [.literal 97, .copy 7 1] = 8 ∧
      Options.standard.Encodes #[97, 97, 97, 97, 97, 97, 97, 97] 0 (.literal 97) ∧
      Options.standard.Encodes #[97, 97, 97, 97, 97, 97, 97, 97] 1 (.copy 7 1) := by
  obtain ⟨parser, capacity⟩ := exists_capacity_eq (show 8 < Slot.limit by decide)
  obtain ⟨after, ran⟩ := @parse_eq parser #[97, 97, 97, 97, 97, 97, 97, 97] Options.standard
    (by decide) rfl (Nat.le_of_eq capacity.symm)
  have copied : Parse.choice Options.standard #[97, 97, 97, 97, 97, 97, 97, 97] 1 =
      some ⟨⟨7, 1⟩, by decide⟩ := by
    decide +kernel
  rw [Parse.tokensFrom_zero_of_rest (by decide) copied (by decide)] at ran
  obtain ⟨total, encodes⟩ := parse_encodes ran
  exact ⟨parser, after, ran, total, encodes [] _ _ rfl, encodes [.literal 97] _ [] rfl⟩

end Parser

end LempelZiv
