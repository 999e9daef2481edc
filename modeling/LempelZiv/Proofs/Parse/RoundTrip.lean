import LempelZiv.Proofs.Parse.Encodable
import LempelZiv.Proofs.Token.Copy

/-!
Contract: expanding what was parsed.

Owns:
- the tokens of either strategy spell the input they were parsed from;
- the round trip through any parser whose capacity suffices.
-/

namespace LempelZiv

namespace Parse

variable {options : Options} {buffer : Buffer} {position : Nat} {tokens : List Token}

theorem Encodable.spells (encodable : Encodable options buffer position tokens) :
    Token.Spells buffer position tokens := by
  induction encodable with
  | done => exact .done
  | token encodes _ spelled =>
      cases encodes with
      | literal same =>
          obtain ⟨inside, rfl⟩ := Array.getElem?_eq_some_iff.mp same
          exact .literal inside spelled
      | copy atLeast atMost backward reaches lookahead agrees =>
          exact .copy (Nat.le_trans (by decide) atLeast) backward reaches (by omega) agrees
            spelled

/-- Every chosen match is genuine, so the tokens spell the buffer. -/
theorem spells_tokensFrom (inside : position ≤ buffer.size) :
    Token.Spells buffer position (tokensFrom (choice options buffer) buffer position) :=
  (encodable_tokensFrom inside).spells

end Parse

namespace Parser

/-- A parser of sufficient capacity, whatever its tables hold, answers a non-empty
input and valid options with tokens that expand to the input. -/
theorem expand_parse
    {parser : Parser}
    {input : Buffer}
    {options : Options}
    (nonempty : 0 < input.size)
    (valid : options.validate = .ok ())
    (fits : input.size ≤ parser.capacity) :
    ∃ tokens after,
      Parser.parse input options parser = .ok tokens after ∧
      Token.expand tokens = .ok input := by
  obtain ⟨after, ran⟩ := parse_eq nonempty valid fits
  exact ⟨_, after, ran, (Parse.spells_tokensFrom (Nat.zero_le _)).expand_eq⟩

/-- A run of eight equal bytes, parsed at the standard level. -/
theorem expand_parse_aaaaaaaa :
    ∃ parser : Parser,
      0 < 8 ∧
      Options.standard.validate = .ok () ∧
      8 ≤ parser.capacity ∧
      ∃ after,
        Parser.parse #[97, 97, 97, 97, 97, 97, 97, 97] Options.standard parser =
          .ok [.literal 97, .copy 7 1] after ∧
        Token.expand [.literal 97, .copy 7 1] = .ok #[97, 97, 97, 97, 97, 97, 97, 97] := by
  obtain ⟨parser, capacity⟩ := exists_capacity_eq (show 8 < Slot.limit by decide)
  have fits : 8 ≤ parser.capacity := Nat.le_of_eq capacity.symm
  have nonempty : 0 < 8 := by decide
  have valid : Options.standard.validate = .ok () := rfl
  obtain ⟨tokens, after, ran, expanded⟩ :=
    @expand_parse parser #[97, 97, 97, 97, 97, 97, 97, 97] Options.standard nonempty valid fits
  obtain ⟨_, answered⟩ :=
    @parse_eq parser #[97, 97, 97, 97, 97, 97, 97, 97] Options.standard nonempty valid fits
  have copied : Parse.choice Options.standard #[97, 97, 97, 97, 97, 97, 97, 97] 1 =
      some ⟨⟨7, 1⟩, by decide⟩ := by
    decide +kernel
  rw [Parse.tokensFrom_zero_of_rest (by decide) copied (by decide)] at answered
  cases ran.symm.trans answered
  exact ⟨parser, nonempty, valid, fits, _, ran, expanded⟩

end Parser

end LempelZiv
