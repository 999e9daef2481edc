import LempelZiv.Parse.Lazy

/-!
Contract: parsing inputs one after another with one index.

Owns:
- the parser, and the causes for which it refuses an input;
- the parse of an input by a parser or with an index of its own.

A refused input changes nothing and reports nothing.
-/

namespace LempelZiv

/-- Why an input is not parsed. -/
inductive ParseFault where
  | emptyInput
  | invalidOptions (fault : OptionFault)
  | inputTooLarge (length capacity : Nat)
  /-- The parse broke a rule of the index. -/
  | contractBroken (violation : Violation)
deriving DecidableEq, Repr

/-- The text shown for a refused input. -/
def ParseFault.message : ParseFault → String
  | .emptyInput =>
      "No input provided to parse"
  | .invalidOptions fault =>
      s!"Invalid parse options: {fault.message}"
  | .inputTooLarge length capacity =>
      s!"Input of `{length}` bytes exceeds match index capacity of `{capacity}` bytes"
  | .contractBroken violation =>
      violation.message

/-- A parser for inputs up to the capacity of its index. -/
structure Parser where
  index : Index

namespace Parser

/-- A parser with a new index. -/
def create (capacity : Nat) : Except Violation Parser :=
  (Index.create capacity).map Parser.mk

/-- The longest input that can be parsed. -/
def capacity (parser : Parser) : Nat :=
  parser.index.capacity

/-- The loop of a strategy. -/
def loop : Strategy → Options → Buffer → ScanM (Array Token)
  | .greedy => Parse.greedy
  | .lazy => Parse.lazy

/-- What is reported of a finished parse. -/
def parsedEvent (options : Options) (input : Buffer) (tokens : Array Token) : Event :=
  .parsed options.strategy input.size tokens.size (tokens.countP Token.isCopy)

/-- Parse `input` into tokens. -/
def parse (input : Buffer) (options : Options) :
    EStateM ParseFault Parser (List Token) :=
  fun parser =>
    if input.size = 0 then
      .error .emptyInput parser
    else
      match options.validate with
      | .error fault => .error (.invalidOptions fault) parser
      | .ok () =>
          if fits : input.size ≤ parser.index.capacity then
            match loop options.strategy options input
                (Scan.start parser.index input fits) with
            | .ok tokens scan =>
                .ok tokens.toList ⟨scan.index.report (parsedEvent options input tokens)⟩
            | .error violation scan =>
                .error (.contractBroken violation) ⟨scan.index⟩
          else
            .error (.inputTooLarge input.size parser.index.capacity) parser

end Parser

/-- Parse `input` with an index of its own, and tell what was reported. -/
def parse (input : Buffer) (options : Options) :
    Except ParseFault (List Token) × Journal :=
  match Parser.create input.size with
  | .error violation => (.error (.contractBroken violation), #[])
  | .ok parser =>
      match parser.parse input options with
      | .ok tokens after => (.ok tokens, after.index.journal)
      | .error fault after => (.error fault, after.index.journal)

end LempelZiv
