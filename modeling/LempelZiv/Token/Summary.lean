import LempelZiv.Token.Basic

/-!
Contract: a short account of a long token list.

Owns: counts, total length, both ends and a 32-bit fingerprint.

A summary only shows a result that is too long to print.  Neither the parsers nor
the theorems about them depend on it.
-/

namespace LempelZiv

/-- What is told of a token list that is too long to show. -/
structure Summary where
  tokens : Nat
  copies : Nat
  fingerprint : UInt32
  totalLength : Nat
  first : List Token
  last : List Token
deriving DecidableEq, Repr

namespace Summary

/-- One step of a polynomial fingerprint. -/
def mix (fingerprint : UInt32) (value : Nat) : UInt32 :=
  fingerprint * 31 + UInt32.ofNat value

/-- A literal mixes in its byte; a copy mixes in 256, its length and its offset. -/
def mixToken (fingerprint : UInt32) : Token → UInt32
  | .literal byte => mix fingerprint byte.toNat
  | .copy length offset => mix (mix (mix fingerprint 256) length) offset

/-- The longest part shown of either end. -/
def shown : Nat := 40

/-- The summary of a token list. -/
def ofTokens (tokens : List Token) : Summary where
  tokens := tokens.length
  copies := tokens.countP Token.isCopy
  fingerprint := tokens.foldl mixToken 0
  totalLength := Token.totalLength tokens
  first := tokens.take shown
  last := tokens.drop (tokens.length - shown)

end Summary

end LempelZiv
