import LempelZiv.Buffer.Basic

/-!
Contract: the pieces a buffer is parsed into.

Owns: the two kinds of token and the number of bytes each stands for.
-/

namespace LempelZiv

/-- A byte as it is, or a copy of earlier bytes.  A copy may overlap the bytes
it produces. -/
inductive Token where
  | literal (byte : UInt8)
  | copy (length offset : Nat)
deriving DecidableEq, Repr

namespace Token

/-- Number of bytes a token stands for. -/
def length : Token → Nat
  | literal _ => 1
  | copy length _ => length

/-- Whether a token stands for no byte. -/
def isEmpty (token : Token) : Bool :=
  token.length == 0

/-- Whether a token is a copy. -/
def isCopy : Token → Bool
  | literal _ => false
  | copy _ _ => true

/-- Number of bytes a list of tokens stands for. -/
def totalLength (tokens : List Token) : Nat :=
  tokens.foldr (fun token rest => token.length + rest) 0

@[simp] theorem totalLength_nil : totalLength [] = 0 := rfl

@[simp] theorem totalLength_cons (token : Token) (rest : List Token) :
    totalLength (token :: rest) = token.length + totalLength rest := rfl

end Token

end LempelZiv
