import LempelZiv.Token.Basic

/-!
Contract: the bytes a list of tokens stands for.

Owns:
- the copy of earlier output, in spans that double;
- the causes for which a copy is refused;
- the expansion of a token list, or the place of the first refused token.
-/

namespace LempelZiv

/-- Why a copy cannot be made. -/
inductive CopyFault where
  /-- A copy from the end of the output to itself. -/
  | badOffset
  /-- The source begins before the output does. -/
  | negativePosition (outputLength offset : Nat)
  /-- A copy of nothing. -/
  | badLength (length : Nat)
deriving DecidableEq, Repr

/-- The text shown for a refused copy. -/
def CopyFault.message : CopyFault → String
  | .badOffset =>
      "Offset is 0 in match token"
  | .negativePosition outputLength offset =>
      s!"Offset went past start of output: output length `{outputLength}`, " ++
        s!"offset `{offset}`"
  | .badLength length =>
      s!"Match length `{length}` is too short to encode a copy"

/-- The first token that cannot be expanded, and why. -/
structure ExpansionFault where
  token : Nat
  cause : CopyFault
deriving DecidableEq, Repr

/-- The text shown for a refused expansion. -/
def ExpansionFault.message (fault : ExpansionFault) : String :=
  s!"Error occured while expanding token `{fault.token}`:\n{fault.cause.message}"

namespace Buffer

/-- Repeat what follows `start` until the output has `stop` bytes.

Each pass appends everything after `start` again, so the appended part doubles;
only the last pass may be cut short. -/
def repeatFrom (start stop : Nat) (output : Buffer) (nonempty : start < output.size) :
    Buffer :=
  if unfinished : output.size < stop then
    let span := min (stop - output.size) (output.size - start)
    have grows : output.size < (output ++ output.extract start (start + span)).size := by
      simp only [Array.size_append, Array.size_extract]
      omega
    repeatFrom start stop (output ++ output.extract start (start + span))
      (Nat.lt_trans nonempty grows)
  else
    output
termination_by stop - output.size

/-- Append `length` bytes that begin `offset` bytes before the end of the output.
A refused copy leaves the output as it was. -/
def copyBack (offset length : Nat) : EStateM CopyFault Buffer Unit :=
  fun output =>
    if zeroOffset : offset = 0 then
      .error .badOffset output
    else if tooFar : output.size < offset then
      .error (.negativePosition output.size offset) output
    else if length = 0 then
      .error (.badLength length) output
    else
      .ok () (repeatFrom (output.size - offset) (output.size + length) output (by omega))

end Buffer

namespace Token

/-- Append the bytes of one token. -/
def append : Token → EStateM CopyFault Buffer Unit
  | literal byte => fun output => .ok () (output.push byte)
  | copy length offset => Buffer.copyBack offset length

/-- Append the bytes of `tokens`, the first of which is number `position`. -/
def expandFrom (position : Nat) (output : Buffer) :
    List Token → Except ExpansionFault Buffer
  | [] => .ok output
  | token :: rest =>
      match token.append output with
      | .ok _ extended => expandFrom (position + 1) extended rest
      | .error cause _ => .error ⟨position, cause⟩

/-- The bytes a list of tokens stands for. -/
def expand (tokens : List Token) : Except ExpansionFault Buffer :=
  expandFrom 0 #[] tokens

end Token

end LempelZiv
