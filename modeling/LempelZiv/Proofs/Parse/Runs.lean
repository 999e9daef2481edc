import LempelZiv.Proofs.Parse.Reuse

/-!
Contract: how a run of equal bytes is parsed.

Owns:
- the tokens for the bytes of a run after its first;
- the answer of a search whose newest inserted position shares all that is permitted: that
  position, even if the search may inspect no other;
- the tokens of a run for every strategy and every effort.

At each position of a run the one before it is the newest, and it shares as many bytes as
there are.  A match with it ends the search, and no strategy waits for a longer one.
-/

namespace LempelZiv

/-- The tokens for so many more bytes that all equal the one before them: copies of that
byte, as long as is permitted, while five bytes remain, and literals in the end. -/
def Token.repeating (longest : Nat) (wide : minLookahead ≤ longest) (byte : UInt8)
    (remaining : Nat) : List Token :=
  if minLookahead ≤ remaining then
    .copy (min longest remaining) 1 ::
      Token.repeating longest wide byte (remaining - min longest remaining)
  else
    List.replicate remaining (.literal byte)
termination_by remaining
decreasing_by
  rename_i lookahead
  rw [minLookahead] at wide lookahead
  omega

/-! ### Equal bytes -/

theorem Buffer.sharedLength_replicate
    {count left right limit : Nat}
    (byte : UInt8)
    (earlier : right ≤ left)
    (inside : left + limit ≤ count) :
    Buffer.sharedLength (Array.replicate count byte) left right limit = limit := by
  have byteAt : ∀ place < count, Buffer.byte (Array.replicate count byte) place = byte := by
    intro place below
    rw [Buffer.byte_eq_getElem (by rwa [Array.size_replicate]), Array.getElem_replicate]
  apply Nat.le_antisymm (Buffer.sharedLength_le left right limit)
  refine Buffer.le_sharedLength_iff.mpr ⟨Nat.le_refl limit, fun place below => ?_⟩
  rw [byteAt _ (by omega), byteAt _ (by omega)]

/-- If the newest inserted position shares all that is permitted, it is answered. -/
theorem Query.answer_of_newest
    {query : Query}
    {buffer : Buffer}
    {inserted : Finset Nat}
    {candidate : Nat}
    (wide : minLookahead ≤ query.maxLen)
    (nice : query.niceLen ≤ query.maxLen)
    (deep : 1 ≤ query.maxDepth)
    (small : query.bestLen < query.enough)
    (newest : newest? inserted = some candidate)
    (whole : query.sharedWith buffer candidate = query.maxLen) :
    query.answer buffer inserted = query.matchOf buffer candidate := by
  obtain ⟨member, greatest⟩ := newest?_eq_some_iff.mp newest
  have long := wide
  rw [minLookahead] at long
  have shared : 4 ≤ query.sharedWith buffer candidate := by omega
  rw [enough] at small
  have newestLong : newest? (Index.longEntries buffer inserted
      (buffer.buckets query.position).long) = some candidate :=
    newest?_eq_some_iff.mpr ⟨mem_longEntries_of_shared member shared,
      fun other listed => greatest other (Finset.mem_filter.mp listed).1⟩
  obtain ⟨depth, deeper⟩ := Nat.exists_eq_add_of_le' deep
  have opened : (query.opening buffer (query.shortCandidate buffer inserted)).length ≤
      max query.bestLen 3 :=
    opening_length_le _
  have taken : 4 ≤ query.sharedWith buffer candidate ∧
      (query.opening buffer (query.shortCandidate buffer inserted)).length <
        query.sharedWith buffer candidate :=
    ⟨shared, by omega⟩
  rw [answer, if_neg (Nat.not_lt.mpr wide), bestAmong, if_neg (by omega), candidates,
    newestFirst_eq_cons newestLong, deeper, List.take_succ_cons, bestAlong, if_pos taken,
    if_pos (whole ▸ nice)]

namespace Parse

variable {options : Options} {count position : Nat}

/-- Inside a run the position before has the longest match there can be. -/
theorem matchAt_replicate
    (valid : options.validate = .ok ())
    (wide : minLookahead ≤ options.maxMatchLen)
    (byte : UInt8)
    (later : 0 < position)
    (lookahead : position + minLookahead ≤ count) :
    ∃ held,
      matchAt options (Array.replicate count byte) position = some held ∧
      held.val = ⟨min options.maxMatchLen (count - position), 1⟩ := by
  let query := options.query count position (minMatchLen - 1)
  have limit : query.maxLen = min options.maxMatchLen (count - position) := rfl
  have atPosition : query.position = position := rfl
  have best : query.bestLen = 2 := rfl
  have long : minLookahead ≤ query.maxLen := by omega
  have five : 5 ≤ query.maxLen := long
  have size : (Array.replicate count byte).size = count := Array.size_replicate
  have newest : newest? (available (Array.replicate count byte) position) =
      some (position - 1) := by
    rw [available_eq_range (by rwa [size]), newest?_eq_some_iff]
    refine ⟨Finset.mem_range.mpr (by omega), fun other member => ?_⟩
    exact Nat.le_sub_one_of_lt (Finset.mem_range.mp member)
  have whole : query.sharedWith (Array.replicate count byte) (position - 1) = query.maxLen :=
    Buffer.sharedLength_replicate byte (Nat.sub_le position 1) (by omega)
  have answered : query.answer (Array.replicate count byte)
      (available (Array.replicate count byte) position) = ⟨query.maxLen, 1⟩ := by
    have small : query.bestLen < query.enough :=
      Nat.lt_of_lt_of_le (by omega) (Nat.le_max_right query.niceLen 4)
    rw [Query.answer_of_newest long (Nat.min_le_right _ _)
      (Options.validate_eq_ok_iff.mp valid).1 small newest whole, Query.matchOf, whole,
      atPosition, Nat.sub_sub_self later]
  have improves : (Match.mk query.maxLen 1).improvesOn (minMatchLen - 1) = true := by
    rw [Match.improvesOn, Bool.and_eq_true, decide_eq_true_eq, bne_iff_ne]
    exact ⟨Nat.lt_of_lt_of_le (by decide) five, Nat.one_ne_zero⟩
  refine ⟨⟨⟨query.maxLen, 1⟩, Nat.zero_lt_of_lt five⟩, ?_, rfl⟩
  rw [matchAt, size]
  exact Match.found?_eq_some_iff.mpr ⟨answered ▸ improves, answered⟩

/-- Each copy in a run leaves fewer bytes, of which the same holds. -/
theorem tokensFrom_replicate
    (valid : options.validate = .ok ())
    (wide : minLookahead ≤ options.maxMatchLen)
    (byte : UInt8)
    (later : 0 < position) :
    tokensFrom (choice options (Array.replicate count byte)) (Array.replicate count byte)
        position =
      Token.repeating options.maxMatchLen wide byte (count - position) := by
  have size : (Array.replicate count byte).size = count := Array.size_replicate
  induction left : count - position using Nat.strong_induction_on generalizing position with
  | _ remaining inductionHypothesis =>
      rw [Token.repeating]
      by_cases lookahead : minLookahead ≤ remaining
      · have five : 5 ≤ remaining := lookahead
        obtain ⟨held, found, longest⟩ :=
          @matchAt_replicate options count position valid wide byte later (by omega)
        have nice : (options.limits ((Array.replicate count byte).size - position)).niceLen ≤
            held.val.length := by
          rw [size, longest]
          exact Nat.min_le_right _ _
        rw [left] at longest
        have positive : 0 < held.val.length := held.property
        rw [if_pos lookahead, tokensFrom_of_some (by omega) (choice_of_nice found nice)]
        rw [inductionHypothesis (count - (position + held.val.length)) (by omega)
          (Nat.add_pos_left later _) rfl, longest]
        simp only
        rw [← Nat.sub_sub, left]
      · have few : remaining < 5 := Nat.lt_of_not_le lookahead
        rw [if_neg lookahead]
        cases remaining with
        | zero => exact tokensFrom_of_end (by omega)
        | succ remaining =>
            have absent : matchAt options (Array.replicate count byte) position = none := by
              apply matchAt_eq_none
              simp only [Options.limits, minLookahead, size]
              omega
            have following := inductionHypothesis remaining (Nat.lt_succ_self remaining)
              (Nat.succ_pos position) (by omega)
            rw [Token.repeating, if_neg (by rw [minLookahead]; omega)] at following
            rw [tokensFrom_of_none (by omega) (choice_of_none absent), following,
              Array.getElem_replicate, List.replicate_succ]

end Parse

open Parse in
/-- Every strategy and every effort parses a run into its first byte and the copies of it:
with any index that is large enough, whatever it was used for, and with one of its own. -/
theorem parse_replicate
    {options : Options}
    {count : Nat}
    (byte : UInt8)
    (nonempty : 0 < count)
    (valid : options.validate = .ok ())
    (wide : minLookahead ≤ options.maxMatchLen) :
    (∀ parser : Parser, count ≤ parser.capacity →
      ∃ after,
        Parser.parse (Array.replicate count byte) options parser =
          .ok (.literal byte :: Token.repeating options.maxMatchLen wide byte (count - 1))
            after) ∧
    (count < Slot.limit →
      (parse (Array.replicate count byte) options).1 =
        .ok (.literal byte :: Token.repeating options.maxMatchLen wide byte (count - 1))) := by
  have size : (Array.replicate count byte).size = count := Array.size_replicate
  have nonemptyRun : 0 < (Array.replicate count byte).size := by rwa [size]
  have tokens : tokensFrom (choice options (Array.replicate count byte))
      (Array.replicate count byte) 0 =
        .literal byte :: Token.repeating options.maxMatchLen wide byte (count - 1) := by
    rw [tokensFrom_zero nonemptyRun, Array.getElem_replicate,
      tokensFrom_replicate valid wide byte Nat.one_pos]
  constructor
  · intro parser fits
    rw [← tokens]
    exact Parser.parse_eq nonemptyRun valid (by rwa [size])
  · intro addressable
    rw [← tokens]
    exact parse_eq_ok (by rwa [size]) nonemptyRun valid

/-- Twelve equal bytes, searched one node deep with copies of five bytes. -/
theorem parse_replicate_twelve :
    0 < 12 ∧
      (Options.mk .lazy 1 3 5).validate = .ok () ∧
      minLookahead ≤ (Options.mk .lazy 1 3 5).maxMatchLen ∧
      12 < Slot.limit ∧
      (parse (Array.replicate 12 97) ⟨.lazy, 1, 3, 5⟩).1 =
        .ok [.literal 97, .copy 5 1, .copy 5 1, .literal 97] := by
  have nonempty : 0 < 12 := by decide
  have valid : (Options.mk .lazy 1 3 5).validate = .ok () := rfl
  have wide : minLookahead ≤ (Options.mk .lazy 1 3 5).maxMatchLen := by decide
  have addressable : 12 < Slot.limit := by decide
  have tokens : Token.repeating 5 wide 97 11 = [.copy 5 1, .copy 5 1, .literal 97] := by
    simp [Token.repeating, minLookahead]
  refine ⟨nonempty, valid, wide, addressable, ?_⟩
  rw [(parse_replicate 97 nonempty valid wide).2 addressable]
  exact congrArg (Except.ok <| .literal 97 :: ·) tokens

end LempelZiv
