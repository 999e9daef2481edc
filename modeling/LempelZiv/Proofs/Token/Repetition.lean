import LempelZiv.Proofs.Token.Decoding

/-!
Contract: what a copy does to an output, and how its passes come to it.

Owns:
- the bytes that repeat the last ones of an output over and over;
- the outcome of every copy: the cause for which it is refused, or these bytes appended;
- the states between the passes of a copy that is made: each has the period of the copy,
  and each pass begins a whole number of periods after the start.

Does not own: the passes themselves and what one of them preserves.
-/

namespace LempelZiv.Buffer

/-- So many bytes that repeat the last `offset` ones of the output over and over. -/
def cycle (offset length : Nat) (output : Buffer) : Buffer :=
  Array.ofFn fun place : Fin length => output.byte (output.size - offset + place % offset)

variable {offset length : Nat} {output : Buffer}

/-! ### Bytes repeated over and over -/

theorem size_cycle : (cycle offset length output).size = length := Array.size_ofFn

theorem getElem?_cycle
    {place : Nat}
    (backward : 1 ≤ offset)
    (reaches : offset ≤ output.size)
    (below : place < length) :
    (cycle offset length output)[place]? = output[output.size - offset + place % offset]? := by
  have remainder : place % offset < offset := Nat.mod_lt place backward
  rw [cycle, Array.getElem?_ofFn, dif_pos below, getElem?_eq_byte (by omega)]

/-- The appended bytes repeat those an offset before, whether they are old or new. -/
theorem getElem?_append_cycle
    {place : Nat}
    (backward : 1 ≤ offset)
    (reaches : offset ≤ output.size)
    (below : place < length) :
    (output ++ cycle offset length output)[output.size + place]? =
      (output ++ cycle offset length output)[output.size - offset + place]? := by
  rw [Array.getElem?_append_right (Nat.le_add_right _ _), Nat.add_sub_cancel_left,
    getElem?_cycle backward reaches below]
  rcases Nat.lt_or_ge place offset with first | later
  · rw [Array.getElem?_append_left (by omega), Nat.mod_eq_of_lt first]
  · have new : output.size - offset + place = output.size + (place - offset) := by omega
    rw [new, Array.getElem?_append_right (Nat.le_add_right _ _), Nat.add_sub_cancel_left,
      getElem?_cycle backward reaches (by omega), Nat.mod_eq_sub_mod later]

theorem extract_append_cycle :
    (output ++ cycle offset length output).extract 0 output.size = output := by
  rw [Array.extract_append_left, Array.extract_size]

theorem copyBack_eq_append_cycle
    (backward : 1 ≤ offset)
    (reaches : offset ≤ output.size)
    (nonempty : 1 ≤ length) :
    copyBack offset length output = .ok () (output ++ cycle offset length output) := by
  have size : (output ++ cycle offset length output).size = output.size + length := by
    rw [Array.size_append, size_cycle]
  have copied := copyBack_extract backward reaches nonempty (Nat.le_of_eq size.symm)
    (fun place below => getElem?_append_cycle backward reaches below)
  rwa [extract_append_cycle, ← size, Array.extract_size] at copied

theorem copyBack_eq_error_iff {cause : CopyFault} {after : Buffer} :
    copyBack offset length output = .error cause after ↔
      (Token.copy length offset).Faulty output.size cause ∧ after = output := by
  constructor
  · intro refused
    rcases Token.expandable_or_faulty (.copy length offset) output.size with
      expandable | ⟨other, faulty⟩
    · have made : copyBack offset length output = .ok () _ :=
        Token.append_of_expandable expandable
      rw [made] at refused
      cases refused
    · have known : copyBack offset length output = .error other output :=
        Token.append_of_faulty faulty
      rw [known] at refused
      cases refused
      exact ⟨faulty, rfl⟩
  · rintro ⟨faulty, rfl⟩
    exact Token.append_of_faulty faulty

/-! ### Between the passes -/

theorem InPhase.periodic
    {buffer between : Buffer}
    {start stop : Nat}
    (whole : buffer.Periodic start offset stop)
    (inPhase : buffer.InPhase start offset stop between) :
    between.Periodic start offset between.size := by
  have same : ∀ place < between.size, between[place]? = buffer[place]? := by
    intro place inside
    have size := congrArg Array.size inPhase.isPrefix
    rw [Array.size_extract] at size
    rw [inPhase.isPrefix, Array.getElem?_extract, if_pos (by omega), Nat.zero_add]
  intro place after before
  rw [same _ before, same place (by omega)]
  exact whole place after (Nat.lt_of_lt_of_le before inPhase.atMost)

/-- An output becomes another one in passes, the loop ending with the same one from whatever
is between them.  What follows `start` has the period all the time, and ends with a whole one
whenever a pass begins. -/
structure MadeInPasses (start offset stop : Nat) (output final : Buffer) : Prop where
  reached : Relation.ReflTransGen (Pass start stop) output final
  finished : ∀ after, ¬ Pass start stop final after
  continues : ∀ between, Relation.ReflTransGen (Pass start stop) output between →
    ∃ nonempty : start < between.size, repeatFrom start stop between nonempty = final
  periodic : ∀ between, Relation.ReflTransGen (Pass start stop) output between →
    between.Periodic start offset between.size
  whole : ∀ between after, Relation.ReflTransGen (Pass start stop) output between →
    Pass start stop between after → offset ∣ between.size - start

theorem madeInPasses_append_cycle
    (backward : 1 ≤ offset)
    (reaches : offset ≤ output.size) :
    MadeInPasses (output.size - offset) offset (output.size + length) output
      (output ++ cycle offset length output) := by
  have size : (output ++ cycle offset length output).size = output.size + length := by
    rw [Array.size_append, size_cycle]
  have periodic := periodic_of_agrees reaches
    (fun place below => @getElem?_append_cycle offset length output place backward reaches below)
  have begun := inPhase_extract backward reaches (Nat.le_of_eq size.symm)
  rw [extract_append_cycle] at begun
  have inPhase := fun between => @begun.passes _ _ _ _ _ between periodic (Nat.le_of_eq size.symm)
  have ends : (output ++ cycle offset length output).extract 0 (output.size + length) =
      output ++ cycle offset length output := by
    rw [← size, Array.extract_size]
  have reached := (@repeatFrom_passes _ (output.size + length) _ begun.nonempty).1
  rw [begun.repeatFrom_eq periodic (Nat.le_of_eq size.symm), ends] at reached
  refine ⟨reached, ?_, ?_, fun between passed => (inPhase between passed).periodic periodic, ?_⟩
  · intro after passed
    cases passed with
    | again unfinished => omega
  · intro between passed
    exact ⟨(inPhase between passed).nonempty,
      ((inPhase between passed).repeatFrom_eq periodic (Nat.le_of_eq size.symm)).trans ends⟩
  · intro between after passed next
    cases next with
    | again unfinished => exact (inPhase between passed).whole unfinished

/-! ### The whole copy -/

/-- A copy is refused, and the output left as it was, exactly for the causes that its numbers
give; any other one appends its source over and over. -/
structure CopiesCyclically (offset length : Nat) (output : Buffer) : Prop where
  refuses : ∀ cause after,
    copyBack offset length output = .error cause after ↔
      (Token.copy length offset).Faulty output.size cause ∧ after = output
  answers : 1 ≤ offset → offset ≤ output.size → 1 ≤ length →
    ∃ copied : Buffer,
      copyBack offset length output = .ok () (output ++ copied) ∧
      copied.size = length ∧
      (∀ place < length,
        copied[place]? = output[output.size - offset + place % offset]?) ∧
      MadeInPasses (output.size - offset) offset (output.size + length) output
        (output ++ copied)

theorem copyBack_copiesCyclically (offset length : Nat) (output : Buffer) :
    CopiesCyclically offset length output where
  refuses _ _ := copyBack_eq_error_iff
  answers := by
    intro backward reaches nonempty
    exact ⟨cycle offset length output, copyBack_eq_append_cycle backward reaches nonempty,
      size_cycle, fun place below => getElem?_cycle backward reaches below,
      madeInPasses_append_cycle backward reaches⟩

/-- The last pass of this copy is cut short in the middle of a period. -/
example : copyBack 2 5 #[9, 1, 2] = .ok () #[9, 1, 2, 1, 2, 1, 2, 1] := by
  cbv

end LempelZiv.Buffer
