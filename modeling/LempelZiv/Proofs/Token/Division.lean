import LempelZiv.Proofs.Token.Decoding

/-!
Contract: a copy divided into two of the same offset.

Owns:
- what the two parts append, and the causes for which the copy and its first part are
  refused;
- the place of a fault once a token before it is divided;
- the outcome of an expansion with a copy divided: the same bytes, or the same fault with
  its place moved.

Both parts copy from the same offset, so the second one goes on where the first one ended,
in whatever part of a period that is.
-/

namespace LempelZiv

namespace Buffer

theorem pushBack_add (offset first second : Nat) (output : Buffer) :
    pushBack offset (first + second) output =
      pushBack offset second (pushBack offset first output) := by
  induction first generalizing output with
  | zero => rw [Nat.zero_add, pushBack]
  | succ first inductionHypothesis =>
      rw [Nat.succ_add, pushBack, pushBack, inductionHypothesis]

end Buffer

/-- The fault of the same token if token number `divided` is two tokens instead.  The divided
token itself can only fail in its first part. -/
def ExpansionFault.afterDividing (divided : Nat) (fault : ExpansionFault) : ExpansionFault :=
  { fault with token := if fault.token ≤ divided then fault.token else fault.token + 1 }

namespace Token

variable {divided position first second offset produced : Nat} {output : Buffer}
  {cause : CopyFault}

/-! ### The parts of a copy -/

theorem Expandable.parts
    (nonemptyFirst : 1 ≤ first)
    (nonemptySecond : 1 ≤ second)
    (expandable : Expandable produced (Token.copy (first + second) offset)) :
    Expandable produced (Token.copy first offset) ∧
      Expandable (produced + first) (Token.copy second offset) := by
  cases expandable with
  | copy _ backward reaches =>
      exact ⟨.copy nonemptyFirst backward reaches,
        .copy nonemptySecond backward (Nat.le_add_right_of_le reaches)⟩

theorem Faulty.of_add
    (nonemptyFirst : 1 ≤ first)
    (faulty : Faulty produced (copy (first + second) offset) cause) :
    Faulty produced (copy first offset) cause := by
  generalize total : first + second = length at faulty
  cases faulty with
  | badOffset => exact .badOffset
  | negativePosition backward exceeds => exact .negativePosition backward exceeds
  | badLength => omega

/-! ### Expansion -/

/-- Behind the divided token all tokens are numbered one higher. -/
theorem expandFrom_succ
    (behind : divided < position)
    (tokens : List Token) :
    expandFrom (position + 1) output tokens =
      (expandFrom position output tokens).mapError (·.afterDividing divided) := by
  induction tokens generalizing position output with
  | nil => rfl
  | cons token rest inductionHypothesis =>
      rw [expandFrom, expandFrom]
      cases token.append output with
      | ok _ extended => exact inductionHypothesis (Nat.lt_succ_of_lt behind)
      | error cause _ =>
          simp only [Except.mapError, ExpansionFault.afterDividing,
            if_neg (Nat.not_le.mpr behind)]

theorem expandFrom_parts
    (nonemptyFirst : 1 ≤ first)
    (nonemptySecond : 1 ≤ second)
    (later : List Token) :
    expandFrom position output (.copy first offset :: .copy second offset :: later) =
      (expandFrom position output (.copy (first + second) offset :: later)).mapError
        (·.afterDividing position) := by
  simp only [expandFrom]
  rcases expandable_or_faulty (copy (first + second) offset) output.size with
    expandable | ⟨cause, faulty⟩
  · obtain ⟨expandableFirst, expandableSecond⟩ := expandable.parts nonemptyFirst nonemptySecond
    have extended : ((copy first offset).push output).size = output.size + first :=
      Buffer.size_pushBack offset first output
    have same : (copy (first + second) offset).push output =
        (copy second offset).push ((copy first offset).push output) :=
      Buffer.pushBack_add offset first second output
    rw [← extended] at expandableSecond
    rw [append_of_expandable expandable, append_of_expandable expandableFirst]
    simp only [append_of_expandable expandableSecond, same]
    exact expandFrom_succ (Nat.lt_succ_self position) later
  · rw [append_of_faulty faulty, append_of_faulty (faulty.of_add nonemptyFirst)]
    simp only [Except.mapError, ExpansionFault.afterDividing, Nat.le_refl, if_true]

theorem expandFrom_append_parts
    (nonemptyFirst : 1 ≤ first)
    (nonemptySecond : 1 ≤ second)
    (earlier later : List Token) :
    expandFrom position output
        (earlier ++ .copy first offset :: .copy second offset :: later) =
      (expandFrom position output (earlier ++ .copy (first + second) offset :: later)).mapError
        (·.afterDividing (position + earlier.length)) := by
  induction earlier generalizing position output with
  | nil => exact expandFrom_parts nonemptyFirst nonemptySecond later
  | cons token rest inductionHypothesis =>
      rw [List.cons_append, List.cons_append, expandFrom, expandFrom, List.length_cons]
      cases token.append output with
      | ok _ extended =>
          rw [Nat.add_comm rest.length, ← Nat.add_assoc]
          exact inductionHypothesis
      | error cause _ =>
          simp only [Except.mapError, ExpansionFault.afterDividing,
            if_pos (Nat.le_add_right position _)]

/-- A list of tokens and the one with a copy divided into two expand to the same bytes, or
fail for the same cause at the same token. -/
theorem expand_divided
    (nonemptyFirst : 1 ≤ first)
    (nonemptySecond : 1 ≤ second)
    (earlier later : List Token)
    (offset : Nat) :
    (∀ output,
      expand (earlier ++ [.copy (first + second) offset] ++ later) = .ok output ↔
        expand (earlier ++ [.copy first offset, .copy second offset] ++ later) =
          .ok output) ∧
    ∀ fault,
      expand (earlier ++ [.copy (first + second) offset] ++ later) = .error fault →
        expand (earlier ++ [.copy first offset, .copy second offset] ++ later) =
          .error (fault.afterDividing earlier.length) := by
  have divided := @expandFrom_append_parts 0 first second offset #[] nonemptyFirst
    nonemptySecond earlier later
  rw [Nat.zero_add] at divided
  simp only [expand, List.append_assoc, List.cons_append, List.nil_append, divided]
  cases expandFrom 0 #[] (earlier ++ .copy (first + second) offset :: later) with
  | ok output => simp [Except.mapError]
  | error fault => simp [Except.mapError]

/-- The first part may end in the middle of a period, and a fault behind the copy moves. -/
theorem expand_divided_abababac :
    1 ≤ 3 ∧ 1 ≤ 2 ∧
      expand ([.literal 97, .literal 98] ++ [.copy 3 2, .copy 2 2] ++ [.literal 99]) =
        .ok #[97, 98, 97, 98, 97, 98, 97, 99] ∧
      expand ([.literal 97, .literal 98] ++ [.copy 3 2, .copy 2 2] ++ [.copy 1 8]) =
        .error ⟨4, .negativePosition 7 8⟩ := by
  have whole : expand ([.literal 97, .literal 98] ++ [.copy (3 + 2) 2] ++ [.literal 99]) =
      .ok #[97, 98, 97, 98, 97, 98, 97, 99] := by
    cbv
  have failed : expand ([.literal 97, .literal 98] ++ [.copy (3 + 2) 2] ++ [.copy 1 8]) =
      .error ⟨3, .negativePosition 7 8⟩ := by
    cbv
  have nonemptyFirst : 1 ≤ 3 := by decide
  have nonemptySecond : 1 ≤ 2 := by decide
  refine ⟨nonemptyFirst, nonemptySecond, ?_, ?_⟩
  · exact ((expand_divided nonemptyFirst nonemptySecond _ _ 2).1 _).mp whole
  · exact (expand_divided nonemptyFirst nonemptySecond _ _ 2).2 _ failed

end Token

end LempelZiv
