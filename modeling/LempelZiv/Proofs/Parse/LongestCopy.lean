import LempelZiv.Proofs.Parse.Loops
import LempelZiv.Proofs.Search.FullDepth

/-!
Contract: when a greedy parse that looks at everything takes the longest copy there is.

Owns:
- what it takes for a token to be the longest copy of earlier bytes, from the nearest
  position that has it;
- the match at a position that repeats four earlier bytes, if the search may inspect every
  earlier position and is not ended by a shorter match;
- the tokens of a parse that may search so, and of one that permits no five bytes.

Such a parse takes the longest copy if its options permit copies of five bytes.  If they
permit fewer, no search records its position and no parse finds a copy at all.
-/

namespace LempelZiv

/-- The token copies as many bytes as any earlier position has in common with this one, of
those that the options permit, from the nearest position that has them. -/
inductive Options.CopiesLongest (options : Options) (input : Buffer) (position : Nat) :
    Token → Prop where
  | copy
      {length offset : Nat}
      (permitted : length ≤ min options.maxMatchLen (input.size - position))
      (backward : 1 ≤ offset)
      (reaches : offset ≤ position)
      (repeats : input.Repeats position (position - offset) length)
      (longest : ∀ source < position,
        ∀ other ≤ min options.maxMatchLen (input.size - position),
          input.Repeats position source other → other ≤ length)
      (nearest : ∀ other, 1 ≤ other → other ≤ position →
        input.Repeats position (position - other) length → offset ≤ other) :
      CopiesLongest options input position (.copy length offset)

namespace Parse

variable {options : Options} {buffer : Buffer} {position source : Nat}

/-- The newest of the positions that share most gives the longest copy. -/
theorem copiesLongest_matchOf
    {query : Query}
    {candidate : Nat}
    (atPosition : query.position = position)
    (limit : query.maxLen = min options.maxMatchLen (buffer.size - position))
    (inside : position ≤ buffer.size)
    (newest : newest? ((Finset.range position).filter
      (query.sharedWith buffer · = query.mostShared buffer (Finset.range position))) =
        some candidate) :
    options.CopiesLongest buffer position
      (.copy (query.sharedWith buffer candidate) (position - candidate)) := by
  obtain ⟨member, greatest⟩ := newest?_eq_some_iff.mp newest
  obtain ⟨present, most⟩ := Finset.mem_filter.mp member
  have earlier : candidate < position := Finset.mem_range.mp present
  have ends : position + query.maxLen ≤ buffer.size := by omega
  have repeatsIff : ∀ {other length : Nat}, other < position → length ≤ query.maxLen →
      (buffer.Repeats position other length ↔ length ≤ query.sharedWith buffer other) := by
    intro other length before permitted
    rw [Query.sharedWith, atPosition]
    exact Buffer.repeats_iff_le_sharedLength ends (Nat.le_of_lt before) permitted
  have permitted : query.sharedWith buffer candidate ≤ query.maxLen := query.sharedWith_le _ _
  have mostOf : ∀ other < position,
      query.sharedWith buffer other ≤ query.sharedWith buffer candidate := by
    intro other before
    rw [most]
    exact Finset.le_sup (Finset.mem_range.mpr before)
  refine .copy (limit ▸ permitted) (Nat.sub_pos_of_lt earlier) (Nat.sub_le ..) ?_ ?_ ?_
  · rw [Nat.sub_sub_self (Nat.le_of_lt earlier)]
    exact (repeatsIff earlier permitted).mpr (Nat.le_refl _)
  · intro source before other fits repeats
    exact Nat.le_trans ((repeatsIff before (limit ▸ fits)).mp repeats) (mostOf source before)
  · intro other backward reaches repeats
    have before : position - other < position := by omega
    have shared := (repeatsIff before permitted).mp repeats
    have same : query.sharedWith buffer (position - other) =
        query.mostShared buffer (Finset.range position) :=
      (Nat.le_antisymm (mostOf _ before) shared).trans most
    have notNewer := greatest (position - other)
      (Finset.mem_filter.mpr ⟨Finset.mem_range.mpr before, same⟩)
    omega

/-- A search that may inspect every earlier position, and that no shorter match ends, finds
the longest copy wherever four earlier bytes are repeated and five are left. -/
theorem matchAt_copiesLongest
    (wide : minLookahead ≤ options.maxMatchLen)
    (patient : options.maxMatchLen ≤ options.niceLen)
    (deep : buffer.size ≤ options.maxDepth)
    (lookahead : position + minLookahead ≤ buffer.size)
    (earlier : source < position)
    (repeats : buffer.Repeats position source 4) :
    ∃ held,
      matchAt options buffer position = some held ∧
      options.CopiesLongest buffer position (.copy held.val.length held.val.offset) := by
  let query := options.query buffer.size position (minMatchLen - 1)
  have atPosition : query.position = position := rfl
  have limit : query.maxLen = min options.maxMatchLen (buffer.size - position) := rfl
  have nice : query.niceLen = min options.niceLen query.maxLen := rfl
  rw [minLookahead] at wide lookahead
  have four : 4 ≤ query.mostShared buffer (Finset.range position) := by
    have shared : 4 ≤ query.sharedWith buffer source :=
      (Buffer.repeats_iff_le_sharedLength (by omega) (Nat.le_of_lt earlier)
        (by omega)).mp repeats
    exact Nat.le_trans shared (Finset.le_sup (Finset.mem_range.mpr earlier))
  have depth : (Finset.range position).card ≤ query.maxDepth := by
    rw [Finset.card_range]
    exact Nat.le_trans (by omega) deep
  have best : query.bestLen = 2 := rfl
  obtain ⟨candidate, newest, chosen⟩ :=
    @Query.exhaustive_of_maxLen_le_niceLen query buffer (Finset.range position) (by omega) four
      (by omega)
  have answered : query.answer buffer (Finset.range position) =
      query.matchOf buffer candidate := by
    rw [Query.answer, if_neg (by rw [minLookahead]; omega),
      Query.bestAmong_eq_exhaustive (by rw [minLookahead]; omega) depth, chosen]
  have copies := copiesLongest_matchOf atPosition limit (by omega) newest
  obtain ⟨member, most⟩ := Finset.mem_filter.mp (newest?_eq_some_iff.mp newest).1
  have before : candidate < position := Finset.mem_range.mp member
  have improves : (query.matchOf buffer candidate).improvesOn (minMatchLen - 1) = true := by
    have longer : minMatchLen - 1 < query.sharedWith buffer candidate := by
      rw [minMatchLen]
      omega
    have backward : query.position - candidate ≠ 0 := Nat.sub_ne_zero_of_lt before
    rw [Match.improvesOn, Bool.and_eq_true, decide_eq_true_eq, bne_iff_ne]
    exact ⟨longer, backward⟩
  have found : matchAt options buffer position =
      some ⟨query.matchOf buffer candidate,
        Nat.zero_lt_of_lt (Match.lt_length_of_improvesOn improves)⟩ := by
    rw [matchAt, available_eq_range lookahead]
    exact Match.found?_eq_some_iff.mpr ⟨answered ▸ improves, answered⟩
  exact ⟨_, found, copies⟩

/-- With options that permit no copies of five bytes, no strategy finds a match. -/
theorem choice_of_narrow
    (narrow : options.maxMatchLen < minLookahead)
    (position : Nat) :
    choice options buffer position = none := by
  apply choice_of_none
  apply matchAt_eq_none
  exact Nat.lt_of_le_of_lt (Nat.min_le_left ..) narrow

end Parse

namespace Parser

open Parse

variable {parser : Parser} {input : Buffer} {options : Options}

/-- A parse whose options permit no copies of five bytes emits its input byte by byte. -/
theorem parse_of_narrow
    (nonempty : 0 < input.size)
    (valid : options.validate = .ok ())
    (fits : input.size ≤ parser.capacity)
    (narrow : options.maxMatchLen < minLookahead) :
    ∃ after,
      Parser.parse input options parser = .ok (input.toList.map .literal) after := by
  obtain ⟨after, answered⟩ := parse_eq nonempty valid fits
  have absent : ∀ place, 0 ≤ place → place < input.size → choice options input place = none :=
    fun place _ _ => choice_of_narrow narrow place
  rw [tokensFrom_of_stretch (Nat.zero_le _) (Nat.le_refl _) absent,
    tokensFrom_of_end (Nat.le_refl _), List.append_nil, List.drop_zero,
    List.take_of_length_le (Nat.le_of_eq Array.length_toList)] at answered
  exact ⟨after, answered⟩

/-- A greedy parse whose searches may inspect every earlier position, and are not ended by a
shorter match, takes the longest copy at each token that repeats four earlier bytes and has
five left, if its options permit copies of five bytes; if they permit fewer, it has a literal
there. -/
theorem parse_copiesLongest_iff
    (nonempty : 0 < input.size)
    (valid : options.validate = .ok ())
    (fits : input.size ≤ parser.capacity)
    (greedy : options.strategy = .greedy)
    (deep : input.size ≤ options.maxDepth)
    (patient : options.maxMatchLen ≤ options.niceLen) :
    ∃ tokens after,
      Parser.parse input options parser = .ok tokens after ∧
      ∀ earlier token later,
        tokens = earlier ++ token :: later →
        Token.totalLength earlier + minLookahead ≤ input.size →
        (∃ source < Token.totalLength earlier,
          input.Repeats (Token.totalLength earlier) source 4) →
          (options.CopiesLongest input (Token.totalLength earlier) token ↔
            minLookahead ≤ options.maxMatchLen) ∧
          (token.isCopy = true ↔ minLookahead ≤ options.maxMatchLen) := by
  obtain ⟨after, answered⟩ := parse_eq nonempty valid fits
  refine ⟨_, after, answered, ?_⟩
  intro earlier token later split lookahead repeated
  obtain ⟨source, before, repeats⟩ := repeated
  have following := tokensFrom_of_append split
  rw [Nat.zero_add] at following
  have inside : Token.totalLength earlier < input.size := by
    rw [minLookahead] at lookahead
    omega
  by_cases wide : minLookahead ≤ options.maxMatchLen
  · obtain ⟨held, found, copies⟩ :=
      matchAt_copiesLongest wide patient deep lookahead before repeats
    rw [tokensFrom_of_some inside ((choice_of_greedy greedy).trans found)] at following
    cases following
    exact ⟨iff_of_true copies wide, iff_of_true rfl wide⟩
  · have absent : choice options input (Token.totalLength earlier) = none :=
      choice_of_narrow (Nat.lt_of_not_le wide) _
    rw [tokensFrom_of_none inside absent] at following
    cases following
    refine ⟨iff_of_false ?_ wide, iff_of_false Bool.false_ne_true wide⟩
    intro copies
    cases copies

/-- Where copies of five bytes are permitted, the longest one begins at the second of six
equal bytes. -/
theorem parse_copiesLongest_aaaaaa :
    ∃ parser after,
      (Options.mk .greedy 6 5 5).validate = .ok () ∧
      6 ≤ parser.capacity ∧
      6 ≤ (Options.mk .greedy 6 5 5).maxDepth ∧
      (Options.mk .greedy 6 5 5).maxMatchLen ≤ (Options.mk .greedy 6 5 5).niceLen ∧
      Parser.parse #[97, 97, 97, 97, 97, 97] ⟨.greedy, 6, 5, 5⟩ parser =
        .ok [.literal 97, .copy 5 1] after ∧
      Buffer.Repeats #[97, 97, 97, 97, 97, 97] 1 0 4 ∧
      Options.CopiesLongest ⟨.greedy, 6, 5, 5⟩ #[97, 97, 97, 97, 97, 97] 1 (.copy 5 1) := by
  obtain ⟨parser, capacity⟩ := exists_capacity_eq (show 6 < Slot.limit by decide)
  have fits : 6 ≤ parser.capacity := Nat.le_of_eq capacity.symm
  have valid : (Options.mk .greedy 6 5 5).validate = .ok () := rfl
  have repeats : Buffer.Repeats #[97, 97, 97, 97, 97, 97] 1 0 4 := by
    unfold Buffer.Repeats
    decide
  have deep : 6 ≤ (Options.mk .greedy 6 5 5).maxDepth := by decide
  have patient : (Options.mk .greedy 6 5 5).maxMatchLen ≤ (Options.mk .greedy 6 5 5).niceLen := by
    decide
  obtain ⟨tokens, after, answered, copies⟩ :=
    @parse_copiesLongest_iff parser
      #[97, 97, 97, 97, 97, 97] ⟨.greedy, 6, 5, 5⟩ (by decide) valid fits rfl deep patient
  obtain ⟨same, ran⟩ :=
    @parse_eq parser #[97, 97, 97, 97, 97, 97]
      ⟨.greedy, 6, 5, 5⟩ (by decide) valid fits
  have copied : choice ⟨.greedy, 6, 5, 5⟩ #[97, 97, 97, 97, 97, 97] 1 =
      some ⟨⟨5, 1⟩, by decide⟩ := by
    decide +kernel
  rw [answered, tokensFrom_zero_of_rest (by decide) copied (by decide)] at ran
  cases ran
  have longest := (copies [.literal 97] (.copy 5 1) [] rfl (by decide)
    ⟨0, by decide, repeats⟩).1
  exact ⟨parser, _, valid, fits, deep, patient, answered, repeats, longest.mpr (by decide)⟩

/-- Where copies of only four bytes are permitted, the second of six equal bytes becomes a
literal. -/
theorem parse_withoutCopies_aaaaaa :
    ∃ parser after,
      (Options.mk .greedy 6 4 4).validate = .ok () ∧
      6 ≤ parser.capacity ∧
      6 ≤ (Options.mk .greedy 6 4 4).maxDepth ∧
      (Options.mk .greedy 6 4 4).maxMatchLen ≤ (Options.mk .greedy 6 4 4).niceLen ∧
      Parser.parse #[97, 97, 97, 97, 97, 97] ⟨.greedy, 6, 4, 4⟩ parser =
        .ok [.literal 97, .literal 97, .literal 97, .literal 97, .literal 97, .literal 97]
          after ∧
      1 + 5 ≤ 6 ∧
      Buffer.Repeats #[97, 97, 97, 97, 97, 97] 1 0 4 ∧
      ¬ Options.CopiesLongest ⟨.greedy, 6, 4, 4⟩ #[97, 97, 97, 97, 97, 97] 1 (.literal 97) := by
  obtain ⟨parser, capacity⟩ := exists_capacity_eq (show 6 < Slot.limit by decide)
  have fits : 6 ≤ parser.capacity := Nat.le_of_eq capacity.symm
  have valid : (Options.mk .greedy 6 4 4).validate = .ok () := rfl
  obtain ⟨after, answered⟩ :=
    @parse_of_narrow parser #[97, 97, 97, 97, 97, 97]
      ⟨.greedy, 6, 4, 4⟩ (by decide) valid fits (by decide)
  refine ⟨_, after, valid, fits, by decide, by decide, answered, by decide, ?_, ?_⟩
  · unfold Buffer.Repeats
    decide
  · intro copies
    cases copies

end Parser

end LempelZiv
