import LempelZiv.Proofs.Parse.Loops

/-!
Contract: how a parse ends.

Owns:
- the options that are out of range, and the one that is reported;
- the inputs that a parser refuses, with the fault of each and nothing changed;
- the visits of every other parse: each is safe in the scan that it meets, so the
  parse answers.

The parser may hold anything from earlier inputs.  No fault stands for a broken rule
of the index, since the loops never break one.
-/

namespace LempelZiv

namespace Options

/-- The option is out of range, and those checked before it are not. -/
def Violates (options : Options) : OptionFault → Prop
  | .maxDepth => options.maxDepth = 0
  | .niceLen => 1 ≤ options.maxDepth ∧ options.niceLen < 3
  | .maxMatchLen => 1 ≤ options.maxDepth ∧ 3 ≤ options.niceLen ∧ options.maxMatchLen < 3

variable {options : Options} {fault : OptionFault}

theorem validate_of_violates (violates : options.Violates fault) :
    options.validate = .error fault := by
  unfold validate
  cases fault with
  | maxDepth => exact if_pos violates
  | niceLen =>
      obtain ⟨depth, short⟩ := violates
      rw [if_neg (Nat.ne_of_gt depth)]
      exact if_pos short
  | maxMatchLen =>
      obtain ⟨depth, nice, short⟩ := violates
      rw [if_neg (Nat.ne_of_gt depth), minMatchLen, if_neg (Nat.not_lt.mpr nice)]
      exact if_pos short

theorem exists_violates_iff :
    (∃ fault, options.Violates fault) ↔
      options.maxDepth = 0 ∨ options.niceLen < 3 ∨ options.maxMatchLen < 3 := by
  constructor
  · rintro ⟨_ | _ | _, violates⟩
    · exact .inl violates
    · exact .inr (.inl violates.2)
    · exact .inr (.inr violates.2.2)
  · intro outOfRange
    by_cases depth : options.maxDepth = 0
    · exact ⟨.maxDepth, depth⟩
    by_cases nice : options.niceLen < 3
    · exact ⟨.niceLen, Nat.pos_of_ne_zero depth, nice⟩
    · have short : options.maxMatchLen < 3 := by omega
      exact ⟨.maxMatchLen, Nat.pos_of_ne_zero depth, Nat.le_of_not_lt nice, short⟩

theorem validate_of_not_violates (valid : ∀ fault, ¬ options.Violates fault) :
    options.validate = .ok () := by
  have inRange := (not_congr exists_violates_iff).mp (not_exists.mpr valid)
  rw [validate_eq_ok_iff]
  omega

end Options

/-- The scan takes the visit without breaking a rule, and no number that is computed on
the way is cut off. -/
structure Visit.Safe (visit : Visit) (scan : Scan) : Prop where
  accepted : visit.Accepted scan
  /-- The visit neither goes back nor leaves a gap. -/
  next : visit.first = scan.nextPos
  nonempty : 0 < visit.count
  inside : visit.first + visit.count ≤ scan.buffer.size
  performed : ∃ after, Scan.perform visit scan = .ok () after
  /-- Whatever a search may meet in the tables lies before its position, so the
  position less its source is a true difference. -/
  earlier : ∀ buckets : Buckets, ∃ chain,
    scan.index.chain buckets.long = .ok chain ∧
    (∀ entry ∈ chain, entry < visit.first) ∧
    ∀ entry, (scan.index.occupants buckets).short.position? = some entry →
      entry < visit.first

namespace Parser

open Parse

/-- The parser refuses the input for this cause, the first that applies. -/
inductive Refuses (parser : Parser) (input : Buffer) (options : Options) :
    ParseFault → Prop where
  | emptyInput (empty : input.size = 0) :
      Refuses parser input options .emptyInput
  | invalidOptions
      {fault : OptionFault}
      (nonempty : 0 < input.size)
      (violates : options.Violates fault) :
      Refuses parser input options (.invalidOptions fault)
  | inputTooLarge
      (nonempty : 0 < input.size)
      (valid : ∀ fault, ¬ options.Violates fault)
      (exceeds : parser.capacity < input.size) :
      Refuses parser input options (.inputTooLarge input.size parser.capacity)

/-- A parse is decided by its input, its options and the capacity: it is refused and
changes nothing, or it answers. -/
structure Decides (parser : Parser) (input : Buffer) (options : Options) : Prop where
  refuses : ∀ fault after,
    Parser.parse input options parser = .error fault after ↔
      after = parser ∧ parser.Refuses input options fault
  /-- Some option is reported exactly if one of the three is out of range. -/
  outOfRange :
    (∃ fault, options.Violates fault) ↔
      options.maxDepth = 0 ∨ options.niceLen < 3 ∨ options.maxMatchLen < 3
  answers :
    (∀ fault, ¬ parser.Refuses input options fault) →
      ∃ tokens visits after,
        Parser.parse input options parser = .ok tokens after ∧
        parser.Makes input options visits tokens ∧
        Calls options input 0 visits input.size ∧
        ∀ earlier visit later,
          visits = earlier ++ visit :: later →
            ∃ before, parser.Arrives input earlier before ∧ visit.Safe before

variable {parser after : Parser} {input : Buffer} {options : Options} {fault : ParseFault}

/-! ### Refusals -/

theorem parse_of_refuses (refuses : parser.Refuses input options fault) :
    Parser.parse input options parser = .error fault parser := by
  unfold Parser.parse
  cases refuses with
  | emptyInput empty => exact if_pos empty
  | invalidOptions nonempty violates =>
      rw [if_neg (Nat.ne_of_gt nonempty), Options.validate_of_violates violates]
  | inputTooLarge nonempty valid exceeds =>
      rw [if_neg (Nat.ne_of_gt nonempty), Options.validate_of_not_violates valid]
      exact dif_neg (Nat.not_le.mpr exceeds)

/-- An input that no cause applies to meets what a parse needs. -/
theorem parsable_of_not_refuses (taken : ∀ fault, ¬ parser.Refuses input options fault) :
    0 < input.size ∧ options.validate = .ok () ∧ input.size ≤ parser.capacity := by
  have nonempty : 0 < input.size := by
    by_contra empty
    exact taken _ (.emptyInput (Nat.eq_zero_of_not_pos empty))
  have valid : ∀ fault, ¬ options.Violates fault := by
    intro fault violates
    exact taken _ (.invalidOptions nonempty violates)
  refine ⟨nonempty, Options.validate_of_not_violates valid, ?_⟩
  by_contra exceeds
  exact taken _ (.inputTooLarge nonempty valid (Nat.lt_of_not_le exceeds))

theorem parsable_of_parse_eq_ok
    {tokens : List Token}
    (ran : Parser.parse input options parser = .ok tokens after) :
    0 < input.size ∧ options.validate = .ok () ∧ input.size ≤ parser.capacity := by
  apply parsable_of_not_refuses
  intro fault refuses
  rw [parse_of_refuses refuses] at ran
  cases ran

theorem parse_eq_error_iff :
    Parser.parse input options parser = .error fault after ↔
      after = parser ∧ parser.Refuses input options fault := by
  constructor
  · intro failed
    by_cases refused : ∃ cause, parser.Refuses input options cause
    · obtain ⟨cause, refuses⟩ := refused
      rw [parse_of_refuses refuses] at failed
      cases failed
      exact ⟨rfl, refuses⟩
    · obtain ⟨nonempty, valid, fits⟩ := parsable_of_not_refuses (not_exists.mp refused)
      obtain ⟨done, answered⟩ := parse_eq nonempty valid fits
      rw [answered] at failed
      cases failed
  · rintro ⟨rfl, refuses⟩
    exact parse_of_refuses refuses

/-! ### Answers -/

/-- Each visit of a parse is safe in the scan that it meets. -/
theorem Arrives.safe
    {earlier later : List Visit}
    {visit : Visit}
    {scan : Scan}
    (valid : options.validate = .ok ())
    (arrives : parser.Arrives input (earlier ++ visit :: later) scan)
    (calls : Calls options input 0 (earlier ++ visit :: later) input.size) :
    ∃ before, parser.Arrives input earlier before ∧ visit.Safe before := by
  obtain ⟨position, before, arrivesBefore, visited, following, accepted⟩ :=
    arrives.split valid calls
  obtain ⟨inserted, tracks, _⟩ := visited.tracks
  obtain ⟨after, performed, _⟩ := Scan.perform_spec tracks accepted
  obtain ⟨first, nonempty, inside⟩ := following.head_bounds
  rw [← visited.sameBuffer] at inside
  have next : visit.first = before.nextPos := first.trans visited.nextPos.symm
  have lower := tracks.lt_of_nextPos_le (Nat.le_of_eq next.symm)
  refine ⟨before, arrivesBefore, accepted, next, nonempty, inside, ⟨after, performed⟩, ?_⟩
  intro buckets
  refine ⟨_, tracks.holds.chain_eq buckets.long, ?_, ?_⟩
  · intro entry listed
    exact lower entry (Finset.mem_filter.mp (mem_newestFirst.mp listed)).1
  · intro entry newest
    have member := (newest?_eq_some_iff.mp ((tracks.holds.recent buckets.short).symm.trans
      newest)).1
    exact lower entry (Finset.mem_filter.mp member).1

/-- Every parse, by a parser with any tables, is refused exactly for the first cause
that applies, with the parser unchanged, or answers by safe visits. -/
theorem parse_decides (parser : Parser) (input : Buffer) (options : Options) :
    parser.Decides input options where
  refuses _ _ := parse_eq_error_iff
  outOfRange := Options.exists_violates_iff
  answers := by
    intro taken
    obtain ⟨nonempty, valid, fits⟩ := parsable_of_not_refuses taken
    obtain ⟨visits, scan, after, answered, makes, arrives, calls⟩ :=
      parse_makes nonempty valid fits
    refine ⟨_, visits, after, answered, makes, calls, ?_⟩
    intro earlier visit later split
    subst split
    exact arrives.safe valid calls

end Parser

end LempelZiv
