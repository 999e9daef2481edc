import LempelZiv.Proofs.Parse.Outcome
import LempelZiv.Proofs.Session.Agreement

/-!
Contract: what an index was used for before does not show.

Owns:
- a parser after any parses, and the capacity that it keeps;
- the parse of an input with an index of its own;
- the independence of parses and of scans from earlier ones.

Nothing is assumed about what went before: it may have been refused, cut short or
about other buffers.
-/

namespace LempelZiv

namespace Parser

/-- The parser after these parses in order, answered or refused. -/
def afterAll (parser : Parser) : List (Buffer × Options) → Parser
  | [] => parser
  | (input, options) :: rest =>
      match Parser.parse input options parser with
      | .ok _ after => afterAll after rest
      | .error _ after => afterAll after rest

variable {parser after : Parser} {input : Buffer} {options : Options}

theorem create_eq_ok {capacity : Nat} (addressable : capacity < Slot.limit) :
    create capacity =
      .ok ⟨Index.blank capacity #[.allocated capacity (Index.tableBytes capacity)]
        addressable⟩ := by
  rw [create, Index.create, dif_pos addressable]
  rfl

theorem capacity_of_create_eq_ok
    {capacity : Nat}
    (made : create capacity = .ok parser) :
    parser.capacity = capacity := by
  unfold create Index.create at made
  split at made
  · rename_i addressable
    cases made
    exact Index.capacity_blank _ _ addressable
  · cases made

theorem capacity_of_parse_eq_ok
    {tokens : List Token}
    (ran : Parser.parse input options parser = .ok tokens after) :
    after.capacity = parser.capacity := by
  obtain ⟨nonempty, valid, fits⟩ := parsable_of_parse_eq_ok ran
  obtain ⟨visits, scan, answered, _, ⟨fitsIndex, performed⟩, _⟩ :=
    parse_scans nonempty valid fits
  rw [answered] at ran
  cases ran
  have sameFrame := ((Scan.tracks_start fitsIndex).performAll performed).2
  have kept : scan.index.capacity = parser.index.reset.capacity :=
    congrArg Scan.Frame.capacity sameFrame
  exact kept.trans (Index.capacity_reset parser.index)

theorem capacity_afterAll (parser : Parser) (parses : List (Buffer × Options)) :
    (parser.afterAll parses).capacity = parser.capacity := by
  induction parses generalizing parser with
  | nil => rfl
  | cons first rest inductionHypothesis =>
      rw [afterAll]
      split
      · rename_i ran
        rw [inductionHypothesis, capacity_of_parse_eq_ok ran]
      · rename_i failed
        rw [inductionHypothesis, (parse_eq_error_iff.mp failed).1]

end Parser

open Parse in
/-- An input that an index can hold is parsed with an index of its own into the tokens
of the choices of its strategy. -/
theorem parse_eq_ok
    {input : Buffer}
    {options : Options}
    (addressable : input.size < Slot.limit)
    (nonempty : 0 < input.size)
    (valid : options.validate = .ok ()) :
    (parse input options).1 = .ok (tokensFrom (choice options input) input 0) := by
  have made := Parser.create_eq_ok addressable
  have fits := Nat.le_of_eq (Parser.capacity_of_create_eq_ok made).symm
  obtain ⟨after, answered⟩ := Parser.parse_eq nonempty valid fits
  simp only [parse, made, answered]

/-- Whatever was parsed with an index before, or done with it step by step, an input that
fits it is parsed into the tokens that an index of its own would give, and once it is
scanned the steps of the scan are answered as with any new index that can hold it. -/
theorem reuse_invisible
    {capacity : Nat}
    {parser : Parser}
    {session : Session}
    (made : Parser.create capacity = .ok parser)
    (opened : Session.create capacity = .ok session)
    (parses : List (Buffer × Options))
    (steps : List Session.Step)
    {input : Buffer}
    (fits : input.size ≤ capacity) :
    (∀ options, 0 < input.size → options.validate = .ok () →
      ∃ tokens after,
        Parser.parse input options (parser.afterAll parses) = .ok tokens after ∧
        (parse input options).1 = .ok tokens) ∧
    ∀ newCapacity newSession later,
      Session.create newCapacity = .ok newSession → input.size ≤ newCapacity →
      (∀ next ∈ later, Session.Step.InScan next) →
        ((session.run steps).2.run (.scan input :: later)).1 =
          (newSession.run (.scan input :: later)).1 := by
  constructor
  · intro options nonempty valid
    have sameCapacity := Parser.capacity_of_create_eq_ok made
    have fitsParser : input.size ≤ (parser.afterAll parses).capacity := by
      rw [Parser.capacity_afterAll, sameCapacity]
      exact fits
    have addressable : input.size < Slot.limit :=
      Nat.lt_of_le_of_lt fitsParser (parser.afterAll parses).index.addressable
    obtain ⟨after, answered⟩ := Parser.parse_eq nonempty valid fitsParser
    exact ⟨_, after, answered, parse_eq_ok addressable nonempty valid⟩
  · intro newCapacity newSession later openedNew fitsNew inScan
    have follows := Session.follows_create opened
    apply Session.run_scan_congr _ _ inScan
    · rw [Session.capacity_run follows, Session.capacity_of_create_eq_ok opened]
      exact fits
    · rw [Session.capacity_of_create_eq_ok openedNew]
      exact fitsNew

/-- A run of equal bytes, after an answered and a refused parse, and after a cut-short and
a rejected scan. -/
theorem reuse_invisible_aaaaaa :
    ∃ parser session newSession,
      Parser.create 8 = .ok parser ∧
      Session.create 8 = .ok session ∧
      6 ≤ 8 ∧
      0 < 6 ∧
      Options.standard.validate = .ok () ∧
      Session.create 6 = .ok newSession ∧
      6 ≤ 6 ∧
      (∃ after,
        Parser.parse #[97, 97, 97, 97, 97, 97] Options.standard
          (parser.afterAll
            [(#[97, 98, 97, 98, 97, 98, 97, 98], Options.standard), (#[], Options.standard)]) =
            .ok [.literal 97, .copy 5 1] after) ∧
      (parse #[97, 97, 97, 97, 97, 97] Options.standard).1 = .ok [.literal 97, .copy 5 1] ∧
      ((session.run
          [.scan #[97, 98, 97, 98, 97, 98, 97, 98], .skip 0 2,
            .scan #[97, 97, 97, 97, 97, 97, 97, 97, 97]]).2.run
          [.scan #[97, 97, 97, 97, 97, 97], .skip 0 1, .search ⟨1, 0, 5, 5, 1⟩]).1 =
        [.done, .done, .found ⟨5, 1⟩ true] ∧
      (newSession.run
          [.scan #[97, 97, 97, 97, 97, 97], .skip 0 1, .search ⟨1, 0, 5, 5, 1⟩]).1 =
        [.done, .done, .found ⟨5, 1⟩ true] := by
  have addressable : 8 < Slot.limit := by decide
  have addressableNew : 6 < Slot.limit := by decide
  have made := Parser.create_eq_ok addressable
  have opened := Session.create_eq_ok addressable
  obtain ⟨newSession, openedNew⟩ : ∃ newSession, Session.create 6 = .ok newSession :=
    ⟨_, Session.create_eq_ok addressableNew⟩
  have fits : 6 ≤ 8 := by decide
  have invisible := @reuse_invisible 8 _ _ made opened
    [(#[97, 98, 97, 98, 97, 98, 97, 98], Options.standard), (#[], Options.standard)]
    [.scan #[97, 98, 97, 98, 97, 98, 97, 98], .skip 0 2,
      .scan #[97, 97, 97, 97, 97, 97, 97, 97, 97]]
    #[97, 97, 97, 97, 97, 97] fits
  obtain ⟨tokens, after, answered, oneShot⟩ := invisible.1 Options.standard (by decide) rfl
  have alike := invisible.2 6 _ [.skip 0 1, .search ⟨1, 0, 5, 5, 1⟩] openedNew (Nat.le_refl 6)
    (by simp [Session.Step.InScan])
  have copied : Parse.choice Options.standard #[97, 97, 97, 97, 97, 97] 1 =
      some ⟨⟨5, 1⟩, by decide⟩ := by
    decide +kernel
  have parsed := @parse_eq_ok #[97, 97, 97, 97, 97, 97] Options.standard addressableNew
    (by decide) rfl
  rw [Parse.tokensFrom_zero_of_rest (by decide) copied (by decide)] at parsed
  have sameTokens : tokens = [.literal 97, .copy 5 1] :=
    Except.ok.inj (oneShot.symm.trans parsed)
  have fitsNew : (#[97, 97, 97, 97, 97, 97] : Buffer).size ≤ newSession.index.capacity :=
    Nat.le_of_eq (Session.capacity_of_create_eq_ok openedNew).symm
  obtain ⟨skipped, skipping, tracks, nextPos, frame⟩ :=
    @Session.step_skip _ _ 0 1 (Scan.tracks_start fitsNew)
      ⟨by decide, show 0 + 1 ≤ 6 by decide, Nat.le_refl 0⟩
  have sameBuffer : skipped.buffer = #[97, 97, 97, 97, 97, 97] := Scan.buffer_eq_of_frame frame
  have accepted : (Query.mk 1 0 5 5 1).Accepted skipped :=
    ⟨by decide, by decide, by rw [sameBuffer]; decide, Nat.le_of_eq nextPos⟩
  have found : (Query.mk 1 0 5 5 1).answer skipped.buffer
      (∅ ∪ (Visit.skip 0 1).inserts 6) = ⟨5, 1⟩ := by
    rw [sameBuffer, Query.answer_eq_chainWalk (by decide)]
    decide +kernel
  obtain ⟨_, searching, _⟩ := Session.step_search tracks accepted found
  have replies : (newSession.run
      [.scan #[97, 97, 97, 97, 97, 97], .skip 0 1, .search ⟨1, 0, 5, 5, 1⟩]).1 =
      [.done, .done, .found ⟨5, 1⟩ true] := by
    simp only [Session.run, Session.step_scan fitsNew, skipping, searching]
    rfl
  exact ⟨_, _, newSession, made, opened, fits, by decide, rfl, openedNew, Nat.le_refl 6,
    ⟨after, sameTokens ▸ answered⟩, parsed, alike.trans replies, replies⟩

end LempelZiv
