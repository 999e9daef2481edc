import LempelZiv.Proofs.Parse.Stateless

/-!
Contract: the visits that a parse makes.

Owns:
- lists of visits that each begin where the one before ended, and the best lengths
  that their searches may ask with;
- the visits and tokens of a parse by a given parser, as its loop tells them on a scan
  that keeps its visits;
- the state of the scan before each visit of a parse.

Does not own: the proof that a parse makes such visits.
-/

namespace LempelZiv

namespace Parse

/-! ### Consecutive visits -/

/-- A search asks for any match to emit, or for one longer than a match held at the
position before that is short of the nice length there. -/
def Sought (options : Options) (buffer : Buffer) (position bestLen : Nat) : Prop :=
  bestLen = minMatchLen - 1 ∨
    ∃ previous,
      position = previous + 1 ∧
      minMatchLen ≤ bestLen ∧
      bestLen < (options.limits (buffer.size - previous)).niceLen

/-- Visits from `position` up to `stop`, each of which begins where the one before
ended. -/
inductive Calls (options : Options) (buffer : Buffer) :
    (position : Nat) → List Visit → (stop : Nat) → Prop where
  | done {position : Nat} : Calls options buffer position [] position
  | search
      {position stop bestLen : Nat}
      {rest : List Visit}
      (inside : position < buffer.size)
      (sought : Sought options buffer position bestLen)
      (following : Calls options buffer (position + 1) rest stop) :
      Calls options buffer position
        (.search (options.query buffer.size position bestLen) :: rest) stop
  | skip
      {position stop count : Nat}
      {rest : List Visit}
      (nonempty : 0 < count)
      (following : Calls options buffer (position + count) rest stop) :
      Calls options buffer position (.skip position count :: rest) stop

variable {options : Options} {buffer : Buffer} {position stop : Nat} {visits : List Visit}

theorem Calls.exists_of_append
    {earlier rest : List Visit}
    (calls : Calls options buffer position (earlier ++ rest) stop) :
    ∃ middle,
      Calls options buffer position earlier middle ∧
      Calls options buffer middle rest stop := by
  induction earlier generalizing position with
  | nil => exact ⟨position, .done, calls⟩
  | cons first earlier inductionHypothesis =>
      cases calls with
      | search inside sought following =>
          obtain ⟨middle, before, after⟩ := inductionHypothesis following
          exact ⟨middle, .search inside sought before, after⟩
      | skip nonempty following =>
          obtain ⟨middle, before, after⟩ := inductionHypothesis following
          exact ⟨middle, .skip nonempty before, after⟩

theorem Calls.le (calls : Calls options buffer position visits stop) : position ≤ stop := by
  induction calls with
  | done => exact Nat.le_refl _
  | search _ _ _ inductionHypothesis => exact Nat.le_of_succ_le inductionHypothesis
  | skip _ _ inductionHypothesis => exact Nat.le_of_add_right_le inductionHypothesis

theorem Calls.head_bounds
    {visit : Visit}
    {rest : List Visit}
    (calls : Calls options buffer position (visit :: rest) stop) :
    visit.first = position ∧ 0 < visit.count ∧ visit.first + visit.count ≤ stop := by
  cases calls with
  | search _ _ following => exact ⟨rfl, Nat.one_pos, following.le⟩
  | skip nonempty following => exact ⟨rfl, nonempty, following.le⟩

/-- Consecutive visits, once performed, have visited every position up to their end. -/
theorem Visited.performAll
    {scan after : Scan}
    (valid : options.validate = .ok ())
    (visited : Visited options buffer position scan)
    (inside : position ≤ buffer.size)
    (calls : Calls options buffer position visits stop)
    (performed : Scan.performAll visits scan = .ok () after) :
    Visited options buffer stop after ∧ stop ≤ buffer.size := by
  induction calls generalizing scan with
  | done =>
      cases performed
      exact ⟨visited, inside⟩
  | @search position stop bestLen rest more sought following inductionHypothesis =>
      obtain ⟨next, first, followed⟩ := Scan.performAll_cons_eq_ok_iff.mp performed
      obtain ⟨searched, ran, visitedNext⟩ := visited.search valid more bestLen
      have same : Scan.perform (.search (options.query buffer.size position bestLen)) scan =
          .ok () searched :=
        Scan.bind_of_ok ran _
      rw [same] at first
      cases first
      exact inductionHypothesis visitedNext more followed
  | @skip position stop count rest nonempty following inductionHypothesis =>
      obtain ⟨next, first, followed⟩ := Scan.performAll_cons_eq_ok_iff.mp performed
      have accepted : scan.SkipAccepted position count :=
        Scan.accepted_of_perform_eq_ok first
      have ends := accepted.inside
      rw [visited.sameBuffer] at ends
      obtain ⟨skipped, ran, visitedNext⟩ := visited.skip nonempty ends
      have same : Scan.perform (.skip position count) scan = .ok () skipped := ran
      rw [same] at first
      cases first
      exact inductionHypothesis visitedNext ends followed

end Parse

namespace Parser

/-! ### The visits of a parser -/

open Parse

/-- The loop of a strategy on a scan that keeps its visits. -/
def recordedLoop : Strategy → Options → Buffer → RecordedScanM (Array Token)
  | .greedy => Parse.greedy
  | .lazy => Parse.lazy

/-- The loop of a parse, begun on the parser's index, makes these visits and emits
these tokens. -/
def Makes (parser : Parser) (input : Buffer) (options : Options) (visits : List Visit)
    (tokens : List Token) : Prop :=
  ∃ (fits : input.size ≤ parser.index.capacity) (emitted : Array Token) (scan : Scan),
    emitted.toList = tokens ∧
    recordedLoop options.strategy options input [] (Scan.start parser.index input fits) =
      .ok (emitted, visits) scan

/-- The scan of a parse after these visits, none of which was rejected. -/
def Arrives (parser : Parser) (input : Buffer) (visits : List Visit) (scan : Scan) : Prop :=
  ∃ fits : input.size ≤ parser.index.capacity,
    Scan.performAll visits (Scan.start parser.index input fits) = .ok () scan

variable {parser : Parser} {input : Buffer} {options : Options}

/-- Before each visit of a parse, all positions up to it have been visited. -/
theorem Arrives.split
    {earlier later : List Visit}
    {visit : Visit}
    {scan : Scan}
    {stop : Nat}
    (valid : options.validate = .ok ())
    (arrives : parser.Arrives input (earlier ++ visit :: later) scan)
    (calls : Calls options input 0 (earlier ++ visit :: later) stop) :
    ∃ position before,
      parser.Arrives input earlier before ∧
      Visited options input position before ∧
      Calls options input position (visit :: later) stop ∧
      visit.Accepted before := by
  obtain ⟨fits, performed⟩ := arrives
  obtain ⟨position, callsEarlier, callsLater⟩ := calls.exists_of_append
  obtain ⟨before, performedEarlier, performedLater⟩ :=
    Scan.performAll_append_eq_ok_iff.mp performed
  obtain ⟨next, first, _⟩ := Scan.performAll_cons_eq_ok_iff.mp performedLater
  have visited := (Visited.performAll valid (visited_start fits) (Nat.zero_le _) callsEarlier
    performedEarlier).1
  exact ⟨position, before, ⟨fits, performedEarlier⟩, visited, callsLater,
    Scan.accepted_of_perform_eq_ok first⟩

end Parser

end LempelZiv
