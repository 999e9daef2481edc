import LempelZiv.Proofs.Session.Agreement

/-!
Contract: a call is rejected for the first rule it breaks, and then it did not happen.

Owns:
- the rule that a search or a skip is rejected for, the first in the order in which the
  rules are checked;
- the calls that are rejected, exactly those that break a rule, with the scan left as it
  was;
- what is left of a run when rejected visits are left out;
- all of this for every state that the steps of a session reach.

Every rule is checked before anything is changed.  That a call which breaks no rule is not
rejected all the same rests on the tables: their positions lie before the one that is
visited, so no read or write leaves its bounds.
-/

namespace LempelZiv

/-! ### Broken rules -/

/-- The query is rejected by this rule: it breaks the rule and none that is checked
before. -/
inductive Query.Breaks (query : Query) (scan : Scan) : Violation → Prop where
  | depthZero (depth : query.maxDepth = 0) : Breaks query scan .depthZero
  | niceLenTooLarge
      (depth : 1 ≤ query.maxDepth)
      (nice : query.maxLen < query.niceLen) :
      Breaks query scan (.niceLenTooLarge query.niceLen query.maxLen)
  | matchPastEnd
      (depth : 1 ≤ query.maxDepth)
      (nice : query.niceLen ≤ query.maxLen)
      (outside : scan.buffer.size < query.position + query.maxLen) :
      Breaks query scan (.matchPastEnd query.maxLen query.position)
  | positionVisited
      (depth : 1 ≤ query.maxDepth)
      (nice : query.niceLen ≤ query.maxLen)
      (inside : query.position + query.maxLen ≤ scan.buffer.size)
      (revisit : query.position < scan.nextPos) :
      Breaks query scan (.positionVisited query.position)

namespace Scan

/-- The skip is rejected by this rule: it breaks the rule and none that is checked
before. -/
inductive SkipBreaks (scan : Scan) (position count : Nat) : Violation → Prop where
  | skipEmpty (empty : count = 0) : SkipBreaks scan position count .skipEmpty
  | skipPastEnd
      (nonempty : 0 < count)
      (outside : scan.buffer.size < position + count) :
      SkipBreaks scan position count (.skipPastEnd count position)
  | positionVisited
      (nonempty : 0 < count)
      (inside : position + count ≤ scan.buffer.size)
      (revisit : position < scan.nextPos) :
      SkipBreaks scan position count (.positionVisited position)

variable {scan after : Scan} {inserted : Finset Nat} {query : Query} {position count : Nat}
  {violation : Violation}

theorem exists_breaks_iff :
    (∃ violation, query.Breaks scan violation) ↔
      query.maxDepth = 0 ∨ query.maxLen < query.niceLen ∨
        scan.buffer.size < query.position + query.maxLen ∨ query.position < scan.nextPos := by
  constructor
  · rintro ⟨_, depth | ⟨_, nice⟩ | ⟨_, _, outside⟩ | ⟨_, _, _, revisit⟩⟩
    · exact .inl depth
    · exact .inr (.inl nice)
    · exact .inr (.inr (.inl outside))
    · exact .inr (.inr (.inr revisit))
  · intro broken
    by_cases depth : query.maxDepth = 0
    · exact ⟨_, .depthZero depth⟩
    by_cases nice : query.maxLen < query.niceLen
    · exact ⟨_, .niceLenTooLarge (by omega) nice⟩
    by_cases outside : scan.buffer.size < query.position + query.maxLen
    · exact ⟨_, .matchPastEnd (by omega) (by omega) outside⟩
    · exact ⟨_, .positionVisited (by omega) (by omega) (by omega) (by omega)⟩

theorem exists_skipBreaks_iff :
    (∃ violation, scan.SkipBreaks position count violation) ↔
      count = 0 ∨ scan.buffer.size < position + count ∨ position < scan.nextPos := by
  constructor
  · rintro ⟨_, empty | ⟨_, outside⟩ | ⟨_, _, revisit⟩⟩
    · exact .inl empty
    · exact .inr (.inl outside)
    · exact .inr (.inr revisit)
  · intro broken
    by_cases empty : count = 0
    · exact ⟨_, .skipEmpty empty⟩
    by_cases outside : scan.buffer.size < position + count
    · exact ⟨_, .skipPastEnd (by omega) outside⟩
    · exact ⟨_, .positionVisited (by omega) (by omega) (by omega)⟩

theorem accepted_of_not_breaks (obeys : ∀ violation, ¬ query.Breaks scan violation) :
    query.Accepted scan := by
  have rules := (not_congr exists_breaks_iff).mp (not_exists.mpr obeys)
  exact ⟨by omega, by omega, by omega, by omega⟩

theorem skipAccepted_of_not_breaks
    (obeys : ∀ violation, ¬ scan.SkipBreaks position count violation) :
    scan.SkipAccepted position count := by
  have rules := (not_congr exists_skipBreaks_iff).mp (not_exists.mpr obeys)
  exact ⟨by omega, by omega, by omega⟩

/-! ### Rejected calls -/

theorem longestMatch_of_breaks (breaks : query.Breaks scan violation) :
    longestMatch query scan = .error violation scan := by
  cases breaks with
  | depthZero depth =>
      apply longestMatch_of_check
      rw [Query.check, if_pos depth]
  | niceLenTooLarge depth nice =>
      apply longestMatch_of_check
      rw [Query.check, if_neg (by omega), if_pos nice]
  | matchPastEnd depth nice outside =>
      apply longestMatch_of_check
      rw [Query.check, if_neg (by omega), if_neg (by omega), if_pos outside]
  | positionVisited depth nice inside revisit =>
      exact longestMatch_of_revisit (Query.check_eq_ok_iff.mpr ⟨depth, nice, inside⟩) revisit

theorem skipPositions_of_breaks (breaks : scan.SkipBreaks position count violation) :
    skipPositions position count scan = .error violation scan := by
  cases breaks with
  | skipEmpty empty =>
      apply skipPositions_of_check
      rw [checkSkip, if_pos empty]
  | skipPastEnd nonempty outside =>
      apply skipPositions_of_check
      rw [checkSkip, if_neg (by omega), if_pos outside]
  | positionVisited nonempty inside revisit =>
      apply skipPositions_of_revisit _ revisit
      rw [checkSkip, if_neg (by omega), if_neg (by omega)]

/-- A call that is rejected for every rule it breaks and answers if it breaks none is
rejected for nothing else. -/
theorem eq_error_iff_of_breaks
    {α : Type}
    {action : ScanM α}
    {breaks : Violation → Prop}
    (rejects : ∀ violation, breaks violation → action scan = .error violation scan)
    (answers : (∀ violation, ¬ breaks violation) → ∃ answer after, action scan = .ok answer after) :
    action scan = .error violation after ↔ after = scan ∧ breaks violation := by
  constructor
  · intro rejected
    by_cases broken : ∃ rule, breaks rule
    · obtain ⟨rule, breaksRule⟩ := broken
      rw [rejects rule breaksRule] at rejected
      cases rejected
      exact ⟨rfl, breaksRule⟩
    · obtain ⟨answer, done, answered⟩ := answers (not_exists.mp broken)
      rw [answered] at rejected
      cases rejected
  · rintro ⟨rfl, breaksRule⟩
    exact rejects violation breaksRule

theorem longestMatch_eq_error_iff (tracks : scan.Tracks inserted) :
    longestMatch query scan = .error violation after ↔
      after = scan ∧ query.Breaks scan violation := by
  apply eq_error_iff_of_breaks (fun _ => longestMatch_of_breaks)
  intro obeys
  obtain ⟨done, answered, _⟩ := longestMatch_spec tracks (accepted_of_not_breaks obeys)
  exact ⟨_, done, answered⟩

theorem skipPositions_eq_error_iff (tracks : scan.Tracks inserted) :
    skipPositions position count scan = .error violation after ↔
      after = scan ∧ scan.SkipBreaks position count violation := by
  apply eq_error_iff_of_breaks (fun _ => skipPositions_of_breaks)
  intro obeys
  obtain ⟨done, answered, _⟩ := skipPositions_spec tracks (skipAccepted_of_not_breaks obeys)
  exact ⟨_, done, answered⟩

end Scan

theorem Index.scan_eq_error_iff {index : Index} {buffer : Buffer} {violation : Violation} :
    index.scan buffer = .error violation ↔
      index.capacity < buffer.size ∧
        violation = .bufferTooLarge buffer.size index.capacity := by
  unfold Index.scan
  split
  · rename_i fits
    simp only [reduceCtorEq, false_iff]
    exact fun both => Nat.not_le.mpr both.1 fits
  · rename_i exceeds
    simp only [Except.error.injEq, Nat.lt_of_not_le exceeds, true_and, eq_comm]

namespace Session

/-! ### Runs without their rejected visits -/

/-- The step visits positions of the open scan. -/
def Step.Visits : Step → Prop
  | .search _ | .skip _ _ | .searchRange _ => True
  | .scan _ | .reset | .showScan | .chain _ | .chains | .showIndex => False

/-- Of the steps of a run and their replies, some visits that were rejected are left out,
anywhere and any number of them. -/
inductive Prunes :
    (steps : List Step) → (replies : List Reply) →
    (kept : List Step) → (keptReplies : List Reply) → Prop where
  | done : Prunes [] [] [] []
  | keep
      {next : Step}
      {reply : Reply}
      {steps kept : List Step}
      {replies keptReplies : List Reply}
      (rest : Prunes steps replies kept keptReplies) :
      Prunes (next :: steps) (reply :: replies) (next :: kept) (reply :: keptReplies)
  | leaveOut
      {next : Step}
      {violation : Violation}
      {steps kept : List Step}
      {replies keptReplies : List Reply}
      (visits : next.Visits)
      (rest : Prunes steps replies kept keptReplies) :
      Prunes (next :: steps) (.rejected violation :: replies) kept keptReplies

variable {session : Session} {ledger : Ledger}

theorem withScan_of_rejected
    {α : Type}
    {action : ScanM α}
    {reply : α → Reply}
    {violation : Violation}
    {positions : Scan → Finset Nat}
    (follows : session.Follows ledger)
    (acts : ∀ scan : Scan, scan.Tracks ledger.inserted →
      (∃ answer after,
        action scan = .ok answer after ∧
        after.Tracks (positions scan) ∧
        after.frame = scan.frame) ∨
      ∃ violation, action scan = .error violation scan)
    (answers : ∀ answer, reply answer ≠ .rejected violation)
    (rejected : (withScan action reply session).1 = .rejected violation) :
    (withScan action reply session).2 = session := by
  cases session with
  | idle index => rfl
  | scanning scan =>
      rw [withScan] at rejected ⊢
      rcases acts scan follows.2 with ⟨answer, after, ran, _⟩ | ⟨rule, broke⟩
      · rw [ran] at rejected
        exact absurd rejected (answers answer)
      · rw [broke]

/-- A visit that is rejected leaves the session as it was. -/
theorem step_of_rejected
    {next : Step}
    {violation : Violation}
    (follows : session.Follows ledger)
    (visits : next.Visits)
    (rejected : (session.step next).1 = .rejected violation) :
    (session.step next).2 = session := by
  cases next with
  | search query =>
      exact withScan_of_rejected follows (fun _ tracks => Scan.longestMatch_cases tracks query)
        (by simp) rejected
  | skip position count =>
      exact withScan_of_rejected follows
        (fun _ tracks => Scan.skipPositions_cases tracks position count) (by simp) rejected
  | searchRange sweep =>
      exact withScan_of_rejected follows (fun _ tracks => Scan.searchRange_cases tracks sweep)
        (by simp) rejected
  | scan buffer => exact visits.elim
  | reset => exact visits.elim
  | showScan => exact visits.elim
  | chain bucket => exact visits.elim
  | chains => exact visits.elim
  | showIndex => exact visits.elim

theorem run_cons (next : Step) (steps : List Step) :
    session.run (next :: steps) =
      ((session.step next).1 :: ((session.step next).2.run steps).1,
        ((session.step next).2.run steps).2) := rfl

/-- Without rejected visits a run gives the remaining replies and ends in the same
session. -/
theorem run_of_prunes
    {steps kept : List Step}
    {replies keptReplies : List Reply}
    (follows : session.Follows ledger)
    (prunes : Prunes steps replies kept keptReplies)
    (answered : (session.run steps).1 = replies) :
    session.run kept = (keptReplies, (session.run steps).2) := by
  induction prunes generalizing session ledger with
  | done => rfl
  | @keep next reply steps kept replies keptReplies rest inductionHypothesis =>
      rw [run_cons, List.cons.injEq] at answered
      rw [run_cons, run_cons, answered.1,
        inductionHypothesis (follows_step follows next) answered.2]
  | @leaveOut next violation steps kept replies keptReplies visits rest inductionHypothesis =>
      rw [run_cons, List.cons.injEq] at answered
      have same := step_of_rejected follows visits answered.1
      rw [same] at answered
      rw [run_cons, same]
      exact inductionHypothesis follows answered.2

/-! ### Every state of a session -/

/-- The session rejects exactly the calls that break a rule, and a rejected call did not
happen. -/
structure RejectsExactly (session : Session) : Prop where
  /-- A search is rejected for the first rule that it breaks; tables, place and buckets
  kept ahead stay as they were. -/
  search : ∀ scan, session = .scanning scan → ∀ query violation after,
    Scan.longestMatch query scan = .error violation after ↔
      after = scan ∧ query.Breaks scan violation
  searchRules : ∀ scan, session = .scanning scan → ∀ query : Query,
    (∃ violation, query.Breaks scan violation) ↔
      query.maxDepth = 0 ∨ query.maxLen < query.niceLen ∨
        scan.buffer.size < query.position + query.maxLen ∨ query.position < scan.nextPos
  skip : ∀ scan, session = .scanning scan → ∀ position count violation after,
    Scan.skipPositions position count scan = .error violation after ↔
      after = scan ∧ scan.SkipBreaks position count violation
  skipRules : ∀ scan, session = .scanning scan → ∀ position count,
    (∃ violation, scan.SkipBreaks position count violation) ↔
      count = 0 ∨ scan.buffer.size < position + count ∨ position < scan.nextPos
  scan : ∀ buffer violation,
    session.index.scan buffer = .error violation ↔
      session.index.capacity < buffer.size ∧
        violation = .bufferTooLarge buffer.size session.index.capacity
  /-- A scan that is rejected closes the open one, but leaves its tables. -/
  rescan : ∀ buffer, session.index.capacity < buffer.size →
    session.step (.scan buffer) =
      (.rejected (.bufferTooLarge buffer.size session.index.capacity), .idle session.index)
  /-- Rejected visits can be left out, or put in, without a trace. -/
  pruned : ∀ steps kept keptReplies,
    Prunes steps (session.run steps).1 kept keptReplies →
      session.run kept = (keptReplies, (session.run steps).2)

theorem rejectsExactly_of_follows (follows : session.Follows ledger) :
    session.RejectsExactly where
  search := by
    rintro scan rfl query violation after
    exact Scan.longestMatch_eq_error_iff follows.2
  searchRules _ _ _ := Scan.exists_breaks_iff
  skip := by
    rintro scan rfl position count violation after
    exact Scan.skipPositions_eq_error_iff follows.2
  skipRules _ _ _ _ := Scan.exists_skipBreaks_iff
  scan _ _ := Index.scan_eq_error_iff
  rescan := by
    intro buffer exceeds
    rw [step, Index.scan_eq_error_iff.mpr ⟨exceeds, rfl⟩]
  pruned steps kept keptReplies prunes := run_of_prunes follows prunes rfl

/-- After any steps of a session on a new index, rejected ones included, exactly the calls
that break a rule are rejected, each for the first rule, and none of them leaves a trace. -/
theorem run_rejectsExactly
    {capacity : Nat}
    (created : create capacity = .ok session)
    (steps : List Step) :
    (session.run steps).2.RejectsExactly :=
  rejectsExactly_of_follows (follows_run (follows_create created) steps)

/-- On a scan of eight bytes, a search without depth that reaches past the end as well is
rejected for its depth, and a skip of nothing for its count. -/
theorem run_rejectsExactly_aaaaaaaa :
    ∃ session scan,
      create 8 = .ok session ∧
      (session.run [.scan #[97, 97, 97, 97, 97, 97, 97, 97]]).2 = .scanning scan ∧
      (session.run [.scan #[97, 97, 97, 97, 97, 97, 97, 97]]).2.RejectsExactly ∧
      Scan.longestMatch ⟨6, 0, 5, 5, 0⟩ scan = .error .depthZero scan ∧
      Scan.longestMatch ⟨6, 0, 5, 5, 1⟩ scan = .error (.matchPastEnd 5 6) scan ∧
      Scan.skipPositions 9 0 scan = .error .skipEmpty scan := by
  have addressable : 8 < Slot.limit := by decide
  have created := create_eq_ok addressable
  have rejects := run_rejectsExactly created [.scan #[97, 97, 97, 97, 97, 97, 97, 97]]
  have fits : (#[97, 97, 97, 97, 97, 97, 97, 97] : Buffer).size ≤ (Session.idle
      (Index.blank 8 #[.allocated 8 (Index.tableBytes 8)] addressable)).index.capacity :=
    Nat.le_of_eq (Index.capacity_blank _ _ addressable).symm
  have opened : ((Session.idle (Index.blank 8 #[.allocated 8 (Index.tableBytes 8)]
      addressable)).run [.scan #[97, 97, 97, 97, 97, 97, 97, 97]]).2 =
        .scanning (Scan.start _ #[97, 97, 97, 97, 97, 97, 97, 97] fits) := by
    rw [run_cons, step_scan fits]
    rfl
  refine ⟨_, _, created, opened, rejects, ?_, ?_, ?_⟩
  · exact (rejects.search _ opened _ _ _).mpr ⟨rfl, .depthZero rfl⟩
  · exact (rejects.search _ opened _ _ _).mpr
      ⟨rfl, .matchPastEnd (by decide) (by decide) (show 8 < 6 + 5 by decide)⟩
  · exact (rejects.skip _ opened _ _ _ _).mpr ⟨rfl, .skipEmpty rfl⟩

end Session

end LempelZiv
