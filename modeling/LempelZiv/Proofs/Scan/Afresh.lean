import LempelZiv.Proofs.Scan.Visits

/-!
Contract: the scan that keeps no buckets for the next call.

Owns:
- searches and skips that read the buckets of a position when they insert it;
- the rules by which such a step does what a keeping one does, up to what is kept;
- the like outcome of both on every scan that tracks its positions, answered or rejected.

Does not own: that the buckets kept ahead are those of the next position, which is part of
what a scan tracks.
-/

namespace LempelZiv

namespace Scan

/-- The scan without the buckets kept ahead. -/
def bare (scan : Scan) : Scan :=
  { scan with pending := none }

end Scan

namespace Afresh

/-! ### Steps that read every bucket -/

/-- Insert `position` into the buckets that are read there. -/
def enter (position : Nat) : ScanM Occupants := do
  let buckets ← Scan.reading fun scan => Buckets.read scan.buffer position
  Scan.enter buckets position

/-- Insert the positions from `position` up to `stop`. -/
def enterRange (position stop : Nat) : ScanM Unit := do
  if position < stop then
    let _ ← enter position
    enterRange (position + 1) stop
termination_by stop - position

/-- Visit the query's position: insert it and answer its longest match. -/
def longestMatch (query : Query) : ScanM Match := do
  Scan.reading fun scan => query.check scan.buffer.size
  let _ ← Scan.advance query.position 1
  if query.maxLen < minLookahead then
    pure (.unimproved query.bestLen)
  else
    let occupants ← enter query.position
    Scan.reading (Scan.bestMatch query occupants)

/-- Visit `count` positions from `position` on without searching them. -/
def skipPositions (position count : Nat) : ScanM Unit := do
  Scan.reading (Scan.checkSkip position count)
  let _ ← Scan.advance position count
  let stop ← Scan.reading fun scan =>
    .ok (Scan.insertableEnd scan.buffer.size position count)
  enterRange position stop

/-- Search every position of a range in turn, up to the end of the buffer. -/
def searchRange (sweep : Scan.Sweep) : ScanM (List Match) := do
  let size ← Scan.reading fun scan => .ok scan.buffer.size
  let count := min sweep.stop size - sweep.first
  (List.range' sweep.first count).mapM fun position =>
    longestMatch (sweep.query size position)

/-! ### The same steps, up to what is kept -/

/-- An outcome without the buckets kept ahead. -/
def bareResult {α : Type} :
    EStateM.Result Violation Scan α → EStateM.Result Violation Scan α
  | .ok answer after => .ok answer after.bare
  | .error violation after => .error violation after.bare

/-- From `scan` on, the step that keeps nothing does what the other one does, up to the
buckets that the other one keeps. -/
def Mirrors {α : Type} (afresh action : ScanM α) (scan : Scan) : Prop :=
  afresh scan.bare = bareResult (action scan)

section Steps

variable {α β : Type} {scan after : Scan}

theorem Mirrors.pure (answer : α) :
    Mirrors (Pure.pure answer) (Pure.pure answer) scan := rfl

theorem Mirrors.reading
    {question : Scan → Except Violation α}
    (blind : question scan.bare = question scan) :
    Mirrors (Scan.reading question) (Scan.reading question) scan := by
  unfold Mirrors Scan.reading
  rw [blind]
  cases question scan <;> rfl

theorem Mirrors.bind
    {afresh action : ScanM α}
    {afreshNext next : α → ScanM β}
    (first : Mirrors afresh action scan)
    (rest : ∀ answer after, action scan = .ok answer after →
      Mirrors (afreshNext answer) (next answer) after) :
    Mirrors (afresh >>= afreshNext) (action >>= next) scan := by
  unfold Mirrors at first ⊢
  cases ran : action scan with
  | ok answer after =>
      rw [ran] at first
      rw [Scan.bind_of_ok first, Scan.bind_of_ok ran]
      exact rest answer after ran
  | error violation after =>
      rw [ran] at first
      rw [Scan.bind_of_error first, Scan.bind_of_error ran]
      rfl

/-- A step that changes nothing but what is kept has no counterpart. -/
theorem Mirrors.unseen
    {action : ScanM α}
    {afresh : ScanM β}
    {next : α → ScanM β}
    {answer : α}
    (ran : action scan = .ok answer after)
    (same : after.bare = scan.bare)
    (rest : Mirrors afresh (next answer) after) :
    Mirrors afresh (action >>= next) scan := by
  unfold Mirrors at rest ⊢
  rw [Scan.bind_of_ok ran, ← same]
  exact rest

/-- A claim takes the buckets that were kept, so that nothing is kept after it. -/
theorem Mirrors.advance
    {afresh : ScanM β}
    {next : Option Buckets → ScanM β}
    {position count : Nat}
    (rest : scan.nextPos ≤ position →
      Mirrors afresh (next (if position = scan.nextPos then scan.pending else none))
        (scan.claimed (position + count))) :
    Mirrors (Scan.advance position count >>= fun _ => afresh)
      (Scan.advance position count >>= next) scan := by
  unfold Mirrors at rest ⊢
  by_cases order : scan.nextPos ≤ position
  · rw [Scan.bind_of_ok (Scan.advance_of_le order count),
      Scan.bind_of_ok (@Scan.advance_of_le scan.bare position order count)]
    exact rest order
  · have revisit : position < scan.nextPos := Nat.lt_of_not_le order
    rw [Scan.bind_of_error (Scan.advance_of_lt revisit count),
      Scan.bind_of_error (@Scan.advance_of_lt scan.bare position revisit count)]
    rfl

end Steps

/-! ### Visits -/

variable {scan : Scan} {inserted : Finset Nat} {position count stop : Nat}

/-- The buckets that are read are those that are handed over. -/
theorem enter_mirrors
    (readable : position + 4 ≤ scan.buffer.size)
    (inside : position < scan.index.capacity) :
    Mirrors (enter position) (Scan.enter (scan.buffer.buckets position) position) scan := by
  unfold Mirrors
  rw [enter, Scan.bind_of_ok (@Scan.reading_buckets scan.bare position readable),
    Scan.enter_eq inside]
  exact @Scan.enter_eq scan.bare position inside

/-- Positions are entered alike, whether the next one's buckets are read ahead or not. -/
theorem enterRange_eq (inside : stop + 4 ≤ scan.buffer.size) :
    ∃ last after,
      Scan.enterRange position stop (scan.buffer.buckets position) scan = .ok last after ∧
      enterRange position stop scan.bare = .ok () after.bare := by
  induction remaining : stop - position generalizing scan position with
  | zero =>
      refine ⟨scan.buffer.buckets position, scan, ?_, ?_⟩
      · rw [Scan.enterRange, if_neg (by omega)]
        rfl
      · rw [enterRange, if_neg (by omega)]
        rfl
  | succ remaining inductionHypothesis =>
      have below : position < scan.index.capacity := Scan.lt_capacity_of_lt_size (by omega)
      have entered := enter_mirrors (show position + 4 ≤ scan.buffer.size by omega) below
      have readableNext : position + 1 + 4 ≤ scan.buffer.size := by omega
      obtain ⟨last, after, ran, ranAfresh⟩ :=
        @inductionHypothesis (scan.entered position below) (position + 1) inside (by omega)
      unfold Mirrors at entered
      rw [Scan.enter_eq below] at entered
      refine ⟨last, after, ?_, ?_⟩
      · rw [Scan.enterRange, if_pos (by omega), Scan.bind_of_ok (Scan.enter_eq below),
          Scan.bind_of_ok (@Scan.reading_buckets (scan.entered position below) _ readableNext)]
        exact ran
      · rw [enterRange, if_pos (by omega), Scan.bind_of_ok entered]
        exact ranAfresh

/-- A search that reads the buckets of its position ends as one that may take kept ones,
answered or rejected. -/
theorem longestMatch_mirrors (tracks : scan.Tracks inserted) (query : Query) :
    Mirrors (longestMatch query) (Scan.longestMatch query) scan := by
  refine .bind (.reading rfl) ?_
  intro _ after ran
  obtain ⟨checked, rfl⟩ := Scan.reading_eq_ok ran
  refine .advance fun order => ?_
  by_cases narrow : query.maxLen < minLookahead
  · rw [if_pos narrow, if_pos narrow]
    exact .pure _
  have accepted := Query.accepted_of_check checked order
  have readableNext : query.position + 1 + 4 ≤ scan.buffer.size :=
    accepted.insertable (Nat.le_of_not_lt narrow)
  have readable : query.position + 4 ≤ scan.buffer.size := Nat.le_of_succ_le readableNext
  have inside : query.position < scan.index.capacity := Scan.lt_capacity_of_lt_size (by omega)
  rw [if_neg narrow, if_neg narrow]
  -- kept or read, they are the buckets of the position
  refine .unseen (Scan.bucketsOr_of_ready (tracks.ready_exact query.position) readable) rfl ?_
  refine .bind (@enter_mirrors (scan.claimed (query.position + 1)) _ readable inside) ?_
  intro occupants entered ran
  cases (@Scan.enter_eq (scan.claimed (query.position + 1)) _ inside).symm.trans ran
  refine .unseen (Scan.reading_buckets readableNext) rfl ?_
  exact .unseen (Scan.keep_eq _ _) rfl (.reading rfl)

/-- A skip that reads every bucket ends as one that may take a kept one. -/
theorem skipPositions_mirrors (tracks : scan.Tracks inserted) (position count : Nat) :
    Mirrors (skipPositions position count) (Scan.skipPositions position count) scan := by
  refine .bind (.reading rfl) ?_
  intro _ after ran
  obtain ⟨checked, rfl⟩ := Scan.reading_eq_ok ran
  refine .advance fun order => .bind (.reading rfl) ?_
  intro stop after ran
  obtain ⟨isStop, rfl⟩ := Scan.reading_eq_ok ran
  by_cases insertable : position < stop
  · have stopInside : stop + 4 ≤ scan.buffer.size := by
      simp only [Except.ok.injEq, Scan.buffer_claimed, Scan.insertableEnd, minLookahead] at isStop
      omega
    have readable : position + 4 ≤ scan.buffer.size := by omega
    rw [if_pos insertable]
    refine .unseen (Scan.bucketsOr_of_ready (tracks.ready_exact position) readable) rfl ?_
    obtain ⟨last, entered, ran, ranAfresh⟩ :=
      @enterRange_eq (scan.claimed (position + count)) position stop stopInside
    unfold Mirrors
    rw [ranAfresh, Scan.bind_of_ok ran]
    split <;> rfl
  · rw [if_neg insertable, enterRange, if_neg insertable]
    exact .pure ()

theorem searches_mirrors
    (tracks : scan.Tracks inserted)
    (queryAt : Nat → Query)
    (positions : List Nat) :
    Mirrors (positions.mapM fun position => longestMatch (queryAt position))
      (positions.mapM fun position => Scan.longestMatch (queryAt position)) scan := by
  induction positions generalizing scan inserted with
  | nil => exact .pure []
  | cons first rest inductionHypothesis =>
      rw [List.mapM_cons, List.mapM_cons]
      refine .bind (longestMatch_mirrors tracks (queryAt first)) ?_
      intro result after ran
      obtain ⟨_, tracked⟩ : ∃ inserted, after.Tracks inserted := by
        rcases Scan.longestMatch_cases tracks (queryAt first) with
          ⟨_, _, answered, tracked, _⟩ | ⟨_, broke⟩
        · cases answered.symm.trans ran
          exact ⟨_, tracked⟩
        · cases broke.symm.trans ran
      exact .bind (inductionHypothesis tracked) fun results _ _ =>
        .pure (result :: results)

theorem searchRange_mirrors (tracks : scan.Tracks inserted) (sweep : Scan.Sweep) :
    Mirrors (searchRange sweep) (Scan.searchRange sweep) scan := by
  refine .bind (.reading rfl) ?_
  intro size _ ran
  obtain ⟨_, rfl⟩ := Scan.reading_eq_ok ran
  exact searches_mirrors tracks _ _

end Afresh

end LempelZiv
