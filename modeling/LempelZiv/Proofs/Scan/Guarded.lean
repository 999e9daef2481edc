import LempelZiv.Proofs.Scan.Visits
import LempelZiv.Proofs.Search.Guarded

/-!
Contract: searches and skips on a machine of 32-bit cells, with every operation checked.

Owns:
- the steps of a scan whose table numbers, ranges, narrowed numbers and stored positions
  are checked;
- the rule by which a checked step follows the unchecked one without a fault of its own;
- the absence of faults in every accepted search and skip of a reached scan.

Does not own: rejected calls, which end at a rule of the index and not at a fault.
-/

namespace LempelZiv

/-- A step of a scan which answers or reports what went wrong. -/
abbrev GuardedScanM := EStateM Fault Scan

namespace Guarded

/-! ### Checked steps -/

/-- A step that may break a rule, as one that may have a fault. -/
def liftStep {α : Type} (action : ScanM α) : GuardedScanM α :=
  fun scan =>
    match action scan with
    | .ok answer after => .ok answer after
    | .error violation after => .error (.violation violation) after

/-- Answer a question that does not change the scan. -/
def reading {α : Type} (question : Scan → Except Fault α) : GuardedScanM α :=
  fun scan =>
    match question scan with
    | .ok answer => .ok answer scan
    | .error fault => .error fault scan

/-- The buckets computed ahead, or else those read at `position`. -/
def bucketsOr (ready : Option Buckets) (position : Nat) : GuardedScanM Buckets :=
  match ready with
  | some buckets => pure buckets
  | none => reading fun scan => buckets scan.buffer position

/-- Insert `position`, if its cell can tell it from no position. -/
def enter (buckets : Buckets) (position : Nat) : GuardedScanM Occupants := do
  reading fun _ => storable position
  liftStep (Scan.enter buckets position)

/-- Insert the positions from `position` up to `stop`. -/
def enterRange (position stop : Nat) (first : Buckets) : GuardedScanM Buckets := do
  if position < stop then
    let _ ← enter first position
    let next ← reading fun scan => buckets scan.buffer (position + 1)
    enterRange (position + 1) stop next
  else
    pure first
termination_by stop - position

/-- The answer to a query whose position had the given earlier occupants. -/
def bestMatch (query : Query) (occupants : Occupants) (scan : Scan) : Except Fault Match := do
  let window ← lift (scan.buffer.word32At query.position)
  let search : Search :=
    { links := scan.index.links
      buffer := scan.buffer
      position := query.position
      window := window
      maxLen := query.maxLen
      niceLen := query.niceLen }
  run search occupants query.bestLen query.maxDepth

/-- Visit the query's position: insert it and answer its longest match. -/
def longestMatch (query : Query) : GuardedScanM Match := do
  reading fun scan => lift (query.check scan.buffer.size)
  let ready ← liftStep (Scan.advance query.position 1)
  if query.maxLen < minLookahead then
    pure (.unimproved query.bestLen)
  else
    let first ← bucketsOr ready query.position
    let occupants ← enter first query.position
    let next ← reading fun scan => buckets scan.buffer (query.position + 1)
    liftStep (Scan.keep next)
    reading (bestMatch query occupants)

/-- Visit `count` positions from `position` on without searching them.  The end of the
insertable part is cut off at zero by design, so that its difference is not checked. -/
def skipPositions (position count : Nat) : GuardedScanM Unit := do
  reading fun scan => lift (Scan.checkSkip position count scan)
  let ready ← liftStep (Scan.advance position count)
  let stop ← reading fun scan => .ok (Scan.insertableEnd scan.buffer.size position count)
  if position < stop then
    let first ← bucketsOr ready position
    let last ← enterRange position stop first
    if stop = position + count then
      liftStep (Scan.keep last)

/-! ### Steps without faults -/

/-- From `scan` on, the checked step does what the unchecked one does. -/
def Faultless {α : Type} (checked : GuardedScanM α) (action : ScanM α) (scan : Scan) : Prop :=
  checked scan = liftStep action scan

section Steps

variable {α β : Type} {scan : Scan}

theorem Faultless.lifted (action : ScanM α) : Faultless (liftStep action) action scan := rfl

theorem Faultless.pure (answer : α) :
    Faultless (Pure.pure answer) (Pure.pure answer) scan := rfl

theorem Faultless.reading
    {checked : Scan → Except Fault α}
    {question : Scan → Except Violation α}
    (same : checked scan = lift (question scan)) :
    Faultless (Guarded.reading checked) (Scan.reading question) scan := by
  rw [Faultless, Guarded.reading, liftStep, Scan.reading, same]
  cases question scan <;> rfl

/-- One step after which both programs go on with the same answer from the same scan. -/
theorem Faultless.bind_of_ok
    {checked : GuardedScanM α}
    {action : ScanM α}
    {checkedNext : α → GuardedScanM β}
    {next : α → ScanM β}
    {answer : α}
    {after : Scan}
    (first : Faultless checked action scan)
    (ran : action scan = .ok answer after)
    (rest : Faultless (checkedNext answer) (next answer) after) :
    Faultless (checked >>= checkedNext) (action >>= next) scan := by
  simp only [Faultless, liftStep, Bind.bind, EStateM.bind] at first rest ⊢
  rw [first, ran]
  exact rest

/-- Where the unchecked step answers, so does the checked one. -/
theorem Faultless.ran
    {checked : GuardedScanM α}
    {action : ScanM α}
    {answer : α}
    {after : Scan}
    (faultless : Faultless checked action scan)
    (ran : action scan = .ok answer after) :
    checked scan = .ok answer after := by
  rw [faultless, liftStep, ran]

end Steps

section Visits

variable {scan : Scan} {position : Nat}

theorem addressable_size (scan : Scan) : scan.buffer.size < Slot.limit :=
  Nat.lt_of_le_of_lt scan.fits scan.index.addressable

theorem faultless_buckets (inside : position + 4 ≤ scan.buffer.size) :
    Faultless (reading fun scan => buckets scan.buffer position)
      (Scan.reading fun scan => Buckets.read scan.buffer position) scan := by
  apply Faultless.reading
  rw [buckets_eq_ok inside, Buffer.read_eq_buckets (by omega), lift_ok]

theorem faultless_bucketsOr
    (ready : Option Buckets)
    (inside : position + 4 ≤ scan.buffer.size) :
    Faultless (bucketsOr ready position) (Scan.bucketsOr ready position) scan := by
  cases ready with
  | some known => exact .pure known
  | none => exact faultless_buckets inside

theorem faultless_enter (first : Buckets) (inside : position < scan.buffer.size) :
    Faultless (enter first position) (Scan.enter first position) scan := by
  have stored : storable position = .ok () :=
    storable_eq_ok_iff.mpr (Nat.lt_trans inside (addressable_size scan))
  have checked : reading (fun _ => storable position) scan = .ok () scan := by
    rw [reading, stored]
  simp only [Faultless, enter, Bind.bind, EStateM.bind, checked]

theorem faultless_enterRange
    {stop : Nat}
    (inside : stop + 4 ≤ scan.buffer.size) :
    Faultless (enterRange position stop (scan.buffer.buckets position))
      (Scan.enterRange position stop (scan.buffer.buckets position)) scan := by
  induction remaining : stop - position generalizing scan position with
  | zero =>
      rw [enterRange, Scan.enterRange, if_neg (by omega), if_neg (by omega)]
      exact .pure _
  | succ remaining inductionHypothesis =>
      have below : position < scan.index.capacity := Scan.lt_capacity_of_lt_size (by omega)
      have readable : position + 1 + 4 ≤ scan.buffer.size := by omega
      rw [enterRange, Scan.enterRange, if_pos (by omega), if_pos (by omega)]
      exact .bind_of_ok (faultless_enter _ (by omega)) (Scan.enter_eq below)
        (.bind_of_ok (faultless_buckets readable) (Scan.reading_buckets readable)
          (inductionHypothesis inside (by omega)))

/-- The search itself, on tables that hold the earlier positions and the query's own. -/
theorem bestMatch_eq_lift
    {query : Query}
    {inserted : Finset Nat}
    {occupants : Occupants}
    (feasible : Search.Feasible query scan.buffer)
    (earlier : ∀ entry ∈ inserted, entry < query.position)
    (holds : scan.index.Holds scan.buffer (inserted ∪ {query.position}))
    (short : occupants.short.position? = query.shortCandidate scan.buffer inserted)
    (long : occupants.long.position? = newest? (Index.longEntries scan.buffer inserted
      (scan.buffer.buckets query.position).long)) :
    bestMatch query occupants scan = lift (Scan.bestMatch query occupants scan) := by
  have wide := feasible.wide
  have inside := feasible.inside
  simp only [minLookahead] at wide
  have chainEarlier : ∀ candidate ∈ newestFirst (Index.longEntries scan.buffer inserted
      (scan.buffer.buckets query.position).long), candidate < query.position := by
    intro candidate listed
    exact earlier candidate (Finset.mem_filter.mp (mem_newestFirst.mp listed)).1
  have shortEarlier : ∀ candidate, occupants.short.position? = some candidate →
      candidate < query.position := by
    intro candidate held
    exact earlier candidate (Query.mem_of_shortCandidate (short.symm.trans held))
  rw [bestMatch, Scan.bestMatch, Buffer.word32At_eq_window (by omega)]
  exact run_eq_lift (addressable_size scan) feasible (holds.walk_replaced earlier long)
    chainEarlier shortEarlier query.bestLen query.maxDepth

/-- An accepted search has no fault. -/
theorem faultless_longestMatch
    {query : Query}
    {inserted : Finset Nat}
    (tracks : scan.Tracks inserted)
    (accepted : query.Accepted scan) :
    Faultless (longestMatch query) (Scan.longestMatch query) scan := by
  have later := tracks.lt_of_nextPos_le accepted.order
  refine .bind_of_ok (.reading rfl) (Scan.reading_of_ok accepted.check_eq) ?_
  refine .bind_of_ok (.lifted _) (Scan.advance_of_le accepted.order 1) ?_
  by_cases narrow : query.maxLen < minLookahead
  · rw [if_pos narrow, if_pos narrow]
    exact .pure _
  have insertable := accepted.insertable (Nat.le_of_not_lt narrow)
  have readableNext : query.position + 1 + 4 ≤ scan.buffer.size := insertable
  have readable : query.position + 4 ≤ scan.buffer.size := Nat.le_of_succ_le insertable
  have inside : query.position < scan.index.capacity := Scan.lt_capacity_of_lt_size (by omega)
  rw [if_neg narrow, if_neg narrow]
  refine .bind_of_ok (faultless_bucketsOr _ readable)
    (Scan.bucketsOr_of_ready (tracks.ready_exact query.position) readable) ?_
  refine .bind_of_ok (faultless_enter _ (Nat.lt_of_succ_le (Nat.le_of_add_right_le readableNext)))
    (@Scan.enter_eq (scan.claimed (query.position + 1)) query.position inside) ?_
  refine .bind_of_ok (faultless_buckets readableNext) (Scan.reading_buckets readableNext) ?_
  refine .bind_of_ok (.lifted _) (Scan.keep_eq _ _) (.reading ?_)
  exact bestMatch_eq_lift ⟨Nat.le_of_not_lt narrow, accepted.inside⟩ later
    (tracks.holds.insert inside insertable later) (tracks.holds.recent _) (tracks.holds.heads _)

/-- An accepted skip has no fault. -/
theorem faultless_skipPositions
    {count : Nat}
    {inserted : Finset Nat}
    (tracks : scan.Tracks inserted)
    (accepted : scan.SkipAccepted position count) :
    Faultless (skipPositions position count) (Scan.skipPositions position count) scan := by
  have later := tracks.lt_of_nextPos_le accepted.order
  refine .bind_of_ok (.reading rfl) (Scan.reading_of_ok accepted.checkSkip_eq) ?_
  refine .bind_of_ok (.lifted _) (Scan.advance_of_le accepted.order count) ?_
  refine .bind_of_ok (.reading rfl)
    (Scan.reading_apply (fun scan => Scan.insertableEnd scan.buffer.size position count) _) ?_
  -- the claim changed the scan but not its buffer, so the end is one number for both
  obtain ⟨stop, isStop⟩ :
      ∃ stop, Scan.insertableEnd scan.buffer.size position count = stop := ⟨_, rfl⟩
  simp only [Scan.buffer_claimed, isStop]
  by_cases insertable : position < stop
  · have stopInside : stop + 4 ≤ scan.buffer.size := by
      simp only [Scan.insertableEnd, minLookahead] at isStop
      omega
    have readable : position + 4 ≤ scan.buffer.size := by omega
    obtain ⟨after, ran, _⟩ := @Scan.enterRange_spec (scan.claimed (position + count)) _ _ _
      tracks.holds later (Nat.le_of_lt insertable) stopInside
    rw [if_pos insertable, if_pos insertable]
    refine .bind_of_ok (faultless_bucketsOr _ readable)
      (Scan.bucketsOr_of_ready (tracks.ready_exact position) readable) ?_
    refine .bind_of_ok (faultless_enterRange stopInside) ran ?_
    split
    · exact .lifted _
    · exact .pure _
  · rw [if_neg insertable, if_neg insertable]
    exact .pure _

end Visits

end Guarded

namespace Scan

/-- On every reached scan, the accepted searches and skips answer with every operation
checked, and as they do unchecked: no table number, window, probe or range lies outside
its table or buffer, no position, length, offset or stored position loses a bit, none is
stored as no position, and no difference falls below zero. -/
theorem visits_inBounds
    {buffer : Buffer}
    {visits : List Visit}
    {scan : Scan}
    (reached : Reached buffer visits scan) :
    (∀ query : Query, query.Accepted scan →
      ∃ result after,
        Guarded.longestMatch query scan = .ok result after ∧
        longestMatch query scan = .ok result after) ∧
    ∀ position count : Nat, scan.SkipAccepted position count →
      ∃ after,
        Guarded.skipPositions position count scan = .ok () after ∧
        skipPositions position count scan = .ok () after := by
  have tracks := reached.tracks
  constructor
  · intro query accepted
    obtain ⟨after, ran, _⟩ := longestMatch_spec tracks accepted
    exact ⟨_, after, (Guarded.faultless_longestMatch tracks accepted).ran ran, ran⟩
  · intro position count accepted
    obtain ⟨after, ran, _⟩ := skipPositions_spec tracks accepted
    exact ⟨after, (Guarded.faultless_skipPositions tracks accepted).ran ran, ran⟩

/-- Among eight equal bytes the third position has a match that reaches the end.  A best
length far beyond the buffer ends the search before any probe. -/
theorem visits_inBounds_aaaaaaaa :
    ∃ scan,
      Reached #[97, 97, 97, 97, 97, 97, 97, 97] [.skip 0 2] scan ∧
      (Query.mk 2 3 6 6 4).Accepted scan ∧
      (Query.mk 2 4294967295 6 6 4).Accepted scan ∧
      scan.SkipAccepted 2 6 ∧
      (∃ after, Guarded.longestMatch (Query.mk 2 3 6 6 4) scan = .ok ⟨6, 1⟩ after) ∧
      (∃ after, Guarded.longestMatch (Query.mk 2 4294967295 6 6 4) scan =
        .ok ⟨4294967295, 0⟩ after) ∧
      ∃ after, Guarded.skipPositions 2 6 scan = .ok () after := by
  have addressable : 8 < Slot.limit := by decide
  obtain ⟨scan, reached, accepted⟩ := @exists_reached_accepted
    #[97, 97, 97, 97, 97, 97, 97, 97] ⟨2, 3, 6, 6, 4⟩ addressable (by decide) (by decide)
    (by decide) (by decide)
  have high : (Query.mk 2 4294967295 6 6 4).Accepted scan :=
    ⟨accepted.depth, accepted.nice, accepted.inside, accepted.order⟩
  have skip : scan.SkipAccepted 2 6 := ⟨by decide, accepted.inside, accepted.order⟩
  obtain ⟨searches, skips⟩ := visits_inBounds reached
  obtain ⟨result, found, guarded, plain⟩ := searches _ accepted
  obtain ⟨resultHigh, unfound, guardedHigh, plainHigh⟩ := searches _ high
  obtain ⟨skipped, guardedSkip, _⟩ := skips 2 6 skip
  have equal : result = ⟨6, 1⟩ := by
    rw [reached.result_eq accepted plain, Query.answer_eq_chainWalk (by decide)]
    decide +kernel
  have equalHigh : resultHigh = ⟨4294967295, 0⟩ := by
    rw [reached.result_eq high plainHigh, Query.answer_eq_chainWalk (by decide)]
    decide +kernel
  subst equal equalHigh
  exact ⟨scan, reached, accepted, high, skip, ⟨found, guarded⟩, ⟨unfound, guardedHigh⟩,
    ⟨skipped, guardedSkip⟩⟩

end Scan

end LempelZiv
