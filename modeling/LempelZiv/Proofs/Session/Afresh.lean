import LempelZiv.Proofs.Scan.Afresh
import LempelZiv.Proofs.Session.Rejection

/-!
Contract: the buckets that a scan keeps ahead cannot be observed.

Owns:
- a session whose scans keep no buckets and read all of them afresh;
- the equal replies and equal tables of both kinds of session, step by step;
- that the buckets which are kept are those of the next position.

Rejected steps, gaps and further scans may stand anywhere among the steps.
-/

namespace LempelZiv

namespace Session

/-- The session without the buckets that its open scan keeps ahead. -/
def bare : Session → Session
  | idle index => idle index
  | scanning scan => scanning scan.bare

theorem pending_of_bare_eq
    {session : Session}
    {scan : Scan}
    (isOpen : session.bare = scanning scan) :
    scan.pending = none := by
  cases session <;> cases isOpen
  rfl

@[simp] theorem index_bare (session : Session) : session.bare.index = session.index := by
  cases session <;> rfl

end Session

namespace Afresh

open Session

/-- Carry out one step, with visits that read the buckets of every position. -/
def step (session : Session) : Step → Reply × Session
  | .search query =>
      withScan (longestMatch query)
        (fun result => .found result (result.improvesOn query.bestLen)) session
  | .skip position count =>
      withScan (skipPositions position count) (fun _ => .done) session
  | .searchRange sweep =>
      withScan (searchRange sweep) .foundRange session
  | other => session.step other

/-- Carry out steps in order, with the reply of each. -/
def run : Session → List Step → List Reply × Session
  | session, [] => ([], session)
  | session, first :: rest =>
      let (reply, next) := step session first
      let (replies, last) := run next rest
      (reply :: replies, last)

variable {session : Session} {ledger : Ledger}

theorem withScan_bare
    {α : Type}
    {afresh action : ScanM α}
    (reply : α → Reply)
    (mirrors : ∀ scan, session = .scanning scan → Mirrors afresh action scan) :
    withScan afresh reply session.bare =
      ((withScan action reply session).1, (withScan action reply session).2.bare) := by
  cases session with
  | idle index => rfl
  | scanning scan =>
      have same := mirrors scan rfl
      unfold Mirrors at same
      simp only [bare, withScan, same]
      cases action scan <;> rfl

theorem askIndex_bare (question : Index → Except Violation Reply) (session : Session) :
    askIndex question session.bare =
      ((askIndex question session).1, (askIndex question session).2.bare) := by
  unfold askIndex
  rw [index_bare]
  cases question session.index <;> rfl

/-- Every step replies alike, and leaves alike all but the buckets kept ahead. -/
theorem step_bare (follows : session.Follows ledger) (next : Step) :
    step session.bare next = ((session.step next).1, (session.step next).2.bare) := by
  have tracks : ∀ scan, session = .scanning scan → scan.Tracks ledger.inserted := by
    rintro scan rfl
    exact follows.2
  cases next with
  | search query =>
      exact withScan_bare _ fun scan isOpen => longestMatch_mirrors (tracks scan isOpen) query
  | skip position count =>
      exact withScan_bare _ fun scan isOpen =>
        skipPositions_mirrors (tracks scan isOpen) position count
  | searchRange sweep =>
      exact withScan_bare _ fun scan isOpen => searchRange_mirrors (tracks scan isOpen) sweep
  | showScan => cases session <;> rfl
  | scan buffer =>
      -- a scan begins without buckets kept ahead
      simp only [step, Session.step, index_bare, Index.scan]
      by_cases fits : buffer.size ≤ session.index.capacity
      · rw [dif_pos fits]
        rfl
      · rw [dif_neg fits]
        rfl
  | reset =>
      simp only [step, Session.step, index_bare]
      rfl
  | chain bucket => simp only [step, Session.step, askIndex_bare]
  | chains => simp only [step, Session.step, askIndex_bare]
  | showIndex => simp only [step, Session.step, askIndex_bare]

/-- A run replies alike to every step, and ends alike in all but the buckets kept ahead. -/
theorem run_bare (follows : session.Follows ledger) (steps : List Step) :
    run session.bare steps = ((session.run steps).1, (session.run steps).2.bare) := by
  induction steps generalizing session ledger with
  | nil => rfl
  | cons first rest inductionHypothesis =>
      have rest := inductionHypothesis (follows_step follows first)
      simp only [run, step_bare follows first, rest, run_cons]

end Afresh

namespace Session

variable {session : Session}

theorem bare_of_create_eq_ok
    {capacity : Nat}
    (created : create capacity = .ok session) :
    session.bare = session := by
  unfold create Index.create at created
  split at created <;> cases created
  rfl

/-- After any steps of a session on a new index, rejected ones and gaps included, the buckets
that an open scan keeps ahead are those that are read at its next position, where four bytes
remain.  A session that keeps none and reads the buckets of every position gives the same
replies and has the same tables. -/
theorem pending_unobservable
    {capacity : Nat}
    (created : create capacity = .ok session)
    (steps : List Step) :
    (∀ scan buckets,
      (session.run steps).2 = .scanning scan → scan.pending = some buckets →
        scan.nextPos + 4 ≤ scan.buffer.size ∧
        Buckets.read scan.buffer scan.nextPos = .ok buckets) ∧
    (Afresh.run session steps).1 = (session.run steps).1 ∧
    (Afresh.run session steps).2.index = (session.run steps).2.index ∧
    ∀ scan, (Afresh.run session steps).2 = .scanning scan → scan.pending = none := by
  have follows := follows_create created
  have mirrored := Afresh.run_bare follows steps
  rw [bare_of_create_eq_ok created] at mirrored
  rw [mirrored]
  refine ⟨?_, rfl, index_bare _, ?_⟩
  · intro scan buckets isOpen kept
    have followed := follows_run follows steps
    rw [isOpen] at followed
    obtain ⟨readable, same⟩ := followed.2.ahead buckets kept
    exact ⟨readable, same ▸ Buffer.read_eq_buckets (Nat.lt_of_succ_le readable)⟩
  · intro scan isOpen
    exact pending_of_bare_eq isOpen

/-- A skip of two equal bytes keeps the buckets of the third.  A revisit is rejected, a search
takes what is kept, one of four bytes after a gap keeps nothing, and a skip to the end is cut
off. -/
theorem pending_unobservable_aaaaaaaa :
    ∃ session scan buckets,
      create 8 = .ok session ∧
      (session.run [.scan #[97, 97, 97, 97, 97, 97, 97, 97], .skip 0 2]).2 = .scanning scan ∧
      scan.pending = some buckets ∧
      scan.nextPos + 4 ≤ scan.buffer.size ∧
      Buckets.read scan.buffer scan.nextPos = .ok buckets ∧
      (session.run
          [.scan #[97, 97, 97, 97, 97, 97, 97, 97], .skip 0 2, .search ⟨1, 0, 5, 5, 1⟩,
            .search ⟨2, 0, 6, 6, 4⟩, .search ⟨4, 0, 4, 4, 1⟩, .skip 5 3]).1 =
        [.done, .done, .rejected (.positionVisited 1), .found ⟨6, 1⟩ true, .found ⟨0, 0⟩ false,
          .done] ∧
      (Afresh.run session
          [.scan #[97, 97, 97, 97, 97, 97, 97, 97], .skip 0 2, .search ⟨1, 0, 5, 5, 1⟩,
            .search ⟨2, 0, 6, 6, 4⟩, .search ⟨4, 0, 4, 4, 1⟩, .skip 5 3]).1 =
        [.done, .done, .rejected (.positionVisited 1), .found ⟨6, 1⟩ true, .found ⟨0, 0⟩ false,
          .done] ∧
      (Afresh.run session
          [.scan #[97, 97, 97, 97, 97, 97, 97, 97], .skip 0 2, .search ⟨1, 0, 5, 5, 1⟩,
            .search ⟨2, 0, 6, 6, 4⟩, .search ⟨4, 0, 4, 4, 1⟩, .skip 5 3]).2.index =
        (session.run
          [.scan #[97, 97, 97, 97, 97, 97, 97, 97], .skip 0 2, .search ⟨1, 0, 5, 5, 1⟩,
            .search ⟨2, 0, 6, 6, 4⟩, .search ⟨4, 0, 4, 4, 1⟩, .skip 5 3]).2.index := by
  obtain ⟨session, created⟩ : ∃ session, create 8 = .ok session :=
    ⟨_, create_eq_ok (by decide)⟩
  have fits : (#[97, 97, 97, 97, 97, 97, 97, 97] : Buffer).size ≤ session.index.capacity :=
    Nat.le_of_eq (capacity_of_create_eq_ok created).symm
  have skipAccepted : (Scan.start _ _ fits).SkipAccepted 0 2 :=
    ⟨by decide, show 0 + 2 ≤ 8 by decide, Nat.le_refl 0⟩
  obtain ⟨skipped, ran, tracks, nextPos, kept, frame⟩ :=
    Scan.skipPositions_spec (Scan.tracks_start fits) skipAccepted
  have second : (scanning (Scan.start _ _ fits)).step (.skip 0 2) = (.done, scanning skipped) := by
    simp only [step, withScan, ran]
  have isOpen : (session.run [.scan #[97, 97, 97, 97, 97, 97, 97, 97], .skip 0 2]).2 =
      .scanning skipped := by
    simp only [run, step_scan fits, second]
  have third := kept.trans (if_pos (show 0 + 2 + 4 ≤ 8 by decide))
  have sameBuffer : skipped.buffer = #[97, 97, 97, 97, 97, 97, 97, 97] :=
    Scan.buffer_eq_of_frame frame
  have revisited := @step_search_of_revisit skipped ⟨1, 0, 5, 5, 1⟩ (by rw [sameBuffer]; rfl)
    (by rw [nextPos]; decide)
  have accepted : (Query.mk 2 0 6 6 4).Accepted skipped :=
    ⟨by decide, by decide, by rw [sameBuffer]; decide, Nat.le_of_eq nextPos⟩
  have answered : (Query.mk 2 0 6 6 4).answer skipped.buffer
      (∅ ∪ (Visit.skip 0 2).inserts 8) = ⟨6, 1⟩ := by
    rw [sameBuffer, Query.answer_eq_chainWalk (by decide)]
    decide +kernel
  obtain ⟨searched, fourth, tracksSearched, nextPosSearched, frameSearched⟩ :=
    step_search tracks accepted answered
  have sameBufferSearched : searched.buffer = #[97, 97, 97, 97, 97, 97, 97, 97] :=
    Scan.buffer_eq_of_frame (frameSearched.trans frame)
  have acceptedNarrow : (Query.mk 4 0 4 4 1).Accepted searched :=
    ⟨by decide, by decide, by rw [sameBufferSearched]; decide,
      by rw [nextPosSearched]; decide⟩
  obtain ⟨narrow, fifth, tracksNarrow, nextPosNarrow, frameNarrow⟩ :=
    step_search tracksSearched acceptedNarrow (if_pos (show 4 < minLookahead by decide))
  have sameBufferNarrow : narrow.buffer = #[97, 97, 97, 97, 97, 97, 97, 97] :=
    Scan.buffer_eq_of_frame (frameNarrow.trans (frameSearched.trans frame))
  obtain ⟨last, sixth, _⟩ := @step_skip _ _ 5 3 tracksNarrow
    ⟨by decide, by rw [sameBufferNarrow]; decide, Nat.le_of_eq nextPosNarrow⟩
  have replies : (session.run
      [.scan #[97, 97, 97, 97, 97, 97, 97, 97], .skip 0 2, .search ⟨1, 0, 5, 5, 1⟩,
        .search ⟨2, 0, 6, 6, 4⟩, .search ⟨4, 0, 4, 4, 1⟩, .skip 5 3]).1 =
      [.done, .done, .rejected (.positionVisited 1), .found ⟨6, 1⟩ true, .found ⟨0, 0⟩ false,
        .done] := by
    simp only [run, step_scan fits, second, revisited, fourth, fifth, sixth]
    rfl
  obtain ⟨readable, read⟩ := (pending_unobservable created _).1 skipped _ isOpen third
  have same := pending_unobservable created
    [.scan #[97, 97, 97, 97, 97, 97, 97, 97], .skip 0 2, .search ⟨1, 0, 5, 5, 1⟩,
      .search ⟨2, 0, 6, 6, 4⟩, .search ⟨4, 0, 4, 4, 1⟩, .skip 5 3]
  exact ⟨session, skipped, _, created, isOpen, third, readable, read, replies,
    same.2.1.trans replies, same.2.2.1⟩

end Session

end LempelZiv
