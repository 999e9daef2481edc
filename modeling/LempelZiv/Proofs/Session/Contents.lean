import LempelZiv.Proofs.Scan.Visits
import LempelZiv.Session.Basic

/-!
Contract: what the tables of an index hold after any steps of a session.

Owns:
- the ledger of a session: the buffer of its last scan and the positions that
  were inserted since, read off the steps and their replies;
- the replies to the steps of an open scan, and the scan after them;
- the invariant that ties a session to its ledger, kept by every step;
- what the tables are, cell by cell and chain by chain, in terms of the ledger.

A rejected step never inserts anything: a search and a skip are rejected before
they claim a position, and a range at its first position or not at all.
-/

namespace LempelZiv

/-- Some cell of the tables holds the position. -/
def Index.Stores (index : Index) (position : Nat) : Prop :=
  (∃ bucket, (index.recent.get bucket).position? = some position) ∨
  (∃ bucket, (index.heads.get bucket).position? = some position) ∨
  ∃ slot ∈ index.links, slot.position? = some position

namespace Session

/-- The buffer of the last scan, and the positions inserted since the last scan
or reset. -/
structure Ledger where
  buffer : Buffer
  inserted : Finset Nat

namespace Ledger

def blank : Ledger :=
  ⟨#[], ∅⟩

def add (ledger : Ledger) (positions : Finset Nat) : Ledger :=
  { ledger with inserted := ledger.inserted ∪ positions }

/-- The ledger after one step with its reply. -/
def record (ledger : Ledger) : Step → Reply → Ledger
  | .scan buffer, .done => ⟨buffer, ∅⟩
  | .reset, .done => blank
  | .search query, .found _ _ =>
      ledger.add ((Visit.search query).inserts ledger.buffer.size)
  | .skip position count, .done =>
      ledger.add ((Visit.skip position count).inserts ledger.buffer.size)
  | .searchRange sweep, .foundRange _ =>
      ledger.add (sweep.inserts ledger.buffer.size)
  | _, _ => ledger

def recordAll : Ledger → List Step → List Reply → Ledger
  | ledger, step :: steps, reply :: replies => recordAll (ledger.record step reply) steps replies
  | ledger, _, _ => ledger

end Ledger

/-- The tables hold what the ledger says, and an open scan is one of its buffer. -/
def Follows (ledger : Ledger) : Session → Prop
  | idle index => index.Holds ledger.buffer ledger.inserted
  | scanning scan => scan.buffer = ledger.buffer ∧ scan.Tracks ledger.inserted

variable {session : Session} {ledger : Ledger}

theorem Follows.holds (follows : session.Follows ledger) :
    session.index.Holds ledger.buffer ledger.inserted := by
  cases session with
  | idle index => exact follows
  | scanning scan =>
      obtain ⟨sameBuffer, tracks⟩ := follows
      rw [← sameBuffer]
      exact tracks.holds

theorem create_eq_ok {capacity : Nat} (addressable : capacity < Slot.limit) :
    create capacity =
      .ok (idle (Index.blank capacity #[.allocated capacity (Index.tableBytes capacity)]
        addressable)) := by
  rw [create, Index.create, dif_pos addressable]
  rfl

theorem capacity_of_create_eq_ok
    {capacity : Nat}
    (created : create capacity = .ok session) :
    session.index.capacity = capacity := by
  unfold create Index.create at created
  split at created
  · rename_i addressable
    cases created
    exact Index.capacity_blank _ _ addressable
  · cases created

theorem follows_create
    {capacity : Nat}
    (created : create capacity = .ok session) :
    session.Follows .blank := by
  unfold create Index.create at created
  split at created
  · rename_i addressable
    cases created
    exact Index.holds_blank _ addressable (Nat.zero_le capacity)
  · cases created

/-! ### One step -/

theorem step_scan
    {buffer : Buffer}
    (fits : buffer.size ≤ session.index.capacity) :
    session.step (.scan buffer) = (.done, .scanning (Scan.start session.index buffer fits)) := by
  rw [step, Index.scan, dif_pos fits]

section OpenScan

variable {scan : Scan} {inserted : Finset Nat}

/-- An accepted skip inserts what it covers and leaves the scan behind its end. -/
theorem step_skip
    {position count : Nat}
    (tracks : scan.Tracks inserted)
    (accepted : scan.SkipAccepted position count) :
    ∃ after,
      (scanning scan).step (.skip position count) = (.done, scanning after) ∧
      after.Tracks (inserted ∪ (Visit.skip position count).inserts scan.buffer.size) ∧
      after.nextPos = position + count ∧
      after.frame = scan.frame := by
  obtain ⟨after, ran, tracked, nextPos, _, frame⟩ := Scan.skipPositions_spec tracks accepted
  refine ⟨after, ?_, tracked, nextPos, frame⟩
  simp only [step, withScan, ran]

/-- An accepted search replies with the answer over the positions inserted before. -/
theorem step_search
    {query : Query}
    {result : Match}
    (tracks : scan.Tracks inserted)
    (accepted : query.Accepted scan)
    (answered : query.answer scan.buffer inserted = result) :
    ∃ after,
      (scanning scan).step (.search query) =
        (.found result (result.improvesOn query.bestLen), scanning after) ∧
      after.Tracks (inserted ∪ (Visit.search query).inserts scan.buffer.size) ∧
      after.nextPos = query.position + 1 ∧
      after.frame = scan.frame := by
  obtain ⟨after, ran, tracked, nextPos, _, frame⟩ := Scan.longestMatch_spec tracks accepted
  refine ⟨after, ?_, tracked, nextPos, frame⟩
  simp only [step, withScan, ran, answered]

/-- A search of a position behind the scan changes nothing. -/
theorem step_search_of_revisit
    {query : Query}
    (checked : query.check scan.buffer.size = .ok ())
    (revisit : query.position < scan.nextPos) :
    (scanning scan).step (.search query) =
      (.rejected (.positionVisited query.position), scanning scan) := by
  simp only [step, withScan, Scan.longestMatch_of_revisit checked revisit]

end OpenScan

theorem askIndex_session
    (question : Index → Except Violation Reply)
    (session : Session) :
    (askIndex question session).2 = session := by
  unfold askIndex
  split <;> rfl

theorem follows_scan (follows : session.Follows ledger) (buffer : Buffer) :
    (session.step (.scan buffer)).2.Follows
      (ledger.record (.scan buffer) (session.step (.scan buffer)).1) := by
  rw [step, Index.scan]
  by_cases fits : buffer.size ≤ session.index.capacity
  · rw [dif_pos fits]
    exact ⟨rfl, Scan.tracks_start fits⟩
  · rw [dif_neg fits]
    exact follows.holds

/-- A step of the open scan keeps the session and its ledger together if an accepted
one adds the positions it is recorded with, and a rejected one changes nothing. -/
theorem follows_withScan
    {α : Type}
    {action : ScanM α}
    {reply : α → Reply}
    {next : Step}
    {positions : Finset Nat}
    (follows : session.Follows ledger)
    (acts : ∀ scan : Scan, scan.buffer = ledger.buffer → scan.Tracks ledger.inserted →
      (∃ answer after,
        action scan = .ok answer after ∧
        after.Tracks (ledger.inserted ∪ positions) ∧
        after.frame = scan.frame) ∨
      ∃ violation, action scan = .error violation scan)
    (accepted : ∀ answer, ledger.record next (reply answer) = ledger.add positions)
    (rejected : ∀ violation, ledger.record next (.rejected violation) = ledger)
    (closed : ledger.record next .noScan = ledger) :
    (withScan action reply session).2.Follows
      (ledger.record next (withScan action reply session).1) := by
  cases session with
  | idle index =>
      rw [withScan, closed]
      exact follows
  | scanning scan =>
      obtain ⟨sameBuffer, tracks⟩ := follows
      rw [withScan]
      rcases acts scan sameBuffer tracks with
        ⟨answer, after, ran, tracked, frame⟩ | ⟨violation, broke⟩
      · rw [ran]
        simp only [accepted]
        exact ⟨(Scan.buffer_eq_of_frame frame).trans sameBuffer, tracked⟩
      · rw [broke]
        simp only [rejected]
        exact ⟨sameBuffer, tracks⟩

/-- Every step keeps the session and its ledger together. -/
theorem follows_step (follows : session.Follows ledger) (next : Step) :
    (session.step next).2.Follows (ledger.record next (session.step next).1) := by
  cases next with
  | scan buffer => exact follows_scan follows buffer
  | reset => exact Index.holds_blank _ session.index.addressable (Nat.zero_le _)
  | search query =>
      apply follows_withScan follows _ (fun _ => rfl) (fun _ => rfl) rfl
      intro scan sameBuffer tracks
      rw [← sameBuffer]
      exact Scan.longestMatch_cases tracks query
  | skip position count =>
      apply follows_withScan follows _ (fun _ => rfl) (fun _ => rfl) rfl
      intro scan sameBuffer tracks
      rw [← sameBuffer]
      exact Scan.skipPositions_cases tracks position count
  | searchRange sweep =>
      apply follows_withScan follows _ (fun _ => rfl) (fun _ => rfl) rfl
      intro scan sameBuffer tracks
      rw [← sameBuffer]
      exact Scan.searchRange_cases tracks sweep
  | showScan =>
      cases session with
      | idle index => exact follows
      | scanning scan => exact follows
  | chain bucket =>
      rw [step, askIndex_session]
      exact follows
  | chains =>
      rw [step, askIndex_session]
      exact follows
  | showIndex => exact follows

theorem follows_run (follows : session.Follows ledger) (steps : List Step) :
    (session.run steps).2.Follows (ledger.recordAll steps (session.run steps).1) := by
  induction steps generalizing session ledger with
  | nil => exact follows
  | cons first rest inductionHypothesis =>
      exact inductionHypothesis (follows_step follows first)

/-! ### Cells and chains -/

/-- The tables, in terms of the ledger. -/
structure Exact (session : Session) (ledger : Ledger) : Prop where
  /-- The windows of every inserted position and of the next lie in the buffer. -/
  readable : ∀ position ∈ ledger.inserted, position + minLookahead ≤ ledger.buffer.size
  /-- A bucket's chain ends, and lists its positions once each, newest first. -/
  chains : ∀ bucket : Fin longBuckets, ∃ positions,
    Index.Walk session.index.links (session.index.heads.get bucket) positions ∧
    session.index.chain bucket = .ok positions ∧
    positions.Pairwise (· > ·) ∧
    ∀ position, position ∈ positions ↔
      position ∈ ledger.inserted ∧ (ledger.buffer.buckets position).long = bucket
  /-- A short bucket holds its newest position, or nothing. -/
  recent : ∀ bucket : Fin shortBuckets,
    (session.index.recent.get bucket).position? =
      newest? (ledger.inserted.filter fun position =>
        (ledger.buffer.buckets position).short = bucket)
  /-- The link of an inserted position is the newest earlier one of its bucket. -/
  links : ∀ position (inside : position < session.index.links.size),
    session.index.links[position].position? =
      if position ∈ ledger.inserted then
        newest? (ledger.inserted.filter fun earlier =>
          (ledger.buffer.buckets earlier).long = (ledger.buffer.buckets position).long ∧
            earlier < position)
      else
        none
  /-- Nothing else is stored, and no stored position reads as an empty cell. -/
  stored : ∀ position, session.index.Stores position →
    position ∈ ledger.inserted ∧ position < Slot.limit
  /-- An open scan has visited every stored position. -/
  visited : ∀ scan, session = .scanning scan →
    scan.buffer = ledger.buffer ∧
      ∀ position, session.index.Stores position → position < scan.nextPos

theorem inserted_of_stores
    {index : Index}
    {buffer : Buffer}
    {inserted : Finset Nat}
    (holds : index.Holds buffer inserted)
    {position : Nat}
    (stores : index.Stores position) :
    position ∈ inserted := by
  rcases stores with ⟨bucket, held⟩ | ⟨bucket, held⟩ | ⟨slot, member, held⟩
  · have newest := (holds.recent bucket).symm.trans held
    exact (Finset.mem_filter.mp (newest?_eq_some_iff.mp newest).1).1
  · have newest := (holds.heads bucket).symm.trans held
    exact (Finset.mem_filter.mp (newest?_eq_some_iff.mp newest).1).1
  · obtain ⟨other, inside, rfl⟩ := Array.mem_iff_getElem.mp member
    rw [holds.links] at held
    split at held
    · have older := (Finset.mem_filter.mp (newest?_eq_some_iff.mp held).1).1
      exact (Finset.mem_filter.mp older).1
    · cases held

theorem exact_of_follows (follows : session.Follows ledger) : session.Exact ledger := by
  have holds := follows.holds
  refine ⟨holds.readable, ?_, holds.recent, ?_, ?_, ?_⟩
  · intro bucket
    refine ⟨_, holds.walk bucket, holds.chain_eq bucket, newestFirst_pairwise _, ?_⟩
    intro position
    rw [mem_newestFirst]
    exact Finset.mem_filter
  · intro position inside
    rw [holds.links, Index.olderEntries, Index.longEntries, Finset.filter_filter]
  · intro position stores
    refine ⟨inserted_of_stores holds stores, ?_⟩
    rcases stores with ⟨bucket, held⟩ | ⟨bucket, held⟩ | ⟨slot, member, held⟩
    · exact Slot.lt_limit_of_position? held
    · exact Slot.lt_limit_of_position? held
    · exact Slot.lt_limit_of_position? held
  · intro scan isOpen
    subst isOpen
    refine ⟨follows.1, fun position stores => ?_⟩
    exact follows.2.visited position (inserted_of_stores holds stores)

/-- After any steps of a session on a new index, rejected ones included, the
tables hold exactly what was inserted since the last scan or reset. -/
theorem run_exact
    {capacity : Nat}
    (created : create capacity = .ok session)
    (steps : List Step) :
    (session.run steps).2.Exact (Ledger.blank.recordAll steps (session.run steps).1) :=
  exact_of_follows (follows_run (follows_create created) steps)

/-- A skip, a rejected search, an accepted one after a gap, and a new scan, of which two
positions have five bytes left. -/
theorem run_exact_aaaaaaaa :
    ∃ session after,
      create 8 = .ok session ∧
      session.run
          [.scan #[97, 97, 97, 97, 97, 97, 97, 97], .skip 0 2, .search ⟨0, 0, 5, 5, 1⟩,
            .search ⟨3, 0, 5, 5, 1⟩, .scan #[97, 97, 97, 97, 97, 97], .skip 0 6] =
        ([.done, .done, .rejected (.positionVisited 0), .found ⟨5, 2⟩ true, .done, .done],
          after) ∧
      after.Exact ⟨#[97, 97, 97, 97, 97, 97], {0, 1}⟩ ∧
      after.index.chain 62080 = .ok [1, 0] := by
  obtain ⟨session, created⟩ : ∃ session, create 8 = .ok session :=
    ⟨_, create_eq_ok (by decide)⟩
  have fits : (#[97, 97, 97, 97, 97, 97, 97, 97] : Buffer).size ≤ session.index.capacity :=
    Nat.le_of_eq (capacity_of_create_eq_ok created).symm
  have first := step_scan fits
  obtain ⟨skipped, second, tracks, nextPos, frame⟩ :=
    @step_skip _ _ 0 2 (Scan.tracks_start fits)
      ⟨by decide, show 0 + 2 ≤ 8 by decide, Nat.le_refl 0⟩
  have sameBuffer : skipped.buffer = #[97, 97, 97, 97, 97, 97, 97, 97] :=
    Scan.buffer_eq_of_frame frame
  have third := @step_search_of_revisit skipped ⟨0, 0, 5, 5, 1⟩ (by rw [sameBuffer]; rfl)
    (by rw [nextPos]; decide)
  have accepted : (Query.mk 3 0 5 5 1).Accepted skipped :=
    ⟨by decide, by decide, by rw [sameBuffer]; decide, by rw [nextPos]; decide⟩
  have answered : (Query.mk 3 0 5 5 1).answer skipped.buffer
      (∅ ∪ (Visit.skip 0 2).inserts 8) = ⟨5, 2⟩ := by
    rw [sameBuffer, Query.answer_eq_chainWalk (by decide)]
    decide +kernel
  obtain ⟨searched, fourth, _, _, frameSearched⟩ := step_search tracks accepted answered
  have capacity : searched.index.capacity = session.index.reset.capacity :=
    congrArg Scan.Frame.capacity (frameSearched.trans frame)
  have fitsAgain : (#[97, 97, 97, 97, 97, 97] : Buffer).size ≤
      (scanning searched).index.capacity := by
    rw [index, capacity, Index.capacity_reset]
    exact Nat.le_trans (show 6 ≤ 8 by decide) fits
  have fifth := step_scan fitsAgain
  obtain ⟨last, sixth, tracksLast, _, frameLast⟩ :=
    @step_skip _ _ 0 6 (Scan.tracks_start fitsAgain)
      ⟨by decide, show 0 + 6 ≤ 6 by decide, Nat.le_refl 0⟩
  have sameBufferLast : last.buffer = #[97, 97, 97, 97, 97, 97] :=
    Scan.buffer_eq_of_frame frameLast
  have ran : session.run
      [.scan #[97, 97, 97, 97, 97, 97, 97, 97], .skip 0 2, .search ⟨0, 0, 5, 5, 1⟩,
        .search ⟨3, 0, 5, 5, 1⟩, .scan #[97, 97, 97, 97, 97, 97], .skip 0 6] =
      ([.done, .done, .rejected (.positionVisited 0), .found ⟨5, 2⟩ true, .done, .done],
        scanning last) := by
    simp only [run, first, second, third, fourth, fifth, sixth]
    rfl
  have inserted : ∅ ∪ (Visit.skip 0 6).inserts 6 = {0, 1} := by decide
  have exact := run_exact created
    [.scan #[97, 97, 97, 97, 97, 97, 97, 97], .skip 0 2, .search ⟨0, 0, 5, 5, 1⟩,
      .search ⟨3, 0, 5, 5, 1⟩, .scan #[97, 97, 97, 97, 97, 97], .skip 0 6]
  rw [ran] at exact
  have tracksBoth : last.Tracks {0, 1} := inserted ▸ tracksLast
  have chained : last.index.chain 62080 = .ok [1, 0] :=
    (tracksBoth.holds.chain_eq_filter ⟨62080, by decide⟩ 2 (by decide)).trans
      (by rw [sameBufferLast]; decide +kernel)
  exact ⟨session, scanning last, created, ran, inserted ▸ exact, chained⟩

end Session

end LempelZiv
