import LempelZiv.Proofs.Session.Agreement
import Mathlib.Data.Finset.Lattice.Fold
import Mathlib.Order.Lattice.Nat

/-!
Contract: a scan depends on which positions were visited, not on how.

Owns:
- the positions that visits claim, and searches that may match five bytes wherever so
  many are left;
- the state of a scan as a function of the visited positions;
- the agreement of all runs that visit the same positions, whole skips with split ones
  and searches with skips.

A search that permits fewer than five bytes where more are left does not insert its
position.  Runs with such searches are left out.
-/

namespace LempelZiv

namespace Visit

/-- The positions a visit claims. -/
def claims (visit : Visit) : Finset Nat :=
  Finset.Ico visit.first (visit.first + visit.count)

/-- The positions that visits claim. -/
def claimedBy : List Visit → Finset Nat
  | [] => ∅
  | visit :: rest => visit.claims ∪ claimedBy rest

/-- A search permits five bytes wherever so many of a buffer of `size` bytes are left. -/
def Unclipped (size : Nat) : Visit → Prop
  | search query => minLookahead ≤ query.maxLen ∨ size < query.position + minLookahead
  | skip _ _ => True

variable {scan : Scan} {visit : Visit}

theorem unclipped_iff
    {query : Query}
    (accepted : query.Accepted scan) :
    (search query).Unclipped scan.buffer.size ↔
      (minLookahead ≤ query.maxLen ↔ query.position + minLookahead ≤ scan.buffer.size) := by
  have inside := accepted.inside
  simp only [Unclipped]
  omega

theorem count_pos (accepted : visit.Accepted scan) : 0 < visit.count := by
  cases visit with
  | search query => exact Nat.one_pos
  | skip position count => exact accepted.nonempty

theorem nextPos_le_first (accepted : visit.Accepted scan) : scan.nextPos ≤ visit.first := by
  cases visit with
  | search query => exact accepted.order
  | skip position count => exact accepted.order

/-- Unclipped visits insert what they claim, as far as five bytes are left. -/
theorem inserts_of_unclipped
    (accepted : visit.Accepted scan)
    (unclipped : visit.Unclipped scan.buffer.size) :
    visit.inserts scan.buffer.size =
      visit.claims.filter (· + minLookahead ≤ scan.buffer.size) := by
  cases visit with
  | search query =>
      have same := (unclipped_iff accepted).mp unclipped
      have single : (search query).claims = {query.position} := by
        simp [claims, first, count]
      rw [single, Finset.filter_singleton]
      simp only [inserts, same]
  | skip position count => rfl

end Visit

namespace Scan

/-! ### The state as a function of the visited positions -/

/-- The buckets of a position at which they can be read. -/
def bucketsAhead (buffer : Buffer) (position : Nat) : Option Buckets :=
  if position + 4 ≤ buffer.size then some (buffer.buckets position) else none

/-- The scan has visited these positions, inserted those of them with five bytes left,
stands after the last one and keeps the buckets of the next. -/
structure Covers (scan : Scan) (visited : Finset Nat) : Prop where
  tracks : scan.Tracks (visited.filter (· + minLookahead ≤ scan.buffer.size))
  nextPos : scan.nextPos = visited.sup Nat.succ
  pending : scan.pending =
    if visited = ∅ then none else bucketsAhead scan.buffer scan.nextPos

variable {scan after left right : Scan} {inserted visited : Finset Nat} {visit : Visit}

theorem covers_start
    {index : Index}
    {buffer : Buffer}
    (fits : buffer.size ≤ index.capacity) :
    (start index buffer fits).Covers ∅ :=
  ⟨tracks_start fits, rfl, rfl⟩

/-- What an unclipped visit leaves behind does not tell a search from a skip. -/
theorem perform_unclipped
    (tracks : scan.Tracks inserted)
    (accepted : visit.Accepted scan)
    (unclipped : visit.Unclipped scan.buffer.size) :
    ∃ after,
      perform visit scan = .ok () after ∧
      after.Tracks
        (inserted ∪ visit.claims.filter (· + minLookahead ≤ scan.buffer.size)) ∧
      after.nextPos = visit.first + visit.count ∧
      after.pending = bucketsAhead scan.buffer (visit.first + visit.count) ∧
      after.frame = scan.frame := by
  rw [← Visit.inserts_of_unclipped accepted unclipped]
  cases visit with
  | search query =>
      obtain ⟨after, ran, tracked, nextPos, pending, frame⟩ := longestMatch_spec tracks accepted
      refine ⟨after, bind_of_ok ran _, tracked, nextPos, ?_, frame⟩
      have same := (Visit.unclipped_iff accepted).mp unclipped
      simp only [pending, same]
      rfl
  | skip position count =>
      obtain ⟨after, ran, tracked, nextPos, pending, frame⟩ :=
        skipPositions_spec tracks accepted
      exact ⟨after, ran, tracked, nextPos, pending, frame⟩

theorem sup_succ_union_Ico
    {first count : Nat}
    (earlier : visited.sup Nat.succ ≤ first)
    (nonempty : 0 < count) :
    (visited ∪ Finset.Ico first (first + count)).sup Nat.succ = first + count := by
  apply Nat.le_antisymm
  · apply Finset.sup_le
    intro position member
    rcases Finset.mem_union.mp member with old | new
    · exact Nat.le_add_right_of_le (Nat.le_trans (Finset.le_sup old) earlier)
    · exact (Finset.mem_Ico.mp new).2
  · have last : first + count - 1 ∈ visited ∪ Finset.Ico first (first + count) := by
      simp only [Finset.mem_union, Finset.mem_Ico]
      omega
    have bound : (first + count - 1).succ ≤
        (visited ∪ Finset.Ico first (first + count)).sup Nat.succ :=
      Finset.le_sup last
    omega

theorem Covers.perform
    (covers : scan.Covers visited)
    (accepted : visit.Accepted scan)
    (unclipped : visit.Unclipped scan.buffer.size) :
    ∃ after,
      Scan.perform visit scan = .ok () after ∧
      after.Covers (visited ∪ visit.claims) ∧
      after.frame = scan.frame := by
  obtain ⟨after, performed, tracked, nextPos, pending, frame⟩ :=
    perform_unclipped covers.tracks accepted unclipped
  have sameBuffer := buffer_eq_of_frame frame
  have nonempty := Visit.count_pos accepted
  have order : visited.sup Nat.succ ≤ visit.first := by
    rw [← covers.nextPos]
    exact Visit.nextPos_le_first accepted
  have inhabited : visited ∪ visit.claims ≠ ∅ := by
    have member : visit.first ∈ visited ∪ visit.claims := by
      simp [Visit.claims, nonempty]
    exact Finset.ne_empty_of_mem member
  refine ⟨after, performed, ⟨?_, ?_, ?_⟩, frame⟩
  · rw [sameBuffer, Finset.filter_union]
    exact tracked
  · rw [nextPos, Visit.claims, sup_succ_union_Ico order nonempty]
  · rw [if_neg inhabited, pending, sameBuffer, nextPos]

/-- A run of unclipped visits covers what it covered before and what they claim. -/
theorem Covers.performAll
    {visits : List Visit}
    (covers : scan.Covers visited)
    (unclipped : ∀ visit ∈ visits, visit.Unclipped scan.buffer.size)
    (ran : Scan.performAll visits scan = .ok () after) :
    after.Covers (visited ∪ Visit.claimedBy visits) := by
  induction visits generalizing scan visited with
  | nil =>
      cases ran
      rw [Visit.claimedBy, Finset.union_empty]
      exact covers
  | cons visit rest inductionHypothesis =>
      obtain ⟨next, first, followed⟩ := performAll_cons_eq_ok_iff.mp ran
      obtain ⟨performed, same, coversNext, frame⟩ :=
        covers.perform (accepted_of_perform_eq_ok first) (unclipped visit (List.mem_cons_self ..))
      rw [same] at first
      cases first
      rw [Visit.claimedBy, ← Finset.union_assoc]
      apply inductionHypothesis coversNext _ followed
      intro later member
      rw [buffer_eq_of_frame frame]
      exact unclipped later (List.mem_cons_of_mem visit member)

theorem Covers.twins
    (covers : left.Covers visited)
    (coversRight : right.Covers visited)
    (sameBuffer : left.buffer = right.buffer) :
    Twins left right where
  buffer := sameBuffer
  nextPos := by rw [covers.nextPos, coversRight.nextPos]
  tracked := by
    refine ⟨_, covers.tracks, ?_⟩
    rw [sameBuffer]
    exact coversRight.tracks

/-- The scan has made these visits on a fresh index, each of them accepted and unclipped. -/
structure Walked (buffer : Buffer) (visits : List Visit) (scan : Scan) : Prop where
  reached : Reached buffer visits scan
  unclipped : ∀ visit ∈ visits, visit.Unclipped buffer.size

section Walked

variable {buffer : Buffer} {visits others : List Visit}

theorem Walked.covers (walked : Walked buffer visits scan) :
    scan.Covers (Visit.claimedBy visits) := by
  obtain ⟨index, fits, ran⟩ := walked.reached
  have covers := (covers_start fits).performAll walked.unclipped ran
  rwa [Finset.empty_union] at covers

theorem Walked.twins
    (walked : Walked buffer visits left)
    (walkedRight : Walked buffer others right)
    (same : Visit.claimedBy visits = Visit.claimedBy others) :
    Twins left right := by
  have sameBuffer := walked.reached.buffer_eq.trans walkedRight.reached.buffer_eq.symm
  exact walked.covers.twins (same ▸ walkedRight.covers) sameBuffer

theorem Walked.agrees
    (walked : Walked buffer visits left)
    (walkedRight : Walked buffer others right)
    (same : Visit.claimedBy visits = Visit.claimedBy others) :
    left.Agrees right := by
  have twins := walked.twins walkedRight same
  apply twins.agrees
  rw [walked.covers.pending, walkedRight.covers.pending, same, twins.buffer, twins.nextPos]

end Walked

/-! ### Runs that visit the same positions -/

theorem eq_of_tracks
    (tracks : left.Tracks inserted)
    (tracksRight : right.Tracks inserted)
    (frame : left.frame = scan.frame)
    (frameRight : right.frame = scan.frame)
    (nextPos : left.nextPos = right.nextPos)
    (pending : left.pending = right.pending) :
    left = right := by
  have sameFrame := frame.trans frameRight.symm
  have twins : Twins left right :=
    ⟨congrArg Frame.buffer sameFrame, nextPos, _, tracks, tracksRight⟩
  exact (twins.agrees pending).eq sameFrame

/-- An unclipped search leaves the scan as a skip of its position does. -/
theorem perform_search_eq_skip
    {query : Query}
    (tracks : scan.Tracks inserted)
    (accepted : query.Accepted scan)
    (unclipped : (Visit.search query).Unclipped scan.buffer.size)
    (inside : query.position < scan.buffer.size) :
    ∃ after,
      perform (.search query) scan = .ok () after ∧
      perform (.skip query.position 1) scan = .ok () after := by
  have skipAccepted : (Visit.skip query.position 1).Accepted scan :=
    ⟨Nat.one_pos, inside, accepted.order⟩
  obtain ⟨searched, searching, tracked, nextPos, pending, frame⟩ :=
    @perform_unclipped _ _ (.search query) tracks accepted unclipped
  obtain ⟨skipped, skipping, trackedSkip, nextPosSkip, pendingSkip, frameSkip⟩ :=
    perform_unclipped tracks skipAccepted trivial
  have same : searched = skipped :=
    eq_of_tracks tracked trackedSkip frame frameSkip (nextPos.trans nextPosSkip.symm)
      (pending.trans pendingSkip.symm)
  exact ⟨searched, searching, same ▸ skipping⟩

/-- A skip leaves the scan as its two parts do. -/
theorem performAll_skip_parts
    {position first second : Nat}
    (tracks : scan.Tracks inserted)
    (nonempty : 0 < first)
    (nonemptySecond : 0 < second)
    (inside : position + first + second ≤ scan.buffer.size)
    (order : scan.nextPos ≤ position) :
    ∃ after,
      performAll [.skip position (first + second)] scan = .ok () after ∧
      performAll [.skip position first, .skip (position + first) second] scan =
        .ok () after := by
  have accepted : (Visit.skip position (first + second)).Accepted scan :=
    ⟨by omega, by omega, order⟩
  have acceptedFirst : (Visit.skip position first).Accepted scan :=
    ⟨nonempty, by omega, order⟩
  obtain ⟨whole, skipping, tracked, nextPos, pending, frame⟩ :=
    perform_unclipped tracks accepted trivial
  obtain ⟨middle, skippingFirst, trackedFirst, nextPosFirst, _, frameFirst⟩ :=
    perform_unclipped tracks acceptedFirst trivial
  have sameBuffer := buffer_eq_of_frame frameFirst
  have acceptedSecond : (Visit.skip (position + first) second).Accepted middle :=
    ⟨nonemptySecond, sameBuffer ▸ inside, Nat.le_of_eq nextPosFirst⟩
  obtain ⟨after, skippingSecond, trackedSecond, nextPosSecond, pendingSecond, frameSecond⟩ :=
    perform_unclipped trackedFirst acceptedSecond trivial
  have parts : (Visit.skip position (first + second)).claims =
      (Visit.skip position first).claims ∪ (Visit.skip (position + first) second).claims := by
    simp only [Visit.claims, Visit.first, Visit.count]
    rw [Finset.Ico_union_Ico_eq_Ico (by omega) (by omega), Nat.add_assoc]
  rw [parts, Finset.filter_union, ← Finset.union_assoc] at tracked
  rw [sameBuffer] at trackedSecond pendingSecond
  simp only [Visit.first, Visit.count, Nat.add_assoc] at nextPos pending nextPosSecond pendingSecond
  have same : whole = after :=
    eq_of_tracks tracked trackedSecond frame (frameSecond.trans frameFirst)
      (nextPos.trans nextPosSecond.symm) (pending.trans pendingSecond.symm)
  refine ⟨after, ?_, ?_⟩
  · subst same
    exact performAll_cons_eq_ok_iff.mpr ⟨whole, skipping, rfl⟩
  · exact performAll_cons_eq_ok_iff.mpr
      ⟨middle, skippingFirst, performAll_cons_eq_ok_iff.mpr ⟨after, skippingSecond, rfl⟩⟩

theorem performAll_split_iff
    {position first second : Nat}
    (tracks : scan.Tracks inserted)
    (nonempty : 0 < first)
    (nonemptySecond : 0 < second) :
    performAll [.skip position (first + second)] scan = .ok () after ↔
      performAll [.skip position first, .skip (position + first) second] scan =
        .ok () after := by
  constructor
  · intro ran
    obtain ⟨_, skipped, _⟩ := performAll_cons_eq_ok_iff.mp ran
    have accepted := accepted_of_perform_eq_ok skipped
    have inside := accepted.inside
    obtain ⟨same, ranWhole, ranParts⟩ :=
      performAll_skip_parts tracks nonempty nonemptySecond (by omega) accepted.order
    rw [ranParts, ← ranWhole, ran]
  · intro ran
    obtain ⟨middle, skippedFirst, rest⟩ := performAll_cons_eq_ok_iff.mp ran
    obtain ⟨_, skippedSecond, _⟩ := performAll_cons_eq_ok_iff.mp rest
    have accepted := accepted_of_perform_eq_ok skippedFirst
    have inside := (accepted_of_perform_eq_ok skippedSecond).inside
    obtain ⟨_, _, frame⟩ := tracks.perform skippedFirst
    rw [buffer_eq_of_frame frame] at inside
    obtain ⟨same, ranWhole, ranParts⟩ :=
      performAll_skip_parts tracks nonempty nonemptySecond inside accepted.order
    rw [ranWhole, ← ranParts, ran]

/-- What is left behind on a buffer depends on the visited positions alone. -/
structure Confluent (buffer : Buffer) : Prop where
  /-- Runs that claim the same positions leave the same tables, links included, stand
  at the same place and keep the same buckets. -/
  state : ∀ {visits others : List Visit} {left right : Scan},
    Walked buffer visits left → Walked buffer others right →
    Visit.claimedBy visits = Visit.claimedBy others →
      left.Agrees right ∧
      (left.index.capacity = right.index.capacity → left.index.links = right.index.links)
  /-- All that is done after such runs is answered alike. -/
  replies : ∀ {visits others : List Visit} {left right : Scan} {later : List Session.Step},
    Walked buffer visits left → Walked buffer others right →
    Visit.claimedBy visits = Visit.claimedBy others →
    (∀ next ∈ later, next.InScan) →
      ((Session.scanning left).run later).1 = ((Session.scanning right).run later).1
  /-- A skip can be made in two parts. -/
  split : ∀ {visits : List Visit} {scan after : Scan} {position first second : Nat},
    Reached buffer visits scan → 0 < first → 0 < second →
      (performAll [.skip position (first + second)] scan = .ok () after ↔
        performAll [.skip position first, .skip (position + first) second] scan =
          .ok () after)
  /-- A skipped position can be searched instead, in any way. -/
  search : ∀ {visits : List Visit} {scan : Scan} {query : Query},
    Reached buffer visits scan → query.Accepted scan → query.position < buffer.size →
    (Visit.search query).Unclipped buffer.size →
      ∃ after,
        perform (.search query) scan = .ok () after ∧
        perform (.skip query.position 1) scan = .ok () after

/-- On every buffer the visited positions determine what is left behind. -/
theorem visits_confluent (buffer : Buffer) : Confluent buffer where
  state := by
    intro visits others left right walked walkedRight same
    have agrees := walked.agrees walkedRight same
    exact ⟨agrees, agrees.index.links_eq⟩
  replies := by
    intro visits others left right later walked walkedRight same inScan
    exact Session.Twins.run (.scanning (walked.twins walkedRight same)) inScan
  split := by
    intro visits scan after position first second reached nonempty nonemptySecond
    exact performAll_split_iff reached.tracks nonempty nonemptySecond
  search := by
    intro visits scan query reached accepted inside unclipped
    have sameBuffer := reached.buffer_eq
    exact perform_search_eq_skip reached.tracks accepted (sameBuffer ▸ unclipped)
      (sameBuffer ▸ inside)

/-- A skip of three positions, and a search followed by a skip of two.  A listing of the
bucket and a search are answered alike after both. -/
theorem visits_confluent_aaaaaaaa :
    ∃ left right,
      Walked #[97, 97, 97, 97, 97, 97, 97, 97] [.skip 0 3] left ∧
      Walked #[97, 97, 97, 97, 97, 97, 97, 97] [.search ⟨0, 0, 8, 8, 1⟩, .skip 1 2] right ∧
      left.Agrees right ∧
      ((Session.scanning left).run [.chain 62080, .search ⟨3, 0, 5, 5, 4⟩]).1 =
        [.chain [2, 1, 0], .found ⟨5, 1⟩ true] ∧
      ((Session.scanning right).run [.chain 62080, .search ⟨3, 0, 5, 5, 4⟩]).1 =
        [.chain [2, 1, 0], .found ⟨5, 1⟩ true] := by
  have addressable : (#[97, 97, 97, 97, 97, 97, 97, 97] : Buffer).size < Slot.limit := by decide
  obtain ⟨left, reached, nextPos⟩ :=
    exists_reached_skip addressable (show 0 < 3 by decide) (by decide)
  obtain ⟨begun, reachedBegun, nextPosBegun⟩ := exists_reached_nil addressable
  have accepted : (Visit.search ⟨0, 0, 8, 8, 1⟩).Accepted begun := by
    refine ⟨by decide, by decide, ?_, Nat.le_of_eq nextPosBegun⟩
    rw [reachedBegun.buffer_eq]
    decide
  obtain ⟨middle, reachedMiddle, nextPosMiddle⟩ := reachedBegun.perform accepted
  have acceptedSkip : (Visit.skip 1 2).Accepted middle := by
    refine ⟨by decide, ?_, Nat.le_of_eq nextPosMiddle⟩
    rw [reachedMiddle.buffer_eq]
    decide
  obtain ⟨right, reachedRight, _⟩ := reachedMiddle.perform acceptedSkip
  have walked : Walked _ [.skip 0 3] left := ⟨reached, by simp [Visit.Unclipped]⟩
  have walkedRight : Walked _ [.search ⟨0, 0, 8, 8, 1⟩, .skip 1 2] right :=
    ⟨reachedRight, by simp [Visit.Unclipped, minLookahead]⟩
  have same : Visit.claimedBy [.skip 0 3] =
      Visit.claimedBy [.search ⟨0, 0, 8, 8, 1⟩, .skip 1 2] := by decide
  have confluent := visits_confluent #[97, 97, 97, 97, 97, 97, 97, 97]
  have alike := @confluent.replies _ _ _ _ [.chain 62080, .search ⟨3, 0, 5, 5, 4⟩] walked
    walkedRight same (by simp [Session.Step.InScan])
  have sameBuffer := reached.buffer_eq
  have three : Visit.insertedBy 8 [.skip 0 3] = {0, 1, 2} := by decide
  have tracks : left.Tracks {0, 1, 2} := three ▸ reached.tracks
  have acceptedSearch : (Query.mk 3 0 5 5 4).Accepted left :=
    ⟨by decide, by decide, by rw [sameBuffer]; decide, Nat.le_of_eq nextPos⟩
  have answered : (Query.mk 3 0 5 5 4).answer left.buffer {0, 1, 2} = ⟨5, 1⟩ := by
    rw [sameBuffer, Query.answer_eq_chainWalk (by decide)]
    decide +kernel
  obtain ⟨_, searched, _⟩ := Session.step_search tracks acceptedSearch answered
  have chained : left.index.chain 62080 = .ok [2, 1, 0] :=
    (tracks.holds.chain_eq_filter ⟨62080, by decide⟩ 3 (by decide)).trans
      (by rw [sameBuffer]; decide +kernel)
  have shown : (Session.scanning left).step (.chain 62080) =
      (.chain [2, 1, 0], .scanning left) := by
    simp only [Session.step, Session.askIndex, Session.index, chained]
    rfl
  have replies : ((Session.scanning left).run [.chain 62080, .search ⟨3, 0, 5, 5, 4⟩]).1 =
      [.chain [2, 1, 0], .found ⟨5, 1⟩ true] := by
    simp only [Session.run, shown, searched]
    rfl
  exact ⟨left, right, walked, walkedRight, (confluent.state walked walkedRight same).1, replies,
    alike ▸ replies⟩

end Scan

end LempelZiv
