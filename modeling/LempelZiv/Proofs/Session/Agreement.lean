import LempelZiv.Proofs.Scan.Agreement
import LempelZiv.Proofs.Session.Contents

/-!
Contract: what the replies of a session depend on.

Owns:
- the steps that work within the open scan and show no capacity;
- the equal replies to such steps of two sessions whose open scans are twins;
- the capacity of the index, which no step changes.

A session may go on from twins that came about in any way: with other visits, with
another history of the index, or with an index of another capacity.
-/

namespace LempelZiv.Session

/-- The step works within the open scan and tells of the index nothing but its
chains. -/
def Step.InScan : Step → Prop
  | .search _ | .skip _ _ | .searchRange _ | .chain _ | .chains => True
  | .scan _ | .reset | .showScan | .showIndex => False

/-! ### Replies -/

/-- Sessions whose open scans are twins. -/
inductive Twins : Session → Session → Prop where
  | scanning {left right : Scan} (twins : Scan.Twins left right) :
      Twins (.scanning left) (.scanning right)

variable {left right : Session}

theorem Twins.withScan
    {α : Type}
    {left right : Scan}
    {action : ScanM α}
    (alike : Scan.Alike (action left) (action right))
    (reply : α → Reply) :
    (Session.withScan action reply (.scanning left)).1 =
        (Session.withScan action reply (.scanning right)).1 ∧
      Twins (Session.withScan action reply (.scanning left)).2
        (Session.withScan action reply (.scanning right)).2 := by
  simp only [Session.withScan]
  generalize action left = outcome at alike
  generalize action right = outcomeRight at alike
  cases alike with
  | answered answer twins => exact ⟨rfl, .scanning twins⟩
  | rejected violation twins => exact ⟨rfl, .scanning twins⟩

/-- A question that only the chains answer is answered alike by twins. -/
theorem Twins.askIndex
    {question : Index → Except Violation Reply}
    (twins : Twins left right)
    (same : question left.index = question right.index) :
    (Session.askIndex question left).1 = (Session.askIndex question right).1 ∧
      Twins (Session.askIndex question left).2 (Session.askIndex question right).2 := by
  rw [askIndex_session, askIndex_session]
  refine ⟨?_, twins⟩
  rw [Session.askIndex, Session.askIndex, same]
  split <;> rfl

/-- Twins reply alike to a step within the open scan, and stay twins. -/
theorem Twins.step
    (twins : Twins left right)
    {next : Step}
    (inScan : next.InScan) :
    (left.step next).1 = (right.step next).1 ∧
      Twins (left.step next).2 (right.step next).2 := by
  obtain @⟨leftScan, rightScan, scans⟩ := twins
  cases next with
  | search query => exact Twins.withScan (Scan.longestMatch_alike scans query) _
  | skip position count => exact Twins.withScan (Scan.skipPositions_alike scans position count) _
  | searchRange sweep => exact Twins.withScan (Scan.searchRange_alike scans sweep) _
  | chain bucket =>
      rw [step, step]
      apply Twins.askIndex (.scanning scans)
      simp only [Session.index, scans.chain_congr]
  | chains =>
      rw [step, step]
      apply Twins.askIndex (.scanning scans)
      simp only [Session.index, Index.chains_congr scans.chain_congr]
  | scan buffer => exact inScan.elim
  | reset => exact inScan.elim
  | showScan => exact inScan.elim
  | showIndex => exact inScan.elim

/-- Twins reply alike to any steps within the open scan. -/
theorem Twins.run
    (twins : Twins left right)
    {steps : List Step}
    (inScan : ∀ next ∈ steps, next.InScan) :
    (left.run steps).1 = (right.run steps).1 := by
  induction steps generalizing left right with
  | nil => rfl
  | cons first rest inductionHypothesis =>
      obtain ⟨sameReply, twinsNext⟩ := twins.step (inScan first (List.mem_cons_self ..))
      have sameRest := inductionHypothesis twinsNext fun next member =>
        inScan next (List.mem_cons_of_mem first member)
      simp only [Session.run, sameReply, sameRest]

/-- From the next scan on, replies do not depend on what an index held or can hold. -/
theorem run_scan_congr
    {buffer : Buffer}
    (fits : buffer.size ≤ left.index.capacity)
    (fitsRight : buffer.size ≤ right.index.capacity)
    {later : List Step}
    (inScan : ∀ next ∈ later, next.InScan) :
    (left.run (.scan buffer :: later)).1 = (right.run (.scan buffer :: later)).1 := by
  have same := Twins.run (.scanning (Scan.twins_start fits fitsRight)) inScan
  simp only [run, step_scan fits, step_scan fitsRight, same]

/-! ### Capacity -/

variable {session : Session} {ledger : Ledger}

theorem capacity_withScan
    {α : Type}
    {action : ScanM α}
    {reply : α → Reply}
    {positions : Scan → Finset Nat}
    (follows : session.Follows ledger)
    (acts : ∀ scan : Scan, scan.Tracks ledger.inserted →
      (∃ answer after,
        action scan = .ok answer after ∧
        after.Tracks (positions scan) ∧
        after.frame = scan.frame) ∨
      ∃ violation, action scan = .error violation scan) :
    (withScan action reply session).2.index.capacity = session.index.capacity := by
  cases session with
  | idle index => rfl
  | scanning scan =>
      rw [withScan]
      rcases acts scan follows.2 with ⟨answer, after, ran, _, frame⟩ | ⟨violation, broke⟩
      · rw [ran]
        exact congrArg Scan.Frame.capacity frame
      · rw [broke]

theorem capacity_step (follows : session.Follows ledger) (next : Step) :
    (session.step next).2.index.capacity = session.index.capacity := by
  cases next with
  | scan buffer =>
      rw [step, Index.scan]
      split
      · rename_i opened
        split at opened
        · cases opened
          exact Index.capacity_reset _
        · cases opened
      · rfl
  | reset => exact Index.capacity_reset _
  | search query =>
      exact capacity_withScan follows fun _ tracks => Scan.longestMatch_cases tracks query
  | skip position count =>
      exact capacity_withScan follows fun _ tracks =>
        Scan.skipPositions_cases tracks position count
  | searchRange sweep =>
      exact capacity_withScan follows fun _ tracks => Scan.searchRange_cases tracks sweep
  | showScan => cases session <;> rfl
  | chain bucket => rw [step, askIndex_session]
  | chains => rw [step, askIndex_session]
  | showIndex => rfl

theorem capacity_run (follows : session.Follows ledger) (steps : List Step) :
    (session.run steps).2.index.capacity = session.index.capacity := by
  induction steps generalizing session ledger with
  | nil => rfl
  | cons first rest inductionHypothesis =>
      have kept := inductionHypothesis (follows_step follows first)
      exact kept.trans (capacity_step follows first)

end LempelZiv.Session
