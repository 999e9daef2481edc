import LempelZiv.Proofs.Parse.Loops
import LempelZiv.Proofs.Scan.Confluence

/-!
Contract: a parse visits every position once, and leaves the scan as one long skip does.

Owns:
- the positions of a list of visits, and the lists that claim each position below a bound
  once and in increasing order;
- the visits of a parse as such a list;
- the scan that a parse leaves behind, for copies of five bytes and more.

A parse that permits no copy of five bytes inserts no position and leaves another scan.
-/

namespace LempelZiv

namespace Visit

/-- The positions a visit claims, in increasing order. -/
def positions (visit : Visit) : List Nat :=
  List.range' visit.first visit.count

/-- Each visit claims at least one position, and one after another they claim each position
below `size` exactly once and in increasing order. -/
structure Tile (visits : List Visit) (size : Nat) : Prop where
  nonempty : ∀ visit ∈ visits, 0 < visit.count
  ordered : visits.flatMap positions = List.range size

theorem toFinset_positions (visit : Visit) : visit.positions.toFinset = visit.claims := by
  ext position
  simp only [positions, claims, List.mem_toFinset, List.mem_range'_1, Finset.mem_Ico]

theorem claimedBy_eq_toFinset (visits : List Visit) :
    claimedBy visits = (visits.flatMap positions).toFinset := by
  induction visits with
  | nil => rfl
  | cons visit rest inductionHypothesis =>
      rw [claimedBy, List.flatMap_cons, List.toFinset_append, toFinset_positions,
        inductionHypothesis]

/-- One skip of a whole buffer. -/
theorem tile_skip {size : Nat} (nonempty : 0 < size) : Tile [.skip 0 size] size where
  nonempty := by
    intro visit member
    rw [List.mem_singleton.mp member]
    exact nonempty
  ordered := by
    rw [List.flatMap_singleton, positions, List.range_eq_range']
    rfl

theorem Tile.claimedBy_eq
    {visits others : List Visit}
    {size : Nat}
    (tile : Tile visits size)
    (tileOthers : Tile others size) :
    claimedBy visits = claimedBy others := by
  rw [claimedBy_eq_toFinset, claimedBy_eq_toFinset, tile.ordered, tileOthers.ordered]

end Visit

namespace Parse

variable {options : Options} {buffer : Buffer} {position stop : Nat} {visits : List Visit}

/-- What holds of every query of a parse and of every skip holds of all its visits. -/
theorem Calls.forall_mem
    {Holds : Visit → Prop}
    (queries : ∀ position bestLen : Nat,
      Holds (.search (options.query buffer.size position bestLen)))
    (skips : ∀ position count : Nat, 0 < count → Holds (.skip position count))
    (calls : Calls options buffer position visits stop) :
    ∀ visit ∈ visits, Holds visit := by
  induction calls with
  | done =>
      intro visit member
      cases member
  | search inside sought following inductionHypothesis =>
      intro visit member
      rcases List.mem_cons.mp member with rfl | later
      · exact queries _ _
      · exact inductionHypothesis visit later
  | skip nonempty following inductionHypothesis =>
      intro visit member
      rcases List.mem_cons.mp member with rfl | later
      · exact skips _ _ nonempty
      · exact inductionHypothesis visit later

/-- Consecutive visits claim what lies between their two ends. -/
theorem Calls.flatMap_positions (calls : Calls options buffer position visits stop) :
    visits.flatMap Visit.positions = List.range' position (stop - position) := by
  induction calls with
  | done =>
      rw [Nat.sub_self]
      rfl
  | @search position stop bestLen rest inside sought following inductionHypothesis =>
      have ends := following.le
      have parts : stop - position = 1 + (stop - (position + 1)) := by omega
      rw [List.flatMap_cons, inductionHypothesis, parts]
      exact List.range'_append_1
  | @skip position stop count rest nonempty following inductionHypothesis =>
      have ends := following.le
      have parts : stop - position = count + (stop - (position + count)) := by omega
      rw [List.flatMap_cons, inductionHypothesis, parts]
      exact List.range'_append_1

theorem Calls.tile (calls : Calls options buffer 0 visits buffer.size) :
    Visit.Tile visits buffer.size where
  nonempty := calls.forall_mem (fun _ _ => Nat.one_pos) (fun _ _ nonempty => nonempty)
  ordered := by
    rw [calls.flatMap_positions, Nat.sub_zero, List.range_eq_range']

/-- With copies of five bytes, the searches of a parse permit five bytes wherever so many
are left. -/
theorem Calls.unclipped
    (long : minLookahead ≤ options.maxMatchLen)
    (calls : Calls options buffer position visits stop) :
    ∀ visit ∈ visits, visit.Unclipped buffer.size := by
  refine calls.forall_mem ?_ (fun _ _ _ => trivial)
  intro position bestLen
  simp only [Visit.Unclipped, Options.query, Options.limits]
  omega

end Parse

namespace Scan

/-- One skip can visit a whole buffer, after which no buckets are kept. -/
theorem skipPositions_whole
    {index : Index}
    {buffer : Buffer}
    (fits : buffer.size ≤ index.capacity)
    (nonempty : 0 < buffer.size) :
    ∃ skipped,
      skipPositions 0 buffer.size (start index buffer fits) = .ok () skipped ∧
      skipped.nextPos = buffer.size ∧
      skipped.pending = none := by
  have accepted : (start index buffer fits).SkipAccepted 0 buffer.size :=
    ⟨nonempty, Nat.le_of_eq (Nat.zero_add _), Nat.le_refl 0⟩
  obtain ⟨skipped, ran, _, nextPos, pending, _⟩ :=
    skipPositions_spec (tracks_start fits) accepted
  have sameBuffer : (start index buffer fits).buffer = buffer := rfl
  rw [Nat.zero_add] at nextPos
  rw [Nat.zero_add, sameBuffer, if_neg (by omega)] at pending
  exact ⟨skipped, ran, nextPos, pending⟩

/-- Unclipped visits that claim the same positions lead from one begun scan to one scan. -/
theorem eq_of_performAll
    {index : Index}
    {buffer : Buffer}
    {fits : buffer.size ≤ index.capacity}
    {visits others : List Visit}
    {left right : Scan}
    (ran : performAll visits (start index buffer fits) = .ok () left)
    (ranOthers : performAll others (start index buffer fits) = .ok () right)
    (unclipped : ∀ visit ∈ visits, visit.Unclipped buffer.size)
    (unclippedOthers : ∀ visit ∈ others, visit.Unclipped buffer.size)
    (same : Visit.claimedBy visits = Visit.claimedBy others) :
    left = right := by
  have walked : Walked buffer visits left := ⟨⟨index, fits, ran⟩, unclipped⟩
  have walkedOthers : Walked buffer others right := ⟨⟨index, fits, ranOthers⟩, unclippedOthers⟩
  have frame := ((tracks_start fits).performAll ran).2
  have frameOthers := ((tracks_start fits).performAll ranOthers).2
  exact (walked.agrees walkedOthers same).eq (frame.trans frameOthers.symm)

end Scan

namespace Parser

open Parse

/-- Each strategy, with any valid options, visits every position of a non-empty input that
fits exactly once and in order.  With copies of five bytes and more it leaves the scan that
one skip of the whole input leaves, which does not depend on the options. -/
theorem parse_covers
    {parser : Parser}
    {input : Buffer}
    (nonempty : 0 < input.size)
    (fits : input.size ≤ parser.index.capacity) :
    ∃ skipped,
      Scan.skipPositions 0 input.size (Scan.start parser.index input fits) = .ok () skipped ∧
      skipped.nextPos = input.size ∧
      skipped.pending = none ∧
      ∀ options : Options, options.validate = .ok () →
        ∃ tokens visits scan,
          Parser.parse input options parser =
            .ok tokens.toList ⟨scan.index.report (parsedEvent options input tokens)⟩ ∧
          loop options.strategy options input (Scan.start parser.index input fits) =
            .ok tokens scan ∧
          recordedLoop options.strategy options input [] (Scan.start parser.index input fits) =
            .ok (tokens, visits) scan ∧
          Visit.Tile visits input.size ∧
          (5 ≤ options.maxMatchLen → scan = skipped) := by
  obtain ⟨skipped, ranSkip, nextPos, pending⟩ := Scan.skipPositions_whole fits nonempty
  refine ⟨skipped, ranSkip, nextPos, pending, ?_⟩
  intro options valid
  obtain ⟨visits, scan, ran, recorded, performed, calls⟩ :=
    loop_emits valid (visited_start fits)
  refine ⟨_, visits, scan, ?_, ran, recorded [], calls.tile, ?_⟩
  · simp only [Parser.parse, if_neg (Nat.ne_of_gt nonempty), valid, dif_pos fits, ran]
  · -- the visits of the parse and the one skip claim the same positions
    intro long
    have performedSkip : Scan.performAll [.skip 0 input.size]
        (Scan.start parser.index input fits) = .ok () skipped :=
      Scan.performAll_cons_eq_ok_iff.mpr ⟨skipped, ranSkip, rfl⟩
    apply Scan.eq_of_performAll performed performedSkip (calls.unclipped long)
    · intro visit member
      rw [List.mem_singleton.mp member]
      trivial
    · exact calls.tile.claimedBy_eq (Visit.tile_skip nonempty)

/-- The shallow greedy and the deep lazy parse of eight equal bytes find the same copy and
leave the same scan. -/
theorem parse_covers_aaaaaaaa :
    ∃ (parser : Parser) (fits : 8 ≤ parser.index.capacity) (skipped : Scan),
      0 < 8 ∧
      Scan.skipPositions 0 8
        (Scan.start parser.index #[97, 97, 97, 97, 97, 97, 97, 97] fits) = .ok () skipped ∧
      skipped.nextPos = 8 ∧
      skipped.pending = none ∧
      ∀ options ∈ [Options.ofLevel .fastest, Options.ofLevel .best],
        ∃ visits,
          recordedLoop options.strategy options #[97, 97, 97, 97, 97, 97, 97, 97] []
            (Scan.start parser.index #[97, 97, 97, 97, 97, 97, 97, 97] fits) =
              .ok (#[.literal 97, .copy 7 1], visits) skipped ∧
          Visit.Tile visits 8 := by
  obtain ⟨parser, capacity⟩ := exists_capacity_eq (show 8 < Slot.limit by decide)
  have fits : 8 ≤ parser.index.capacity := Nat.le_of_eq capacity.symm
  have nonempty : 0 < 8 := by decide
  obtain ⟨skipped, ranSkip, nextPos, pending, parses⟩ :=
    @parse_covers parser #[97, 97, 97, 97, 97, 97, 97, 97] nonempty fits
  refine ⟨parser, fits, skipped, nonempty, ranSkip, nextPos, pending, ?_⟩
  intro options listed
  have valid : options.validate = .ok () ∧ 5 ≤ options.maxMatchLen := by
    revert options
    decide
  have copied : choice options #[97, 97, 97, 97, 97, 97, 97, 97] 1 =
      some ⟨⟨7, 1⟩, by decide⟩ := by
    revert options
    decide +kernel
  obtain ⟨tokens, visits, scan, answered, _, recorded, tile, left⟩ := parses options valid.1
  obtain ⟨_, same⟩ := @parse_eq parser #[97, 97, 97, 97, 97, 97, 97, 97] options nonempty valid.1
    fits
  rw [tokensFrom_zero_of_rest (by decide) copied (by decide), answered] at same
  injection same with sameTokens
  rw [left valid.2, Array.toList_inj.mp sameTokens] at recorded
  exact ⟨visits, recorded, tile⟩

end Parser

end LempelZiv
