import LempelZiv.Proofs.Parse.Calls

/-!
Contract: the loops of both strategies emit the tokens of a stateless parse.

Owns:
- the greedy and the lazy loop on a scan that has visited every earlier position: the
  tokens that they emit and the visits that they make;
- the parse of a non-empty input that fits, with valid options, by any parser.

No visit that a loop makes is rejected, so every such parse answers.  A loop is
followed twice at once, on a plain scan and on one that keeps its visits.
-/

namespace LempelZiv

namespace Parse

open Scan (bind_of_ok)

variable {options : Options} {buffer : Buffer} {position visited : Nat} {scan : Scan}

/-- From this scan, on which the positions before `visited` are visited, the program
appends the tokens from `position` on and visits the rest of the buffer; on a recorded
scan it keeps these visits. -/
def Emits (options : Options) (buffer : Buffer) (position visited : Nat)
    (tokens : Array Token) (plain : ScanM (Array Token))
    (recorded : RecordedScanM (Array Token)) (scan : Scan) : Prop :=
  ∃ visits after,
    plain scan = .ok (tokens ++ tokensFrom (choice options buffer) buffer position) after ∧
    (∀ earlier, recorded earlier scan =
      .ok (tokens ++ tokensFrom (choice options buffer) buffer position, earlier ++ visits)
        after) ∧
    Scan.performAll visits scan = .ok () after ∧
    Calls options buffer visited visits buffer.size

section Emits

variable {tokens : Array Token} {plain : ScanM (Array Token)}
  {recorded : RecordedScanM (Array Token)} {held : Match.Found}

theorem emits_end (finished : position = buffer.size) :
    Emits options buffer position position tokens (pure tokens) (pure tokens) scan := by
  unfold Emits
  rw [tokensFrom_of_end (Nat.le_of_eq finished.symm), Array.appendList_nil, finished]
  refine ⟨[], scan, rfl, ?_, rfl, .done⟩
  intro earlier
  rw [List.append_nil]
  rfl

theorem emits_literal
    (inside : position < buffer.size)
    (absent : choice options buffer position = none)
    (rest : Emits options buffer (position + 1) visited
      (tokens.push (.literal buffer[position])) plain recorded scan) :
    Emits options buffer position visited tokens plain recorded scan := by
  unfold Emits
  rw [tokensFrom_of_none inside absent, Array.appendList_cons]
  exact rest

theorem emits_copy
    (inside : position < buffer.size)
    (taken : choice options buffer position = some held)
    (rest : Emits options buffer (position + held.val.length) visited
      (tokens.push (.copy held.val.length held.val.offset)) plain recorded scan) :
    Emits options buffer position visited tokens plain recorded scan := by
  unfold Emits
  rw [tokensFrom_of_some inside taken, Array.appendList_cons]
  exact rest

/-- A visit that is answered comes before the visits of the rest of the program. -/
theorem emits_visit
    {α : Type}
    {visit : Visit}
    {action : ScanM α}
    {answer : α}
    {next : Scan}
    {plainRest : α → ScanM (Array Token)}
    {recordedRest : α → RecordedScanM (Array Token)}
    (ran : action scan = .ok answer next)
    (performed : Scan.perform visit scan = .ok () next)
    (preceded : ∀ {rest}, Calls options buffer (visited + visit.count) rest buffer.size →
      Calls options buffer visited (visit :: rest) buffer.size)
    (rest : Emits options buffer position (visited + visit.count) tokens (plainRest answer)
      (recordedRest answer) next) :
    Emits options buffer position visited tokens (action >>= plainRest)
      (Scan.recorded visit action >>= recordedRest) scan := by
  obtain ⟨visits, after, ranRest, recordedAll, performedAll, calls⟩ := rest
  refine ⟨visit :: visits, after, (bind_of_ok ran _).trans ranRest, ?_,
    Scan.performAll_cons_eq_ok_iff.mpr ⟨next, performed, performedAll⟩, preceded calls⟩
  intro earlier
  have kept : Scan.recorded visit action earlier scan =
      .ok (answer, earlier ++ [visit]) next :=
    bind_of_ok ran _
  have following := recordedAll (earlier ++ [visit])
  rw [List.append_assoc] at following
  exact (bind_of_ok kept _).trans following

theorem emits_search
    {bestLen : Nat}
    {result : Match}
    {next : Scan}
    {plainRest : Match → ScanM (Array Token)}
    {recordedRest : Match → RecordedScanM (Array Token)}
    (inside : visited < buffer.size)
    (sought : Sought options buffer visited bestLen)
    (ran : (MonadVisit.search (options.query buffer.size visited bestLen) : ScanM Match) scan =
      .ok result next)
    (rest : Emits options buffer position (visited + 1) tokens (plainRest result)
      (recordedRest result) next) :
    Emits options buffer position visited tokens
      (MonadVisit.search (options.query buffer.size visited bestLen) >>= plainRest)
      (MonadVisit.search (options.query buffer.size visited bestLen) >>= recordedRest)
      scan :=
  emits_visit ran (bind_of_ok ran _) (.search inside sought) rest

theorem emits_skip
    {count : Nat}
    {next : Scan}
    {plainRest : Unit → ScanM (Array Token)}
    {recordedRest : Unit → RecordedScanM (Array Token)}
    (nonempty : 0 < count)
    (ran : (MonadVisit.skip visited count : ScanM Unit) scan = .ok () next)
    (rest : Emits options buffer position (visited + count) tokens (plainRest ())
      (recordedRest ()) next) :
    Emits options buffer position visited tokens
      (MonadVisit.skip visited count >>= plainRest)
      (MonadVisit.skip visited count >>= recordedRest) scan :=
  emits_visit ran ran (.skip nonempty) rest

end Emits

/-- The greedy loop emits the tokens of its choices. -/
theorem greedyFrom_emits
    (valid : options.validate = .ok ())
    (greedy : options.strategy = .greedy)
    (visited : Visited options buffer position scan)
    (inside : position ≤ buffer.size)
    (tokens : Array Token) :
    Emits options buffer position position tokens
      (greedyFrom options buffer position tokens)
      (greedyFrom options buffer position tokens) scan := by
  induction remaining : buffer.size - position using Nat.strong_induction_on
    generalizing position scan tokens with
  | _ remaining inductionHypothesis =>
      rw [greedyFrom, greedyFrom]
      by_cases more : position < buffer.size
      · obtain ⟨result, next, ran, found, visitedNext⟩ := visited.searchFirst valid more
        rw [dif_pos more, dif_pos more]
        apply emits_search more (.inl rfl) ran
        rw [found]
        cases taken : matchAt options buffer position with
        | some held =>
            obtain ⟨three, ends⟩ := matchAt_inside inside taken
            have remains : 0 < held.val.length - 1 := by omega
            have reaches : position + 1 + (held.val.length - 1) =
                position + held.val.length := by
              omega
            obtain ⟨skipped, ranSkip, visitedSkip⟩ := visitedNext.skip remains (by omega)
            rw [reaches] at visitedSkip
            apply emits_copy more ((choice_of_greedy greedy).trans taken)
            apply emits_skip remains ranSkip
            rw [reaches]
            exact inductionHypothesis _ (by omega) visitedSkip ends _ rfl
        | none =>
            apply emits_literal more (choice_of_none taken)
            exact inductionHypothesis _ (by omega) visitedNext more _ rfl
      · rw [dif_neg more, dif_neg more]
        exact emits_end (by omega)

/-- The first position that is not visited yet when a match may be held. -/
def unvisited (position : Nat) : Option Match.Found → Nat
  | none => position
  | some _ => position + 1

/-- The state of the lazy loop: a held match is the one at `position`, which is then
visited already. -/
def Holding (options : Options) (buffer : Buffer) (position : Nat) (scan : Scan) :
    Option Match.Found → Prop
  | none => Visited options buffer position scan
  | some held =>
      position < buffer.size ∧
      matchAt options buffer position = some held ∧
      Visited options buffer (position + 1) scan

theorem worthLooking_iff {held : Match} :
    worthLooking options buffer.size position held = true ↔
      position + 1 < buffer.size ∧
        held.length < (options.limits (buffer.size - position)).niceLen := by
  simp only [worthLooking, Bool.and_eq_true, decide_eq_true_eq]

theorem not_postponed_of_not_worthLooking
    {held : Match.Found}
    (content : ¬ worthLooking options buffer.size position held.val = true) :
    ¬ postponed options buffer position held = true := by
  intro waits
  obtain ⟨short, later, found, _⟩ := postponed_eq_true_iff.mp waits
  apply content
  refine worthLooking_iff.mpr ⟨?_, short⟩
  by_contra finished
  rw [matchAt_of_size_le (Nat.le_of_not_lt finished)] at found
  cases found

/-- The lazy loop emits the tokens of its choices. -/
theorem lazyFrom_emits
    (valid : options.validate = .ok ())
    (lazy : options.strategy = .lazy)
    {held? : Option Match.Found}
    (holding : Holding options buffer position scan held?)
    (inside : position ≤ buffer.size)
    (tokens : Array Token) :
    Emits options buffer position (unvisited position held?) tokens
      (lazyFrom options buffer position held? tokens)
      (lazyFrom options buffer position held? tokens) scan := by
  -- a step that holds a match keeps the position, so it has to count for half a byte
  induction remaining : 2 * (buffer.size - position) + (if held?.isSome then 0 else 1)
    using Nat.strong_induction_on generalizing position scan held? tokens with
  | _ remaining inductionHypothesis =>
      rw [lazyFrom, lazyFrom]
      by_cases more : position < buffer.size
      · rw [dif_pos more, dif_pos more]
        cases held? with
        | none =>
            obtain ⟨result, next, ran, found, visitedNext⟩ :=
              Visited.searchFirst valid holding more
            apply emits_search more (.inl rfl) ran
            rw [found]
            cases taken : matchAt options buffer position with
            | some held =>
                exact @inductionHypothesis _ (by simp at remaining ⊢; omega) _ _
                  (some held) ⟨more, taken, visitedNext⟩ inside tokens rfl
            | none =>
                apply emits_literal more (choice_of_none taken)
                exact @inductionHypothesis _ (by simp at remaining ⊢; omega) _ _
                  none visitedNext more _ rfl
        | some held =>
            obtain ⟨_, taken, visited⟩ := holding
            obtain ⟨three, ends⟩ := matchAt_inside inside taken
            have take : ∀ {visitedTo : Nat} {next : Scan},
                Visited options buffer visitedTo next →
                visitedTo < position + held.val.length →
                ¬ postponed options buffer position held = true →
                Emits options buffer position visitedTo tokens
                  (do
                    skipTo visitedTo (position + held.val.length)
                    lazyFrom options buffer (position + held.val.length) none
                      (tokens.push (.copy held.val.length held.val.offset)))
                  (do
                    skipTo visitedTo (position + held.val.length)
                    lazyFrom options buffer (position + held.val.length) none
                      (tokens.push (.copy held.val.length held.val.offset))) next := by
              intro visitedTo next visitedNext remains stays
              have reaches := Nat.add_sub_of_le (Nat.le_of_lt remains)
              have nonempty := Nat.sub_pos_of_lt remains
              obtain ⟨skipped, ranSkip, visitedSkip⟩ := visitedNext.skip nonempty (by omega)
              rw [reaches] at visitedSkip
              apply emits_copy more (choice_of_not_postponed lazy taken stays)
              rw [skipTo, skipTo, if_pos remains, if_pos remains]
              apply emits_skip nonempty ranSkip
              rw [reaches]
              exact @inductionHypothesis _ (by simp at remaining ⊢; omega) _ _
                none visitedSkip ends _ rfl
            by_cases worth : worthLooking options buffer.size position held.val = true
            · obtain ⟨moreNext, short⟩ := worthLooking_iff.mp worth
              obtain ⟨result, next, ran, ahead, visitedNext⟩ :=
                visited.searchAhead valid moreNext three short
              simp only [if_pos worth]
              apply emits_search moreNext (.inr ⟨position, rfl, three, short⟩) ran
              cases found : result.found? held.val.length with
              | some later =>
                  obtain ⟨foundNext, longer⟩ := (ahead later).mp found
                  have waits := postponed_eq_true_iff.mpr ⟨short, later, foundNext, longer⟩
                  apply emits_literal more (choice_of_postponed lazy taken waits)
                  exact @inductionHypothesis _ (by simp at remaining ⊢; omega) _ _
                    (some later) ⟨moreNext, foundNext, visitedNext⟩ (Nat.le_of_lt moreNext)
                    _ rfl
              | none =>
                  refine take visitedNext (by omega) fun waits => ?_
                  obtain ⟨_, later, foundNext, longer⟩ := postponed_eq_true_iff.mp waits
                  rw [(ahead later).mpr ⟨foundNext, longer⟩] at found
                  cases found
            · simp only [if_neg worth]
              exact take visited (show position + 1 < position + held.val.length by omega)
                (not_postponed_of_not_worthLooking worth)
      · rw [dif_neg more, dif_neg more]
        cases held? with
        | none => exact emits_end (by omega)
        | some held => exact absurd holding.1 more

end Parse

namespace Parser

open Parse

variable {parser : Parser} {input : Buffer} {options : Options}

/-- On a scan that has visited nothing, the loop of a strategy emits the tokens of the
choices that it makes. -/
theorem loop_emits
    {scan : Scan}
    (valid : options.validate = .ok ())
    (begun : Visited options input 0 scan) :
    Emits options input 0 0 #[] (loop options.strategy options input)
      (recordedLoop options.strategy options input) scan := by
  cases strategy : options.strategy with
  | greedy => exact greedyFrom_emits valid strategy begun (Nat.zero_le _) #[]
  | lazy => exact @lazyFrom_emits _ _ _ _ valid strategy none begun (Nat.zero_le _) #[]

/-- A parse of a non-empty input that fits, with valid options, visits all of it on one
scan, keeps the tables of that scan, and reports the tokens of its choices. -/
theorem parse_scans
    (nonempty : 0 < input.size)
    (valid : options.validate = .ok ())
    (fits : input.size ≤ parser.capacity) :
    ∃ visits scan,
      Parser.parse input options parser =
        .ok (tokensFrom (choice options input) input 0)
          ⟨scan.index.report
            (parsedEvent options input (tokensFrom (choice options input) input 0).toArray)⟩ ∧
      parser.Makes input options visits (tokensFrom (choice options input) input 0) ∧
      parser.Arrives input visits scan ∧
      Calls options input 0 visits input.size := by
  have fitsIndex : input.size ≤ parser.index.capacity := fits
  obtain ⟨visits, scan, ran, recorded, performed, calls⟩ :=
    loop_emits valid (visited_start fitsIndex)
  have emitted : (#[] : Array Token) ++ tokensFrom (choice options input) input 0 =
      (tokensFrom (choice options input) input 0).toArray := by
    apply Array.toList_inj.mp
    rw [Array.toList_appendList]
    rfl
  rw [emitted] at ran recorded
  refine ⟨visits, scan, ?_, ⟨fitsIndex, _, scan, rfl, recorded []⟩, ⟨fitsIndex, performed⟩, calls⟩
  simp only [Parser.parse, if_neg (Nat.ne_of_gt nonempty), valid, dif_pos fitsIndex, ran]

/-- Such a parse answers by consecutive visits from the first position to the last. -/
theorem parse_makes
    (nonempty : 0 < input.size)
    (valid : options.validate = .ok ())
    (fits : input.size ≤ parser.capacity) :
    ∃ visits scan after,
      Parser.parse input options parser =
        .ok (tokensFrom (choice options input) input 0) after ∧
      parser.Makes input options visits (tokensFrom (choice options input) input 0) ∧
      parser.Arrives input visits scan ∧
      Calls options input 0 visits input.size := by
  obtain ⟨visits, scan, answered, makes, arrives, calls⟩ := parse_scans nonempty valid fits
  exact ⟨visits, scan, _, answered, makes, arrives, calls⟩

theorem parse_eq
    (nonempty : 0 < input.size)
    (valid : options.validate = .ok ())
    (fits : input.size ≤ parser.capacity) :
    ∃ after,
      Parser.parse input options parser =
        .ok (tokensFrom (choice options input) input 0) after := by
  obtain ⟨visits, scan, after, answered, _⟩ := parse_makes nonempty valid fits
  exact ⟨after, answered⟩

/-- There are parsers for every input that slots can address. -/
theorem exists_capacity_eq {capacity : Nat} (addressable : capacity < Slot.limit) :
    ∃ parser : Parser, parser.capacity = capacity :=
  ⟨⟨Index.blank capacity #[] addressable⟩, Index.capacity_blank _ _ addressable⟩

end Parser

end LempelZiv
