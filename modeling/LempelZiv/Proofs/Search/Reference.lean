import LempelZiv.Proofs.Buffer.SharedLength
import LempelZiv.Proofs.Index.Contents
import LempelZiv.Proofs.Search.Counting

/-!
Contract: the answer of a search as a function of the inserted positions.

Owns:
- the bytewise walk over a list of candidates, newest first, with one best match
  and one stop at the nice length;
- the same walk over the chain of a query, and the nodes it visits there;
- the answer that this walk gives for a set of inserted positions, what it can be, and
  the same answer along a chain that is counted down;
- the agreement of the two-phase search along the links with the walk, in its
  answer and in the nodes it counts.

The phases of the search differ in the filter they put before the comparison of
a candidate.  A candidate that a filter rejects shares fewer than four bytes or
no more than the best match has, so the walk passes over it too.
-/

namespace LempelZiv

namespace Query

/-- The number of bytes, of those a match may have, that a candidate shares with
the query's position. -/
def sharedWith (query : Query) (buffer : Buffer) (candidate : Nat) : Nat :=
  buffer.sharedLength query.position candidate query.maxLen

/-- A match of so many bytes ends the search. -/
def enough (query : Query) : Nat :=
  max query.niceLen 4

def matchOf (query : Query) (buffer : Buffer) (candidate : Nat) : Match :=
  ⟨query.sharedWith buffer candidate, query.position - candidate⟩

/-- Visit candidates in order; take each one that shares four bytes and more
than the best match has, and stop at the first that reaches the nice length. -/
def bestAlong (query : Query) (buffer : Buffer) : List Nat → (best : Match) → Match
  | [], best => best
  | candidate :: older, best =>
      let length := query.sharedWith buffer candidate
      if 4 ≤ length ∧ best.length < length then
        if query.niceLen ≤ length then
          query.matchOf buffer candidate
        else
          bestAlong query buffer older (query.matchOf buffer candidate)
      else
        bestAlong query buffer older best

/-- The number of candidates that the walk visits. -/
def nodesAlong (query : Query) (buffer : Buffer) : List Nat → (best : Match) → Nat
  | [], _ => 0
  | candidate :: older, best =>
      let length := query.sharedWith buffer candidate
      if 4 ≤ length ∧ best.length < length then
        if query.niceLen ≤ length then
          1
        else
          nodesAlong query buffer older (query.matchOf buffer candidate) + 1
      else
        nodesAlong query buffer older best + 1

/-- The match of three bytes with the newest entry of the short bucket, if the
query asks for it and the bytes agree. -/
def opening (query : Query) (buffer : Buffer) (newest : Option Nat) : Match :=
  match newest with
  | none => .unimproved query.bestLen
  | some candidate =>
      if query.bestLen < 3 ∧
          buffer.shortWindow candidate = buffer.shortWindow query.position then
        ⟨3, query.position - candidate⟩
      else
        .unimproved query.bestLen

/-- The best match along the first nodes of a chain, of which the query may inspect
so many, after the one with the newest entry of the short bucket. -/
def chainWalk (query : Query) (buffer : Buffer) (newest : Option Nat) (chain : List Nat) :
    Match :=
  if 4 ≤ query.bestLen ∧ query.niceLen ≤ query.bestLen then
    .unimproved query.bestLen
  else
    query.bestAlong buffer (chain.take query.maxDepth) (query.opening buffer newest)

/-- The number of chain nodes that this walk visits. -/
def chainNodes (query : Query) (buffer : Buffer) (newest : Option Nat) (chain : List Nat) :
    Nat :=
  if 4 ≤ query.bestLen ∧ query.niceLen ≤ query.bestLen then
    0
  else
    query.nodesAlong buffer (chain.take query.maxDepth) (query.opening buffer newest)

/-- The newest inserted position in the short bucket of the query's position. -/
def shortCandidate (query : Query) (buffer : Buffer) (inserted : Finset Nat) : Option Nat :=
  newest? (Index.shortEntries buffer inserted (buffer.buckets query.position).short)

/-- The inserted positions in the long bucket of the query's position, newest
first, of which the query may inspect so many. -/
def candidates (query : Query) (buffer : Buffer) (inserted : Finset Nat) : List Nat :=
  (newestFirst
    (Index.longEntries buffer inserted (buffer.buckets query.position).long)).take
      query.maxDepth

/-- The best match of the query's position among the inserted positions. -/
def bestAmong (query : Query) (buffer : Buffer) (inserted : Finset Nat) : Match :=
  if 4 ≤ query.bestLen ∧ query.niceLen ≤ query.bestLen then
    .unimproved query.bestLen
  else
    query.bestAlong buffer (query.candidates buffer inserted)
      (query.opening buffer (query.shortCandidate buffer inserted))

/-- The answer to a query; one that permits fewer than five bytes has no match. -/
def answer (query : Query) (buffer : Buffer) (inserted : Finset Nat) : Match :=
  if query.maxLen < minLookahead then
    .unimproved query.bestLen
  else
    query.bestAmong buffer inserted

/-- The inserted positions in the long bucket of the query's position, counted down from
it. -/
def chainBelow (query : Query) (buffer : Buffer) (inserted : Finset Nat) : List Nat :=
  (List.range query.position).reverse.filter
    (· ∈ Index.longEntries buffer inserted (buffer.buckets query.position).long)

variable {query : Query} {buffer : Buffer} {inserted : Finset Nat}

theorem newestFirst_longEntries (earlier : ∀ entry ∈ inserted, entry < query.position) :
    newestFirst (Index.longEntries buffer inserted (buffer.buckets query.position).long) =
      query.chainBelow buffer inserted := by
  apply newestFirst_eq_filter
  intro entry listed
  exact earlier entry (Finset.mem_filter.mp listed).1

/-- The answer without a sort, which is how it is evaluated. -/
theorem answer_eq_chainWalk (earlier : ∀ entry ∈ inserted, entry < query.position) :
    query.answer buffer inserted =
      if query.maxLen < minLookahead then
        .unimproved query.bestLen
      else
        query.chainWalk buffer (query.shortCandidate buffer inserted)
          (query.chainBelow buffer inserted) := by
  rw [← newestFirst_longEntries earlier]
  rfl

theorem sharedWith_le (query : Query) (buffer : Buffer) (candidate : Nat) :
    query.sharedWith buffer candidate ≤ query.maxLen :=
  Buffer.sharedLength_le _ _ _

theorem mem_of_mem_candidates
    {candidate : Nat}
    (member : candidate ∈ query.candidates buffer inserted) :
    candidate ∈ inserted := by
  have listed := mem_newestFirst.mp (List.mem_of_mem_take member)
  exact (Finset.mem_filter.mp listed).1

theorem mem_of_candidates_eq_append
    {newer older : List Nat}
    {candidate : Nat}
    (split : query.candidates buffer inserted = newer ++ candidate :: older) :
    candidate ∈ inserted := by
  have listed : candidate ∈ query.candidates buffer inserted := by
    rw [split]
    exact List.mem_append_right newer (List.mem_cons_self ..)
  exact mem_of_mem_candidates listed

theorem mem_of_shortCandidate
    {candidate : Nat}
    (newest : query.shortCandidate buffer inserted = some candidate) :
    candidate ∈ inserted :=
  (Finset.mem_filter.mp (newest?_eq_some_iff.mp newest).1).1

theorem mem_longEntries_of_shared
    {candidate : Nat}
    (member : candidate ∈ inserted)
    (shared : 4 ≤ query.sharedWith buffer candidate) :
    candidate ∈ Index.longEntries buffer inserted (buffer.buckets query.position).long :=
  Finset.mem_filter.mpr ⟨member, (Buffer.long_buckets_eq shared).symm⟩

theorem opening_cases (newest : Option Nat) :
    query.opening buffer newest = .unimproved query.bestLen ∨
      ∃ candidate,
        newest = some candidate ∧
        query.opening buffer newest = ⟨3, query.position - candidate⟩ ∧
        query.bestLen < 3 ∧
        buffer.shortWindow candidate = buffer.shortWindow query.position := by
  cases newest with
  | none => exact .inl rfl
  | some candidate =>
      by_cases taken : query.bestLen < 3 ∧
          buffer.shortWindow candidate = buffer.shortWindow query.position
      · exact .inr ⟨candidate, rfl, if_pos taken, taken⟩
      · exact .inl (if_neg taken)

theorem opening_of_three_le (newest : Option Nat) (large : 3 ≤ query.bestLen) :
    query.opening buffer newest = .unimproved query.bestLen := by
  rcases opening_cases newest with unimproved | ⟨candidate, _, _, small, _⟩
  · exact unimproved
  · exact absurd small (Nat.not_lt.mpr large)

theorem opening_length_le (newest : Option Nat) :
    (query.opening buffer newest).length ≤ max query.bestLen 3 := by
  rcases opening_cases newest with unimproved | ⟨candidate, _, short, _⟩
  · rw [unimproved]
    exact Nat.le_max_left query.bestLen 3
  · rw [short]
    exact Nat.le_max_right query.bestLen 3

theorem le_opening_length (newest : Option Nat) :
    query.bestLen ≤ (query.opening buffer newest).length := by
  rcases opening_cases newest with unimproved | ⟨candidate, _, short, small, _⟩
  · rw [unimproved]
    exact Nat.le_refl query.bestLen
  · rw [short]
    exact Nat.le_of_lt small

theorem bestAlong_eq_of_none
    {positions : List Nat}
    {best : Match}
    (noneExceeds : ∀ candidate ∈ positions,
      ¬ (4 ≤ query.sharedWith buffer candidate ∧
        best.length < query.sharedWith buffer candidate)) :
    query.bestAlong buffer positions best = best := by
  induction positions with
  | nil => rfl
  | cons candidate older inductionHypothesis =>
      rw [bestAlong, if_neg (noneExceeds candidate (List.mem_cons_self ..))]
      exact inductionHypothesis fun other member =>
        noneExceeds other (List.mem_cons_of_mem candidate member)

/-- The walk keeps the match it was given or answers that of a candidate which shares
four bytes and exceeds it, and which shares more than each candidate before. -/
theorem bestAlong_split (positions : List Nat) (best : Match) :
    query.bestAlong buffer positions best = best ∨
      ∃ newer candidate older,
        positions = newer ++ candidate :: older ∧
        query.bestAlong buffer positions best = query.matchOf buffer candidate ∧
        4 ≤ query.sharedWith buffer candidate ∧
        best.length < query.sharedWith buffer candidate ∧
        ∀ other ∈ newer, query.sharedWith buffer other < query.sharedWith buffer candidate := by
  induction positions generalizing best with
  | nil => exact .inl rfl
  | cons first rest inductionHypothesis =>
      rw [bestAlong]
      by_cases taken : 4 ≤ query.sharedWith buffer first ∧
          best.length < query.sharedWith buffer first
      · have here : ∀ other ∈ ([] : List Nat),
            query.sharedWith buffer other < query.sharedWith buffer first := by
          simp
        rw [if_pos taken]
        split
        · exact .inr ⟨[], first, rest, rfl, rfl, taken.1, taken.2, here⟩
        · -- whatever follows exceeds this candidate, and so the first best match
          rcases inductionHypothesis (query.matchOf buffer first) with
            kept | ⟨newer, candidate, older, rfl, answered, shared, longer, shorter⟩
          · exact .inr ⟨[], first, rest, rfl, kept, taken.1, taken.2, here⟩
          · refine .inr ⟨first :: newer, candidate, older, rfl, answered, shared,
              Nat.lt_trans taken.2 longer, ?_⟩
            intro other member
            rcases List.mem_cons.mp member with rfl | later
            · exact longer
            · exact shorter other later
      · rw [if_neg taken]
        rcases inductionHypothesis best with
          kept | ⟨newer, candidate, older, rfl, answered, shared, longer, shorter⟩
        · exact .inl kept
        · refine .inr ⟨first :: newer, candidate, older, rfl, answered, shared, longer, ?_⟩
          intro other member
          rcases List.mem_cons.mp member with rfl | later
          · omega
          · exact shorter other later

theorem le_bestAlong_length (positions : List Nat) (best : Match) :
    best.length ≤ (query.bestAlong buffer positions best).length := by
  rcases bestAlong_split positions best with
    kept | ⟨newer, candidate, older, _, answered, _, longer, _⟩
  · rw [kept]
  · rw [answered]
    exact Nat.le_of_lt longer

/-- What a query can be answered with: nothing better, the short match, or the match of a
candidate which shares more than all candidates before it. -/
inductive Origin (query : Query) (buffer : Buffer) (inserted : Finset Nat) : Match → Prop where
  | unimproved : Origin query buffer inserted (.unimproved query.bestLen)
  | short
      {candidate : Nat}
      (wide : minLookahead ≤ query.maxLen)
      (newest : query.shortCandidate buffer inserted = some candidate)
      (small : query.bestLen < 3)
      (same : buffer.shortWindow candidate = buffer.shortWindow query.position) :
      Origin query buffer inserted ⟨3, query.position - candidate⟩
  | long
      {newer older : List Nat}
      {candidate : Nat}
      (split : query.candidates buffer inserted = newer ++ candidate :: older)
      (shared : 4 ≤ query.sharedWith buffer candidate)
      (longer : query.bestLen < query.sharedWith buffer candidate)
      (exceeds : ∀ other ∈ newer,
        query.sharedWith buffer other < query.sharedWith buffer candidate) :
      Origin query buffer inserted (query.matchOf buffer candidate)

theorem answer_origin (query : Query) (buffer : Buffer) (inserted : Finset Nat) :
    query.Origin buffer inserted (query.answer buffer inserted) := by
  by_cases narrow : query.maxLen < minLookahead
  · rw [answer, if_pos narrow]
    exact .unimproved
  rw [answer, if_neg narrow, bestAmong]
  split
  · exact .unimproved
  rcases bestAlong_split (query.candidates buffer inserted)
      (query.opening buffer (query.shortCandidate buffer inserted)) with
    kept | ⟨newer, candidate, older, split, answered, shared, longer, exceeds⟩
  · rw [kept]
    rcases opening_cases (query.shortCandidate buffer inserted) with
      unimproved | ⟨candidate, newest, short, small, same⟩
    · rw [unimproved]
      exact .unimproved
    · rw [short]
      exact .short (Nat.le_of_not_lt narrow) newest small same
  · rw [answered]
    exact .long split shared (Nat.lt_of_le_of_lt (le_opening_length _) longer) exceeds

end Query

namespace Search

/-- The search of a query in a buffer, along the given links. -/
def ofQuery (query : Query) (buffer : Buffer) (links : Array Slot) : Search where
  links := links
  buffer := buffer
  position := query.position
  window := buffer.window query.position
  maxLen := query.maxLen
  niceLen := query.niceLen

section Phases

variable {query : Query} {buffer : Buffer} {links : Array Slot} {candidate : Nat}

/-- A match of at least five bytes is permitted and ends inside the buffer. -/
structure Feasible (query : Query) (buffer : Buffer) : Prop where
  wide : minLookahead ≤ query.maxLen
  inside : query.position + query.maxLen ≤ buffer.size

theorem window_eq_iff_shared (feasible : Feasible query buffer) :
    buffer.window candidate = buffer.window query.position ↔
      4 ≤ query.sharedWith buffer candidate := by
  have wide : 4 ≤ query.maxLen := Nat.le_trans (by decide) feasible.wide
  rw [eq_comm, Buffer.window_eq_iff_le_sharedLength wide, Query.sharedWith]

theorem matchWith_eq
    (feasible : Feasible query buffer)
    (earlier : candidate < query.position)
    (shared : 4 ≤ query.sharedWith buffer candidate) :
    (ofQuery query buffer links).matchWith candidate = .ok (query.matchOf buffer candidate) := by
  have extended := Buffer.extend_eq_sharedLength (Nat.le_of_lt earlier) feasible.inside shared
  simp only [matchWith, ofQuery, extended]
  rfl

theorem word32At_candidate
    (feasible : Feasible query buffer)
    (earlier : candidate < query.position) :
    buffer.word32At candidate = .ok (buffer.window candidate) := by
  have wide := feasible.wide
  have inside := feasible.inside
  simp only [minLookahead] at wide
  exact Buffer.word32At_eq_window (by omega)

/-- The filter before a comparison reads inside the buffer and accepts exactly
the candidates that agree on the next byte and on the first four. -/
theorem mayExceed_eq
    (feasible : Feasible query buffer)
    (earlier : candidate < query.position)
    {length : Nat}
    (short : length < query.maxLen) :
    (ofQuery query buffer links).mayExceed candidate length =
      .ok (decide (buffer.byte (query.position + length) = buffer.byte (candidate + length) ∧
        4 ≤ query.sharedWith buffer candidate)) := by
  have inside := feasible.inside
  have left := Buffer.byteAt_eq_byte (show candidate + length < buffer.size by omega)
  have right := Buffer.byteAt_eq_byte (show query.position + length < buffer.size by omega)
  simp only [mayExceed, ofQuery, left, right, word32At_candidate feasible earlier, bind,
    Except.bind, pure, Except.pure, window_eq_iff_shared feasible, eq_comm,
    Bool.decide_and]
  split
  · rename_i equal
    simp only [equal, decide_true, Bool.true_and]
  · rename_i different
    simp only [different, decide_false, Bool.false_and]

section Visit

variable {slot next : Slot} {best : Match}

theorem improveCounting_visit
    (feasible : Feasible query buffer)
    (earlier : candidate < query.position)
    (occupied : slot.position? = some candidate)
    (linked : Index.linkAt links candidate = .ok next)
    (budget : Nat)
    (short : best.length < query.maxLen) :
    (ofQuery query buffer links).improveCounting (budget + 1) slot best =
      countNode (if 4 ≤ query.sharedWith buffer candidate ∧
          best.length < query.sharedWith buffer candidate then
        if query.niceLen ≤ query.sharedWith buffer candidate then
          .ok (query.matchOf buffer candidate, 0)
        else
          (ofQuery query buffer links).improveCounting budget next
            (query.matchOf buffer candidate)
      else
        (ofQuery query buffer links).improveCounting budget next best) := by
  have linked' : Index.linkAt (ofQuery query buffer links).links candidate = .ok next := linked
  simp only [improveCounting, occupied, linked', mayExceed_eq feasible earlier short, bind,
    Except.bind, decide_eq_true_eq]
  by_cases passes : buffer.byte (query.position + best.length) =
      buffer.byte (candidate + best.length) ∧ 4 ≤ query.sharedWith buffer candidate
  · rw [if_pos passes, matchWith_eq feasible earlier passes.2]
    simp only [passes.2, true_and, Query.matchOf]
    rfl
  · have rejected : ¬ (4 ≤ query.sharedWith buffer candidate ∧
        best.length < query.sharedWith buffer candidate) :=
      fun taken => passes ⟨Buffer.byte_eq_of_lt_sharedLength taken.2, taken.1⟩
    rw [if_neg passes, if_neg rejected]

theorem discoverCounting_visit
    (feasible : Feasible query buffer)
    (earlier : candidate < query.position)
    (occupied : slot.position? = some candidate)
    (linked : Index.linkAt links candidate = .ok next)
    (budget : Nat) :
    (ofQuery query buffer links).discoverCounting (budget + 1) slot best =
      countNode (if 4 ≤ query.sharedWith buffer candidate then
        if query.niceLen ≤ query.sharedWith buffer candidate then
          .ok (query.matchOf buffer candidate, 0)
        else
          (ofQuery query buffer links).improveCounting budget next
            (query.matchOf buffer candidate)
      else
        (ofQuery query buffer links).discoverCounting budget next best) := by
  have linked' : Index.linkAt (ofQuery query buffer links).links candidate = .ok next := linked
  have read : (ofQuery query buffer links).buffer.word32At candidate =
      .ok (buffer.window candidate) :=
    word32At_candidate feasible earlier
  have same : buffer.window candidate = (ofQuery query buffer links).window ↔
      4 ≤ query.sharedWith buffer candidate :=
    window_eq_iff_shared feasible
  simp only [discoverCounting, occupied, linked', read, bind, Except.bind, same]
  by_cases shared : 4 ≤ query.sharedWith buffer candidate
  · rw [if_pos shared, if_pos shared, matchWith_eq feasible earlier shared]
    rfl
  · rw [if_neg shared, if_neg shared]

end Visit

/-- The second phase takes what the bytewise walk takes, and counts the nodes that
the walk visits. -/
theorem improveCounting_eq
    (feasible : Feasible query buffer)
    (nice : query.niceLen ≤ query.maxLen)
    {slot : Slot}
    {positions : List Nat}
    (walk : Index.Walk links slot positions)
    (earlier : ∀ candidate ∈ positions, candidate < query.position)
    (budget : Nat)
    {best : Match}
    (unfinished : best.length < query.niceLen) :
    (ofQuery query buffer links).improveCounting budget slot best =
      .ok (query.bestAlong buffer (positions.take budget) best,
        query.nodesAlong buffer (positions.take budget) best) := by
  induction walk generalizing budget best with
  | stop vacant =>
      cases budget with
      | zero => rfl
      | succ budget =>
          simp only [improveCounting, vacant, List.take_nil, Query.bestAlong, Query.nodesAlong]
  | @visit slot next candidate older occupied linked rest inductionHypothesis =>
      cases budget with
      | zero => rfl
      | succ budget =>
          have olderEarlier : ∀ other ∈ older, other < query.position :=
            fun other member => earlier other (List.mem_cons_of_mem candidate member)
          rw [improveCounting_visit feasible (earlier candidate (List.mem_cons_self ..)) occupied
            linked budget (Nat.lt_of_lt_of_le unfinished nice), List.take_succ_cons,
            Query.bestAlong, Query.nodesAlong]
          split
          · split
            · rfl
            · rw [inductionHypothesis olderEarlier budget (Nat.lt_of_not_le (by assumption))]
              rfl
          · rw [inductionHypothesis olderEarlier budget unfinished]
            rfl

/-- Both phases together do the same from a best match of fewer than four bytes. -/
theorem discoverCounting_eq
    (feasible : Feasible query buffer)
    (nice : query.niceLen ≤ query.maxLen)
    {slot : Slot}
    {positions : List Nat}
    (walk : Index.Walk links slot positions)
    (earlier : ∀ candidate ∈ positions, candidate < query.position)
    (budget : Nat)
    {best : Match}
    (small : best.length < 4) :
    (ofQuery query buffer links).discoverCounting budget slot best =
      .ok (query.bestAlong buffer (positions.take budget) best,
        query.nodesAlong buffer (positions.take budget) best) := by
  induction walk generalizing budget with
  | stop vacant =>
      cases budget with
      | zero => rfl
      | succ budget =>
          simp only [discoverCounting, vacant, List.take_nil, Query.bestAlong, Query.nodesAlong]
  | @visit slot next candidate older occupied linked rest inductionHypothesis =>
      cases budget with
      | zero => rfl
      | succ budget =>
          have olderEarlier : ∀ other ∈ older, other < query.position :=
            fun other member => earlier other (List.mem_cons_of_mem candidate member)
          rw [discoverCounting_visit feasible (earlier candidate (List.mem_cons_self ..)) occupied
            linked budget, List.take_succ_cons, Query.bestAlong, Query.nodesAlong]
          by_cases shared : 4 ≤ query.sharedWith buffer candidate
          · have taken : 4 ≤ query.sharedWith buffer candidate ∧
                best.length < query.sharedWith buffer candidate :=
              ⟨shared, Nat.lt_of_lt_of_le small shared⟩
            rw [if_pos shared, if_pos taken, if_pos taken]
            split
            · rfl
            · rw [improveCounting_eq feasible nice rest olderEarlier budget
                (Nat.lt_of_not_le (by assumption))]
              rfl
          · have passed : ¬ (4 ≤ query.sharedWith buffer candidate ∧
                best.length < query.sharedWith buffer candidate) :=
              fun taken => shared taken.1
            rw [if_neg shared, if_neg passed, if_neg passed,
              inductionHypothesis olderEarlier budget]
            rfl

/-! ### The whole search -/

theorem shortMatch_eq
    (feasible : Feasible query buffer)
    (earlier : candidate < query.position) :
    (ofQuery query buffer links).shortMatch candidate query.bestLen =
      .ok (query.opening buffer (some candidate)) := by
  have wide := feasible.wide
  have inside := feasible.inside
  simp only [minLookahead] at wide
  have read := Buffer.word24At_eq_shortWindow (show candidate + 2 < buffer.size by omega)
  simp only [shortMatch, ofQuery, read, Buffer.firstThree_window, Query.opening, bind,
    Except.bind, pure, Except.pure]
  by_cases small : query.bestLen < 3
  · rw [if_pos small]
    by_cases equal : buffer.shortWindow candidate = buffer.shortWindow query.position
    · rw [if_pos equal, if_pos ⟨small, equal⟩]
    · rw [if_neg equal, if_neg fun both => equal both.2]
  · rw [if_neg small, if_neg fun both => small both.1]

theorem not_shared_of_shortCandidate_eq_none
    {inserted : Finset Nat}
    (vacant : query.shortCandidate buffer inserted = none)
    (member : candidate ∈ inserted) :
    ¬ 4 ≤ query.sharedWith buffer candidate := by
  intro shared
  have same := Buffer.short_buckets_eq_of_shared (Nat.le_of_succ_le shared)
  have present : candidate ∈
      Index.shortEntries buffer inserted (buffer.buckets query.position).short :=
    Finset.mem_filter.mpr ⟨member, same.symm⟩
  rw [newest?_eq_none_iff.mp vacant] at present
  cases present

/-- The search along the links from the earlier occupants of the position's buckets
answers what the walk over the chain answers, and counts the nodes that the walk
visits.  An empty short bucket ends it before the first node, which is right if no
node of the chain shares four bytes. -/
theorem runCounting_eq
    {occupants : Occupants}
    {newest : Option Nat}
    {chain : List Nat}
    (feasible : Feasible query buffer)
    (nice : query.niceLen ≤ query.maxLen)
    (short : occupants.short.position? = newest)
    (walk : Index.Walk links occupants.long chain)
    (newestEarlier : ∀ candidate ∈ newest, candidate < query.position)
    (chainEarlier : ∀ candidate ∈ chain, candidate < query.position)
    (linked : newest = none →
      ∀ candidate ∈ chain, ¬ 4 ≤ query.sharedWith buffer candidate) :
    (ofQuery query buffer links).runCounting occupants query.bestLen query.maxDepth =
      .ok (query.chainWalk buffer newest chain,
        if query.bestLen < 4 ∧ newest = none then 0
        else query.chainNodes buffer newest chain) := by
  rw [runCounting, Query.chainWalk, Query.chainNodes, short]
  by_cases small : query.bestLen < 4
  · have searching : ¬ (4 ≤ query.bestLen ∧ query.niceLen ≤ query.bestLen) := by omega
    rw [if_pos small, if_neg searching, if_neg searching]
    cases newest with
    | none =>
        rw [if_pos ⟨small, rfl⟩, Query.bestAlong_eq_of_none]
        · rfl
        · intro candidate listed taken
          exact linked rfl candidate (List.mem_of_mem_take listed) taken.1
    | some candidate =>
        have occupied : ¬ (query.bestLen < 4 ∧ some candidate = none) :=
          fun vacant => Option.some_ne_none candidate vacant.2
        rw [if_neg occupied]
        simp only [shortMatch_eq feasible (newestEarlier candidate rfl), bind, Except.bind]
        exact discoverCounting_eq feasible nice walk chainEarlier query.maxDepth
          (Nat.lt_of_le_of_lt (Query.opening_length_le _) (by omega))
  · have large : ¬ (query.bestLen < 4 ∧ newest = none) := fun both => small both.1
    rw [if_neg small, if_neg large]
    by_cases enough : query.niceLen ≤ query.bestLen
    · have enough' : (ofQuery query buffer links).niceLen ≤ query.bestLen := enough
      have finished : 4 ≤ query.bestLen ∧ query.niceLen ≤ query.bestLen :=
        ⟨Nat.le_of_not_lt small, enough⟩
      rw [if_pos enough', if_pos finished, if_pos finished]
    · have enough' : ¬ (ofQuery query buffer links).niceLen ≤ query.bestLen := enough
      have unfinished : ¬ (4 ≤ query.bestLen ∧ query.niceLen ≤ query.bestLen) :=
        fun both => enough both.2
      rw [if_neg enough', if_neg unfinished, if_neg unfinished,
        Query.opening_of_three_le _ (by omega)]
      exact improveCounting_eq feasible nice walk chainEarlier query.maxDepth
        (Nat.lt_of_not_le enough)

/-- For tables that hold the inserted positions the search answers the best match
among them. -/
theorem run_eq
    {inserted : Finset Nat}
    {occupants : Occupants}
    (feasible : Feasible query buffer)
    (nice : query.niceLen ≤ query.maxLen)
    (earlier : ∀ entry ∈ inserted, entry < query.position)
    (short : occupants.short.position? = query.shortCandidate buffer inserted)
    (walk : Index.Walk links occupants.long
      (newestFirst (Index.longEntries buffer inserted (buffer.buckets query.position).long))) :
    (ofQuery query buffer links).run occupants query.bestLen query.maxDepth =
      .ok (query.bestAmong buffer inserted) := by
  rw [← erased_runCounting, runCounting_eq feasible nice short walk]
  · rfl
  · intro candidate newest
    exact earlier candidate (Query.mem_of_shortCandidate newest)
  · intro candidate listed
    exact earlier candidate (Finset.mem_filter.mp (mem_newestFirst.mp listed)).1
  · intro vacant candidate listed
    exact not_shared_of_shortCandidate_eq_none vacant
      (Finset.mem_filter.mp (mem_newestFirst.mp listed)).1

end Phases

end Search

namespace Scan

/-- A search on tables that hold the earlier positions and the query's own, whose
buckets held the given occupants before. -/
theorem bestMatch_eq
    {query : Query}
    {scan : Scan}
    {inserted : Finset Nat}
    {occupants : Occupants}
    (feasible : Search.Feasible query scan.buffer)
    (nice : query.niceLen ≤ query.maxLen)
    (earlier : ∀ entry ∈ inserted, entry < query.position)
    (holds : scan.index.Holds scan.buffer (inserted ∪ {query.position}))
    (short : occupants.short.position? = query.shortCandidate scan.buffer inserted)
    (long : occupants.long.position? = newest? (Index.longEntries scan.buffer inserted
      (scan.buffer.buckets query.position).long)) :
    bestMatch query occupants scan = .ok (query.bestAmong scan.buffer inserted) := by
  have wide := feasible.wide
  have inside := feasible.inside
  simp only [minLookahead] at wide
  rw [bestMatch, Buffer.word32At_eq_window (by omega)]
  exact Search.run_eq feasible nice earlier short (holds.walk_replaced earlier long)

end Scan

end LempelZiv
