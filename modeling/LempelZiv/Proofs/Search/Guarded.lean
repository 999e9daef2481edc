import LempelZiv.Proofs.Search.Reference

/-!
Contract: the search on a machine of 32-bit cells, with every operation checked.

Owns:
- what can go wrong below the rules of the index, and the operations that check for it;
- the search with its table numbers, its ranges of the buffer, its narrowed numbers and its
  differences checked in this way;
- the agreement of both phases and of the whole search with the unchecked ones, as long as
  the chain lies before the position that is searched.

Does not own: the steps of a scan, nor that chains lie there.

A natural number is never cut off and a difference of natural numbers never falls below
zero, so the unchecked search cannot show that a machine would do neither.  The reads of
single bytes, windows and links are checked in the unchecked search already.
-/

namespace LempelZiv

namespace Buffer

theorem agreeingBytes_le (width : Nat) (left right : UInt64) :
    agreeingBytes width left right ≤ width := by
  induction width generalizing left right with
  | zero => exact Nat.le_refl 0
  | succ width inductionHypothesis =>
      rw [agreeingBytes]
      split
      · exact Nat.succ_le_succ (inductionHypothesis _ _)
      · exact Nat.zero_le _

theorem firstDifference_le
    {left right : UInt64}
    {place : Nat}
    (differs : firstDifference left right = some place) :
    place ≤ 8 := by
  unfold firstDifference at differs
  split at differs
  · cases differs
  · cases differs
    exact agreeingBytes_le 8 left right

end Buffer

/-- What goes wrong on a machine that keeps positions, lengths and offsets in 32 bits. -/
inductive Fault where
  /-- A rule of the index is broken, or a read or a write leaves its table or buffer. -/
  | violation (violation : Violation)
  /-- A range ends before it begins or past the end of its buffer. -/
  | rangeOutside (size first stop : Nat)
  /-- A number does not fit 32 bits. -/
  | truncated (number : Nat)
  /-- A position to be stored reads as an empty cell. -/
  | reserved (position : Nat)
  /-- A difference falls below zero. -/
  | underflow (minuend subtrahend : Nat)
deriving DecidableEq, Repr

namespace Guarded

/-! ### Checked operations -/

/-- An outcome that may break a rule, as one that may have a fault. -/
def lift {α : Type} : Except Violation α → Except Fault α
  | .ok answer => .ok answer
  | .error violation => .error (.violation violation)

/-- Keep 32 bits of a number. -/
def narrow (number : Nat) : Except Fault Nat :=
  if number < 2 ^ 32 then .ok number else .error (.truncated number)

def difference (minuend subtrahend : Nat) : Except Fault Nat :=
  if subtrahend ≤ minuend then
    .ok (minuend - subtrahend)
  else
    .error (.underflow minuend subtrahend)

/-- A range of a buffer of `size` bytes. -/
def range (size first stop : Nat) : Except Fault Unit :=
  if first ≤ stop ∧ stop ≤ size then .ok () else .error (.rangeOutside size first stop)

/-- A place in a table of `size` cells. -/
def cell (size place : Nat) : Except Fault Unit :=
  if place < size then .ok () else .error (.violation (.indexOutOfBounds size place))

/-- A position on its way into a cell. -/
def storable (position : Nat) : Except Fault Unit := do
  let kept ← narrow position
  if kept = Slot.limit then
    .error (.reserved position)
  else
    pure ()

/-- The bucket of a window, in a table for so many bits. -/
def bucket (window : UInt32) (order : Nat) : Except Fault Unit := do
  let _ ← difference 32 order
  cell (1 <<< order) (multiplicativeHash window order).toNat

/-- Both buckets of `position`. -/
def buckets (buffer : Buffer) (position : Nat) : Except Fault Buckets := do
  let window ← lift (buffer.word32At position)
  bucket (Buffer.firstThree window) shortOrder
  bucket window longOrder
  pure (Buckets.ofWindow window)

section Operations

theorem lift_ok {α : Type} (answer : α) : lift (.ok answer) = .ok answer := rfl

theorem lift_bind
    {α β : Type}
    (outcome : Except Violation α)
    (next : α → Except Violation β) :
    lift (outcome >>= next) = lift outcome >>= fun answer => lift (next answer) := by
  cases outcome <;> rfl

theorem lift_ite
    {α : Type}
    (condition : Prop)
    [Decidable condition]
    (first second : Except Violation α) :
    lift (if condition then first else second) =
      if condition then lift first else lift second :=
  apply_ite lift condition first second

theorem ok_bind {α β : Type} (answer : α) (next : α → Except Fault β) :
    (Except.ok answer >>= next) = next answer := rfl

theorem narrow_eq_ok_iff {number : Nat} : narrow number = .ok number ↔ number < 2 ^ 32 := by
  unfold narrow
  split
  · rename_i fits
    simp only [fits]
  · rename_i exceeds
    simp only [exceeds, reduceCtorEq]

theorem difference_eq_ok_iff {minuend subtrahend : Nat} :
    difference minuend subtrahend = .ok (minuend - subtrahend) ↔ subtrahend ≤ minuend := by
  unfold difference
  split
  · rename_i atMost
    simp only [atMost]
  · rename_i exceeds
    simp only [exceeds, reduceCtorEq]

theorem range_eq_ok_iff {size first stop : Nat} :
    range size first stop = .ok () ↔ first ≤ stop ∧ stop ≤ size := by
  unfold range
  split
  · rename_i inside
    simp only [inside, and_self]
  · rename_i outside
    simp only [outside, reduceCtorEq]

theorem cell_eq_ok_iff {size place : Nat} : cell size place = .ok () ↔ place < size := by
  unfold cell
  split
  · rename_i inside
    simp only [inside]
  · rename_i outside
    simp only [outside, reduceCtorEq]

theorem lt_two_pow_of_lt_limit {number : Nat} (addressable : number < Slot.limit) :
    number < 2 ^ 32 :=
  Nat.lt_trans addressable (by decide)

/-- A cell can tell exactly the positions below the limit from no position. -/
theorem storable_eq_ok_iff {position : Nat} :
    storable position = .ok () ↔ position < Slot.limit := by
  constructor
  · intro stored
    unfold storable narrow at stored
    split at stored
    · rename_i fits
      rw [ok_bind] at stored
      split at stored
      · cases stored
      · rename_i different
        exact Nat.lt_of_le_of_ne (Nat.le_of_lt_succ fits) different
    · cases stored
  · intro addressable
    rw [storable, narrow_eq_ok_iff.mpr (lt_two_pow_of_lt_limit addressable), ok_bind,
      if_neg (Nat.ne_of_lt addressable)]
    rfl

theorem bucket_eq_ok
    (window : UInt32)
    {order : Nat}
    (positive : 0 < order)
    (atMost : order ≤ 32) :
    bucket window order = .ok () := by
  rw [bucket, difference_eq_ok_iff.mpr atMost, ok_bind,
    cell_eq_ok_iff.mpr (toNat_multiplicativeHash_lt window positive atMost)]

theorem buckets_eq_ok
    {buffer : Buffer}
    {position : Nat}
    (inside : position + 4 ≤ buffer.size) :
    buckets buffer position = .ok (buffer.buckets position) := by
  rw [buckets, Buffer.word32At_eq_window inside, lift_ok, ok_bind,
    bucket_eq_ok _ (by decide) (by decide), ok_bind,
    bucket_eq_ok _ (by decide) (by decide), ok_bind]
  rfl

end Operations

/-! ### Common prefixes -/

/-- Extend a common prefix; the two ranges that are left for the comparison byte by byte
are taken as a whole before. -/
def extend (buffer : Buffer) (later earlier length limit : Nat) : Except Fault Nat :=
  if length + 8 ≤ limit then do
    let left ← lift (buffer.word64At (later + length))
    let right ← lift (buffer.word64At (earlier + length))
    match Buffer.firstDifference left right with
    | some place => narrow (length + place)
    | none => extend buffer later earlier (length + 8) limit
  else do
    range buffer.size (later + length) (later + limit)
    range buffer.size (earlier + length) buffer.size
    let total ← lift (buffer.extendByBytes later earlier length limit)
    narrow total
termination_by limit - length

/-- Extension stays in the buffer, and its length in 32 bits if the limit does. -/
theorem extend_eq_lift
    {buffer : Buffer}
    {later earlier length limit : Nat}
    (fits : limit < 2 ^ 32)
    (before : earlier ≤ later)
    (atMost : length ≤ limit)
    (inside : later + limit ≤ buffer.size) :
    extend buffer later earlier length limit =
      lift (buffer.extend later earlier length limit) := by
  have narrowed : ∀ {number : Nat}, number ≤ limit → narrow number = .ok number :=
    fun bounded => narrow_eq_ok_iff.mpr (Nat.lt_of_le_of_lt bounded fits)
  rw [extend, Buffer.extend]
  by_cases wordFits : length + 8 ≤ limit
  · rw [if_pos wordFits, if_pos wordFits, Buffer.word64At_eq_bytes (by omega),
      Buffer.word64At_eq_bytes (by omega)]
    simp only [lift_ok, bind, Except.bind]
    cases differs : Buffer.firstDifference _ _ with
    | some place =>
        have eight := Buffer.firstDifference_le differs
        exact narrowed (by omega)
    | none => exact extend_eq_lift fits before wordFits inside
  · have first : range buffer.size (later + length) (later + limit) = .ok () :=
      range_eq_ok_iff.mpr ⟨by omega, inside⟩
    have second : range buffer.size (earlier + length) buffer.size = .ok () :=
      range_eq_ok_iff.mpr ⟨by omega, Nat.le_refl _⟩
    have shared := buffer.sharedLength_le (later + length) (earlier + length) (limit - length)
    rw [if_neg wordFits, if_neg wordFits, first, second,
      Buffer.extendByBytes_eq_ok before atMost inside]
    exact narrowed (by omega)
termination_by limit - length

/-! ### Phases -/

/-- How far back `candidate` lies, as a checked difference of 32 bits. -/
def offsetOf (search : Search) (candidate : Nat) : Except Fault Nat := do
  let back ← difference search.position candidate
  narrow back

/-- The match with `candidate`.  Its offset is checked as soon as it is found, whether it is
answered in the end or not. -/
def matchWith (search : Search) (candidate : Nat) : Except Fault Match := do
  let length ← extend search.buffer search.position candidate 4 search.maxLen
  let offset ← offsetOf search candidate
  pure ⟨length, offset⟩

/-- The second phase. -/
def improve (search : Search) : (budget : Nat) → Slot → (best : Match) → Except Fault Match
  | 0, _, best => .ok best
  | budget + 1, slot, best =>
      match slot.position? with
      | none => .ok best
      | some candidate => do
          let next ← lift (Index.linkAt search.links candidate)
          if ← lift (search.mayExceed candidate best.length) then
            let found ← matchWith search candidate
            if best.length < found.length then
              if search.niceLen ≤ found.length then
                pure found
              else
                improve search budget next found
            else
              improve search budget next best
          else
            improve search budget next best

/-- The first phase and what follows it. -/
def discover (search : Search) : (budget : Nat) → Slot → (best : Match) → Except Fault Match
  | 0, _, best => .ok best
  | budget + 1, slot, best =>
      match slot.position? with
      | none => .ok best
      | some candidate => do
          let next ← lift (Index.linkAt search.links candidate)
          let window ← lift (search.buffer.word32At candidate)
          if window = search.window then
            let found ← matchWith search candidate
            if search.niceLen ≤ found.length then
              pure found
            else
              improve search budget next found
          else
            discover search budget next best

/-- The match of three bytes. -/
def shortMatch (search : Search) (candidate bestLen : Nat) : Except Fault Match := do
  if bestLen < 3 then
    let window ← lift (search.buffer.word24At candidate)
    if window = Buffer.firstThree search.window then
      let offset ← offsetOf search candidate
      pure ⟨3, offset⟩
    else
      pure (.unimproved bestLen)
  else
    pure (.unimproved bestLen)

/-- The whole search. -/
def run (search : Search) (occupants : Occupants) (bestLen maxDepth : Nat) :
    Except Fault Match :=
  if bestLen < 4 then
    match occupants.short.position? with
    | none => .ok (.unimproved bestLen)
    | some candidate => do
        let best ← shortMatch search candidate bestLen
        discover search maxDepth occupants.long best
  else if search.niceLen ≤ bestLen then
    .ok (.unimproved bestLen)
  else
    improve search maxDepth occupants.long (.unimproved bestLen)

section Phases

variable {query : Query} {buffer : Buffer} {links : Array Slot} {candidate : Nat}

theorem offsetOf_eq_ok
    (addressable : buffer.size < Slot.limit)
    (feasible : Search.Feasible query buffer)
    (earlier : candidate < query.position) :
    offsetOf (Search.ofQuery query buffer links) candidate =
      .ok (query.position - candidate) := by
  have inside := feasible.inside
  have offset : query.position - candidate < 2 ^ 32 := lt_two_pow_of_lt_limit (by omega)
  simp only [offsetOf, Search.ofQuery, difference_eq_ok_iff.mpr (Nat.le_of_lt earlier), ok_bind,
    narrow_eq_ok_iff.mpr offset]

theorem matchWith_eq_lift
    (addressable : buffer.size < Slot.limit)
    (feasible : Search.Feasible query buffer)
    (earlier : candidate < query.position) :
    matchWith (Search.ofQuery query buffer links) candidate =
      lift ((Search.ofQuery query buffer links).matchWith candidate) := by
  have four : 4 ≤ query.maxLen := Nat.le_trans (by decide) feasible.wide
  have inside := feasible.inside
  have fits : query.maxLen < 2 ^ 32 := lt_two_pow_of_lt_limit (by omega)
  have extended : extend buffer query.position candidate 4 query.maxLen =
      lift (buffer.extend query.position candidate 4 query.maxLen) :=
    extend_eq_lift fits (Nat.le_of_lt earlier) four inside
  rw [matchWith, Search.matchWith, lift_bind, offsetOf_eq_ok addressable feasible earlier]
  simp only [Search.ofQuery, extended, ok_bind]
  rfl

theorem shortMatch_eq_lift
    (addressable : buffer.size < Slot.limit)
    (feasible : Search.Feasible query buffer)
    (earlier : candidate < query.position)
    (bestLen : Nat) :
    shortMatch (Search.ofQuery query buffer links) candidate bestLen =
      lift ((Search.ofQuery query buffer links).shortMatch candidate bestLen) := by
  rw [shortMatch, Search.shortMatch, offsetOf_eq_ok addressable feasible earlier]
  simp only [lift_ite, lift_bind, ok_bind]
  rfl

theorem improve_eq_lift
    (addressable : buffer.size < Slot.limit)
    (feasible : Search.Feasible query buffer)
    {slot : Slot}
    {positions : List Nat}
    (walk : Index.Walk links slot positions)
    (earlier : ∀ candidate ∈ positions, candidate < query.position)
    (budget : Nat)
    (best : Match) :
    improve (Search.ofQuery query buffer links) budget slot best =
      lift ((Search.ofQuery query buffer links).improve budget slot best) := by
  -- on the walk and not on the budget, because a node of the walk comes with its link
  induction walk generalizing budget best with
  | stop vacant =>
      cases budget with
      | zero => rfl
      | succ budget =>
          rw [improve, Search.improve, vacant]
          rfl
  | @visit slot next candidate older occupied linked rest inductionHypothesis =>
      cases budget with
      | zero => rfl
      | succ budget =>
          have linked' : Index.linkAt (Search.ofQuery query buffer links).links candidate =
              .ok next :=
            linked
          have matched : matchWith (Search.ofQuery query buffer links) candidate = _ :=
            matchWith_eq_lift addressable feasible (earlier candidate (List.mem_cons_self ..))
          have following := inductionHypothesis fun other member =>
            earlier other (List.mem_cons_of_mem candidate member)
          rw [improve, Search.improve, occupied]
          simp only [linked', lift_ok, lift_bind, lift_ite, matched]
          simp only [bind, Except.bind, following]
          rfl

theorem discover_eq_lift
    (addressable : buffer.size < Slot.limit)
    (feasible : Search.Feasible query buffer)
    {slot : Slot}
    {positions : List Nat}
    (walk : Index.Walk links slot positions)
    (earlier : ∀ candidate ∈ positions, candidate < query.position)
    (budget : Nat)
    (best : Match) :
    discover (Search.ofQuery query buffer links) budget slot best =
      lift ((Search.ofQuery query buffer links).discover budget slot best) := by
  induction walk generalizing budget best with
  | stop vacant =>
      cases budget with
      | zero => rfl
      | succ budget =>
          rw [discover, Search.discover, vacant]
          rfl
  | @visit slot next candidate older occupied linked rest inductionHypothesis =>
      cases budget with
      | zero => rfl
      | succ budget =>
          have linked' : Index.linkAt (Search.ofQuery query buffer links).links candidate =
              .ok next :=
            linked
          have earlierRest : ∀ other ∈ older, other < query.position := fun other member =>
            earlier other (List.mem_cons_of_mem candidate member)
          have matched : matchWith (Search.ofQuery query buffer links) candidate = _ :=
            matchWith_eq_lift addressable feasible (earlier candidate (List.mem_cons_self ..))
          have improved := improve_eq_lift addressable feasible rest earlierRest
          have following := inductionHypothesis earlierRest
          rw [discover, Search.discover, occupied]
          simp only [linked', lift_ok, lift_bind, lift_ite, matched]
          simp only [bind, Except.bind, improved, following]
          rfl

/-- The whole search has no fault of its own: on a chain before the query's position it
answers, or breaks a rule, exactly as the unchecked one. -/
theorem run_eq_lift
    (addressable : buffer.size < Slot.limit)
    (feasible : Search.Feasible query buffer)
    {occupants : Occupants}
    {positions : List Nat}
    (walk : Index.Walk links occupants.long positions)
    (earlier : ∀ candidate ∈ positions, candidate < query.position)
    (shortEarlier : ∀ candidate, occupants.short.position? = some candidate →
      candidate < query.position)
    (bestLen maxDepth : Nat) :
    run (Search.ofQuery query buffer links) occupants bestLen maxDepth =
      lift ((Search.ofQuery query buffer links).run occupants bestLen maxDepth) := by
  have discovered := discover_eq_lift addressable feasible walk earlier maxDepth
  have improved := improve_eq_lift addressable feasible walk earlier maxDepth
  rw [run, Search.run]
  by_cases short : bestLen < 4
  · rw [if_pos short, if_pos short]
    cases held : occupants.short.position? with
    | none => rfl
    | some candidate =>
        simp only [shortMatch_eq_lift addressable feasible (shortEarlier candidate held),
          discovered, lift_bind]
  · rw [if_neg short, if_neg short, lift_ite, improved]
    rfl

end Phases

end Guarded

end LempelZiv
