import LempelZiv.Scan.Search

/-!
Contract: a search that also answers how many chain nodes it inspected.

Owns:
- both phases and the whole search, with a count of the nodes they take from the
  budget that they share;
- the erasure of the count, which leaves exactly the search.

A node is counted when the walk arrives at it, whatever the filters make of it.
Does not own: how many nodes that is.
-/

namespace LempelZiv.Search

/-- The outcome after one chain node more. -/
def countNode (outcome : Except Violation (Match × Nat)) : Except Violation (Match × Nat) :=
  outcome.map fun (best, nodes) => (best, nodes + 1)

/-- The second phase, with the number of nodes it inspected. -/
def improveCounting (search : Search) : (budget : Nat) → Slot → (best : Match) →
    Except Violation (Match × Nat)
  | 0, _, best => .ok (best, 0)
  | budget + 1, slot, best =>
      match slot.position? with
      | none => .ok (best, 0)
      | some candidate => countNode do
          let next ← Index.linkAt search.links candidate
          if ← search.mayExceed candidate best.length then
            let found ← search.matchWith candidate
            if best.length < found.length then
              if search.niceLen ≤ found.length then
                pure (found, 0)
              else
                improveCounting search budget next found
            else
              improveCounting search budget next best
          else
            improveCounting search budget next best

/-- The first phase and what follows it, with the number of nodes inspected. -/
def discoverCounting (search : Search) : (budget : Nat) → Slot → (best : Match) →
    Except Violation (Match × Nat)
  | 0, _, best => .ok (best, 0)
  | budget + 1, slot, best =>
      match slot.position? with
      | none => .ok (best, 0)
      | some candidate => countNode do
          let next ← Index.linkAt search.links candidate
          let window ← search.buffer.word32At candidate
          if window = search.window then
            let found ← search.matchWith candidate
            if search.niceLen ≤ found.length then
              pure (found, 0)
            else
              improveCounting search budget next found
          else
            discoverCounting search budget next best

/-- The whole search, with the number of nodes inspected. -/
def runCounting (search : Search) (occupants : Occupants) (bestLen maxDepth : Nat) :
    Except Violation (Match × Nat) :=
  if bestLen < 4 then
    match occupants.short.position? with
    | none => .ok (.unimproved bestLen, 0)
    | some candidate => do
        let best ← search.shortMatch candidate bestLen
        search.discoverCounting maxDepth occupants.long best
  else if search.niceLen ≤ bestLen then
    .ok (.unimproved bestLen, 0)
  else
    search.improveCounting maxDepth occupants.long (.unimproved bestLen)

/-! ### Erasure -/

/-- The search without its count. -/
def erased (outcome : Except Violation (Match × Nat)) : Except Violation Match :=
  outcome.map Prod.fst

theorem erased_countNode (outcome : Except Violation (Match × Nat)) :
    erased (countNode outcome) = erased outcome := by
  cases outcome <;> rfl

theorem erased_bind
    {α : Type}
    (action : Except Violation α)
    (next : α → Except Violation (Match × Nat)) :
    erased (action >>= next) = action >>= fun answer => erased (next answer) := by
  cases action <;> rfl

theorem erased_ite
    (condition : Prop)
    [Decidable condition]
    (first second : Except Violation (Match × Nat)) :
    erased (if condition then first else second) =
      if condition then erased first else erased second :=
  apply_ite erased condition first second

variable {search : Search}

theorem erased_improveCounting (budget : Nat) (slot : Slot) (best : Match) :
    erased (search.improveCounting budget slot best) = search.improve budget slot best := by
  induction budget generalizing slot best with
  | zero => rfl
  | succ budget inductionHypothesis =>
      rw [improveCounting, improve]
      cases slot.position? with
      | none => rfl
      | some candidate =>
          simp only [erased_countNode, erased_bind, erased_ite, inductionHypothesis]
          rfl

theorem erased_discoverCounting (budget : Nat) (slot : Slot) (best : Match) :
    erased (search.discoverCounting budget slot best) = search.discover budget slot best := by
  induction budget generalizing slot best with
  | zero => rfl
  | succ budget inductionHypothesis =>
      rw [discoverCounting, discover]
      cases slot.position? with
      | none => rfl
      | some candidate =>
          simp only [erased_countNode, erased_bind, erased_ite, inductionHypothesis,
            erased_improveCounting]
          rfl

/-- Without its count, the counting search is the search. -/
theorem erased_runCounting (occupants : Occupants) (bestLen maxDepth : Nat) :
    erased (search.runCounting occupants bestLen maxDepth) =
      search.run occupants bestLen maxDepth := by
  rw [runCounting, run]
  split
  · cases occupants.short.position? with
    | none => rfl
    | some candidate => simp only [erased_bind, erased_discoverCounting]
  · rw [erased_ite, erased_improveCounting]
    rfl

end LempelZiv.Search
