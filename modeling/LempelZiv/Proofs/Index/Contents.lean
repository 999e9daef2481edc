import LempelZiv.Index.Chain
import LempelZiv.Proofs.Buffer.Windows
import LempelZiv.Scan.Basic
import Mathlib.Data.Finset.Sort

/-!
Contract: which positions the tables of an index hold.

Owns:
- the newest member of a finite set of positions and its members newest first, among
  them as those that remain of counting down from a bound;
- the relation between the tables and the set of positions that were inserted;
- its preservation by clearing and by the insertion of a later position;
- the walk along the links, without a budget, and what it visits.

The three tables are determined by the set: a head is the newest member of its
bucket and a link is the newest earlier member of the same bucket.  Nothing is
said about the order of insertion, because later positions always come later.
-/

namespace LempelZiv

/-! ### Finite sets of positions -/

/-- The greatest of a set of positions, if there is one. -/
def newest? (positions : Finset Nat) : Option Nat :=
  if inhabited : positions.Nonempty then
    some (positions.max' inhabited)
  else
    none

def newestFirst (positions : Finset Nat) : List Nat :=
  positions.sort (· ≥ ·)

section Newest

variable {positions : Finset Nat} {position : Nat}

theorem newest?_eq_none_iff : newest? positions = none ↔ positions = ∅ := by
  unfold newest?
  split
  · rename_i inhabited
    simp only [reduceCtorEq, inhabited.ne_empty]
  · rename_i uninhabited
    simpa using Finset.not_nonempty_iff_eq_empty.mp uninhabited

theorem newest?_eq_some_iff :
    newest? positions = some position ↔
      position ∈ positions ∧ ∀ other ∈ positions, other ≤ position := by
  unfold newest?
  split
  · rename_i inhabited
    rw [Option.some.injEq]
    constructor
    · rintro rfl
      exact ⟨positions.max'_mem inhabited, fun other => positions.le_max' other⟩
    · intro newest
      obtain ⟨member, greatest⟩ := newest
      exact Nat.le_antisymm (positions.max'_le inhabited position greatest)
        (positions.le_max' position member)
  · rename_i uninhabited
    constructor
    · intro impossible
      cases impossible
    · intro newest
      obtain ⟨member, _⟩ := newest
      exact absurd ⟨position, member⟩ uninhabited

@[simp] theorem newest?_empty : newest? ∅ = none :=
  newest?_eq_none_iff.mpr rfl

theorem newest?_union_singleton (later : ∀ other ∈ positions, other < position) :
    newest? (positions ∪ {position}) = some position := by
  rw [newest?_eq_some_iff]
  refine ⟨by simp, fun other member => ?_⟩
  rcases Finset.mem_union.mp member with older | same
  · exact Nat.le_of_lt (later other older)
  · exact Nat.le_of_eq (Finset.mem_singleton.mp same)

@[simp] theorem mem_newestFirst : position ∈ newestFirst positions ↔ position ∈ positions :=
  Finset.mem_sort _

theorem newestFirst_pairwise (positions : Finset Nat) :
    (newestFirst positions).Pairwise (· > ·) :=
  (Finset.sortedGT_sort positions).pairwise

theorem length_newestFirst (positions : Finset Nat) :
    (newestFirst positions).length = positions.card :=
  Finset.length_sort _

/-- Whatever is newer than a listed position is listed before it. -/
theorem mem_of_newestFirst_eq_append
    {newer older : List Nat}
    {other : Nat}
    (whole : newestFirst positions = newer ++ position :: older)
    (member : other ∈ positions)
    (later : position < other) :
    other ∈ newer := by
  have ordered := newestFirst_pairwise positions
  have listed := mem_newestFirst.mpr member
  rw [whole, List.pairwise_append, List.pairwise_cons] at ordered
  rw [whole, List.mem_append, List.mem_cons] at listed
  rcases listed with before | rfl | after
  · exact before
  · exact absurd later (Nat.lt_irrefl other)
  · exact absurd later (Nat.lt_asymm (ordered.2.1.1 other after))

@[simp] theorem newestFirst_empty : newestFirst ∅ = [] :=
  Finset.sort_empty _

theorem newestFirst_eq_cons (newest : newest? positions = some position) :
    newestFirst positions = position :: newestFirst (positions.filter (· < position)) := by
  obtain ⟨member, greatest⟩ := newest?_eq_some_iff.mp newest
  have whole : positions = insert position (positions.filter (· < position)) := by
    ext other
    simp only [Finset.mem_insert, Finset.mem_filter]
    constructor
    · intro present
      rcases Nat.lt_or_eq_of_le (greatest other present) with earlier | same
      · exact Or.inr ⟨present, earlier⟩
      · exact Or.inl same
    · intro listed
      rcases listed with rfl | ⟨present, _⟩
      · exact member
      · exact present
  conv_lhs => rw [whole]
  apply Finset.sort_insert
  · intro other older
    exact Nat.le_of_lt (Finset.mem_filter.mp older).2
  · intro present
    exact absurd (Finset.mem_filter.mp present).2 (Nat.lt_irrefl position)

/-- Newest first is the order in which the positions below a bound are counted down. -/
theorem newestFirst_eq_filter
    {bound : Nat}
    (below : ∀ position ∈ positions, position < bound) :
    newestFirst positions = (List.range bound).reverse.filter (· ∈ positions) := by
  have ordered := newestFirst_pairwise positions
  have countedDown : ((List.range bound).reverse.filter (· ∈ positions)).Pairwise (· > ·) :=
    (List.pairwise_reverse.mpr List.pairwise_lt_range).filter _
  apply List.Perm.eq_of_pairwise' (r := (· > ·)) ordered countedDown
  rw [List.perm_ext_iff_of_nodup (ordered.imp Nat.ne_of_gt) (countedDown.imp Nat.ne_of_gt)]
  intro position
  simp only [mem_newestFirst, List.mem_filter, List.mem_reverse, List.mem_range,
    decide_eq_true_eq]
  exact ⟨fun member => ⟨below position member, member⟩, And.right⟩

end Newest

/-! ### Slots -/

namespace Slot

theorem lt_limit_of_position?
    {slot : Slot}
    {position : Nat}
    (held : slot.position? = some position) :
    position < limit := by
  unfold position? at held
  split at held
  · cases held
  · rename_i occupied
    obtain rfl := Option.some.inj held
    have bound := slot.raw.toNat_lt
    have notEmpty : slot.raw.toNat ≠ limit := by
      intro equal
      apply occupied
      have rawEqual : slot.raw = 0xFFFFFFFF := UInt32.toNat_inj.mp equal
      rw [empty, ← rawEqual]
    simp only [limit] at *
    omega

end Slot

namespace Index

/-! ### Tables and sets -/

def shortEntries (buffer : Buffer) (inserted : Finset Nat) (bucket : Fin shortBuckets) :
    Finset Nat :=
  inserted.filter fun position => (buffer.buckets position).short = bucket

def longEntries (buffer : Buffer) (inserted : Finset Nat) (bucket : Fin longBuckets) :
    Finset Nat :=
  inserted.filter fun position => (buffer.buckets position).long = bucket

/-- The inserted positions before `position` in the same long bucket. -/
def olderEntries (buffer : Buffer) (inserted : Finset Nat) (position : Nat) : Finset Nat :=
  (longEntries buffer inserted (buffer.buckets position).long).filter (· < position)

/-- The tables hold exactly the positions of `inserted`, in the buckets of their
windows in `buffer`. -/
structure Holds (index : Index) (buffer : Buffer) (inserted : Finset Nat) : Prop where
  fits : buffer.size ≤ index.capacity
  readable : ∀ position ∈ inserted, position + minLookahead ≤ buffer.size
  recent : ∀ bucket : Fin shortBuckets,
    index.recent[bucket].position? = newest? (shortEntries buffer inserted bucket)
  heads : ∀ bucket : Fin longBuckets,
    index.heads[bucket].position? = newest? (longEntries buffer inserted bucket)
  links : ∀ position (inside : position < index.links.size),
    index.links[position].position? =
      if position ∈ inserted then newest? (olderEntries buffer inserted position) else none

theorem holds_blank
    {capacity : Nat}
    (journal : Journal)
    (addressable : capacity < Slot.limit)
    {buffer : Buffer}
    (fits : buffer.size ≤ capacity) :
    (blank capacity journal addressable).Holds buffer ∅ where
  fits := by simpa using fits
  readable := by simp
  recent := by simp [blank, shortEntries]
  heads := by simp [blank, longEntries]
  links := by simp [blank]

/-- Insertion changes one link: that of the inserted position, which takes over
what its long bucket held. -/
theorem getElem_links_insert
    {index : Index}
    {buckets : Buckets}
    {position other : Nat}
    {inside : position < index.capacity}
    (otherInside : other < index.links.size)
    (stillInside : other < (index.insert buckets position inside).links.size) :
    (index.insert buckets position inside).links[other] =
      if position = other then index.heads[buckets.long] else index.links[other] := by
  cases index
  exact Array.getElem_set inside stillInside

section Insert

variable {buffer : Buffer} {inserted : Finset Nat} {position : Nat}

private theorem newest?_entries_union
    {Key : Type}
    [DecidableEq Key]
    (key : Nat → Key)
    (bucket : Key)
    (later : ∀ entry ∈ inserted, entry < position) :
    newest? ((inserted ∪ {position}).filter fun entry => key entry = bucket) =
      if key position = bucket then
        some position
      else
        newest? (inserted.filter fun entry => key entry = bucket) := by
  rw [Finset.filter_union, Finset.filter_singleton]
  split
  · apply newest?_union_singleton
    intro entry member
    exact later entry (Finset.mem_filter.mp member).1
  · rw [Finset.union_empty]

theorem olderEntries_union
    {other : Nat}
    (notLater : other ≤ position) :
    olderEntries buffer (inserted ∪ {position}) other =
      olderEntries buffer inserted other := by
  ext entry
  simp only [olderEntries, longEntries, Finset.mem_filter, Finset.mem_union,
    Finset.mem_singleton]
  constructor
  · intro listed
    obtain ⟨⟨member | rfl, same⟩, earlier⟩ := listed
    · exact ⟨⟨member, same⟩, earlier⟩
    · omega
  · intro listed
    obtain ⟨⟨member, same⟩, earlier⟩ := listed
    exact ⟨⟨Or.inl member, same⟩, earlier⟩

theorem olderEntries_eq_longEntries (later : ∀ entry ∈ inserted, entry < position) :
    olderEntries buffer inserted position =
      longEntries buffer inserted (buffer.buckets position).long := by
  apply Finset.filter_true_of_mem
  intro entry member
  exact later entry (Finset.mem_filter.mp member).1

theorem olderEntries_union_self (later : ∀ entry ∈ inserted, entry < position) :
    olderEntries buffer (inserted ∪ {position}) position =
      longEntries buffer inserted (buffer.buckets position).long := by
  rw [olderEntries_union (Nat.le_refl position), olderEntries_eq_longEntries later]

/-- Inserting a later position adds exactly that position. -/
theorem Holds.insert
    {index : Index}
    (holds : index.Holds buffer inserted)
    (inside : position < index.capacity)
    (readable : position + minLookahead ≤ buffer.size)
    (later : ∀ entry ∈ inserted, entry < position) :
    (index.insert (buffer.buckets position) position inside).Holds buffer
      (inserted ∪ {position}) := by
  have addressable : position < Slot.limit := Nat.lt_trans inside index.addressable
  refine ⟨?_, ?_, ?_, ?_, ?_⟩
  · rw [capacity_insert]
    exact holds.fits
  · intro entry member
    rcases Finset.mem_union.mp member with older | same
    · exact holds.readable entry older
    · rw [Finset.mem_singleton.mp same]
      exact readable
  · intro bucket
    rw [shortEntries, newest?_entries_union (fun entry => (buffer.buckets entry).short)
      bucket later]
    simp only [Index.insert, Fin.getElem_fin, Vector.getElem_set, Fin.val_inj]
    split
    · exact Slot.position?_ofPosition addressable
    · exact holds.recent bucket
  · intro bucket
    rw [longEntries, newest?_entries_union (fun entry => (buffer.buckets entry).long)
      bucket later]
    simp only [Index.insert, Fin.getElem_fin, Vector.getElem_set, Fin.val_inj]
    split
    · exact Slot.position?_ofPosition addressable
    · exact holds.heads bucket
  · intro other stillInside
    have sameSize := capacity_insert index (buffer.buckets position) position inside
    have otherInside : other < index.links.size := by
      rwa [← Index.capacity, ← sameSize]
    rw [getElem_links_insert otherInside]
    split
    · rename_i same
      rw [← same, if_pos (by simp), olderEntries_union_self later]
      exact holds.heads _
    · rename_i different
      rw [holds.links other otherInside]
      by_cases member : other ∈ inserted
      · rw [if_pos member, if_pos (Finset.mem_union_left _ member),
          olderEntries_union (Nat.le_of_lt (later other member))]
      · have absent : other ∉ inserted ∪ {position} := by
          rw [Finset.mem_union, Finset.mem_singleton, not_or]
          exact ⟨member, fun same => different same.symm⟩
        rw [if_neg member, if_neg absent]

end Insert

/-! ### Walks -/

/-- Following the links from a slot visits these positions and ends at an empty
slot. -/
inductive Walk (links : Array Slot) : Slot → List Nat → Prop where
  | stop
      {slot : Slot}
      (vacant : slot.position? = none) :
      Walk links slot []
  | visit
      {slot next : Slot}
      {position : Nat}
      {older : List Nat}
      (occupied : slot.position? = some position)
      (linked : linkAt links position = .ok next)
      (rest : Walk links next older) :
      Walk links slot (position :: older)

/-- A budgeted walk visits a prefix of what the whole walk visits. -/
theorem Walk.follow_eq
    {links : Array Slot}
    {slot : Slot}
    {positions : List Nat}
    (walk : Walk links slot positions)
    (budget : Nat) :
    follow links budget slot = .ok (positions.take budget) := by
  induction walk generalizing budget with
  | stop vacant =>
      cases budget with
      | zero => rfl
      | succ budget => simp [follow, vacant]
  | visit occupied linked rest inductionHypothesis =>
      cases budget with
      | zero => rfl
      | succ budget =>
          simp only [follow, occupied, linked, bind, Except.bind, pure, Except.pure,
            inductionHypothesis budget, List.take_succ_cons]

section Walks

variable {index : Index} {buffer : Buffer} {inserted : Finset Nat}

theorem Holds.lt_capacity
    (holds : index.Holds buffer inserted)
    {position : Nat}
    (member : position ∈ inserted) :
    position < index.capacity := by
  have readable := holds.readable position member
  have fits := holds.fits
  simp only [minLookahead] at readable
  omega

/-- From a slot that holds the newest entry of a bucket before some bound, the
walk visits all entries before that bound, newest first. -/
theorem Holds.walk_before
    (holds : index.Holds buffer inserted)
    (bucket : Fin longBuckets)
    (bound : Nat)
    {slot : Slot}
    (head : slot.position? =
      newest? ((longEntries buffer inserted bucket).filter (· < bound))) :
    Walk index.links slot
      (newestFirst ((longEntries buffer inserted bucket).filter (· < bound))) := by
  induction bound using Nat.strong_induction_on generalizing slot with
  | _ bound inductionHypothesis =>
      cases newest : newest? ((longEntries buffer inserted bucket).filter (· < bound)) with
      | none =>
          rw [newest?_eq_none_iff.mp newest, newestFirst_empty]
          exact .stop (head.trans newest)
      | some position =>
          have member := (newest?_eq_some_iff.mp newest).1
          simp only [longEntries, Finset.mem_filter] at member
          obtain ⟨⟨present, same⟩, below⟩ := member
          have inside : position < index.links.size := holds.lt_capacity present
          have link := holds.links position inside
          rw [if_pos present, olderEntries, same] at link
          have rest := inductionHypothesis position below link
          have older : ((longEntries buffer inserted bucket).filter (· < bound)).filter
              (· < position) = (longEntries buffer inserted bucket).filter (· < position) := by
            rw [Finset.filter_filter]
            apply Finset.filter_congr
            intro entry _
            constructor
            · exact And.right
            · intro earlier
              exact ⟨Nat.lt_trans earlier below, earlier⟩
          rw [newestFirst_eq_cons newest, older]
          exact .visit (head.trans newest) (by rw [linkAt, dif_pos inside]) rest

theorem Holds.walk_older
    (holds : index.Holds buffer inserted)
    (position : Nat)
    {slot : Slot}
    (head : slot.position? = newest? (olderEntries buffer inserted position)) :
    Walk index.links slot (newestFirst (olderEntries buffer inserted position)) :=
  holds.walk_before _ position head

/-- The links from what a position replaced visit the entries that its bucket held
before it was inserted. -/
theorem Holds.walk_replaced
    {position : Nat}
    (holds : index.Holds buffer (inserted ∪ {position}))
    (earlier : ∀ entry ∈ inserted, entry < position)
    {slot : Slot}
    (head : slot.position? =
      newest? (longEntries buffer inserted (buffer.buckets position).long)) :
    Walk index.links slot
      (newestFirst (longEntries buffer inserted (buffer.buckets position).long)) := by
  rw [← olderEntries_union_self earlier] at head ⊢
  exact holds.walk_older position head

/-- The links from the head of a bucket visit exactly its entries, newest first. -/
theorem Holds.walk
    (holds : index.Holds buffer inserted)
    (bucket : Fin longBuckets) :
    Walk index.links index.heads[bucket]
      (newestFirst (longEntries buffer inserted bucket)) := by
  have all : (longEntries buffer inserted bucket).filter (· < index.capacity) =
      longEntries buffer inserted bucket := by
    apply Finset.filter_true_of_mem
    intro entry member
    exact holds.lt_capacity (Finset.mem_filter.mp member).1
  have head : index.heads[bucket].position? =
      newest? ((longEntries buffer inserted bucket).filter (· < index.capacity)) := by
    rw [all]
    exact holds.heads bucket
  have walk := holds.walk_before bucket index.capacity head
  rwa [all] at walk

/-- A chain lists the entries of its bucket: the capacity is budget enough. -/
theorem Holds.chain_eq
    (holds : index.Holds buffer inserted)
    (bucket : Fin longBuckets) :
    index.chain bucket = .ok (newestFirst (longEntries buffer inserted bucket)) := by
  have budget : (longEntries buffer inserted bucket).card ≤ index.capacity := by
    rw [← Finset.card_range index.capacity]
    apply Finset.card_le_card
    intro entry member
    exact Finset.mem_range.mpr (holds.lt_capacity (Finset.mem_filter.mp member).1)
  have followed := (holds.walk bucket).follow_eq index.capacity
  rw [List.take_of_length_le (by rw [length_newestFirst]; exact budget)] at followed
  rw [chain, dif_pos bucket.isLt]
  exact followed

/-- The chain as the entries of its bucket, counted down from a bound. -/
theorem Holds.chain_eq_filter
    (holds : index.Holds buffer inserted)
    (bucket : Fin longBuckets)
    (bound : Nat)
    (below : ∀ entry ∈ inserted, entry < bound) :
    index.chain bucket =
      .ok ((List.range bound).reverse.filter (· ∈ longEntries buffer inserted bucket)) := by
  rw [holds.chain_eq bucket, newestFirst_eq_filter]
  intro entry listed
  exact below entry (Finset.mem_filter.mp listed).1

end Walks

end Index

end LempelZiv
