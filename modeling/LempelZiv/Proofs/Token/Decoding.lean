import LempelZiv.Proofs.Buffer.Windows
import LempelZiv.Proofs.Token.Copy

/-!
Contract: expansion is decoding byte by byte.

Owns:
- the decoder that pushes one byte at a time and refuses nothing;
- the tokens that can be expanded after so many bytes, and the fault of every other one;
- the agreement of the copy in doubling spans with the decoder;
- the outcome of every expansion: what the decoder pushes, or the place and the fault of
  the first token that cannot be expanded.

The decoder reads the output as it grows, so a copy that overlaps its source needs no case
of its own.
-/

namespace LempelZiv

namespace Buffer

/-- Push the byte `offset` places before the end, so many times. -/
def pushBack (offset : Nat) : (count : Nat) → Buffer → Buffer
  | 0, output => output
  | count + 1, output =>
      pushBack offset count (output.push (output.byte (output.size - offset)))

variable {offset : Nat} {output : Buffer}

/-! ### Bytes pushed one by one -/

theorem exists_pushBack_eq_append (offset count : Nat) (output : Buffer) :
    ∃ pushed : Buffer,
      pushBack offset count output = output ++ pushed ∧ pushed.size = count := by
  induction count generalizing output with
  | zero => exact ⟨#[], Array.append_empty.symm, rfl⟩
  | succ count inductionHypothesis =>
      obtain ⟨pushed, appended, size⟩ :=
        inductionHypothesis (output.push (output.byte (output.size - offset)))
      refine ⟨#[output.byte (output.size - offset)] ++ pushed, ?_, ?_⟩
      · rw [pushBack, appended, ← Array.append_assoc, Array.push_eq_append]
      · rw [Array.size_append, size, Nat.add_comm]
        rfl

theorem size_pushBack (offset count : Nat) (output : Buffer) :
    (pushBack offset count output).size = output.size + count := by
  obtain ⟨pushed, appended, size⟩ := exists_pushBack_eq_append offset count output
  rw [appended, Array.size_append, size]

theorem extract_pushBack (offset count : Nat) (output : Buffer) :
    (pushBack offset count output).extract 0 output.size = output := by
  obtain ⟨pushed, appended, _⟩ := exists_pushBack_eq_append offset count output
  rw [appended, Array.extract_append_left, Array.extract_size]

theorem getElem?_pushBack_of_lt
    {place : Nat}
    (inside : place < output.size)
    (count : Nat) :
    (pushBack offset count output)[place]? = output[place]? := by
  obtain ⟨pushed, appended, _⟩ := exists_pushBack_eq_append offset count output
  rw [appended, Array.getElem?_append_left inside]

/-- Each pushed byte repeats the one `offset` places before it. -/
theorem getElem?_pushBack
    {count place : Nat}
    (backward : 1 ≤ offset)
    (reaches : offset ≤ output.size)
    (below : place < count) :
    (pushBack offset count output)[output.size + place]? =
      (pushBack offset count output)[output.size - offset + place]? := by
  induction count generalizing output place with
  | zero => exact absurd below (Nat.not_lt_zero place)
  | succ count inductionHypothesis =>
      let pushed := output.push (output.byte (output.size - offset))
      have size : pushed.size = output.size + 1 := Array.size_push _
      change (pushBack offset count pushed)[output.size + place]? =
        (pushBack offset count pushed)[output.size - offset + place]?
      cases place with
      | zero =>
          have source : output.size - offset < output.size := by omega
          have last : pushed[output.size]? = some (output.byte (output.size - offset)) :=
            Array.getElem?_push_size
          have kept : pushed[output.size - offset]? = output[output.size - offset]? := by
            rw [Array.getElem?_push_lt source, Array.getElem?_eq_getElem source]
          rw [Nat.add_zero, Nat.add_zero, getElem?_pushBack_of_lt (by omega),
            getElem?_pushBack_of_lt (by omega), last, kept, getElem?_eq_byte source]
      | succ place =>
          have following := @inductionHypothesis pushed place (by omega) (by omega)
          rw [size] at following
          rwa [show output.size + (place + 1) = output.size + 1 + place by omega,
            show output.size - offset + (place + 1) = output.size + 1 - offset + place by omega]

/-- The copy in doubling spans appends what is pushed byte by byte. -/
theorem copyBack_eq_pushBack
    {length : Nat}
    (nonempty : 1 ≤ length)
    (backward : 1 ≤ offset)
    (reaches : offset ≤ output.size) :
    copyBack offset length output = .ok () (pushBack offset length output) := by
  have size := size_pushBack offset length output
  have copied := @copyBack_extract (pushBack offset length output) output.size offset length
    backward reaches nonempty (Nat.le_of_eq size.symm)
    (fun place below => getElem?_pushBack backward reaches below)
  rwa [extract_pushBack, ← size, Array.extract_size] at copied

end Buffer

namespace Token

/-! ### The decoder -/

/-- Push the bytes of one token. -/
def push : Token → Buffer → Buffer
  | literal byte, output => output.push byte
  | copy length offset, output => output.pushBack offset length

def pushAll (output : Buffer) (tokens : List Token) : Buffer :=
  tokens.foldl (fun output token => token.push output) output

/-- The bytes of a list of tokens, pushed one by one. -/
def decode (tokens : List Token) : Buffer :=
  pushAll #[] tokens

/-- The token can be expanded after so many bytes. -/
inductive Expandable (produced : Nat) : Token → Prop where
  | literal {byte : UInt8} : Expandable produced (.literal byte)
  | copy
      {length offset : Nat}
      (nonempty : 1 ≤ length)
      (backward : 1 ≤ offset)
      (reaches : offset ≤ produced) :
      Expandable produced (.copy length offset)

/-- The token cannot be expanded after so many bytes, for this cause. -/
inductive Faulty (produced : Nat) : Token → CopyFault → Prop where
  | badOffset {length : Nat} : Faulty produced (.copy length 0) .badOffset
  | negativePosition
      {length offset : Nat}
      (backward : 1 ≤ offset)
      (exceeds : produced < offset) :
      Faulty produced (.copy length offset) (.negativePosition produced offset)
  | badLength
      {offset : Nat}
      (backward : 1 ≤ offset)
      (reaches : offset ≤ produced) :
      Faulty produced (.copy 0 offset) (.badLength 0)

/-- Each token can be expanded after the ones before it. -/
def WellFormed (tokens : List Token) : Prop :=
  ∀ earlier token later,
    tokens = earlier ++ token :: later → token.Expandable (totalLength earlier)

/-- Each token can be expanded after so many bytes and the tokens before it. -/
inductive ExpandableFrom : (produced : Nat) → List Token → Prop where
  | nil {produced : Nat} : ExpandableFrom produced []
  | cons
      {produced : Nat}
      {token : Token}
      {rest : List Token}
      (expandable : token.Expandable produced)
      (following : ExpandableFrom (produced + token.length) rest) :
      ExpandableFrom produced (token :: rest)

variable {token : Token} {tokens earlier later : List Token} {output : Buffer}
  {produced : Nat} {cause : CopyFault}

/-! ### One token -/

theorem exists_push_eq_append (token : Token) (output : Buffer) :
    ∃ pushed : Buffer, token.push output = output ++ pushed ∧ pushed.size = token.length := by
  cases token with
  | literal byte => exact ⟨#[byte], Array.push_eq_append, rfl⟩
  | copy length offset => exact Buffer.exists_pushBack_eq_append offset length output

theorem append_of_expandable (expandable : token.Expandable output.size) :
    token.append output = .ok () (token.push output) := by
  cases expandable with
  | literal => rfl
  | copy nonempty backward reaches =>
      exact Buffer.copyBack_eq_pushBack nonempty backward reaches

theorem append_of_faulty (faulty : token.Faulty output.size cause) :
    token.append output = .error cause output := by
  cases faulty with
  | badOffset => rw [append, Buffer.copyBack, dif_pos rfl]
  | negativePosition backward exceeds =>
      rw [append, Buffer.copyBack, dif_neg (Nat.ne_of_gt backward), dif_pos exceeds]
  | badLength backward reaches =>
      rw [append, Buffer.copyBack, dif_neg (Nat.ne_of_gt backward),
        dif_neg (Nat.not_lt.mpr reaches), if_pos rfl]

theorem expandable_or_faulty (token : Token) (produced : Nat) :
    token.Expandable produced ∨ ∃ cause, token.Faulty produced cause := by
  cases token with
  | literal byte => exact .inl .literal
  | copy length offset =>
      rcases Nat.eq_zero_or_pos offset with rfl | backward
      · exact .inr ⟨_, .badOffset⟩
      rcases Nat.lt_or_ge produced offset with exceeds | reaches
      · exact .inr ⟨_, .negativePosition backward exceeds⟩
      rcases Nat.eq_zero_or_pos length with rfl | nonempty
      · exact .inr ⟨_, .badLength backward reaches⟩
      · exact .inl (.copy nonempty backward reaches)

/-! ### Lists of tokens -/

theorem exists_pushAll_eq_append (tokens : List Token) (output : Buffer) :
    ∃ pushed : Buffer,
      pushAll output tokens = output ++ pushed ∧ pushed.size = totalLength tokens := by
  induction tokens generalizing output with
  | nil => exact ⟨#[], Array.append_empty.symm, rfl⟩
  | cons first rest inductionHypothesis =>
      obtain ⟨pushed, appended, size⟩ := exists_push_eq_append first output
      obtain ⟨following, appendedRest, sizeRest⟩ := inductionHypothesis (first.push output)
      refine ⟨pushed ++ following, ?_, ?_⟩
      · rw [← Array.append_assoc, ← appended]
        exact appendedRest
      · rw [Array.size_append, size, sizeRest, totalLength_cons]

theorem size_decode (tokens : List Token) : (decode tokens).size = totalLength tokens := by
  obtain ⟨pushed, appended, size⟩ := exists_pushAll_eq_append tokens #[]
  rw [decode, appended, Array.empty_append, size]

/-- The beginning of a list decodes to the beginning of the bytes. -/
theorem extract_decode_append (earlier later : List Token) :
    (decode (earlier ++ later)).extract 0 (totalLength earlier) = decode earlier := by
  obtain ⟨pushed, appended, _⟩ := exists_pushAll_eq_append later (decode earlier)
  have split : decode (earlier ++ later) = decode earlier ++ pushed := by
    rw [← appended]
    exact List.foldl_append
  rw [split, ← size_decode earlier, Array.extract_append_left, Array.extract_size]

theorem expandableFrom_iff :
    ExpandableFrom produced tokens ↔
      ∀ earlier token later,
        tokens = earlier ++ token :: later →
          token.Expandable (produced + totalLength earlier) := by
  constructor
  · intro expandableFrom
    induction expandableFrom with
    | nil =>
        intro earlier token later split
        cases earlier <;> cases split
    | cons expandable _ inductionHypothesis =>
        intro earlier token later split
        cases earlier with
        | nil =>
            cases split
            exact expandable
        | cons second earlier =>
            obtain ⟨rfl, following⟩ := List.cons.inj split
            rw [totalLength_cons, ← Nat.add_assoc]
            exact inductionHypothesis earlier token later following
  · intro expandable
    induction tokens generalizing produced with
    | nil => exact .nil
    | cons first rest inductionHypothesis =>
        refine .cons (expandable [] first rest rfl) (inductionHypothesis ?_)
        intro earlier token later split
        rw [Nat.add_assoc, ← totalLength_cons]
        exact expandable (first :: earlier) token later (split ▸ rfl)

theorem wellFormed_iff : WellFormed tokens ↔ ExpandableFrom 0 tokens := by
  rw [expandableFrom_iff]
  simp only [Nat.zero_add]
  rfl

theorem ExpandableFrom.of_append (expandable : ExpandableFrom produced (earlier ++ later)) :
    ExpandableFrom produced earlier := by
  induction earlier generalizing produced with
  | nil => exact .nil
  | cons first rest inductionHypothesis =>
      cases expandable with
      | cons head following => exact .cons head (inductionHypothesis following)

/-- Unless each token can be expanded after the ones before it, there is a first one that
cannot. -/
theorem expandableFrom_or_faulty (produced : Nat) (tokens : List Token) :
    ExpandableFrom produced tokens ∨
      ∃ earlier token later cause,
        tokens = earlier ++ token :: later ∧
        ExpandableFrom produced earlier ∧
        token.Faulty (produced + totalLength earlier) cause := by
  induction tokens generalizing produced with
  | nil => exact .inl .nil
  | cons first rest inductionHypothesis =>
      rcases expandable_or_faulty first produced with expandable | ⟨cause, faulty⟩
      · rcases inductionHypothesis (produced + first.length) with
          following | ⟨earlier, token, later, cause, split, before, faulty⟩
        · exact .inl (.cons expandable following)
        · rw [Nat.add_assoc, ← totalLength_cons] at faulty
          exact .inr ⟨first :: earlier, token, later, cause, congrArg (first :: ·) split,
            .cons expandable before, faulty⟩
      · exact .inr ⟨[], first, rest, cause, rfl, .nil, faulty⟩

/-! ### Expansion -/

/-- Tokens that can be expanded are pushed, and those after them are expanded next. -/
theorem expandFrom_append
    (expandable : ExpandableFrom output.size earlier)
    (position : Nat)
    (later : List Token) :
    expandFrom position output (earlier ++ later) =
      expandFrom (position + earlier.length) (pushAll output earlier) later := by
  induction earlier generalizing output position with
  | nil => rfl
  | cons first rest inductionHypothesis =>
      cases expandable with
      | cons head following =>
          obtain ⟨pushed, appended, size⟩ := exists_push_eq_append first output
          rw [← size, ← Array.size_append, ← appended] at following
          rw [List.cons_append, expandFrom, append_of_expandable head]
          simp only
          rw [inductionHypothesis following, List.length_cons, Nat.add_assoc,
            Nat.add_comm 1]
          rfl

theorem expand_of_wellFormed (wellFormed : WellFormed tokens) :
    expand tokens = .ok (decode tokens) := by
  have expanded := @expandFrom_append tokens #[] (wellFormed_iff.mp wellFormed) 0 []
  rwa [List.append_nil] at expanded

theorem expand_of_faulty
    (wellFormed : WellFormed earlier)
    (faulty : token.Faulty (totalLength earlier) cause)
    (later : List Token) :
    expand (earlier ++ token :: later) = .error ⟨earlier.length, cause⟩ := by
  rw [← size_decode] at faulty
  have expanded :=
    @expandFrom_append earlier #[] (wellFormed_iff.mp wellFormed) 0 (token :: later)
  rw [expand, expanded, Nat.zero_add, expandFrom, ← decode, append_of_faulty faulty]

theorem expand_cases (tokens : List Token) :
    (WellFormed tokens ∧ expand tokens = .ok (decode tokens)) ∨
      ∃ earlier token later cause,
        tokens = earlier ++ token :: later ∧
        WellFormed earlier ∧
        token.Faulty (totalLength earlier) cause ∧
        expand tokens = .error ⟨earlier.length, cause⟩ := by
  rcases expandableFrom_or_faulty 0 tokens with
    expandable | ⟨earlier, token, later, cause, rfl, expandable, faulty⟩
  · have wellFormed := wellFormed_iff.mpr expandable
    exact .inl ⟨wellFormed, expand_of_wellFormed wellFormed⟩
  · have wellFormed := wellFormed_iff.mpr expandable
    rw [Nat.zero_add] at faulty
    exact .inr ⟨earlier, token, later, cause, rfl, wellFormed, faulty,
      expand_of_faulty wellFormed faulty later⟩

theorem expand_eq_ok_iff :
    expand tokens = .ok output ↔ WellFormed tokens ∧ output = decode tokens := by
  constructor
  · intro ran
    rcases expand_cases tokens with ⟨wellFormed, expanded⟩ | ⟨_, _, _, _, _, _, _, failed⟩
    · rw [expanded] at ran
      cases ran
      exact ⟨wellFormed, rfl⟩
    · rw [failed] at ran
      cases ran
  · rintro ⟨wellFormed, rfl⟩
    exact expand_of_wellFormed wellFormed

theorem expand_eq_error_iff {fault : ExpansionFault} :
    expand tokens = .error fault ↔
      ∃ earlier token later,
        tokens = earlier ++ token :: later ∧
        WellFormed earlier ∧
        fault.token = earlier.length ∧
        token.Faulty (totalLength earlier) fault.cause := by
  constructor
  · intro failed
    rcases expand_cases tokens with
      ⟨_, expanded⟩ | ⟨earlier, token, later, cause, split, wellFormed, faulty, refused⟩
    · rw [expanded] at failed
      cases failed
    · rw [refused] at failed
      cases failed
      exact ⟨earlier, token, later, split, wellFormed, rfl, faulty⟩
  · rintro ⟨earlier, token, later, rfl, wellFormed, place, faulty⟩
    rw [expand_of_faulty wellFormed faulty, ← place]

/-- Expansion decodes byte by byte: it answers what the decoder pushes if each token can be
expanded after the bytes of the ones before it, and else tells the first that cannot. -/
structure DecodesBytewise (tokens : List Token) : Prop where
  answers : ∀ output,
    expand tokens = .ok output ↔ WellFormed tokens ∧ output = decode tokens
  size : ∀ output, expand tokens = .ok output → output.size = totalLength tokens
  refuses : ∀ fault,
    expand tokens = .error fault ↔
      ∃ earlier token later,
        tokens = earlier ++ token :: later ∧
        WellFormed earlier ∧
        fault.token = earlier.length ∧
        token.Faulty (totalLength earlier) fault.cause
  /-- The beginning of a list expands to the beginning of the bytes. -/
  beginnings : ∀ earlier later output,
    tokens = earlier ++ later → expand tokens = .ok output →
      expand earlier = .ok (output.extract 0 (totalLength earlier))
  /-- What follows does not change a fault. -/
  continuations : ∀ later fault,
    expand tokens = .error fault → expand (tokens ++ later) = .error fault

/-- Every expansion decodes byte by byte. -/
theorem expand_decodesBytewise (tokens : List Token) : DecodesBytewise tokens where
  answers _ := expand_eq_ok_iff
  size := by
    intro output expanded
    obtain ⟨_, rfl⟩ := expand_eq_ok_iff.mp expanded
    exact size_decode tokens
  refuses _ := expand_eq_error_iff
  beginnings := by
    rintro earlier later output rfl expanded
    obtain ⟨wellFormed, rfl⟩ := expand_eq_ok_iff.mp expanded
    have beginning := wellFormed_iff.mpr (wellFormed_iff.mp wellFormed).of_append
    rw [expand_of_wellFormed beginning, extract_decode_append]
  continuations := by
    intro later fault failed
    obtain ⟨earlier, token, rest, rfl, wellFormed, place, faulty⟩ :=
      expand_eq_error_iff.mp failed
    apply expand_eq_error_iff.mpr
    refine ⟨earlier, token, rest ++ later, ?_, wellFormed, place, faulty⟩
    rw [List.append_assoc, List.cons_append]

/-- A copy may read bytes that it has pushed itself. -/
example : expand [.literal 97, .literal 98, .copy 5 2] = .ok #[97, 98, 97, 98, 97, 98, 97] := by
  cbv

end Token

end LempelZiv
