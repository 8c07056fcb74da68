import LineScript.Proofs.Grammar.Guard
import LineScript.Proofs.Grammar.Whole

/-!
# Reading a source text comes to an end

Nine productions repeat something: each is a loop, taken apart here into its rounds. A round that is
followed by another one takes a token. Main statement: reading a source text ends for every source
and in both modes, it moves on at most once more often than there are tokens, and never from the end
of the source.
-/

namespace LineScript

namespace Reading

open Reader (Leads Sound)

/-- How a round of a loop ends: the loop is left with a result, or it goes on in another state, and
the result of the rounds behind is completed by this one. -/
inductive Round (σ α : Type) where
  | leave (result : α)
  | again (state : σ) (complete : α → α)

variable {σ α β : Type}

namespace Round

/-- Whether another round follows. -/
def isAgain : Round σ α → Bool
  | .leave _ => false
  | .again _ _ => true

/-- What a round is followed by. -/
def proceed (run : σ → Reading α) : Round σ α → Reading α
  | .leave result => pure result
  | .again state complete => complete <$> run state

end Round

/-- A round, begun at a token for which `P` holds, takes a token if another one follows. -/
def Onward (P : Token → Prop) (x : Reading (Round σ α)) : Prop :=
  ∀ (r s : Reader) (c : Round σ α), r.Sound → P r.current → x r = .ok c s → c.isAgain = true →
    s.rest.length < r.rest.length

/-- The production `run` is a loop with the given rounds: each of them either leaves the loop or
takes a token. -/
structure Loop (run : Nat → σ → Reading α) (round : Nat → σ → Reading (Round σ α)) : Prop where
  unroll : ∀ n state, run (n + 1) state = round n state >>= Round.proceed (run n)
  onward : ∀ n state, Onward anyToken (round n state)

namespace Onward

variable {P : Token → Prop} {x : Reading α} {k : α → Reading (Round σ β)}

theorem leave (b : β) : Onward P (pure (Round.leave b : Round σ β)) := by
  intro r s c _ _ h hc
  cases h
  cases hc

theorem any {y : Reading (Round σ β)} (h : Onward anyToken y) : Onward P y :=
  fun r s c hr _ => h r s c hr trivial

/-- What is read first may stay where it is. -/
theorem after (hx : Guarded P x) (hk : ∀ a, Onward anyToken (k a)) : Onward P (x >>= k) := by
  intro r s c hr hP h hc
  obtain ⟨a, t, hxt, hks⟩ := bind_eq_ok.1 h
  have hrt := (hx r hr hP).leads hxt
  have hts := hk a t s c (hr.of_leads hrt) trivial hks hc
  have hle := hrt.length_le
  omega

/-- What is read first takes a token. -/
theorem taking (hx : Guarded P x) (htakes : Consumes P x) (hk : ∀ a, Safe (k a)) :
    Onward P (x >>= k) := by
  intro r s c hr hP h _
  obtain ⟨a, t, hxt, hks⟩ := bind_eq_ok.1 h
  have ht := hr.of_leads ((hx r hr hP).leads hxt)
  have hle := ((hk a t ht trivial).leads hks).length_le
  have hlt := htakes r t a hr hP hxt
  omega

theorem current {k : Token → Reading (Round σ β)} (hk : ∀ t, P t → Onward (· = t) (k t)) :
    Onward P (Reading.current >>= k) :=
  fun r s c hr hP h => hk r.current hP r s c hr rfl h

theorem note {name : String} {k : Reading (Round σ β)} (hk : Onward P k) :
    Onward P (Reading.note name >>= fun _ => k) := by
  intro r s c hr hP h hc
  have hlt := hk (r.note name) s c (hr.of_leads (Reader.leads_note r name))
    (by rwa [Reader.current_note]) h hc
  rwa [Reader.rest_note] at hlt

theorem next {k : Reading (Round σ β)} (hP : ∀ t, P t → t.isEndOfFile = false) (hk : Safe k) :
    Onward P (Reading.advance >>= fun _ => k) :=
  taking (.advance hP) (fun _ _ _ hr ht h => Reader.step_length hr (hP _ ht) (advance_ok h))
    fun _ => hk

/-- Another round follows only behind a punctuator. -/
theorem punctuator {q : Punctuator} {k : Bool → Reading (Round σ β)} (hyes : Safe (k true))
    (hno : Onward anyToken (k false)) : Onward P (consumePunctuator q >>= k) := by
  unfold consumePunctuator
  rw [bind_assoc]
  refine current fun t _ => ?_
  split
  next ht =>
    have hk : t.kind = .punctuator q := by simpa [Token.isPunctuator] using ht
    rw [bind_assoc]
    exact next (fun u hu => not_endOfFile_of_kind (hu ▸ hk) (by simp)) (by simpa using hyes)
  · simpa using hno.any

end Onward

/-- A round of the statements of a source text, which reads up to a word that closes nothing. -/
def chunkRound (n : Nat) (_ : Unit) : Reading (Round Unit (List Node)) := do
  let body ← block n
  if (← current).isEndOfFile then return .leave body
  else
    let unread ← raise .unexpectedEndOfFile
    return .again () fun more => body ++ unread :: more

theorem chunkBody_loop : Loop (fun n (_ : Unit) => chunkBody n) chunkRound where
  unroll n _ := by
    rw [chunkBody, chunkRound]
    simp only [bind_assoc]
    congr 1; funext body
    congr 1; funext t
    split
    · rfl
    · simp [Round.proceed]
  onward n _ := by
    intro r s c hr _ h hc
    obtain ⟨body, t, hbody, h⟩ := bind_eq_ok.1 h
    have hrt := ((careful n).block r hr trivial).leads hbody
    have hle := hrt.length_le
    obtain ⟨u, t', hu, h⟩ := bind_eq_ok.1 h
    obtain ⟨rfl, rfl⟩ := current_ok hu
    split at h
    · cases h
      cases hc
    next hend =>
      obtain ⟨unread, s', hraise, h⟩ := bind_eq_ok.1 h
      cases h
      have hterminator := isTerminator_of_endsBlock (block_ends hbody) (by simpa using hend)
      have hlt := Consumes.raise _ _ _ _ (hr.of_leads hrt) hterminator hraise
      omega

/-- A round of a block: one statement. -/
def blockRound (n : Nat) (_ : Unit) : Reading (Round Unit (List Node)) := do
  if (← current).endsBlock then return .leave []
  else
    let s ← statement n false
    consumeLineEnd
    return .again () (s.toList ++ ·)

theorem block_loop : Loop (fun n (_ : Unit) => block n) blockRound where
  unroll n _ := by
    rw [block, blockRound]
    simp only [bind_assoc]
    congr 1; funext t
    split
    · rfl
    · simp [Round.proceed]
  onward n _ := by
    refine .current fun t _ => ?_
    split
    · exact .leave _
    next ht =>
      refine .taking ((careful n).statement _).any ((statement_consumes n _).weaken fun u hu =>
        hu ▸ Ample.not_endOfFile_of_not_endsBlock ht) fun s => ?_
      exact .bind .consumeLineEnd fun _ => .pure _

/-- A round of a body in one line: one statement. -/
def lineRound (n : Nat) (_ : Unit) : Reading (Round Unit (List Node)) := do
  let t ← current
  if t.isEndOfLine || t.endsLineBody then return .leave []
  else
    let s ← statement n (t.isKeyword .returnWord)
    return .again () (s.toList ++ ·)

theorem lineBody_loop : Loop (fun n (_ : Unit) => lineBody n) lineRound where
  unroll n _ := by
    rw [lineBody, lineRound]
    simp only [bind_assoc]
    congr 1; funext t
    split
    · rfl
    · simp [Round.proceed]
  onward n _ := by
    refine .current fun t _ => ?_
    split
    · exact .leave _
    next ht =>
      refine .taking ((careful n).statement _).any ((statement_consumes n _).weaken fun u hu =>
        hu ▸ Ample.not_endOfFile_of_not_endsLineBody ht) fun s => ?_
      exact .pure _

/-- What is behind a parameter and its default value, at the end of a round of the parameters. -/
def parameterEnd (t : Token) (default : Option Node) :
    Reading (Round Unit (Except Node (List Parameter))) := do
  let parameter := Parameter.mk (← extentFrom t.start) t.value default
  if ← consumePunctuator .comma then return .again () fun more => (parameter :: ·) <$> more
  else
    expectPunctuator .parenClose
    return .leave (.ok [parameter])

/-- A round of the parameters of a function: one parameter. -/
def parameterRound (n : Nat) (_ : Unit) :
    Reading (Round Unit (Except Node (List Parameter))) := do
  let t ← current
  if !t.isIdentifier then return .leave (.error (← raise .unexpectedParameter))
  else
    note t.value
    advance
    let default ← if ← consumePunctuator .assign then some <$> expectedExpression n else pure none
    parameterEnd t default

theorem parametersRemainder_eq (n : Nat) (t : Token) (default : Option Node) :
    parametersRemainder n t default =
      parameterEnd t default >>= Round.proceed fun _ => parameters n := by
  unfold parametersRemainder parameterEnd
  simp only [bind_assoc]
  congr 1; funext e
  congr 1; funext b
  split
  · simp only [pure_bind, Round.proceed, map_eq_pure_bind]
    congr 1; funext ps
    cases ps <;> rfl
  · simp [Round.proceed]

theorem parameterEnd_safe (t : Token) (default : Option Node) : Safe (parameterEnd t default) := by
  refine .bind (.extentFrom _) fun e => .bind (.consumePunctuator _) fun b => ?_
  split
  · exact .pure _
  · exact .bind (.expectPunctuator _) fun _ => .pure _

theorem parameters_loop : Loop (fun n (_ : Unit) => parameters n) parameterRound where
  unroll n _ := by
    rw [parameters_eq, parameterRound]
    simp only [bind_assoc]
    congr 1; funext t
    split
    · simp [Round.proceed]
    · simp only [bind_assoc]
      congr 1; funext _
      congr 1; funext _
      congr 1; funext b
      split
      · simp only [bind_assoc, parametersRemainder_eq]
      · simp only [parametersRemainder_eq, pure_bind]
  onward n _ := by
    refine .current fun t _ => ?_
    split
    · exact .after (.raise _) fun a => .leave _
    next ht =>
      have hi : t.kind = .identifier := by simpa [Token.isIdentifier] using ht
      refine .note (.next (fun u hu => not_endOfFile_of_kind (hu ▸ hi) (by simp)) ?_)
      refine .bind (.consumePunctuator _) fun b => ?_
      split
      · exact .bind (careful n).expectedExpression.map fun d => parameterEnd_safe t d
      · exact parameterEnd_safe t none

/-- A round of the arguments of a call: the comma and the argument behind it. -/
def argumentRound (n : Nat) (_ : Unit) : Reading (Round Unit (List Node)) := do
  if ← consumePunctuator .comma then
    let e ← expectedExpression n
    return .again () (e :: ·)
  else return .leave []

theorem moreArguments_loop : Loop (fun n (_ : Unit) => moreArguments n) argumentRound where
  unroll n _ := by
    rw [moreArguments, argumentRound]
    simp only [bind_assoc]
    congr 1; funext b
    split
    · simp [Round.proceed]
    · rfl
  onward n _ := by
    refine .punctuator ?_ (.leave _)
    exact .bind (careful n).expectedExpression fun e => .pure _

/-- A round of the items of a list: an item, which may be missing, and what separates it from the
next one. -/
def itemRound (n : Nat) (_ : Unit) : Reading (Round Unit (List Node)) := do
  let item ← expression n
  if isSeparator (← current) then
    advance
    return .again () (item.toList ++ ·)
  else return .leave item.toList

theorem listItems_loop : Loop (fun n (_ : Unit) => listItems n) itemRound where
  unroll n _ := by
    rw [listItems, itemRound]
    simp only [bind_assoc]
    congr 1; funext o
    congr 1; funext t
    split
    · simp [Round.proceed]
    · rfl
  onward n _ := by
    refine .after (careful n).expression fun o => .current fun t _ => ?_
    split
    next hs => exact .next (fun u hu => hu ▸ Ample.not_endOfFile_of_isSeparator hs) (.pure _)
    · exact .leave _

/-- What is behind an entry at the end of a round of the entries of a map. -/
def fieldEnd (entry : List Field) : Reading (Round Unit (List Field)) := do
  if ← consumePunctuator .braceClose then return .leave entry
  else if isSeparator (← current) then
    advance
    return .again () (entry ++ ·)
  else
    discard (raise (.unexpectedValue Punctuator.braceClose.text))
    return .leave entry

/-- A round of the entries of a map: an entry, which may be missing, and what separates it from the
next one. -/
def fieldRound (n : Nat) (_ : Unit) : Reading (Round Unit (List Field)) := do
  let t ← current
  let entry ← if t.kind == .string then do
      advance
      expectPunctuator .colon
      let value ← expectedExpression n
      pure [Field.mk ⟨t.start, value.extent.stop⟩ t.value value]
    else pure []
  fieldEnd entry

theorem fieldsRemainder_eq (n : Nat) (entry : List Field) :
    fieldsRemainder n entry = fieldEnd entry >>= Round.proceed fun _ => mapFields n := by
  unfold fieldsRemainder fieldEnd
  simp only [bind_assoc]
  congr 1; funext b
  split
  · rfl
  · simp only [bind_assoc]
    congr 1; funext u
    split
    · simp [Round.proceed]
    · simp [Round.proceed]

theorem fieldEnd_onward (entry : List Field) : Onward anyToken (fieldEnd entry) := by
  refine .after (.consumePunctuator _) fun b => ?_
  split
  · exact .leave _
  · refine .current fun t _ => ?_
    split
    next hs => exact .next (fun u hu => hu ▸ Ample.not_endOfFile_of_isSeparator hs) (.pure _)
    · exact .after (.discard (.raise _)) fun _ => .leave _

theorem mapFields_loop : Loop (fun n (_ : Unit) => mapFields n) fieldRound where
  unroll n _ := by
    rw [mapFields_eq, fieldRound]
    simp only [bind_assoc]
    congr 1; funext t
    split
    · simp only [bind_assoc, pure_bind, fieldsRemainder_eq]
    · simp only [pure_bind, fieldsRemainder_eq]
  onward n _ := by
    refine .current fun t _ => ?_
    dsimp only
    split
    next hk =>
      have hk : t.kind = .string := by simpa using hk
      refine .after (.advance fun u hu => not_endOfFile_of_kind (hu ▸ hk) (by simp)) fun _ => ?_
      refine .after (.expectPunctuator _) fun _ => ?_
      exact .after (careful n).expectedExpression fun e => fieldEnd_onward _
    · exact (fieldEnd_onward _).any

/-- A round of binary operators: one operator and its right operand. -/
def operatorRound (n bound : Nat) (left : Node) : Reading (Round Node Node) := do
  match BinaryOperator.ofToken? (← current) with
  | none => return .leave left
  | some operator =>
    if operator.precedence ≤ bound then return .leave left
    else
      advance
      let right ← match ← subExpression n operator.rightBound with
        | some e => pure e
        | none => emptyHere
      let extent ← extentFrom left.start
      return .again (binaryNode extent operator left right) id

theorem binaryTail_loop (bound : Nat) :
    Loop (fun n left => binaryTail n left bound) (fun n => operatorRound n bound) where
  unroll n left := by
    rw [binaryTail, operatorRound]
    simp only [bind_assoc]
    congr 1; funext t
    cases BinaryOperator.ofToken? t with
    | none => rfl
    | some o =>
      dsimp only
      split
      · rfl
      · simp only [bind_assoc]
        congr 1; funext _
        congr 1; funext e
        cases e <;> simp [Round.proceed]
  onward n left := by
    refine .current fun t _ => ?_
    cases ho : BinaryOperator.ofToken? t with
    | none => exact .leave _
    | some o =>
      dsimp only
      split
      · exact .leave _
      · refine .next (fun u hu => hu ▸ Ample.not_endOfFile_of_binaryOperator ho) ?_
        refine Careful.orEmpty ((careful n).subExpression _) fun c => ?_
        exact .bind (.extentFrom _) fun e => .pure _

/-- A round of what continues an expression: a compound assignment, an index, a member or the
arguments of a call. -/
def suffixRound (n : Nat) (origin : Node) : Reading (Round Node Node) := do
  match (← current).kind with
  | .punctuator p =>
    match compoundOperator? p with
    | some operator =>
      advance
      let e ← compoundAssignment n origin operator
      return .again e id
    | none =>
      match p with
      | .bracketOpen =>
        advance
        let key ← expectedExpression n
        expectPunctuator .bracketClose
        let extent ← extentFrom origin.start
        return .again (.index extent origin key) id
      | .dot =>
        advance
        let name ← identifier
        let extent ← extentFrom origin.start
        return .again (.member extent origin name) id
      | .parenOpen =>
        let e ← callSuffix n origin
        return .again e id
      | _ => return .leave origin
  | _ => return .leave origin

theorem suffixes_loop : Loop suffixes suffixRound where
  unroll n origin := by
    rw [suffixes, suffixRound]
    simp only [bind_assoc]
    congr 1; funext t
    generalize t.kind = k
    cases k with
    | punctuator p =>
      dsimp only
      cases compoundOperator? p with
      | some o => simp [Round.proceed]
      | none => cases p <;> simp [Round.proceed]
    | _ => rfl
  onward n origin := by
    refine .current fun t _ => ?_
    split
    next q hk =>
      have moved : ∀ u, u = t → u.isEndOfFile = false :=
        fun u hu => not_endOfFile_of_kind (hu ▸ hk) (by simp)
      split
      · exact .next moved (.bind ((careful n).compoundAssignment _ _) fun e => .pure _)
      · split
        · refine .next moved (.bind (careful n).expectedExpression fun c => ?_)
          exact .bind (.expectPunctuator _) fun _ => .bind (.extentFrom _) fun e => .pure _
        · refine .next moved (.bind .identifier fun c => ?_)
          exact .bind (.extentFrom _) fun e => .pure _
        · exact .taking (((careful n).callSuffix origin).weaken fun u hu => hu ▸ hk)
            ((callSuffix_consumes n origin).weaken fun u hu => hu ▸ hk) fun e => .pure _
        · exact .leave _
    · exact .leave _

/-- The loops of the grammar, with their rounds. -/
structure Loops : Prop where
  chunkBody : Loop (fun n (_ : Unit) => chunkBody n) chunkRound
  block : Loop (fun n (_ : Unit) => block n) blockRound
  lineBody : Loop (fun n (_ : Unit) => lineBody n) lineRound
  parameters : Loop (fun n (_ : Unit) => parameters n) parameterRound
  moreArguments : Loop (fun n (_ : Unit) => moreArguments n) argumentRound
  listItems : Loop (fun n (_ : Unit) => listItems n) itemRound
  mapFields : Loop (fun n (_ : Unit) => mapFields n) fieldRound
  binaryTail : ∀ bound, Loop (fun n left => binaryTail n left bound) (operatorRound · bound)
  suffixes : Loop suffixes suffixRound

theorem loops : Loops :=
  ⟨chunkBody_loop, block_loop, lineBody_loop, parameters_loop, moreArguments_loop, listItems_loop,
    mapFields_loop, binaryTail_loop, suffixes_loop⟩

/-- A result that is not cut short is not changed by a deeper bound. -/
theorem chunk_deep {n m : Nat} (h : n ≤ m) {r : Reader}
    (hr : ∀ s, chunk n r ≠ .error .exhausted s) : chunk m r = chunk n r := by
  have hdeep := outline_deep h r
  simp only [chunk_apply] at hr ⊢
  cases hn : outline n r with
  | ok c s =>
    rw [hn] at hdeep
    obtain ⟨_, hm, rfl⟩ := hdeep
    rw [hm]
  | error e s =>
    cases e with
    | exhausted =>
      rw [hn] at hr
      exact absurd rfl (hr s)
    | sourceError e =>
      rw [hn] at hdeep
      rw [show outline m r = _ from hdeep]

theorem chunk_safe (n : Nat) {r : Reader} (hr : r.Sound) (hend : r.current.isEndOfFile = false) :
    GuardedAt r (chunk n) := by
  have hchunk : Guarded notEndOfFile (chunk n) := by
    refine .next (fun t ht => ht) (.current fun t _ => ?_)
    refine .bind (chunkBody_safe n).any fun body => .current fun u _ => ?_
    intro s _ _
    exact ⟨[] ++ [], .bind (.whole s) (.pure _ s), by simp⟩
  exact hchunk r hr hend

end Reading

namespace Scanner

/-- Only the last token can be the end of the source. -/
theorem drain_dropLast (n : Nat) (s : Scanner) :
    ∀ t ∈ (s.drain n).1.dropLast, t.isEndOfFile = false := by
  induction n generalizing s with
  | zero => simp [drain]
  | succ n ih =>
    unfold drain
    split
    · simp
    next u s' hnext =>
      split
      · simp
      next hu =>
        intro t ht
        cases hrest : (s'.drain n).1 with
        | nil => simp [hrest] at ht
        | cons v vs =>
          have hmem : t = u ∨ t ∈ (s'.drain n).1.dropLast := by simpa [hrest] using ht
          rcases hmem with rfl | hmem
          · simpa using hu
          · exact ih s' t hmem

end Scanner

theorem TokenStream.ofSource_single (mode : ReadingMode) (source : String) :
    (Reader.ofTokens mode.lenient (ofSource mode source)).Single where
  last h := by cases h
  rest := Scanner.drain_dropLast _ _
  stopped h := by
    obtain ⟨e, he⟩ := Option.ne_none_iff_exists'.1 h
    exact Scanner.drain_stopped he

section

open Reading

/-- Reading a source text ends: what it takes and how deeply its readings nest. -/
structure Ends (mode : ReadingMode) (source : String) : Prop where
  /-- The bound on nested readings is never reached. -/
  unexhausted : ∀ n ≥ nestingBound (TokenStream.ofSource mode source).tokens.length, ∀ s,
    chunk n (Reader.ofTokens mode.lenient (TokenStream.ofSource mode source)) ≠ .error .exhausted s
  /-- A deeper bound changes nothing. -/
  settled : ∀ n ≥ nestingBound (TokenStream.ofSource mode source).tokens.length,
    (TokenStream.ofSource mode source).parse mode.lenient n =
      (parse mode source).mapError .sourceError
  /-- A run moves on at most once more often than there are tokens, and never from the end of the
  source. -/
  moves : ∀ n places result,
    Moves (chunk n) (Reader.ofTokens mode.lenient (TokenStream.ofSource mode source)) places
        result →
      places.length ≤ (TokenStream.ofSource mode source).tokens.length + 1 ∧
        ∀ place ∈ places, place.current.isEndOfFile = false
  /-- There is such a run, under every bound. -/
  runs : ∀ n, ∃ places,
    Moves (chunk n) (Reader.ofTokens mode.lenient (TokenStream.ofSource mode source)) places
      (chunk n (Reader.ofTokens mode.lenient (TokenStream.ofSource mode source)))

namespace Ends

variable (mode : ReadingMode) (source : String)

theorem unexhausted_of_ge {n : Nat}
    (hn : nestingBound (TokenStream.ofSource mode source).tokens.length ≤ n) (s : Reader) :
    chunk n (Reader.ofTokens mode.lenient (TokenStream.ofSource mode source)) ≠
      .error .exhausted s := by
  have hsound := TokenStream.ofSource_sound mode source
  rw [chunk_deep hn fun s => chunk_unexhausted hsound]
  exact chunk_unexhausted hsound

theorem settled_of_ge {n : Nat}
    (hn : nestingBound (TokenStream.ofSource mode source).tokens.length ≤ n) :
    (TokenStream.ofSource mode source).parse mode.lenient n =
      (parse mode source).mapError .sourceError := by
  have hsound := TokenStream.ofSource_sound mode source
  have hdeep := chunk_deep hn fun s => chunk_unexhausted hsound
  unfold parse
  dsimp only
  unfold TokenStream.parse
  rw [hdeep]
  cases hchunk : chunk (nestingBound (TokenStream.ofSource mode source).tokens.length)
      (Reader.ofTokens mode.lenient (TokenStream.ofSource mode source)) with
  | ok node r => rfl
  | error e r =>
    cases e with
    | sourceError e => rfl
    | exhausted => exact absurd hchunk (chunk_unexhausted hsound)

theorem moves_of_run {n : Nat} {places : List Reader}
    {result : EStateM.Result Interruption Reader Node}
    (h : Moves (chunk n) (Reader.ofTokens mode.lenient (TokenStream.ofSource mode source)) places
      result) :
    places.length ≤ (TokenStream.ofSource mode source).tokens.length + 1 ∧
      ∀ place ∈ places, place.current.isEndOfFile = false := by
  have hsound := TokenStream.ofSource_sound mode source
  obtain ⟨guarded, hguarded, hnot⟩ := chunk_safe n hsound rfl
  have hprevious := hguarded.previous_of_forall hnot rfl
  have hplaces : ∀ place ∈ places, place.current.isEndOfFile = false := by
    intro place hplace
    by_contra hend
    have hbeyond := h.beyond_of_mem (TokenStream.ofSource_single mode source) hplace
      (by simpa using hend)
    rw [← h.result_eq] at hbeyond
    rw [hbeyond.previous] at hprevious
    cases hprevious
  have htaken := h.taken hsound hplaces
  constructor
  · cases result with
    | ok node s =>
      simp only [Moves.Taken, Reader.ofTokens] at htaken
      omega
    | error e s =>
      simp only [Moves.Taken, Reader.ofTokens] at htaken
      omega
  · exact hplaces

end Ends

/-- Reading a source text always makes progress and ends. Every round of a loop that is followed by
another one takes a token, the productions nest only a fixed number of times for each token ahead,
and nothing ever moves on from the end of the source. -/
theorem parse_progresses (mode : ReadingMode) (source : String) :
    Ends mode source ∧ Loops ∧ ∀ n, Ample n := by
  constructor
  · exact {
      unexhausted := fun n hn s => Ends.unexhausted_of_ge mode source hn s
      settled := fun n hn => Ends.settled_of_ge mode source hn
      moves := fun n places result h => Ends.moves_of_run mode source h
      runs := fun n => by
        obtain ⟨places, h, _⟩ := chunk_safe n (TokenStream.ofSource_sound mode source) rfl
        exact ⟨places, h⟩ }
  · exact ⟨loops, ample⟩

end

end LineScript
