import LineScript.Grammar.Reader

/-!
# The grammar

Readings of statements and expressions by recursive descent. Binary operators are read by climbing
precedences. A construct with a body has two forms: if its header ends a line, the body stands on
the lines behind and is closed by a word of its own; otherwise the rest of the line is the body.

Every reading takes a bound on how deeply readings may nest and lowers it by one for each reading
it calls. The bound that `parse` starts with grows with the number of tokens.
-/

namespace LineScript

namespace Reading

/-- Whether a token continues an expression: a member, an index, arguments or a compound
assignment. -/
def isSuffix (t : Token) : Bool :=
  match t.kind with
  | .punctuator p =>
    p == .dot || p == .bracketOpen || p == .parenOpen || p.compound?.isSome
  | _ => false

/-- The operator of the compound assignment that a punctuator writes. -/
def compoundOperator? (p : Punctuator) : Option BinaryOperator :=
  p.compound?.bind BinaryOperator.ofPunctuator?

/-- The node of a unary operator. -/
def unaryNode (extent : Extent) (operator : UnaryOperator) (argument : Node) : Node :=
  match operator with
  | .minus | .plus => .signed extent operator argument
  | .not => .negation extent argument
  | .new => .unary extent operator argument

/-- The node of a binary operator. -/
def binaryNode (extent : Extent) (operator : BinaryOperator) (left right : Node) : Node :=
  if operator.isLogical then .logical extent operator left right
  else .binary extent operator left right

/-- Whether a node that begins a statement is already a statement. -/
def isStatementNode : Node → Bool
  | .assignment _ _ _ => true
  | .invalid _ => true
  | _ => false

/-- What separates the items of a list or map literal: a comma or the end of a line. -/
def isSeparator (t : Token) : Bool :=
  t.isPunctuator .comma || t.isEndOfLine

mutual

/-- Reads an expression whose operators all bind tighter than `bound`, if one begins here. -/
def subExpression : Nat → Nat → Reading (Option Node)
  | 0, _ => exhausted
  | n + 1, bound => do
    match UnaryOperator.ofToken? (← current) with
    | some operator =>
      let e ← unaryExpression n operator
      some <$> binaryTail n e bound
    | none =>
      match ← operand n with
      | some e => some <$> binaryTail n e bound
      | none => return none

/-- Reads an expression, if one begins here. -/
def expression : Nat → Reading (Option Node)
  | 0 => exhausted
  | n + 1 => subExpression n 0

/-- Reads an expression, which has to be there. -/
def expectedExpression : Nat → Reading Node
  | 0 => exhausted
  | n + 1 => do
    match ← expression n with
    | some e => return e
    | none => raise .unexpectedExpression

/-- Reads a single operand, if one begins here. -/
def operand : Nat → Reading (Option Node)
  | 0 => exhausted
  | n + 1 => do
    match ← primary n with
    | some e => return some e
    | none => righthand n

/-- Reads a unary operator, which is the current token, and its operand. -/
def unaryExpression : Nat → UnaryOperator → Reading Node
  | 0, _ => exhausted
  | n + 1, operator => do
    let start := (← current).start
    advance
    let argument ← match ← operand n with
      | some e => pure e
      | none => emptyHere
    return unaryNode (← extentFrom start) operator argument

/-- Reads the operators behind `left` that bind tighter than `bound`, with their right operands. -/
def binaryTail : Nat → Node → Nat → Reading Node
  | 0, _, _ => exhausted
  | n + 1, left, bound => do
    match BinaryOperator.ofToken? (← current) with
    | none => return left
    | some operator =>
      if operator.precedence ≤ bound then return left
      else
        advance
        let right ← match ← subExpression n operator.rightBound with
          | some e => pure e
          | none => emptyHere
        let extent ← extentFrom left.start
        binaryTail n (binaryNode extent operator left right) bound

/-- Reads a literal, a function, a map or a list, if one begins here. -/
def primary : Nat → Reading (Option Node)
  | 0 => exhausted
  | n + 1 => do
    let t ← current
    if t.isLiteral then
      let e ← literal
      if t.kind != .nil && (← current).isPunctuator .dot then some <$> suffixes n e
      else return some e
    else
      match t.kind with
      | .punctuator .dot =>
        if (← peek) == .number then some <$> detachedFraction else return none
      | .keyword .functionWord =>
        advance
        some <$> functionDeclaration n t.start
      | .punctuator .braceOpen =>
        advance
        let fields ← mapFields n
        let extent ← extentFrom t.start
        some <$> suffixes n (.mapLiteral extent fields)
      | .punctuator .bracketOpen =>
        advance
        let items ← listItems n
        expectPunctuator .bracketClose
        let extent ← extentFrom t.start
        some <$> suffixes n (.listLiteral extent items)
      | _ => return none

/-- Reads a name or an expression in parentheses with all that continues it, if one begins here. -/
def righthand : Nat → Reading (Option Node)
  | 0 => exhausted
  | n + 1 => do
    match (← current).kind with
    | .identifier =>
      let e ← identifier
      some <$> suffixes n e
    | .punctuator .parenOpen =>
      advance
      let e ← expectedExpression n
      expectPunctuator .parenClose
      some <$> suffixes n e
    | _ => return none

/-- Reads all that continues an expression. -/
def suffixes : Nat → Node → Reading Node
  | 0, _ => exhausted
  | n + 1, origin => do
    match (← current).kind with
    | .punctuator p =>
      match compoundOperator? p with
      | some operator =>
        advance
        let e ← compoundAssignment n origin operator
        suffixes n e
      | none =>
        match p with
        | .bracketOpen =>
          advance
          let key ← expectedExpression n
          expectPunctuator .bracketClose
          let extent ← extentFrom origin.start
          suffixes n (.index extent origin key)
        | .dot =>
          advance
          let name ← identifier
          let extent ← extentFrom origin.start
          suffixes n (.member extent origin name)
        | .parenOpen =>
          let e ← callSuffix n origin
          suffixes n e
        | _ => return origin
    | _ => return origin

/-- Reads the value of a compound assignment, which assigns the operator's result to its own left
operand. -/
def compoundAssignment : Nat → Node → BinaryOperator → Reading Node
  | 0, _, _ => exhausted
  | n + 1, origin, operator => do
    let start := (← current).start
    let value ← match ← subExpression n 0 with
      | some e => pure e
      | none => emptyHere
    let stop := (← previous).stop
    let result := Node.binary ⟨start, stop⟩ operator origin value
    return .assignment ⟨origin.start, stop⟩ origin result

/-- Reads the arguments of a call, whose parenthesis is the current token and has to stand on the
line of the token in front of it. -/
def callSuffix : Nat → Node → Reading Node
  | 0, _ => exhausted
  | n + 1, origin => do
    let before := (← previous).line
    if (← current).line != before then raise (.splitCall before)
    else
      advance
      let arguments ← match ← expression n with
        | some e => (e :: ·) <$> moreArguments n
        | none => pure []
      expectPunctuator .parenClose
      return .call (← extentFrom origin.start) origin arguments

/-- Reads the arguments behind the first. -/
def moreArguments : Nat → Reading (List Node)
  | 0 => exhausted
  | n + 1 => do
    if ← consumePunctuator .comma then
      let e ← expectedExpression n
      (e :: ·) <$> moreArguments n
    else return []

/-- Reads the entries of a map literal and the brace that closes it. -/
def mapFields : Nat → Reading (List Field)
  | 0 => exhausted
  | n + 1 => do
    let t ← current
    let entry ← if t.kind == .string then do
        advance
        expectPunctuator .colon
        let value ← expectedExpression n
        pure [Field.mk ⟨t.start, value.extent.stop⟩ t.value value]
      else pure []
    if ← consumePunctuator .braceClose then return entry
    else if isSeparator (← current) then
      advance
      (entry ++ ·) <$> mapFields n
    else
      discard (raise (.unexpectedValue Punctuator.braceClose.text))
      return entry

/-- Reads the items of a list literal. -/
def listItems : Nat → Reading (List Node)
  | 0 => exhausted
  | n + 1 => do
    let item ← expression n
    if isSeparator (← current) then
      advance
      (item.toList ++ ·) <$> listItems n
    else return item.toList

/-- Reads statements up to a word that closes a block or the end of the source. -/
def block : Nat → Reading (List Node)
  | 0 => exhausted
  | n + 1 => do
    if (← current).endsBlock then return []
    else
      let s ← statement n false
      consumeLineEnd
      (s.toList ++ ·) <$> block n

/-- Reads statements up to the end of the line. -/
def lineBody : Nat → Reading (List Node)
  | 0 => exhausted
  | n + 1 => do
    let t ← current
    if t.isEndOfLine || t.endsLineBody then return []
    else
      let s ← statement n (t.isKeyword .returnWord)
      (s.toList ++ ·) <$> lineBody n

/-- Reads one statement; an empty line is none. A statement that returns leaves the end of the line
where it is if `inLine` says so. -/
def statement : Nat → Bool → Reading (Option Node)
  | 0, _ => exhausted
  | n + 1, inLine => do
    let t ← current
    match t.kind with
    | .endOfLine =>
      advance
      return none
    | .keyword .ifWord =>
      advance
      some <$> ifStatement n t.start
    | .keyword .returnWord =>
      advance
      some <$> returnStatement n t.start inLine
    | .keyword .functionWord =>
      advance
      some <$> functionDeclaration n t.start
    | .keyword .whileWord =>
      advance
      some <$> whileStatement n t.start
    | .keyword .forWord =>
      advance
      some <$> forStatement n t.start
    | .keyword .continueWord =>
      advance
      return some (.continueStatement t.extent)
    | .keyword .breakWord =>
      advance
      return some (.breakStatement t.extent)
    | .keyword .debuggerWord =>
      advance
      return some (.debuggerStatement t.extent)
    | .keyword .importWord =>
      advance
      some <$> importStatement t.start
    | _ => some <$> assignmentOrCall n

/-- Reads what follows the word `if`. -/
def ifStatement : Nat → Position → Reading Node
  | 0, _ => exhausted
  | n + 1, start => do
    let condition ← expectedExpression n
    expectKeyword .thenWord
    if (← current).isEndOfLine then
      let body ← block n
      let first := Clause.mk (← extentFrom start) .ifClause (some condition) body
      let more ← elseIfBlocks n
      let last ← elseBlock n
      expectKeyword .endIf
      return .conditional (← extentFrom start) (first :: more ++ last)
    else
      let body ← lineBody n
      let first := Clause.mk (← extentFrom start) .ifClause (some condition) body
      consumeLineEnd
      let more ← elseIfLines n
      let last ← elseLine n
      if !(← consumeKeyword .endIf) then consumeLineEnd
      return .conditional (← extentFrom start) (first :: more ++ last)

/-- Reads the `else if` branches of a conditional on several lines. -/
def elseIfBlocks : Nat → Reading (List Clause)
  | 0 => exhausted
  | n + 1 => do
    if ← consumeKeyword .elseIfWord then
      let start := (← previous).start
      let condition ← expectedExpression n
      expectKeyword .thenWord
      let body ← block n
      let clause := Clause.mk (← extentFrom start) .elseIfClause (some condition) body
      (clause :: ·) <$> elseIfBlocks n
    else return []

/-- Reads the `else` branch of a conditional on several lines. -/
def elseBlock : Nat → Reading (List Clause)
  | 0 => exhausted
  | n + 1 => do
    if ← consumeKeyword .elseWord then
      let start := (← previous).start
      let body ← block n
      return [Clause.mk (← extentFrom start) .elseClause none body]
    else return []

/-- Reads the `else if` branches of a conditional on one line, each of which may open the line
behind. -/
def elseIfLines : Nat → Reading (List Clause)
  | 0 => exhausted
  | n + 1 => do
    if ← consumeKeyword .elseIfWord then
      let start := (← previous).start
      let condition ← expectedExpression n
      expectKeyword .thenWord
      let body ← lineBody n
      let clause := Clause.mk (← extentFrom start) .elseIfClause (some condition) body
      consumeLineEnd
      (clause :: ·) <$> elseIfLines n
    else return []

/-- Reads the `else` branch of a conditional on one line, which may open the line behind. -/
def elseLine : Nat → Reading (List Clause)
  | 0 => exhausted
  | n + 1 => do
    if ← consumeKeyword .elseWord then
      let start := (← previous).start
      let body ← lineBody n
      let clause := Clause.mk (← extentFrom start) .elseClause none body
      consumeLineEnd
      return [clause]
    else return []

/-- Reads what follows the word `while`. -/
def whileStatement : Nat → Position → Reading Node
  | 0, _ => exhausted
  | n + 1, start => do
    let condition ← expectedExpression n
    let body ← constructBody n .endWhile
    return .whileLoop (← extentFrom start) condition body

/-- Reads what follows the word `for`. Parentheses around the rest of the header are optional. -/
def forStatement : Nat → Position → Reading Node
  | 0, _ => exhausted
  | n + 1, start => do
    discard (consumePunctuator .parenOpen)
    let target ← identifier
    expectKeyword .inWord
    let iterator ← expectedExpression n
    discard (consumePunctuator .parenClose)
    let body ← constructBody n .endFor
    return .forLoop (← extentFrom start) target iterator body

/-- Reads what follows the word `function`: an optional name, parameters and a body. -/
def functionDeclaration : Nat → Position → Reading Node
  | 0, _ => exhausted
  | n + 1, start => do
    let t ← current
    let name ← if t.isIdentifier then do
        discard identifier
        pure (some t.value)
      else pure none
    expectPunctuator .parenOpen
    let parameters ← if ← consumePunctuator .parenClose then pure (.ok []) else parameters n
    match parameters with
    | .error unread => return unread
    | .ok parameters =>
      let body ← constructBody n .endFunction
      return .function (← extentFrom start) name parameters body

/-- Reads parameters and the parenthesis that closes them. A token that is no parameter leaves the
node for unread text in the place of the whole function. -/
def parameters : Nat → Reading (Except Node (List Parameter))
  | 0 => exhausted
  | n + 1 => do
    let t ← current
    if !t.isIdentifier then .error <$> raise .unexpectedParameter
    else
      note t.value
      advance
      let default ← if ← consumePunctuator .assign then some <$> expectedExpression n
        else pure none
      let parameter := Parameter.mk (← extentFrom t.start) t.value default
      if ← consumePunctuator .comma then
        match ← parameters n with
        | .ok more => return .ok (parameter :: more)
        | .error unread => return .error unread
      else
        expectPunctuator .parenClose
        return .ok [parameter]

/-- Reads the body of a loop or a function, in either of the two forms. -/
def constructBody : Nat → Keyword → Reading (List Node)
  | 0, _ => exhausted
  | n + 1, closing => do
    if (← current).isEndOfLine then
      let body ← block n
      expectKeyword closing
      return body
    else
      let body ← lineBody n
      expectLineBodyEnd closing
      return body

/-- Reads what follows the word `return`. -/
def returnStatement : Nat → Position → Bool → Reading Node
  | 0, _, _ => exhausted
  | n + 1, start, inLine => do
    let argument ← expression n
    let extent ← extentFrom start
    if !inLine then consumeLineEnd
    return .returnStatement extent argument

/-- Reads a statement that no word opens: an assignment, a call, or a bare expression. -/
def assignmentOrCall : Nat → Reading Node
  | 0 => exhausted
  | n + 1 => do
    let t ← current
    match t.kind with
    | .identifier =>
      let e ← identifier
      statementTail n t e
    | .punctuator .parenOpen =>
      advance
      let e ← expectedExpression n
      expectPunctuator .parenClose
      statementTail n t e
    | .punctuator .bracketOpen | .punctuator .braceOpen =>
      let e ← expectedExpression n
      statementTail n t e
    | _ =>
      if t.isValueLiteral then
        let e ← expectedExpression n
        statementTail n t e
      else raise .unexpectedAssignmentOrCall

/-- Reads the rest of a statement that begins with the token `t` and the expression `origin`. -/
def statementTail : Nat → Token → Node → Reading Node
  | 0, _, _ => exhausted
  | n + 1, t, origin => do
    if (BinaryOperator.ofToken? (← current)).isSome then binaryTail n origin 0
    else
      let suffixed := isSuffix (← current)
      let e ← if suffixed then suffixes n origin else pure origin
      let here ← current
      if here.isTerminator || here.endsLineBody then
        if (t.isValueLiteral && !suffixed) || isStatementNode e then return e
        else return .callStatement (← extentFrom t.start) e
      else
        expectPunctuator .assign
        let value ← expectedExpression n
        return .assignment (← extentFrom t.start) e value

end

/-- Reads the statements of a whole source text. A word that closes a block which was never opened
has no place. -/
def chunkBody : Nat → Reading (List Node)
  | 0 => exhausted
  | n + 1 => do
    let body ← block n
    if (← current).isEndOfFile then return body
    else
      let unread ← raise .unexpectedEndOfFile
      let more ← chunkBody n
      return body ++ unread :: more

/-- Reads a whole source text, to whose first token it moves first. -/
def chunk (n : Nat) : Reading Node := do
  advance
  let start := (← current).start
  let body ← chunkBody n
  let stop := (← current).stop
  return .chunk ⟨start, stop⟩ body (← get).names

end Reading

/-- A source text that was read, with the errors that were passed over: first those of characters,
then those of tokens. -/
structure Parsed where
  chunk : Node
  errors : List SourceError

namespace Parsed

/-- Whether errors were passed over. -/
def hasErrors (p : Parsed) : Bool := !p.errors.isEmpty

end Parsed

/-- How deeply readings of a number of tokens may nest. Each token lies in at most a fixed number of
nested readings that begin at it. -/
def nestingBound (tokens : Nat) : Nat := 32 * (tokens + 2)

/-- Reads tokens, with a bound on how deeply readings may nest. -/
def TokenStream.parse (stream : TokenStream) (lenient : Bool) (bound : Nat) :
    Except Interruption Parsed :=
  match Reading.chunk bound (Reader.ofTokens lenient stream) with
  | .ok node r => .ok ⟨node, stream.errors.map .lex ++ r.errors.map .parse⟩
  | .error e _ => .error e

/-- Reads a source text. The bound on nested readings is large enough for every source. -/
def parse (mode : ReadingMode) (source : String) : Except SourceError Parsed :=
  let stream := TokenStream.ofSource mode source
  match stream.parse mode.lenient (nestingBound stream.tokens.length) with
  | .ok p => .ok p
  | .error (.sourceError e) => .error e
  | .error .exhausted => .error (.parse ⟨.unexpectedEndOfFile, "", .origin⟩)

end LineScript
