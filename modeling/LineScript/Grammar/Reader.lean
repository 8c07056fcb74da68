import LineScript.Grammar.Error
import LineScript.Grammar.Node
import LineScript.Number.Reading

/-!
# Reading tokens

The state that the grammar works on: the current token, the one before it, the tokens behind, and
what was recorded on the way. A strict reader stops at the first error. A lenient one records it,
goes on at the end of the line, and puts a node that stands for unread text in the place of what it
passed over.
-/

namespace LineScript

/-- A place in a sequence of tokens, and what was recorded on the way to it. -/
structure Reader where
  lenient : Bool
  current : Token
  previous : Token
  rest : List Token
  /-- The error behind the last token of `rest`, if one stopped the scanner. -/
  stop : Option LexError
  errors : List ParseError
  /-- The names met so far, in the order in which they first occurred. -/
  names : List String

/-- Why reading ends early. -/
inductive Interruption where
  | sourceError (e : SourceError)
  /-- The bound on nested readings was reached. -/
  | exhausted
deriving DecidableEq, Inhabited

/-- A reading: it takes tokens, and gives a result or ends early. -/
abbrev Reading := EStateM Interruption Reader

namespace Reader

/-- The token in front of every source text. -/
def placeholder : Token :=
  ⟨.endOfLine, ";", ⟨0, 0⟩, ⟨⟨1, 1⟩, ⟨1, 1⟩⟩⟩

/-- A reader in front of the tokens of a source text. -/
def ofTokens (lenient : Bool) (stream : TokenStream) : Reader :=
  ⟨lenient, placeholder, placeholder, stream.tokens, stream.stop, [], []⟩

/-- Moves to the next token. Behind the end of the source is the end of the source. -/
def step (r : Reader) : Except Interruption Reader :=
  match r.rest with
  | t :: rest => .ok { r with previous := r.current, current := t, rest := rest }
  | [] =>
    match r.stop with
    | some e => .error (.sourceError (.lex e))
    | none => .ok { r with previous := r.current }

/-- The current token, the one before it and the tokens behind, at the end of the current line. -/
def lineEnd (current previous : Token) : List Token → Token × Token × List Token
  | [] => (current, previous, [])
  | t :: rest =>
    if current.isTerminator then (current, previous, t :: rest) else lineEnd t current rest

/-- Moves to the end of the current line, not over it. -/
def skipLine (r : Reader) : Reader :=
  let e := lineEnd r.current r.previous r.rest
  { r with current := e.1, previous := e.2.1, rest := e.2.2 }

/-- Takes note of a name, unless it was met before. -/
def note (r : Reader) (name : String) : Reader :=
  if r.names.contains name then r else { r with names := r.names ++ [name] }

end Reader

namespace Reading

/-- The end of a reading that went deeper than its bound. -/
def exhausted {α : Type} : Reading α := throw .exhausted

/-- The current token. -/
def current : Reading Token := return (← get).current

/-- The token in front of the current one. -/
def previous : Reading Token := return (← get).previous

/-- Moves to the next token. -/
def advance : Reading Unit := fun r =>
  match r.step with
  | .ok r' => .ok () r'
  | .error e => .error e r

/-- What the token behind the current one is. -/
def peek : Reading TokenKind := fun r =>
  match r.rest, r.stop with
  | t :: _, _ => .ok t.kind r
  | [], some e => .error (.sourceError (.lex e)) r
  | [], none => .ok r.current.kind r

/-- Reports that the current token has no place. A strict reader stops here; a lenient one gives a
node for the unread text, which begins at the current token, and goes to the end of the line. -/
def raise (fault : ParseFault) : Reading Node := fun r =>
  let e := ParseError.ofToken fault r.current
  if r.lenient then
    .ok (.invalid r.current.extent) { r.skipLine with errors := r.errors ++ [e] }
  else .error (.sourceError (.parse e)) r

/-- Takes note of a name. -/
def note (name : String) : Reading Unit := modify (·.note name)

/-- Moves over the given punctuator, if it is the current token. -/
def consumePunctuator (p : Punctuator) : Reading Bool := do
  if (← current).isPunctuator p then
    advance
    return true
  else return false

/-- Moves over the given reserved word, if it is the current token. -/
def consumeKeyword (k : Keyword) : Reading Bool := do
  if (← current).isKeyword k then
    advance
    return true
  else return false

/-- Moves over the end of a line, if it is the current token. -/
def consumeLineEnd : Reading Unit := do
  if (← current).isEndOfLine then advance

/-- Moves over the given punctuator, which has to be there. -/
def expectPunctuator (p : Punctuator) : Reading Unit := do
  if !(← consumePunctuator p) then
    discard (raise (.unexpectedValue p.text))

/-- Moves over the given reserved word, which has to be there. -/
def expectKeyword (k : Keyword) : Reading Unit := do
  if !(← consumeKeyword k) then
    discard (raise (.unexpectedValue k.text))

/-- Ends a body that shares the line of its header: at the end of the line or of the source, which
are left for the construct around it, or at the closing word of the body itself. -/
def expectLineBodyEnd (k : Keyword) : Reading Unit := do
  if (← current).isTerminator then return
  if !(← consumeKeyword k) then
    discard (raise (.unexpectedValues [";", "<eof>"]))

/-- The extent from a place to the end of the token in front of the current one. -/
def extentFrom (start : Position) : Reading Extent := do
  return ⟨start, (← previous).stop⟩

/-- The node for an operand that is missing at the current token. -/
def emptyHere : Reading Node := do
  return .empty (← current).extent

/-- Reads a name. -/
def identifier : Reading Node := do
  let t ← current
  if t.isIdentifier then
    note t.value
    advance
    return .identifier t.extent t.value
  else raise .unexpectedIdentifier

/-- The number that a text writes; a text that writes none is not a number. -/
def numberOf (text : String) : Float :=
  (Number.read? text).getD Number.notANumber

/-- The value of a literal, and its text in the source. -/
def literalOf (t : Token) : Literal × String :=
  match t.kind with
  | .boolean => (.bool (t.value == "true"), t.value)
  | .number => (.number (numberOf t.value), t.value)
  | .string => (.string t.value, "\"" ++ String.ofList (Scan.escape t.value.toList) ++ "\"")
  | _ => (.nil, t.value)

/-- Reads a literal, which is the current token. -/
def literal : Reading Node := do
  let t ← current
  let v := literalOf t
  advance
  return .literal t.extent v.1 v.2

/-- Reads a point and the number behind it, which together write a fraction. -/
def detachedFraction : Reading Node := do
  let start := (← current).start
  advance
  let t ← current
  let raw := "0." ++ t.value
  advance
  return .literal ⟨start, t.stop⟩ (.number (numberOf raw)) raw

/-- Reads what follows the word `import`. -/
def importStatement (start : Position) : Reading Node := do
  let t ← current
  if t.kind != .string then raise .unexpectedImport
  else
    advance
    if (← current).isTerminator then return .importStatement ⟨start, t.stop⟩ t.value
    else raise (.unexpectedValue ";")

end Reading

end LineScript
