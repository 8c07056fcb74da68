import LineScript.Token.Basic

/-!
# Scanning

A cursor stands in front of the characters that are still to be read and knows its offset, line and
column. One step of scanning skips blanks and a comment and reads one token; each class of tokens
has a function that says how many characters the token takes.

A scanner is strict or lenient. At characters that make no token a strict scanner stops; a lenient
one records the error and goes on at the end of the line.
-/

namespace LineScript

/-- Why characters make no token. -/
inductive LexFault where
  /-- A string literal has no closing quote. -/
  | unclosedString
  /-- The character begins no token. -/
  | invalidCharacter (c : Char)
deriving DecidableEq, Inhabited

/-- Characters that make no token, and the line they begin on. -/
structure LexError where
  fault : LexFault
  span : Span
  line : Nat
deriving DecidableEq, Inhabited

namespace LexError

/-- What a reader is told. -/
def message (e : LexError) : String :=
  match e.fault with
  | .unclosedString => "Unexpected string ending at line " ++ toString e.line ++ "."
  | .invalidCharacter c =>
    "Invalid character " ++ c.toString ++ " at line " ++ toString e.line ++ "."

/-- The name under which the error is reported. -/
def name (e : LexError) : String :=
  match e.fault with
  | .unclosedString => "UnexpectedStringEol"
  | .invalidCharacter _ => "InvalidCharacter"

end LexError

namespace Scan

/-- Blanks between tokens. -/
def isBlank (c : Char) : Bool := c == ' ' || c == '\t'

/-- The characters that break a line. -/
def isLineBreak (c : Char) : Bool := c == '\n' || c == '\r'

/-- The ten digits. -/
def isDigit (c : Char) : Bool := '0' ≤ c && c ≤ '9'

/-- The Latin letters, the underscore, and every character beyond ASCII. -/
def isIdentifierStart (c : Char) : Bool :=
  ('a' ≤ c && c ≤ 'z') || ('A' ≤ c && c ≤ 'Z') || c == '_' || 128 ≤ c.toNat

/-- What may follow the first character of a name. -/
def isIdentifierPart (c : Char) : Bool := isIdentifierStart c || isDigit c

/-- How many columns a blank takes. A tab takes the tab width, and at least one column. -/
def blankWidth (tabWidth : Nat) (c : Char) : Nat :=
  if c == '\t' then max tabWidth 1 else 1

/-- How many columns blanks take up together. -/
def blanksWidth (tabWidth : Nat) (blanks : List Char) : Nat :=
  blanks.foldr (fun c n => blankWidth tabWidth c + n) 0

/-- How many characters the line break in front takes. A pair of the two different line break
characters is one line break. -/
def lineBreakLength : List Char → Nat
  | '\n' :: '\r' :: _ => 2
  | '\r' :: '\n' :: _ => 2
  | _ => 1

/-- How many characters the run of digits in front takes. -/
def digitsLength (cs : List Char) : Nat := (cs.takeWhile isDigit).length

/-- How many characters the fraction in front takes: a point and any digits behind it. -/
def fractionLength : List Char → Nat
  | '.' :: cs => 1 + digitsLength cs
  | _ => 0

/-- How many characters the digits of an exponent take, with the sign in front of them. -/
def exponentDigitsLength : List Char → Nat
  | '+' :: cs => 1 + digitsLength cs
  | '-' :: cs => 1 + digitsLength cs
  | cs => digitsLength cs

/-- How many characters the exponent in front takes. -/
def exponentLength : List Char → Nat
  | 'e' :: cs => 1 + exponentDigitsLength cs
  | 'E' :: cs => 1 + exponentDigitsLength cs
  | _ => 0

/-- How many characters the number in front takes: digits, then a fraction, then an exponent, each
as long as it can be. -/
def numberLength (cs : List Char) : Nat :=
  let whole := digitsLength cs
  let fraction := fractionLength (cs.drop whole)
  whole + fraction + exponentLength (cs.drop (whole + fraction))

/-- The single word in front. -/
def word (cs : List Char) : List Char := cs.takeWhile isIdentifierPart

/-- Whether the characters behind `else` turn it into `else if`: one space and the word `if`. -/
def continuesElseIf : List Char → Bool
  | ' ' :: cs => word cs == ['i', 'f']
  | _ => false

/-- How many characters behind the word `end` belong to it: one blank and the word behind that. -/
def closingLength : List Char → Nat
  | c :: cs => if isBlank c then 1 + (word cs).length else 0
  | [] => 0

/-- How many characters the word in front takes, merged words included. -/
def wordLength (cs : List Char) : Nat :=
  let first := word cs
  let behind := cs.drop first.length
  if first == ['e', 'n', 'd'] then 3 + closingLength behind
  else if first == ['e', 'l', 's', 'e'] && continuesElseIf behind then 7
  else first.length

/-- What a word that is not reserved is. -/
def plainWordKind (text : String) : TokenKind :=
  if text == "true" || text == "false" then .boolean
  else if text == "null" then .nil
  else .identifier

/-- What the word in front is, given the whole text of its token. -/
def wordKind (first : String) (text : String) : TokenKind :=
  if Keyword.isReserved first then
    match Keyword.ofText? (String.ofList (Text.trimEnd text.toList)) with
    | some k => .keyword k
    | none => plainWordKind text
  else plainWordKind text

/-- The characters in front of the quote that closes a string literal. Two quotes in a row close
nothing. -/
def quotedBody : List Char → List Char
  | '"' :: '"' :: cs => '"' :: '"' :: quotedBody cs
  | '"' :: _ => []
  | c :: cs => c :: quotedBody cs
  | [] => []

/-- The text that the characters of a string literal stand for: two quotes in a row stand for
one. -/
def unescape : List Char → List Char
  | '"' :: '"' :: cs => '"' :: unescape cs
  | c :: cs => c :: unescape cs
  | [] => []

/-- The characters of a string literal that stand for a text. -/
def escape : List Char → List Char
  | '"' :: cs => '"' :: '"' :: escape cs
  | c :: cs => c :: escape cs
  | [] => []

end Scan

/-- A place in a source text in front of the characters still to be read. -/
structure Cursor where
  rest : List Char
  offset : Nat
  line : Nat
  column : Nat
deriving Inhabited

namespace Cursor

/-- The front of a source text. -/
def ofSource (source : String) : Cursor := ⟨source.toList, 0, 1, 1⟩

/-- The largest column that is told apart. -/
def lastColumn : Nat := 4294967295

/-- Where the cursor stands. -/
def position (c : Cursor) : Position := ⟨c.line, min c.column lastColumn⟩

/-- Moves over characters of the same line. -/
def advance (c : Cursor) (n : Nat) : Cursor :=
  { c with rest := c.rest.drop n, offset := c.offset + n, column := c.column + n }

/-- Moves over a line break of `n` characters. -/
def breakLine (c : Cursor) (n : Nat) : Cursor :=
  ⟨c.rest.drop n, c.offset + n, c.line + 1, 1⟩

/-- Moves over blanks. -/
def skipBlanks (tabWidth : Nat) (c : Cursor) : Cursor :=
  let blanks := c.rest.takeWhile Scan.isBlank
  { c with
    rest := c.rest.drop blanks.length
    offset := c.offset + blanks.length
    column := c.column + Scan.blanksWidth tabWidth blanks }

/-- Moves to the end of the line, in front of the line break. -/
def skipLine (c : Cursor) : Cursor :=
  c.advance (c.rest.takeWhile (fun x => !Scan.isLineBreak x)).length

/-- Moves over a comment, which reaches to the end of the line. -/
def skipComment (c : Cursor) : Cursor :=
  match c.rest with
  | '/' :: '/' :: _ => c.skipLine
  | _ => c

/-- Moves over the given characters, which may hold line breaks. -/
def across (c : Cursor) : List Char → Cursor
  | '\n' :: '\r' :: cs => (c.breakLine 2).across cs
  | '\r' :: '\n' :: cs => (c.breakLine 2).across cs
  | '\n' :: cs => (c.breakLine 1).across cs
  | '\r' :: cs => (c.breakLine 1).across cs
  | _ :: cs => (c.advance 1).across cs
  | [] => c

/-- The token between two places. -/
def tokenTo (c : Cursor) (stop : Cursor) (kind : TokenKind) (value : String) : Token :=
  ⟨kind, value, .between c.offset stop.offset, ⟨c.position, stop.position⟩⟩

/-- The characters in front, as text. -/
def peekText (c : Cursor) (n : Nat) : String := String.ofList (c.rest.take n)

/-- Reads a token of `n` characters whose value is its text. -/
def plainToken (c : Cursor) (n : Nat) (kind : TokenKind) : Token × Cursor :=
  (c.tokenTo (c.advance n) kind (c.peekText n), c.advance n)

/-- Reads a line break. Its token leaves out the last character of the line break. -/
def lineBreak (c : Cursor) : Token × Cursor :=
  let n := Scan.lineBreakLength c.rest
  (c.tokenTo (c.advance (n - 1)) .endOfLine ";", c.breakLine n)

/-- Reads a name or a reserved word. -/
def wordToken (c : Cursor) : Token × Cursor :=
  let n := Scan.wordLength c.rest
  c.plainToken n (Scan.wordKind (String.ofList (Scan.word c.rest)) (c.peekText n))

/-- Reads a string literal, whose opening quote is in front. -/
def stringToken (c : Cursor) : Except LexError Token × Cursor :=
  let body := Scan.quotedBody (c.rest.drop 1)
  let inner := (c.advance 1).across body
  match inner.rest with
  | [] => (.error ⟨.unclosedString, .between c.offset inner.offset, c.line⟩, inner)
  | _ :: _ =>
    let value := String.ofList (Scan.unescape body)
    (.ok (c.tokenTo (inner.advance 1) .string value), inner.advance 1)

/-- Reads the token in front, where no blank and no comment stands. -/
def readToken (c : Cursor) : Except LexError Token × Cursor :=
  let lift (r : Token × Cursor) : Except LexError Token × Cursor := (.ok r.1, r.2)
  match c.rest with
  | [] => (.ok (c.tokenTo c .endOfFile "<eof>"), c)
  | x :: xs =>
    if Scan.isLineBreak x then lift c.lineBreak
    else if Scan.isIdentifierStart x then lift c.wordToken
    else if x == '"' then c.stringToken
    else if Scan.isDigit x || (x == '.' && (xs.take 1).any Scan.isDigit) then
      lift (c.plainToken (Scan.numberLength c.rest) .number)
    else if x == ';' then lift (c.plainToken 1 .endOfLine)
    else
      match Punctuator.ofChars? c.rest with
      | some p => lift (c.plainToken p.width (.punctuator p))
      | none => (.error ⟨.invalidCharacter x, .between c.offset (c.offset + 1), c.line⟩, c)

/-- Skips blanks and a comment and reads the token behind them. -/
def scan (tabWidth : Nat) (c : Cursor) : Except LexError Token × Cursor :=
  (c.skipBlanks tabWidth).skipComment.readToken

end Cursor

/-- How a source text is read. -/
structure ReadingMode where
  /-- Whether errors are recorded and passed over. -/
  lenient : Bool
  /-- How many columns a tab takes. -/
  tabWidth : Nat
deriving DecidableEq, Inhabited

/-- Strict reading, with tabs of one column. -/
def ReadingMode.standard : ReadingMode := ⟨false, 1⟩

/-- A cursor with the errors that were passed over. -/
structure Scanner where
  mode : ReadingMode
  cursor : Cursor
  errors : List LexError

namespace Scanner

/-- A scanner at the front of a source text. -/
def ofSource (mode : ReadingMode) (source : String) : Scanner :=
  ⟨mode, Cursor.ofSource source, []⟩

/-- Reads the next token. A lenient scanner reads again at the end of the line when it meets an
error, and there is always a token there. -/
def next (s : Scanner) : Except LexError Token × Scanner :=
  match s.cursor.scan s.mode.tabWidth with
  | (.ok t, c) => (.ok t, { s with cursor := c })
  | (.error e, c) =>
    if s.mode.lenient then
      let r := c.skipLine.scan s.mode.tabWidth
      (r.1, { s with cursor := r.2, errors := s.errors ++ [e] })
    else (.error e, { s with cursor := c })

/-- Reads `n` times, whatever comes, and notes each time how many errors were recorded. -/
def pull : Nat → Scanner → List (Except LexError Token × Nat)
  | 0, _ => []
  | n + 1, s => let r := s.next; (r.1, r.2.errors.length) :: pull n r.2

/-- Reads tokens up to the end of the source, or up to an error that stops the scanner. -/
def drain : Nat → Scanner → List Token × Option LexError × List LexError
  | 0, s => ([], none, s.errors)
  | n + 1, s =>
    match s.next with
    | (.error e, s') => ([], some e, s'.errors)
    | (.ok t, s') =>
      if t.isEndOfFile then ([t], none, s'.errors)
      else
        let r := drain n s'
        (t :: r.1, r.2)

end Scanner

/-- The tokens of a source text, the last of which is its end unless an error stopped the
scanner. -/
structure TokenStream where
  tokens : List Token
  /-- The error behind the last token, if one stopped the scanner. -/
  stop : Option LexError
  /-- The errors that were passed over. -/
  errors : List LexError

namespace TokenStream

/-- The tokens of a source text. Every token but the last takes a character, so one more reading
than there are characters is enough. -/
def ofSource (mode : ReadingMode) (source : String) : TokenStream :=
  let r := (Scanner.ofSource mode source).drain (source.length + 1)
  ⟨r.1, r.2.1, r.2.2⟩

end TokenStream

end LineScript
