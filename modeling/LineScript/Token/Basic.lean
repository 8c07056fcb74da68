import LineScript.Source
import LineScript.Text.Blank

/-!
# Tokens

The words, punctuators and literals a source text is made of. Every table of the vocabulary is one
function here: the text of a keyword, the text of a punctuator, which tokens end a body.
-/

namespace LineScript

/-- The reserved words. A word that opens with `end` takes the word behind it along, so that the
closing of a block is a single token; one that closes no known block is `endOther`. -/
inductive Keyword where
  | ifWord | inWord | orWord | andWord | forWord | notWord | newWord | elseWord | elseIfWord
  | thenWord | breakWord | whileWord | returnWord | importWord | functionWord | continueWord
  | debuggerWord | endIf | endFor | endWhile | endFunction | endOther
deriving DecidableEq, Inhabited

namespace Keyword

/-- How a reserved word is spelled. -/
def text : Keyword → String
  | ifWord => "if"
  | inWord => "in"
  | orWord => "or"
  | andWord => "and"
  | forWord => "for"
  | notWord => "not"
  | newWord => "new"
  | elseWord => "else"
  | elseIfWord => "else if"
  | thenWord => "then"
  | breakWord => "break"
  | whileWord => "while"
  | returnWord => "return"
  | importWord => "import"
  | functionWord => "function"
  | continueWord => "continue"
  | debuggerWord => "debugger"
  | endIf => "end if"
  | endFor => "end for"
  | endWhile => "end while"
  | endFunction => "end function"
  | endOther => "end"

/-- Every reserved word with a spelling of its own, which leaves out `endOther`. -/
def spelled : List Keyword :=
  [ifWord, inWord, orWord, andWord, forWord, notWord, newWord, elseWord, elseIfWord, thenWord,
    breakWord, whileWord, returnWord, importWord, functionWord, continueWord, debuggerWord, endIf,
    endFor, endWhile, endFunction]

/-- The reserved word a text spells. A text that opens with `end` and closes no known block is
`endOther`. -/
def ofText? (s : String) : Option Keyword :=
  match spelled.find? (fun k => k.text == s) with
  | some k => some k
  | none => if s.toList.take 3 == ['e', 'n', 'd'] then some endOther else none

/-- The words that close a block: `else`, `else if` and all that open with `end`. -/
def closesBlock : Keyword → Bool
  | elseWord | elseIfWord | endIf | endFor | endWhile | endFunction | endOther => true
  | _ => false

/-- The single words that are reserved. The three literal words are not among them. -/
def reserved : List String :=
  ["if", "in", "or", "and", "end", "for", "not", "new", "else", "then", "break", "while",
    "return", "import", "function", "continue", "debugger"]

/-- Whether a single word is reserved. -/
def isReserved (word : String) : Bool :=
  reserved.contains word

end Keyword

/-- Operators and delimiters. -/
inductive Punctuator where
  | dot | assign | equal | less | lessEqual | shiftLeft | greater | greaterEqual | shiftRight
  | shiftRightUnsigned | notEqual | minus | minusAssign | plus | plusAssign | star | starAssign
  | slash | slashAssign | caret | percent | colon | comma | braceOpen | braceClose | bracketOpen
  | bracketClose | parenOpen | parenClose | ampersand | pipe
deriving DecidableEq, Inhabited

namespace Punctuator

/-- How a punctuator is spelled. -/
def text : Punctuator → String
  | dot => "."
  | assign => "="
  | equal => "=="
  | less => "<"
  | lessEqual => "<="
  | shiftLeft => "<<"
  | greater => ">"
  | greaterEqual => ">="
  | shiftRight => ">>"
  | shiftRightUnsigned => ">>>"
  | notEqual => "!="
  | minus => "-"
  | minusAssign => "-="
  | plus => "+"
  | plusAssign => "+="
  | star => "*"
  | starAssign => "*="
  | slash => "/"
  | slashAssign => "/="
  | caret => "^"
  | percent => "%"
  | colon => ":"
  | comma => ","
  | braceOpen => "\x7b"
  | braceClose => "\x7d"
  | bracketOpen => "["
  | bracketClose => "]"
  | parenOpen => "("
  | parenClose => ")"
  | ampersand => "&"
  | pipe => "|"

/-- How many characters a punctuator takes. -/
def width (p : Punctuator) : Nat :=
  p.text.length

/-- The punctuator of the operator that a compound assignment applies: `+=` applies `+`. -/
def compound? : Punctuator → Option Punctuator
  | plusAssign => some plus
  | minusAssign => some minus
  | starAssign => some star
  | slashAssign => some slash
  | _ => none

/-- The longest punctuator the characters begin with. -/
def ofChars? : List Char → Option Punctuator
  | '.' :: _ => some dot
  | '=' :: '=' :: _ => some equal
  | '=' :: _ => some assign
  | '<' :: '=' :: _ => some lessEqual
  | '<' :: '<' :: _ => some shiftLeft
  | '<' :: _ => some less
  | '>' :: '=' :: _ => some greaterEqual
  | '>' :: '>' :: '>' :: _ => some shiftRightUnsigned
  | '>' :: '>' :: _ => some shiftRight
  | '>' :: _ => some greater
  | '!' :: '=' :: _ => some notEqual
  | '-' :: '=' :: _ => some minusAssign
  | '-' :: _ => some minus
  | '+' :: '=' :: _ => some plusAssign
  | '+' :: _ => some plus
  | '*' :: '=' :: _ => some starAssign
  | '*' :: _ => some star
  | '/' :: '=' :: _ => some slashAssign
  | '/' :: _ => some slash
  | '^' :: _ => some caret
  | '%' :: _ => some percent
  | ':' :: _ => some colon
  | ',' :: _ => some comma
  | '\x7b' :: _ => some braceOpen
  | '\x7d' :: _ => some braceClose
  | '[' :: _ => some bracketOpen
  | ']' :: _ => some bracketClose
  | '(' :: _ => some parenOpen
  | ')' :: _ => some parenClose
  | '&' :: _ => some ampersand
  | '|' :: _ => some pipe
  | _ => none

end Punctuator

/-- What a token is. A line break and a `;` both end a line. -/
inductive TokenKind where
  | endOfLine
  | endOfFile
  | keyword (k : Keyword)
  | identifier
  | string
  | number
  | boolean
  | nil
  | punctuator (p : Punctuator)
deriving DecidableEq, Inhabited

/-- One token. Its value is the text of the token, of a string literal the text that the quotes
hold; the end of a line has the value `;` and the end of the source the value `<eof>`. -/
structure Token where
  kind : TokenKind
  value : String
  span : Span
  extent : Extent
deriving DecidableEq, Inhabited

namespace Token

/-- Where a token begins. -/
def start (t : Token) : Position := t.extent.start

/-- Where a token ends. -/
def stop (t : Token) : Position := t.extent.stop

/-- The line a token begins on. -/
def line (t : Token) : Nat := t.extent.start.line

/-- The end of the source. -/
def isEndOfFile (t : Token) : Bool := t.kind == .endOfFile

/-- A line break or a `;`. -/
def isEndOfLine (t : Token) : Bool := t.kind == .endOfLine

/-- What ends a statement: the end of a line or of the source. -/
def isTerminator (t : Token) : Bool := t.isEndOfLine || t.isEndOfFile

/-- The given reserved word. -/
def isKeyword (t : Token) (k : Keyword) : Bool := t.kind == .keyword k

/-- The given punctuator. -/
def isPunctuator (t : Token) (p : Punctuator) : Bool := t.kind == .punctuator p

/-- A name. -/
def isIdentifier (t : Token) : Bool := t.kind == .identifier

/-- A literal other than `null`. -/
def isValueLiteral (t : Token) : Bool :=
  match t.kind with
  | .string | .number | .boolean => true
  | _ => false

/-- A literal, `null` included. -/
def isLiteral (t : Token) : Bool := t.isValueLiteral || t.kind == .nil

/-- What ends a body that shares the line of its header. The word `if` is not among them, so that
one such body can stand in another. -/
def endsLineBody (t : Token) : Bool :=
  match t.kind with
  | .endOfFile => true
  | .keyword .elseWord | .keyword .elseIfWord | .keyword .endFor | .keyword .endWhile
  | .keyword .endFunction | .keyword .endIf => true
  | _ => false

/-- What ends a body on lines of its own. -/
def endsBlock (t : Token) : Bool :=
  match t.kind with
  | .endOfFile => true
  | .keyword k => k.closesBlock
  | _ => false

end Token

end LineScript
