import MicroJava.Problem
import MicroJava.Token

/-!
# Lexemes

The lexeme at the front of a text, which is neither empty nor starts with a blank or a comment. A
lexeme says how many characters belong to it besides the first, so no character can be lost or
read twice: the text is the lexeme's spelling followed by the rest (`spelling_append_rest`).
-/

namespace MicroJava.Token

/-- The lexeme at the front of a text. -/
structure Lexeme where
  kind : Kind
  /-- The number of its characters after the first. -/
  more : Nat := 0
  text : Option String := none
  value : Option Int32 := none
  /-- What is wrong with it, and the details. -/
  problems : List (Problem × List String) := []
  deriving DecidableEq, Inhabited

namespace Lexeme

/-- A character that continues a name. -/
def continuesName (c : Char) : Bool := c.isAlphanum || c == '_'

/-- The number that a run of decimal digits stands for. -/
def decimal (digits : List Char) : Nat :=
  digits.foldl (fun n d => 10 * n + (d.toNat - '0'.toNat)) 0

/-- A name or a reserved word. -/
def word (c : Char) (cs : List Char) : Lexeme :=
  let more := cs.takeWhile continuesName
  let text := String.ofList (c :: more)
  { kind := (Kind.reserved? text).getD .identifier, more := more.length, text := some text }

/-- An integer; one of more than 31 bits counts as 0. -/
def integer (c : Char) (cs : List Char) : Lexeme :=
  let more := cs.takeWhile Char.isDigit
  let n := decimal (c :: more)
  if n ≤ Int32.maxValue.toInt then
    { kind := .number, more := more.length, value := some (.ofNat n) }
  else
    { kind := .number, more := more.length, value := some 0,
      problems := [(.numberTooBig, [.ofList (c :: more)])] }

/-- The character that an escape stands for. -/
def escape? : Char → Option Char
  | 'n' => some '\n'
  | 'r' => some '\r'
  | '\'' => some '\''
  | '\\' => some '\\'
  | _ => none

/-- A character constant without a value, ended by a problem. -/
def brokenCharacter (more : Nat) (problems : List (Problem × List String)) : Lexeme :=
  { kind := .character, more, problems }

/-- A character constant up to its closing quote, when `more` characters after the opening quote
have been read and `rest` follows them. -/
def closeCharacter (c : Char) (more : Nat) (problems : List (Problem × List String))
    (rest : List Char) : Lexeme :=
  if rest.head? = some '\'' then
    { kind := .character, more := more + 1, value := some (.ofNat c.toNat), problems }
  else brokenCharacter more (problems ++ [(.missingQuote, [])])

/-- A character constant, read after its opening quote. An escape that is not defined stands for
the character 0. -/
def characterConstant : List Char → Lexeme
  | [] => brokenCharacter 0 [(.endInCharacter, [])]
  | '\'' :: _ => brokenCharacter 1 [(.emptyCharacter, [])]
  | '\n' :: _ => brokenCharacter 0 [(.lineEndInCharacter, [])]
  | '\r' :: _ => brokenCharacter 0 [(.lineEndInCharacter, [])]
  | ['\\'] => brokenCharacter 1 [(.endInCharacter, [])]
  | '\\' :: e :: rest =>
    match escape? e with
    | some c => closeCharacter c 2 [] rest
    | none => closeCharacter '\x00' 2 [(.undefinedEscape, [.ofList [e]])] rest
  | c :: rest => closeCharacter c 1 [] rest

/-- The tokens with a fixed spelling of signs, the longer before the shorter. -/
def signs : List Kind :=
  [.ellipsis, .equal, .notEqual, .lessEqual, .greaterEqual, .and, .or, .plusAssign, .minusAssign,
   .timesAssign, .slashAssign, .percentAssign, .increment, .decrement, .twoDots, .plus, .minus,
   .times, .slash, .percent, .less, .greater, .assign, .semicolon, .comma, .dot, .leftParen,
   .rightParen, .leftBracket, .rightBracket, .leftBrace, .rightBrace, .hash]

/-- The spellings of the signs. -/
def signSpellings : List (Kind × List Char) := signs.map fun k => (k, k.label.toList)

/-- The longest sign at the front of a text, or an unknown character. -/
def sign (c : Char) (cs : List Char) : Lexeme :=
  match signSpellings.find? fun s => s.2.isPrefixOf (c :: cs) with
  | some (k, spelling) => { kind := k, more := spelling.length - 1 }
  | none => { kind := .unknown, problems := [(.invalidCharacter, [.ofList [c]])] }

/-- The lexeme at the front of the text `c :: cs`. -/
def read (c : Char) (cs : List Char) : Lexeme :=
  if c.isAlpha then word c cs
  else if c.isDigit then integer c cs
  else if c = '\'' then characterConstant cs
  else sign c cs

/-- The characters of the lexeme at the front of `c :: cs`. -/
def spelling (l : Lexeme) (c : Char) (cs : List Char) : List Char := c :: cs.take l.more

/-- What follows the lexeme at the front of `c :: cs`. -/
def rest (l : Lexeme) (cs : List Char) : List Char := cs.drop l.more

theorem spelling_append_rest (l : Lexeme) (c : Char) (cs : List Char) :
    l.spelling c cs ++ l.rest cs = c :: cs := by
  simp [spelling, rest]

end Lexeme

end MicroJava.Token
