import MicroJava.Text.Position

/-!
# Tokens

The terminals of the language, their names in messages, and the reserved words.
-/

namespace MicroJava

namespace Token

/-- What a token is. -/
inductive Kind where
  /-- Text that is no token of the language. -/
  | unknown
  | identifier
  | number
  | character
  | plus
  | minus
  | times
  | slash
  | percent
  | equal
  | notEqual
  | less
  | lessEqual
  | greater
  | greaterEqual
  | and
  | or
  | assign
  | plusAssign
  | minusAssign
  | timesAssign
  | slashAssign
  | percentAssign
  | increment
  | decrement
  | semicolon
  | comma
  | dot
  | twoDots
  | ellipsis
  | leftParen
  | rightParen
  | leftBracket
  | rightBracket
  | leftBrace
  | rightBrace
  | hash
  | breakWord
  | classWord
  | elseWord
  | finalWord
  | ifWord
  | newWord
  | printWord
  | programWord
  | readWord
  | returnWord
  | voidWord
  | whileWord
  | endOfFile
  deriving DecidableEq, Repr, Inhabited

namespace Kind

/-- All kinds, in their order. -/
def all : List Kind :=
  [unknown, identifier, number, character, plus, minus, times, slash, percent, equal, notEqual,
   less, lessEqual, greater, greaterEqual, and, or, assign, plusAssign, minusAssign, timesAssign,
   slashAssign, percentAssign, increment, decrement, semicolon, comma, dot, twoDots, ellipsis,
   leftParen, rightParen, leftBracket, rightBracket, leftBrace, rightBrace, hash, breakWord,
   classWord, elseWord, finalWord, ifWord, newWord, printWord, programWord, readWord, returnWord,
   voidWord, whileWord, endOfFile]

theorem mem_all (k : Kind) : k ∈ all := by cases k <;> decide

/-- How messages call a token of this kind: its spelling where there is only one. -/
def label : Kind → String
  | unknown => "none"
  | identifier => "identifier"
  | number => "number"
  | character => "character constant"
  | plus => "+"
  | minus => "-"
  | times => "*"
  | slash => "/"
  | percent => "%"
  | equal => "=="
  | notEqual => "!="
  | less => "<"
  | lessEqual => "<="
  | greater => ">"
  | greaterEqual => ">="
  | and => "&&"
  | or => "||"
  | assign => "="
  | plusAssign => "+="
  | minusAssign => "-="
  | timesAssign => "*="
  | slashAssign => "/="
  | percentAssign => "%="
  | increment => "++"
  | decrement => "--"
  | semicolon => ";"
  | comma => ","
  | dot => "."
  | twoDots => ".."
  | ellipsis => "..."
  | leftParen => "("
  | rightParen => ")"
  | leftBracket => "["
  | rightBracket => "]"
  | leftBrace => "\x7b"
  | rightBrace => "\x7d"
  | hash => "#"
  | breakWord => "break"
  | classWord => "class"
  | elseWord => "else"
  | finalWord => "final"
  | ifWord => "if"
  | newWord => "new"
  | printWord => "print"
  | programWord => "program"
  | readWord => "read"
  | returnWord => "return"
  | voidWord => "void"
  | whileWord => "while"
  | endOfFile => "end of file"

/-- The kinds of the reserved words. -/
def reserved : List Kind :=
  [breakWord, classWord, elseWord, finalWord, ifWord, newWord, printWord, programWord, readWord,
   returnWord, voidWord, whileWord]

def isReserved (k : Kind) : Bool := reserved.contains k

/-- The reserved word with this spelling. -/
def reserved? (text : String) : Option Kind := reserved.find? fun k => k.label == text

theorem isReserved_of_reserved? {text : String} {k : Kind} (h : reserved? text = some k) :
    k.isReserved ∧ k.label = text := by
  unfold reserved? at h
  exact ⟨List.contains_iff_mem.2 (List.mem_of_find?_eq_some h), by simpa using List.find?_some h⟩

end Kind

end Token

/-- A token: its place, the spelling of a name or reserved word, and the value of a literal. -/
structure Token where
  kind : Token.Kind
  position : Position
  text : Option String := none
  value : Option Int32 := none
  deriving DecidableEq, Inhabited

namespace Token

/-- The spelling of a name, and the empty name for any other token. -/
def name (t : Token) : String := t.text.getD ""

/-- The value of a literal, and 0 for any other token. -/
def literal (t : Token) : Int32 := t.value.getD 0

end Token

end MicroJava
