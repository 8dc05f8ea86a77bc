import MicroJava.Toml.Scalar

/-!
# Reading TOML

A document is a sequence of lines: keys with their values, headers of tables, and comments. `read`
gives the table of a document, and nothing if the text is not one.
-/

namespace MicroJava.Toml

/-- A step that reads from the front of a text, and may fail. -/
abbrev Reader (α : Type) := StateT (List Char) Option α

namespace Reader

variable {α β : Type}

/-- The next character. -/
def peek : Reader (Option Char) := return (← get).head?

/-- Takes the characters from the front that satisfy `p`. -/
def span (p : Char → Bool) : Reader (List Char) :=
  modifyGet fun cs => (cs.takeWhile p, cs.dropWhile p)

/-- Takes the given text, if it comes next. -/
def skip (text : List Char) : Reader Bool :=
  modifyGet fun cs => if text.isPrefixOf cs then (true, cs.drop text.length) else (false, cs)

/-- Takes the given text, which has to come next. -/
def require (text : List Char) : Reader Unit := do
  if ← skip text then return () else failure

/-- Repeats a step until it gives a result, at most as often as the number says. -/
def iterate (body : α → Reader (α ⊕ β)) : Nat → α → Reader β
  | 0, _ => failure
  | n + 1, a => do
    match ← body a with
    | .inl a => iterate body n a
    | .inr b => return b

/-- Repeats a step that takes at least one character each time, until it gives a result. -/
def loop (body : α → Reader (α ⊕ β)) (a : α) : Reader β := do
  iterate body ((← get).length + 1) a

/-! ### Blanks, comments and line ends -/

def isSpace (c : Char) : Bool := c = ' ' || c = '\t'

def spaces : Reader Unit := discard (span isSpace)

/-- Takes the end of a line, if it comes next. -/
def newline : Reader Bool := do
  if ← skip ['\n'] then return true else skip ['\r', '\n']

/-- A character that may stand in a comment: no control character but the tab. -/
def isText (c : Char) : Bool := c = '\t' || (' ' ≤ c && c ≠ '\x7f')

/-- Takes a comment, if one comes next. -/
def comment : Reader Unit := do
  if ← skip ['#'] then discard (span isText)

/-- The end of a line or of the text, behind blanks and a comment. -/
def lineEnd : Reader Unit := do
  spaces
  comment
  unless ← newline do
    if (← peek).isSome then failure

/-- Blanks, comments and line ends, which may stand anywhere between the elements of an array. -/
def gap : Reader Unit :=
  loop (fun _ => do
    spaces
    comment
    return if ← newline then .inl () else .inr ()) ()

/-! ### Strings -/

/-- The character that so many hexadecimal digits stand for. -/
def codePoint (digits : Nat) : Reader Char := do
  let ds := (← get).take digits
  if ds.length < digits || !ds.all isHexDigit then failure
  modify (·.drop digits)
  let n := number 16 ds
  if n.isValidChar then return .ofNat n else failure

/-- The character of an escape, behind its backslash. -/
def escape : Reader Char := do
  match ← get with
  | [] => failure
  | c :: cs =>
    set cs
    match c with
    | 'b' => return '\x08'
    | 't' => return '\t'
    | 'n' => return '\n'
    | 'f' => return '\x0c'
    | 'r' => return '\r'
    | '"' => return '"'
    | '\\' => return '\\'
    | 'u' => codePoint 4
    | 'U' => codePoint 8
    | _ => failure

/-- Takes one character that satisfies `p`, which has to come next. -/
def one (p : Char → Bool) : Reader Char := do
  match ← get with
  | [] => failure
  | c :: cs => if p c then set cs; return c else failure

/-- One more character of a string in quotes; those before it stand last first. -/
def quotedStep (quote : Char) (found : List Char) : Reader (List Char ⊕ String) := do
  if ← skip [quote] then return .inr (.ofList found.reverse)
  if quote = '"' then
    if ← skip ['\\'] then return .inl ((← escape) :: found)
  return .inl ((← one isText) :: found)

/-- A string on one line, behind its opening quote. Only a double quote allows escapes. -/
def quoted (quote : Char) : Reader String := loop (quotedStep quote) []

/-- Takes blanks and the end of the line, and all blanks and line ends behind them, if they come
next. -/
def foldedLine : Reader Bool := do
  let start ← get
  spaces
  if ← newline then
    loop (fun _ => do
      spaces
      return if ← newline then .inl () else .inr ()) ()
    return true
  else
    set start
    return false

/-- Some more characters of a string in triple quotes; those before them stand last first. Up to two
quotes belong to the string, and so do up to two in front of the closing ones. -/
def multilineStep (quote : Char) (found : List Char) : Reader (List Char ⊕ String) := do
  let quotes ← span (· = quote)
  if 5 < quotes.length then failure
  if 3 ≤ quotes.length then return .inr (.ofList (quotes.drop 3 ++ found).reverse)
  if !quotes.isEmpty then
    if (← peek).isNone then failure
    return .inl (quotes ++ found)
  if ← newline then return .inl ('\n' :: found)
  if quote = '"' then
    if ← skip ['\\'] then
      if ← foldedLine then return .inl found
      return .inl ((← escape) :: found)
  return .inl ((← one isText) :: found)

/-- A string in triple quotes, behind the opening ones. A line end right behind them does not
belong to it. -/
def multiline (quote : Char) : Reader String := do
  discard newline
  loop (multilineStep quote) []

/-- A string, behind its first quote. -/
def string (quote : Char) : Reader String := do
  if ← skip [quote, quote] then multiline quote else quoted quote

/-! ### Keys -/

/-- How deep keys, arrays and inline tables may be nested. -/
def depthLimit : Nat := 79

def isBare (c : Char) : Bool := c.isAlphanum || c = '-' || c = '_'

/-- One part of a key. -/
def simpleKey : Reader String := do
  if ← skip ['"'] then quoted '"'
  else if ← skip ['\''] then quoted '\''
  else
    let cs ← span isBare
    if cs.isEmpty then failure
    return .ofList cs

/-- One more part of a key; those before it stand last first. -/
def keyStep (found : List String) : Reader (List String ⊕ List String) := do
  spaces
  let part ← simpleKey
  spaces
  return if ← skip ['.'] then .inl (part :: found) else .inr (part :: found)

/-- A key: the path to its last part, and that part. -/
def key : Reader (List String × String) := do
  match ← loop keyStep [] with
  | [] => failure
  | last :: path =>
    if depthLimit ≤ path.length then failure
    return (path.reverse, last)

/-! ### Values -/

/-- A character of a plain value. -/
def isPlain (c : Char) : Bool :=
  c.isAlphanum || c = '_' || c = '+' || c = '-' || c = '.' || c = ':'

/-- A plain value. A date may be followed by a time behind one blank. -/
def plain : Reader Value := do
  let cs ← span isPlain
  let rest ← get
  let cs ← match rest with
    | ' ' :: c :: _ =>
      if date? cs = some [] && c.isDigit then
        set (rest.drop 1)
        pure (cs ++ ' ' :: (← span isPlain))
      else pure cs
    | _ => pure cs
  match plainValue? cs with
  | some v => return v
  | none => failure

/-- One more element of an array, or its end. -/
def arrayStep (value : Reader Value) (_ : Unit) : Reader (Unit ⊕ Unit) := do
  gap
  if ← skip [']'] then return .inr ()
  discard value
  gap
  if ← skip [','] then return .inl ()
  require [']']
  return .inr ()

/-- A key and its value in an inline table. -/
def inlineEntry (value : Reader Value) (t : Table) : Reader Table := do
  let (path, last) ← key
  require ['=']
  spaces
  let v ← value
  spaces
  match t.addValue path last v with
  | some t => return t
  | none => failure

/-- An inline table, behind its opening brace. -/
def inlineTable (value : Reader Value) : Reader Unit := do
  spaces
  if ← skip ['}'] then return ()
  loop (fun t => do
    let t ← inlineEntry value t
    if ← skip [','] then return .inl t
    require ['}']
    return .inr ()) ({} : Table)

/-- A value that nests arrays and inline tables at most `depth` deep. -/
def value : (depth : Nat) → Reader Value
  | 0 => do
    if ← skip ['"'] then return .string (← string '"')
    else if ← skip ['\''] then return .string (← string '\'')
    else plain
  | depth + 1 => do
    if ← skip ['['] then
      loop (arrayStep (value depth)) ()
      return .other
    else if ← skip ['{'] then
      inlineTable (value depth)
      return .other
    else value 0

/-! ### Documents -/

/-- What a document says so far: its table, and the path of the table that is open. -/
structure Document where
  table : Table := {}
  header : List String := []
  deriving Inhabited

/-- A key and its value, which belong to the open table. -/
def entry (d : Document) : Reader Document := do
  let (path, last) ← key
  require ['=']
  spaces
  let v ← value depthLimit
  lineEnd
  match d.table.alter .implicit (·.addValue path last v) d.header with
  | some table => return { d with table }
  | none => failure

/-- A header, behind its first bracket, which opens a table. -/
def header (d : Document) : Reader Document := do
  let isArray ← skip ['[']
  let (path, last) ← key
  require (if isArray then [']', ']'] else [']'])
  lineEnd
  match if isArray then d.table.addToTables path last else d.table.addTable path last with
  | some table => return { table, header := path ++ [last] }
  | none => failure

/-- One more line of a document, or its end. -/
def lineStep (d : Document) : Reader (Document ⊕ Table) := do
  spaces
  match ← peek with
  | none => return .inr d.table
  | some '[' =>
    require ['[']
    return .inl (← header d)
  | some c =>
    if c = '#' || c = '\n' || c = '\r' then
      lineEnd
      return .inl d
    else return .inl (← entry d)

/-- A document. A byte order mark in front of it does not matter. -/
def document : Reader Table := do
  discard (skip ['\ufeff'])
  loop lineStep {}

end Reader

/-- The table of a document. -/
def read (text : String) : Option Table := (Reader.document.run text.toList).map (·.1)

end MicroJava.Toml
