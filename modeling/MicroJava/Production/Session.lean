import MicroJava.Assembly.Access
import MicroJava.Journal
import MicroJava.Options

/-!
# The state of a compilation

A program is compiled in one pass, with one token of lookahead and without a syntax tree: each
production of the grammar checks what it reads and writes its code at once. A session is what the
productions work on: the tokens, the journal of mistakes, the symbol table, and the code.
-/

namespace MicroJava

/-- What the productions work on. -/
structure Session where
  /-- The tokens behind the next one. -/
  stream : Token.Stream
  /-- The next token. -/
  current : Token
  /-- The token taken last. -/
  previous : Token
  journal : Journal
  table : SymbolTable
  assembly : Assembly
  /-- The type of the method that is being compiled. -/
  returnType : TypeId
  deriving Inhabited

namespace Session

/-- The session before the first token. -/
def start (stream : Token.Stream) (options : Options) : Session where
  stream
  current := { kind := .unknown, position := .start }
  previous := { kind := .unknown, position := .start }
  journal := { distance := options.reportDistance }
  table := .initial
  assembly := {}
  returnType := .none

/-- The session with the next token taken. -/
def advance (s : Session) : Session :=
  let (t, stream) := s.stream.next
  { s with stream, current := t.token, previous := s.current, journal := s.journal.took t }

/-- The session with a report at the next token. -/
def report (s : Session) (least : UInt32) (p : Problem) (details : List String) : Session :=
  { s with journal := s.journal.report least ⟨s.current.position, p, details⟩ }

/-- The session at a place where it can go on after skipping tokens. -/
def resume (s : Session) : Session := { s with journal := s.journal.resume }

/-- The session with its symbol table changed, and what the change gives. -/
def withTable {α : Type} (s : Session) (f : SymbolTable → α × SymbolTable) : α × Session :=
  let (a, table) := f s.table
  (a, { s with table })

/-- The session with its code changed, and what the change gives. -/
def withAssembly {α : Type} (s : Session) (f : Assembly → α × Assembly) : α × Session :=
  let (a, assembly) := f s.assembly
  (a, { s with assembly })

end Session

end MicroJava
