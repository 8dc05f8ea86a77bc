import MicroJava.Production.Program

/-!
# Compiling

`compile` turns a source text into an image and the diagnostics of the text. Mistakes in the text do
not prevent an image. The productions are given one turn of each loop, and one level of nesting, for
every token of the text and a few more, which is more than they can use.
-/

namespace MicroJava

/-- The result of a compilation. -/
structure Compilation where
  image : Image
  diagnostics : List Diagnostic
  deriving DecidableEq, Inhabited

namespace Compilation

def hasErrors (c : Compilation) : Bool := !c.diagnostics.isEmpty

end Compilation

/-- The setting in which a stream of tokens is compiled. -/
def Setting.ofStream (options : Options) (stream : Token.Stream) : Setting where
  options
  bound := stream.ahead.length + 2

/-- The outcome of a step on the tokens of a stream, and the session that it leaves. -/
def Production.runOn {α : Type} (step : Production α) (options : Options)
    (stream : Token.Stream) : Except Fault α × Session :=
  step (.ofStream options stream) (.start stream options)

/-- Compiles a stream of tokens. -/
def compileTokens (options : Options) (stream : Token.Stream) : Except Fault Compilation :=
  match Production.sourceFile.runOn options stream with
  | (.error fault, _) => .error fault
  | (.ok (), session) =>
    session.assembly.finish.map fun image =>
      { image, diagnostics := session.journal.log.toList }

/-- Compiles a source text. -/
def compile (source : String) (options : Options := {}) : Except Fault Compilation :=
  compileTokens options (Token.scan source)

end MicroJava
