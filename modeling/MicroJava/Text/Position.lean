/-!
# Positions in a source text

A position is a line and a column, both counted from 1; the column counts characters. A line ends
after a line feed, and every other character, a carriage return included, is one column wide.
-/

namespace MicroJava

/-- A place in the source text. -/
structure Position where
  line : Nat
  column : Nat
  deriving DecidableEq, Repr, Inhabited

namespace Position

/-- The position of the first character. -/
def start : Position := ⟨1, 1⟩

/-- The position just after a character that stands here. -/
def after (p : Position) (c : Char) : Position :=
  if c = '\n' then ⟨p.line + 1, 1⟩ else ⟨p.line, p.column + 1⟩

/-- The position just after a run of characters that starts here. -/
def afterAll (p : Position) (cs : List Char) : Position := cs.foldl after p

@[simp] theorem afterAll_nil (p : Position) : p.afterAll [] = p := rfl

@[simp] theorem afterAll_cons (p : Position) (c : Char) (cs : List Char) :
    p.afterAll (c :: cs) = (p.after c).afterAll cs := rfl

theorem afterAll_append (p : Position) (cs ds : List Char) :
    p.afterAll (cs ++ ds) = (p.afterAll cs).afterAll ds := List.foldl_append

end Position

end MicroJava
