/-!
# TOML tables

A document is a table of items. Only strings and integers are kept, since no option has a value of
another type. A table can be named by a header, by the header of a table inside it, or by a dotted
key, and which of these it was decides how it may still grow: a header may not name a table twice,
and a dotted key may only go through tables that were never named by a header of their own.
-/

namespace MicroJava.Toml

/-- A value. -/
inductive Value where
  | string (s : String)
  | integer (v : Int)
  /-- A number with a fraction, a truth value, a date or time, an array or an inline table. -/
  | other
  deriving DecidableEq, Repr, Inhabited

/-- How a table was named. -/
inductive Form where
  /-- By a header of its own. -/
  | explicit
  /-- By the header of a table inside it. -/
  | implicit
  /-- By a dotted key. -/
  | dotted
  deriving DecidableEq, Repr, Inhabited

/-- What a key stands for. -/
inductive Item where
  | value (v : Value)
  | table (form : Form) (items : List (String × Item))
  /-- An array of tables, of which only the last can still grow. -/
  | tables (last : List (String × Item))
  deriving Inhabited

/-- A table. -/
structure Table where
  form : Form := .explicit
  items : List (String × Item) := []
  deriving Inhabited

namespace Table

def find? (t : Table) (key : String) : Option Item := t.items.lookup key

/-- Puts an item under a key, in place of the one that was there. -/
def put (t : Table) (key : String) (i : Item) : Table :=
  { t with items := (key, i) :: t.items.filter (·.1 ≠ key) }

/-- Changes the table at the end of a path. Tables that are not there yet are made in the form
`made`. -/
def alter (made : Form) (change : Table → Option Table) : List String → Table → Option Table
  | [], t => change t
  | key :: path, t =>
    match t.find? key with
    | none => do
      let inner ← alter made change path { form := made }
      return t.put key (.table inner.form inner.items)
    | some (.table form items) =>
      if made = .dotted ∧ form = .explicit then none
      else do
        let inner ← alter made change path { form, items }
        return t.put key (.table inner.form inner.items)
    | some (.tables last) => do
      let inner ← alter made change path { items := last }
      return t.put key (.tables inner.items)
    | some (.value _) => none

/-- Adds a value under a key behind a dotted path. -/
def addValue (path : List String) (key : String) (v : Value) : Table → Option Table :=
  alter .dotted (fun t =>
    if (path.isEmpty || t.form = .dotted) && (t.find? key).isNone then some (t.put key (.value v))
    else none) path

/-- Adds the table of a header. -/
def addTable (path : List String) (key : String) : Table → Option Table :=
  alter .implicit (fun t =>
    match t.find? key with
    | none => some (t.put key (.table .explicit []))
    | some (.table .implicit items) => some (t.put key (.table .explicit items))
    | some _ => none) path

/-- Adds one more table to the array of tables of a header. -/
def addToTables (path : List String) (key : String) : Table → Option Table :=
  alter .implicit (fun t =>
    match t.find? key with
    | none | some (.tables _) => some (t.put key (.tables []))
    | some _ => none) path

end Table

end MicroJava.Toml
