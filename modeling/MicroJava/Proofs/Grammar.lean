import MicroJava.Bytecode.Comparison
import MicroJava.Token

/-!
# The grammar

The programs of the language as trees, one constructor for each form that the grammar has, and the
terminals that a tree stands for (`yield`). Sums, products, designators and conditions lean to the
left, as they are read; lists lean to the right. An `else` belongs to the nearest `if`
(`NearestElse`): what stands in front of it does not end in an `if` without one.
-/

namespace MicroJava

/-- A token as the grammar sees it: what it is, with the name or the value that it carries. -/
inductive Terminal where
  | word (k : Token.Kind)
  | name (n : String)
  | number (v : Int32)
  | character (v : Int32)
  deriving DecidableEq, Inhabited

def Terminal.kind : Terminal → Token.Kind
  | word k => k
  | name _ => .identifier
  | number _ => .number
  | character _ => .character

def Token.terminal (t : Token) : Terminal :=
  match t.kind with
  | .identifier => .name t.name
  | .number => .number t.literal
  | .character => .character t.literal
  | k => .word k

@[simp] theorem Token.kind_terminal (t : Token) : t.terminal.kind = t.kind := by
  unfold Token.terminal
  split <;> simp [Terminal.kind, *]

def Comparison.kind : Comparison → Token.Kind
  | eq => .equal
  | ne => .notEqual
  | lt => .less
  | le => .lessEqual
  | gt => .greater
  | ge => .greaterEqual

namespace Tree

/-- `"+" | "-"`. -/
inductive Adding where
  | plus
  | minus
  deriving DecidableEq

def Adding.kind : Adding → Token.Kind
  | plus => .plus
  | minus => .minus

/-- `"*" | "/" | "%"`. -/
inductive Multiplying where
  | times
  | slash
  | percent
  deriving DecidableEq

def Multiplying.kind : Multiplying → Token.Kind
  | times => .times
  | slash => .slash
  | percent => .percent

/-- `"=" | "+=" | "-=" | "*=" | "/=" | "%="`. -/
inductive Assigning where
  | plain
  | add (o : Adding)
  | multiply (o : Multiplying)
  deriving DecidableEq

def Assigning.kind : Assigning → Token.Kind
  | plain => .assign
  | add .plus => .plusAssign
  | add .minus => .minusAssign
  | multiply .times => .timesAssign
  | multiply .slash => .slashAssign
  | multiply .percent => .percentAssign

mutual

/-- `[ "-" ] Term { Addop Term }`. -/
inductive Expression where
  | term (t : Term)
  | negated (t : Term)
  | sum (e : Expression) (o : Adding) (t : Term)

/-- `Factor { Mulop Factor }`. -/
inductive Term where
  | factor (f : Factor)
  | product (t : Term) (o : Multiplying) (f : Factor)

inductive Factor where
  | designator (d : Designator)
  | call (d : Designator) (as : Arguments)
  | number (v : Int32)
  | character (v : Int32)
  | object (name : String)
  | array (name : String) (size : Expression)
  | parentheses (e : Expression)

/-- `ident { "." ident | "[" Expr "]" }`. -/
inductive Designator where
  | name (n : String)
  | field (d : Designator) (n : String)
  | element (d : Designator) (index : Expression)

/-- `"(" [ List ] [ "#" number [ List ] ] ")"`. -/
inductive Arguments where
  | plain (fixed : Expressions)
  | extended (fixed : Expressions) (announced : Int32) (extra : Expressions)

/-- `[ Expr { "," Expr } ]`. -/
inductive Expressions where
  | nil
  | cons (e : Expression) (es : Expressions)

end

mutual

def Expression.yield : Expression → List Terminal
  | .term t => t.yield
  | .negated t => .word .minus :: t.yield
  | .sum e o t => e.yield ++ .word o.kind :: t.yield

def Term.yield : Term → List Terminal
  | .factor f => f.yield
  | .product t o f => t.yield ++ .word o.kind :: f.yield

def Factor.yield : Factor → List Terminal
  | .designator d => d.yield
  | .call d as => d.yield ++ as.yield
  | .number v => [.number v]
  | .character v => [.character v]
  | .object n => [.word .newWord, .name n]
  | .array n e =>
    .word .newWord :: .name n :: .word .leftBracket :: (e.yield ++ [.word .rightBracket])
  | .parentheses e => .word .leftParen :: (e.yield ++ [.word .rightParen])

def Designator.yield : Designator → List Terminal
  | .name n => [.name n]
  | .field d n => d.yield ++ [.word .dot, .name n]
  | .element d e => d.yield ++ .word .leftBracket :: (e.yield ++ [.word .rightBracket])

def Arguments.yield : Arguments → List Terminal
  | .plain es => .word .leftParen :: (es.yield ++ [.word .rightParen])
  | .extended es v fs =>
    .word .leftParen ::
      (es.yield ++ .word .hash :: .number v :: (fs.yield ++ [.word .rightParen]))

def Expressions.yield : Expressions → List Terminal
  | .nil => []
  | .cons e es => e.yield ++ es.more

/-- What the members of a list behind the first one stand for. -/
def Expressions.more : Expressions → List Terminal
  | .nil => []
  | .cons e es => .word .comma :: (e.yield ++ es.more)

end

/-- `Expr Relop Expr`. -/
structure Test where
  left : Expression
  comparison : Comparison
  right : Expression

def Test.yield (t : Test) : List Terminal :=
  t.left.yield ++ .word t.comparison.kind :: t.right.yield

/-- `CondFact { "&&" CondFact }`. -/
inductive Conjunction where
  | test (t : Test)
  | and (k : Conjunction) (t : Test)

def Conjunction.yield : Conjunction → List Terminal
  | test t => t.yield
  | and k t => k.yield ++ .word .and :: t.yield

/-- `CondTerm { "||" CondTerm }`. -/
inductive Condition where
  | conjunction (k : Conjunction)
  | or (d : Condition) (k : Conjunction)

def Condition.yield : Condition → List Terminal
  | conjunction k => k.yield
  | or d k => d.yield ++ .word .or :: k.yield

mutual

inductive Statement where
  | assign (d : Designator) (o : Assigning) (e : Expression)
  | call (d : Designator) (as : Arguments)
  | increment (d : Designator)
  | decrement (d : Designator)
  | ifThen (b : Condition) (x : Statement)
  | ifElse (b : Condition) (x y : Statement)
  | whileLoop (b : Condition) (x : Statement)
  | breakLoop
  | returnNone
  | returnValue (e : Expression)
  | read (d : Designator)
  | print (e : Expression)
  | printWide (e : Expression) (width : Int32)
  | block (xs : Statements)
  | empty

/-- `{ Statement }`. -/
inductive Statements where
  | nil
  | cons (x : Statement) (xs : Statements)

end

mutual

def Statement.yield : Statement → List Terminal
  | .assign d o e => d.yield ++ .word o.kind :: (e.yield ++ [.word .semicolon])
  | .call d as => d.yield ++ as.yield ++ [.word .semicolon]
  | .increment d => d.yield ++ [.word .increment, .word .semicolon]
  | .decrement d => d.yield ++ [.word .decrement, .word .semicolon]
  | .ifThen b x =>
    .word .ifWord :: .word .leftParen :: (b.yield ++ .word .rightParen :: x.yield)
  | .ifElse b x y =>
    .word .ifWord :: .word .leftParen ::
      (b.yield ++ .word .rightParen :: (x.yield ++ .word .elseWord :: y.yield))
  | .whileLoop b x =>
    .word .whileWord :: .word .leftParen :: (b.yield ++ .word .rightParen :: x.yield)
  | .breakLoop => [.word .breakWord, .word .semicolon]
  | .returnNone => [.word .returnWord, .word .semicolon]
  | .returnValue e => .word .returnWord :: (e.yield ++ [.word .semicolon])
  | .read d =>
    .word .readWord :: .word .leftParen :: (d.yield ++ [.word .rightParen, .word .semicolon])
  | .print e =>
    .word .printWord :: .word .leftParen :: (e.yield ++ [.word .rightParen, .word .semicolon])
  | .printWide e v =>
    .word .printWord :: .word .leftParen ::
      (e.yield ++ [.word .comma, .number v, .word .rightParen, .word .semicolon])
  | .block xs => .word .leftBrace :: (xs.yield ++ [.word .rightBrace])
  | .empty => [.word .semicolon]

def Statements.yield : Statements → List Terminal
  | .nil => []
  | .cons x xs => x.yield ++ xs.yield

end

/-- The statement has no statements and no conditions in it, and does not end anything. -/
def Statement.IsSimple : Statement → Prop
  | assign .. | call .. | increment _ | decrement _ | read _ | print _ | printWide .. => True
  | _ => False

/-- The statement ends in an `if` without an `else`. -/
def Statement.EndsOpen : Statement → Prop
  | ifThen _ _ => True
  | ifElse _ _ y => y.EndsOpen
  | whileLoop _ x => x.EndsOpen
  | _ => False

mutual

/-- Every `else` belongs to the nearest `if`. -/
def Statement.NearestElse : Statement → Prop
  | .ifThen _ x => x.NearestElse
  | .ifElse _ x y => ¬x.EndsOpen ∧ x.NearestElse ∧ y.NearestElse
  | .whileLoop _ x => x.NearestElse
  | .block xs => xs.NearestElse
  | _ => True

def Statements.NearestElse : Statements → Prop
  | .nil => True
  | .cons x xs => x.NearestElse ∧ xs.NearestElse

end

/-- `ident [ "[" "]" ]`. -/
structure TypeName where
  name : String
  isArray : Bool

def TypeName.yield (t : TypeName) : List Terminal :=
  .name t.name :: if t.isArray then [.word .leftBracket, .word .rightBracket] else []

/-- `ident { "," ident }`. -/
inductive Names where
  | last (n : String)
  | more (n : String) (ns : Names)

def Names.yield : Names → List Terminal
  | last n => [.name n]
  | more n ns => .name n :: .word .comma :: ns.yield

/-- `Type ident { "," ident } ";"`. -/
structure Variables where
  type : TypeName
  names : Names

def Variables.yield (v : Variables) : List Terminal :=
  v.type.yield ++ (v.names.yield ++ [.word .semicolon])

/-- `number | charConst`. -/
inductive Literal where
  | number (v : Int32)
  | character (v : Int32)

def Literal.terminal : Literal → Terminal
  | number v => .number v
  | character v => .character v

inductive Declaration where
  | constant (type : TypeName) (name : String) (value : Literal)
  | vars (v : Variables)
  | record (name : String) (fields : List Variables)

def Declaration.yield : Declaration → List Terminal
  | constant t n v =>
    .word .finalWord :: (t.yield ++ [.name n, .word .assign, v.terminal, .word .semicolon])
  | vars v => v.yield
  | record n vs =>
    .word .classWord :: .name n :: .word .leftBrace ::
      (vs.flatMap Variables.yield ++ [.word .rightBrace])

/-- `Type ident { "," Type ident } [ "..." ]`. -/
inductive Parameters where
  | last (type : TypeName) (name : String) (variadic : Bool)
  | more (type : TypeName) (name : String) (ps : Parameters)

def Parameters.yield : Parameters → List Terminal
  | last t n variadic => t.yield ++ .name n :: if variadic then [.word .ellipsis] else []
  | more t n ps => t.yield ++ .name n :: .word .comma :: ps.yield

structure Method where
  /-- The type of the value, and nothing for `void`. -/
  result : Option TypeName
  name : String
  parameters : Option Parameters
  locals : List Variables
  body : Statements

def Method.yield (m : Method) : List Terminal :=
  m.result.elim [.word .voidWord] TypeName.yield ++ .name m.name :: .word .leftParen ::
    (m.parameters.elim [] Parameters.yield ++ .word .rightParen ::
      (m.locals.flatMap Variables.yield ++ (Statement.block m.body).yield))

structure Program where
  name : String
  declarations : List Declaration
  methods : List Method

def Program.yield (p : Program) : List Terminal :=
  .word .programWord :: .name p.name ::
    (p.declarations.flatMap Declaration.yield ++ .word .leftBrace ::
      (p.methods.flatMap Method.yield ++ [.word .rightBrace]))

def Program.NearestElse (p : Program) : Prop := ∀ m ∈ p.methods, m.body.NearestElse

end Tree

end MicroJava
