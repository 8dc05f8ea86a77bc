import MicroJava.Options
import MicroJava.Proofs.Grammar

/-!
# The static rules

What a program has to keep besides the grammar, as rules over its tree. The rules know nothing of
tokens or code: names stand for what they are declared as (`Denotation`), a type is what it is built
from (`Ty`), and an expression has a value or stands for a method (`Value`).

The rules are given bottom-up: which values fit where, what expressions and designators stand for,
which statements are correct, and which names each declaration adds to its scope. At the top stands
`ProgramIsCorrect`.
-/

namespace MicroJava.Static

open Tree

/-! ### Types and values -/

/-- A type. A class is known by its name. -/
inductive Ty where
  /-- The type of a void method's result, and of the elements of the arrays that `len` takes. -/
  | void
  | int
  | char
  /-- The type of `null`. -/
  | null
  | array (element : Ty)
  | object (name : String)
  deriving DecidableEq, Inhabited

namespace Ty

def IsReference : Ty → Prop
  | null | array _ | object _ => True
  | _ => False

/-- A value of the first type may be stored where one of the second is wanted. -/
inductive Assignable : Ty → Ty → Prop where
  | same (τ : Ty) : Assignable τ τ
  | null {τ : Ty} (h : τ.IsReference) : Assignable null τ
  | anyArray (τ : Ty) : Assignable (array τ) (array void)

/-- Values of the two types may be compared. -/
inductive Comparable : Ty → Ty → Prop where
  | same (τ : Ty) : Comparable τ τ
  | nullLeft {τ : Ty} (h : τ.IsReference) : Comparable null τ
  | nullRight {τ : Ty} (h : τ.IsReference) : Comparable τ null

/-- The types whose values can be read and printed. -/
def IsPrintable (τ : Ty) : Prop := τ = int ∨ τ = char

end Ty

/-- What a call of a method has to keep. -/
structure Signature where
  result : Ty
  /-- The types of the parameters that take one argument each. -/
  fixed : List Ty
  /-- The type of the variable arguments, if the method takes any. -/
  extra : Option Ty
  deriving Inhabited

/-- What a name stands for. -/
inductive Denotation where
  | type (τ : Ty)
  | constant (τ : Ty) (v : Int32)
  | variable (τ : Ty)
  | method (σ : Signature)
  | program
  deriving Inhabited

/-- What an expression stands for. -/
inductive Value where
  | constant (τ : Ty) (v : Int32)
  | variable (τ : Ty)
  | temporary (τ : Ty)
  /-- A method that is not called. -/
  | method (σ : Signature)
  deriving Inhabited

namespace Value

/-- The type of the value. A method that is not called has none. -/
def type? : Value → Option Ty
  | .constant τ _ => some τ
  | .variable τ => some τ
  | .temporary τ => some τ
  | .method _ => none

/-- Constants are negated at once. -/
def negated : Value → Value
  | .constant τ v => .constant τ (-v)
  | _ => .temporary .int

/-- The value may be stored where one of type `τ` is wanted. A constant number or character may be
used as either, as long as 16 bits can hold it where a character is wanted. -/
inductive Fits : Value → Ty → Prop where
  | assign {v : Value} {σ τ : Ty} (hv : v.type? = some σ) (h : σ.Assignable τ) : Fits v τ
  | int {σ : Ty} {v : Int32} (h : σ.IsPrintable) : Fits (constant σ v) .int
  | char {σ : Ty} {v : Int32} (h : σ.IsPrintable) (hlow : 0 ≤ v.toInt) (hhigh : v.toInt ≤ 0xFFFF) :
    Fits (constant σ v) .char

end Value

/-- What a name stands for as a part of an expression. -/
def Denotation.value? : Denotation → Option Value
  | .constant τ v => some (.constant τ v)
  | .variable τ => some (.variable τ)
  | .method σ => some (.method σ)
  | .type _ | .program => none

/-- Names with what they stand for, in the order of their declaration. -/
abbrev Scope := List (String × Denotation)

/-- What is declared at a place of the program. -/
structure Context where
  scope : Scope
  /-- The scopes around it, from the inside out. -/
  around : List Scope
  /-- The fields of the classes. -/
  classes : List (String × Scope)
  /-- The type of the method that is declared there. -/
  result : Ty

namespace Context

variable (Γ : Context)

def lookup (n : String) : Option Denotation := (Γ.scope :: Γ.around).findSome? (·.lookup n)

/-- The name is not declared in the innermost scope. -/
def IsFresh (n : String) : Prop := Γ.scope.lookup n = none

def declare (n : String) (x : Denotation) : Context := { Γ with scope := Γ.scope ++ [(n, x)] }

/-- A scope inside. -/
def enter (scope : Scope) : Context := { Γ with scope, around := Γ.scope :: Γ.around }

end Context

/-! ### Expressions -/

mutual

/-- What an expression stands for. -/
inductive ExpressionIs (Γ : Context) : Expression → Value → Prop where
  | term {t : Term} {v : Value} (h : TermIs Γ t v) : ExpressionIs Γ (.term t) v
  | negated {t : Term} {v : Value} (h : TermIs Γ t v) (hv : v.type? = some .int) :
    ExpressionIs Γ (.negated t) v.negated
  | sum {e : Expression} {o : Adding} {t : Term} {v w : Value} (he : ExpressionIs Γ e v)
    (hv : v.type? = some .int) (ht : TermIs Γ t w) (hw : w.type? = some .int) :
    ExpressionIs Γ (.sum e o t) (.temporary .int)

inductive TermIs (Γ : Context) : Term → Value → Prop where
  | factor {f : Factor} {v : Value} (h : FactorIs Γ f v) : TermIs Γ (.factor f) v
  | product {t : Term} {o : Multiplying} {f : Factor} {v w : Value} (ht : TermIs Γ t v)
    (hv : v.type? = some .int) (hf : FactorIs Γ f w) (hw : w.type? = some .int) :
    TermIs Γ (.product t o f) (.temporary .int)

/-- A void method is not called for its value. -/
inductive FactorIs (Γ : Context) : Factor → Value → Prop where
  | designator {d : Designator} {v : Value} (h : DesignatorIs Γ d v) : FactorIs Γ (.designator d) v
  | call {d : Designator} {as : Arguments} {σ : Signature} (hd : DesignatorIs Γ d (.method σ))
    (hresult : σ.result ≠ .void) (has : ArgumentsFit Γ σ as) :
    FactorIs Γ (.call d as) (.temporary σ.result)
  | number (v : Int32) : FactorIs Γ (.number v) (.constant .int v)
  | character (v : Int32) : FactorIs Γ (.character v) (.constant .char v)
  | object {n k : String} (hn : Γ.lookup n = some (.type (.object k))) :
    FactorIs Γ (.object n) (.temporary (.object k))
  | array {n : String} {e : Expression} {τ : Ty} {v : Value} (hn : Γ.lookup n = some (.type τ))
    (he : ExpressionIs Γ e v) (hv : v.type? = some .int) :
    FactorIs Γ (.array n e) (.temporary (.array τ))
  | parentheses {e : Expression} {v : Value} (h : ExpressionIs Γ e v) :
    FactorIs Γ (.parentheses e) v

inductive DesignatorIs (Γ : Context) : Designator → Value → Prop where
  | name {n : String} {x : Denotation} {v : Value} (hn : Γ.lookup n = some x)
    (hx : x.value? = some v) : DesignatorIs Γ (.name n) v
  | field {d : Designator} {n k : String} {fields : Scope} {v : Value} {τ : Ty}
    (hd : DesignatorIs Γ d v) (hv : v.type? = some (.object k))
    (hk : Γ.classes.lookup k = some fields) (hn : fields.lookup n = some (.variable τ)) :
    DesignatorIs Γ (.field d n) (.variable τ)
  | element {d : Designator} {e : Expression} {v w : Value} {τ : Ty} (hd : DesignatorIs Γ d v)
    (hv : v.type? = some (.array τ)) (he : ExpressionIs Γ e w) (hw : w.type? = some .int) :
    DesignatorIs Γ (.element d e) (.variable τ)

/-- The arguments are those that a method with this signature takes. Variable arguments are announced
by their number. -/
inductive ArgumentsFit (Γ : Context) : Signature → Arguments → Prop where
  | plain {σ : Signature} {es : Expressions} (h : ExpressionsFit Γ σ.fixed es) :
    ArgumentsFit Γ σ (.plain es)
  | extended {σ : Signature} {es fs : Expressions} {announced : Int32} {τ : Ty}
    (h : ExpressionsFit Γ σ.fixed es) (hextra : σ.extra = some τ)
    (hfs : ExpressionsFit Γ (.replicate announced.toInt.toNat τ) fs) :
    ArgumentsFit Γ σ (.extended es announced fs)

/-- There is one expression for each type, and it may be stored there. -/
inductive ExpressionsFit (Γ : Context) : List Ty → Expressions → Prop where
  | nil : ExpressionsFit Γ [] .nil
  | cons {τ : Ty} {τs : List Ty} {e : Expression} {es : Expressions} {v : Value}
    (he : ExpressionIs Γ e v) (hv : v.Fits τ) (h : ExpressionsFit Γ τs es) :
    ExpressionsFit Γ (τ :: τs) (.cons e es)

end

/-! ### Conditions and statements -/

/-- References are only compared for being the same. -/
inductive TestIsCorrect (Γ : Context) : Test → Prop where
  | mk {e f : Expression} {o : Comparison} {v w : Value} {σ τ : Ty} (he : ExpressionIs Γ e v)
    (hv : v.type? = some σ) (hf : ExpressionIs Γ f w) (hw : w.type? = some τ)
    (h : σ.Comparable τ) (ho : σ.IsReference → o = .eq ∨ o = .ne) : TestIsCorrect Γ ⟨e, o, f⟩

def ConjunctionIsCorrect (Γ : Context) : Conjunction → Prop
  | .test t => TestIsCorrect Γ t
  | .and k t => ConjunctionIsCorrect Γ k ∧ TestIsCorrect Γ t

def ConditionIsCorrect (Γ : Context) : Condition → Prop
  | .conjunction k => ConjunctionIsCorrect Γ k
  | .or b k => ConditionIsCorrect Γ b ∧ ConjunctionIsCorrect Γ k

mutual

/-- The statement is correct, inside a loop or not. -/
inductive StatementIsCorrect (Γ : Context) : (inLoop : Bool) → Statement → Prop where
  | assign {b : Bool} {d : Designator} {e : Expression} {τ : Ty} {w : Value}
    (hd : DesignatorIs Γ d (.variable τ)) (he : ExpressionIs Γ e w) (hw : w.Fits τ) :
    StatementIsCorrect Γ b (.assign d .plain e)
  | update {b : Bool} {d : Designator} {o : Assigning} {e : Expression} {w : Value}
    (ho : o ≠ .plain) (hd : DesignatorIs Γ d (.variable .int)) (he : ExpressionIs Γ e w)
    (hw : w.type? = some .int) : StatementIsCorrect Γ b (.assign d o e)
  | call {b : Bool} {d : Designator} {as : Arguments} {σ : Signature}
    (hd : DesignatorIs Γ d (.method σ)) (has : ArgumentsFit Γ σ as) :
    StatementIsCorrect Γ b (.call d as)
  | increment {b : Bool} {d : Designator} (hd : DesignatorIs Γ d (.variable .int)) :
    StatementIsCorrect Γ b (.increment d)
  | decrement {b : Bool} {d : Designator} (hd : DesignatorIs Γ d (.variable .int)) :
    StatementIsCorrect Γ b (.decrement d)
  | ifThen {b : Bool} {k : Condition} {x : Statement} (hk : ConditionIsCorrect Γ k)
    (hx : StatementIsCorrect Γ b x) : StatementIsCorrect Γ b (.ifThen k x)
  | ifElse {b : Bool} {k : Condition} {x y : Statement} (hk : ConditionIsCorrect Γ k)
    (hx : StatementIsCorrect Γ b x) (hy : StatementIsCorrect Γ b y) :
    StatementIsCorrect Γ b (.ifElse k x y)
  | whileLoop {b : Bool} {k : Condition} {x : Statement} (hk : ConditionIsCorrect Γ k)
    (hx : StatementIsCorrect Γ true x) : StatementIsCorrect Γ b (.whileLoop k x)
  | breakLoop : StatementIsCorrect Γ true .breakLoop
  | returnNone {b : Bool} (h : Γ.result = .void) : StatementIsCorrect Γ b .returnNone
  | returnValue {b : Bool} {e : Expression} {w : Value} (h : Γ.result ≠ .void)
    (he : ExpressionIs Γ e w) (hw : w.Fits Γ.result) : StatementIsCorrect Γ b (.returnValue e)
  | read {b : Bool} {d : Designator} {τ : Ty} (hd : DesignatorIs Γ d (.variable τ))
    (hτ : τ.IsPrintable) : StatementIsCorrect Γ b (.read d)
  | print {b : Bool} {e : Expression} {v : Value} {τ : Ty} (he : ExpressionIs Γ e v)
    (hv : v.type? = some τ) (hτ : τ.IsPrintable) : StatementIsCorrect Γ b (.print e)
  | printWide {b : Bool} {e : Expression} {v : Value} {τ : Ty} {width : Int32}
    (he : ExpressionIs Γ e v) (hv : v.type? = some τ) (hτ : τ.IsPrintable) :
    StatementIsCorrect Γ b (.printWide e width)
  | block {b : Bool} {xs : Statements} (h : StatementsAreCorrect Γ b xs) :
    StatementIsCorrect Γ b (.block xs)
  | empty {b : Bool} : StatementIsCorrect Γ b .empty

inductive StatementsAreCorrect (Γ : Context) : (inLoop : Bool) → Statements → Prop where
  | nil {b : Bool} : StatementsAreCorrect Γ b .nil
  | cons {b : Bool} {x : Statement} {xs : Statements} (hx : StatementIsCorrect Γ b x)
    (hxs : StatementsAreCorrect Γ b xs) : StatementsAreCorrect Γ b (.cons x xs)

end

/-! ### Declarations -/

inductive TypeNameIs (Γ : Context) : TypeName → Ty → Prop where
  | plain {n : String} {τ : Ty} (h : Γ.lookup n = some (.type τ)) : TypeNameIs Γ ⟨n, false⟩ τ
  | array {n : String} {τ : Ty} (h : Γ.lookup n = some (.type τ)) :
    TypeNameIs Γ ⟨n, true⟩ (.array τ)

/-- The variables of type `τ` are declared one after the other. -/
inductive NamesDeclare (τ : Ty) : Context → Names → Context → Prop where
  | last {Γ : Context} {n : String} (hn : Γ.IsFresh n) :
    NamesDeclare τ Γ (.last n) (Γ.declare n (.variable τ))
  | more {Γ Γ' : Context} {n : String} {ns : Names} (hn : Γ.IsFresh n)
    (hns : NamesDeclare τ (Γ.declare n (.variable τ)) ns Γ') : NamesDeclare τ Γ (.more n ns) Γ'

inductive VariablesDeclare : Context → Variables → Context → Prop where
  | mk {Γ Γ' : Context} {t : TypeName} {ns : Names} {τ : Ty} (ht : TypeNameIs Γ t τ)
    (hns : NamesDeclare τ Γ ns Γ') : VariablesDeclare Γ ⟨t, ns⟩ Γ'

/-- The members of a list are declared one after the other. -/
inductive AllDeclare {α : Type} (declares : Context → α → Context → Prop) :
    Context → List α → Context → Prop where
  | nil {Γ : Context} : AllDeclare declares Γ [] Γ
  | cons {Γ Γ₁ Γ' : Context} {x : α} {xs : List α} (hx : declares Γ x Γ₁)
    (hxs : AllDeclare declares Γ₁ xs Γ') : AllDeclare declares Γ (x :: xs) Γ'

/-- A constant has the type of its literal. The fields of a class may be of its own type. -/
inductive DeclarationDeclares (options : Options) : Context → Declaration → Context → Prop where
  | number {Γ : Context} {t : TypeName} {n : String} {v : Int32} (ht : TypeNameIs Γ t .int)
    (hn : Γ.IsFresh n) :
    DeclarationDeclares options Γ (.constant t n (.number v)) (Γ.declare n (.constant .int v))
  | character {Γ : Context} {t : TypeName} {n : String} {v : Int32} (ht : TypeNameIs Γ t .char)
    (hn : Γ.IsFresh n) :
    DeclarationDeclares options Γ (.constant t n (.character v)) (Γ.declare n (.constant .char v))
  | vars {Γ Γ' : Context} {vs : Variables} (h : VariablesDeclare Γ vs Γ') :
    DeclarationDeclares options Γ (.vars vs) Γ'
  | record {Γ Γ₁ Γ' : Context} {n : String} {vs : List Variables} (hn : Γ.IsFresh n)
    (hclass : Γ₁ = Γ.declare n (.type (.object n)))
    (hvs : AllDeclare VariablesDeclare (Γ₁.enter []) vs Γ')
    (hlimit : Γ'.scope.length ≤ options.maxFields) :
    DeclarationDeclares options Γ (.record n vs)
      { Γ₁ with classes := (n, Γ'.scope) :: Γ.classes }

/-! ### Methods -/

/-- The parameters, with the types that take one argument each and that of the variable arguments. -/
inductive ParametersDeclare : Context → Parameters → List Ty → Option Ty → Context → Prop where
  | last {Γ : Context} {t : TypeName} {n : String} {τ : Ty} (ht : TypeNameIs Γ t τ)
    (hn : Γ.IsFresh n) :
    ParametersDeclare Γ (.last t n false) [τ] none (Γ.declare n (.variable τ))
  | variadic {Γ : Context} {t : TypeName} {n : String} {τ : Ty} (ht : TypeNameIs Γ t τ)
    (hn : Γ.IsFresh n) :
    ParametersDeclare Γ (.last t n true) [] (some τ) (Γ.declare n (.variable (.array τ)))
  | more {Γ Γ' : Context} {t : TypeName} {n : String} {ps : Parameters} {τ : Ty} {τs : List Ty}
    {extra : Option Ty} (ht : TypeNameIs Γ t τ) (hn : Γ.IsFresh n)
    (hps : ParametersDeclare (Γ.declare n (.variable τ)) ps τs extra Γ') :
    ParametersDeclare Γ (.more t n ps) (τ :: τs) extra Γ'

inductive ListDeclares : Context → Option Parameters → List Ty → Option Ty → Context → Prop where
  | none {Γ : Context} : ListDeclares Γ none [] none Γ
  | some {Γ Γ' : Context} {ps : Parameters} {τs : List Ty} {extra : Option Ty}
    (h : ParametersDeclare Γ ps τs extra Γ') : ListDeclares Γ (some ps) τs extra Γ'

inductive ResultIs (Γ : Context) : Option TypeName → Ty → Prop where
  | void : ResultIs Γ none .void
  | type {t : TypeName} {τ : Ty} (h : TypeNameIs Γ t τ) : ResultIs Γ (some t) τ

/-- The inside of a method with a name and a signature. -/
def Context.enterMethod (Γ : Context) (n : String) (σ : Signature) (scope : Scope) : Context :=
  { (Γ.declare n (.method σ)).enter scope with result := σ.result }

/-- A method is known in its own body; where its parameters are declared, it has none yet. The method
in which the program starts is void and has no parameters. -/
inductive MethodDeclares (options : Options) : Context → Tree.Method → Context → Prop where
  | mk {Γ Γ₁ Γ₂ : Context} {m : Tree.Method} {σ : Signature}
    (hresult : ResultIs Γ m.result σ.result) (hname : Γ.IsFresh m.name)
    (hparameters : ListDeclares (Γ.enterMethod m.name ⟨σ.result, [], none⟩ []) m.parameters σ.fixed
      σ.extra Γ₁)
    (hvariables : AllDeclare VariablesDeclare (Γ.enterMethod m.name σ Γ₁.scope) m.locals Γ₂)
    (hlimit : Γ₂.scope.length ≤ options.maxLocals)
    (hentry : m.name = options.entryName → m.parameters = none ∧ σ.result = .void)
    (hbody : StatementsAreCorrect Γ₂ false m.body) :
    MethodDeclares options Γ m (Γ.declare m.name (.method σ))

/-! ### Programs -/

/-- The names of the language. -/
def predeclared : Scope :=
  [("int", .type .int), ("char", .type .char), ("null", .constant .null 0),
    ("chr", .method ⟨.char, [.int], none⟩), ("ord", .method ⟨.int, [.char], none⟩),
    ("len", .method ⟨.int, [.array .void], none⟩)]

/-- The inside of the program, before anything is declared there. -/
def Context.ofProgram (n : String) : Context where
  scope := []
  around := [predeclared ++ [(n, .program)]]
  classes := []
  result := .void

/-- The program keeps the static rules, within the limits of the options. -/
inductive ProgramIsCorrect (options : Options) : Program → Prop where
  | mk {p : Program} {Γ Γ' : Context} (hname : predeclared.lookup p.name = none)
    (hdeclarations : AllDeclare (DeclarationDeclares options) (.ofProgram p.name) p.declarations Γ)
    (hlimit : Γ.scope.length ≤ options.maxGlobals)
    (hmethods : AllDeclare (MethodDeclares options) Γ p.methods Γ')
    (hentry : ∃ m ∈ p.methods, m.name = options.entryName) : ProgramIsCorrect options p

end MicroJava.Static
