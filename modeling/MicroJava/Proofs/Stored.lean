import MicroJava.Proofs.Determined
import MicroJava.Proofs.ObeyingDeclaration

/-!
# Where constants are stored

Which constants a program stores where a type is wanted: the constants that it assigns, passes as an
argument or variable argument, returns, or declares (`ProgramStores`). In a correct program, a constant
that is stored where a character is wanted is a number that 16 bits can hold, or else one that a
character constant stands for (`ProgramStores.admissible`).
-/

namespace MicroJava

/-- What a list stands for is also what its members behind another one stand for. -/
theorem Tree.Expressions.mem_more {es : Expressions} {x : Terminal} (h : x ∈ es.yield) :
    x ∈ es.more := by
  cases es with
  | nil => simp [yield] at h
  | cons e es =>
    simp only [yield, more, List.mem_cons] at h ⊢
    exact .inr h

namespace Static

open Tree

/-! ### Places -/

section Places

variable (Γ : Context) (τ κ : Ty) (v : Int32)

mutual

/-- Inside the expression, the constant `v` of type `κ` is stored where a value of type `τ` is wanted. -/
inductive ExpressionStores : Expression → Prop where
  | term {t : Term} (h : TermStores t) : ExpressionStores (.term t)
  | negated {t : Term} (h : TermStores t) : ExpressionStores (.negated t)
  | left {e : Expression} {o : Adding} {t : Term} (h : ExpressionStores e) :
    ExpressionStores (.sum e o t)
  | right {e : Expression} {o : Adding} {t : Term} (h : TermStores t) : ExpressionStores (.sum e o t)

inductive TermStores : Term → Prop where
  | factor {f : Factor} (h : FactorStores f) : TermStores (.factor f)
  | left {t : Term} {o : Multiplying} {f : Factor} (h : TermStores t) : TermStores (.product t o f)
  | right {t : Term} {o : Multiplying} {f : Factor} (h : FactorStores f) :
    TermStores (.product t o f)

inductive FactorStores : Factor → Prop where
  | designator {d : Designator} (h : DesignatorStores d) : FactorStores (.designator d)
  | callee {d : Designator} {as : Arguments} (h : DesignatorStores d) : FactorStores (.call d as)
  | arguments {d : Designator} {as : Arguments} {σ : Signature} (hd : DesignatorIs Γ d (.method σ))
    (h : ArgumentsStore σ as) : FactorStores (.call d as)
  | array {n : String} {e : Expression} (h : ExpressionStores e) : FactorStores (.array n e)
  | parentheses {e : Expression} (h : ExpressionStores e) : FactorStores (.parentheses e)

inductive DesignatorStores : Designator → Prop where
  | field {d : Designator} {n : String} (h : DesignatorStores d) : DesignatorStores (.field d n)
  | array {d : Designator} {e : Expression} (h : DesignatorStores d) :
    DesignatorStores (.element d e)
  | index {d : Designator} {e : Expression} (h : ExpressionStores e) :
    DesignatorStores (.element d e)

/-- Of the arguments of a method with this signature, one is the constant, or has such a place in it. -/
inductive ArgumentsStore : Signature → Arguments → Prop where
  | plain {σ : Signature} {es : Expressions} (h : ExpressionsStore σ.fixed es) :
    ArgumentsStore σ (.plain es)
  | fixed {σ : Signature} {es fs : Expressions} {announced : Int32}
    (h : ExpressionsStore σ.fixed es) : ArgumentsStore σ (.extended es announced fs)
  | extra {σ : Signature} {es fs : Expressions} {announced : Int32} {ρ : Ty}
    (hextra : σ.extra = some ρ) (h : ExpressionsStore (.replicate announced.toInt.toNat ρ) fs) :
    ArgumentsStore σ (.extended es announced fs)

/-- Of the expressions that are stored where these types are wanted, one is the constant, or has such a
place in it. -/
inductive ExpressionsStore : List Ty → Expressions → Prop where
  | here {τs : List Ty} {e : Expression} {es : Expressions}
    (he : ExpressionIs Γ e (.constant κ v)) : ExpressionsStore (τ :: τs) (.cons e es)
  | inside {ρ : Ty} {τs : List Ty} {e : Expression} {es : Expressions} (h : ExpressionStores e) :
    ExpressionsStore (ρ :: τs) (.cons e es)
  | later {ρ : Ty} {τs : List Ty} {e : Expression} {es : Expressions} (h : ExpressionsStore τs es) :
    ExpressionsStore (ρ :: τs) (.cons e es)

end

def ConjunctionStores : Conjunction → Prop
  | .test t => ExpressionStores Γ τ κ v t.left ∨ ExpressionStores Γ τ κ v t.right
  | .and k t =>
    ConjunctionStores k ∨ ExpressionStores Γ τ κ v t.left ∨ ExpressionStores Γ τ κ v t.right

def ConditionStores : Condition → Prop
  | .conjunction k => ConjunctionStores Γ τ κ v k
  | .or b k => ConditionStores b ∨ ConjunctionStores Γ τ κ v k

mutual

/-- In the statement, the constant `v` of type `κ` is stored where a value of type `τ` is wanted. -/
inductive StatementStores : Statement → Prop where
  | assigned {d : Designator} {e : Expression} (hd : DesignatorIs Γ d (.variable τ))
    (he : ExpressionIs Γ e (.constant κ v)) : StatementStores (.assign d .plain e)
  | returned {e : Expression} (hresult : Γ.result = τ)
    (he : ExpressionIs Γ e (.constant κ v)) : StatementStores (.returnValue e)
  | target {d : Designator} {o : Assigning} {e : Expression} (h : DesignatorStores Γ τ κ v d) :
    StatementStores (.assign d o e)
  | source {d : Designator} {o : Assigning} {e : Expression} (h : ExpressionStores Γ τ κ v e) :
    StatementStores (.assign d o e)
  | callee {d : Designator} {as : Arguments} (h : DesignatorStores Γ τ κ v d) :
    StatementStores (.call d as)
  | arguments {d : Designator} {as : Arguments} {σ : Signature} (hd : DesignatorIs Γ d (.method σ))
    (h : ArgumentsStore Γ τ κ v σ as) : StatementStores (.call d as)
  | increment {d : Designator} (h : DesignatorStores Γ τ κ v d) : StatementStores (.increment d)
  | decrement {d : Designator} (h : DesignatorStores Γ τ κ v d) : StatementStores (.decrement d)
  | ifCondition {k : Condition} {x : Statement} (h : ConditionStores Γ τ κ v k) :
    StatementStores (.ifThen k x)
  | ifThen {k : Condition} {x : Statement} (h : StatementStores x) : StatementStores (.ifThen k x)
  | elseCondition {k : Condition} {x y : Statement} (h : ConditionStores Γ τ κ v k) :
    StatementStores (.ifElse k x y)
  | elseThen {k : Condition} {x y : Statement} (h : StatementStores x) :
    StatementStores (.ifElse k x y)
  | elseElse {k : Condition} {x y : Statement} (h : StatementStores y) :
    StatementStores (.ifElse k x y)
  | whileCondition {k : Condition} {x : Statement} (h : ConditionStores Γ τ κ v k) :
    StatementStores (.whileLoop k x)
  | whileBody {k : Condition} {x : Statement} (h : StatementStores x) :
    StatementStores (.whileLoop k x)
  | returnValue {e : Expression} (h : ExpressionStores Γ τ κ v e) : StatementStores (.returnValue e)
  | read {d : Designator} (h : DesignatorStores Γ τ κ v d) : StatementStores (.read d)
  | print {e : Expression} (h : ExpressionStores Γ τ κ v e) : StatementStores (.print e)
  | printWide {e : Expression} {width : Int32} (h : ExpressionStores Γ τ κ v e) :
    StatementStores (.printWide e width)
  | block {xs : Statements} (h : StatementsStore xs) : StatementStores (.block xs)

inductive StatementsStore : Statements → Prop where
  | here {x : Statement} {xs : Statements} (h : StatementStores x) : StatementsStore (.cons x xs)
  | later {x : Statement} {xs : Statements} (h : StatementsStore xs) : StatementsStore (.cons x xs)

end

end Places

/-- In the program, the constant `v` of type `κ` is stored where a value of type `τ` is wanted. -/
inductive ProgramStores (options : Options) (τ κ : Ty) (v : Int32) (p : Program) : Prop where
  | declared {before after : List Declaration} {t : TypeName} {n : String} {l : Literal} {Γ : Context}
    (hd : p.declarations = before ++ .constant t n l :: after)
    (hΓ : AllDeclare (DeclarationDeclares options) (.ofProgram p.name) before Γ)
    (ht : TypeNameIs Γ t τ) (hκ : l.type = κ) (hv : l.value = v)
  | inMethod {before after : List Tree.Method} {m : Tree.Method} {Γ Γ₁ Γ₂ : Context} {σ : Signature}
    (hΓ : AllDeclare (DeclarationDeclares options) (.ofProgram p.name) p.declarations Γ)
    (hm : p.methods = before ++ m :: after)
    (hΓ₁ : AllDeclare (MethodDeclares options) Γ before Γ₁) (hheader : HeaderIs Γ₁ m σ Γ₂)
    (h : StatementsStore Γ₂ τ κ v m.body)

/-! ### What is stored as a character -/

/-- The constant is a number that 16 bits can hold, or it is a character and one of the terminals stands
for it. -/
def Admissible (ts : List Terminal) (κ : Ty) (v : Int32) : Prop :=
  (0 ≤ v.toInt ∧ v.toInt ≤ 0xFFFF) ∨ κ = .char ∧ .character v ∈ ts

/-- The constants of type `char` stem from character constants among the terminals. -/
def Context.CharactersIn (Γ : Context) (ts : List Terminal) : Prop :=
  ∀ Δ ∈ Γ.scope :: Γ.around, ∀ n v, (n, .constant .char v) ∈ Δ → .character v ∈ ts

section Admissible

variable {Γ Γ' : Context} {ts : List Terminal} {κ : Ty} {v : Int32}

theorem Context.CharactersIn.lookup (hΓ : Γ.CharactersIn ts) {n : String}
    (h : Γ.lookup n = some (.constant .char v)) : .character v ∈ ts := by
  obtain ⟨Δ, hΔ, hn⟩ := List.exists_of_findSome?_eq_some h
  exact hΓ Δ hΔ n v (Scope.mem_of_lookup hn)

theorem Value.negated_ne_char {w : Value} (hw : w.type? = some .int) :
    w.negated ≠ .constant .char v := by
  cases w with
  | constant τ _ =>
    obtain rfl : τ = .int := by simpa [Value.type?] using hw
    simp [Value.negated]
  | _ => simp [Value.negated]

theorem DesignatorIs.character_mem (hΓ : Γ.CharactersIn ts) {d : Designator}
    (h : DesignatorIs Γ d (.constant .char v)) :
    .character v ∈ ts := by
  cases h with
  | @name n x _ hn hx =>
    cases x with
    | constant τ u =>
      obtain ⟨rfl, rfl⟩ : τ = .char ∧ u = v := by simpa [ Denotation.value?] using hx
      exact hΓ.lookup hn
    | _ => simp [ Denotation.value?] at hx

mutual

/-- A constant of type `char` is one that a character constant stands for. -/
theorem ExpressionIs.character_mem (hΓ : Γ.CharactersIn ts) {e : Expression} {w : Value} :
    ExpressionIs Γ e w → w = .constant .char v → e.yield ⊆ ts → .character v ∈ ts
  | .term h, hw, hts => h.character_mem hΓ hw hts
  | .negated _ hv, hw, _ => absurd hw (Value.negated_ne_char hv)

theorem TermIs.character_mem (hΓ : Γ.CharactersIn ts) {t : Term} {w : Value} :
    TermIs Γ t w → w = .constant .char v → t.yield ⊆ ts → .character v ∈ ts
  | .factor h, hw, hts => h.character_mem hΓ hw hts

theorem FactorIs.character_mem (hΓ : Γ.CharactersIn ts) {f : Factor} {w : Value} :
    FactorIs Γ f w → w = .constant .char v → f.yield ⊆ ts → .character v ∈ ts
  | .designator h, hw, _ => (hw ▸ h).character_mem hΓ
  | .character u, hw, hts => by
    obtain rfl : u = v := by simpa using hw
    exact hts (by simp [Factor.yield])
  | .parentheses h, hw, hts =>
    h.character_mem hΓ hw fun x hx => hts (by simp [Factor.yield, hx])

end

/-- A constant that may be stored as a character. -/
theorem ExpressionIs.admissible (hΓ : Γ.CharactersIn ts) {e : Expression}
    (h : ExpressionIs Γ e (.constant κ v))
    (hfits : (Value.constant κ v).Fits .char) (hts : e.yield ⊆ ts) : Admissible ts κ v := by
  cases hfits with
  | assign hv hκ =>
    obtain rfl : κ = _ := by simpa [Value.type?] using hv
    cases hκ with
    | same => exact .inr ⟨rfl, h.character_mem hΓ rfl hts⟩
    | null href => exact href.elim
  | char _ hlow hhigh => exact .inl ⟨hlow, hhigh⟩

mutual

theorem ExpressionStores.admissible (hΓ : Γ.CharactersIn ts) {e : Expression} {w : Value} :
    ExpressionStores Γ .char κ v e → ExpressionIs Γ e w → e.yield ⊆ ts → Admissible ts κ v
  | .term h, .term hw, hts => h.admissible hΓ hw hts
  | .negated h, .negated hw _, hts => h.admissible hΓ hw fun x hx => hts (by simp [Expression.yield, hx])
  | .left h, .sum hw _ _ _, hts => h.admissible hΓ hw fun x hx => hts (by simp [Expression.yield, hx])
  | .right h, .sum _ _ hw _, hts => h.admissible hΓ hw fun x hx => hts (by simp [Expression.yield, hx])

theorem TermStores.admissible (hΓ : Γ.CharactersIn ts) {t : Term} {w : Value} :
    TermStores Γ .char κ v t → TermIs Γ t w → t.yield ⊆ ts → Admissible ts κ v
  | .factor h, .factor hw, hts => h.admissible hΓ hw hts
  | .left h, .product hw _ _ _, hts => h.admissible hΓ hw fun x hx => hts (by simp [Term.yield, hx])
  | .right h, .product _ _ hw _, hts => h.admissible hΓ hw fun x hx => hts (by simp [Term.yield, hx])

theorem FactorStores.admissible (hΓ : Γ.CharactersIn ts) {f : Factor} {w : Value} :
    FactorStores Γ .char κ v f → FactorIs Γ f w → f.yield ⊆ ts → Admissible ts κ v
  | .designator h, .designator hw, hts => h.admissible hΓ hw hts
  | .callee h, .call hw _ _, hts => h.admissible hΓ hw fun x hx => hts (by simp [Factor.yield, hx])
  | .arguments hd h, .call hd' _ hw, hts => by
    obtain rfl := Value.method.inj (hd.unique hd')
    exact h.admissible hΓ hw fun x hx => hts (by simp [Factor.yield, hx])
  | .array h, .array _ hw _, hts => h.admissible hΓ hw fun x hx => hts (by simp [Factor.yield, hx])
  | .parentheses h, .parentheses hw, hts =>
    h.admissible hΓ hw fun x hx => hts (by simp [Factor.yield, hx])

theorem DesignatorStores.admissible (hΓ : Γ.CharactersIn ts) {d : Designator} {w : Value} :
    DesignatorStores Γ .char κ v d → DesignatorIs Γ d w → d.yield ⊆ ts → Admissible ts κ v
  | .field h, .field hw _ _ _, hts => h.admissible hΓ hw fun x hx => hts (by simp [Designator.yield, hx])
  | .array h, .element hw _ _ _, hts =>
    h.admissible hΓ hw fun x hx => hts (by simp [Designator.yield, hx])
  | .index h, .element _ _ hw _, hts =>
    h.admissible hΓ hw fun x hx => hts (by simp [Designator.yield, hx])

theorem ArgumentsStore.admissible (hΓ : Γ.CharactersIn ts) {σ : Signature} {as : Arguments} :
    ArgumentsStore Γ .char κ v σ as → ArgumentsFit Γ σ as → as.yield ⊆ ts → Admissible ts κ v
  | .plain h, .plain hw, hts => h.admissible hΓ hw fun x hx => hts (by simp [Arguments.yield, hx])
  | .fixed h, .extended hw _ _, hts => h.admissible hΓ hw fun x hx => hts (by simp [Arguments.yield, hx])
  | .extra hextra h, .extended _ hextra' hw, hts => by
    obtain rfl := Option.some.inj (hextra.symm.trans hextra')
    exact h.admissible hΓ hw fun x hx => hts (by simp [Arguments.yield, hx])

theorem ExpressionsStore.admissible (hΓ : Γ.CharactersIn ts) {τs : List Ty} {es : Expressions} :
    ExpressionsStore Γ .char κ v τs es → ExpressionsFit Γ τs es → es.yield ⊆ ts → Admissible ts κ v
  | .here he, .cons he' hw _, hts => by
    obtain rfl := he.unique he'
    exact he.admissible hΓ hw fun x hx => hts (by simp [Expressions.yield, hx])
  | .inside h, .cons he _ _, hts => h.admissible hΓ he fun x hx => hts (by simp [Expressions.yield, hx])
  | .later h, .cons _ _ hw, hts =>
    h.admissible hΓ hw fun x hx => hts (by simp [Expressions.yield, Expressions.mem_more hx])

end

/-! #### Statements -/

theorem test_admissible (hΓ : Γ.CharactersIn ts) {t : Test}
    (h : ExpressionStores Γ .char κ v t.left ∨ ExpressionStores Γ .char κ v t.right)
    (ht : TestIsCorrect Γ t) (hts : t.yield ⊆ ts) : Admissible ts κ v := by
  obtain ⟨he, -, hf, -, -, -⟩ := ht
  rcases h with h | h
  · exact h.admissible hΓ he fun x hx => hts (by simp [Test.yield, hx])
  · exact h.admissible hΓ hf fun x hx => hts (by simp [Test.yield, hx])

theorem conjunction_admissible (hΓ : Γ.CharactersIn ts) : ∀ {k : Conjunction},
    ConjunctionStores Γ .char κ v k → ConjunctionIsCorrect Γ k → k.yield ⊆ ts → Admissible ts κ v
  | .test _, h, hk, hts => test_admissible hΓ h hk hts
  | .and _ _, .inl h, hk, hts =>
    conjunction_admissible hΓ h hk.1 fun x hx => hts (by simp [Conjunction.yield, hx])
  | .and _ _, .inr h, hk, hts =>
    test_admissible hΓ h hk.2 fun x hx => hts (by simp [Conjunction.yield, hx])

theorem condition_admissible (hΓ : Γ.CharactersIn ts) : ∀ {b : Condition},
    ConditionStores Γ .char κ v b → ConditionIsCorrect Γ b → b.yield ⊆ ts → Admissible ts κ v
  | .conjunction _, h, hb, hts => conjunction_admissible hΓ h hb hts
  | .or _ _, .inl h, hb, hts =>
    condition_admissible hΓ h hb.1 fun x hx => hts (by simp [Condition.yield, hx])
  | .or _ _, .inr h, hb, hts =>
    conjunction_admissible hΓ h hb.2 fun x hx => hts (by simp [Condition.yield, hx])

mutual

theorem StatementStores.admissible (hΓ : Γ.CharactersIn ts) {x : Statement} {b : Bool} :
    StatementStores Γ .char κ v x → StatementIsCorrect Γ b x → x.yield ⊆ ts → Admissible ts κ v
  | .assigned hd he, hx, hts => by
    cases hx with
    | assign hd' he' hw =>
      obtain ⟨⟩ := hd.unique hd'
      obtain rfl := he.unique he'
      exact he.admissible hΓ hw fun x hx => hts (by simp [Statement.yield, hx])
    | update ho _ _ _ => exact absurd rfl ho
  | .returned hresult he, hx, hts => by
    cases hx with
    | returnValue _ he' hw =>
      obtain rfl := he.unique he'
      exact he.admissible hΓ (hresult ▸ hw) fun x hx => hts (by simp [Statement.yield, hx])
  | .target h, hx, hts => by
    cases hx with
    | assign hd _ _ => exact h.admissible hΓ hd fun x hx => hts (by simp [Statement.yield, hx])
    | update _ hd _ _ => exact h.admissible hΓ hd fun x hx => hts (by simp [Statement.yield, hx])
  | .source h, hx, hts => by
    cases hx with
    | assign _ he _ => exact h.admissible hΓ he fun x hx => hts (by simp [Statement.yield, hx])
    | update _ _ he _ => exact h.admissible hΓ he fun x hx => hts (by simp [Statement.yield, hx])
  | .callee h, .call hd _, hts => h.admissible hΓ hd fun x hx => hts (by simp [Statement.yield, hx])
  | .arguments hd h, .call hd' has, hts => by
    obtain rfl := Value.method.inj (hd.unique hd')
    exact h.admissible hΓ has fun x hx => hts (by simp [Statement.yield, hx])
  | .increment h, .increment hd, hts =>
    h.admissible hΓ hd fun x hx => hts (by simp [Statement.yield, hx])
  | .decrement h, .decrement hd, hts =>
    h.admissible hΓ hd fun x hx => hts (by simp [Statement.yield, hx])
  | .ifCondition h, .ifThen hk _, hts =>
    condition_admissible hΓ h hk fun x hx => hts (by simp [Statement.yield, hx])
  | .ifThen h, .ifThen _ hx, hts => h.admissible hΓ hx fun x hx => hts (by simp [Statement.yield, hx])
  | .elseCondition h, .ifElse hk _ _, hts =>
    condition_admissible hΓ h hk fun x hx => hts (by simp [Statement.yield, hx])
  | .elseThen h, .ifElse _ hx _, hts =>
    h.admissible hΓ hx fun x hx => hts (by simp [Statement.yield, hx])
  | .elseElse h, .ifElse _ _ hx, hts =>
    h.admissible hΓ hx fun x hx => hts (by simp [Statement.yield, hx])
  | .whileCondition h, .whileLoop hk _, hts =>
    condition_admissible hΓ h hk fun x hx => hts (by simp [Statement.yield, hx])
  | .whileBody h, .whileLoop _ hx, hts =>
    h.admissible hΓ hx fun x hx => hts (by simp [Statement.yield, hx])
  | .returnValue h, .returnValue _ he _, hts =>
    h.admissible hΓ he fun x hx => hts (by simp [Statement.yield, hx])
  | .read h, .read hd _, hts => h.admissible hΓ hd fun x hx => hts (by simp [Statement.yield, hx])
  | .print h, .print he _ _, hts => h.admissible hΓ he fun x hx => hts (by simp [Statement.yield, hx])
  | .printWide h, .printWide he _ _, hts =>
    h.admissible hΓ he fun x hx => hts (by simp [Statement.yield, hx])
  | .block h, .block hxs, hts => h.admissible hΓ hxs fun x hx => hts (by simp [Statement.yield, hx])

theorem StatementsStore.admissible (hΓ : Γ.CharactersIn ts) {xs : Statements} {b : Bool} :
    StatementsStore Γ .char κ v xs → StatementsAreCorrect Γ b xs → xs.yield ⊆ ts → Admissible ts κ v
  | .here h, .cons hx _, hts => h.admissible hΓ hx fun x hx => hts (by simp [Statements.yield, hx])
  | .later h, .cons _ hxs, hts => h.admissible hΓ hxs fun x hx => hts (by simp [Statements.yield, hx])

end

/-! #### Declarations -/

namespace Context.CharactersIn

theorem ofProgram (n : String) : (Context.ofProgram n).CharactersIn ts := by
  intro Δ hΔ n' v h
  simp only [Context.ofProgram, List.mem_cons, List.not_mem_nil, or_false] at hΔ
  rcases hΔ with rfl | rfl
  · contradiction
  · simp [predeclared] at h

theorem declare (hΓ : Γ.CharactersIn ts) {n : String} {x : Denotation}
    (hx : ∀ v, x = .constant .char v → .character v ∈ ts) : (Γ.declare n x).CharactersIn ts := by
  intro Δ hΔ n' v h
  rcases List.mem_cons.1 hΔ with rfl | hΔ
  · rcases List.mem_append.1 h with h | h
    · exact hΓ _ List.mem_cons_self n' v h
    · obtain ⟨-, rfl⟩ := Prod.mk.inj (List.mem_singleton.1 h)
      exact hx v rfl
  · exact hΓ Δ (List.mem_cons_of_mem _ hΔ) n' v h

/-- A declaration of anything but a constant. -/
theorem declareOther (hΓ : Γ.CharactersIn ts) {n : String} {x : Denotation}
    (hx : ∀ τ v, x ≠ .constant τ v) : (Γ.declare n x).CharactersIn ts :=
  hΓ.declare fun v h => absurd h (hx .char v)

theorem enter (hΓ : Γ.CharactersIn ts) {scope : Scope}
    (hscope : ∀ n v, (n, .constant .char v) ∈ scope → .character v ∈ ts) :
    (Γ.enter scope).CharactersIn ts := by
  intro Δ hΔ n v h
  rcases List.mem_cons.1 hΔ with rfl | hΔ
  · exact hscope n v h
  · exact hΓ Δ hΔ n v h

theorem enterMethod (hΓ : Γ.CharactersIn ts) {n : String} {σ : Signature} {scope : Scope}
    (hscope : ∀ n v, (n, .constant .char v) ∈ scope → .character v ∈ ts) :
    (Γ.enterMethod n σ scope).CharactersIn ts :=
  (hΓ.declareOther (x := .method σ) (by simp)).enter hscope

theorem scope (hΓ : Γ.CharactersIn ts) (n : String) (v : Int32)
    (h : (n, .constant .char v) ∈ Γ.scope) : .character v ∈ ts :=
  hΓ _ List.mem_cons_self n v h

theorem names (hΓ : Γ.CharactersIn ts) {τ : Ty} {ns : Names} (h : NamesDeclare τ Γ ns Γ') :
    Γ'.CharactersIn ts := by
  induction h with
  | last _ => exact hΓ.declareOther (by simp)
  | more _ _ ih => exact ih (hΓ.declareOther (by simp))

theorem vars (hΓ : Γ.CharactersIn ts) {vs : Variables} (h : VariablesDeclare Γ vs Γ') :
    Γ'.CharactersIn ts := by
  obtain ⟨-, hns⟩ := h
  exact hΓ.names hns

/-- What every member of a list keeps, the list keeps. -/
theorem all {α : Type} {declares : Context → α → Context → Prop} {xs : List α}
    (hΓ : Γ.CharactersIn ts) (h : AllDeclare declares Γ xs Γ')
    (hstep : ∀ {Γ Γ' : Context} {x : α}, x ∈ xs → Γ.CharactersIn ts → declares Γ x Γ' →
      Γ'.CharactersIn ts) : Γ'.CharactersIn ts := by
  induction h with
  | nil => exact hΓ
  | cons hx _ ih =>
    exact ih (hstep List.mem_cons_self hΓ hx) fun hx => hstep (List.mem_cons_of_mem _ hx)

theorem declaration (hΓ : Γ.CharactersIn ts) {options : Options} {d : Declaration}
    (h : DeclarationDeclares options Γ d Γ') (hts : d.yield ⊆ ts) : Γ'.CharactersIn ts := by
  cases h with
  | number _ _ => exact hΓ.declare (by simp)
  | @character t n u _ _ =>
    refine hΓ.declare fun v hv => ?_
    obtain rfl : u = v := by simpa using hv
    exact hts (by simp [Declaration.yield, Literal.terminal])
  | vars h => exact hΓ.vars h
  | record _ hclass _ _ =>
    subst hclass
    exact hΓ.declareOther (x := .type _) (by simp)

theorem parameters (hΓ : Γ.CharactersIn ts) {ps : Parameters} {τs : List Ty} {extra : Option Ty}
    (h : ParametersDeclare Γ ps τs extra Γ') : Γ'.CharactersIn ts := by
  induction h with
  | last _ _ => exact hΓ.declareOther (by simp)
  | variadic _ _ => exact hΓ.declareOther (by simp)
  | more _ _ _ ih => exact ih (hΓ.declareOther (by simp))

theorem list (hΓ : Γ.CharactersIn ts) {ps : Option Parameters} {τs : List Ty} {extra : Option Ty}
    (h : ListDeclares Γ ps τs extra Γ') : Γ'.CharactersIn ts := by
  cases h with
  | none => exact hΓ
  | some h => exact hΓ.parameters h

theorem header (hΓ : Γ.CharactersIn ts) {m : Tree.Method} {σ : Signature} (h : HeaderIs Γ m σ Γ') :
    Γ'.CharactersIn ts := by
  obtain ⟨-, Γ₁, hparameters, hvariables⟩ := h
  have hinside : Γ₁.CharactersIn ts := by
    refine Context.CharactersIn.list ?_ hparameters
    exact hΓ.enterMethod fun _ _ h => absurd h List.not_mem_nil
  exact (hΓ.enterMethod hinside.scope).all hvariables fun _ hΓ h => hΓ.vars h

theorem method (hΓ : Γ.CharactersIn ts) {options : Options} {m : Tree.Method}
    (h : MethodDeclares options Γ m Γ') : Γ'.CharactersIn ts := by
  cases h
  exact hΓ.declareOther (x := .method _) (by simp)

end Context.CharactersIn

/-- A declared constant of a type `char` is one that a character constant stands for. -/
theorem DeclarationDeclares.literal_of_char {options : Options} {t : TypeName} {n : String} {l : Literal}
    (h : DeclarationDeclares options Γ (.constant t n l) Γ') (ht : TypeNameIs Γ t .char) :
    l.type = .char ∧ l.terminal = .character l.value := by
  cases h with
  | number hint _ => exact absurd (hint.unique ht) (by simp)
  | character _ _ => exact ⟨rfl, rfl⟩

/-- In a correct program, a constant that is stored where a character is wanted is a number that 16
bits can hold, or one that a character constant stands for. -/
theorem ProgramStores.admissible {options : Options} {p : Program}
    (h : ProgramStores options .char κ v p) (hp : ProgramIsCorrect options p) :
    Admissible p.yield κ v := by
  obtain ⟨-, hdeclarations, -, hmethods, -⟩ := hp
  have hdeclared : ∀ {xs Γ}, xs ⊆ p.declarations →
      AllDeclare (DeclarationDeclares options) (.ofProgram p.name) xs Γ →
      Γ.CharactersIn p.yield := fun hxs hall =>
    (Context.CharactersIn.ofProgram p.name).all hall fun hx hΓ h =>
      hΓ.declaration h fun y hy => by
        simp only [Program.yield, List.mem_cons, List.mem_append, List.mem_flatMap]
        exact .inr (.inr (.inl ⟨_, hxs hx, hy⟩))
  cases h with
  | @declared before after t n l Γ hd hΓ ht hκ hv =>
    rw [hd] at hdeclarations
    obtain ⟨Γ₁, hbefore, hrest⟩ := hdeclarations.split
    obtain rfl := hΓ.unique hbefore fun _ _ _ _ => DeclarationDeclares.unique
    cases hrest with
    | cons hx _ =>
      obtain ⟨htype, hterminal⟩ := hx.literal_of_char ht
      refine .inr ⟨hκ ▸ htype, ?_⟩
      rw [← hv, ← hterminal]
      simp [Program.yield, hd, Declaration.yield]
  | @inMethod before after m Γ Γ₁ Γ₂ σ hΓ hm hΓ₁ hheader h =>
    obtain rfl := hΓ.unique hdeclarations fun _ _ _ _ => DeclarationDeclares.unique
    rw [hm] at hmethods
    obtain ⟨Γ₃, hbefore, hrest⟩ := hmethods.split
    obtain rfl := hΓ₁.unique hbefore fun _ _ _ _ => MethodDeclares.unique
    have hcharacters := (hdeclared (List.Subset.refl _) hdeclarations).all hbefore fun _ hΓ h => hΓ.method h
    cases hrest with
    | cons hx _ =>
      obtain ⟨τ, Γ₄, hheader', hbody, -⟩ := hx.header
      obtain ⟨-, rfl⟩ := hheader.unique hheader'
      refine h.admissible (hcharacters.header hheader) hbody fun x hx => ?_
      simp [Program.yield, hm, Method.yield, Statement.yield, hx]

end Admissible

end Static

end MicroJava
