import MicroJava.Proofs.Statics

/-!
# The static rules determine what they speak of

In a context, an expression has one value (`ExpressionIs.unique`), a type name stands for one type, and
a declaration or method leads to one context (`DeclarationDeclares.unique`, `MethodDeclares.unique`). So
the context of every place of a program is determined by the program.
-/

namespace MicroJava.Static

open Tree

variable {Γ Γ' Γ₁ Γ₂ : Context}

/-! ### Expressions -/

mutual

theorem ExpressionIs.unique {e : Expression} {v w : Value} :
    ExpressionIs Γ e v → ExpressionIs Γ e w → v = w
  | .term h, .term h' => h.unique h'
  | .negated h _, .negated h' _ => congrArg Value.negated (h.unique h')
  | .sum .., .sum .. => rfl

theorem TermIs.unique {t : Term} {v w : Value} : TermIs Γ t v → TermIs Γ t w → v = w
  | .factor h, .factor h' => h.unique h'
  | .product .., .product .. => rfl

theorem FactorIs.unique {f : Factor} {v w : Value} : FactorIs Γ f v → FactorIs Γ f w → v = w
  | .designator h, .designator h' => h.unique h'
  | .call hd _ _, .call hd' _ _ => by
    obtain rfl := Value.method.inj (hd.unique hd')
    rfl
  | .number _, .number _ => rfl
  | .character _, .character _ => rfl
  | .object hn, .object hn' => by
    obtain rfl : _ = _ := by simpa using hn.symm.trans hn'
    rfl
  | .array hn _ _, .array hn' _ _ => by
    obtain rfl : _ = _ := by simpa using hn.symm.trans hn'
    rfl
  | .parentheses h, .parentheses h' => h.unique h'

theorem DesignatorIs.unique {d : Designator} {v w : Value} :
    DesignatorIs Γ d v → DesignatorIs Γ d w → v = w
  | .name hn hx, .name hn' hx' => by
    obtain rfl := Option.some.inj (hn.symm.trans hn')
    exact Option.some.inj (hx.symm.trans hx')
  | .field hd hv hk hn, .field hd' hv' hk' hn' => by
    obtain rfl := hd.unique hd'
    obtain rfl : _ = _ := by simpa using hv.symm.trans hv'
    obtain rfl := Option.some.inj (hk.symm.trans hk')
    obtain rfl : _ = _ := by simpa using hn.symm.trans hn'
    rfl
  | .element hd hv _ _, .element hd' hv' _ _ => by
    obtain rfl := hd.unique hd'
    obtain rfl : _ = _ := by simpa using hv.symm.trans hv'
    rfl

end

/-! ### Declarations -/

theorem TypeNameIs.unique {t : TypeName} {σ τ : Ty} (h : TypeNameIs Γ t σ)
    (h' : TypeNameIs Γ t τ) : σ = τ := by
  cases h with
  | plain h =>
    cases h' with
    | plain h' => simpa using h.symm.trans h'
  | array h =>
    cases h' with
    | array h' => simpa using h.symm.trans h'

theorem NamesDeclare.unique {τ : Ty} {ns : Names} (h : NamesDeclare τ Γ ns Γ₁)
    (h' : NamesDeclare τ Γ ns Γ₂) : Γ₁ = Γ₂ := by
  induction h with
  | last _ =>
    cases h'
    rfl
  | more _ _ ih =>
    cases h' with
    | more _ h' => exact ih h'

theorem VariablesDeclare.unique {vs : Variables} (h : VariablesDeclare Γ vs Γ₁)
    (h' : VariablesDeclare Γ vs Γ₂) : Γ₁ = Γ₂ := by
  obtain ⟨ht, hns⟩ := h
  obtain ⟨ht', hns'⟩ := h'
  obtain rfl := ht.unique ht'
  exact hns.unique hns'

theorem AllDeclare.unique {α : Type} {declares : Context → α → Context → Prop}
    {xs : List α} (h : AllDeclare declares Γ xs Γ₁) (h' : AllDeclare declares Γ xs Γ₂)
    (hunique : ∀ Γ x Γ₁ Γ₂, declares Γ x Γ₁ → declares Γ x Γ₂ → Γ₁ = Γ₂) : Γ₁ = Γ₂ := by
  induction h with
  | nil =>
    cases h'
    rfl
  | cons hx _ ih =>
    cases h' with
    | cons hx' h' =>
      obtain rfl := hunique _ _ _ _ hx hx'
      exact ih h'

/-- Members of a list that are declared, up to one of them and from it on. -/
theorem AllDeclare.split {α : Type} {declares : Context → α → Context → Prop} {xs ys : List α}
    (h : AllDeclare declares Γ (xs ++ ys) Γ') :
    ∃ Γ₁, AllDeclare declares Γ xs Γ₁ ∧ AllDeclare declares Γ₁ ys Γ' := by
  induction xs generalizing Γ with
  | nil => exact ⟨Γ, .nil, h⟩
  | cons x xs ih =>
    cases h with
    | cons hx h =>
      obtain ⟨Γ₁, hxs, hys⟩ := ih h
      exact ⟨Γ₁, .cons hx hxs, hys⟩

theorem DeclarationDeclares.unique {options : Options} {d : Declaration}
    (h : DeclarationDeclares options Γ d Γ₁) (h' : DeclarationDeclares options Γ d Γ₂) :
    Γ₁ = Γ₂ := by
  cases h with
  | number =>
    cases h'
    rfl
  | character =>
    cases h'
    rfl
  | vars h =>
    cases h' with
    | vars h' => exact h.unique h'
  | record _ hclass hvs _ =>
    cases h' with
    | record _ hclass' hvs' _ =>
      subst hclass hclass'
      rw [hvs.unique hvs' fun _ _ _ _ => VariablesDeclare.unique]

/-! ### Methods -/

theorem ParametersDeclare.unique {ps : Parameters} {τs τs' : List Ty} {extra extra' : Option Ty}
    (h : ParametersDeclare Γ ps τs extra Γ₁) (h' : ParametersDeclare Γ ps τs' extra' Γ₂) :
    τs = τs' ∧ extra = extra' ∧ Γ₁ = Γ₂ := by
  induction h generalizing τs' with
  | last ht _ =>
    cases h' with
    | last ht' _ =>
      obtain rfl := ht.unique ht'
      exact ⟨rfl, rfl, rfl⟩
  | variadic ht _ =>
    cases h' with
    | variadic ht' _ =>
      obtain rfl := ht.unique ht'
      exact ⟨rfl, rfl, rfl⟩
  | more ht _ _ ih =>
    cases h' with
    | more ht' _ h' =>
      obtain rfl := ht.unique ht'
      obtain ⟨rfl, rfl, rfl⟩ := ih h'
      exact ⟨rfl, rfl, rfl⟩

theorem ListDeclares.unique {ps : Option Parameters} {τs τs' : List Ty} {extra extra' : Option Ty}
    (h : ListDeclares Γ ps τs extra Γ₁) (h' : ListDeclares Γ ps τs' extra' Γ₂) :
    τs = τs' ∧ extra = extra' ∧ Γ₁ = Γ₂ := by
  cases h with
  | none =>
    cases h'
    exact ⟨rfl, rfl, rfl⟩
  | some h =>
    cases h' with
    | some h' => exact h.unique h'

theorem ResultIs.unique {t : Option TypeName} {σ τ : Ty} (h : ResultIs Γ t σ)
    (h' : ResultIs Γ t τ) : σ = τ := by
  cases h with
  | void =>
    cases h'
    rfl
  | type h =>
    cases h' with
    | type h' => exact h.unique h'

/-- The signature of a method, and the context of its body. -/
structure HeaderIs (Γ : Context) (m : Tree.Method) (σ : Signature) (Γ' : Context) : Prop where
  result : ResultIs Γ m.result σ.result
  body : ∃ Γ₁, ListDeclares (Γ.enterMethod m.name ⟨σ.result, [], none⟩ []) m.parameters σ.fixed
    σ.extra Γ₁ ∧ AllDeclare VariablesDeclare (Γ.enterMethod m.name σ Γ₁.scope) m.locals Γ'

theorem HeaderIs.unique {m : Tree.Method} {σ τ : Signature} (h : HeaderIs Γ m σ Γ₁)
    (h' : HeaderIs Γ m τ Γ₂) : σ = τ ∧ Γ₁ = Γ₂ := by
  obtain ⟨hresult, Γ₃, hparameters, hvariables⟩ := h
  obtain ⟨hresult', Γ₄, hparameters', hvariables'⟩ := h'
  obtain ⟨result, fixed, extra⟩ := σ
  obtain ⟨result', fixed', extra'⟩ := τ
  obtain rfl : result = result' := hresult.unique hresult'
  obtain ⟨rfl, rfl, rfl⟩ := hparameters.unique hparameters'
  exact ⟨rfl, hvariables.unique hvariables' fun _ _ _ _ => VariablesDeclare.unique⟩

theorem MethodDeclares.header {options : Options} {m : Tree.Method}
    (h : MethodDeclares options Γ m Γ') :
    ∃ σ Γ₁, HeaderIs Γ m σ Γ₁ ∧ StatementsAreCorrect Γ₁ false m.body ∧
      Γ' = Γ.declare m.name (.method σ) := by
  obtain ⟨hresult, _, hparameters, hvariables, _, _, hbody⟩ := h
  exact ⟨_, _, ⟨hresult, _, hparameters, hvariables⟩, hbody, rfl⟩

theorem MethodDeclares.unique {options : Options} {m : Tree.Method}
    (h : MethodDeclares options Γ m Γ₁) (h' : MethodDeclares options Γ m Γ₂) : Γ₁ = Γ₂ := by
  obtain ⟨σ, _, hσ, -, rfl⟩ := h.header
  obtain ⟨τ, _, hτ, -, rfl⟩ := h'.header
  rw [(hσ.unique hτ).1]

end MicroJava.Static
