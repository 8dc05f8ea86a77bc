import MicroJava.Proofs.ObeyingDeclaration
import MicroJava.Proofs.Segment

/-!
# Rules for methods

The header of a method obeys the static rules (`Obeys.header`). Inside a method (`InMethod`), what is
declared around it is that of the table in which the method itself was declared, but for what is known
of the method (`Surrounds`).
-/

namespace MicroJava

open Static Tree

variable {ρ : Classes} {Γ Γ' : Context} {k : Knowledge} {t t₀ : SymbolTable} {id : EntryId}
  {n : String} {i : TypeId} {τ : Ty} {σ σ' : Static.Signature}

/-! ### What is known of a method -/

theorem SymbolTable.Binds.update_method (h : t.Binds ρ id n (.method σ)) {f : Method → Method}
    (hresult : σ'.result = σ.result)
    (hf : ∀ m, t.HasSignature ρ m σ → t.HasSignature ρ (f m) σ') :
    (t.update id (·.updateMethod f)).Binds ρ id n (.method σ') := by
  have htype : ∀ e : Entry, (e.updateMethod f).type = e.type := by
    rintro ⟨name, type, meaning⟩
    cases meaning <;> rfl
  obtain ⟨hid, ⟨name, type, meaning⟩, he, rfl, m, hm, hτ, hσ⟩ := h
  obtain rfl : meaning = .method m := hm
  refine ⟨hid, ⟨name, type, .method (f m)⟩, ?_, rfl, ?_⟩
  · rw [entryAt?_update, if_pos ⟨rfl, hid⟩, he]
    rfl
  · have hmeans : t.Means ρ ⟨name, type, .method (f m)⟩ (.method σ') :=
      ⟨f m, rfl, by rw [hresult]; exact hτ, hf m hσ⟩
    exact hmeans.update htype

/-- The parameters of a method are the first that are declared in it. -/
theorem SymbolTable.HasSignature.of_scope {ids : List EntryId} {Δ Δ' : Static.Scope}
    (hids : List.Forall₂ (fun id b => t.Binds ρ id b.1 b.2) ids (Δ ++ Δ'))
    (hΔ : Δ.map (·.2) = σ.parameters.map .variable) {m : Method}
    (hvariadic : m.variadic = σ.extra.isSome) (hcount : m.parameters = Δ.length)
    (hlocals : m.locals = ids) : t.HasSignature ρ m σ := by
  have hlength : Δ.length = σ.parameters.length := by
    simpa using congrArg List.length hΔ
  refine ⟨hvariadic, hcount.trans hlength, ?_⟩
  rw [Method.leading, hlocals, hcount]
  have htake := List.forall₂_take Δ.length hids
  rw [List.take_left] at htake
  have hmap : List.Forall₂ (fun id x => ∃ n, t.Binds ρ id n x) (ids.take Δ.length)
      (Δ.map (·.2)) := List.forall₂_map_right_iff.2 (htake.imp fun _ b hb => ⟨b.1, hb⟩)
  rw [hΔ] at hmap
  refine (List.forall₂_map_right_iff.1 hmap).imp ?_
  rintro id τ ⟨m, -, e, he, -, -, hτ⟩
  exact ⟨e, he, hτ⟩

/-- The last parameter collects variable arguments. -/
def Tree.Parameters.isVariadic : Parameters → Bool
  | last _ _ variadic => variadic
  | more _ _ ps => ps.isVariadic

namespace Static.ParametersDeclare

variable {ps : Parameters} {τs : List Ty} {extra : Option Ty}

theorem scope (h : ParametersDeclare Γ ps τs extra Γ') : ∃ Δ : Static.Scope,
    Δ.map (·.2) = (τs ++ (extra.map Ty.array).toList).map .variable ∧ Δ ≠ [] ∧
      Γ' = { Γ with scope := Γ.scope ++ Δ } := by
  induction h with
  | last _ _ => exact ⟨[(_, _)], rfl, by simp, rfl⟩
  | variadic _ _ => exact ⟨[(_, _)], rfl, by simp, rfl⟩
  | @more Γ Γ' _ n _ τ _ _ _ _ _ ih =>
    obtain ⟨Δ, hΔ, -, rfl⟩ := ih
    exact ⟨(n, .variable τ) :: Δ, by simp [hΔ], by simp, by simp [Context.declare]⟩

theorem isVariadic (h : ParametersDeclare Γ ps τs extra Γ') : ps.isVariadic = extra.isSome := by
  induction h with
  | more _ _ _ ih => exact ih
  | _ => rfl

end Static.ParametersDeclare

theorem Static.ListDeclares.scope {ps : Option Parameters} {τs : List Ty} {extra : Option Ty}
    (h : ListDeclares Γ ps τs extra Γ') : ∃ Δ : Static.Scope,
      Δ.map (·.2) = (τs ++ (extra.map Ty.array).toList).map .variable ∧ (Δ = [] ↔ ps = Option.none) ∧
        ps.any Parameters.isVariadic = extra.isSome ∧
          Γ' = { Γ with scope := Γ.scope ++ Δ } := by
  cases h with
  | none => exact ⟨[], rfl, by simp, rfl, by simp⟩
  | some h =>
    obtain ⟨Δ, hΔ, hne, rfl⟩ := h.scope
    exact ⟨Δ, hΔ, by simp [hne], h.isVariadic, rfl⟩

/-- Around a method is the table `t₀` in which it was declared, with what is declared in `Γ`. -/
structure Surrounds (ρ : Classes) (Γ : Context) (t₀ : SymbolTable) (id : EntryId) (n : String)
    (σ : Signature) (t : SymbolTable) : Prop where
  outer : t₀.Agrees ρ Γ
  fresh : t₀.current.find? n = none
  handle : id = ⟨t₀.entries.size⟩
  own : id.IsOwn
  around : t₀.Around ρ n σ t

namespace Surrounds

theorem adds {t' : SymbolTable} (h : Surrounds ρ Γ t₀ id n σ t) (ha : t.Adds t') :
    Surrounds ρ Γ t₀ id n σ t' :=
  ⟨h.outer, h.fresh, h.handle, h.own, h.around.adds ha⟩

theorem widens {t' : SymbolTable} (h : Surrounds ρ Γ t₀ id n σ t) (hw : t.Widens t') :
    Surrounds ρ Γ t₀ id n σ t' :=
  ⟨h.outer, h.fresh, h.handle, h.own, h.around.widens hw⟩

theorem method (h : Surrounds ρ Γ t₀ id n σ t) : t.Binds ρ id n (.method σ) :=
  h.handle ▸ h.around.method

theorem update (h : Surrounds ρ Γ t₀ id n σ t) {f : Method → Method}
    (hresult : σ'.result = σ.result)
    (hf : ∀ m, t.HasSignature ρ m σ → t.HasSignature ρ (f m) σ') :
    Surrounds ρ Γ t₀ id n σ' (t.update id (·.updateMethod f)) := by
  obtain ⟨houter, hfresh, rfl, hown, haround⟩ := h
  exact ⟨houter, hfresh, rfl, hown, haround.update (haround.method.update_method hresult hf)⟩

/-- Inside the method, what is known of it may change. -/
theorem agrees (h : Surrounds ρ Γ t₀ id n σ k.table) {Δ : Static.Scope}
    (hk : k.Agrees ρ (Γ.enterMethod n σ Δ)) (hΔ : ∀ b ∈ Δ, b.2.isVariable) {f : Method → Method}
    (hresult : σ'.result = σ.result)
    (hf : ∀ m, k.table.HasSignature ρ m σ → k.table.HasSignature ρ (f m) σ')
    (hsound : ∀ m, k.table.HasSignature ρ m σ → m.parameters ≤ m.locals.length →
      (f m).parameters ≤ (f m).locals.length) :
    Knowledge.Agrees ρ (Γ.enterMethod n σ' Δ)
      { k with table := k.table.update id (·.updateMethod f) } where
  table := by
    obtain ⟨houter, hfresh, rfl, -, haround⟩ := h
    refine haround.agrees_update houter hfresh hΔ hk.table ?_
      (haround.method.update_method hresult hf)
    rintro ⟨name, type, meaning⟩
    cases meaning <;> rfl
  result := by
    rw [SymbolTable.types_update]
    have hτ := hk.result
    simp only [Context.enterMethod] at hτ ⊢
    rwa [hresult]
  names := by
    intro Δ' hΔ'
    rcases List.mem_cons.1 hΔ' with rfl | hΔ'
    · exact hk.names _ List.mem_cons_self
    rcases List.mem_cons.1 hΔ' with rfl | hΔ'
    · intro m τ hm
      refine hk.names _ (List.mem_cons_of_mem _ List.mem_cons_self) m τ ?_
      simpa [Context.declare] using hm
    · exact hk.names Δ' (List.mem_cons_of_mem _ (List.mem_cons_of_mem _ hΔ'))
  sound := by
    refine hk.sound.update fun _ e hat he => ?_
    obtain ⟨-, e', hat', -, m, hm, -, hσ⟩ := h.method
    obtain rfl := Option.some.inj (hat.symm.trans hat')
    obtain ⟨name, type, meaning⟩ := e
    obtain rfl : meaning = .method m := hm
    exact hsound m hσ he
  predeclared := hk.predeclared.update h.own _

end Surrounds

/-- A context inside a method: the first variables are its parameters. -/
def Static.Context.Inside (Γ : Context) (n : String) (σ : Signature) (Γ' : Context) : Prop :=
  ∃ Δ Δ' : Static.Scope, Δ.map (·.2) = σ.parameters.map .variable ∧ (∀ b ∈ Δ', b.2.isVariable) ∧
    Γ' = Γ.enterMethod n σ (Δ ++ Δ')

theorem Static.Context.Inside.extends {Γ₁ : Context} (h : Γ.Inside n σ Γ₁) (h' : Γ₁.Extends Γ') :
    Γ.Inside n σ Γ' := by
  obtain ⟨Δ, Δ₁, hΔ, hΔ₁, rfl⟩ := h
  obtain ⟨Δ₂, hΔ₂, rfl⟩ := h'
  refine ⟨Δ, Δ₁ ++ Δ₂, hΔ, fun b hb => ?_, by simp [Context.enterMethod, Context.enter]⟩
  exact (List.mem_append.1 hb).elim (hΔ₁ b) (hΔ₂ b)

theorem Static.Scope.isVariable_of_map {Δ : Static.Scope} {τs : List Ty}
    (h : Δ.map (·.2) = τs.map .variable) : ∀ b ∈ Δ, b.2.isVariable := by
  intro b hb
  have hmem : b.2 ∈ Δ.map (·.2) := List.mem_map_of_mem hb
  rw [h] at hmem
  obtain ⟨τ, -, heq⟩ := List.mem_map.1 hmem
  rw [← heq]
  rfl

/-- What is known of the program inside a method. -/
structure InMethod (ρ : Classes) (Γ : Context) (t₀ : SymbolTable) (id : EntryId) (n : String)
    (σ : Signature) (Γ' : Context) (k : Knowledge) : Prop where
  agrees : k.Agrees ρ Γ'
  surrounds : Surrounds ρ Γ t₀ id n σ k.table
  inside : Γ.Inside n σ Γ'

namespace InMethod

theorem isVariable (h : InMethod ρ Γ t₀ id n σ Γ' k) : ∀ b ∈ Γ'.scope, b.2.isVariable := by
  obtain ⟨Δ, Δ', hΔ, hΔ', rfl⟩ := h.inside
  intro b hb
  exact (List.mem_append.1 hb).elim (Static.Scope.isVariable_of_map hΔ b) (hΔ' b)

theorem variableCount (h : InMethod ρ Γ t₀ id n σ Γ' k) :
    k.table.current.variableCount = Γ'.scope.length := by
  rw [h.agrees.table.current.count, List.countP_eq_length]
  exact h.isVariable

end InMethod

/-- A new type of arrays, while a name is being declared. -/
theorem Pending.arrayOf {e : Entry} (h : Pending ρ Γ t₀ id e k) (i : TypeId) :
    Pending ρ Γ (t₀.arrayOf i).2 id e { k with table := (k.table.arrayOf i).2 } where
  agrees := h.agrees.widens (.arrayOf t₀ i) (h.agrees.sound.arrayOf i)
  fresh := h.fresh
  id := h.id
  table := by
    rw [h.table]
    rcases t₀ with ⟨entries, types, _ | ⟨sc, outer⟩, outermost⟩ <;> rfl

theorem Types.HasType.arrayOf {ts : Types} (hm : ts.Models ρ) (h : ts.HasType ρ τ i) :
    (ts.arrayOf i).2.HasType ρ (.array τ) (ts.arrayOf i).1 := by
  refine ⟨i, by simp [Types.arrayOf, Types.descriptor?, Types.fresh], h.index_lt hm, ?_⟩
  exact h.mono (fun _ _ h => h) fun j e he => Types.descriptor?_push _ j _ he

namespace Obeys

open Production

variable {c : Setting} {F H : Token.Kind → Prop}

section Turns

variable {α β V U : Type} {R : Knowledge → Prop} {xs ys : List Terminal} {Q : β → Prop}
  {I J : V → Prop} {body : α → Production (α ⊕ β)} {a a' : α} {S : α ⊕ β → V → Knowledge → Prop}

/-- A member of a list, and the list behind it. -/
theorem turns_next [Nonempty V] {K : V → U → Prop} {E : β → U → Knowledge → Prop}
    (hx : Obeys R (Runs c (body a)) xs H (· = .inl a') I S)
    (hxs : ∀ v, Obeys (fun k => I v ∧ S (.inl a') v k) (Turns c body a') ys F Q (K v) E)
    (hF : ∀ rest, F (nextKind rest) → H (nextKind (ys ++ rest))) :
    Obeys R (Turns c body a) (xs ++ ys) F Q (fun u => ∃ v, I v ∧ K v u) E := by
  intro s b s' rest hrun hn hahead hrest
  obtain ⟨v₀⟩ := ‹Nonempty V›
  rw [List.append_assoc] at hahead
  cases hrun with
  | last h =>
    have heq := (hx h hn hahead (hF rest hrest)).1
    contradiction
  | next h hturns =>
    obtain ⟨heq, hobeyed⟩ := hx h hn hahead (hF rest hrest)
    obtain rfl := Sum.inl.inj heq
    have hsecond := fun v => hxs v hturns hobeyed.takes.named hobeyed.takes.ahead hrest
    exact ⟨(hsecond v₀).1, hobeyed.bind fun v => (hsecond v).2⟩

/-- The last member of a list. -/
theorem turns_last {b : β} (hx : Obeys R (Runs c (body a)) xs F (· = .inr b) J S) :
    Obeys R (Turns c body a) xs F (· = b) J fun b => S (.inr b) := by
  intro s b' s' rest hrun hn hahead hrest
  cases hrun with
  | last h =>
    obtain ⟨heq, hobeyed⟩ := hx h hn hahead hrest
    exact ⟨Sum.inr.inj heq, hobeyed⟩
  | next h _ =>
    have heq := (hx h hn hahead hrest).1
    contradiction

theorem loop {E : β → V → Knowledge → Prop} (h : Obeys R (Turns c body a) xs F Q J E) :
    Obeys R (Runs c (Production.loop body a)) xs F Q J E :=
  fun _ _ _ _ hrun => h (turns_of_runs_loop hrun)

end Turns

/-! ### Parameters -/

/-- A parameter, up to what stands behind its name. -/
theorem parameterName {ys : List Terminal} {t : TypeName} {P : Unit ⊕ Bool → Prop} {V : Type}
    {J : Ty → V → Prop} {E : Unit ⊕ Bool → V → Knowledge → Prop}
    (h : ∀ i id τ, Obeys (fun k => ∃ t₀, t₀.types.HasType ρ τ i ∧
        ∃ slot level, Pending ρ Γ t₀ id ⟨n, i, .var slot level⟩ k)
      (Runs c (do
        if ← Production.check .ellipsis then
          Production.advance
          let array ← Production.arrayOf i
          updateEntry id fun e => { e with type := array }
          return .inr true
        if ← Production.check .comma then
          Production.advance
          return .inl ()
        return .inr false)) ys F P (J τ) E) :
    Obeys (fun k => k.Agrees ρ Γ) (Runs c (parameter ())) (t.yield ++ .name n :: ys) F P
      (fun v => ∃ τ, TypeNameIs Γ t τ ∧ Γ.IsFresh n ∧ J τ v) E := by
  rw [parameter]
  refine type.bind (K := fun τ v => Γ.IsFresh n ∧ J τ v) (fun i τ _ => ?_) fun _ _ h => by cases h
  refine identifier fun hn => ?_
  refine ((declare hn fun t => t.types.HasType ρ τ i).weaken fun _ => And.right).ensureHere
    fun id _ => (h i id τ).weaken ?_
  rintro k ⟨-, t₀, hτ, hpending⟩
  exact ⟨t₀, hτ, _, _, hpending⟩

theorem parameter_last {t : TypeName} :
    Obeys (fun k => k.Agrees ρ Γ) (Runs c (parameter ())) (Parameters.last t n false).yield
      (· = .rightParen) (· = .inr false)
      (fun v : List Ty × Option Ty × Context =>
        ParametersDeclare Γ (.last t n false) v.1 v.2.1 v.2.2) fun _ v k => k.Agrees ρ v.2.2 := by
  refine (parameterName (J := fun τ v => v = ([τ], none, Γ.declare n (.variable τ)))
    fun i id τ => ?_).iff fun _ _ v => ?_
  · refine check_ne (fun rest hrest => hrest ▸ nofun) (check_ne (fun rest hrest => hrest ▸ nofun) ?_)
    refine ret rfl (fun _ _ => ⟨_, rfl⟩) ?_
    rintro k ⟨t₀, hτ, slot, level, hpending⟩ _ rfl
    exact hpending.asVariable hτ
  · constructor
    · rintro ⟨τ, ht, hn, rfl⟩
      exact .last ht hn
    · obtain ⟨τs, extra, Γ'⟩ := v
      rintro (⟨ht, hn⟩ | _ | _)
      exact ⟨_, ht, hn, rfl⟩

theorem parameter_variadic {t : TypeName} :
    Obeys (fun k => k.Agrees ρ Γ) (Runs c (parameter ())) (Parameters.last t n true).yield
      (· = .rightParen) (· = .inr true)
      (fun v : List Ty × Option Ty × Context =>
        ParametersDeclare Γ (.last t n true) v.1 v.2.1 v.2.2) fun _ v k => k.Agrees ρ v.2.2 := by
  refine (parameterName (J := fun τ v => v = ([], some τ, Γ.declare n (.variable (.array τ))))
    fun i id τ => ?_).iff fun _ _ v => ?_
  · refine check (fun _ _ => rfl) (advance ?_)
    refine withTable (T := fun a k => ∃ t₀, t₀.types.HasType ρ (.array τ) a ∧
      ∃ slot level, Pending ρ Γ t₀ id ⟨n, i, .var slot level⟩ k) ?_ fun a => ?_
    · rintro k ⟨t₀, hτ, slot, level, hpending⟩
      refine ⟨_, ?_, slot, level, hpending.arrayOf i⟩
      have harray : (k.table.arrayOf i).1 = (t₀.types.arrayOf i).1 := by
        rw [hpending.table, SymbolTable.arrayOf, SymbolTable.types_bind]
      rw [harray]
      exact hτ.arrayOf hpending.agrees.table.types
    · refine updateTable (L := fun k => k.Agrees ρ (Γ.declare n (.variable (.array τ)))) ?_ ?_
      · rintro k ⟨t₀, hτ, slot, level, hpending⟩
        exact (hpending.update (f := fun e => { e with type := a }) rfl rfl).asVariable hτ
      · refine ret rfl (fun _ _ => ⟨_, rfl⟩) ?_
        rintro k hk _ rfl
        exact hk
  · constructor
    · rintro ⟨τ, ht, hn, rfl⟩
      exact .variadic ht hn
    · obtain ⟨τs, extra, Γ'⟩ := v
      rintro (_ | ⟨ht, hn⟩ | _)
      exact ⟨_, ht, hn, rfl⟩

theorem parameter_more {t : TypeName} :
    Obeys (fun k => k.Agrees ρ Γ) (Runs c (parameter ()))
      (t.yield ++ [.name n, .word .comma]) F (· = .inl ())
      (fun v : Ty × Context => TypeNameIs Γ t v.1 ∧ Γ.IsFresh n ∧
        v.2 = Γ.declare n (.variable v.1)) fun _ v k => k.Agrees ρ v.2 := by
  refine (parameterName (J := fun τ v => v = (τ, Γ.declare n (.variable τ)))
    fun i id τ => ?_).iff fun _ _ v => ?_
  · refine check_ne (fun _ _ => nofun) (check (fun _ _ => rfl) (advance ?_))
    refine ret rfl (fun _ _ => ⟨_, rfl⟩) ?_
    rintro k ⟨t₀, hτ, slot, level, hpending⟩ _ rfl
    exact hpending.asVariable hτ
  · constructor
    · rintro ⟨τ, ht, hn, rfl⟩
      exact ⟨ht, hn, rfl⟩
    · obtain ⟨τ, Γ'⟩ := v
      rintro ⟨ht, hn, hΓ⟩
      exact ⟨τ, ht, hn, congrArg (Prod.mk τ) hΓ⟩

theorem parameterTurns : ∀ (ps : Parameters) (Γ : Context),
    Obeys (fun k => k.Agrees ρ Γ) (Turns c parameter ()) ps.yield (· = .rightParen)
      (· = ps.isVariadic)
      (fun v : List Ty × Option Ty × Context => ParametersDeclare Γ ps v.1 v.2.1 v.2.2)
      fun _ v k => k.Agrees ρ v.2.2
  | .last t n false, Γ => turns_last parameter_last
  | .last t n true, Γ => turns_last parameter_variadic
  | .more t n ps, Γ => by
    have hyield : (Parameters.more t n ps).yield =
        (t.yield ++ [.name n, .word .comma]) ++ ps.yield := by
      simp [Parameters.yield]
    rw [hyield]
    refine (turns_next (H := fun _ => True) parameter_more (K := fun v u =>
      ∃ τs, ParametersDeclare v.2 ps τs u.2.1 u.2.2 ∧ u.1 = v.1 :: τs) (fun v => ?_)
      fun _ _ => trivial).iff fun _ _ u => ?_
    · refine (parameterTurns ps v.2).conseq (fun _ => And.right) (fun _ _ u hu => ?_) ?_
      · exact ⟨(v.1 :: u.1, u.2), u.1, hu, rfl⟩
      · rintro - - u ⟨τs, hps, -⟩
        exact ⟨(τs, u.2), hps, fun _ _ h => h⟩
    · obtain ⟨τs, extra, Γ'⟩ := u
      constructor
      · rintro ⟨⟨τ, Γ₁⟩, ⟨ht, hn, hΓ₁⟩, τs', hps, rfl⟩
        obtain rfl : Γ₁ = Γ.declare n (.variable τ) := hΓ₁
        exact .more ht hn hps
      · rintro (_ | _ | ⟨ht, hn, hps⟩)
        exact ⟨(_, _), ⟨ht, hn, rfl⟩, _, hps, rfl⟩

theorem parameters (ps : Option Parameters) :
    Obeys (fun k => k.Agrees ρ Γ) (Runs c parameters) (ps.elim [] Parameters.yield)
      (· = .rightParen) (· = ps.any Parameters.isVariadic)
      (fun v : List Ty × Option Ty × Context => ListDeclares Γ ps v.1 v.2.1 v.2.2)
      fun _ v k => k.Agrees ρ v.2.2 := by
  rw [Production.parameters]
  cases ps with
  | none =>
    refine check_ne (fun rest hrest => by simp [hrest]) (ret rfl (fun _ _ => ⟨([], none, Γ), .none⟩) ?_)
    rintro k hk ⟨τs, extra, Γ'⟩ ⟨⟩
    exact hk
  | some ps =>
    refine check (fun rest _ => ?_) ((parameterTurns ps Γ).loop.iff fun _ _ v => ?_)
    · cases ps <;> rfl
    · refine ⟨.some, fun h => ?_⟩
      cases h with
      | some h => exact h

/-- Behind the parameters, the signature of the method is known. -/
theorem header {r : Ty} {a : Option Nat} (ps : Option Parameters) :
    Obeys (fun k => InMethod ρ Γ t₀ id n ⟨r, [], none⟩ (Γ.enterMethod n ⟨r, [], none⟩ []) k ∧
        k.entry = a) (Runs c (header id))
      (.word .leftParen :: (ps.elim [] Parameters.yield ++ [.word .rightParen])) F (fun _ => True)
      (fun v : List Ty × Option Ty × Context =>
        ListDeclares (Γ.enterMethod n ⟨r, [], none⟩ []) ps v.1 v.2.1 v.2.2)
      fun count v k => count = v.2.2.scope.length ∧
        InMethod ρ Γ t₀ id n ⟨r, v.1, v.2.1⟩ (Γ.enterMethod n ⟨r, v.1, v.2.1⟩ v.2.2.scope) k ∧
          k.entry = a := by
  rw [Production.header]
  refine expect ((((parameters ps).along
    (G := fun k => Surrounds ρ Γ t₀ id n ⟨r, [], none⟩ k.table ∧ k.entry = a)
    fun s b s' hrun hs => ?_).weaken fun k hk => ⟨hk.1.agrees, hk.1.surrounds, hk.2⟩).strengthen
      (D := fun _ v k => ListDeclares (Γ.enterMethod n ⟨r, [], none⟩ []) ps v.1 v.2.1 v.2.2 ∧
        k.Agrees ρ v.2.2 ∧ Surrounds ρ Γ t₀ id n ⟨r, [], none⟩ k.table ∧ k.entry = a)
      (fun _ _ _ hv hk => ⟨hv, hk⟩) |>.before (fun b v hb => expect (table fun t => ?_)) fun _ _ => rfl)
  · have hdeclares := declares_parameters hrun
    obtain ⟨dataSize, hassembly⟩ := hdeclares.assembly
    refine ⟨hs.1.adds hdeclares.table, ?_⟩
    rw [← hs.2, Session.knowledge, hassembly, Session.knowledge]
  obtain ⟨τs, extra, Γ₁⟩ := v
  refine updateTable (L := fun k => t.current.variableCount = Γ₁.scope.length ∧
    InMethod ρ Γ t₀ id n ⟨r, τs, extra⟩ (Γ.enterMethod n ⟨r, τs, extra⟩ Γ₁.scope) k ∧ k.entry = a) ?_
    (ret trivial (fun _ _ => ⟨(), trivial⟩) fun _ hk _ _ => hk)
  rintro k ⟨⟨hps, hk, hs, ha⟩, rfl⟩
  obtain ⟨Δ, hΔ, -, hvariadic, hΓ₁⟩ := ListDeclares.scope hps
  obtain rfl : Γ₁ = Γ.enterMethod n ⟨r, [], none⟩ Δ := hΓ₁
  have hvariables := Static.Scope.isVariable_of_map hΔ
  have hscope : k.table.current.Agrees ρ k.table Δ := hk.table.current
  have hcount : k.table.current.variableCount = Δ.length := by
    rw [hscope.count, List.countP_eq_length]
    exact hvariables
  have hlocals := hscope.locals
  rw [← List.append_nil Δ] at hlocals
  have hsignature : ∀ m : Method, k.table.HasSignature ρ { m with
      parameters := k.table.current.variableCount, variadic := b,
      locals := k.table.current.locals.toList } ⟨r, τs, extra⟩ := fun m =>
    .of_scope (σ := ⟨r, τs, extra⟩) hlocals hΔ (hb.trans hvariadic) hcount rfl
  refine ⟨hcount, ⟨hs.agrees hk hvariables rfl (fun m _ => hsignature m) fun _ _ _ => ?_,
    hs.update rfl fun m _ => hsignature m, Δ, [], hΔ, by simp, by rw [List.append_nil]; rfl⟩, ha⟩
  have hlength := hscope.locals.length_eq
  simp only
  omega

end Obeys

end MicroJava
