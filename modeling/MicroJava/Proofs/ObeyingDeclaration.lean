import MicroJava.Proofs.Knowing
import MicroJava.Proofs.ParsingProgram

/-!
# Rules for declarations

The declarations of a program obey the static rules (`Obeys.declarations`). Where nothing is declared,
the rules are those that are checked inside blocks (`Obeys.of_checks`).
-/

namespace MicroJava

open Static Tree

variable {ρ : Classes} {Γ : Context} {k : Knowledge} {t₀ : SymbolTable} {id : EntryId} {n : String}
  {i : TypeId} {τ : Ty}

namespace Tree.Literal

def type : Literal → Ty
  | number _ => .int
  | character _ => .char

def value : Literal → Int32
  | number v => v
  | character v => v

/-- The handle of its type. -/
def handle : Literal → TypeId
  | number _ => .int
  | character _ => .char

end Tree.Literal

/-- A world in which nothing is declared. -/
def World.blank : World where
  classes := fun _ => none
  context := ⟨[], [], [], .void⟩
  table := .initial
  models := ⟨rfl, rfl, rfl, rfl, nofun, nofun⟩
  named := nofun

/-- The name of a type, and brackets behind it. -/
theorem World.Checks.type {w : World} {c : Setting} {A : Prop} {t : TypeName} :
    w.Checks A (Production.Runs c Production.type) t.yield (· ≠ .leftBracket) (fun _ => True)
      (TypeNameIs w.context t) fun i τ => w.HasType τ i := by
  obtain ⟨n, isArray⟩ := t
  rw [Production.type, TypeName.yield, ← List.singleton_append]
  cases isArray with
  | false =>
    refine Checks.iff (J := fun τ => ∃ σ, w.context.lookup n = some (.type σ) ∧ τ = σ)
      (namedType.bind (H := fun _ => True) (fun i σ _ => ?_) fun _ _ => trivial) fun _ τ => ?_
    · refine check_ne (fun rest hrest => hrest) (ret trivial (fun _ => ⟨σ, rfl⟩) ?_)
      rintro hA _ rfl
      exact hA.2.2.type
    · constructor
      · rintro ⟨_, hn, rfl⟩
        exact .plain hn
      · rintro (hn | _)
        exact ⟨τ, hn, rfl⟩
  | true =>
    refine Checks.iff (J := fun τ => ∃ σ, w.context.lookup n = some (.type σ) ∧ τ = .array σ)
      (namedType.bind (H := fun _ => True) (fun i σ _ => ?_) fun _ _ => trivial) fun _ τ => ?_
    · refine check (fun rest hrest => rfl) (advance (expect ?_))
      refine (arrayOf fun hA => hA.2.2).conseq (fun _ _ _ => ⟨_, rfl⟩) ?_ id (fun _ => id)
        fun _ => id
      rintro hA _ rfl
      exact ⟨(), trivial, fun _ => id⟩
    · constructor
      · rintro ⟨σ, hn, rfl⟩
        exact .array hn
      · rintro (_ | hn)
        exact ⟨_, hn, rfl⟩

namespace Obeys

open Production

variable {c : Setting} {α V : Type} {xs : List Terminal} {F : Token.Kind → Prop} {P : α → Prop}
  {m : Production α}

/-- A production that declares nothing obeys the rule that it checks. -/
theorem of_checks {J : Context → V → Prop} {D : World → α → V → Prop} {G : Knowledge → Prop}
    {S : α → V → Knowledge → Prop}
    (h : ∀ w : World, w.Checks True (Runs c m) xs F P (J w.context) (D w))
    (hkeeps : ∀ s a s', Runs c m s a s' → s.Named → s.table.Sound → s.table.Predeclared →
      s'.table.Sound ∧ s'.table.Predeclared ∧ s'.assembly.entry = s.assembly.entry)
    (hG : ∀ k k', k.table.Widens k'.table → k'.entry = k.entry → G k → G k')
    (hD : ∀ w a v k, w.classes = ρ → w.table = k.table → D w a v → S a v k) :
    Obeys (fun k => k.Agrees ρ Γ ∧ G k) (Runs c m) xs F P (J Γ)
      fun a v k => (k.Agrees ρ Γ ∧ G k) ∧ S a v k := by
  intro s a s' rest hrun hn hahead hf
  obtain ⟨hp, hblank⟩ := h World.blank hrun hn hahead hf
  have hreaches := hblank.reaches
  have hbelow := hreaches.table.below (ρ := ρ)
  refine ⟨hp, hreaches.toTakes, fun ⟨hk, _⟩ hm => ?_, fun ⟨hk, hg⟩ v hv => ?_⟩
  · let w : World := ⟨ρ, Γ, s'.table, (hk.table.widens hreaches.table).types, hk.namesTypes⟩
    exact (h w hrun hn hahead hf).2.sound trivial ⟨⟨hk.table, hk.result⟩, .refl _⟩ hm
  · let w : World := ⟨ρ, Γ, s'.table, (hk.table.widens hreaches.table).types, hk.namesTypes⟩
    obtain ⟨hm, hd⟩ :=
      (h w hrun hn hahead hf).2.complete trivial ⟨⟨hk.table, hk.result⟩, .refl _⟩ v hv
    obtain ⟨hsound, hpredeclared, hentry⟩ := hkeeps s a s' hrun hn hk.sound hk.predeclared
    refine ⟨hm, ⟨⟨hk.table.widens hreaches.table, ?_, hk.names, hsound, hpredeclared⟩,
      hG s.knowledge _ hreaches.table hentry hg⟩, hD w a v _ rfl rfl hd⟩
    rw [show s'.knowledge.returnType = s.knowledge.returnType from hreaches.returnType]
    exact hk.result.mono hbelow.classes hbelow.arrays

/-! ### Types and names -/

theorem type {t : TypeName} :
    Obeys (fun k => k.Agrees ρ Γ) (Runs c Production.type) t.yield (· ≠ .leftBracket)
      (fun _ => True) (TypeNameIs Γ t) fun i τ k => k.Agrees ρ Γ ∧ k.table.types.HasType ρ τ i := by
  refine (of_checks (G := fun _ => True) (D := fun w i τ => w.HasType τ i)
    (S := fun i τ k => k.table.types.HasType ρ τ i) (J := fun Γ => TypeNameIs Γ t)
    (fun w => World.Checks.type) ?_ (fun _ _ _ _ => id) ?_).conseq (fun _ hk => ⟨hk, trivial⟩)
      (fun _ _ τ hτ => ⟨τ, hτ⟩) fun _ _ τ hτ => ⟨τ, hτ, fun _ _ h => ⟨h.1.1, h.2⟩⟩
  · intro s i s' hrun _ hsound hpredeclared
    have hdeclares := declares_type hrun
    obtain ⟨dataSize, hassembly⟩ := hdeclares.assembly
    exact ⟨hdeclares.sound hsound, hdeclares.table.predeclared hpredeclared, by rw [hassembly]⟩
  · rintro w i τ k rfl htable hτ
    rwa [World.HasType, htable] at hτ

/-- A name that is not declared yet may be declared. -/
theorem declare {category : Category} (hn : n ≠ "") (G : SymbolTable → Prop) :
    Obeys (fun k => k.Agrees ρ Γ ∧ G k.table) (Runs c (declare category n i)) [] F (fun _ => True)
      (fun _ : Unit => Γ.IsFresh n) fun id _ k =>
        ∃ t₀, G t₀ ∧ Pending ρ Γ t₀ id ⟨n, i, t₀.meaningOf category⟩ k := by
  refine of_still fun s id s' hrun => ⟨still_declare hrun, fun ⟨hk, hg⟩ => ?_⟩
  rw [hk.table.isFresh_iff]
  have hcurrent : s.knowledge.table.current = s.table.current := rfl
  rw [hcurrent]
  rcases runs_declare.1 hrun with ⟨heq, -⟩ | ⟨-, hsome, -, rfl⟩ | ⟨-, hnone, rfl, rfl⟩
  · exact absurd heq hn
  · rw [Option.isSome_iff_ne_none] at hsome
    exact ⟨fun hm => by simp at hm, fun _ h => absurd h hsome⟩
  · exact ⟨fun _ => ⟨(), hnone⟩, fun _ _ => ⟨rfl, s.table, hg, hk, hnone, rfl, rfl⟩⟩

theorem runs_countGlobal {s s' : Session} {u : Unit} (h : Runs c (countGlobal id) s u s') :
    Still c s s' ∧ s'.mistakes = s.mistakes ∧ s'.knowledge = s.knowledge := by
  refine ⟨still_countGlobal h, ?_⟩
  simp only [countGlobal, runs_bind, runs_table] at h
  obtain ⟨_, _, ⟨rfl, rfl⟩, h⟩ := h
  split at h
  · obtain ⟨assembly, hs, rfl⟩ := runs_write.1 h
    obtain rfl := Emission.succeeds_modify.1 hs
    exact ⟨rfl, rfl⟩
  · rw [(runs_pure.1 h).2]
    exact ⟨rfl, rfl⟩

/-- One name of a declaration of variables. -/
theorem variableName (b : Bool) :
    Obeys (fun k => k.Agrees ρ Γ ∧ k.table.types.HasType ρ τ i) (Runs c (variableName i))
      (.name n :: if b then [.word .comma] else []) (fun k => b = false → k ≠ .comma) (· = b)
      (fun Γ' => Γ.IsFresh n ∧ Γ' = Γ.declare n (.variable τ))
      fun _ Γ' k => k.Agrees ρ Γ' ∧ k.table.types.HasType ρ τ i := by
  rw [Production.variableName]
  refine identifier fun hn => ?_
  refine (declare hn fun t => t.types.HasType ρ τ i).ensureHere fun id _ => ?_
  refine step (T := fun _ k => k.Agrees ρ (Γ.declare n (.variable τ)) ∧
    k.table.types.HasType ρ τ i) (fun s u s' hrun => ?_) fun _ => ?_
  · obtain ⟨hstill, hm, hknowledge⟩ := runs_countGlobal hrun
    refine ⟨hstill, hm, ?_⟩
    rw [hknowledge]
    rintro ⟨-, t₀, hτ, hpending⟩
    refine ⟨hpending.asVariable hτ, ?_⟩
    rw [hpending.table, SymbolTable.types_bind]
    exact hτ
  · have hret : ∀ b : Bool, Obeys (fun k => k.Agrees ρ (Γ.declare n (.variable τ)) ∧
        k.table.types.HasType ρ τ i) (Runs c (Pure.pure b)) [] (fun _ => True) (· = b)
          (fun Γ' => Γ' = Γ.declare n (.variable τ))
          fun _ Γ' k => k.Agrees ρ Γ' ∧ k.table.types.HasType ρ τ i := fun b => by
      refine ret rfl (fun _ _ => ⟨_, rfl⟩) ?_
      rintro k hk _ rfl
      exact hk
    cases b with
    | false => exact check_ne (fun rest hrest => hrest rfl) ((hret false).follow fun _ _ => trivial)
    | true => exact check (fun _ _ => rfl) (advance ((hret true).follow fun _ _ => trivial))

theorem names : ∀ (ns : Names) (Γ : Context),
    Obeys (fun k => k.Agrees ρ Γ ∧ k.table.types.HasType ρ τ i)
      (fun s (_ : Unit) s' => Repeats c (Production.variableName i) s s') ns.yield (· ≠ .comma)
      (fun _ => True) (NamesDeclare τ Γ ns) fun _ Γ' k => k.Agrees ρ Γ'
  | .last n, Γ => by
    refine (repeats_last ((variableName false).follow fun _ hk _ => hk)).conseq (fun _ => id) ?_ ?_
    · rintro - - Γ' ⟨hn, rfl⟩
      exact ⟨_, .last hn⟩
    · rintro - - _ (⟨hn⟩ | _)
      exact ⟨_, ⟨hn, rfl⟩, fun _ _ h => h.1⟩
  | .more n ns, Γ => by
    have hyield : (Names.more n ns).yield = [.name n, .word .comma] ++ ns.yield := rfl
    rw [hyield]
    refine (repeats_next (variableName true) (K := fun Γ₁ Γ' => NamesDeclare τ Γ₁ ns Γ')
      (fun Γ₁ => (names ns Γ₁).weaken fun _ => And.right) fun _ _ h => by contradiction).iff ?_
    intro k _ Γ'
    constructor
    · rintro ⟨_, ⟨hn, rfl⟩, hns⟩
      exact .more hn hns
    · rintro (_ | ⟨hn, hns⟩)
      exact ⟨_, ⟨hn, rfl⟩, hns⟩

theorem variableDeclaration {vs : Variables} :
    Obeys (fun k => k.Agrees ρ Γ) (Runs c variableDeclaration) vs.yield F (fun _ => True)
      (VariablesDeclare Γ vs) fun _ Γ' k => k.Agrees ρ Γ' := by
  obtain ⟨t, ns⟩ := vs
  rw [Production.variableDeclaration, Variables.yield]
  refine (type.bind (K := fun τ Γ' => NamesDeclare τ Γ ns Γ') (fun i τ _ => ?_) ?_).iff ?_
  · refine ((names ns Γ).repeats.weaken fun _ => And.right).before (fun _ _ _ => expected) ?_
    intro rest _ h
    cases h
  · intro rest _ h
    cases ns <;> cases h
  · intro k _ Γ'
    constructor
    · rintro ⟨τ, ht, hns⟩
      exact .mk ht hns
    · rintro ⟨ht, hns⟩
      exact ⟨_, ht, hns⟩

/-! ### Lists -/

/-- The members of a list are declared one after the other. -/
theorem all {turn : Production Bool} {yield : α → List Terminal} {A : α → Prop}
    {H : Token.Kind → Prop} {declares : Context → α → Context → Prop}
    {R : Context → Knowledge → Prop}
    (hnext : ∀ Γ x, A x →
      Obeys (R Γ) (Runs c turn) (yield x) H (· = true) (declares Γ x) fun _ Γ' => R Γ')
    (hlast : ∀ Γ, Obeys (R Γ) (Runs c turn) [] F (· = false) (fun Γ' => Γ' = Γ) fun _ Γ' => R Γ')
    (hF : ∀ (xs : List α) rest, F (nextKind rest) → H (nextKind (xs.flatMap yield ++ rest))) :
    ∀ (xs : List α) (Γ : Context), (∀ x ∈ xs, A x) →
      Obeys (R Γ) (fun s (_ : Unit) s' => Repeats c turn s s') (xs.flatMap yield) F
        (fun _ => True) (AllDeclare declares Γ xs) fun _ Γ' => R Γ'
  | [], Γ, _ => by
    refine (repeats_last (hlast Γ)).iff fun _ _ Γ' => ?_
    constructor
    · rintro rfl
      exact .nil
    · rintro ⟨⟩
      rfl
  | x :: xs, Γ, hxs => by
    rw [List.flatMap_cons]
    refine (repeats_next (hnext Γ x (hxs x List.mem_cons_self))
      (K := fun Γ₁ Γ' => AllDeclare declares Γ₁ xs Γ') (fun Γ₁ => ?_) (hF xs)).iff fun _ _ Γ' => ?_
    · exact (all hnext hlast hF xs Γ₁ fun x hx => hxs x (List.mem_cons_of_mem _ hx)).weaken
        fun _ => And.right
    · constructor
      · rintro ⟨_, hx, hxs⟩
        exact .cons hx hxs
      · rintro (_ | ⟨hx, hxs⟩)
        exact ⟨_, hx, hxs⟩

/-- A turn that declares, and asks for another. -/
theorem turn {m : Production Unit} {J : Context → Prop} {R R' : Context → Knowledge → Prop}
    (hm : Obeys (R Γ) (Runs c m) xs F (fun _ => True) J fun _ Γ' => R' Γ') :
    Obeys (R Γ) (Runs c (do m; return true)) xs F (· = true) J fun _ Γ' => R' Γ' := by
  rw [← List.append_nil xs]
  refine hm.before (fun _ _ _ => ?_) fun _ hrest => hrest
  exact ret rfl (fun _ _ => ⟨(), trivial⟩) fun _ hk _ _ => hk

/-- A turn that finds nothing to declare. -/
theorem turn_last {R : Context → Knowledge → Prop} :
    Obeys (R Γ) (Runs c (Pure.pure false)) [] F (· = false) (fun Γ' => Γ' = Γ)
      fun _ Γ' => R Γ' := by
  refine ret rfl (fun _ _ => ⟨Γ, rfl⟩) ?_
  rintro k hk _ rfl
  exact hk

theorem variableDeclarations (vs : List Variables) (Γ : Context) :
    Obeys (fun k => k.Agrees ρ Γ) (Runs c variableDeclarations) (vs.flatMap Variables.yield)
      (· ≠ .identifier) (fun _ => True) (AllDeclare VariablesDeclare Γ vs)
      fun _ Γ' k => k.Agrees ρ Γ' := by
  refine (all (R := fun Γ k => k.Agrees ρ Γ) (A := fun _ => True) (H := fun _ => True)
    (fun Γ vs _ => ?_) (fun Γ => ?_) (fun _ _ _ => trivial) vs Γ fun _ _ => trivial).repeats
  · exact check (fun _ _ => rfl) (turn (R := fun Γ k => k.Agrees ρ Γ) variableDeclaration)
  · exact check_ne (fun rest hrest => hrest) (turn_last (R := fun Γ k => k.Agrees ρ Γ))

/-! ### Constants -/

/-- A constant is first declared without its value. -/
theorem constantValue {l : Literal} :
    Obeys (fun k => ∃ t₀, t₀.types.HasType ρ τ i ∧ Pending ρ Γ t₀ id ⟨n, i, .constant 0⟩ k)
      (Runs c (constantValue id i)) [l.terminal] F (fun _ => True)
      (fun Γ' => τ = l.type ∧ Γ' = Γ.declare n (.constant l.type l.value))
      fun _ Γ' k => k.Agrees ρ Γ' := by
  have hkind : literalType? l.terminal.kind = some l.handle := by cases l <;> rfl
  rw [Production.constantValue]
  refine peek (k := l.terminal.kind) (fun _ _ => rfl) ?_
  simp only [hkind]
  refine ((reportIf rfl).ensureHere (K := fun Γ' => Γ' = Γ.declare n (.constant l.type l.value))
    fun _ _ => take (a := l.value) (fun s v s' hrun ht => ?_) ?_).iff ?_
  · obtain ⟨rfl, rfl⟩ := runs_literal.1 hrun
    have hk : s.current.kind = l.terminal.kind := by rw [← Token.kind_terminal, ht]
    cases l <;> simp_all [Token.terminal, Literal.terminal, Terminal.kind, Literal.value]
  · refine (silent (T := fun _ k => k.Agrees ρ (Γ.declare n (.constant l.type l.value)))
      fun s u s' hrun => ?_).conseq (fun _ hk => hk) (fun _ _ _ _ => ⟨_, rfl⟩) ?_
    · obtain rfl := runs_updateEntry.1 hrun
      refine ⟨.of_eq rfl rfl rfl, rfl, ?_⟩
      rintro ⟨htype, t₀, hτ, hpending⟩
      obtain rfl := not_not.1 htype
      have hl : t₀.types.HasType ρ l.type l.handle := by cases l <;> rfl
      exact (hpending.update (f := fun e => { e with meaning := .constant l.value }) rfl rfl).asConstant
        hl
    · rintro - - _ rfl
      exact ⟨(), trivial, fun _ _ hk => hk⟩
  · rintro k ⟨t₀, hτ, hpending⟩ Γ'
    have hl : t₀.types.HasType ρ l.type l.handle := by cases l <;> rfl
    rw [not_not, hl.eq_iff hpending.agrees.table.types hτ (by cases l <;> simp [Literal.type]),
      eq_comm]

theorem constantDeclaration {options : Options} {t : TypeName} {l : Literal} :
    Obeys (fun k => k.Agrees ρ Γ) (Runs c constantDeclaration) (Declaration.constant t n l).yield F
      (fun _ => True) (DeclarationDeclares options Γ (.constant t n l))
      fun _ Γ' k => k.Agrees ρ Γ' := by
  rw [Production.constantDeclaration, Declaration.yield]
  refine advance ((type.bind (K := fun τ Γ' => Γ.IsFresh n ∧ τ = l.type ∧
    Γ' = Γ.declare n (.constant l.type l.value)) (fun i τ _ => ?_) fun _ _ h => by cases h).iff ?_)
  · refine identifier fun hn => ?_
    refine ((declare hn fun t => t.types.HasType ρ τ i).weaken fun _ => And.right).ensureHere
      fun id _ => expect ?_
    rw [← List.singleton_append]
    exact ((constantValue (F := fun _ => True)).weaken fun _ => And.right).before
      (fun _ _ _ => expected) fun _ _ => trivial
  · intro k _ Γ'
    constructor
    · rintro ⟨τ, ht, hn, rfl, rfl⟩
      cases l with
      | number v => exact .number ht hn
      | character v => exact .character ht hn
    · intro h
      cases h with
      | number ht hn => exact ⟨_, ht, hn, rfl, rfl⟩
      | character ht hn => exact ⟨_, ht, hn, rfl, rfl⟩

/-! ### Classes -/

/-- A class opens a scope for its fields, and is given them behind the last one. -/
theorem classFields {vs : List Variables} {a : TypeId} {A : Prop} (hρ : ρ n = some a) :
    Obeys (fun k => k.Agrees ρ Γ ∧ A)
      (Runs c (do
        openScope
        Production.variableDeclarations
        Production.reportIf ((← read).options.maxFields < (← Production.table).current.variableCount)
          .tooManyFields
        let fields ← closeScope
        discard (descriptor a)
        Production.updateTable (·.setFields a fields)
        Production.expect .rightBrace))
      (vs.flatMap Variables.yield ++ [.word .rightBrace]) F (fun _ => True)
      (fun Γ' => ∃ Γ₁, AllDeclare VariablesDeclare (Γ.enter []) vs Γ₁ ∧
        Γ₁.scope.length ≤ c.options.maxFields ∧
        Γ' = { Γ with classes := (n, Γ₁.scope) :: Γ.classes })
      fun _ Γ' k => k.Agrees ρ Γ' ∧ A := by
  refine updateTable (L := fun k => k.Agrees ρ (Γ.enter []) ∧ A) (fun k hk => ⟨hk.1.openScope, hk.2⟩) ?_
  refine ((variableDeclarations vs (Γ.enter [])).along (G := fun _ => A)
    fun _ _ _ _ h => h).bind (fun _ Γ₁ _ => setting (table fun t => ?_)) fun _ _ h => by cases h
  refine Obeys.iff (J := fun Γ' => ¬c.options.maxFields < t.current.variableCount ∧
    Γ' = { Γ with classes := (n, Γ₁.scope) :: Γ.classes }) ?_ ?_
  · refine (reportIf rfl).ensureHere fun _ _ => withTable
      (T := fun ids k => (k.Agrees ρ Γ ∧ A) ∧ List.Forall₂ (fun id b =>
        k.table.Binds ρ id b.1 b.2 ∧ b.2.isVariable) ids Γ₁.scope) ?_ fun ids => ?_
    · rintro k ⟨-, ⟨hvs, hk, hA⟩, -⟩
      obtain ⟨Δ, hΔ, rfl⟩ := Static.Context.Extends.of_all hvs
      refine ⟨⟨hk.closeScope rfl, hA⟩, ?_⟩
      have hinner := hk.table.inner_ne_nil (List.cons_ne_nil _ _)
      rw [SymbolTable.closeScope_fst _ (List.length_pos_iff.2 hinner)]
      refine List.forall₂_iff_zip.2 ⟨hk.table.current.locals.length_eq, fun {id b} hmem => ?_⟩
      exact ⟨(List.forall₂_zip hk.table.current.locals hmem).mono (SymbolTable.Agrees.below_closeScope _),
        hΔ b (List.of_mem_zip hmem).2⟩
    · refine step (T := fun _ k => (k.Agrees ρ Γ ∧ A) ∧ List.Forall₂ (fun id b =>
        k.table.Binds ρ id b.1 b.2 ∧ b.2.isVariable) ids Γ₁.scope) (fun s u s' hrun => ?_) fun _ => ?_
      · obtain ⟨d, hrun⟩ := runs_discard.1 hrun
        obtain ⟨-, rfl⟩ := runs_descriptor.1 hrun
        exact ⟨.refl _, rfl, fun h => h⟩
      · refine updateTable
          (L := fun k => k.Agrees ρ { Γ with classes := (n, Γ₁.scope) :: Γ.classes } ∧ A)
          (fun k hk => ⟨hk.1.1.setFields hρ hk.2, hk.1.2⟩) ?_
        exact expected.conseq (fun _ hk => hk) (fun _ _ _ _ => ⟨_, rfl⟩) fun _ _ _ hΓ' =>
          ⟨(), trivial, fun _ _ hk => hΓ' ▸ hk⟩
  · rintro k ⟨⟨hvs, hk, -⟩, rfl⟩ Γ'
    obtain ⟨Δ, hΔ, heq⟩ := Static.Context.Extends.of_all hvs
    have hcount : Γ₁.scope.countP (·.2.isVariable) = Γ₁.scope.length := by
      rw [List.countP_eq_length, heq]
      exact hΔ
    rw [hk.table.current.count, Nat.not_lt, hcount]

theorem classDeclaration {vs : List Variables} :
    Obeys (Knows Γ) (Runs c classDeclaration) (Declaration.record n vs).yield F (fun _ => True)
      (DeclarationDeclares c.options Γ (.record n vs)) fun _ Γ' => Knows Γ' := by
  rw [Production.classDeclaration, Declaration.yield]
  refine Obeys.strengthen (T := fun _ Γ' k => ∃ _ : Classes, Knows Γ' k) ?_ fun _ _ _ _ h => h.elim fun _ h => h
  refine for_some fun ρ => advance (identifier fun hn => ?_)
  refine withTable (T := fun a k => k.Agrees ρ Γ ∧ Γ.Owns ρ ∧ IsNew ρ a k.table) ?_ fun a => ?_
  · rintro k ⟨hk, hΓ⟩
    exact ⟨hk.widens ⟨_, rfl, Types.descriptor?_push _⟩ hk.sound.newClass, hΓ, .of_agrees hk.table⟩
  · let Γ₁ := Γ.declare n (.type (.object n))
    let ρ₁ : Classes := fun m => if m = n then some a else ρ m
    refine Obeys.iff (J := fun Γ' => Γ.IsFresh n ∧ ∃ Γ₂,
      AllDeclare VariablesDeclare (Γ₁.enter []) vs Γ₂ ∧ Γ₂.scope.length ≤ c.options.maxFields ∧
        Γ' = { Γ₁ with classes := (n, Γ₂.scope) :: Γ₁.classes }) ?_ ?_
    · refine (declare hn fun t => Γ.Owns ρ ∧ IsNew ρ a t).discarded.ensureHere fun _ _ => expect ?_
      refine (classFields (ρ := ρ₁) (A := Γ.Owns ρ) (if_pos rfl)).conseq ?_
        (fun _ _ Γ' h => ⟨Γ', h⟩) ?_
      · rintro k ⟨hfresh, _, t₀, ⟨hΓ, hnew⟩, hpending⟩
        exact ⟨hpending.asClass hnew hΓ hfresh, hΓ⟩
      · rintro - - Γ' ⟨Γ₂, hvs, hlimit, rfl⟩
        exact ⟨_, ⟨Γ₂, hvs, hlimit, rfl⟩, fun _ k hk => ⟨ρ₁, hk.1, hk.2.record n a Γ₂.scope⟩⟩
    · rintro k - Γ'
      constructor
      · rintro ⟨hn, Γ₂, hvs, hlimit, rfl⟩
        exact .record hn rfl hvs hlimit
      · intro h
        cases h with
        | record hn hclass hvs hlimit =>
          subst hclass
          exact ⟨hn, _, hvs, hlimit, rfl⟩

/-! ### Declarations -/

/-- Where no class is declared, the handles of the classes stay the same. -/
theorem knows {run : Session → α → Session → Prop} {J : Context → Prop}
    (h : ∀ ρ, Obeys (fun k => k.Agrees ρ Γ) run xs F P J fun _ Γ' k => k.Agrees ρ Γ')
    (hJ : ∀ Γ', J Γ' → ∃ Δ, Γ' = { Γ with scope := Γ.scope ++ Δ }) :
    Obeys (Knows Γ) run xs F P J fun _ Γ' => Knows Γ' := by
  refine for_some fun ρ => ((h ρ).along (G := fun _ => Γ.Owns ρ)
    fun _ _ _ _ h => h).strengthen fun _ Γ' k hΓ' ⟨hk, hΓ⟩ => ⟨hk, ?_⟩
  obtain ⟨Δ, rfl⟩ := hJ Γ' hΓ'
  exact hΓ.extend Δ

theorem declarations (ds : List Declaration) (Γ : Context) :
    Obeys (Knows Γ) (Runs c declarations) (ds.flatMap Declaration.yield) (· = .leftBrace)
      (fun _ => True) (AllDeclare (DeclarationDeclares c.options) Γ ds) fun _ Γ' => Knows Γ' := by
  refine (all (A := fun _ => True) (H := fun _ => True) (fun Γ d _ => ?_) (fun Γ => ?_)
    (fun _ _ _ => trivial) ds Γ fun _ _ => trivial).repeats
  · cases d with
    | constant t n l =>
      refine peek (k := .finalWord) (fun _ _ => rfl) (turn (knows (fun ρ => constantDeclaration) ?_))
      rintro Γ' (_ | _) <;> exact ⟨_, rfl⟩
    | vars vs =>
      refine peek (k := .identifier) (fun _ _ => rfl) (turn ?_)
      refine (knows (fun ρ => variableDeclaration) fun Γ' hvs => ?_).iff fun _ _ Γ' => ?_
      · obtain ⟨Δ, -, heq⟩ := Static.Context.Extends.of_variables hvs
        exact ⟨Δ, heq⟩
      · refine ⟨.vars, fun h => ?_⟩
        cases h with
        | vars h => exact h
    | record n vs =>
      exact peek (k := .classWord) (fun _ _ => rfl) (turn classDeclaration)
  · exact peek (k := .leftBrace) (fun rest hrest => hrest) turn_last

end Obeys

end MicroJava
