import MicroJava.Proofs.ParsingStatement

/-!
# What declarations and programs read

Declarations change the symbol table, which the terminals ahead do not depend on (`Still`).
-/

namespace MicroJava.Production

open Tree

variable {c : Setting} {p : Token.Kind → Prop}

/-! ### Declaring -/

theorem still_of_acts {α : Type} {m : Production α} (hm : Keeps c (Acts c) m) :
    Keeps c (Still c) m :=
  fun _ _ _ hrun => (hm hrun).still

theorem still_withTable {α : Type} {f : SymbolTable → α × SymbolTable} :
    Keeps c (Still c) (modifyGet (·.withTable f)) := by
  intro s a s' hrun
  obtain ⟨-, rfl⟩ := runs_modifyGet.1 hrun
  exact .of_eq rfl rfl rfl

theorem still_declare {category : Category} {name : String} {t : TypeId} :
    Keeps c (Still c) (declare category name t) := by
  intro s id s' hrun
  rcases runs_declare.1 hrun with ⟨-, -, rfl⟩ | ⟨-, -, -, rfl⟩ | ⟨-, -, -, rfl⟩
  · exact .refl _
  · exact .report rfl _
  · exact .of_eq rfl rfl rfl

theorem still_countGlobal {id : EntryId} : Keeps c (Still c) (countGlobal id) :=
  .bind (still_of_acts acts_table) fun _ =>
    .ite (fun _ => still_of_acts acts_write) fun _ => .pure ()

theorem still_setReturnType {t : TypeId} : Keeps c (Still c) (setReturnType t) := by
  intro s u s' hrun
  obtain rfl := runs_modify.1 hrun
  exact .of_eq rfl rfl rfl

/-! ### Constants, variables and classes -/

theorem reading_type : Reading c p type fun _ => Spells TypeName.yield := by
  refine .post (.bind (S := fun _ _ x y => x = y ∨ x = .word .leftBracket :: .word .rightBracket :: y)
    reading_namedType fun t => .check ?_ (.pure fun _ => .inl rfl)) ?_
  · refine .post (.bind (.advance (by decide)) fun _ => .acts (.expect (by decide)) fun _ =>
      acts_arrayOf) ?_
    rintro _ x y ⟨-, _, rfl, -, rfl⟩
    exact .inr rfl
  · rintro _ x y ⟨-, _, ⟨n, rfl⟩, rfl | rfl⟩
    · exact ⟨⟨n, false⟩, rfl⟩
    · exact ⟨⟨n, true⟩, rfl⟩

theorem reading_constantValue {id : EntryId} {t : TypeId} :
    Reading c p (constantValue id t) fun _ x y => ∃ v : Literal, x = v.terminal :: y := by
  refine .peek fun k _ => ?_
  split
  · next u h =>
    unfold literalType? at h
    split at h
    · refine .post (.act (acts_reportIf rfl) fun _ => .bind_still .number fun v =>
        still_withTable) ?_
      rintro _ x y ⟨v, rfl⟩
      exact ⟨.number v, rfl⟩
    · refine .post (.act (acts_reportIf rfl) fun _ => .bind_still .character fun v =>
        still_withTable) ?_
      rintro _ x y ⟨v, rfl⟩
      exact ⟨.character v, rfl⟩
    · contradiction
  · exact .slip rfl []

theorem reading_constantDeclaration :
    Reading c (· = .finalWord) constantDeclaration fun _ => Spells Declaration.yield := by
  refine .post (.bind (.advance (by decide)) fun _ => .bind reading_type fun t =>
    .bind .identifier fun name => .still_bind still_declare fun id =>
      .bind (.expect (by decide)) fun _ => .bind reading_constantValue fun _ =>
        .expect (by decide)) ?_
  rintro _ x y ⟨-, _, rfl, -, _, ⟨t, rfl⟩, n, _, rfl, -, _, rfl, -, _, ⟨v, rfl⟩, rfl⟩
  exact ⟨.constant t n v, by simp [Declaration.yield]⟩

theorem reading_variableName {t : TypeId} :
    Reading c p (variableName t) fun b x y =>
      ∃ n, x = .name n :: if b then .word .comma :: y else y := by
  refine .post (.bind (S := fun _ b x y => x = if b then .word .comma :: y else y) .identifier
    fun name => .still_bind still_declare fun id => .still_bind still_countGlobal fun _ =>
      .check ?_ (.pure fun _ => rfl)) ?_
  · refine .post (.bind (.advance (by decide)) fun _ => .returns) ?_
    rintro _ x y ⟨-, _, rfl, rfl, rfl⟩
    rfl
  · rintro b x y ⟨n, _, rfl, rfl⟩
    exact ⟨n, rfl⟩

theorem reading_variableDeclaration :
    Reading c p variableDeclaration fun _ => Spells Variables.yield := by
  refine .post (.bind reading_type fun t => .bind
    (.repeatWhile (L := Spells Names.yield) (.post reading_variableName ?_)) fun _ =>
      .expect (by decide)) ?_
  · rintro (_ | _) x y ⟨n, rfl⟩
    · exact ⟨.last n, rfl⟩
    · rintro z ⟨ns, rfl⟩
      exact ⟨.more n ns, rfl⟩
  · rintro _ x y ⟨-, _, ⟨t, rfl⟩, -, _, ⟨ns, rfl⟩, rfl⟩
    exact ⟨⟨t, ns⟩, by simp [Variables.yield]⟩

/-- A list of trees of one form. -/
def SpellsAll {α : Type} (yield : α → List Terminal) (x y : List Terminal) : Prop :=
  ∃ as : List α, x = as.flatMap yield ++ y

theorem SpellsAll.nil {α : Type} {yield : α → List Terminal} (x : List Terminal) :
    SpellsAll yield x x := ⟨[], rfl⟩

theorem SpellsAll.cons {α : Type} {yield : α → List Terminal} {a : α} {y z : List Terminal}
    (h' : SpellsAll yield y z) : SpellsAll yield (yield a ++ y) z := by
  obtain ⟨as, rfl⟩ := h'
  exact ⟨a :: as, by simp⟩

/-- One turn of a loop that reads a list. -/
theorem reading_turn {α : Type} {yield : α → List Terminal} {m : Production Unit}
    (hm : Reading c p m fun _ => Spells yield) :
    Reading c p (do m; return true) fun b x y =>
      if b then ∀ z, SpellsAll yield y z → SpellsAll yield x z else SpellsAll yield x y := by
  refine .post (.bind hm fun _ => .returns) ?_
  rintro _ x y ⟨-, _, ⟨a, rfl⟩, rfl, rfl⟩ z hz
  exact hz.cons

theorem reading_variableDeclarations :
    Reading c p variableDeclarations fun _ => SpellsAll Variables.yield :=
  .repeatWhile (.check (reading_turn reading_variableDeclaration) (.pure .nil))

theorem reading_classDeclaration :
    Reading c (· = .classWord) classDeclaration fun _ => Spells Declaration.yield := by
  refine .post (.bind (.advance (by decide)) fun _ => .bind .identifier fun name =>
    .still_bind still_withTable fun t => .still_bind (.discard still_declare) fun _ =>
      .bind (.expect (by decide)) fun _ => .still_bind still_withTable fun _ =>
        .bind reading_variableDeclarations fun _ => .act .read fun _ => .act acts_table fun _ =>
          .act (acts_reportIf rfl) fun _ => .still_bind still_withTable fun fields =>
            .act (.discard acts_descriptor) fun _ => .still_bind still_withTable fun _ =>
              .expect (by decide)) ?_
  rintro _ x y ⟨-, _, rfl, n, _, rfl, -, _, rfl, -, _, ⟨vs, rfl⟩, rfl⟩
  exact ⟨.record n vs, by simp [Declaration.yield]⟩

theorem reading_declarations :
    Reading c p declarations fun _ => SpellsAll Declaration.yield := by
  refine .repeatWhile (.peek fun k _ => ?_)
  split
  · exact reading_turn reading_constantDeclaration
  · exact reading_turn reading_classDeclaration
  · refine reading_turn (.post reading_variableDeclaration ?_)
    rintro _ x y ⟨v, rfl⟩
    exact ⟨.vars v, rfl⟩
  · exact .pure .nil
  · exact .pure .nil
  · exact reading_turn reading_recoverDeclaration

/-! ### Methods -/

theorem reading_parameter (u : Unit) :
    Reading c p (parameter u) (Turn (Spells Parameters.yield)) := by
  refine .post (.bind reading_type fun t => .bind .identifier fun name =>
    .still_bind still_declare fun id => .check
      (R := fun (b : Unit ⊕ Bool) x y =>
        x = b.elim (fun _ => .word .comma :: y) fun variadic =>
          if variadic then .word .ellipsis :: y else y) ?_ (.check ?_ ?_)) ?_
  · refine .post (.bind (.advance (by decide)) fun _ => .act acts_arrayOf fun _ =>
      .still_bind still_withTable fun _ => .returns) ?_
    rintro _ x y ⟨-, _, rfl, rfl, rfl⟩
    rfl
  · refine .post (.bind (.advance (by decide)) fun _ => .returns) ?_
    rintro _ x y ⟨-, _, rfl, rfl, rfl⟩
    rfl
  · exact .pure fun _ => rfl
  · rintro (_ | variadic) x y ⟨-, _, ⟨t, rfl⟩, n, _, rfl, hb⟩
    · rintro z ⟨ps, rfl⟩
      subst hb
      exact ⟨.more t n ps, by simp [Parameters.yield]⟩
    · subst hb
      refine ⟨.last t n variadic, ?_⟩
      cases variadic <;> simp [Parameters.yield]

theorem reading_parameters :
    Reading c p parameters fun _ x y =>
      ∃ ps : Option Parameters, x = ps.elim [] Parameters.yield ++ y := by
  refine .check (.post (.loop (L := Spells Parameters.yield) reading_parameter _) ?_)
    (.pure fun _ => ⟨none, rfl⟩)
  rintro _ x y ⟨ps, rfl⟩
  exact ⟨some ps, rfl⟩

theorem reading_resultType :
    Reading c p resultType fun _ x y =>
      ∃ r : Option TypeName, x = r.elim [.word .voidWord] TypeName.yield ++ y := by
  refine .check ?_ (.post reading_type ?_)
  · refine .post (.bind (.advance (by decide)) fun _ => .returns) ?_
    rintro _ x y ⟨-, _, rfl, -, rfl⟩
    exact ⟨none, rfl⟩
  · rintro _ x y ⟨r, rfl⟩
    exact ⟨some r, rfl⟩

theorem reading_header {id : EntryId} :
    Reading c p (header id) fun _ x y => ∃ ps : Option Parameters,
      x = .word .leftParen :: (ps.elim [] Parameters.yield ++ .word .rightParen :: y) := by
  refine .post (.bind (.expect (by decide)) fun _ => .bind reading_parameters fun variadic =>
    .bind_still (.expect (by decide)) fun _ => .bind (still_of_acts acts_table) fun _ =>
      .bind still_withTable fun _ => .pure _) ?_
  rintro _ x y ⟨-, _, rfl, -, _, ⟨ps, rfl⟩, -, rfl⟩
  exact ⟨ps, rfl⟩

theorem still_beginning {id : EntryId} {isEntry : Bool} {parameters size : Nat} :
    Keeps c (Still c) (beginning id isEntry parameters size) :=
  .bind (still_of_acts acts_write) fun _ => .bind still_withTable fun _ =>
    .bind (still_of_acts acts_write) fun _ => still_of_acts acts_write

theorem acts_ending {t : TypeId} : Keeps c (Acts c) (ending t) :=
  .ite (fun _ => .bind acts_emit fun _ => acts_emit) fun _ => acts_emit

theorem reading_methodBody {id : EntryId} {isEntry : Bool} {t : TypeId} {parameters : Nat} :
    Reading c p (methodBody id isEntry t parameters) fun _ x y =>
      ∃ (vs : List Variables) (xs : Statements), xs.NearestElse ∧
        x = vs.flatMap Variables.yield ++ ((Statement.block xs).yield ++ y) := by
  refine .post (.bind reading_variableDeclarations fun _ => .act acts_table fun _ =>
    .act .read fun _ => .act (acts_reportIf rfl) fun _ => .still_bind still_beginning fun _ =>
      .acts reading_block fun _ => acts_ending) ?_
  rintro _ x y ⟨-, _, ⟨vs, rfl⟩, -, xs, hxs, rfl⟩
  exact ⟨vs, xs, hxs, rfl⟩

/-- What a method reads. -/
def ReadsMethod (x y : List Terminal) : Prop :=
  ∃ m : Tree.Method, m.body.NearestElse ∧ x = m.yield ++ y

theorem reading_methodDeclaration : Reading c p methodDeclaration fun _ => ReadsMethod := by
  refine .post (.bind reading_resultType fun t => .bind .identifier fun name =>
    .still_bind still_declare fun id => .still_bind still_setReturnType fun _ =>
      .still_bind still_withTable fun _ => .bind reading_header fun _ => .act .read fun _ =>
        .act (acts_reportIf rfl) fun _ => .act (acts_reportIf rfl) fun _ =>
          .bind_still reading_methodBody fun _ => .bind still_withTable fun _ =>
            .bind still_withTable fun _ => still_setReturnType) ?_
  rintro _ x y ⟨-, _, ⟨r, rfl⟩, n, _, rfl, -, _, ⟨ps, rfl⟩, -, vs, xs, hxs, rfl⟩
  exact ⟨⟨r, n, ps, vs, xs⟩, hxs, by simp [Method.yield]⟩

theorem reading_methods :
    Reading c p methods fun _ x y => ∃ ms : List Tree.Method,
      (∀ m ∈ ms, m.body.NearestElse) ∧ x = ms.flatMap Tree.Method.yield ++ y := by
  let L : List Terminal → List Terminal → Prop := fun x y => ∃ ms : List Tree.Method,
    (∀ m ∈ ms, m.body.NearestElse) ∧ x = ms.flatMap Tree.Method.yield ++ y
  have hnil : ∀ x, L x x := fun x => ⟨[], by simp, rfl⟩
  have hturn : ∀ {q : Token.Kind → Prop} {m : Production Unit},
      Reading c q m (fun _ => ReadsMethod) → Reading c q (do m; return true) fun b x y =>
        if b then ∀ z, L y z → L x z else L x y := by
    intro q m hm
    refine .post (.bind hm fun _ => .returns) ?_
    rintro _ x y ⟨-, _, ⟨m, hm, rfl⟩, rfl, rfl⟩ z ⟨ms, hms, rfl⟩
    exact ⟨m :: ms, by simpa using ⟨hm, hms⟩, by simp⟩
  refine .repeatWhile (L := L) (.peek fun k _ => ?_)
  split
  · exact hturn reading_methodDeclaration
  · exact hturn reading_methodDeclaration
  · exact .pure hnil
  · exact .pure hnil
  · exact hturn reading_recoverMethod

/-! ### Programs -/

theorem reading_program :
    Reading c p program fun _ x y => ∃ q : Program, q.NearestElse ∧ x = q.yield ++ y := by
  refine .post (.bind (.expect (by decide)) fun _ => .bind .identifier fun name =>
    .still_bind still_declare fun id => .still_bind still_withTable fun _ =>
      .bind reading_declarations fun _ => .act .read fun _ => .act acts_table fun _ =>
        .act (acts_reportIf rfl) fun _ => .bind (.expect (by decide)) fun _ =>
          .bind reading_methods fun _ => .act .get fun _ => .act .read fun _ =>
            .act (acts_reportIf rfl) fun _ => .bind_still (.expect (by decide)) fun _ =>
              .bind still_withTable fun _ => still_withTable) ?_
  rintro _ x y ⟨-, _, rfl, n, _, rfl, -, _, ⟨ds, rfl⟩, -, _, rfl, -, _, ⟨ms, hms, rfl⟩, -, rfl⟩
  exact ⟨⟨n, ds, ms⟩, hms, by simp [Program.yield]⟩

end MicroJava.Production
