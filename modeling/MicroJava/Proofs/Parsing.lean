import MicroJava.Proofs.Acting

/-!
# What the productions read

Each production reads a tree of the form that it is named for, unless it slips (`reading_term` and so
on, up to `reading_program`). The loops of sums, products and designators extend the tree that was read
before them, and those of lists read the members in order.
-/

namespace MicroJava.Production

open Tree

variable {c : Setting} {p : Token.Kind → Prop}

section Expressions

variable {E : Production Operand}

theorem reading_namedOperand :
    Reading c p namedOperand fun _ x y => ∃ n, x = .name n :: y :=
  .acts .identifier fun _ => .bind acts_find fun _ => .bind acts_entry fun _ => acts_ofEntry

theorem reading_fieldOf {x : Operand} :
    Reading c p (fieldOf x) fun _ x y => ∃ n, x = .name n :: y := by
  refine .act acts_descriptor fun d => .ite (fun _ => .act acts_load fun _ => ?_) fun _ => ?_
  · refine .acts .identifier fun name => .bind acts_findField fun id => ?_
    exact .ite (fun _ => .pure _) fun _ => .bind acts_entry fun _ => .pure _
  · refine .act (acts_report rfl) fun _ => .post (.acts (.discard .identifier) fun _ => .pure _) ?_
    rintro _ x y ⟨-, h⟩
    exact h

variable (hE : ∀ p, Reading c p E fun _ => Spells Expression.yield)

include hE

theorem reading_loadInteger {mistake : Problem} (hm : mistake.isSyntactic = false) :
    Reading c p (loadInteger E mistake) fun _ => Spells Expression.yield := by
  refine .post (.acts (hE _) fun x => .bind (acts_reportIf hm) fun _ => acts_load) ?_
  rintro _ x y ⟨-, h⟩
  exact h

theorem reading_elementOf {x : Operand} :
    Reading c p (elementOf E x) fun _ x y =>
      ∃ e : Expression, x = e.yield ++ .word .rightBracket :: y := by
  refine .act acts_descriptor fun d => .act acts_loadArray fun _ => ?_
  refine .post (.bind (reading_loadInteger hE rfl) fun _ =>
    .acts (.expect (by decide)) fun _ => .pure _) ?_
  rintro _ x y ⟨-, z, ⟨e, rfl⟩, -, rfl⟩
  exact ⟨e, rfl⟩

/-- A designator may be extended by what is read. -/
def ExtendsDesignator (x y : List Terminal) : Prop :=
  ∀ d : Designator, ∃ d' : Designator, d.yield ++ x = d'.yield ++ y

theorem reading_designatorStep {x : Operand} :
    Reading c p (designatorStep E x) (Turn ExtendsDesignator) := by
  refine .peek fun k _ => ?_
  split
  · refine .post (.bind (.advance (by decide)) fun _ => .bind reading_fieldOf fun _ => .returns) ?_
    rintro _ x y ⟨-, _, rfl, _, _, ⟨n, rfl⟩, rfl, rfl⟩ z hz d
    obtain ⟨d', hd'⟩ := hz (.field d n)
    exact ⟨d', by simpa [Designator.yield] using hd'⟩
  · refine .post (.bind (.advance (by decide)) fun _ => .bind (reading_elementOf hE) fun _ =>
      .returns) ?_
    rintro _ x y ⟨-, _, rfl, _, _, ⟨e, rfl⟩, rfl, rfl⟩ z hz d
    obtain ⟨d', hd'⟩ := hz (.element d e)
    exact ⟨d', by simpa [Designator.yield] using hd'⟩
  · exact .pure fun x d => ⟨d, rfl⟩

theorem reading_designator : Reading c p (designator E) fun _ => Spells Designator.yield := by
  refine .post (.bind reading_namedOperand fun _ =>
    .loop (L := ExtendsDesignator) (fun _ => reading_designatorStep hE) _) ?_
  rintro _ x y ⟨-, _, ⟨n, rfl⟩, h⟩
  exact h (.name n)

/-! ### Calls -/

omit hE in
theorem reading_afterMember {n : Nat} :
    Reading c p (afterMember n) fun r x y =>
      match r with
      | .inl _ => x = .word .comma :: y
      | .inr _ => x = y := by
  refine .check ?_ (.pure fun _ => rfl)
  refine .post (.bind (.advance (by decide)) fun _ => .returns) ?_
  rintro _ x y ⟨-, _, rfl, rfl, rfl⟩
  rfl

/-- A list of at least one expression. -/
def SpellsMembers (x y : List Terminal) : Prop :=
  ∃ (e : Expression) (es : Expressions), x = e.yield ++ (es.more ++ y)

omit hE in
/-- A member of a list, with the comma behind it if there is one. -/
theorem reading_member {m : Production Unit} {n : Nat}
    (hm : Reading c (fun _ => True) m fun _ => Spells Expression.yield) :
    Reading c (fun _ => True) (do m; afterMember n) (Turn SpellsMembers) := by
  refine .post (.bind hm fun _ => reading_afterMember) ?_
  rintro (_ | _) x y ⟨-, _, ⟨e, rfl⟩, rfl⟩
  · rintro z ⟨e', es, rfl⟩
    exact ⟨e, .cons e' es, by simp [Expressions.more]⟩
  · exact ⟨e, .nil, rfl⟩

theorem reading_argument {s : Signature} {n : Nat} :
    Reading c (fun _ => True) (argument E s n) (Turn SpellsMembers) := by
  have hm : Reading c (fun _ => True)
      (do let x ← E; checkArgument x (s.parameter? n); load x) fun _ => Spells Expression.yield := by
    refine .post (.acts (hE _) fun x => .bind (acts_checkArgument _) fun _ => acts_load) ?_
    rintro _ x y ⟨-, h⟩
    exact h
  simpa [argument] using reading_member (n := n + 1) hm

theorem reading_packArgument {n : Nat} : ∀ t : Option TypeId,
    Reading c p (packArgument E n t) fun _ => Spells Expression.yield
  | none => by
    refine .post (.discard (hE _)) ?_
    rintro _ x y ⟨-, h⟩
    exact h
  | some t => by
    refine .act acts_emit fun _ => .act acts_write fun _ => .post (.acts (hE _) fun x => ?_) ?_
    · exact .bind (acts_checkArgument _) fun _ => .bind acts_load fun _ => acts_write
    · rintro _ x y ⟨-, h⟩
      exact h

omit hE in
theorem reading_members {member : Nat → Production (Nat ⊕ Nat)}
    (hm : ∀ n, Reading c (fun _ => True) (member n) (Turn SpellsMembers)) :
    Reading c p (members member) fun _ => Spells Expressions.yield := by
  refine .checkAny ?_ (.pure fun x => ⟨.nil, rfl⟩)
  refine .post (.loop (L := SpellsMembers) hm 0) ?_
  rintro _ x y ⟨e, es, rfl⟩
  exact ⟨.cons e es, by simp [Expressions.yield]⟩

omit hE in
theorem reading_announcement :
    Reading c p announcement fun _ x y => ∃ v, x = .number v :: y := by
  refine .check ?_ ?_
  · exact .acts .number fun _ => .pure _
  · refine .post (.bind (.expect_of_ne (fun k hk => hk.2)
      (S := fun _ x y => ∃ v, x = .number v :: y)) fun _ => .returns) ?_
    rintro _ x y ⟨-, _, ⟨v, rfl⟩, -, rfl⟩
    exact ⟨v, rfl⟩

theorem reading_extraArguments {t : Option TypeId} :
    Reading c (· = .hash) (extraArguments E t) fun _ x y =>
      ∃ v, ∃ es : Expressions, x = .word .hash :: .number v :: (es.yield ++ y) := by
  refine .post (.bind (.advance (by decide)) fun _ => .bind reading_announcement fun _ =>
    .act (acts_newArrayOf _) fun _ => .acts (reading_members fun n => ?_) fun _ =>
      acts_checkCount rfl rfl) ?_
  · exact reading_member (reading_packArgument hE _)
  · rintro _ x y ⟨-, _, rfl, -, _, ⟨v, rfl⟩, -, es, rfl⟩
    exact ⟨v, es, rfl⟩

theorem reading_variablePart {isMethod : Bool} {t : Option TypeId} :
    Reading c p (variablePart E isMethod t) fun _ x y =>
      x = y ∨ ∃ v, ∃ es : Expressions, x = .word .hash :: .number v :: (es.yield ++ y) := by
  refine .check ?_ ?_
  · refine .act (acts_reportIf rfl) fun _ => .post (reading_extraArguments hE) ?_
    rintro _ x y h
    exact .inr h
  · exact .post (.of_acts (acts_newArrayOf _)) fun _ x y h => .inl h

theorem reading_call {f : Operand} : Reading c p (call E f) fun _ => Spells Arguments.yield := by
  refine .act acts_callee fun target => .act (acts_reportIf rfl) fun _ => ?_
  refine .post (.bind (.expect (by decide)) fun _ => .act (acts_targetSignature _) fun s => .bind
    (reading_members fun n => reading_argument hE) fun count => .act (acts_checkCount rfl rfl)
      fun _ => .bind (reading_variablePart hE) fun _ => .acts (.expect (by decide)) fun _ =>
        acts_result _) ?_
  rintro _ x y ⟨-, _, rfl, -, _, ⟨es, rfl⟩, -, _, rfl | ⟨v, fs, rfl⟩, -, rfl⟩
  · exact ⟨.plain es, by simp [Arguments.yield]⟩
  · exact ⟨.extended es v fs, by simp [Arguments.yield]⟩

/-! ### Factors -/

omit hE in
theorem reading_namedType : Reading c p namedType fun _ x y => ∃ n, x = .name n :: y := by
  refine .acts .identifier fun _ => .bind acts_find fun _ => .bind acts_entry fun e => ?_
  exact .ite (fun _ => .pure _) fun _ => .bind (acts_reportIf rfl) fun _ => .pure _

theorem reading_creation :
    Reading c p (creation E) fun _ x y =>
      ∃ n, x = .name n :: y ∨
        ∃ e : Expression, x = .name n :: .word .leftBracket :: (e.yield ++ .word .rightBracket :: y) := by
  refine .post (.bind (S := fun _ _ x y => x = y ∨ ∃ e : Expression,
    x = .word .leftBracket :: (e.yield ++ .word .rightBracket :: y)) reading_namedType fun t =>
      .check ?_ ?_) ?_
  · refine .post (.bind (.advance (by decide)) fun _ => .bind (reading_loadInteger hE rfl) fun _ =>
      .acts (.expect (by decide)) fun _ => .bind acts_write fun _ => .bind acts_arrayOf fun _ =>
        .pure _) ?_
    rintro _ x y ⟨-, _, rfl, -, _, ⟨e, rfl⟩, -, rfl⟩
    exact .inr ⟨e, rfl⟩
  · exact .post (.of_acts acts_objectCreation) fun _ x y h => .inl h
  · rintro _ x y ⟨t, _, ⟨n, rfl⟩, rfl | ⟨e, rfl⟩⟩
    · exact ⟨n, .inl rfl⟩
    · exact ⟨n, .inr ⟨e, rfl⟩⟩

theorem reading_designatorFactor :
    Reading c p (designatorFactor E) fun _ => Spells Factor.yield := by
  refine .post (.bind (S := fun _ _ x y => x = y ∨ ∃ as : Arguments, x = as.yield ++ y)
    (reading_designator hE) fun f => .check ?_ (.pure fun _ => .inl rfl)) ?_
  · refine .act (acts_reportIf rfl) fun _ => .post (reading_call hE) ?_
    rintro _ x y ⟨as, rfl⟩
    exact .inr ⟨as, rfl⟩
  · rintro _ x y ⟨-, _, ⟨d, rfl⟩, rfl | ⟨as, rfl⟩⟩
    · exact ⟨.designator d, rfl⟩
    · exact ⟨.call d as, by simp [Factor.yield]⟩

theorem reading_factor : Reading c p (factor E) fun _ => Spells Factor.yield := by
  refine .peek fun k _ => ?_
  split
  · exact reading_designatorFactor hE
  · refine .post (.acts .number fun _ => .pure _) ?_
    rintro _ x y ⟨v, rfl⟩
    exact ⟨.number v, rfl⟩
  · refine .post (.acts .character fun _ => .pure _) ?_
    rintro _ x y ⟨v, rfl⟩
    exact ⟨.character v, rfl⟩
  · refine .post (.bind (.advance (by decide)) fun _ => reading_creation hE) ?_
    rintro _ x y ⟨-, _, rfl, n, rfl | ⟨e, rfl⟩⟩
    · exact ⟨.object n, rfl⟩
    · exact ⟨.array n e, by simp [Factor.yield]⟩
  · refine .post (.bind (.advance (by decide)) fun _ => .bind (hE _) fun x =>
      .acts (.expect (by decide)) fun _ => .pure _) ?_
    rintro _ x y ⟨-, _, rfl, -, _, ⟨e, rfl⟩, -, rfl⟩
    exact ⟨.parentheses e, by simp [Factor.yield]⟩
  · refine .post (.acts (.slip rfl [] (S := fun _ => Spells Factor.yield)) fun _ => .pure _) ?_
    rintro _ x y ⟨-, h⟩
    exact h

/-! ### Chains of operators -/

omit hE in
theorem exists_multiplying {k : Token.Kind} {op : Opcode} (h : multiplying? k = some op) :
    ∃ o : Multiplying, k = o.kind := by
  unfold multiplying? at h
  split at h <;> first | contradiction | skip
  · exact ⟨.times, rfl⟩
  · exact ⟨.slash, rfl⟩
  · exact ⟨.percent, rfl⟩

omit hE in
theorem exists_adding {k : Token.Kind} {op : Opcode} (h : adding? k = some op) :
    ∃ o : Adding, k = o.kind := by
  unfold adding? at h
  split at h <;> first | contradiction | skip
  · exact ⟨.plus, rfl⟩
  · exact ⟨.minus, rfl⟩

omit hE in
theorem isWord_multiplying : ∀ o : Multiplying, o.kind.IsWord
  | .times | .slash | .percent => by decide

omit hE in
theorem isWord_adding : ∀ o : Adding, o.kind.IsWord
  | .plus | .minus => by decide

omit hE in
/-- One more operator and operand extend the chain in front of them. -/
theorem reading_operation {ω τ : Type} {kind : ω → Token.Kind} {yield : τ → List Terminal}
    {operator? : Token.Kind → Option Opcode} {operand : Production Operand} {x : Operand}
    {L : List Terminal → List Terminal → Prop}
    (hop : ∀ k op, operator? k = some op → ∃ o, k = kind o) (hword : ∀ o, (kind o).IsWord)
    (hoperand : ∀ p, Reading c p operand fun _ => Spells yield) (hrefl : ∀ x, L x x)
    (hstep : ∀ o t y z, L y z → L (.word (kind o) :: (yield t ++ y)) z) :
    Reading c p (operation operator? operand x) (Turn L) := by
  refine .peek fun k _ => ?_
  split
  · exact .pure hrefl
  · next op h =>
    obtain ⟨o, rfl⟩ := hop k op h
    refine .post (.bind (.advance (hword o)) fun _ => .act acts_load fun _ => .bind (hoperand _)
      fun y => .act acts_load fun _ => .act (acts_reportIf rfl) fun _ => .act acts_emit fun _ =>
        .returns) ?_
    rintro _ x y ⟨-, _, rfl, _, _, ⟨t, rfl⟩, rfl, rfl⟩ z hz
    exact hstep o t _ z hz

theorem reading_term : Reading c p (term E) fun _ => Spells Term.yield := by
  let L : List Terminal → List Terminal → Prop := fun x y => ∀ t : Term, ∃ t' : Term,
    t.yield ++ x = t'.yield ++ y
  refine .post (.bind (reading_factor hE) fun f => .loop (L := L) (fun x => ?_) _) ?_
  · refine reading_operation (fun _ _ => exists_multiplying) isWord_multiplying
      (fun p => reading_factor hE) (fun x t => ⟨t, rfl⟩) fun o f y z hz t => ?_
    obtain ⟨t', ht'⟩ := hz (.product t o f)
    exact ⟨t', by simpa [Term.yield] using ht'⟩
  · rintro _ x y ⟨-, _, ⟨f, rfl⟩, h⟩
    exact h (.factor f)

theorem reading_firstTerm : Reading c p (firstTerm E) fun _ => Spells Expression.yield := by
  refine .check ?_ ?_
  · refine .post (.bind (.advance (by decide)) fun _ => .acts (reading_term hE) fun _ =>
      acts_negate) ?_
    rintro _ x y ⟨-, _, rfl, -, t, rfl⟩
    exact ⟨.negated t, rfl⟩
  · refine .post (reading_term hE) ?_
    rintro _ x y ⟨t, rfl⟩
    exact ⟨.term t, rfl⟩

theorem reading_sum : Reading c p (sum E) fun _ => Spells Expression.yield := by
  let L : List Terminal → List Terminal → Prop := fun x y => ∀ e : Expression, ∃ e' : Expression,
    e.yield ++ x = e'.yield ++ y
  refine .post (.bind (reading_firstTerm hE) fun f => .loop (L := L) (fun x => ?_) _) ?_
  · refine reading_operation (fun _ _ => exists_adding) isWord_adding (fun p => reading_term hE)
      (fun x e => ⟨e, rfl⟩) fun o t y z hz e => ?_
    obtain ⟨e', he'⟩ := hz (.sum e o t)
    exact ⟨e', by simpa [Expression.yield] using he'⟩
  · rintro _ x y ⟨-, _, ⟨e, rfl⟩, h⟩
    exact h e

end Expressions

theorem reading_nestedExpression (depth : Nat) (p : Token.Kind → Prop) :
    Reading c p (nestedExpression depth) fun _ => Spells Expression.yield := by
  induction depth generalizing p with
  | zero => exact .throw
  | succ depth ih => exact reading_sum ih

theorem reading_expression (p : Token.Kind → Prop) :
    Reading c p expression fun _ => Spells Expression.yield :=
  .act .read fun _ => reading_nestedExpression _ p

/-! ### Conditions -/

theorem exists_comparison {k : Token.Kind} {o : Comparison} (h : comparisonOf? k = some o) :
    k = o.kind := by
  unfold comparisonOf? at h
  split at h <;> first | contradiction | (obtain rfl := Option.some.inj h; rfl)

theorem isWord_comparison : ∀ o : Comparison, o.kind.IsWord
  | .eq | .ne | .lt | .le | .gt | .ge => by decide

theorem reading_comparison :
    Reading c p comparison fun o? x y => ∃ o : Comparison, o? = some o ∧ x = .word o.kind :: y := by
  refine .peek fun k _ => ?_
  split
  · next o h =>
    obtain rfl := exists_comparison h
    refine .post (.bind (.advance (isWord_comparison o)) fun _ => .returns) ?_
    rintro _ x y ⟨-, _, rfl, rfl, rfl⟩
    exact ⟨o, rfl, rfl⟩
  · refine .post (.bind (.slip rfl [] (S := fun _ _ _ => False)) fun _ => .returns) ?_
    rintro _ x y ⟨-, _, h, -⟩
    exact h.elim

/-- The test that is read is the one that the branch decides. -/
theorem reading_test {l l' : Label} :
    Reading c p (test l l') fun b x y => ∃ t : Test, b = ⟨t.comparison, l, l'⟩ ∧ x = t.yield ++ y := by
  refine .post (.bind (reading_expression _) fun _ => .act acts_load fun _ =>
    .bind reading_comparison fun _ => .bind (reading_expression _) fun _ =>
      .act acts_load fun _ => .act acts_checkComparison fun _ => .returns) ?_
  rintro _ x y ⟨-, _, ⟨e, rfl⟩, _, _, ⟨o, rfl, rfl⟩, -, _, ⟨f, rfl⟩, rfl, rfl⟩
  exact ⟨⟨e, o, f⟩, rfl, by simp [Test.yield]⟩

theorem reading_conjunction {l : Label} :
    Reading c p (conjunction l) fun _ => Spells Conjunction.yield := by
  let L : List Terminal → List Terminal → Prop := fun x y => ∀ k : Conjunction,
    ∃ k' : Conjunction, k.yield ++ x = k'.yield ++ y
  refine .act acts_write fun l' => .post (.bind reading_test fun _ =>
    .loop (L := L) (fun b => .check ?_ (.pure fun x k => ⟨k, rfl⟩)) _) ?_
  · refine .post (.bind (.advance (by decide)) fun _ => .act acts_write fun _ =>
      .bind reading_test fun _ => .returns) ?_
    rintro _ x y ⟨-, _, rfl, _, _, ⟨t, -, rfl⟩, rfl, rfl⟩ z hz k
    obtain ⟨k', hk'⟩ := hz (.and k t)
    exact ⟨k', by simpa [Conjunction.yield] using hk'⟩
  · rintro _ x y ⟨-, _, ⟨t, -, rfl⟩, h⟩
    exact h (.test t)

theorem reading_condition : Reading c p condition fun _ => Spells Condition.yield := by
  let L : List Terminal → List Terminal → Prop := fun x y => ∀ d : Condition,
    ∃ d' : Condition, d.yield ++ x = d'.yield ++ y
  refine .act acts_write fun l => .post (.bind reading_conjunction fun _ =>
    .loop (L := L) (fun b => .check ?_ (.pure fun x d => ⟨d, rfl⟩)) _) ?_
  · refine .post (.bind (.advance (by decide)) fun _ => .act acts_write fun _ =>
      .act acts_write fun _ => .bind reading_conjunction fun _ => .returns) ?_
    rintro _ x y ⟨-, _, rfl, _, _, ⟨k, rfl⟩, rfl, rfl⟩ z hz d
    obtain ⟨d', hd'⟩ := hz (.or d k)
    exact ⟨d', by simpa [Condition.yield] using hd'⟩
  · rintro _ x y ⟨-, _, ⟨k, rfl⟩, h⟩
    exact h (.conjunction k)

end MicroJava.Production
