import MicroJava.Proofs.Parsing

/-!
# What the productions of statements and declarations read

A statement that ends in an `if` without an `else` is not followed by an `else`, because that would
have been read with it (`ReadsStatement`). Where tokens are skipped, there was a slip.
-/

namespace MicroJava.Production

open Tree

variable {c : Setting} {p : Token.Kind → Prop}

/-! ### Skipping -/

/-- Tokens may be skipped behind a mistake that is in the log. -/
structure Skips (c : Setting) (s s' : Session) : Prop where
  named : s.Named → s'.Named
  quiet : s.Quiet → s'.Quiet
  watched : s.Named → s.Watched c.options.reportDistance → s.Logged →
    s'.Watched c.options.reportDistance ∧ s'.Logged
  slips : s.slips ≤ s'.slips

namespace Skips

variable {s s₁ s' : Session}

theorem trans (h : Skips c s s₁) (h' : Skips c s₁ s') : Skips c s s' where
  named := h'.named ∘ h.named
  quiet := h'.quiet ∘ h.quiet
  watched := fun hn hw hl =>
    have hs₁ := h.watched hn hw hl
    h'.watched (h.named hn) hs₁.1 hs₁.2
  slips := Nat.le_trans h.slips h'.slips

instance : Std.Refl (Skips c) := ⟨fun _ => ⟨id, id, fun _ hw hl => ⟨hw, hl⟩, Nat.le_refl _⟩⟩

instance : Trans (Skips c) (Skips c) (Skips c) := ⟨trans⟩

theorem logged_of_subset {s s' : Session} (h : s.journal.events ⊆ s'.journal.events)
    (hl : s.Logged) : s'.Logged := by
  obtain ⟨d, hd⟩ := hl
  exact ⟨d, h hd⟩

theorem advance : Skips c s s.advance where
  named := .advance
  quiet := .advance
  watched := fun hn hw hl =>
    ⟨hw.advance hn (.inl hl), logged_of_subset (List.subset_cons_self _ _) hl⟩
  slips := by simp

theorem resume : Skips c s s.resume where
  named := fun hn => ⟨hn.1, hn.2, hn.3⟩
  quiet := fun hq => by
    refine ⟨hq.ahead, fun t ht => ?_⟩
    rcases List.mem_cons.1 ht with heq | ht
    · contradiction
    · exact hq.taken t ht
  watched := fun _ hw hl => by
    have hl' : s.resume.Logged := logged_of_subset (List.subset_cons_self _ _) hl
    refine ⟨⟨fun hleast d kept hd => ?_, .inl hl'⟩, hl'⟩
    rcases List.mem_cons.1 hd with heq | hd
    · contradiction
    · exact hw.all hleast d kept hd
  slips := by simp

end Skips

theorem skips_advance : Keeps c (Skips c) advance := by
  intro s u s' h
  rw [runs_advance.1 h]
  exact .advance

theorem skips_resume : Keeps c (Skips c) resume := by
  intro s u s' h
  rw [runs_resume.1 h]
  exact .resume

theorem skips_skipUntil {found : Production Bool} (h : Keeps c (Skips c) found) :
    Keeps c (Skips c) (skipUntil found) :=
  .repeatWhile <| .bind skips_advance fun _ => .bind h fun _ => .pure _

/-- After the report, tokens may be skipped. -/
theorem reading_skip {pr : Problem} (hp : pr.isSyntactic) {m : Production Unit}
    (hm : Keeps c (Skips c) m) {R : Unit → List Terminal → List Terminal → Prop} :
    Reading c p (do report pr; m) R := by
  intro s u s' _ hrun
  simp only [runs_bind, runs_report] at hrun
  obtain ⟨_, _, rfl, hrun⟩ := hrun
  have hslips : (s.report c.options.reportDistance pr []).slips = s.slips + 1 := by simp [hp]
  have hskip := hm hrun
  have hle := hskip.slips
  refine ⟨fun hn => hskip.named ⟨hn.1, hn.2, hn.3⟩, fun hq => hskip.quiet (hq.report _ _),
    fun hn hw => ?_, by omega, fun _ hs => by omega⟩
  obtain ⟨hw', hl⟩ := Session.Watched.report hw pr []
  exact (hskip.watched ⟨hn.1, hn.2, hn.3⟩ hw' hl).1

theorem reading_recoverDeclaration {R : Unit → List Terminal → List Terminal → Prop} :
    Reading c p recoverDeclaration R := by
  have hname : Keeps c (Skips c) atTypeName := by
    refine .look fun s b s' hrun => ?_
    simp only [atTypeName, runs_bind, runs_get, runs_ite, runs_table] at hrun
    obtain ⟨_, s, ⟨rfl, rfl⟩, hrun⟩ := hrun
    split at hrun
    · exact (runs_pure.1 hrun).2
    · obtain ⟨_, s, ⟨rfl, rfl⟩, hrun⟩ := hrun
      split at hrun
      · exact (runs_pure.1 hrun).2
      · simp only [runs_bind, runs_entry, runs_pure] at hrun
        obtain ⟨e, s, ⟨-, rfl⟩, -, rfl⟩ := hrun
        rfl
  refine reading_skip rfl (.bind (skips_skipUntil ?_) fun _ => skips_resume)
  refine .bind .checkAny fun _ => .ite (fun _ => .pure _) fun _ => .bind .get fun _ => ?_
  exact .ite (fun _ => .pure _) fun _ => hname

theorem reading_recoverMethod {R : Unit → List Terminal → List Terminal → Prop} :
    Reading c p recoverMethod R :=
  reading_skip rfl (.bind (skips_skipUntil .checkAny) fun _ => skips_resume)

theorem reading_recoverStatement {R : Unit → List Terminal → List Terminal → Prop} :
    Reading c p recoverStatement R := by
  refine reading_skip rfl (.bind (skips_skipUntil .checkAny) fun _ => .bind ?_ fun _ =>
    skips_resume)
  exact .bind .check fun _ => .ite (fun _ => skips_advance) fun _ => .pure _

/-! ### Statements -/

theorem exists_assigning {k : Token.Kind} {operator : Option Opcode}
    (h : assignmentOf? k = some operator) : ∃ o : Assigning, k = o.kind := by
  unfold assignmentOf? at h
  split at h <;> first | contradiction | skip
  · exact ⟨.plain, rfl⟩
  · exact ⟨.add .plus, rfl⟩
  · exact ⟨.add .minus, rfl⟩
  · exact ⟨.multiply .times, rfl⟩
  · exact ⟨.multiply .slash, rfl⟩
  · exact ⟨.multiply .percent, rfl⟩

theorem isWord_assigning : ∀ o : Assigning, o.kind.IsWord
  | .plain | .add .plus | .add .minus | .multiply .times | .multiply .slash
  | .multiply .percent => by decide

/-- What a statement reads. -/
def ReadsStatement (x y : List Terminal) : Prop :=
  ∃ b : Statement, x = b.yield ++ y ∧ b.NearestElse ∧
    (b.EndsOpen → ∀ t ∈ y.head?, t.kind ≠ .elseWord)

theorem ReadsStatement.closed {b : Statement} {y : List Terminal} (hb : b.NearestElse)
    (h : ¬b.EndsOpen) : ReadsStatement (b.yield ++ y) y :=
  ⟨b, rfl, hb, fun hopen => absurd hopen h⟩

/-- The production that reads a simple statement. -/
def simple? : Statement → Option (Production Unit)
  | .assign .. | .call .. | .increment _ | .decrement _ => some designatorStatement
  | .read _ => some readStatement
  | .print _ | .printWide .. => some printStatement
  | _ => none

theorem isSimple_of_simple? {b : Statement} {m : Production Unit} (h : simple? b = some m) :
    b.IsSimple := by
  cases b <;> trivial

/-- What the production of a simple statement reads. -/
def ReadsSimple (m : Production Unit) (x y : List Terminal) : Prop :=
  ∃ b : Statement, simple? b = some m ∧ x = b.yield ++ y

theorem ReadsSimple.statement {m : Production Unit} {x y : List Terminal} (h : ReadsSimple m x y) :
    ReadsStatement x y := by
  obtain ⟨b, hb, rfl⟩ := h
  cases b <;> first | exact .closed trivial id | simp [simple?] at hb

theorem reading_assignment {x : Operand} {operator : Option Opcode} :
    Reading c p (assignment x operator) fun _ => Spells Expression.yield := by
  refine .act acts_loadOldValue fun _ => .post (.acts (reading_expression _) fun y =>
    .bind (acts_reportIf rfl) fun _ => acts_assignValue) ?_
  rintro _ x y ⟨-, h⟩
  exact h

theorem reading_callAlone {x : Operand} :
    Reading c p (callAlone x) fun _ => Spells Arguments.yield := by
  refine .post (.acts (reading_call reading_expression) fun y => acts_popResult) ?_
  rintro _ x y ⟨-, h⟩
  exact h

/-- What stands between the designator of a statement and the semicolon. -/
def ReadsAction (x y : List Terminal) : Prop :=
  (∃ (o : Assigning) (e : Expression), x = .word o.kind :: (e.yield ++ y)) ∨
    (∃ as : Arguments, x = as.yield ++ y) ∨ x = .word .increment :: y ∨ x = .word .decrement :: y

theorem reading_designatorAction {x : Operand} :
    Reading c p (designatorAction x) fun _ => ReadsAction := by
  refine .peek fun k _ => ?_
  split
  · next operator h =>
    obtain ⟨o, rfl⟩ := exists_assigning h
    refine .post (.bind (.advance (isWord_assigning o)) fun _ => reading_assignment) ?_
    rintro _ x y ⟨-, _, rfl, e, rfl⟩
    exact .inl ⟨o, e, rfl⟩
  · split
    · exact .post reading_callAlone fun _ x y h => .inr (.inl h)
    · refine .post (.acts (.advance (by decide)) fun _ => acts_increment) ?_
      rintro _ x y ⟨-, rfl⟩
      exact .inr (.inr (.inl rfl))
    · refine .post (.acts (.advance (by decide)) fun _ => acts_increment) ?_
      rintro _ x y ⟨-, rfl⟩
      exact .inr (.inr (.inr rfl))
    · exact .slip rfl []

theorem reading_designatorStatement :
    Reading c p designatorStatement fun _ => ReadsSimple designatorStatement := by
  refine .post (.bind (reading_designator reading_expression) fun f =>
    .bind reading_designatorAction fun _ => .expect (by decide)) ?_
  rintro _ x y ⟨-, _, ⟨d, rfl⟩, -, _, haction, rfl⟩
  rcases haction with ⟨o, e, rfl⟩ | ⟨as, rfl⟩ | rfl | rfl
  · exact ⟨.assign d o e, rfl, by simp [Statement.yield]⟩
  · exact ⟨.call d as, rfl, by simp [Statement.yield]⟩
  · exact ⟨.increment d, rfl, by simp [Statement.yield]⟩
  · exact ⟨.decrement d, rfl, by simp [Statement.yield]⟩

theorem reading_guardCondition :
    Reading c p guardCondition fun _ x y =>
      ∃ b : Condition, x = .word .leftParen :: (b.yield ++ .word .rightParen :: y) := by
  refine .post (.bind (.expect (by decide)) fun _ => .bind reading_condition fun b =>
    .acts (.expect (by decide)) fun _ => .bind acts_write fun _ => .bind acts_write fun _ =>
      .pure _) ?_
  rintro _ x y ⟨-, _, rfl, -, _, ⟨b, rfl⟩, -, rfl⟩
  exact ⟨b, rfl⟩

section Nested

variable {S : Option Label → Production Unit}
  (hS : ∀ exit p, Reading c p (S exit) fun _ => ReadsStatement)

include hS

theorem reading_ifStatement {exit : Option Label} :
    Reading c (· = .ifWord) (ifStatement S exit) fun _ => ReadsStatement := by
  -- what stands behind the statement that the condition guards
  let R : Unit → List Terminal → List Terminal → Prop := fun _ x y =>
    (x = y ∧ ∀ t ∈ y.head?, t.kind ≠ .elseWord) ∨
      ∃ z, x = .word .elseWord :: z ∧ ReadsStatement z y
  have hrest : ∀ b : Branch, Reading c (fun _ => True) (otherwise S exit b) R := by
    intro b
    refine .check ?_ ?_
    · refine .post (.bind (.advance (by decide)) fun _ => .act acts_write fun l =>
        .act acts_write fun _ => .act acts_write fun _ => .acts (hS exit _) fun _ => acts_write) ?_
      rintro _ x y ⟨-, z, rfl, -, hz⟩
      exact .inr ⟨z, rfl, hz⟩
    · refine .post (Reading.kind (.of_acts acts_write)) ?_
      rintro _ x y ⟨rfl, hx⟩
      exact .inl ⟨rfl, fun t ht => (hx t ht).2⟩
  refine .post (.bind (.advance (by decide)) fun _ => .bind reading_guardCondition fun b =>
    .bind (hS exit _) fun _ => hrest b) ?_
  rintro _ x y ⟨-, _, rfl, -, _, ⟨b, rfl⟩, -, _, ⟨b₁, rfl, hb₁, hopen₁⟩, hz⟩
  rcases hz with ⟨rfl, hy⟩ | ⟨_, rfl, b₂, rfl, hb₂, hopen₂⟩
  · exact ⟨.ifThen b b₁, by simp [Statement.yield], hb₁, fun _ => hy⟩
  · have hclosed : ¬b₁.EndsOpen := fun h => hopen₁ h _ rfl rfl
    exact ⟨.ifElse b b₁ b₂, by simp [Statement.yield], ⟨hclosed, hb₁, hb₂⟩, hopen₂⟩

theorem reading_whileStatement :
    Reading c (· = .whileWord) (whileStatement S) fun _ => ReadsStatement := by
  refine .post (.bind (.advance (by decide)) fun _ => .act acts_write fun top =>
    .act acts_write fun _ => .bind reading_guardCondition fun b => .act acts_write fun exit =>
      .acts (hS (some exit) _) fun _ => .bind acts_write fun _ => .bind acts_write fun _ =>
        acts_write) ?_
  rintro _ x y ⟨-, _, rfl, -, _, ⟨b, rfl⟩, -, b₁, rfl, hb₁, hopen⟩
  exact ⟨.whileLoop b b₁, by simp [Statement.yield], hb₁, hopen⟩

/-- The statements of a block. -/
theorem reading_blockOf {exit : Option Label} :
    Reading c p (blockOf S exit) fun _ x y =>
      ∃ xs : Statements, xs.NearestElse ∧ x = (Statement.block xs).yield ++ y := by
  let L : List Terminal → List Terminal → Prop := fun x y =>
    ∃ xs : Statements, xs.NearestElse ∧ x = xs.yield ++ y
  refine .post (.bind (.expect (by decide)) fun _ => .bind (.repeatWhile (L := L) ?_) fun _ =>
    .expect (by decide)) ?_
  · refine .peek fun k _ => ?_
    split
    · exact .pure fun x => ⟨.nil, trivial, rfl⟩
    · exact .pure fun x => ⟨.nil, trivial, rfl⟩
    · refine .post (.bind (hS exit _) fun _ => .returns) ?_
      rintro _ x y ⟨-, _, ⟨b, rfl, hb, -⟩, rfl, rfl⟩ z ⟨xs, hxs, rfl⟩
      exact ⟨.cons b xs, ⟨hb, hxs⟩, by simp [Statements.yield]⟩
  · rintro _ x y ⟨-, _, rfl, -, _, ⟨xs, hxs, rfl⟩, rfl⟩
    exact ⟨xs, hxs, by simp [Statement.yield]⟩

end Nested

theorem reading_returnValue {t : TypeId} :
    Reading c p (returnValue t) fun _ x y => x = y ∨ Spells Expression.yield x y := by
  refine .checkAny ?_ ?_
  · refine .post (.acts (reading_expression _) fun x => acts_returnOperand) ?_
    rintro _ x y ⟨-, h⟩
    exact .inr h
  · exact .post (.of_acts (acts_reportIf rfl)) fun _ x y h => .inl h

theorem reading_returnStatement :
    Reading c (· = .returnWord) returnStatement fun _ => ReadsStatement := by
  refine .post (.bind (.advance (by decide)) fun _ => .act .get fun s =>
    .bind reading_returnValue fun _ => .act acts_emit fun _ => .act acts_emit fun _ =>
      .expect (by decide)) ?_
  rintro _ x y ⟨-, _, rfl, -, _, rfl | ⟨e, rfl⟩, rfl⟩
  · simpa [Statement.yield] using ReadsStatement.closed (b := .returnNone) (y := y) trivial id
  · simpa [Statement.yield] using ReadsStatement.closed (b := .returnValue e) (y := y) trivial id

theorem reading_breakStatement {exit : Option Label} :
    Reading c (· = .breakWord) (breakStatement exit) fun _ => ReadsStatement := by
  refine .post (.bind (.advance (by decide)) fun _ => .act (acts_leave exit) fun _ =>
    .expect (by decide)) ?_
  rintro _ x y ⟨-, _, rfl, rfl⟩
  simpa [Statement.yield] using ReadsStatement.closed (b := .breakLoop) (y := y) trivial id

theorem reading_readStatement :
    Reading c (· = .readWord) readStatement fun _ => ReadsSimple readStatement := by
  refine .post (.bind (.advance (by decide)) fun _ => .bind (.expect (by decide)) fun _ =>
    .bind (reading_designator reading_expression) fun x => .act acts_readInto fun _ =>
      .bind (.expect (by decide)) fun _ => .expect (by decide)) ?_
  rintro _ x y ⟨-, _, rfl, -, _, rfl, -, _, ⟨d, rfl⟩, -, _, rfl, rfl⟩
  exact ⟨.read d, rfl, by simp [Statement.yield]⟩

theorem reading_printWidth :
    Reading c p printWidth fun _ x y => x = y ∨ ∃ v, x = .word .comma :: .number v :: y := by
  refine .act .read fun _ => .check ?_ (.pure fun _ => .inl rfl)
  refine .post (.bind (S := fun _ _ x y => ∃ v, x = .number v :: y) (.advance (by decide)) fun _ =>
    .check (.post .number fun v x y h => ⟨v, h⟩) ?_) ?_
  · refine .post (.acts (.expect_of_ne (fun k hk => hk.2)
      (S := fun _ x y => ∃ v, x = .number v :: y)) fun _ => .pure _) ?_
    rintro _ x y ⟨-, h⟩
    exact h
  · rintro _ x y ⟨-, _, rfl, v, rfl⟩
    exact .inr ⟨v, rfl⟩

theorem reading_printStatement :
    Reading c (· = .printWord) printStatement fun _ => ReadsSimple printStatement := by
  refine .post (.bind (.advance (by decide)) fun _ => .bind (.expect (by decide)) fun _ =>
    .bind (reading_expression _) fun x => .act (acts_reportIf rfl) fun _ => .act acts_load fun _ =>
      .bind reading_printWidth fun v => .act acts_write fun _ => .act acts_emitPrint fun _ =>
        .bind (.expect (by decide)) fun _ => .expect (by decide)) ?_
  rintro _ x y ⟨-, _, rfl, -, _, rfl, -, _, ⟨e, rfl⟩, -, _, hwidth, -, _, rfl, rfl⟩
  rcases hwidth with rfl | ⟨v, rfl⟩
  · exact ⟨.print e, rfl, by simp [Statement.yield]⟩
  · exact ⟨.printWide e v, rfl, by simp [Statement.yield]⟩

theorem reading_statementOf {S : Option Label → Production Unit}
    (hS : ∀ exit p, Reading c p (S exit) fun _ => ReadsStatement) {exit : Option Label} :
    Reading c p (statementOf S exit) fun _ => ReadsStatement := by
  refine .peek fun k _ => ?_
  split
  · exact .post reading_designatorStatement fun _ _ _ h => h.statement
  · exact reading_ifStatement hS
  · exact reading_whileStatement hS
  · exact reading_breakStatement
  · exact reading_returnStatement
  · exact .post reading_readStatement fun _ _ _ h => h.statement
  · exact .post reading_printStatement fun _ _ _ h => h.statement
  · refine .post (reading_blockOf hS) ?_
    rintro _ x y ⟨xs, hxs, rfl⟩
    exact .closed hxs id
  · refine .post (.advance (by decide)) ?_
    rintro _ x y rfl
    exact .closed (b := .empty) trivial id
  · exact reading_recoverStatement

theorem reading_nestedStatement (depth : Nat) (exit : Option Label) (p : Token.Kind → Prop) :
    Reading c p (nestedStatement depth exit) fun _ => ReadsStatement := by
  induction depth generalizing exit p with
  | zero => exact .throw
  | succ depth ih => exact reading_statementOf ih

theorem reading_block :
    Reading c p block fun _ x y =>
      ∃ xs : Statements, xs.NearestElse ∧ x = (Statement.block xs).yield ++ y :=
  .act .read fun _ => reading_blockOf (reading_nestedStatement _)

end MicroJava.Production
