import MicroJava.Proofs.Course
import MicroJava.Proofs.Safe

/-!
# Progress

Tokens are never put back, and where the next token is one that a production starts with, it is taken
(`Takes`). So each turn of a loop behind which another one follows takes a token (`IsTurn.progresses`).
-/

namespace MicroJava

theorem Session.Beside.left {s s' : Session} (h : s.Beside s') : s'.left = s.left := by
  rw [Session.left, Session.left, h.current, h.stream]

namespace Course

variable {c : Setting} {s s' : Session} {e : Bool}

theorem left (h : Course c s e s') (hs : s.Ended) : s'.left ≤ s.left := by
  have hadvance : ∀ {s₁ : Session}, s₁.Ended → s₁.advance.left ≤ s₁.left := fun h =>
    Nat.le_trans (Session.left_advance h.last) (Session.left_bounds _).1
  induction h with
  | refl => exact Nat.le_refl _
  | beside _ hb ih => exact hb.left ▸ ih
  | advance h _ ih => exact Nat.le_trans (hadvance (h.ended hs)) ih
  | report p details _ ih => exact ih
  | @skip s₁ p h ih =>
    have hs₁ : (s₁.report c.options.reportDistance p []).Ended :=
      ⟨(h.ended hs).last, (h.ended hs).once⟩
    exact Nat.le_trans (hadvance hs₁) ih
  | resume _ _ ih => exact ih

end Course

namespace Session.Ended

variable {s : Session}

theorem left_advance (h : s.Ended) (hk : s.current.kind ≠ .endOfFile) :
    s.advance.left < s.left := by
  rw [left_of_ne hk]
  exact Nat.lt_succ_of_le (Session.left_advance h.last)

end Session.Ended

namespace Production

variable {α β : Type} {c : Setting} {p : Token.Kind → Prop} {q : α → Prop} {r : β → Prop}
  {m : Production α}

/-- From a session whose next token is of a kind that `p` allows, the production puts no token back,
and takes one if it gives what `q` says. -/
def Takes (c : Setting) (p : Token.Kind → Prop) (m : Production α) (q : α → Prop) : Prop :=
  ∀ ⦃s a s'⦄, s.Ended → p s.current.kind → Runs c m s a s' →
    s'.Ended ∧ s'.left ≤ s.left ∧ (q a → s'.left < s.left)

theorem TracksEnd.takes (h : TracksEnd c p m) : Takes c p m fun _ => False := by
  intro s a s' hs hp hrun
  obtain ⟨e, hcourse⟩ := h hs hp
  rw [hrun] at hcourse
  exact ⟨hcourse.ended hs, hcourse.left hs, False.elim⟩

namespace Takes

theorem advance (hp : ∀ k, p k → k ≠ .endOfFile) {q : Unit → Prop} : Takes c p advance q := by
  intro s _ s' hs hk hrun
  obtain rfl := runs_advance.1 hrun
  have hlt := hs.left_advance (hp _ hk)
  exact ⟨hs.advance, Nat.le_of_lt hlt, fun _ => hlt⟩

theorem advance_of {k : Token.Kind} (hk : k ≠ .endOfFile) {q : Unit → Prop} :
    Takes c (· = k) Production.advance q :=
  advance fun _ h hend => hk (h.symm.trans hend)

theorem pure {a : α} (h : ¬q a) : Takes c p (pure a) q := by
  intro s b s' hs _ hrun
  obtain ⟨rfl, rfl⟩ := runs_pure.1 hrun
  exact ⟨hs, Nat.le_refl _, fun hq => absurd hq h⟩

theorem pre {p' : Token.Kind → Prop} (hm : Takes c p m q) (h : ∀ k, p' k → p k) :
    Takes c p' m q := fun _ _ _ hs hp hrun => hm hs (h _ hp) hrun

/-- Behind a token that is taken, none is put back. -/
theorem seq {f : α → Production β} (hm : Takes c p m fun _ => True)
    (hf : ∀ a, Takes c (fun _ => True) (f a) fun _ => False) : Takes c p (m >>= f) r := by
  intro s b s' hs hp hrun
  obtain ⟨a, s₁, hm', hf'⟩ := runs_bind.1 hrun
  obtain ⟨hs₁, -, hlt⟩ := hm hs hp hm'
  obtain ⟨hs', hle, -⟩ := hf a hs₁ trivial hf'
  have := Nat.lt_of_le_of_lt hle (hlt trivial)
  exact ⟨hs', Nat.le_of_lt this, fun _ => this⟩

theorem bind {f : α → Production β} (hm : Takes c p m fun _ => True)
    (hf : ∀ a, TracksEnd c (fun _ => True) (f a)) : Takes c p (m >>= f) r :=
  seq hm fun a => (hf a).takes

theorem before {f : α → Production β} (hm : TracksEnd c p m)
    (hf : ∀ a, Takes c (fun _ => True) (f a) r) : Takes c p (m >>= f) r := by
  intro s b s' hs hp hrun
  obtain ⟨a, s₁, hm', hf'⟩ := runs_bind.1 hrun
  obtain ⟨hs₁, hle₁, -⟩ := hm.takes hs hp hm'
  obtain ⟨hs', hle, hlt⟩ := hf a hs₁ trivial hf'
  exact ⟨hs', Nat.le_trans hle hle₁, fun hr => Nat.lt_of_lt_of_le (hlt hr) hle₁⟩

/-- A production whose result tells whether it took a token. -/
theorem andThen {f : α → Production β} (hm : Takes c p m q)
    (hf : ∀ a, TracksEnd c (fun _ => True) (f a))
    (h : ∀ a, ¬q a → Takes c (fun _ => True) (f a) r) : Takes c p (m >>= f) r := by
  intro s b s' hs hp hrun
  obtain ⟨a, s₁, hm', hf'⟩ := runs_bind.1 hrun
  obtain ⟨hs₁, hle₁, hlt₁⟩ := hm hs hp hm'
  by_cases hq : q a
  · obtain ⟨hs', hle, -⟩ := (hf a).takes hs₁ trivial hf'
    have := Nat.lt_of_le_of_lt hle (hlt₁ hq)
    exact ⟨hs', Nat.le_of_lt this, fun _ => this⟩
  · obtain ⟨hs', hle, hlt⟩ := h a hq hs₁ trivial hf'
    exact ⟨hs', Nat.le_trans hle hle₁, fun hr => Nat.lt_of_lt_of_le (hlt hr) hle₁⟩

theorem peek {f : Token.Kind → Production α} (h : ∀ k, p k → Takes c (· = k) (f k) q) :
    Takes c p (peek >>= f) q := by
  intro s a s' hs hp hrun
  obtain ⟨k, s₁, hpeek, hf⟩ := runs_bind.1 hrun
  obtain ⟨rfl, rfl⟩ := runs_peek.1 hpeek
  exact h _ hp hs rfl hf

theorem check {k : Token.Kind} {f : Bool → Production α} (h : Takes c (· = k) (f true) q)
    (h' : Takes c (fun k' => p k' ∧ k' ≠ k) (f false) q) : Takes c p (check k >>= f) q := by
  intro s a s' hs hp hrun
  obtain ⟨b, s₁, hcheck, hf⟩ := runs_bind.1 hrun
  obtain ⟨rfl, rfl⟩ := runs_check.1 hcheck
  by_cases hk : s₁.current.kind = k
  · rw [decide_eq_true hk] at hf
    exact h hs hk hf
  · rw [decide_eq_false hk] at hf
    exact h' hs ⟨hp, hk⟩ hf

end Takes

/-! ### Turns -/

/-- Where another turn follows, the body of the loop has taken a token. -/
def Progresses (c : Setting) (turn : α → Production (α ⊕ β)) : Prop :=
  ∀ a, Takes c (fun _ => True) (turn a) (·.isLeft)

/-- The turn of a loop that goes on as long as its body says so. -/
def turnOf (body : Production Bool) (_ : Unit) : Production (Unit ⊕ Unit) := do
  return if ← body then .inl () else .inr ()

theorem progresses_turnOf {body : Production Bool} (h : Takes c (fun _ => True) body (· = true)) :
    Progresses c (turnOf body) := by
  refine fun _ => Takes.andThen h (fun b => .of_tracks (.pure _)) fun b hb => .pure ?_
  simp [hb]

/-- A statement in a block, if another one follows. -/
def blockTurn (statement : Option Label → Production Unit) (exit : Option Label) :
    Production Bool := do
  match ← peek with
  | .rightBrace | .endOfFile => return false
  | _ =>
    statement exit
    return true

/-- A declaration of variables, if another one follows. -/
def variablesTurn : Production Bool := do
  if ← check .identifier then
    variableDeclaration
    return true
  else return false

/-- A declaration of a program, if another one follows. -/
def declarationTurn : Production Bool := do
  match ← peek with
  | .finalWord => do constantDeclaration; return true
  | .classWord => do classDeclaration; return true
  | .identifier => do variableDeclaration; return true
  | .leftBrace | .endOfFile => return false
  | _ => do recoverDeclaration; return true

/-- A method of a program, if another one follows. -/
def methodTurn : Production Bool := do
  match ← peek with
  | .identifier | .voidWord => do methodDeclaration; return true
  | .rightBrace | .endOfFile => return false
  | _ => do recoverMethod; return true

namespace Takes

theorem advance_bind {f : Unit → Production β} (hp : ∀ k, p k → k ≠ .endOfFile)
    (hf : ∀ u, TracksEnd c (fun _ => True) (f u)) : Takes c p (Production.advance >>= f) r :=
  bind (advance hp) hf

theorem of_begins {m₀ : Production β} (h : Begins m₀ (TracksEnd c fun _ => True) m)
    (h₀ : Takes c p m₀ fun _ => True) : Takes c p m q := by
  obtain ⟨f, rfl, hf⟩ := h
  exact bind h₀ hf

theorem of_begins_tracks {m₀ : Production β} (h : Begins m₀ (Tracks c fun _ => True) m)
    (h₀ : Takes c p m₀ fun _ => True) : Takes c p m q := by
  obtain ⟨f, rfl, hf⟩ := h
  exact bind h₀ fun b => .of_tracks (hf b)

/-- Behind a report, the next token is the same. -/
theorem report_bind {pr : Problem} {details : List String} {f : Unit → Production α}
    (hf : Takes c p (f ()) q) : Takes c p (Production.report pr details >>= f) q := by
  intro s a s' hs hp hrun
  obtain ⟨⟨⟩, s₁, hreport, hf'⟩ := runs_bind.1 hrun
  obtain rfl := runs_report.1 hreport
  obtain ⟨hs', hle, hlt⟩ :=
    hf (s := s.report c.options.reportDistance pr details) ⟨hs.last, hs.once⟩ hp hf'
  exact ⟨hs', hle, hlt⟩

theorem expect {k : Token.Kind} (hk : k ≠ .endOfFile) : Takes c (· = k) (expect k) fun _ => True :=
  .check (advance_of hk) fun _ _ _ _ h => absurd h.1 h.2

theorem identifier : Takes c (· = .identifier) identifier fun _ => True :=
  .check (advance_bind (fun _ h => h ▸ by decide) fun _ =>
      .of_tracks (.aside (.bind .get fun _ => .pure _)))
    fun _ _ _ _ h => absurd h.1 h.2

theorem resume : Takes c p resume fun _ => False := by
  intro s u s' hs _ hrun
  obtain rfl := runs_resume.1 hrun
  exact ⟨⟨hs.last, hs.once⟩, Nat.le_refl _, False.elim⟩

theorem type : Takes c (· = .identifier) type fun _ => True :=
  of_begins_tracks Tracks.begins_type (of_begins_tracks Tracks.begins_namedType identifier)

theorem afterMember {count : Nat} : Takes c p (afterMember count) (·.isLeft) :=
  .check (advance_bind (fun _ h => h ▸ by decide) fun _ => .of_tracks (.pure _)) (.pure (by simp))

theorem designator {E : Production Operand} (hE : Tracks c (fun _ => True) E) :
    Takes c (· = .identifier) (designator E) fun _ => True :=
  of_begins_tracks (Tracks.begins_designator hE)
    (of_begins_tracks Tracks.begins_namedOperand identifier)

theorem resultType {k : Token.Kind} (hk : k = .identifier ∨ k = .voidWord) :
    Takes c (· = k) resultType fun _ => True := by
  refine .check (advance_bind (fun _ h => h ▸ by decide) fun _ => .of_tracks (.pure _)) ?_
  intro s a s' hs h
  rcases hk with rfl | rfl
  · exact type hs h.1
  · exact absurd h.1 h.2

/-- Where there is a token to skip, it is taken. -/
theorem skipUntil {found : Production Bool} (hf : Finds c found) :
    Takes c (· ≠ .endOfFile) (skipUntil found) fun _ => True := by
  intro s u s' hs hk hrun
  have hlt := hs.left_advance hk
  change (iterate (skipTurn found) c.bound ()).outcome c s = _ at hrun
  generalize c.bound = n at hrun
  rcases n with _ | n
  · simp [iterate, outcome_throw] at hrun
  obtain ⟨s₁, hb, hnext⟩ := outcome_skipTurn hf n s
  have hfirst : Course c s false s₁ := .beside (.advance .refl hk) hb
  have hleft := hb.left
  rw [hrun] at hnext
  have hrest : Course c s₁ false s' := by
    rcases hnext with rfl | ⟨hk₁, heq⟩
    · exact .refl
    · rw [show s' = _ from heq]
      exact tracks_skipTurns hf n hk₁
  have hle := hrest.left (hfirst.ended hs)
  exact ⟨(hfirst.trans hrest).ended hs, by omega, fun _ => by omega⟩

theorem recoverDeclaration : Takes c (· ≠ .endOfFile) recoverDeclaration fun _ => True :=
  report_bind (seq (skipUntil finds_atDeclaration) fun _ => resume)

theorem recoverMethod : Takes c (· ≠ .endOfFile) recoverMethod fun _ => True :=
  report_bind (seq (skipUntil (finds_any (by decide))) fun _ => resume)

theorem recoverStatement : Takes c (· ≠ .endOfFile) recoverStatement fun _ => True :=
  report_bind (seq (skipUntil (finds_any (by decide))) fun _ =>
    before (.of_tracks (.takeIf (by decide))) fun _ => resume)

section Statements

variable {statement : Option Label → Production Unit}
  (hs : ∀ exit, TracksEnd c (fun _ => True) (statement exit))

include hs

theorem statementOf {exit : Option Label} :
    Takes c (· ≠ .endOfFile) (statementOf statement exit) fun _ => True := by
  refine .peek fun k hk => ?_
  split
  · exact of_begins_tracks Tracks.begins_designatorStatement (designator .expression)
  · exact of_begins (TracksEnd.begins_ifStatement hs) (advance_of hk)
  · exact of_begins (TracksEnd.begins_whileStatement hs) (advance_of hk)
  · exact of_begins_tracks Tracks.begins_breakStatement (advance_of hk)
  · exact of_begins_tracks Tracks.begins_returnStatement (advance_of hk)
  · exact of_begins_tracks Tracks.begins_readStatement (advance_of hk)
  · exact of_begins_tracks Tracks.begins_printStatement (advance_of hk)
  · exact of_begins (TracksEnd.begins_blockOf hs) (expect hk)
  · exact advance_of hk
  · exact recoverStatement.pre fun _ h => h ▸ hk

end Statements

theorem nestedStatement : ∀ depth exit,
    Takes c (· ≠ .endOfFile) (nestedStatement depth exit) fun _ => True
  | 0, _ => fun _ _ _ _ _ hrun => absurd hrun runs_throw
  | depth + 1, _ => statementOf fun exit => TracksEnd.nestedStatement depth exit

end Takes

/-! ### The turns of the productions -/

section Expressions

variable {E : Production Operand} (hE : Tracks c (fun _ => True) E)

include hE

theorem progresses_designatorStep : Progresses c (designatorStep E) := by
  refine fun x => .peek fun k _ => ?_
  split
  · exact .advance_bind (fun _ h => h ▸ by decide) fun _ =>
      .of_tracks (.bind .fieldOf fun _ => .pure _)
  · exact .advance_bind (fun _ h => h ▸ by decide) fun _ =>
      .of_tracks (.bind (.elementOf hE) fun _ => .pure _)
  · exact .pure (by simp)

theorem progresses_argument (s : Signature) : Progresses c (argument E s) := fun _ =>
  .before (.of_tracks hE) fun _ => .before (.of_tracks (.checkArgument _)) fun _ =>
    .before (.of_tracks .load) fun _ => .afterMember

theorem progresses_extraArgument (t : Option TypeId) : Progresses c (extraArgument E t) := fun _ =>
  .before (.of_tracks (.packArgument hE t)) fun _ => .afterMember

omit hE in
theorem progresses_operation {operator? : Token.Kind → Option Opcode}
    {operand : Production Operand} (hop : operator? .endOfFile = none)
    (hy : Tracks c (fun _ => True) operand) : Progresses c (operation operator? operand) := by
  refine fun x => .peek fun k _ => ?_
  split
  · exact .pure (by simp)
  · next op hk =>
    refine .advance_bind (fun _ h => ?_) fun _ => .of_tracks (.bind .load fun _ => .bind hy fun _ =>
      .bind .load fun _ => .bind .reportIf fun _ => .act .emit fun _ => .pure _)
    rintro rfl
    rw [← h, hop] at hk
    contradiction

end Expressions

theorem progresses_conjunctionStep (l l' : Label) : Progresses c (conjunctionStep l l') := fun _ =>
  .check (.advance_bind (fun _ h => h ▸ by decide) fun _ =>
    .of_tracks (.act .write fun _ => .bind .test fun _ => .pure _)) (.pure (by simp))

theorem progresses_conditionStep (l : Label) : Progresses c (conditionStep l) := fun _ =>
  .check (.advance_bind (fun _ h => h ▸ by decide) fun _ =>
    .of_tracks (.act .write fun _ => .act .write fun _ => .bind .conjunction fun _ => .pure _))
    (.pure (by simp))

theorem progresses_blockTurn (depth : Nat) (exit : Option Label) :
    Progresses c (turnOf (blockTurn (nestedStatement depth) exit)) := by
  refine progresses_turnOf (.peek fun k _ => ?_)
  split
  · exact .pure (by simp)
  · exact .pure (by simp)
  · next hk =>
    exact .bind ((Takes.nestedStatement depth exit).pre fun _ h => h ▸ hk) fun _ =>
      .of_tracks (.pure _)

theorem progresses_variableName (t : TypeId) : Progresses c (turnOf (variableName t)) :=
  progresses_turnOf <| .before (.of_tracks .identifier) fun _ => .before (.of_tracks .declare) fun _ =>
    .before (.of_tracks .countGlobal) fun _ =>
      .check (.advance_bind (fun _ h => h ▸ by decide) fun _ => .of_tracks (.pure _))
        (.pure (by simp))

theorem progresses_variablesTurn : Progresses c (turnOf variablesTurn) :=
  progresses_turnOf <| .check (.bind (.of_begins_tracks Tracks.begins_variableDeclaration .type)
    fun _ => .of_tracks (.pure _)) (.pure (by simp))

theorem progresses_parameter : Progresses c parameter := fun _ =>
  .before (.of_tracks .type) fun _ => .before (.of_tracks .identifier) fun _ =>
    .before (.of_tracks .declare) fun _ =>
      .check (.advance_bind (fun _ h => h ▸ by decide) fun _ =>
          .of_tracks (.act .withTable fun _ => .bind .updateEntry fun _ => .pure _)) <|
        .check (.advance_bind (fun _ h => h ▸ by decide) fun _ => .of_tracks (.pure _))
          (.pure (by simp))

theorem progresses_declarationTurn : Progresses c (turnOf declarationTurn) := by
  refine progresses_turnOf (.peek fun k _ => ?_)
  split
  · exact .bind (.of_begins_tracks Tracks.begins_constantDeclaration (.advance_of (by decide))) fun _ =>
      .of_tracks (.pure _)
  · exact .bind (.of_begins_tracks Tracks.begins_classDeclaration (.advance_of (by decide))) fun _ =>
      .of_tracks (.pure _)
  · exact .bind (.of_begins_tracks Tracks.begins_variableDeclaration .type) fun _ =>
      .of_tracks (.pure _)
  · exact .pure (by simp)
  · exact .pure (by simp)
  · next hk => exact .bind (Takes.recoverDeclaration.pre fun _ h => h ▸ hk) fun _ =>
      .of_tracks (.pure _)

theorem progresses_methodTurn : Progresses c (turnOf methodTurn) := by
  refine progresses_turnOf (.peek fun k _ => ?_)
  split
  · exact .bind (.of_begins TracksEnd.begins_methodDeclaration (.resultType (.inl rfl))) fun _ =>
      .of_tracks (.pure _)
  · exact .bind (.of_begins TracksEnd.begins_methodDeclaration (.resultType (.inr rfl))) fun _ =>
      .of_tracks (.pure _)
  · exact .pure (by simp)
  · exact .pure (by simp)
  · next hk => exact .bind (Takes.recoverMethod.pre fun _ h => h ▸ hk) fun _ =>
      .of_tracks (.pure _)

/-- Where another turn follows, the place was not found, so this is not the end of the file. -/
theorem progresses_skipTurn {found : Production Bool} (hf : Finds c found) :
    Progresses c (skipTurn found) := by
  intro u s r s' hs _ hrun
  simp only [skipTurn, runs_bind, runs_advance, runs_pure] at hrun
  obtain ⟨_, _, ⟨_, _, rfl, b, _, hfound, rfl, rfl⟩, rfl, rfl⟩ := hrun
  have hb := hf.aside c s.advance
  rw [hfound] at hb
  have hleft : s'.left = s.advance.left := hb.left
  have hs' : s'.Ended := hb.ended hs.advance
  by_cases hk : s.current.kind = .endOfFile
  · -- the place is found at the end of the file
    have hend := hf.atEnd s.advance (hs.current_advance hk)
    rw [hfound] at hend
    obtain rfl : b = true := Except.ok.inj hend
    refine ⟨hs', ?_, by simp⟩
    have := Session.left_advance hs.last
    have := s.left_bounds
    omega
  · have := hs.left_advance hk
    exact ⟨hs', by omega, fun _ => by omega⟩

/-- The turns of all loops of the productions, where the productions inside an expression or a
statement are nested at most `depth` deep. -/
inductive IsTurn (c : Setting) : {α β : Type} → (α → Production (α ⊕ β)) → Prop where
  | designator (depth : Nat) : IsTurn c (designatorStep (nestedExpression depth))
  | arguments (depth : Nat) (s : Signature) : IsTurn c (argument (nestedExpression depth) s)
  | extraArguments (depth : Nat) (t : Option TypeId) :
    IsTurn c (extraArgument (nestedExpression depth) t)
  | term (depth : Nat) : IsTurn c (operation multiplying? (factor (nestedExpression depth)))
  | sum (depth : Nat) : IsTurn c (operation adding? (term (nestedExpression depth)))
  | conjunction (l l' : Label) : IsTurn c (conjunctionStep l l')
  | condition (l : Label) : IsTurn c (conditionStep l)
  | block (depth : Nat) (exit : Option Label) :
    IsTurn c (turnOf (blockTurn (nestedStatement depth) exit))
  | variableNames (t : TypeId) : IsTurn c (turnOf (variableName t))
  | variableDeclaration : IsTurn c (turnOf variablesTurn)
  | parameters : IsTurn c parameter
  | declarations : IsTurn c (turnOf declarationTurn)
  | methods : IsTurn c (turnOf methodTurn)
  | skip {found : Production Bool} : Finds c found → IsTurn c (skipTurn found)

theorem IsTurn.progresses {turn : α → Production (α ⊕ β)} (h : IsTurn c turn) : Progresses c turn := by
  cases h with
  | designator depth => exact progresses_designatorStep (.nestedExpression depth)
  | arguments depth s => exact progresses_argument (.nestedExpression depth) s
  | extraArguments depth t => exact progresses_extraArgument (.nestedExpression depth) t
  | term depth => exact progresses_operation rfl (.factor (.nestedExpression depth))
  | sum depth => exact progresses_operation rfl (.term (.nestedExpression depth))
  | conjunction l l' => exact progresses_conjunctionStep l l'
  | condition l => exact progresses_conditionStep l
  | block depth exit => exact progresses_blockTurn depth exit
  | variableNames t => exact progresses_variableName t
  | variableDeclaration => exact progresses_variablesTurn
  | parameters => exact progresses_parameter
  | declarations => exact progresses_declarationTurn
  | methods => exact progresses_methodTurn
  | skip hf => exact progresses_skipTurn hf

end Production

end MicroJava
