import MicroJava.Proofs.Resemblance
import MicroJava.Proofs.CallCode
import MicroJava.Proofs.InsertedText
import MicroJava.Proofs.Updating

/-!
# Statements that update variables

The code of `d++` and of `d += e` starts with that of the designator, and what is behind updates the
variable that it leads to. Where two such statements are read in the same place, they start with the same
code and lead to the same variable.
-/

namespace MicroJava

open Production Tree

variable {ε : Type} {F : Frame} {t : SymbolTable} {H : Token.Kind → Prop} {x : Operand} {δ : Int32}

/-! ### What emissions append -/

/-- The items are appended, unless the emission fails. -/
def Emission.Writes (e : Emission ε Unit) (js : List Item) : Prop :=
  ∀ ⦃a a' is⦄, e.Succeeds a () a' → Lays a is → Lays a' (is ++ js)

namespace Emission.Writes

variable {e e' : Emission ε Unit} {js js' : List Item}

theorem done : Writes (return () : Emission ε Unit) [] := by
  intro a a' is hs hlays
  obtain ⟨-, rfl⟩ := succeeds_pure.1 hs
  rwa [List.append_nil]

theorem throw {p : ε} : Writes (throw p : Emission ε Unit) js := by
  intro a a' is hs
  exact absurd (congrArg Prod.fst hs) nofun

theorem seq (h : Writes e js) (h' : Writes e' js') : Writes (do e; e') (js ++ js') := by
  intro a a' is hs hlays
  obtain ⟨⟨⟩, a₁, h₁, h₂⟩ := succeeds_bind.1 hs
  rw [← List.append_assoc]
  exact h' h₂ (h h₁ hlays)

theorem emit {op : Opcode} {operands : List Int} (hwf : (Item.plain op operands).WellFormed) :
    Writes (Emission.emit op operands : Emission ε Unit) [.plain op operands] := by
  intro a a' is hs hlays
  rw [succeeds_emit.1 hs]
  exact hlays.emit hwf

theorem constant (v : Int32) : Writes (Emission.constant v : Emission ε Unit) [.constant v] := by
  have hfits : Order.Fits (constantCode v) :=
    (Computes.constant v).fits (by simp) _ (List.mem_singleton_self _)
  exact emit ⟨hfits.relative, hfits.operands.length_eq.symm⟩

theorem load (hx : x.isVariable) : Writes (Emission.load x) [.plain x.loader.1 x.loader.2] := by
  obtain ⟨x, T⟩ := x
  cases x with
  | frame slot =>
    refine emit ?_
    unfold frameLoadCode
    split <;> exact ⟨rfl, rfl⟩
  | global slot => exact emit ⟨rfl, rfl⟩
  | field slot => exact emit ⟨rfl, rfl⟩
  | element =>
    refine emit ?_
    unfold elementLoad
    split <;> exact ⟨rfl, rfl⟩
  | constant v => contradiction
  | stack => contradiction
  | method id => contradiction

theorem store : Writes (Emission.store x) [.plain x.storer.1 x.storer.2] := by
  obtain ⟨x, T⟩ := x
  cases x with
  | frame slot =>
    refine emit ?_
    unfold frameStoreCode
    split <;> exact ⟨rfl, rfl⟩
  | global slot => exact emit ⟨rfl, rfl⟩
  | field slot => exact emit ⟨rfl, rfl⟩
  | element =>
    refine emit ?_
    unfold elementStore
    split <;> exact ⟨rfl, rfl⟩
  | _ => exact throw

theorem loadForUpdate : Writes (Emission.loadForUpdate x) x.fetching := by
  obtain ⟨x, T⟩ := x
  cases x with
  | frame slot => exact load (x := ⟨.frame slot, T⟩) rfl
  | global slot => exact load (x := ⟨.global slot, T⟩) rfl
  | field slot => exact (emit ⟨rfl, rfl⟩).seq (load (x := ⟨.field slot, T⟩) rfl)
  | element => exact (emit ⟨rfl, rfl⟩).seq (load (x := ⟨.element, T⟩) rfl)
  | _ => exact throw

theorem incrementPlace (hx : ∀ slot, x.place ≠ .frame slot) :
    Writes (Emission.incrementPlace x δ) (x.increasing δ) := by
  have hrest : x.isVariable → Writes (do
      Emission.load x
      Emission.constant δ
      Emission.emit .add
      Emission.store x) ([.plain x.loader.1 x.loader.2] ++ ([.constant δ] ++ x.finishing .add)) :=
    fun hx => (load hx).seq ((constant δ).seq ((emit ⟨rfl, rfl⟩).seq store))
  obtain ⟨x, T⟩ := x
  cases x with
  | frame slot => exact absurd rfl (hx slot)
  | global slot => exact done.seq (hrest rfl)
  | field slot => exact (emit ⟨rfl, rfl⟩).seq (hrest rfl)
  | element => exact (emit ⟨rfl, rfl⟩).seq (hrest rfl)
  | _ =>
    intro a a' is hs
    obtain ⟨_, _, hkeep, -⟩ := succeeds_bind.1 hs
    exact absurd (congrArg Prod.fst hkeep) nofun

end Emission.Writes

/-- A step that succeeds is one of a variable. -/
theorem isVariable_of_incrementPlace {a a' : Assembly}
    (h : (Emission.incrementPlace x δ).Succeeds a () a') : x.isVariable := by
  obtain ⟨_, _, hkeep, -⟩ := Emission.succeeds_bind.1 h
  obtain ⟨x, T⟩ := x
  cases x with
  | frame slot | global slot | field slot | element => rfl
  | constant v | stack | method id => exact absurd (congrArg Prod.fst hkeep) nofun

theorem Tree.Assigning.assignmentOf?_opcode (o : Assigning) : assignmentOf? o.kind = some o.opcode? := by
  rcases o with _ | (_ | _) | (_ | _ | _) <;> rfl

theorem Tree.Assigning.exists_opcode {o : Assigning} (h : o ≠ .plain) : ∃ op, o.opcode? = some op := by
  cases o with
  | plain => exact absurd rfl h
  | add o => exact ⟨_, rfl⟩
  | multiply o => exact ⟨_, rfl⟩

/-! ### What statements append -/

section

variable {c : Setting} {s s' : Session} {u : Unit}

theorem runs_attempt_clean {e : Emission Problem Unit} (h : (Production.attempt e).Runs c s u s')
    (hclean : s'.mistakes = s.mistakes) :
    ∃ assembly, e.Succeeds s.assembly () assembly ∧ s' = { s with assembly } := by
  rcases runs_attempt.1 h with h | ⟨p, assembly, -, rfl⟩
  · exact h
  · rw [Session.mistakes_report] at hclean
    exact absurd hclean (Nat.succ_ne_self _)

end

namespace Lists

variable {α β : Type} {xs ys : List Terminal} {S : α → List Item → Prop} {T : β → List Item → Prop}
  {js : List Item}

theorem peek {k : Token.Kind} {g : Token.Kind → Production β} (hmoves : Moves F t (Production.peek >>= g))
    (hk : ∀ rest, H (nextKind rest) → nextKind (ys ++ rest) = k) (hg : Lists F t (g k) ys H T) :
    Lists F t (Production.peek >>= g) ys H T := by
  refine ⟨hmoves, fun s r s' rest is hc hrun hahead hrest hclean hlays => ?_⟩
  obtain ⟨_, s, h₁, h₂⟩ := runs_bind.1 hrun
  obtain ⟨rfl, rfl⟩ := runs_peek.1 h₁
  rw [Session.kind_eq, hahead, hk rest hrest] at h₂
  exact hg.lists hc h₂ hahead hrest hclean hlays

/-- An emission that may fail, which is a mistake. -/
theorem attempt {e : Emission Problem Unit} (hmoves : Moves F t (Production.attempt e)) (he : e.Writes js) :
    Lists F t (Production.attempt e) [] H fun _ js' => (∃ a a', e.Succeeds a () a') ∧ js' = js := by
  refine ⟨hmoves, fun s u s' rest is hc hrun hahead _ hclean hlays => ?_⟩
  obtain ⟨assembly, hs, rfl⟩ := runs_attempt_clean hrun hclean
  exact ⟨hahead, js, ⟨⟨_, _, hs⟩, rfl⟩, he hs hlays⟩

/-- The last token of a production. -/
theorem expectLast {k : Token.Kind} :
    Lists F t (Production.expect k) [.word k] H fun _ js => js = [] := by
  have h : Lists F t (Production.expect k >>= fun u => Pure.pure u) [.word k] H fun _ js => js = [] :=
    expect (ret.post fun _ _ h => h.2)
  rwa [bind_pure] at h

theorem increment :
    Lists F t (Production.increment x δ) [] H fun _ js =>
      x.isVariable ∧ x.type = .int ∧ js = x.increasing δ := by
  have hmoves : Moves F t (Production.increment x δ) :=
    (Emits.increment (q := True) x δ).moves holds_none
  rw [Production.increment] at hmoves ⊢
  by_cases hint : x.type = .int
  · rw [if_neg (not_not.2 hint)] at hmoves ⊢
    split at hmoves
    · next slot hplace =>
      refine (emit ⟨rfl, rfl⟩ hmoves).post ?_
      rintro _ _ rfl
      refine ⟨by rw [Operand.isVariable, hplace], hint, by rw [Operand.increasing, hplace]⟩
    · next hplace =>
      refine (attempt hmoves (.incrementPlace hplace)).post ?_
      rintro _ _ ⟨⟨_, _, hs⟩, rfl⟩
      exact ⟨isVariable_of_incrementPlace hs, hint, rfl⟩
  · rw [if_pos hint]
    exact report

theorem loadOldValue {op : Opcode} :
    Lists F t (Production.loadOldValue x (some op)) [] H fun _ js => x.isVariable ∧ js = x.fetching := by
  have hmoves : Moves F t (Production.loadOldValue x (some op)) :=
    (Emits.loadOldValue (n := 0) (q := True) x (some op)).moves holds_none
  by_cases hx : x.isVariable
  · have heq : Production.loadOldValue x (some op) = Production.attempt (Emission.loadForUpdate x) := by
      simp [Production.loadOldValue, hx]
    rw [heq] at hmoves ⊢
    exact (attempt hmoves .loadForUpdate).post fun _ js h => ⟨hx, h.2⟩
  · have heq : Production.loadOldValue x (some op) = Production.report .notAVariable := by
      simp [Production.loadOldValue, hx]
    rw [heq]
    exact report

/-- The value that is assigned, and what is done with it. -/
theorem assignValue {K : List Item → Prop} {o : Assigning} {op : Opcode} (ho : o.opcode? = some op)
    (hvalue : Lists F t (do Production.load (← expression)) xs (·.EndsExpression) fun _ ks => K ks) :
    Lists F t (do
      let y ← expression
      Production.reportIf ((some op).isSome ∧ (x.type ≠ .int ∨ y.type ≠ .int)) .operandNotInt
      Production.assignValue x y (some op)) xs (·.EndsExpression)
      fun _ js => x.type = .int ∧ ∃ ks, K ks ∧ js = ks ++ x.finishing op := by
  have hkind : assignmentOf? o.kind = some (some op) := by rw [o.assignmentOf?_opcode, ho]
  have hexpression : Moves F t expression := (Emits.expression 0 True).moves holds_none
  have hcheck : ∀ y : Operand, Moves F t (Production.reportIf
      ((some op).isSome ∧ (x.type ≠ .int ∨ y.type ≠ .int)) .operandNotInt) := fun y =>
    (Emits.reportIf (n := 0) (q := True)).moves holds_none
  have hassign : ∀ y, Moves F t (Production.assignValue x y (some op)) := fun y =>
    (Emits.assignValue (n := 0) (q := True) x y (Emits.straight_assignment hkind)).moves holds_none
  refine ⟨hexpression.bind fun y => (hcheck y).bind fun _ => hassign y,
    fun s u s' rest is hs hrun hahead hends hclean hlays => ?_⟩
  obtain ⟨y, s₁, h₁, h₂⟩ := runs_bind.1 hrun
  obtain ⟨_, s₂, h₂, h₃⟩ := runs_bind.1 h₂
  obtain ⟨hs₁, hle₁⟩ := hexpression hs h₁
  obtain ⟨hs₂, hle₂⟩ := hcheck y hs₁ h₂
  obtain ⟨-, hle₃⟩ := hassign y hs₂ h₃
  -- each mistake would be one more than there are
  obtain ⟨hint, hs₂⟩ := runs_reportIf_clean h₂ (by omega)
  obtain ⟨b, s₃, hfits, h₃⟩ := runs_bind.1 h₃
  rw [runs_fits hfits, hs₂] at h₃
  obtain ⟨assembly, hassign, rfl⟩ : ∃ assembly,
      (Emission.assign x y (some op)).Succeeds s₁.assembly () assembly ∧ s' = { s₁ with assembly } := by
    split at h₃
    · exact runs_attempt_clean h₃ (by omega)
    · rw [runs_report.1 h₃, Session.mistakes_report] at hclean
      omega
  obtain ⟨_, a₁, hload, hassign⟩ := Emission.succeeds_bind.1 hassign
  have hloaded : (Production.load y).Runs F.setting s₁ () { s₁ with assembly := a₁ } :=
    runs_attempt.2 (.inl ⟨a₁, hload, rfl⟩)
  have hsame : s₁.mistakes = s.mistakes := hclean
  obtain ⟨hahead', ks, hks, hlays'⟩ :=
    hvalue.lists hs (runs_bind.2 ⟨y, s₁, h₁, hloaded⟩) hahead hends hsame hlays
  have hint : x.type = .int := by
    simpa [not_or] using fun h => hint ⟨rfl, .inl h⟩
  have hfinish : Emission.Writes (do
      Emission.combine (some op)
      Emission.store x) (x.finishing op) :=
    Emission.Writes.seq (.emit (wellFormed_opcode ho)) .store
  refine ⟨hahead', ks ++ x.finishing op, ⟨hint, ks, hks, rfl⟩, ?_⟩
  rw [← List.append_assoc]
  exact hfinish hassign hlays'

/-- An assignment with an operator. -/
theorem compound {K : List Item → Prop} {o : Assigning} {op : Opcode} (ho : o.opcode? = some op)
    (hvalue : Lists F t (do Production.load (← expression)) xs (·.EndsExpression) fun _ ks => K ks) :
    Lists F t (designatorAction x) (.word o.kind :: xs) (·.EndsExpression) fun _ js =>
      x.isVariable ∧ x.type = .int ∧ ∃ ks, K ks ∧ js = x.fetching ++ (ks ++ x.finishing op) := by
  have hmoves : Moves F t (designatorAction x) := (Emits.designatorAction (q := True) x).moves holds_none
  rw [designatorAction] at hmoves ⊢
  refine peek (k := o.kind) hmoves (fun _ _ => rfl) ?_
  rw [o.assignmentOf?_opcode, ho]
  refine advance ((act loadOldValue fun _ => assignValue ho hvalue).post ?_)
  rintro _ _ ⟨_, _, _, rfl, ⟨hx, rfl⟩, hint, ks, hks, rfl⟩
  exact ⟨hx, hint, ks, hks, rfl⟩

theorem step {k : Token.Kind} (hk : k = .increment ∧ δ = 1 ∨ k = .decrement ∧ δ = -1) :
    Lists F t (designatorAction x) [.word k] H fun _ js =>
      x.isVariable ∧ x.type = .int ∧ js = x.increasing δ := by
  have hmoves : Moves F t (designatorAction x) := (Emits.designatorAction (q := True) x).moves holds_none
  rw [designatorAction] at hmoves ⊢
  refine peek (k := k) hmoves (fun _ _ => rfl) ?_
  rcases hk with ⟨rfl, rfl⟩ | ⟨rfl, rfl⟩ <;> exact advance increment

end Lists

section

variable {c : Setting} {s s' : Session} {y : Operand} {v : Int32} {rest : List Terminal}

/-- In front of another token, operations end. -/
theorem runs_loop_operation {operator? : Token.Kind → Option Opcode} {operand : Production Operand}
    (hk : operator? s.current.kind = none) (hrun : (loop (operation operator? operand) x).Runs c s y s') :
    y = x ∧ s' = s := by
  have hlast : ∀ {r s₁}, (operation operator? operand x).Runs c s r s₁ → r = .inr x ∧ s₁ = s := by
    intro r s₁ h
    obtain ⟨_, s, hpeek, h⟩ := runs_bind.1 h
    obtain ⟨rfl, rfl⟩ := runs_peek.1 hpeek
    rw [hk] at h
    exact runs_pure.1 h
  cases turns_of_runs_loop hrun with
  | last h =>
    obtain ⟨hr, rfl⟩ := hlast h
    exact ⟨Sum.inr.inj hr, rfl⟩
  | next h _ => exact absurd (hlast h).1 nofun

/-- A number that is read as an expression is a constant. -/
theorem runs_expression_number (hn : s.Named) (hahead : s.ahead = .number v :: rest)
    (hends : (nextKind rest).EndsExpression) (hrun : expression.Runs c s x s') :
    x = .constant v .int ∧ s' = s.advance := by
  obtain ⟨hterminal, hk, -⟩ := Session.current_of_ahead hahead
  have hk : s.current.kind = .number := hk
  have hliteral : s.current.literal = v := by
    rw [Token.terminal, hk] at hterminal
    exact Terminal.number.inj hterminal
  have hnext : s.advance.current.kind = nextKind rest := by
    rw [Session.kind_eq, (Takes.advance hn hahead).ahead]
  have hfactor : ∀ {E y s₁}, (factor E).Runs c s y s₁ → y = .constant v .int ∧ s₁ = s.advance := by
    intro E y s₁ h
    obtain ⟨_, s, hpeek, h⟩ := runs_bind.1 h
    obtain ⟨rfl, rfl⟩ := runs_peek.1 hpeek
    rw [hk] at h
    obtain ⟨w, s₂, hw, h⟩ := runs_bind.1 h
    obtain ⟨rfl, rfl⟩ := runs_literal.1 hw
    rw [hliteral] at h
    exact runs_pure.1 h
  have hterm : ∀ {E y s₁}, (term E).Runs c s y s₁ → y = .constant v .int ∧ s₁ = s.advance := by
    intro E y s₁ h
    obtain ⟨z, s₂, hz, h⟩ := runs_bind.1 h
    obtain ⟨rfl, rfl⟩ := hfactor hz
    exact runs_loop_operation (hnext ▸ hends.1.2) h
  have hsum : ∀ {E y s₁}, (sum E).Runs c s y s₁ → y = .constant v .int ∧ s₁ = s.advance := by
    intro E y s₁ h
    obtain ⟨z, s₂, hz, h⟩ := runs_bind.1 h
    obtain ⟨b, s₃, hb, hz⟩ := runs_bind.1 hz
    obtain ⟨rfl, rfl⟩ := runs_check.1 hb
    rw [hk] at hz
    obtain ⟨rfl, rfl⟩ := hterm hz
    exact runs_loop_operation (hnext ▸ hends.2) h
  obtain ⟨_, s₁, hread, hrun⟩ := runs_bind.1 hrun
  obtain ⟨hsetting, hs₁⟩ := runs_read.1 hread
  rw [hsetting, hs₁] at hrun
  rcases hbound : c.bound with _ | depth <;> rw [hbound] at hrun
  · exact absurd hrun runs_throw
  · exact hsum hrun

end

/-- A number is loaded as a constant. -/
theorem Lists.number {v : Int32} : Lists F t (do Production.load (← expression)) [.number v]
    (·.EndsExpression) fun _ ks => ks = [.constant v] := by
  have hmoves : Moves F t (do Production.load (← expression)) :=
    (Emits.bind (Emits.expression 0 True) fun x => .load x).moves holds_none
  refine ⟨hmoves, fun s u s' rest is hs hrun hahead hends hclean hlays => ?_⟩
  obtain ⟨x, s₁, h₁, h₂⟩ := runs_bind.1 hrun
  obtain ⟨rfl, rfl⟩ := runs_expression_number hs.covers.named hahead hends h₁
  obtain ⟨assembly, hload, rfl⟩ := runs_attempt_clean h₂ (by simpa using hclean)
  have hahead' : s.advance.ahead = rest := (Takes.advance hs.covers.named hahead).ahead
  exact ⟨hahead', _, rfl, Emission.Writes.constant v hload hlays⟩

/-! ### Statements -/

/-- The designator is read without a mistake, and gives the operand. -/
structure Tree.Designator.Gives (F : Frame) (s : Session) (d : Designator) (x : Operand) (s' : Session) :
    Prop where
  ahead : s.ahead = d.yield ++ s'.ahead
  behind : ∃ k rest, k.EndsDesignator ∧ s'.ahead = .word k :: rest
  runs : (designator expression).Runs F.setting s x s'
  clean : s'.mistakes = s.mistakes

/-- The code of an update behind the items: that of the designator, which gives an `int` variable, and other
code behind. -/
structure Tree.Designator.Updated (F : Frame) (s : Session) (d : Designator) (is : List Item)
    (x : Operand) (ps js : List Item) (a : Assembly) : Prop where
  gives : ∃ s', d.Gives F s x s' ∧ Lays s'.assembly (is ++ ps)
  isVariable : x.isVariable
  type : x.type = .int
  lays : Lays a (is ++ (ps ++ js))

/-- The statement that is in front is read without a mistake. -/
structure Frame.Accepts (F : Frame) (s : Session) (a : Statement) (s' : Session) : Prop where
  ahead : ∃ rest, s.ahead = a.yield ++ rest
  runs : designatorStatement.Runs F.setting s () s'
  clean : s'.mistakes = s.mistakes

/-- The block, where the text leaves other room for turns. -/
def Frame.within (F : Frame) (c : Setting) : Frame := { F with setting := c }

/-- The items add a number to the variable: they take from the stack what the operand has there, and change
nothing else. -/
def Operand.Adds (x : Operand) (δ : Int32) (js : List Item) : Prop :=
  x.Fits → ∀ code, Implements code js (do (← x.spot).update fun v => some (v + δ))

/-- The number 1. -/
def Tree.Expression.one : Expression := .term (.factor (.number 1))

/-- A step of what the designator stands for, and the assignment that does the same. -/
inductive Tree.Designator.Steps (d : Designator) : Statement → Statement → Int32 → Prop
  | increment : Steps d (.increment d) (.assign d (.add .plus) .one) 1
  | decrement : Steps d (.decrement d) (.assign d (.add .minus) .one) (-1)

variable {s s' : Session} {d : Designator} {xs : List Terminal} {is : List Item}

/-- A statement is read in two parts, and what is appended for the second one depends on the operand. -/
theorem Frame.Accepts.parts {T : Operand → List Item → Prop} {k : Token.Kind} {a : Statement}
    (h : F.Accepts s a s') (hs : F.Sees t s) (hk : k.EndsDesignator)
    (hyield : a.yield = d.yield ++ (.word k :: (xs ++ [.word .semicolon])))
    (haction : ∀ x, Lists F t (designatorAction x) (.word k :: xs) (·.EndsExpression) fun _ => T x) :
    ∃ x s₁, d.Gives F s x s₁ ∧ ∀ is, Lays s₁.assembly is → ∃ js, T x js ∧ Lays s'.assembly (is ++ js) := by
  obtain ⟨⟨rest, hahead⟩, hrun, hclean⟩ := h
  obtain ⟨x, s₁, h₁, h₂⟩ := runs_bind.1 hrun
  have hbehind : Lists F t (do designatorAction x; Production.expect .semicolon)
      (.word k :: xs ++ [.word .semicolon]) (fun _ => True) fun _ => T x := by
    refine (Lists.bind (haction x) (fun _ => Lists.expectLast) fun _ _ => ?_).post ?_
    · exact (by decide : Token.Kind.semicolon.EndsExpression)
    · rintro _ _ ⟨_, js, _, rfl, hjs, rfl⟩
      rwa [List.append_nil]
  rw [hyield, List.append_assoc] at hahead
  have hahead₁ : s₁.ahead = .word k :: xs ++ [.word .semicolon] ++ rest :=
    (takes_designator hs.covers.named hahead hk h₁).ahead
  have hmoves : Moves F t (designator expression) :=
    (Emits.designator (n := 0) (q := True) .expression).moves holds_none
  obtain ⟨hs₁, hle⟩ := hmoves hs h₁
  obtain ⟨-, hle'⟩ := hbehind.moves hs₁ h₂
  refine ⟨x, s₁, ⟨hahead₁ ▸ hahead, ⟨k, _, hk, hahead₁⟩, h₁, by omega⟩, fun is hlays => ?_⟩
  obtain ⟨-, js, hjs, hlays'⟩ := hbehind.lists hs₁ h₂ hahead₁ trivial (by omega) hlays
  exact ⟨js, hjs, hlays'⟩

theorem Tree.Designator.Gives.exists_lays (h : d.Gives F s x s') (hc : F.Covers s)
    (hlays : Lays s.assembly is) : ∃ ps, Lays s'.assembly (is ++ ps) := by
  have hemits : Emits F (Holds 0 True) (designator expression) fun x =>
      Holds (0 + x.depth) (F.Knows x ∧ True) := .designator .expression
  obtain ⟨_, hsteps, -⟩ := hemits hc h.runs holds_none
  obtain ⟨ps, hlays', -⟩ := hsteps.grows hlays
  exact ⟨ps, hlays'⟩

/-- On texts that are the same up to its end, a designator gives the same. -/
theorem Tree.Designator.Gives.resembling {c : Setting} {s₁ s₁' : Session} {x' : Operand}
    (h : d.Gives F s x s₁) (h' : d.Gives (F.within c) s' x' s₁') (hc : F.Covers s) (hc' : (F.within c).Covers s')
    (hextends : F.setting.Extends c) (hresembles : s.Resembles d.yield.length s') :
    x' = x ∧ s₁'.assembly = s₁.assembly := by
  obtain ⟨k, rest, hk, hahead⟩ := h.behind
  obtain ⟨k', rest', hk', hahead'⟩ := h'.behind
  obtain ⟨s₂, hrun, hassembly⟩ := hresembles.runs_designator hextends hc.named hc'.named h.ahead h'.ahead
    (by simp [hahead]) (hahead ▸ hk) (hahead' ▸ hk') h.runs h.clean
  obtain ⟨hok, rfl⟩ := Prod.mk.inj (h'.runs.symm.trans hrun)
  exact ⟨Except.ok.inj hok, hassembly⟩

/-- A step by one, and an assignment that is read in the same place. -/
theorem updated_resembling {o : Adding} {k : Token.Kind} {a b : Statement} {c : Setting} {s₁ s₁' : Session}
    (hk : k = .increment ∧ δ = 1 ∨ k = .decrement ∧ δ = -1) (ho : ∀ v, o.apply v 1 = v + δ)
    (hc : F.Covers s) (hc' : (F.within c).Covers s') (hlays : Lays s.assembly is)
    (hextends : F.setting.Extends c) (hresembles : s.Resembles d.yield.length s')
    (haccepts : F.Accepts s a s₁) (ha : a.yield = d.yield ++ [.word k, .word .semicolon])
    (haccepts' : (F.within c).Accepts s' b s₁')
    (hb : b.yield = d.yield ++ [.word (Assigning.add o).kind, .number 1, .word .semicolon]) :
    ∃ x ps js js', d.Updated F s is x ps js s₁.assembly ∧ d.Updated F s is x ps js' s₁'.assembly ∧
      x.Adds δ js ∧ x.Adds δ js' := by
  have hends : k.EndsDesignator := by
    rcases hk with ⟨rfl, -⟩ | ⟨rfl, -⟩ <;> decide
  obtain ⟨x, s₂, hgives, hstep⟩ :=
    haccepts.parts ⟨hc, .refl _⟩ hends ha fun x => Lists.step hk
  obtain ⟨x', s₂', hgives', hassign⟩ := haccepts'.parts ⟨hc', .refl _⟩ (Assigning.add o).endsDesignator hb
    fun x => Lists.compound (o := .add o) rfl .number
  -- what is appended for the designator of the second text is that of the first one
  obtain ⟨rfl, hassembly⟩ := hgives.resembling hgives' hc hc' hextends hresembles
  obtain ⟨ps, hlays₂⟩ := hgives.exists_lays hc hlays
  obtain ⟨js, ⟨hx, hint, rfl⟩, hlays₁⟩ := hstep _ hlays₂
  obtain ⟨js', ⟨-, -, _, rfl, rfl⟩, hlays₁'⟩ := hassign _ (hassembly ▸ hlays₂)
  rw [List.append_assoc] at hlays₁ hlays₁'
  have hδ : δ = 1 ∨ δ = -1 := hk.imp And.right And.right
  have hresult : (fun v => (Assigning.add o).result v 1) = fun v => some (v + δ) :=
    funext fun v => congrArg some (ho v)
  refine ⟨_, ps, _, _, ⟨⟨s₂, hgives, hlays₂⟩, hx, hint, hlays₁⟩, ⟨⟨s₂, hgives, hlays₂⟩, hx, hint, hlays₁'⟩,
    fun hfits code => Operand.implements_increasing hδ hx hfits, fun hfits code => ?_⟩
  rw [← hresult]
  exact Operand.implements_updating hx hfits rfl 1

/-- The code of a statement that updates a variable is that of its designator, and code that does the update.

A step by one, and an assignment that is read in the same place, start with the same code, which leads to the
same variable, and both add the same number to it. An assignment with an operator looks at the variable in
front of the code of the other number, and stores the result behind it. -/
theorem designatorStatement_updates (hc : F.Covers s) (hlays : Lays s.assembly is) :
    (∀ {a b : Statement} {δ : Int32} {c : Setting} {s' s₁ s₁' : Session}, d.Steps a b δ →
      F.setting.Extends c → (F.within c).Covers s' → s.Resembles d.yield.length s' → F.Accepts s a s₁ →
      (F.within c).Accepts s' b s₁' →
        ∃ x ps js js', d.Updated F s is x ps js s₁.assembly ∧ d.Updated F s is x ps js' s₁'.assembly ∧
          x.Adds δ js ∧ x.Adds δ js') ∧
    ∀ {o : Assigning} {e : Expression} {s₁ : Session}, o ≠ .plain → F.Accepts s (.assign d o e) s₁ →
      ∃ x ps ks js, d.Updated F s is x ps js s₁.assembly ∧ e.Loads F s.table expression ks ∧
        (x.Fits → ∀ code, Compounds code x o.result ks js) := by
  constructor
  · intro a b δ c s' s₁ s₁' hsteps hextends hc' hresembles haccepts haccepts'
    cases hsteps with
    | increment =>
      exact updated_resembling (o := .plus) (.inl ⟨rfl, rfl⟩) (fun _ => rfl) hc hc' hlays hextends hresembles
        haccepts rfl haccepts' rfl
    | decrement =>
      exact updated_resembling (o := .minus) (.inr ⟨rfl, rfl⟩) (Int32.sub_eq_add_neg · 1) hc hc' hlays
        hextends hresembles haccepts rfl haccepts' rfl
  · intro o e s₁ ho haccepts
    obtain ⟨op, hop⟩ := Assigning.exists_opcode ho
    obtain ⟨x, s₂, hgives, hassign⟩ := haccepts.parts ⟨hc, .refl _⟩ o.endsDesignator rfl
      fun x => Lists.compound hop (Lists.loadArgument .unnested none)
    obtain ⟨ps, hlays₂⟩ := hgives.exists_lays hc hlays
    obtain ⟨js, ⟨hx, hint, ks, hks, rfl⟩, hlays₁⟩ := hassign _ hlays₂
    rw [List.append_assoc] at hlays₁
    exact ⟨x, ps, ks, _, ⟨⟨s₂, hgives, hlays₂⟩, hx, hint, hlays₁⟩, hks,
      fun hfits code => Operand.compounds hx hfits hop⟩

theorem designatorStatement_updates_element :
    let array := SymbolTable.initial.openScope.openScope.arrayOf .int
    let t := ((array.2.declare .var "a" array.1).2.declare .var "i" .int).2
    let start (source : String) : Session :=
      { (Session.start (Token.scan source) {}).advance with table := t }
    let setting (source : String) : Setting := .ofStream {} (Token.scan source)
    let F : Frame := ⟨setting "a[i + 1]++;", t.entries, 0, false, false⟩
    let s := start "a[i + 1]++;"
    let s' := start "a[i + 1] += 1;"
    let r := start "a[i + 1] *= i;"
    let i : Tree.Expression := .term (.factor (.designator (.name "i")))
    let d : Designator := .element (.name "a") (.sum i .plus (.factor (.number 1)))
    ∃ s₁ s₁' r₁, F.Accepts s (.increment d) s₁ ∧
      (F.within (setting "a[i + 1] += 1;")).Accepts s' (.assign d (.add .plus) .one) s₁' ∧
      F.Accepts r (.assign d (.multiply .times) i) r₁ ∧
      (∃ x ps js js', d.Updated F s [] x ps js s₁.assembly ∧ d.Updated F s [] x ps js' s₁'.assembly ∧
        x.Adds 1 js ∧ x.Adds 1 js') ∧
      ∃ x ps ks js, d.Updated F r [] x ps js r₁.assembly ∧ i.Loads F t expression ks ∧
        (x.Fits → ∀ code, Compounds code x (Assigning.multiply .times).result ks js) := by
  intro array t start setting F s s' r i d
  have hsound : t.Sound :=
    (((SymbolTable.Sound.initial.openScope.openScope.arrayOf _).declare .var "a" (by simp)).declare
      .var "i" (by simp))
  have hpredeclared : t.Predeclared := by
    have harray : array.2.Predeclared := fun _ _ => rfl
    exact (harray.declare .var "a" array.1).declare .var "i" .int
  have hcovers (source : String) (c : Setting) : (F.within c).Covers (start source) := by
    have hnamed : (Session.start (Token.scan source) {}).advance.Named := (Session.Named.start _ _).advance
    exact ⟨rfl, Nat.zero_le _, rfl, ⟨hnamed.current, hnamed.ahead, hnamed.last⟩, hsound, hpredeclared⟩
  have haccepts (source : String) {a : Statement} {G : Frame} (hahead : (start source).ahead = a.yield)
      (hok : (designatorStatement.outcome G.setting (start source)).1 = .ok ())
      (hclean : (designatorStatement.outcome G.setting (start source)).2.mistakes = (start source).mistakes) :
      G.Accepts (start source) a (designatorStatement.outcome G.setting (start source)).2 :=
    ⟨⟨[], hahead.trans (List.append_nil _).symm⟩, Prod.ext hok rfl, hclean⟩
  have hupcoming (source : String) (n : Nat) :
      (start source).upcoming n = (Session.start (Token.scan source) {}).upcoming (n + 1) :=
    Session.upcoming_advance _ n
  have hresembles : s.Resembles d.yield.length s' := by
    have htext : (Token.scan "a[i + 1]++;").terminals =
      (Statement.increment d).yield ++ [.word .endOfFile] := by decide +kernel
    have hsame : ∀ n < d.yield.length, (s'.upcoming n).terminal = (s.upcoming n).terminal := by
      decide +kernel
    refine ⟨by decide +kernel, rfl, rfl, rfl, fun n hn => ?_, fun n hn => ?_⟩
    · refine Token.same_of_terminal (hsame n hn) ?_ ?_
      · exact hupcoming _ n ▸ Session.shown_upcoming _ _ _
      · exact hupcoming _ n ▸ Session.shown_upcoming _ _ _
    · rw [hupcoming] at hn ⊢
      exact Session.ends_upcoming _ _ htext hn
  have h₁ := haccepts "a[i + 1]++;" (G := F) (a := .increment d) (by decide +kernel) (by decide +kernel)
    (by decide +kernel)
  have h₁' := haccepts "a[i + 1] += 1;" (G := F.within (setting "a[i + 1] += 1;"))
    (a := .assign d (.add .plus) .one) (by decide +kernel) (by decide +kernel) (by decide +kernel)
  have h₂ := haccepts "a[i + 1] *= i;" (G := F) (a := .assign d (.multiply .times) i) (by decide +kernel)
    (by decide +kernel) (by decide +kernel)
  exact ⟨_, _, _, h₁, h₁', h₂,
    (designatorStatement_updates (F := F) (hcovers _ _) .nil).1 .increment
      (c := setting "a[i + 1] += 1;") ⟨rfl, by decide +kernel⟩ (hcovers _ _) hresembles h₁ h₁',
    (designatorStatement_updates (F := F) (hcovers _ _) .nil).2 nofun h₂⟩

end MicroJava
