import MicroJava.Production.Statement
import MicroJava.Proofs.SafeExpression

/-!
# Statements never go wrong

A statement defines each label that it makes, and so leaves the labels that are not defined yet as
they were (`Safe.nestedStatement`): a condition hands two labels to the statement around it, which
defines one in front of its body and one behind. Each statement takes a token, so the statements of a
block come to an end.
-/

namespace MicroJava.Production

/-- With fewer than `n` tokens left, the production defines each label that it makes. The label behind
the loop around it, if there is one, exists. -/
def Closes (c : Setting) (n : Nat) (m : Option Label → Production Unit) : Prop :=
  ∀ ⦃L : Set Label⦄ ⦃s : Session⦄ ⦃exit : Option Label⦄, s.Healthy c L → s.left < n →
    (∀ l, exit = some l → l.index < s.assembly.labels.size) →
      Safe c s (m exit) (fun _ => L) fun _ s' =>
        s.current.kind ≠ .endOfFile → s'.left < s.left

namespace Safe

variable {c : Setting} {L : Set Label} {s : Session}

/-! ### Statements that start with a designator -/

section

variable (hs : s.Healthy c L)

include hs

theorem place : Safe c s (Production.designator Production.expression) (fun _ => L) fun x s' =>
    x.IsKnown s'.table ∧ (s.current.kind = .identifier → s'.left < s.left) := by
  have := hs.left
  exact (designator hs Gives.expression (by omega) (.inr (by omega))).mono
    fun x s' _ h => ⟨h.1, h.2.2⟩

theorem loadOldValue {x : Operand} {operator : Option Opcode} :
    Safe c s (loadOldValue x operator) (fun _ => L) fun _ _ => True := by
  refine .ite (fun _ => .pure hs trivial) fun _ => .ite (fun _ => ?_) fun _ => ?_
  · exact attempt hs (Emission.plain_loadForUpdate x)
  · exact (report hs).mono fun _ _ _ _ => trivial

theorem assignValue {x y : Operand} {operator : Option Opcode} (hx : x.IsKnown s.table)
    (hy : y.IsKnown s.table) :
    Safe c s (assignValue x y operator) (fun _ => L) fun _ _ => True := by
  refine (fits hs hy hx.type).bind fun _ s₁ hs₁ _ heq => ?_
  subst heq
  refine .ite (fun _ => ?_) fun _ => (report hs₁).mono fun _ _ _ _ => trivial
  exact attempt hs₁ (Emission.plain_assign x y operator)

theorem assignment {x : Operand} {operator : Option Opcode} (hx : x.IsKnown s.table) :
    Safe c s (assignment x operator) (fun _ => L) fun _ _ => True := by
  refine (loadOldValue hs).bind fun _ s₁ hs₁ hp₁ _ => (expression hs₁).bind fun y s₂ hs₂ hp₂ hy => ?_
  refine (reportIf hs₂).bind fun _ s₃ hs₃ hp₃ _ => ?_
  exact assignValue hs₃ (hx.grows ((hp₁.trans hp₂).trans hp₃).table) (hy.grows hp₃.table)

theorem increment {x : Operand} {step : Int32} :
    Safe c s (increment x step) (fun _ => L) fun _ _ => True := by
  refine .ite (fun _ => (report hs).mono fun _ _ _ _ => trivial) fun _ => ?_
  split
  · exact writePlain hs (Emission.plain_emit _ _) (Emission.total_emit _ _)
  · exact attempt hs (Emission.plain_incrementPlace x step)

theorem callAlone {x : Operand} (hx : x.IsKnown s.table) :
    Safe c s (callAlone x) (fun _ => L) fun _ _ => True := by
  have := hs.left
  refine (call hs Gives.expression (by omega) hx).bind fun y s₁ hs₁ _ _ => ?_
  exact .ite (fun _ => emit hs₁) fun _ => .pure hs₁ trivial

theorem designatorAction {x : Operand} (hx : x.IsKnown s.table) :
    Safe c s (designatorAction x) (fun _ => L) fun _ _ => True := by
  refine .peek ?_
  split
  · exact (advance hs).bind fun _ s₁ hs₁ hp₁ _ => assignment hs₁ (hx.grows hp₁.table)
  · split
    · exact callAlone hs hx
    · exact (advance hs).bind fun _ s₁ hs₁ _ _ => increment hs₁
    · exact (advance hs).bind fun _ s₁ hs₁ _ _ => increment hs₁
    · exact (report hs).mono fun _ _ _ _ => trivial

theorem designatorStatement (hk : s.current.kind = .identifier) :
    Safe c s designatorStatement (fun _ => L) fun _ s' => s'.left < s.left := by
  refine (place hs).bind fun x s₁ hs₁ hp₁ ⟨hx, htake⟩ => ?_
  refine (designatorAction hs₁ hx).bind fun _ s₂ hs₂ hp₂ _ => (expect hs₂).mono fun _ s₃ hp₃ _ => ?_
  exact Nat.lt_of_le_of_lt (hp₂.trans hp₃).left (htake hk)

/-! ### Statements that start with a word -/

/-- Behind a condition, only its false label is left to define. -/
theorem guardCondition : Safe c s guardCondition (fun b => insert b.whenFalse L)
    fun b _ => b.whenFalse ∉ L := by
  refine (expect hs).bind fun _ s₁ hs₁ _ _ => (condition hs₁).bind fun b s₂ hs₂ _ ⟨htrue, hfalse⟩ => ?_
  refine (expect hs₂).bind fun _ s₃ hs₃ _ _ => ?_
  refine (jumpTo hs₃ (hs₃.index_lt (Set.mem_insert ..))).bind fun _ s₄ hs₄ _ _ => ?_
  have hne : b.whenTrue ≠ b.whenFalse := fun h => hfalse (h ▸ Set.mem_insert ..)
  have hs₄ : s₄.Healthy c (insert b.whenTrue (insert b.whenFalse L)) :=
    Set.insert_comm b.whenFalse b.whenTrue L ▸ hs₄
  refine (define hs₄ (by simp [hne, htrue])).bind fun _ s₅ hs₅ _ _ => .pure hs₅ fun hmem => ?_
  exact hfalse (Set.mem_insert_of_mem _ hmem)

end

section Nested

variable {n : Nat} {statement : Option Label → Production Unit} {exit : Option Label}

theorem ifStatement (hst : Closes c n statement) (hs : s.Healthy c L) (hn : s.left ≤ n)
    (hk : s.current.kind ≠ .endOfFile)
    (hexit : ∀ l, exit = some l → l.index < s.assembly.labels.size) :
    Safe c s (ifStatement statement exit) (fun _ => L) fun _ s' => s'.left < s.left := by
  refine (advance hs).bind fun _ s₁ hs₁ hp₁ ⟨_, hleft⟩ => ?_
  refine mono (Q := fun _ _ => True) ?_ fun _ s' hp _ => Nat.lt_of_le_of_lt hp.left (hleft hk)
  have hn₁ : s₁.left < n := Nat.lt_of_lt_of_le (hleft hk) hn
  refine (guardCondition hs₁).bind fun b s₂ hs₂ hp₂ hb => ?_
  refine (hst hs₂ (Nat.lt_of_le_of_lt hp₂.left hn₁) fun l hl =>
    Nat.lt_of_lt_of_le (hexit l hl) (hp₁.trans hp₂).labels).bind fun _ s₃ hs₃ hp₃ _ => ?_
  refine .check (fun _ => ?_) fun _ => define hs₃ hb
  refine (advance hs₃).bind fun _ s₄ hs₄ hp₄ _ => (newLabel hs₄).bind fun behind s₅ hs₅ hp₅ hbehind => ?_
  refine (jumpTo hs₅ (hs₅.index_lt (Set.mem_insert ..))).bind fun _ s₆ hs₆ hp₆ _ => ?_
  have hne : b.whenFalse ≠ behind := fun h => hbehind (h ▸ Set.mem_insert ..)
  have hs₆ : s₆.Healthy c (insert b.whenFalse (insert behind L)) :=
    Set.insert_comm behind b.whenFalse L ▸ hs₆
  refine (define hs₆ (by simp [hne, hb])).bind fun _ s₇ hs₇ hp₇ _ => ?_
  have hp₁₇ := hp₂.trans ((hp₃.trans hp₄).trans ((hp₅.trans hp₆).trans hp₇))
  refine (hst hs₇ (Nat.lt_of_le_of_lt hp₁₇.left hn₁) fun l hl =>
    Nat.lt_of_lt_of_le (hexit l hl) (hp₁.trans hp₁₇).labels).bind fun _ s₈ hs₈ _ _ => ?_
  exact define hs₈ fun hmem => hbehind (Set.mem_insert_of_mem _ hmem)

theorem whileStatement (hst : Closes c n statement) (hs : s.Healthy c L) (hn : s.left ≤ n)
    (hk : s.current.kind ≠ .endOfFile) :
    Safe c s (whileStatement statement) (fun _ => L) fun _ s' => s'.left < s.left := by
  refine (advance hs).bind fun _ s₁ hs₁ hp₁ ⟨_, hleft⟩ => ?_
  refine mono (Q := fun _ _ => True) ?_ fun _ s' hp _ => Nat.lt_of_le_of_lt hp.left (hleft hk)
  have hn₁ : s₁.left < n := Nat.lt_of_lt_of_le (hleft hk) hn
  refine (newLabel hs₁).bind fun top s₂ hs₂ hp₂ htop => ?_
  have htop₂ := hs₂.index_lt (Set.mem_insert top L)
  refine (define hs₂ htop).bind fun _ s₃ hs₃ hp₃ _ => (guardCondition hs₃).bind fun b s₄ hs₄ hp₄ hb => ?_
  refine (newLabel hs₄).bind fun exit s₅ hs₅ hp₅ hexit => ?_
  have hp₂₅ := (hp₃.trans hp₄).trans hp₅
  refine (hst hs₅ (Nat.lt_of_le_of_lt (hp₂.trans hp₂₅).left hn₁) fun l hl => ?_).bind
    fun _ s₆ hs₆ hp₆ _ => ?_
  · obtain rfl := Option.some.inj hl
    exact hs₅.index_lt (Set.mem_insert ..)
  refine (jumpTo hs₆ (Nat.lt_of_lt_of_le htop₂ (hp₂₅.trans hp₆).labels)).bind fun _ s₇ hs₇ _ _ => ?_
  have hne : b.whenFalse ≠ exit := fun h => hexit (h ▸ Set.mem_insert ..)
  have hs₇ : s₇.Healthy c (insert b.whenFalse (insert exit L)) :=
    Set.insert_comm exit b.whenFalse L ▸ hs₇
  refine (define hs₇ (by simp [hne, hb])).bind fun _ s₈ hs₈ _ _ => ?_
  exact define hs₈ fun hmem => hexit (Set.mem_insert_of_mem _ hmem)

theorem breakStatement (hs : s.Healthy c L) (hk : s.current.kind ≠ .endOfFile)
    (hexit : ∀ l, exit = some l → l.index < s.assembly.labels.size) :
    Safe c s (breakStatement exit) (fun _ => L) fun _ s' => s'.left < s.left := by
  refine (advance hs).bind fun _ s₁ hs₁ hp₁ ⟨_, hleft⟩ => ?_
  refine mono (Q := fun _ _ => True) ?_ fun _ s' hp _ => Nat.lt_of_le_of_lt hp.left (hleft hk)
  have hexpect : ∀ s₂, s₂.Healthy c L →
      Safe c s₂ (Production.expect .semicolon) (fun _ => L) fun _ _ => True :=
    fun s₂ hs₂ => (expect hs₂).mono fun _ _ _ _ => trivial
  rcases exit with _ | label
  · exact (report hs₁).bind fun _ s₂ hs₂ _ _ => hexpect s₂ hs₂
  · refine (jumpTo hs₁ ?_).bind fun _ s₂ hs₂ _ _ => hexpect s₂ hs₂
    exact Nat.lt_of_lt_of_le (hexit label rfl) hp₁.labels

end Nested

section

variable (hs : s.Healthy c L)

include hs

theorem returnOperand {x : Operand} {ty : TypeId} (hx : x.IsKnown s.table)
    (hty : ty.IsKnown s.table) :
    Safe c s (returnOperand x ty) (fun _ => L) fun _ _ => True := by
  refine .ite (fun _ => (report hs).mono fun _ _ _ _ => trivial) fun _ => ?_
  refine (fits hs hx hty).bind fun _ s₁ hs₁ _ _ => (load hs₁).bind fun _ s₂ hs₂ _ _ => ?_
  exact (reportIf hs₂).mono fun _ _ _ _ => trivial

theorem returnValue {ty : TypeId} (hty : ty.IsKnown s.table) :
    Safe c s (returnValue ty) (fun _ => L) fun _ _ => True := by
  refine .checkAny (fun _ => ?_) fun _ => (reportIf hs).mono fun _ _ _ _ => trivial
  exact (expression hs).bind fun x s₁ hs₁ hp₁ hx => returnOperand hs₁ hx (hp₁.table.type hty)

theorem returnStatement (hk : s.current.kind ≠ .endOfFile) :
    Safe c s returnStatement (fun _ => L) fun _ s' => s'.left < s.left := by
  refine (advance hs).bind fun _ s₁ hs₁ hp₁ ⟨_, hleft⟩ => .get ?_
  refine mono (Q := fun _ _ => True) ?_ fun _ s' hp _ => Nat.lt_of_le_of_lt hp.left (hleft hk)
  refine (returnValue hs₁ hs₁.returnType).bind fun _ s₂ hs₂ _ _ => ?_
  refine (emit hs₂).bind fun _ s₃ hs₃ _ _ => (emit hs₃).bind fun _ s₄ hs₄ _ _ => ?_
  exact (expect hs₄).mono fun _ _ _ _ => trivial

theorem readInto {x : Operand} : Safe c s (readInto x) (fun _ => L) fun _ _ => True := by
  unfold Production.readInto
  split
  · exact (emit hs).bind fun _ s₁ hs₁ _ _ => attempt hs₁ (Emission.plain_store x)
  · exact (report hs).mono fun _ _ _ _ => trivial

theorem readStatement (hk : s.current.kind ≠ .endOfFile) :
    Safe c s readStatement (fun _ => L) fun _ s' => s'.left < s.left := by
  refine (advance hs).bind fun _ s₁ hs₁ hp₁ ⟨_, hleft⟩ => ?_
  refine mono (Q := fun _ _ => True) ?_ fun _ s' hp _ => Nat.lt_of_le_of_lt hp.left (hleft hk)
  refine (expect hs₁).bind fun _ s₂ hs₂ _ _ => (place hs₂).bind fun x s₃ hs₃ _ _ => ?_
  refine (readInto hs₃).bind fun _ s₄ hs₄ _ _ => (expect hs₄).bind fun _ s₅ hs₅ _ _ => ?_
  exact (expect hs₅).mono fun _ _ _ _ => trivial

theorem printWidth : Safe c s printWidth (fun _ => L) fun _ _ => True := by
  refine .read (.check (fun _ => ?_) fun _ => .pure hs trivial)
  refine (advance hs).bind fun _ s₁ hs₁ _ _ => .check (fun _ => ?_) fun _ => ?_
  · exact (literal hs₁).mono fun _ _ _ _ => trivial
  · exact (expect hs₁).bind fun _ s₂ hs₂ _ _ => .pure hs₂ trivial

theorem emitPrint {ty : TypeId} : Safe c s (emitPrint ty) (fun _ => L) fun _ _ => True := by
  unfold Production.emitPrint
  split
  · exact emit hs
  · exact .pure hs trivial

theorem printStatement (hk : s.current.kind ≠ .endOfFile) :
    Safe c s printStatement (fun _ => L) fun _ s' => s'.left < s.left := by
  refine (advance hs).bind fun _ s₁ hs₁ hp₁ ⟨_, hleft⟩ => ?_
  refine mono (Q := fun _ _ => True) ?_ fun _ s' hp _ => Nat.lt_of_le_of_lt hp.left (hleft hk)
  refine (expect hs₁).bind fun _ s₂ hs₂ _ _ => (expression hs₂).bind fun x s₃ hs₃ _ _ => ?_
  refine (reportIf hs₃).bind fun _ s₄ hs₄ _ _ => (load hs₄).bind fun _ s₅ hs₅ _ _ => ?_
  refine (printWidth hs₅).bind fun v s₆ hs₆ _ _ => ?_
  refine (writePlain hs₆ (Emission.plain_constant v) (Emission.total_emit _ _)).bind
    fun _ s₇ hs₇ _ _ => (emitPrint hs₇).bind fun _ s₈ hs₈ _ _ => ?_
  exact (expect hs₈).bind fun _ s₉ hs₉ _ _ => (expect hs₉).mono fun _ _ _ _ => trivial

/-! ### Recovery -/

/-- Skipping tokens ends at the end of the file. The first token is skipped in any case, so it is
the only one that may be the end of the file. -/
theorem skipUntil {found : Production Bool}
    (hfound : ∀ s₁, s₁.Healthy c L → Safe c s₁ found (fun _ => L) fun b s' =>
      s' = s₁ ∧ (b = false → s₁.current.kind ≠ .endOfFile)) :
    Safe c s (skipUntil found) (fun _ => L) fun _ s' =>
      s.current.kind ≠ .endOfFile → s'.left < s.left := by
  -- one turn: a token is skipped, and if the place is not found, another one follows
  have hturn : ∀ s₁, s₁.Healthy c L →
      Safe c s₁ (do Production.advance; return !(← found)) (fun _ => L) fun more s₂ =>
        (more = true → s₂.current.kind ≠ .endOfFile) ∧
          (s₁.current.kind ≠ .endOfFile → s₂.left < s₁.left) := by
    intro s₁ hs₁
    refine (advance hs₁).bind fun _ s₂ hs₂ _ ⟨_, hleft⟩ => ?_
    refine (hfound s₂ hs₂).bind fun b s₃ hs₃ _ ⟨heq, hb⟩ => .pure hs₃ ?_
    subst heq
    exact ⟨fun h => hb (by simpa using h), hleft⟩
  have hbound := hs.left
  obtain ⟨n, hn⟩ : ∃ n, c.bound = n + 1 := ⟨c.bound - 1, by omega⟩
  refine .read ?_
  rw [hn]
  refine bind (K := fun _ => L) (Q := fun r s₁ => (r = .inl () → s₁.current.kind ≠ .endOfFile) ∧
    (s.current.kind ≠ .endOfFile → s₁.left < s.left)) ?_ fun r s₁ hs₁ hp₁ ⟨hmore, hleft⟩ => ?_
  · refine (hturn s hs).bind fun more s₁ hs₁ _ h => .pure hs₁ ⟨fun heq => h.1 ?_, h.2⟩
    rcases more with _ | _ <;> simp at heq ⊢
  refine mono (Q := fun _ _ => True) ?_ fun _ s' hp _ hk => Nat.lt_of_le_of_lt hp.left (hleft hk)
  rcases r with ⟨⟩ | ⟨⟩
  · refine iterate (s := s₁) (I := fun _ s₂ => s₂.current.kind ≠ .endOfFile) (K := fun _ => L)
      (fun _ s₂ hs₂ _ hk => ?_) n () s₁ hs₁ (.refl s₁) (hmore rfl) ?_
    · refine (hturn s₂ hs₂).bind fun more s₃ hs₃ _ h => ?_
      rcases more with _ | _
      · exact .pure hs₃ trivial
      · exact .pure hs₃ ⟨h.2 hk, h.1 rfl⟩
    · have := hp₁.left
      omega
  · exact .pure hs₁ trivial

/-- The end of the file is one of the tokens that are looked for. -/
theorem stops {ks : Token.KindSet} (hend : ks.contains .endOfFile = true) :
    Safe c s (Production.checkAny ks) (fun _ => L) fun b s' =>
      s' = s ∧ (b = false → s.current.kind ≠ .endOfFile) := by
  refine of_runs (runs_checkAny.2 ⟨rfl, rfl⟩) ⟨hs, .refl s⟩ ⟨rfl, fun h hk => ?_⟩
  rw [hk, hend] at h
  simp at h

theorem recoverStatement : Safe c s recoverStatement (fun _ => L) fun _ s' =>
    s.current.kind ≠ .endOfFile → s'.left < s.left := by
  refine (report hs).bind fun _ s₁ hs₁ _ ⟨hleft₁, hcurrent⟩ => ?_
  refine (skipUntil hs₁ fun s₂ hs₂ => stops hs₂ (by decide)).bind fun _ s₂ hs₂ hp₂ hleft => ?_
  refine (takeIf hs₂).bind fun _ s₃ hs₃ hp₃ _ => (resume hs₃).mono fun _ s₄ hp₄ _ hk => ?_
  rw [← hleft₁]
  exact Nat.lt_of_le_of_lt (hp₃.trans hp₄).left (hleft (hcurrent ▸ hk))

end

/-! ### Blocks -/

theorem blockOf {n : Nat} {statement : Option Label → Production Unit} {exit : Option Label}
    (hst : Closes c n statement) (hs : s.Healthy c L) (hn : s.left ≤ n)
    (hbrace : s.current.kind = .leftBrace ∨ s.left < n)
    (hexit : ∀ l, exit = some l → l.index < s.assembly.labels.size) :
    Safe c s (blockOf statement exit) (fun _ => L) fun _ s' =>
      s.current.kind = .leftBrace → s'.left < s.left := by
  refine (expect hs).bind fun _ s₁ hs₁ hp₁ hleft => ?_
  have hn₁ : s₁.left < n := by
    rcases hbrace with hk | hlt
    · exact Nat.lt_of_lt_of_le (hleft (by decide) hk) hn
    · exact Nat.lt_of_le_of_lt hp₁.left hlt
  refine mono (Q := fun _ _ => True) ?_ fun _ s' hp _ hk =>
    Nat.lt_of_le_of_lt hp.left (hleft (by decide) hk)
  refine (repeatWhile (fun s₂ hs₂ hp₂ => ?_) hs₁).bind fun _ s₂ hs₂ _ _ =>
    (expect hs₂).mono fun _ _ _ _ => trivial
  refine .peek ?_
  split
  · exact .pure hs₂ (by simp)
  · exact .pure hs₂ (by simp)
  · next hk =>
    refine (hst hs₂ (Nat.lt_of_le_of_lt hp₂.left hn₁) fun l hl =>
      Nat.lt_of_lt_of_le (hexit l hl) (hp₁.trans hp₂).labels).bind fun _ s₃ hs₃ _ h => ?_
    exact .pure hs₃ fun _ => h hk

theorem statementOf {n : Nat} {statement : Option Label → Production Unit}
    (hst : Closes c n statement) : Closes c (n + 1) (statementOf statement) := by
  intro L s exit hs hn hexit
  have hn : s.left ≤ n := Nat.le_of_lt_succ hn
  refine .peek ?_
  split
  · next hk => exact (designatorStatement hs hk).mono fun _ _ _ h _ => h
  · next hk => exact (ifStatement hst hs hn (by simp [hk]) hexit).mono fun _ _ _ h _ => h
  · next hk => exact (whileStatement hst hs hn (by simp [hk])).mono fun _ _ _ h _ => h
  · next hk => exact (breakStatement hs (by simp [hk]) hexit).mono fun _ _ _ h _ => h
  · next hk => exact (returnStatement hs (by simp [hk])).mono fun _ _ _ h _ => h
  · next hk => exact (readStatement hs (by simp [hk])).mono fun _ _ _ h _ => h
  · next hk => exact (printStatement hs (by simp [hk])).mono fun _ _ _ h _ => h
  · next hk => exact (blockOf hst hs hn (.inl hk) hexit).mono fun _ _ _ h _ => h hk
  · exact (advance hs).mono fun _ _ _ h hk => h.2 hk
  · exact recoverStatement hs

theorem nestedStatement : ∀ depth, Closes c depth (nestedStatement depth)
  | 0 => fun _ _ _ _ hn _ => absurd hn (Nat.not_lt_zero _)
  | depth + 1 => statementOf (nestedStatement depth)

theorem block (hs : s.Healthy c L) : Safe c s block (fun _ => L) fun _ _ => True := by
  have := hs.left
  refine .read ((blockOf (nestedStatement c.bound) hs (by omega) (.inr (by omega)) ?_).mono
    fun _ _ _ _ => trivial)
  simp

end Safe

end MicroJava.Production
