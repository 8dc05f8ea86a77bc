import MicroJava.Production.Program
import MicroJava.Proofs.Run

/-!
# Declarations only add

A declaration of constants, variables or classes leaves all entries of the symbol table as they are,
and the entries that it adds are not methods (`SymbolTable.Adds`). It writes no code, and leaves the
scopes around the innermost one alone (`Declares`).
-/

namespace MicroJava

/-- Entries that are not methods, and types, are added to the table and to its innermost scope. -/
structure SymbolTable.Adds (t t' : SymbolTable) : Prop where
  size : t.entries.size ≤ t'.entries.size
  old : ∀ id, id.index < t.entries.size → t'.entryAt? id = t.entryAt? id
  new : ∀ id e, t.entries.size ≤ id.index → t'.entryAt? id = some e → e.method? = none
  arrays : ∀ i e, t.types.descriptor? i = some (.array e) → t'.types.descriptor? i = some (.array e)
  level : t'.inner.length = t.inner.length
  tail : t'.inner.tail = t.inner.tail
  outermost : t.inner ≠ [] → t'.outermost = t.outermost
  count : t.current.variableCount ≤ t'.current.variableCount

namespace SymbolTable.Adds

variable {t t' t'' : SymbolTable}

theorem refl (t : SymbolTable) : t.Adds t where
  size := Nat.le_refl _
  old := fun _ _ => rfl
  new := fun _ _ hid he => absurd (t.index_lt_of_entryAt? he) (Nat.not_lt.2 hid)
  arrays := fun _ _ => id
  level := rfl
  tail := rfl
  outermost := fun _ => rfl
  count := Nat.le_refl _

theorem trans (h : t.Adds t') (h' : t'.Adds t'') : t.Adds t'' where
  size := Nat.le_trans h.size h'.size
  old := fun id hid => by rw [h'.old id (Nat.lt_of_lt_of_le hid h.size), h.old id hid]
  new := fun id e hid he => by
    by_cases hlt : id.index < t'.entries.size
    · rw [h'.old id hlt] at he
      exact h.new id e hid he
    · exact h'.new id e (Nat.not_lt.1 hlt) he
  arrays := fun i e => h'.arrays i e ∘ h.arrays i e
  level := h'.level.trans h.level
  tail := h'.tail.trans h.tail
  outermost := fun hne => by
    rw [h'.outermost, h.outermost hne]
    intro hnil
    have := h.level
    rw [hnil] at this
    exact hne (List.length_eq_zero_iff.1 this.symm)
  count := Nat.le_trans h.count h'.count

theorem bind {e : Entry} (hm : e.method? = none) : t.Adds (t.bind e).2 where
  size := by simp
  old := fun id hid => by rw [entryAt?_bind, if_neg (by rintro rfl; exact Nat.lt_irrefl _ hid)]
  new := fun id e' hid he' => by
    rw [entryAt?_bind] at he'
    split at he'
    · obtain rfl := Option.some.inj he'
      exact hm
    · exact absurd (t.index_lt_of_entryAt? he') (Nat.not_lt.2 hid)
  arrays := fun _ _ he => by rwa [types_bind]
  level := t.allocate e |>.2.level_updateCurrent _
  tail := by rcases t with ⟨entries, types, _ | ⟨s, outer⟩, outermost⟩ <;> rfl
  outermost := by
    rcases t with ⟨entries, types, _ | ⟨s, outer⟩, outermost⟩
    · exact fun h => absurd rfl h
    · exact fun _ => rfl
  count := by
    have hinsert : ∀ (sc : Scope) (id : EntryId) (b : Bool),
        sc.variableCount ≤ (sc.insert e.name id b).variableCount := by
      intro sc id b
      cases b
      · exact Nat.le_refl _
      · exact Nat.le_succ _
    rcases t with ⟨entries, types, _ | ⟨s, outer⟩, outermost⟩
    · exact hinsert ..
    · exact hinsert ..

theorem declare {category : Category} (hc : category ≠ .method) (name : String) (type : TypeId) :
    t.Adds (t.bind ⟨name, type, t.meaningOf category⟩).2 := by
  refine .bind ?_
  cases category <;> first | rfl | exact absurd rfl hc

theorem withTypes {types : Types} (harrays : ∀ i e,
      t.types.descriptor? i = some (.array e) → types.descriptor? i = some (.array e)) :
    t.Adds { t with types } :=
  ⟨Nat.le_refl _, fun _ _ => rfl, (Adds.refl t).new, harrays, rfl, rfl, fun _ => rfl, Nat.le_refl _⟩

/-- An entry that was added may be changed, as long as it does not become a method. -/
theorem update (h : t.Adds t') {id : EntryId} (hid : id = .none ∨ t.entries.size ≤ id.index)
    {f : Entry → Entry} (hm : ∀ e, e.method? = none → (f e).method? = none) :
    t.Adds (t'.update id f) where
  size := by simpa using h.size
  old := fun id' hid' => by
    rw [entryAt?_update, if_neg, h.old id' hid']
    rintro ⟨rfl, hne⟩
    rcases hid with rfl | hid
    · exact hne rfl
    · omega
  new := fun id' e hid' he => by
    rw [entryAt?_update] at he
    split at he
    · obtain ⟨e', he', rfl⟩ := Option.map_eq_some_iff.1 he
      exact hm e' (h.new id' e' hid' he')
    · exact h.new id' e hid' he
  arrays := by simpa using h.arrays
  level := by simpa using h.level
  tail := by simpa using h.tail
  outermost := by simpa using h.outermost
  count := by simpa [current] using h.count

/-- What is added in a scope of its own is added. -/
theorem inScope (h : t.openScope.Adds t') : t.Adds t'.closeScope.2 := by
  obtain ⟨entries, types, inner, outermost⟩ := t'
  rcases inner with _ | ⟨s, outer⟩
  · have := h.level
    simp [openScope] at this
  · have htail : outer = t.inner := h.tail
    have houter : outermost = t.outermost := h.outermost (by simp [openScope])
    subst htail houter
    exact ⟨h.size, h.old, h.new, h.arrays, rfl, rfl, fun _ => rfl, Nat.le_refl _⟩

end SymbolTable.Adds

/-- Only declarations lie between two sessions. -/
structure Declares (s s' : Session) : Prop where
  table : s.table.Adds s'.table
  sound : s.table.Sound → s'.table.Sound
  assembly : ∃ dataSize, s'.assembly = { s.assembly with dataSize }
  returnType : s'.returnType = s.returnType
  named : s.Named → s'.Named
  mistakes : s.mistakes ≤ s'.mistakes

namespace Declares

variable {s s₁ s' : Session}

theorem refl (s : Session) : Declares s s :=
  ⟨.refl _, id, ⟨_, rfl⟩, rfl, id, Nat.le_refl _⟩

theorem trans (h : Declares s s₁) (h' : Declares s₁ s') : Declares s s' where
  table := h.table.trans h'.table
  sound := h'.sound ∘ h.sound
  assembly := by
    obtain ⟨d, hd⟩ := h.assembly
    obtain ⟨d', hd'⟩ := h'.assembly
    exact ⟨d', by rw [hd', hd]⟩
  returnType := h'.returnType.trans h.returnType
  named := h'.named ∘ h.named
  mistakes := Nat.le_trans h.mistakes h'.mistakes

instance : Std.Refl Declares := ⟨refl⟩

instance : Trans Declares Declares Declares := ⟨trans⟩

theorem advance : Declares s s.advance :=
  ⟨.refl _, id, ⟨_, rfl⟩, rfl, .advance, Nat.le_of_eq s.mistakes_advance.symm⟩

theorem report (least : UInt32) (p : Problem) (details : List String) :
    Declares s (s.report least p details) :=
  ⟨.refl _, id, ⟨_, rfl⟩, rfl, fun h => ⟨h.1, h.2, h.3⟩, by simp⟩

theorem withTable {table : SymbolTable} (h : s.table.Adds table)
    (hs : s.table.Sound → table.Sound) : Declares s { s with table } :=
  ⟨h, hs, ⟨_, rfl⟩, rfl, fun h => ⟨h.1, h.2, h.3⟩, Nat.le_refl _⟩

/-- An entry that was declared may be changed, as long as it does not become a method. -/
theorem update (h : Declares s s') {i : EntryId}
    (hi : i = .none ∨ s.table.entries.size ≤ i.index) {f : Entry → Entry}
    (hm : ∀ e, e.method? = none → (f e).method? = none)
    (hf : s.table.Sound → ∀ e, e.method? = none → e.Sound → (f e).Sound) :
    Declares s { s' with table := s'.table.update i f } where
  table := h.table.update hi hm
  sound := fun hs => (h.sound hs).update fun hne e he hes =>
    hf hs e (h.table.new i e (hi.resolve_left hne) he) hes
  assembly := h.assembly
  returnType := h.returnType
  named := fun hn => by
    have hn' := h.named hn
    exact ⟨hn'.1, hn'.2, hn'.3⟩
  mistakes := h.mistakes

theorem setFields (h : Declares s s') (t : TypeId) {fields : List EntryId}
    (hf : s.table.Sound → ∀ id ∈ fields, id ≠ .none) :
    Declares s { s' with table := s'.table.setFields t fields } where
  table := h.table.trans (.withTypes (Types.array_setFields t fields))
  sound := fun hs => (h.sound hs).setFields t (hf hs)
  assembly := h.assembly
  returnType := h.returnType
  named := fun hn => by
    have hn' := h.named hn
    exact ⟨hn'.1, hn'.2, hn'.3⟩
  mistakes := h.mistakes

/-- What is declared in a scope of its own is declared. -/
theorem inScope (h : Declares { s with table := s.table.openScope } s') :
    Declares s { s' with table := s'.table.closeScope.2 } where
  table := h.table.inScope
  sound := fun hs => (h.sound hs.openScope).closeScope
  assembly := h.assembly
  returnType := h.returnType
  named := fun hn => by
    have hn' := h.named ⟨hn.1, hn.2, hn.3⟩
    exact ⟨hn'.1, hn'.2, hn'.3⟩
  mistakes := h.mistakes

end Declares

/-! ### Declarations of constants, variables and classes -/

namespace Production

variable {c : Setting} {s s' : Session}

theorem declares_advance : Keeps c Declares advance := by
  intro s u s' h
  rw [runs_advance.1 h]
  exact .advance

theorem declares_report {p : Problem} {details : List String} :
    Keeps c Declares (report p details) := by
  intro s u s' h
  rw [runs_report.1 h]
  exact .report ..

theorem declares_resume : Keeps c Declares resume := by
  intro s u s' h
  rw [runs_resume.1 h]
  exact ⟨.refl _, id, ⟨_, rfl⟩, rfl, fun h => ⟨h.1, h.2, h.3⟩,
    Nat.le_of_eq s.mistakes_resume.symm⟩

theorem declares_reportIf {mistake : Prop} [Decidable mistake] {p : Problem}
    {details : List String} : Keeps c Declares (reportIf mistake p details) :=
  .ite (fun _ => declares_report) fun _ => .pure ()

theorem declares_expect {k : Token.Kind} : Keeps c Declares (expect k) :=
  .bind .check fun _ => .ite (fun _ => declares_advance) fun _ => declares_report

theorem declares_identifier : Keeps c Declares identifier := by
  refine .bind .check fun _ => .ite (fun _ => ?_) fun _ => ?_
  · exact .bind declares_advance fun _ => .bind .get fun _ => .pure _
  · exact .bind declares_report fun _ => .pure _

theorem declares_find {name : String} : Keeps c Declares (find name) := by
  intro s id s' h
  rcases runs_find.1 h with ⟨-, -, rfl⟩ | ⟨-, -, -, rfl⟩ | ⟨-, -, rfl⟩
  · exact .refl _
  · exact .report ..
  · exact .refl _

theorem declares_namedType : Keeps c Declares namedType := by
  refine .bind declares_identifier fun name => .bind declares_find fun id => ?_
  refine .bind (.look fun _ _ _ hrun => (runs_entry.1 hrun).2) fun e => ?_
  exact .ite (fun _ => .pure _) fun _ => .bind declares_reportIf fun _ => .pure _

theorem declares_arrayOf {t : TypeId} : Keeps c Declares (arrayOf t) := by
  intro s t' s' h
  rw [(runs_arrayOf.1 h).2]
  exact .withTable (.withTypes fun i e => Types.descriptor?_push _ i _) fun hs => hs.arrayOf t

theorem declares_type : Keeps c Declares type := by
  refine .bind declares_namedType fun t => .bind .check fun _ => .ite (fun _ => ?_) fun _ => .pure _
  exact .bind declares_advance fun _ => .bind declares_expect fun _ => declares_arrayOf

/-- A name that is declared stands for a new entry, if it could be declared. -/
theorem declares_declare {s₁ : Session} {category : Category} {name : String} {type : TypeId}
    {id : EntryId} (h₁ : Declares s s₁) (hc : category ≠ .method)
    (htype : s.table.Sound → category = .typeName → type ≠ .none)
    (h : Runs c (declare category name type) s₁ id s') :
    Declares s s' ∧ (id = .none ∨ s.table.entries.size ≤ id.index) := by
  rcases runs_declare.1 h with ⟨-, rfl, rfl⟩ | ⟨-, -, rfl, rfl⟩ | ⟨-, -, rfl, rfl⟩
  · exact ⟨h₁, .inl rfl⟩
  · exact ⟨h₁.trans (.report ..), .inl rfl⟩
  · refine ⟨⟨h₁.table.trans (.declare hc name type), fun hs => (h₁.sound hs).bind ?_, h₁.assembly,
      h₁.returnType, fun hn => ?_, h₁.mistakes⟩, .inr h₁.table.size⟩
    · cases category
      · trivial
      · trivial
      · exact htype hs rfl
      · exact absurd rfl hc
      · trivial
    · have hn' := h₁.named hn
      exact ⟨hn'.1, hn'.2, hn'.3⟩

theorem declares_constantDeclaration : Keeps c Declares constantDeclaration := by
  intro s u s' h
  simp only [constantDeclaration, constantValue, runs_bind] at h
  obtain ⟨_, s₁, h₁, t, s₂, h₂, name, s₃, h₃, id, s₄, h₄, _, s₅, h₅, _, s₆, h₆, h₇⟩ := h
  have h₀₃ := ((declares_advance h₁).trans (declares_type h₂)).trans (declares_identifier h₃)
  obtain ⟨h₀₄, hid⟩ := declares_declare h₀₃ (by simp) (fun _ h => by simp at h) h₄
  have h₀₅ := h₀₄.trans (declares_expect h₅)
  refine .trans ?_ (declares_expect h₇)
  simp only [runs_peek] at h₆
  obtain ⟨_, _, ⟨rfl, rfl⟩, h₆⟩ := h₆
  split at h₆
  · simp only [runs_bind, runs_literal, runs_updateEntry] at h₆
    obtain ⟨_, s₇, h₆, _, _, ⟨rfl, rfl⟩, rfl⟩ := h₆
    have h₀₇ := (h₀₅.trans (declares_reportIf h₆)).trans .advance
    exact h₀₇.update hid (fun _ _ => rfl) fun _ _ _ _ => trivial
  · exact h₀₅.trans (declares_report h₆)

theorem declares_countGlobal {id : EntryId} : Keeps c Declares (countGlobal id) := by
  refine .bind (.look fun _ _ _ hrun => (runs_table.1 hrun).2) fun t => .ite (fun _ => ?_) fun _ =>
    .pure ()
  intro s u s' h
  obtain ⟨assembly, hs, rfl⟩ := runs_write.1 h
  obtain rfl := Emission.succeeds_modify.1 hs
  exact ⟨.refl _, fun h => h, ⟨_, rfl⟩, rfl, fun h => ⟨h.1, h.2, h.3⟩, Nat.le_refl _⟩

theorem declares_var {name : String} {t : TypeId} : Keeps c Declares (declare .var name t) :=
  fun _ _ _ h => (declares_declare (.refl _) (by simp) (fun _ h => by simp at h) h).1

theorem declares_variableName {t : TypeId} : Keeps c Declares (variableName t) := by
  refine .bind declares_identifier fun name => .bind declares_var fun id => ?_
  refine .bind declares_countGlobal fun _ => .bind .check fun _ => .ite (fun _ => ?_) fun _ => .pure _
  exact .bind declares_advance fun _ => .pure _

theorem declares_variableDeclaration : Keeps c Declares variableDeclaration :=
  .bind declares_type fun _ => .bind (.repeatWhile declares_variableName) fun _ => declares_expect

theorem declares_variableDeclarations : Keeps c Declares variableDeclarations :=
  .repeatWhile <| .bind .check fun _ => .ite (fun _ => .bind declares_variableDeclaration fun _ =>
    .pure _) fun _ => .pure _

/-- A new class may be declared under its name, and gets its fields behind them. -/
theorem declares_classDeclaration : Keeps c Declares classDeclaration := by
  intro s u s' h
  simp only [classDeclaration, runs_bind] at h
  obtain ⟨_, s₁, h₁, name, s₂, h₂, t, s₃, h₃, _, s₄, h₄, _, s₅, h₅, _, s₆, h₆, _, s₇, h₇, h⟩ := h
  obtain ⟨_, _, hread, _, _, htable, _, s₈, h₈, fields, s₉, h₉, _, s₁₀, h₁₀, _, s₁₁, h₁₁, h₁₂⟩ := h
  obtain ⟨-, rfl⟩ := runs_read.1 hread
  obtain ⟨-, rfl⟩ := runs_table.1 htable
  obtain ⟨ht, rfl⟩ := runs_modifyGet.1 h₃
  obtain ⟨id, h₄⟩ := runs_discard.1 h₄
  obtain rfl := runs_openScope.1 h₆
  obtain ⟨hfields, rfl⟩ := runs_closeScope.1 h₉
  obtain ⟨_, h₁₀⟩ := runs_discard.1 h₁₀
  obtain ⟨-, rfl⟩ := runs_descriptor.1 h₁₀
  obtain rfl := runs_updateTable.1 h₁₁
  have h₀₂ : Declares s s₂ := (declares_advance h₁).trans (declares_identifier h₂)
  have h₀₃ := h₀₂.trans (.withTable (.withTypes fun i e => Types.descriptor?_push _ i _) fun hs => hs.newClass)
  have ht : s.table.Sound → t ≠ .none := fun hs => by
    have := (h₀₂.sound hs).types
    rintro rfl
    have h0 : 0 = s₂.table.types.descriptors.size := congrArg TypeId.index ht
    omega
  obtain ⟨h₀₄, -⟩ := declares_declare h₀₃ (by simp) (fun hs _ => ht hs) h₄
  have h₀₅ := h₀₄.trans (declares_expect h₅)
  have h₅₈ : Declares { s₅ with table := s₅.table.openScope } s₈ :=
    (declares_variableDeclarations h₇).trans (declares_reportIf h₈)
  refine .trans ((h₀₅.trans h₅₈.inScope).setFields t fun hs => ?_) (declares_expect h₁₂)
  rw [hfields]
  exact fun id => (h₅₈.sound (h₀₅.sound hs).openScope).mem_closeScope

/-! ### Parameters -/

theorem declares_resultType : Keeps c Declares resultType := by
  refine .bind .check fun _ => .ite (fun _ => ?_) fun _ => declares_type
  exact .bind declares_advance fun _ => .pure _

theorem declares_parameter : Keeps c Declares (parameter ()) := by
  intro s r s' h
  simp only [parameter, runs_bind] at h
  obtain ⟨t, s₁, h₁, name, s₂, h₂, id, s₃, h₃, isLast, s₄, h₄, h⟩ := h
  have h₀₂ : Declares s s₂ := (declares_type h₁).trans (declares_identifier h₂)
  obtain ⟨h₀₃, hid⟩ := declares_declare h₀₂ (by simp) (fun _ h => by simp at h) h₃
  obtain ⟨-, rfl⟩ := runs_check.1 h₄
  rcases isLast with _ | _
  · simp only [Bool.false_eq_true, if_false, runs_bind, runs_check] at h
    obtain ⟨more, _, ⟨-, rfl⟩, h⟩ := h
    rcases more with _ | _
    · obtain ⟨-, rfl⟩ := runs_pure.1 h
      exact h₀₃
    · simp only [if_true, runs_bind, runs_advance] at h
      obtain ⟨_, _, rfl, h⟩ := h
      obtain ⟨-, rfl⟩ := runs_pure.1 h
      exact h₀₃.trans .advance
  · simp only [if_true, runs_bind, runs_advance, runs_updateEntry] at h
    obtain ⟨_, _, rfl, array, s₅, h₅, _, _, rfl, h⟩ := h
    obtain ⟨-, rfl⟩ := runs_pure.1 h
    have h₀₅ := (h₀₃.trans .advance).trans (declares_arrayOf h₅)
    refine h₀₅.update hid (fun e he => he) fun hs e he hes => ?_
    have harray : array ≠ .none := by
      have := (h₀₃.sound hs).types
      rintro rfl
      have h0 : 0 = s₄.table.types.descriptors.size := congrArg TypeId.index (runs_arrayOf.1 h₅).1
      omega
    obtain ⟨name, type, meaning⟩ := e
    cases meaning with
    | typeName => exact harray
    | _ => exact hes

theorem declares_parameters : Keeps c Declares parameters :=
  .bind .check fun _ => .ite (fun _ => .loop (fun _ => declares_parameter) ()) fun _ => .pure _

/-! ### Recovery -/

theorem declares_skipUntil {found : Production Bool} (hf : Keeps c Declares found) :
    Keeps c Declares (skipUntil found) :=
  .repeatWhile <| .bind declares_advance fun _ => .bind hf fun _ => .pure _

theorem declares_atTypeName : Keeps c Declares atTypeName := by
  refine .bind .get fun s => .ite (fun _ => .pure _) fun _ => ?_
  refine .bind (.look fun _ _ _ hrun => (runs_table.1 hrun).2) fun t => ?_
  split
  · exact .pure _
  · exact .bind (.look fun _ _ _ hrun => (runs_entry.1 hrun).2) fun e => .pure _

theorem declares_recoverDeclaration : Keeps c Declares recoverDeclaration := by
  refine .bind declares_report fun _ => .bind (declares_skipUntil ?_) fun _ => declares_resume
  refine .bind .checkAny fun _ => .ite (fun _ => .pure _) fun _ => .bind .get fun s => ?_
  exact .ite (fun _ => .pure _) fun _ => declares_atTypeName

theorem declares_recoverMethod : Keeps c Declares recoverMethod :=
  .bind declares_report fun _ => .bind (declares_skipUntil .checkAny) fun _ => declares_resume

theorem declares_declarations : Keeps c Declares declarations := by
  refine .repeatWhile (.bind .peek fun k => ?_)
  split
  · exact .bind declares_constantDeclaration fun _ => .pure _
  · exact .bind declares_classDeclaration fun _ => .pure _
  · exact .bind declares_variableDeclaration fun _ => .pure _
  · exact .pure _
  · exact .pure _
  · exact .bind declares_recoverDeclaration fun _ => .pure _

end Production

end MicroJava
