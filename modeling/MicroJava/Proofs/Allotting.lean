import MicroJava.Proofs.Slots

/-!
# Declarations allot slots

Declarations of any kind keep the variables numbered (`Session.Numbered`), and the number of global
variables that the assembler has counted is that of the variables in the scope of the program,
whatever is declared twice, without a name, or behind skipped tokens.
-/

namespace MicroJava

namespace Session

/-- The tokens and the journal may change, but nothing is declared and nothing is written. -/
structure Idles (s s' : Session) : Prop where
  table : s'.table = s.table
  assembly : s'.assembly = s.assembly
  mistakes : s.mistakes ≤ s'.mistakes

theorem Idles.refl (s : Session) : s.Idles s := ⟨rfl, rfl, Nat.le_refl _⟩

theorem Idles.trans {s s₁ s' : Session} (h : s.Idles s₁) (h' : s₁.Idles s') : s.Idles s' :=
  ⟨h'.table.trans h.table, h'.assembly.trans h.assembly, Nat.le_trans h.mistakes h'.mistakes⟩

theorem Idles.advance (s : Session) : s.Idles s.advance :=
  ⟨rfl, rfl, Nat.le_of_eq s.mistakes_advance.symm⟩

instance : Std.Refl Idles := ⟨Idles.refl⟩

instance : Trans Idles Idles Idles := ⟨Idles.trans⟩

/-- The variables are numbered, the global ones are counted, and as long as there is no mistake no
class has more than `limit` fields. -/
structure Numbered (limit : Nat) (s : Session) : Prop where
  table : s.table.Numbered
  globals : s.assembly.dataSize = s.table.globalCount
  fields : s.mistakes = 0 → ∀ ty, (s.table.types.fields ty).length ≤ limit

/-- The program has as many variables as before, and no class has other fields. -/
structure Settles (s s' : Session) : Prop where
  count : s'.table.globalCount = s.table.globalCount
  fields : ∀ ty, s'.table.types.fields ty = s.table.types.fields ty

theorem Settles.refl (s : Session) : s.Settles s := ⟨rfl, fun _ => rfl⟩

theorem Settles.trans {s s₁ s' : Session} (h : s.Settles s₁) (h' : s₁.Settles s') : s.Settles s' :=
  ⟨h'.count.trans h.count, fun ty => (h'.fields ty).trans (h.fields ty)⟩

theorem Settles.of_idles {s s' : Session} (h : s.Idles s') : s.Settles s' := by
  constructor <;> simp [h.table]

theorem Settles.update (s : Session) (id : EntryId) (f : Entry → Entry) :
    s.Settles { s with table := s.table.update id f } := by
  constructor <;> simp

theorem Settles.arrayOf (s : Session) (element : TypeId) :
    s.Settles { s with table := (s.table.arrayOf element).2 } :=
  ⟨rfl, fun ty => s.table.types.fields_push (d := .array element) rfl ty⟩

theorem Settles.openScope (s : Session) : s.Settles { s with table := s.table.openScope } :=
  ⟨by simp, fun _ => rfl⟩

theorem Settles.closeScope {s : Session} (hl : SymbolTable.programLevel < s.table.level) :
    s.Settles { s with table := s.table.closeScope.2 } :=
  ⟨SymbolTable.globalCount_closeScope _ hl, by simp⟩

/-- What is declared is no global variable. -/
theorem Settles.bind {s : Session} {e : Entry}
    (he : s.table.level ≠ SymbolTable.programLevel ∨ e.slot? = none) :
    s.Settles { s with table := (s.table.bind e).2 } := by
  have hno : ¬(s.table.level = SymbolTable.programLevel ∧ e.slot?.isSome) := by
    rintro ⟨hl, hslot⟩
    rcases he with he | he
    · exact he hl
    · simp [he] at hslot
  refine ⟨?_, by simp⟩
  rw [SymbolTable.globalCount_bind, if_neg hno, Nat.add_zero]

instance : Std.Refl Settles := ⟨Settles.refl⟩

instance : Trans Settles Settles Settles := ⟨Settles.trans⟩

namespace Numbered

variable {limit : Nat} {s s' : Session}

theorem idles (h : s.Numbered limit) (hs : s.Idles s') : s'.Numbered limit where
  table := hs.table ▸ h.table
  globals := by rw [hs.assembly, hs.table, h.globals]
  fields := fun hc => by
    have := hs.mistakes
    rw [hs.table]
    exact h.fields (by omega)

/-- Another table. -/
theorem withTable (h : s.Numbered limit) {table : SymbolTable} (ht : table.Numbered)
    (hs : s.Settles { s with table }) : Session.Numbered limit { s with table } where
  table := ht
  globals := h.globals.trans hs.count.symm
  fields := fun hc ty => by
    rw [hs.fields]
    exact h.fields hc ty

theorem update (h : s.Numbered limit) {id : EntryId} {f : Entry → Entry}
    (hf : id ≠ .none → ∀ e, s.table.entryAt? id = some e → (f e).slot? = e.slot?) :
    Session.Numbered limit { s with table := s.table.update id f } :=
  h.withTable (h.table.update hf) (.update s id f)

theorem arrayOf (h : s.Numbered limit) (element : TypeId) :
    Session.Numbered limit { s with table := (s.table.arrayOf element).2 } :=
  h.withTable (h.table.arrayOf element) (.arrayOf s element)

theorem newClass (h : s.Numbered limit) :
    Session.Numbered limit { s with table := s.table.newClass.2 } :=
  h.withTable h.table.newClass
    ⟨rfl, fun ty => s.table.types.fields_push (d := .object []) rfl ty⟩

theorem openScope (h : s.Numbered limit) :
    Session.Numbered limit { s with table := s.table.openScope } :=
  h.withTable h.table.openScope (.openScope s)

/-- The variables of the innermost scope become the fields of a class. -/
theorem closeClass (h : s.Numbered limit) (hl : SymbolTable.programLevel < s.table.level)
    (hlimit : s.mistakes = 0 → s.table.current.variableCount ≤ limit) (t : TypeId) :
    Session.Numbered limit
      { s with table := s.table.closeScope.2.setFields t s.table.closeScope.1 } := by
  have hcurrent := h.table.current (Nat.lt_trans Nat.zero_lt_one hl)
  have hlocals : s.table.closeScope.1 = s.table.current.locals.toList :=
    s.table.closeScope_fst (Nat.lt_trans Nat.zero_lt_one hl)
  have hclosed : s.table.current.Numbered s.table.closeScope.2 s.table.level :=
    hcurrent.mono (.of_entries s.table.entries_closeScope)
  rw [hlocals]
  refine ⟨h.table.closeScope.setFields t hclosed hl, ?_, fun hc ty => ?_⟩
  · rw [h.globals, ← SymbolTable.globalCount_closeScope _ hl]
    rfl
  · rcases Types.fields_setFields s.table.closeScope.2.types t s.table.current.locals.toList ty with
      heq | heq
    · refine Nat.le_trans (Nat.le_of_eq (congrArg List.length (heq.trans ?_))) (h.fields hc ty)
      rw [SymbolTable.types_closeScope]
    · refine Nat.le_trans (Nat.le_of_eq (congrArg List.length heq)) ?_
      rw [Array.length_toList, hcurrent.size_locals hl]
      exact hlimit hc

end Numbered

end Session

/-- The scopes that are open stay open, and at the levels of `p`, the variables stay numbered. What is
declared inside a class or a method is neither a global variable nor a class. -/
structure Allots (limit : Nat) (p : Nat → Prop) (s s' : Session) : Prop where
  level : s'.table.level = s.table.level
  numbered : p s.table.level → s.Numbered limit → s'.Numbered limit
  settles : p s.table.level → SymbolTable.programLevel < s.table.level → s.Settles s'

namespace Allots

variable {limit : Nat} {p q : Nat → Prop} {s s₁ s' : Session}

theorem refl (s : Session) : Allots limit p s s := ⟨rfl, fun _ => id, fun _ _ => .refl s⟩

theorem trans (h : Allots limit p s s₁) (h' : Allots limit p s₁ s') : Allots limit p s s' :=
  ⟨h'.level.trans h.level, fun hp hs => h'.numbered (h.level ▸ hp) (h.numbered hp hs),
    fun hp hl => (h.settles hp hl).trans (h'.settles (h.level ▸ hp) (h.level ▸ hl))⟩

instance : Std.Refl (Allots limit p) := ⟨refl⟩

instance : Trans (Allots limit p) (Allots limit p) (Allots limit p) := ⟨trans⟩

theorem of_idles (h : s.Idles s') : Allots limit p s s' :=
  ⟨by rw [h.table], fun _ hs => hs.idles h, fun _ _ => .of_idles h⟩

theorem withAssembly {assembly : Assembly} (h : assembly.dataSize = s.assembly.dataSize) :
    Allots limit p s { s with assembly } :=
  ⟨rfl, fun _ hs => ⟨hs.table, h.trans hs.globals, hs.fields⟩, fun _ _ => ⟨rfl, fun _ => rfl⟩⟩

theorem mono (h : Allots limit p s s') (hpq : ∀ n, q n → p n) : Allots limit q s s' :=
  ⟨h.level, fun hq => h.numbered (hpq _ hq), fun hq => h.settles (hpq _ hq)⟩

end Allots

/-! ### Productions that declare nothing -/

namespace Production

open Session

variable {c : Setting} {s s' : Session}

theorem idles_advance : Keeps c Idles advance := by
  intro s u s' h
  obtain rfl := runs_advance.1 h
  exact .advance s

theorem idles_report {p : Problem} {details : List String} : Keeps c Idles (report p details) := by
  intro s u s' h
  obtain rfl := runs_report.1 h
  exact ⟨rfl, rfl, by simp⟩

theorem idles_resume : Keeps c Idles resume := by
  intro s u s' h
  obtain rfl := runs_resume.1 h
  exact ⟨rfl, rfl, Nat.le_of_eq s.mistakes_resume.symm⟩

theorem idles_reportIf {mistake : Prop} [Decidable mistake] {p : Problem} {details : List String} :
    Keeps c Idles (reportIf mistake p details) :=
  .ite (fun _ => idles_report) fun _ => .pure ()

theorem idles_expect {k : Token.Kind} : Keeps c Idles (expect k) :=
  .bind .check fun _ => .ite (fun _ => idles_advance) fun _ => idles_report

theorem idles_identifier : Keeps c Idles identifier := by
  refine .bind .check fun _ => .ite (fun _ => ?_) fun _ => ?_
  · exact .bind idles_advance fun _ => .bind .get fun _ => .pure _
  · exact .bind idles_report fun _ => .pure _

theorem idles_entry {id : EntryId} : Keeps c Idles (entry id) :=
  .look fun _ _ _ h => (runs_entry.1 h).2

theorem idles_find {name : String} : Keeps c Idles (find name) := by
  intro s id s' h
  rcases runs_find.1 h with ⟨-, -, rfl⟩ | ⟨-, -, -, rfl⟩ | ⟨-, -, rfl⟩
  · exact ⟨rfl, rfl, Nat.le_refl _⟩
  · exact ⟨rfl, rfl, by simp⟩
  · exact ⟨rfl, rfl, Nat.le_refl _⟩

theorem idles_namedType : Keeps c Idles namedType := by
  refine .bind idles_identifier fun name => .bind idles_find fun id => .bind idles_entry fun e => ?_
  exact .ite (fun _ => .pure _) fun _ => .bind idles_reportIf fun _ => .pure _

theorem idles_skipUntil {found : Production Bool} (hf : Keeps c Idles found) :
    Keeps c Idles (skipUntil found) :=
  .repeatWhile <| .bind idles_advance fun _ => .bind hf fun _ => .pure _

theorem idles_atTypeName : Keeps c Idles atTypeName := by
  refine .bind .get fun s => .ite (fun _ => .pure _) fun _ => ?_
  refine .bind (.look fun _ _ _ hrun => (runs_table.1 hrun).2) fun t => ?_
  split
  · exact .pure _
  · exact .bind idles_entry fun e => .pure _

theorem idles_recoverDeclaration : Keeps c Idles recoverDeclaration := by
  refine .bind idles_report fun _ => .bind (idles_skipUntil ?_) fun _ => idles_resume
  refine .bind .checkAny fun _ => .ite (fun _ => .pure _) fun _ => .bind .get fun s => ?_
  exact .ite (fun _ => .pure _) fun _ => idles_atTypeName

theorem idles_recoverMethod : Keeps c Idles recoverMethod :=
  .bind idles_report fun _ => .bind (idles_skipUntil .checkAny) fun _ => idles_resume

/-! ### Declarations -/

variable {limit : Nat} {p : Nat → Prop} {α : Type} {m : Production α}

theorem allots_of_idles (h : Keeps c Idles m) : Keeps c (Allots limit p) m :=
  fun _ _ _ hrun => .of_idles (h hrun)

theorem allots_arrayOf {t : TypeId} : Keeps c (Allots limit p) (arrayOf t) := by
  intro s t' s' h
  obtain ⟨-, rfl⟩ := runs_arrayOf.1 h
  exact ⟨rfl, fun _ hs => hs.arrayOf t, fun _ _ => .arrayOf s t⟩

theorem allots_type : Keeps c (Allots limit p) type := by
  refine .bind (allots_of_idles idles_namedType) fun t => .bind .check fun _ =>
    .ite (fun _ => ?_) fun _ => .pure _
  refine .bind (allots_of_idles idles_advance) fun _ => ?_
  exact .bind (allots_of_idles idles_expect) fun _ => allots_arrayOf

/-- A name that is declared for something other than a variable has no slot. -/
theorem allots_declare {category : Category} (hc : category ≠ .var) {name : String} {t : TypeId}
    {id : EntryId} (h : Runs c (declare category name t) s id s') :
    Allots limit (· ≤ SymbolTable.programLevel) s s' ∧ s.Settles s' ∧
      (id ≠ .none → s'.table.slotAt? id = none) := by
  rcases runs_declare.1 h with ⟨-, rfl, rfl⟩ | ⟨-, -, rfl, rfl⟩ | ⟨-, -, rfl, rfl⟩
  · exact ⟨.refl _, .refl _, fun hid => absurd rfl hid⟩
  · have hidles : s.Idles (s.report c.options.reportDistance .alreadyDeclared [name]) :=
      ⟨rfl, rfl, by simp⟩
    exact ⟨.of_idles hidles, .of_idles hidles, fun hid => absurd rfl hid⟩
  · have hslot : Entry.slot? ⟨name, t, s.table.meaningOf category⟩ = none := by
      cases category <;> first | rfl | exact absurd rfl hc
    have hsettles := Settles.bind (s := s) (.inr hslot)
    refine ⟨⟨SymbolTable.level_bind _ _, fun hl hs => ?_, fun _ _ => hsettles⟩, hsettles, fun _ => ?_⟩
    · exact hs.withTable (hs.table.bind (.inl ⟨hslot, hl⟩)) hsettles
    · rw [SymbolTable.slotAt?_bind, if_pos rfl, hslot]

theorem allots_constantDeclaration :
    Keeps c (Allots limit (· ≤ SymbolTable.programLevel)) constantDeclaration := by
  intro s u s' h
  simp only [constantDeclaration, constantValue, runs_bind] at h
  obtain ⟨_, s₁, h₁, t, s₂, h₂, name, s₃, h₃, id, s₄, h₄, _, s₅, h₅, _, s₆, h₆, h₇⟩ := h
  have h₀₃ : Allots limit (· ≤ SymbolTable.programLevel) s s₃ :=
    ((allots_of_idles idles_advance h₁).trans (allots_type h₂)).trans
      (allots_of_idles idles_identifier h₃)
  obtain ⟨h₃₄, -, hslot⟩ : Allots limit (· ≤ SymbolTable.programLevel) s₃ s₄ ∧ _ :=
    allots_declare (by simp) h₄
  refine ((h₀₃.trans h₃₄).trans ?_).trans (allots_of_idles idles_expect h₇)
  have h₄₅ : s₄.Idles s₅ := idles_expect h₅
  simp only [runs_peek] at h₆
  obtain ⟨_, _, ⟨rfl, rfl⟩, h₆⟩ := h₆
  split at h₆
  · simp only [runs_bind, runs_literal, runs_updateEntry] at h₆
    obtain ⟨_, s₇, h₆, v, _, ⟨rfl, rfl⟩, rfl⟩ := h₆
    have hidles : s₄.Idles s₇.advance := (h₄₅.trans (idles_reportIf h₆)).trans (.advance s₇)
    refine (Allots.of_idles hidles).trans
      ⟨by simp [SymbolTable.level], fun _ hs => ?_, fun _ _ => .update _ _ _⟩
    refine hs.update fun hid e he => ?_
    rw [← SymbolTable.slotAt?_of_entryAt? he, hidles.table, hslot hid]
    rfl
  · exact .of_idles (h₄₅.trans (idles_report h₆))

theorem runs_countGlobal {id : EntryId} {u : Unit} : Runs c (countGlobal id) s u s' ↔
    s' = if id ≠ .none ∧ s.table.level = SymbolTable.programLevel then
      { s with assembly := { s.assembly with dataSize := s.assembly.dataSize + 1 } } else s := by
  simp only [countGlobal, runs_bind, runs_table, Emission.reserveGlobal]
  constructor
  · rintro ⟨_, _, ⟨rfl, rfl⟩, h⟩
    split at h
    · obtain ⟨assembly, hs, rfl⟩ := runs_write.1 h
      rw [if_pos ‹_›, Emission.succeeds_modify.1 hs]
    · rw [if_neg ‹_›, (runs_pure.1 h).2]
  · rintro rfl
    refine ⟨_, _, ⟨rfl, rfl⟩, ?_⟩
    split
    · exact runs_write.2 ⟨_, Emission.succeeds_modify.2 rfl, rfl⟩
    · exact runs_pure.2 ⟨rfl, rfl⟩

/-- A variable gets the next slot of its scope. -/
theorem numbered_variable (h : s.Numbered limit) (hl : 0 < s.table.level) (name : String) (t : TypeId) :
    Session.Numbered limit { s with
      table := (s.table.bind ⟨name, t, s.table.meaningOf .var⟩).2
      assembly := { s.assembly with dataSize := s.assembly.dataSize +
        if s.table.level = SymbolTable.programLevel then 1 else 0 } } where
  table := h.table.bind (.inr ⟨rfl, hl⟩)
  globals := by
    rw [SymbolTable.globalCount_bind, h.globals]
    simp [Entry.slot?, SymbolTable.meaningOf]
  fields := fun hc => by simpa using h.fields hc

theorem allots_variableName {t : TypeId} : Keeps c (Allots limit (0 < ·)) (variableName t) := by
  intro s more s' h
  simp only [variableName, runs_bind] at h
  obtain ⟨name, s₁, h₁, id, s₂, h₂, _, s₃, h₃, h⟩ := h
  have h₁₃ : Allots limit (0 < ·) s₁ s₃ := by
    have h₃ := runs_countGlobal.1 h₃
    rcases runs_declare.1 h₂ with ⟨-, rfl, rfl⟩ | ⟨-, -, rfl, rfl⟩ | ⟨-, -, rfl, rfl⟩
    · rw [if_neg (by simp)] at h₃
      exact h₃ ▸ .refl _
    · rw [if_neg (by simp)] at h₃
      exact h₃ ▸ .of_idles ⟨rfl, rfl, by simp⟩
    · refine ⟨?_, fun hl hs => ?_, fun _ hl => ?_⟩
      · rw [h₃]
        split <;> exact SymbolTable.level_bind _ _
      · have hne : (⟨s₁.table.entries.size⟩ : EntryId) ≠ .none := by
          have := hs.table.nonempty
          simp only [EntryId.none, ne_eq, EntryId.mk.injEq]
          omega
        have hnumbered := numbered_variable hs hl name t
        rw [h₃]
        by_cases hlevel : s₁.table.level = SymbolTable.programLevel
        · rw [if_pos hlevel] at hnumbered
          rw [if_pos ⟨hne, by simpa using hlevel⟩]
          exact hnumbered
        · rw [if_neg hlevel] at hnumbered
          rw [if_neg (by simp [hlevel])]
          exact hnumbered
      · have hne : s₁.table.level ≠ SymbolTable.programLevel := Nat.ne_of_gt hl
        rw [h₃, if_neg (by simp [hne])]
        exact .bind (.inl hne)
  refine ((allots_of_idles idles_identifier h₁).trans h₁₃).trans ?_
  have hrest : Keeps c (Allots limit (0 < ·)) (do
      if ← check .comma then
        advance
        return true
      else return false : Production Bool) :=
    .bind .check fun _ => .ite (fun _ => .bind (allots_of_idles idles_advance) fun _ => .pure _)
      fun _ => .pure _
  exact hrest (runs_bind.2 h)

theorem allots_variableDeclaration : Keeps c (Allots limit (0 < ·)) variableDeclaration :=
  .bind allots_type fun _ => .bind (.repeatWhile allots_variableName) fun _ =>
    allots_of_idles idles_expect

theorem allots_variableDeclarations : Keeps c (Allots limit (0 < ·)) variableDeclarations :=
  .repeatWhile <| .bind .check fun _ => .ite (fun _ => .bind allots_variableDeclaration fun _ =>
    .pure _) fun _ => .pure _

/-- The fields of a class are the variables of its scope. -/
theorem allots_classDeclaration (hlimit : c.options.maxFields ≤ limit) :
    Keeps c (Allots limit (· = SymbolTable.programLevel)) classDeclaration := by
  intro s u s' h
  simp only [classDeclaration, runs_bind, runs_read, runs_table, runs_openScope, runs_closeScope,
    runs_discard, runs_descriptor, runs_updateTable, runs_modifyGet] at h
  obtain ⟨_, s₁, h₁, name, s₂, h₂, t, _, ⟨-, rfl⟩, _, s₄, ⟨id, h₄⟩, _, s₅, h₅, h⟩ := h
  obtain ⟨_, _, rfl, _, _, h₇, c, _, ⟨rfl, rfl⟩, _, s₇, ⟨rfl, rfl⟩, _, s₈, h₈, h⟩ := h
  obtain ⟨_, _, ⟨rfl, rfl⟩, _, _, ⟨_, -, rfl⟩, _, _, rfl, h₉⟩ := h
  have h₀₂ : Allots limit (· = SymbolTable.programLevel) s s₂ :=
    (allots_of_idles idles_advance h₁).trans (allots_of_idles idles_identifier h₂)
  have h₂₅ : Allots limit (· = SymbolTable.programLevel) s₂ s₅ := by
    have hclass : Allots limit (· = SymbolTable.programLevel) s₂
        { s₂ with table := s₂.table.newClass.2 } :=
      ⟨rfl, fun _ hs => hs.newClass, fun hl => by simp [hl]⟩
    refine hclass.trans (Allots.mono ?_ fun n hn => Nat.le_of_eq hn)
    exact (allots_declare (by simp) h₄).1.trans (allots_of_idles idles_expect h₅)
  refine ((h₀₂.trans h₂₅).trans ?_).trans (allots_of_idles idles_expect h₉)
  -- the scope of the class is open in between
  have h₅₇ : Allots limit (0 < ·) _ s₇ := allots_variableDeclarations h₇
  have h₇₈ : s₇.Idles s₈ := idles_reportIf h₈
  have hlevel : s₈.table.level = s₅.table.level + 1 := by
    rw [h₇₈.table]
    exact h₅₇.level
  refine ⟨?_, fun hl hs => ?_, fun hl => by simp [hl]⟩
  · show s₈.table.closeScope.2.level = s₅.table.level
    rw [SymbolTable.level_closeScope, hlevel]
    exact Nat.succ_sub_one _
  · refine ((h₅₇.numbered (Nat.succ_pos _) hs.openScope).idles h₇₈).closeClass ?_ (fun hc => ?_) t
    · rw [hlevel, hl]
      exact Nat.lt_succ_self _
    · rw [h₇₈.table]
      rw [runs_reportIf.1 h₈, Session.reportIf] at hc
      split at hc
      · simp at hc
      · exact Nat.le_trans (Nat.not_lt.1 ‹_›) hlimit

theorem allots_declarations (hlimit : c.options.maxFields ≤ limit) :
    Keeps c (Allots limit (· = SymbolTable.programLevel)) declarations := by
  refine .repeatWhile (.bind .peek fun k => ?_)
  split
  · refine .bind (fun _ _ _ h => ?_) fun _ => .pure _
    exact (allots_constantDeclaration h).mono fun n hn => Nat.le_of_eq hn
  · exact .bind (allots_classDeclaration hlimit) fun _ => .pure _
  · refine .bind (fun _ _ _ h => ?_) fun _ => .pure _
    exact (allots_variableDeclaration h).mono fun n hn => hn ▸ Nat.zero_lt_one
  · exact .pure _
  · exact .pure _
  · exact .bind (allots_of_idles idles_recoverDeclaration) fun _ => .pure _

/-! ### Methods -/

/-- A parameter is a variable of its method, and not a global one. -/
theorem allots_parameter : Keeps c (Allots limit (SymbolTable.programLevel < ·)) (parameter ()) := by
  refine .bind allots_type fun t => .bind (allots_of_idles idles_identifier) fun name => ?_
  refine .bind (fun s id s' h => ?_) fun id => .bind .check fun _ => .ite (fun _ => ?_) fun _ => ?_
  · rcases runs_declare.1 h with ⟨-, -, rfl⟩ | ⟨-, -, -, rfl⟩ | ⟨-, -, -, rfl⟩
    · exact .refl _
    · exact .of_idles ⟨rfl, rfl, by simp⟩
    · refine ⟨SymbolTable.level_bind _ _, fun hl hs => ?_, fun _ hl => .bind (.inl (Nat.ne_of_gt hl))⟩
      have hnumbered := numbered_variable hs (Nat.lt_trans Nat.zero_lt_one hl) name t
      rw [if_neg (Nat.ne_of_gt hl)] at hnumbered
      exact hnumbered
  · refine .bind (allots_of_idles idles_advance) fun _ => .bind allots_arrayOf fun array => ?_
    refine .bind (fun s u s' h => ?_) fun _ => .pure _
    obtain rfl := runs_updateEntry.1 h
    exact ⟨by simp [SymbolTable.level], fun _ hs => hs.update fun _ _ _ => rfl,
      fun _ _ => .update _ _ _⟩
  · refine .bind .check fun _ => .ite (fun _ => ?_) fun _ => .pure _
    exact .bind (allots_of_idles idles_advance) fun _ => .pure _

theorem allots_parameters : Keeps c (Allots limit (SymbolTable.programLevel < ·)) parameters :=
  .bind .check fun _ => .ite (fun _ => .loop (fun _ => allots_parameter) ()) fun _ => .pure _

theorem allots_updateMethod {id : EntryId} {f : Method → Method} :
    Keeps c (Allots limit p) (updateMethod id f) := by
  intro s u s' h
  obtain rfl := runs_updateEntry.1 h
  exact ⟨by simp [SymbolTable.level], fun _ hs => hs.update fun _ e _ => e.slot?_updateMethod f,
    fun _ _ => .update _ _ _⟩

theorem allots_header {id : EntryId} :
    Keeps c (Allots limit (SymbolTable.programLevel < ·)) (header id) := by
  refine .bind (allots_of_idles idles_expect) fun _ => .bind allots_parameters fun variadic => ?_
  refine .bind (allots_of_idles idles_expect) fun _ => ?_
  refine .bind (.look fun _ _ _ h => (runs_table.1 h).2) fun t => ?_
  exact .bind allots_updateMethod fun _ => .pure _

end Production

end MicroJava
