import MicroJava.Proofs.Asking
import MicroJava.Proofs.Methods

/-!
# What a program asks for

What is asked for in a program is what its methods ask for, one after the other (`Asked`): each makes a
frame for its parameters and variables, and asks for instructions within that frame, the global variables
of the program, and the fields of its classes. Reading one more method adds to the end
(`Asked.methodDeclaration`).
-/

namespace MicroJava

/-- What is asked for in one method. -/
structure Body where
  parameters : Nat
  /-- The size of the frame. -/
  size : Nat
  /-- What is asked for behind `enter`. -/
  asked : List (Opcode × List Int)

/-- What is asked for in a method, from its `enter` on. -/
def Body.all (b : Body) : List (Opcode × List Int) :=
  (.enter, [(b.parameters : Int), (b.size : Int)]) :: b.asked

namespace Session

variable {limit n : Nat} {s s' : Session}

/-- The bounds of a method with a frame of this size. -/
def bounds (s : Session) (size : Nat) : Bounds where
  slots := size
  globals := s.assembly.dataSize
  size := fun t => (s.table.types.fields t).length

/-- Inside a method, each name stands for a variable of the method or a global variable. -/
theorem Numbered.covers (h : s.Numbered limit) (hl : s.table.level = SymbolTable.programLevel + 1) :
    (s.bounds s.table.current.variableCount).Covers s.table where
  names := by
    intro name id slot level hid hslot
    obtain ⟨pre, scope, outer, hinner, rfl, hlt⟩ := h.table.lookup? hid hslot
    rcases outer with _ | ⟨program, outer⟩
    · rw [if_pos (show [].length + 1 = SymbolTable.programLevel from rfl)]
      show slot < s.assembly.dataSize
      rwa [h.globals, SymbolTable.globalCount, hinner, List.getLast?_append_cons, List.getLast?_singleton]
    · rw [if_neg (by simp [SymbolTable.programLevel])]
      -- there are two scopes, so nothing is in front of this one
      have hlength : pre.length = 0 := by
        have hlevel : s.table.inner.length = 2 := hl
        simp only [hinner, List.length_append, List.length_cons] at hlevel
        omega
      rw [List.length_eq_zero_iff.1 hlength, List.nil_append] at hinner
      show slot < s.table.current.variableCount
      rwa [SymbolTable.current, hinner]
  fields := h.table.fields
  size := fun _ => rfl

/-- The bounds only depend on what settles. -/
theorem Settles.bounds_eq (h : s.Settles s') (hs : s.Numbered limit) (hs' : s'.Numbered limit) :
    s'.bounds n = s.bounds n := by
  simp only [bounds, h.fields, hs.globals, hs'.globals, h.count]

/-- The variables stay numbered, and neither global variables nor classes are declared. -/
structure Carries (limit : Nat) (s s' : Session) : Prop where
  numbered : s.Numbered limit → s'.Numbered limit
  settles : s.Settles s'
  mistakes : s.mistakes ≤ s'.mistakes

theorem Carries.refl (s : Session) : s.Carries limit s := ⟨id, .refl s, Nat.le_refl _⟩

theorem Carries.trans {s₁ : Session} (h : s.Carries limit s₁) (h' : s₁.Carries limit s') :
    s.Carries limit s' :=
  ⟨h'.numbered ∘ h.numbered, h.settles.trans h'.settles, Nat.le_trans h.mistakes h'.mistakes⟩

theorem Carries.of_idles (h : s.Idles s') : s.Carries limit s' :=
  ⟨fun hs => hs.idles h, .of_idles h, h.mistakes⟩

/-- And nothing is written. -/
structure Prepares (limit : Nat) (s s' : Session) : Prop extends Carries limit s s' where
  assembly : ∃ dataSize, s'.assembly = { s.assembly with dataSize }

namespace Prepares

variable {s₁ : Session} {p : Nat → Prop}

theorem trans (h : s.Prepares limit s₁) (h' : s₁.Prepares limit s') : s.Prepares limit s' where
  toCarries := h.toCarries.trans h'.toCarries
  assembly := by
    obtain ⟨dataSize, hs⟩ := h.assembly
    obtain ⟨dataSize', hs'⟩ := h'.assembly
    exact ⟨dataSize', by rw [hs', hs]⟩

theorem refl (s : Session) : s.Prepares limit s := ⟨.refl s, _, rfl⟩

instance : Std.Refl (Prepares limit) := ⟨refl⟩

instance : Trans (Prepares limit) (Prepares limit) (Prepares limit) := ⟨trans⟩

theorem of_idles (h : s.Idles s') : s.Prepares limit s' := ⟨.of_idles h, _, h.assembly⟩

theorem withTable {table : SymbolTable} (hs : s.Settles { s with table })
    (h : s.Numbered limit → table.Numbered) : s.Prepares limit { s with table } where
  numbered := fun hn => hn.withTable (h hn) hs
  settles := hs
  assembly := ⟨_, rfl⟩
  mistakes := Nat.le_refl _

theorem of_allots (h : Allots limit p s s') (hp : p s.table.level)
    (hl : SymbolTable.programLevel < s.table.level) (hd : Declares s s') : s.Prepares limit s' where
  numbered := h.numbered hp
  settles := h.settles hp hl
  assembly := hd.assembly
  mistakes := hd.mistakes

theorem openScope (s : Session) : s.Prepares limit { s with table := s.table.openScope } :=
  withTable (.openScope s) fun hn => hn.table.openScope

theorem closeScope {s : Session} (hl : SymbolTable.programLevel < s.table.level) :
    s.Prepares limit { s with table := s.table.closeScope.2 } :=
  withTable (.closeScope hl) fun hn => hn.table.closeScope

theorem withReturnType (s : Session) (returnType : TypeId) :
    s.Prepares limit { s with returnType } :=
  of_idles ⟨rfl, rfl, Nat.le_refl _⟩

theorem updateMethod (s : Session) (id : EntryId) (f : Method → Method) :
    s.Prepares limit { s with table := s.table.update id (·.updateMethod f) } :=
  withTable (.update s id _) fun hn => hn.table.update fun _ e _ => e.slot?_updateMethod f

end Prepares

end Session

/-- The methods of a program have asked for `bs`. As long as there is no mistake, no frame is larger
than `limit`. -/
structure Asked (limit : Nat) (s : Session) (bs : List Body) : Prop where
  asked : s.assembly.asked.reverse = bs.flatMap Body.all
  echoes : s.assembly.Echoes
  parameters : ∀ b ∈ bs, b.parameters ≤ b.size
  size : s.mistakes = 0 → ∀ b ∈ bs, b.size ≤ limit
  allows : ∀ b ∈ bs, ∀ x ∈ b.asked, (s.bounds b.size).Allows x.1 x.2

namespace Production

open Session

variable {c : Setting} {s s' : Session} {limit n : Nat} {id : EntryId} {u : Unit}

theorem prepares_of_idles {α : Type} {m : Production α} (h : Keeps c Idles m) :
    Keeps c (Prepares limit) m :=
  fun _ _ _ hrun => .of_idles (h hrun)

theorem prepares_type : Keeps c (Prepares limit) type := by
  refine .bind (prepares_of_idles idles_namedType) fun t => .bind .check fun _ =>
    .ite (fun _ => ?_) fun _ => .pure _
  refine .bind (prepares_of_idles idles_advance) fun _ =>
    .bind (prepares_of_idles idles_expect) fun _ s t' s' h => ?_
  obtain ⟨-, rfl⟩ := runs_arrayOf.1 h
  exact .withTable (.arrayOf s t) fun hn => hn.table.arrayOf t

theorem prepares_resultType : Keeps c (Prepares limit) resultType := by
  refine .bind .check fun _ => .ite (fun _ => ?_) fun _ => prepares_type
  exact .bind (prepares_of_idles idles_advance) fun _ => .pure _

theorem prepares_declare {category : Category} (hc : category ≠ .var) {name : String} {t : TypeId}
    (hl : s.table.level ≤ SymbolTable.programLevel) (h : Runs c (declare category name t) s id s') :
    s.Prepares limit s' ∧ s'.table.level = s.table.level := by
  obtain ⟨hallots, hsettles, -⟩ : Allots limit (· ≤ SymbolTable.programLevel) s s' ∧ _ :=
    allots_declare hc h
  refine ⟨⟨⟨hallots.numbered hl, hsettles, ?_⟩, ?_⟩, hallots.level⟩ <;>
    rcases runs_declare.1 h with ⟨-, -, rfl⟩ | ⟨-, -, -, rfl⟩ | ⟨-, -, -, rfl⟩
  · exact Nat.le_refl _
  · simp
  · exact Nat.le_refl _
  · exact ⟨_, rfl⟩
  · exact ⟨_, rfl⟩
  · exact ⟨_, rfl⟩

/-- The parameters are the first variables of the frame. -/
theorem prepares_header (hl : SymbolTable.programLevel < s.table.level)
    (h : Runs c (header id) s n s') :
    s.Prepares limit s' ∧ s'.table.level = s.table.level ∧
      n = s'.table.current.variableCount := by
  have hallots : Allots limit (SymbolTable.programLevel < ·) s s' := allots_header h
  simp only [header, runs_bind, runs_table, updateMethod, runs_updateEntry, runs_pure] at h
  obtain ⟨_, s₁, h₁, variadic, s₂, h₂, _, _, h₃, _, s₃, ⟨rfl, rfl⟩, _, _, rfl, rfl, rfl⟩ := h
  have hd : Declares s s₃ :=
    ((declares_expect h₁).trans (declares_parameters h₂)).trans (declares_expect h₃)
  refine ⟨⟨⟨hallots.numbered hl, hallots.settles hl hl, hd.mistakes⟩, hd.assembly⟩, hallots.level, ?_⟩
  simp [SymbolTable.current]

theorem asks_ending {B : Bounds} {t : TypeId} : Asks c B (ending t) fun _ => True :=
  .ite (fun _ => .bind (.emit rfl) fun _ _ => .emit rfl) fun _ => .write (.emit .trap rfl)

end Production

namespace Asked

open Production Session

variable {c : Setting} {s s₁ s₂ s' : Session} {limit fieldLimit n : Nat} {bs : List Body}
  {id : EntryId} {t : TypeId} {isEntry : Bool} {u v w : Unit}

theorem prepares (h : Asked limit s bs) (hs : s.Numbered fieldLimit) (hp : s.Prepares fieldLimit s') :
    Asked limit s' bs := by
  obtain ⟨dataSize, hassembly⟩ := hp.assembly
  refine ⟨?_, ?_, h.parameters, fun hc => h.size ?_, fun b hb x hx => ?_⟩
  · rw [hassembly]
    exact h.asked
  · rw [hassembly]
    exact h.echoes.withDataSize _ _
  · have := hp.mistakes
    omega
  · rw [hp.settles.bounds_eq hs (hp.numbered hs)]
    exact h.allows b hb x hx

/-- The code of a method asks for one more body. -/
theorem code (h : Asked limit s bs) (hs : s.Numbered fieldLimit)
    (hl : s.table.level = SymbolTable.programLevel + 1)
    (hn : n ≤ s.table.current.variableCount)
    (hlimit : s.mistakes = 0 → s.table.current.variableCount ≤ limit)
    (hbegin : Runs c (beginning id isEntry n s.table.current.variableCount) s u s₁)
    (hblock : Runs c block s₁ v s₂) (hend : Runs c (ending t) s₂ w s') :
    (∃ b, Asked limit s' (bs ++ [b])) ∧ s.Carries fieldLimit s' ∧
      s'.table.level = s.table.level := by
  have hs₁ := runs_beginning.1 hbegin
  have hnumbered : s₁.Numbered fieldLimit ∧ s.Settles s₁ ∧ s₁.table.level = s.table.level ∧
      s₁.table.current.variableCount = s.table.current.variableCount := by
    have hp : s.Prepares fieldLimit _ := .updateMethod s id fun m => { m with address := s.assembly.here }
    obtain ⟨htable, hglobals, hfields⟩ := hp.numbered hs
    rw [hs₁]
    exact ⟨⟨htable, hglobals, hfields⟩, ⟨hp.settles.count, hp.settles.fields⟩,
      by simp [SymbolTable.level], by simp [SymbolTable.current]⟩
  obtain ⟨hnumbered₁, hsettles₁, hlevel₁, hcount₁⟩ := hnumbered
  have hcovers := hnumbered₁.covers (hlevel₁.trans hl)
  obtain ⟨hfollows, -⟩ := Asks.block hcovers hblock
  obtain ⟨hfollows', -⟩ := asks_ending hfollows.covers hend
  have hall := hfollows.trans hfollows'
  have hallots := hall.allots fieldLimit fun _ => True
  have hl₁ : SymbolTable.programLevel < s₁.table.level := by
    rw [hlevel₁, hl]
    exact Nat.lt_succ_self _
  have hsettles : s₁.Settles s' := hallots.settles trivial hl₁
  have hnumbered' : s'.Numbered fieldLimit := hallots.numbered trivial hnumbered₁
  obtain ⟨xs, hxs, hallows⟩ := hall.grows.asked
  have hmistakes : s.mistakes ≤ s'.mistakes := by
    have hsame : s₁.mistakes = s.mistakes := by rw [hs₁]; rfl
    exact hsame ▸ hall.mistakes
  refine ⟨⟨⟨n, s.table.current.variableCount, xs.reverse⟩, ?_, hall.grows.echoes ?_, ?_, ?_, ?_⟩,
    ⟨fun _ => hnumbered', hsettles₁.trans hsettles, hmistakes⟩, hallots.level.trans hlevel₁⟩
  · rw [hxs, List.reverse_append, hs₁]
    simp [Assembly.emit, h.asked, Body.all]
  · rw [hs₁]
    exact (h.echoes.withDataSize _ _).emit rfl rfl
  · intro b hb
    rcases List.mem_append.1 hb with hb | hb
    · exact h.parameters b hb
    · rw [List.mem_singleton.1 hb]
      exact hn
  · intro hc b hb
    have hc : s.mistakes = 0 := by omega
    rcases List.mem_append.1 hb with hb | hb
    · exact h.size hc b hb
    · rw [List.mem_singleton.1 hb]
      exact hlimit hc
  · intro b hb x hx
    rw [(hsettles₁.trans hsettles).bounds_eq hs hnumbered']
    rcases List.mem_append.1 hb with hb | hb
    · exact h.allows b hb x hx
    · rw [List.mem_singleton.1 hb] at hx ⊢
      have hx := hallows x (List.mem_reverse.1 hx)
      rwa [hcount₁, hsettles₁.bounds_eq hs hnumbered₁] at hx

/-- The body of a method asks for one more body, whose frame has all variables that are declared in it. -/
theorem methodBody (h : Asked c.options.maxLocals s bs) (hs : s.Numbered fieldLimit)
    (hl : s.table.level = SymbolTable.programLevel + 1) (hn : n ≤ s.table.current.variableCount)
    (hrun : Runs c (methodBody id isEntry t n) s u s') :
    (∃ b, Asked c.options.maxLocals s' (bs ++ [b])) ∧ s.Carries fieldLimit s' ∧
      s'.table.level = s.table.level := by
  simp only [Production.methodBody, runs_bind, runs_read, runs_table] at hrun
  obtain ⟨_, _, h₁, _, _, ⟨rfl, rfl⟩, c, s₁, ⟨rfl, rfl⟩, _, s₂, h₂, _, s₃, h₃, _, s₄, h₄, h₅⟩ := hrun
  have hinner : SymbolTable.programLevel < s.table.level := hl ▸ Nat.lt_succ_self _
  have hd₁ := declares_variableDeclarations h₁
  have hallots₁ : Allots fieldLimit (0 < ·) s s₁ := allots_variableDeclarations h₁
  have hidles₂ : s₁.Idles s₂ := idles_reportIf h₂
  have hp : s.Prepares fieldLimit s₂ :=
    (Prepares.of_allots hallots₁ (Nat.lt_trans Nat.zero_lt_one hinner) hinner hd₁).trans
      (.of_idles hidles₂)
  have hlevel : s₂.table.level = s.table.level := by
    rw [hidles₂.table, hallots₁.level]
  have hcount : s₂.table.current.variableCount = s₁.table.current.variableCount := by
    rw [hidles₂.table]
  have hlimit : s₂.mistakes = 0 → s₂.table.current.variableCount ≤ c.options.maxLocals := by
    intro hc
    rw [hcount]
    rw [runs_reportIf.1 h₂, Session.reportIf] at hc
    split at hc
    · simp at hc
    · exact Nat.not_lt.1 ‹_›
  rw [← hcount] at h₃
  obtain ⟨hasked, hcarries, hlevel'⟩ := (h.prepares hs hp).code (hp.numbered hs) (hlevel.trans hl)
    (hcount ▸ Nat.le_trans hn hd₁.table.count) hlimit h₃ h₄ h₅
  exact ⟨hasked, hp.toCarries.trans hcarries, hlevel'.trans hlevel⟩

/-- A method that is read asks for one more body. -/
theorem methodDeclaration (h : Asked c.options.maxLocals s bs) (hs : s.Numbered fieldLimit)
    (hl : s.table.level = SymbolTable.programLevel)
    (hrun : Runs c Production.methodDeclaration s u s') :
    (∃ b, Asked c.options.maxLocals s' (bs ++ [b])) ∧ s.Carries fieldLimit s' ∧
      s'.table.level = SymbolTable.programLevel := by
  simp only [Production.methodDeclaration, Production.setReturnType, Production.updateMethod,
    runs_bind, runs_read, runs_openScope, runs_closeScope, runs_updateEntry, runs_modify] at hrun
  obtain ⟨t, s₁, h₁, name, s₂, h₂, id, s₃, h₃, _, _, rfl, _, s₄, hs₄, n, _, h₅, hrun⟩ := hrun
  obtain ⟨c, s₅, ⟨rfl, rfl⟩, _, s₆, h₆, _, s₇, h₇, _, s₈, h₈, locals, s₉, ⟨-, hs₉⟩, hrun⟩ := hrun
  obtain ⟨_, s₁₀, hs₁₀, rfl⟩ := hrun
  -- the header is read inside the scope of the method
  have hlevel₂ : s₂.table.level = SymbolTable.programLevel :=
    ((declares_resultType h₁).trans (declares_identifier h₂)).table.level.trans hl
  obtain ⟨hp₃, hlevel₃⟩ : s₂.Prepares fieldLimit s₃ ∧ _ :=
    prepares_declare (by simp) (Nat.le_of_eq hlevel₂) h₃
  have hp₄ : s.Prepares fieldLimit s₄ := by
    rw [hs₄]
    exact ((((prepares_resultType h₁).trans (.of_idles (idles_identifier h₂))).trans hp₃).trans
      (.withReturnType s₃ t)).trans (.openScope _)
  have hlevel₄ : s₄.table.level = SymbolTable.programLevel + 1 := by
    rw [hs₄]
    exact congrArg Nat.succ (hlevel₃.trans hlevel₂)
  obtain ⟨hp₅, hlevel₅, hn⟩ := prepares_header (hlevel₄ ▸ Nat.lt_succ_self _) h₅
  have hidles₇ : s₅.Idles s₇ := (idles_reportIf h₆).trans (idles_reportIf h₇)
  have hp₇ : s.Prepares fieldLimit s₇ := (hp₄.trans hp₅).trans (.of_idles hidles₇)
  have hlevel₇ : s₇.table.level = SymbolTable.programLevel + 1 := by
    rw [hidles₇.table, hlevel₅, hlevel₄]
  -- and so is the body
  obtain ⟨⟨b, hb⟩, hcarries₈, hlevel₈⟩ := (h.prepares hs hp₇).methodBody (hp₇.numbered hs) hlevel₇
    (by rw [hn, hidles₇.table]) h₈
  have hinner₈ : SymbolTable.programLevel < s₈.table.level := by
    rw [hlevel₈, hlevel₇]
    exact Nat.lt_succ_self _
  have hp₁₀ : s₈.Prepares fieldLimit { s₁₀ with returnType := .none } := by
    rw [hs₁₀, hs₉]
    exact ((Prepares.closeScope hinner₈).trans (.updateMethod _ id _)).trans (.withReturnType _ _)
  have hlevel₁₀ : s₁₀.table.level = s₈.table.level - 1 := by
    rw [hs₁₀, hs₉]
    exact (congrArg List.length (SymbolTable.inner_update ..)).trans (SymbolTable.level_closeScope _)
  have hcarries : s.Carries fieldLimit s₈ := hp₇.toCarries.trans hcarries₈
  refine ⟨⟨b, hb.prepares (hcarries.numbered hs) hp₁₀⟩, hcarries.trans hp₁₀.toCarries,
    hlevel₁₀.trans ?_⟩
  rw [hlevel₈, hlevel₇, Nat.add_sub_cancel]

end Asked

/-! ### Programs -/

namespace SymbolTable

variable {t : SymbolTable}

/-- Where the scope of the program is the innermost one, its variables are the global ones. -/
theorem globalCount_of_level (h : t.level = programLevel) :
    t.globalCount = t.current.variableCount := by
  obtain ⟨s, hs⟩ := List.length_eq_one_iff.1 h
  simp [globalCount, current, hs]

end SymbolTable

/-- Where the methods that were read have asked for something, those that are read next ask for more. -/
def Continues (fieldLimit limit : Nat) (s s' : Session) : Prop :=
  ∀ bs, Asked limit s bs → s.Numbered fieldLimit → s.table.level = SymbolTable.programLevel →
    (∃ bs', Asked limit s' (bs ++ bs')) ∧ s.Carries fieldLimit s' ∧
      s'.table.level = SymbolTable.programLevel

namespace Continues

open Production

variable {fieldLimit limit : Nat} {c : Setting} {s s' : Session}

instance : Std.Refl (Continues fieldLimit limit) :=
  ⟨fun s _ h _ hl => ⟨⟨[], by rwa [List.append_nil]⟩, .refl s, hl⟩⟩

instance : Trans (Continues fieldLimit limit) (Continues fieldLimit limit)
    (Continues fieldLimit limit) :=
  ⟨fun h h' bs hbs hs hl => by
    obtain ⟨⟨bs₁, h₁⟩, hcarries₁, hl₁⟩ := h bs hbs hs hl
    obtain ⟨⟨bs₂, h₂⟩, hcarries₂, hl₂⟩ := h' _ h₁ (hcarries₁.numbered hs) hl₁
    exact ⟨⟨bs₁ ++ bs₂, by rwa [← List.append_assoc]⟩, hcarries₁.trans hcarries₂, hl₂⟩⟩

theorem of_idles (h : s.Idles s') : Continues fieldLimit limit s s' := fun bs hbs hs hl =>
  ⟨⟨[], by simpa using hbs.prepares hs (.of_idles h)⟩, .of_idles h, by rwa [h.table]⟩

theorem methods : Keeps c (Continues fieldLimit c.options.maxLocals) methods := by
  have hmethod : Keeps c (Continues fieldLimit c.options.maxLocals) methodDeclaration := by
    intro s u s' h bs hbs hs hl
    obtain ⟨⟨b, hb⟩, hcarries, hl'⟩ := hbs.methodDeclaration hs hl h
    exact ⟨⟨[b], hb⟩, hcarries, hl'⟩
  refine .repeatWhile (.bind .peek fun k => ?_)
  split
  · exact .bind hmethod fun _ => .pure _
  · exact .bind hmethod fun _ => .pure _
  · exact .pure _
  · exact .pure _
  · exact .bind (fun _ _ _ h => of_idles (idles_recoverMethod h)) fun _ => .pure _

end Continues

namespace Production

/-- A program up to its last brace, with its scope still open. Gives the entry of the program. -/
def openProgram : Production EntryId := do
  expect .programWord
  let name ← identifier
  let id ← declare .program name .none
  openScope
  declarations
  reportIf ((← read).options.maxGlobals < (← table).current.locals.size) .tooManyGlobals
  expect .leftBrace
  methods
  reportIf (← get).assembly.entry.isNone .noEntryMethod [(← read).options.entryName]
  expect .rightBrace
  return id

theorem program_eq : program = (do
    let id ← openProgram
    let members ← closeScope
    updateEntry id fun e => { e with meaning := .program members }) := by
  simp only [program, openProgram, bind_assoc, pure_bind]

end Production

/-- What is known where the scope of a program is still open, behind its methods. -/
structure Session.Opened (options : Options) (bs : List Body) (s : Session) : Prop where
  level : s.table.level = SymbolTable.programLevel
  numbered : s.Numbered options.maxFields
  asked : Asked options.maxLocals s bs
  globals : s.mistakes = 0 → s.assembly.dataSize ≤ options.maxGlobals

namespace Session

open Production

variable {options : Options} {s s' : Session} {c : Setting} {id : EntryId} {u : Unit}

/-- At first there are no variables and no classes. -/
theorem Numbered.start (stream : Token.Stream) (options : Options) (limit : Nat) :
    (Session.start stream options).Numbered limit where
  table := .initial
  globals := rfl
  fields := fun _ ty => by
    have hfields : SymbolTable.initial.types.fields ty = [] := Types.fields_arrayOf_initial .none ty
    simp [Session.start, hfields]

theorem Opened.of_runs (hs : s.Numbered c.options.maxFields) (hl : s.table.level = 0)
    (hassembly : s.assembly = {}) (h : Runs c openProgram s id s') :
    ∃ bs, s'.Opened c.options bs := by
  simp only [openProgram, runs_bind, runs_openScope, runs_read, runs_table, runs_get, runs_pure] at h
  obtain ⟨_, s₁, h₁, name, s₂, h₂, id, s₃, h₃, _, s₄, hs₄, _, _, h₅, h⟩ := h
  obtain ⟨_, _, ⟨rfl, rfl⟩, _, s₅, ⟨rfl, rfl⟩, _, s₆, h₆, _, s₇, h₇, _, _, h₈, h⟩ := h
  obtain ⟨_, _, ⟨rfl, rfl⟩, c, s₈, ⟨rfl, rfl⟩, _, s₉, h₉, _, _, h₁₀, -, rfl⟩ := h
  -- the scope of the program is opened
  have hidles₂ : s.Idles s₂ := (idles_expect h₁).trans (idles_identifier h₂)
  have hlevel₂ : s₂.table.level = 0 := by rw [hidles₂.table, hl]
  obtain ⟨hp₃, hlevel₃⟩ : s₂.Prepares c.options.maxFields s₃ ∧ _ :=
    prepares_declare (by simp) (by simp [hlevel₂]) h₃
  have hp₄ : s.Prepares c.options.maxFields s₄ := by
    rw [hs₄]
    exact ((Prepares.of_idles hidles₂).trans hp₃).trans (.openScope s₃)
  have hlevel₄ : s₄.table.level = SymbolTable.programLevel := by
    rw [hs₄]
    exact congrArg Nat.succ (hlevel₃.trans hlevel₂)
  -- its variables are declared
  have hallots₅ := allots_declarations (Nat.le_refl c.options.maxFields) h₅
  have hs₅ : s₅.Numbered c.options.maxFields := hallots₅.numbered hlevel₄ (hp₄.numbered hs)
  have hidles₇ : s₅.Idles s₇ := (idles_reportIf h₆).trans (idles_expect h₇)
  have hlevel₅ : s₅.table.level = SymbolTable.programLevel := hallots₅.level.trans hlevel₄
  have hlevel₇ : s₇.table.level = SymbolTable.programLevel := by rw [hidles₇.table, hlevel₅]
  have hcount₅ : s₅.table.globalCount ≤ s₅.table.current.locals.size := by
    have hcurrent := hs₅.table.current (by rw [hlevel₅]; exact Nat.zero_lt_one)
    rw [SymbolTable.globalCount_of_level hlevel₅, ← hcurrent.countP_eq, ← Array.length_toList]
    exact List.countP_le_length
  -- nothing was written yet
  obtain ⟨dataSize, hassembly₅⟩ : ∃ dataSize, s₅.assembly = { dataSize } := by
    obtain ⟨_, h⟩ := hp₄.assembly
    obtain ⟨dataSize, h'⟩ := (declares_declarations h₅).assembly
    exact ⟨dataSize, by rw [h', h, hassembly]⟩
  have hasked₇ : Asked c.options.maxLocals s₇ [] := by
    have hechoes : Assembly.Echoes {} := ⟨[], .nil, rfl⟩
    refine ⟨?_, ?_, by simp, by simp, by simp⟩
    · rw [hidles₇.assembly, hassembly₅]
      rfl
    · rw [hidles₇.assembly, hassembly₅]
      exact hechoes.withDataSize _ _
  -- the methods are read
  obtain ⟨⟨bs, hasked₈⟩, hcarries₈, hlevel₈⟩ :=
    Continues.methods h₈ [] hasked₇ (hs₅.idles hidles₇) hlevel₇
  have hs₈ := hcarries₈.numbered (hs₅.idles hidles₇)
  have hidles' : s₈.Idles s' := (idles_reportIf h₉).trans (idles_expect h₁₀)
  refine ⟨bs, by rw [hidles'.table, hlevel₈], hs₈.idles hidles',
    hasked₈.prepares hs₈ (.of_idles hidles'), fun hc => ?_⟩
  have hclean : s₆.mistakes = 0 := by
    have h₆₇ := (idles_expect h₇).mistakes
    have h₇₈ := hcarries₈.mistakes
    have := hidles'.mistakes
    omega
  rw [runs_reportIf.1 h₆, Session.reportIf] at hclean
  split at hclean
  · simp at hclean
  · rw [(hs₈.idles hidles').globals, hidles'.table, hcarries₈.settles.count, hidles₇.table]
    exact Nat.le_trans hcount₅ (Nat.not_lt.1 ‹_›)

/-- The code of a compilation is that of the program, whose scope is still open. -/
theorem opened_of_compile {source : String} {compilation : Compilation}
    (h : compile source options = .ok compilation) :
    ∃ id s bs, Runs (.ofStream options (Token.scan source)) (do Production.advance; openProgram)
        (.start (Token.scan source) options) id s ∧
      s.Opened options bs ∧
      (∃ s', Runs (.ofStream options (Token.scan source)) sourceFile
          (.start (Token.scan source) options) () s' ∧ s'.assembly = s.assembly ∧
        s.mistakes ≤ s'.mistakes ∧ compilation.diagnostics = s'.journal.log.toList) ∧
      compilation.image = ⟨s.assembly.code, s.assembly.dataSize, s.assembly.entry⟩ := by
  obtain ⟨s', hrun, hfinish, hlog⟩ := runs_of_compile h
  have himage : compilation.image = ⟨s'.assembly.code, s'.assembly.dataSize, s'.assembly.entry⟩ := by
    unfold Assembly.finish at hfinish
    split at hfinish
    · exact (Except.ok.inj hfinish).symm
    · simp at hfinish
  have hwhole := hrun
  simp only [sourceFile, program_eq, runs_bind, runs_advance, runs_closeScope, runs_updateEntry] at hrun
  obtain ⟨_, s₁, rfl, _, s₅, ⟨id, s₂, h₂, members, s₃, ⟨-, hs₃⟩, rfl⟩, h₅⟩ := hrun
  obtain ⟨bs, hopened⟩ := Opened.of_runs (c := .ofStream options (Token.scan source))
    ((Numbered.start _ options _).idles (.advance _)) rfl rfl h₂
  have hidles := idles_expect h₅
  have hassembly : s'.assembly = s₂.assembly := by rw [hidles.assembly, hs₃]
  have hmistakes : s₂.mistakes ≤ s'.mistakes := by
    rw [hs₃] at hidles
    exact hidles.mistakes
  exact ⟨id, s₂, bs, runs_bind.2 ⟨(), _, runs_advance.2 rfl, h₂⟩, hopened,
    ⟨s', hwhole, hassembly, hmistakes, hlog⟩, by rw [himage, hassembly]⟩

end Session

end MicroJava
