import Mathlib.Data.List.Forall2
import Mathlib.Data.List.Nodup
import MicroJava.Proofs.Scoping

/-!
# The symbol table as a stack of names

Whatever names are declared, looked up and changed in whatever scopes (`SymbolTable.Action`), a symbol
table answers like a stack of lists of names (`NameStack`), in which a name is searched from the
innermost list outwards. Each action keeps the table in step with the stack
(`SymbolTable.Shows.perform`), so every run of actions does (`SymbolTable.run_shows`). A scope that is
opened and closed again leaves the scopes around it as they were (`SymbolTable.scopes_nested`).
-/

namespace MicroJava

/-! ### Actions -/

/-- What can be done with the names of a table. -/
inductive SymbolTable.Action where
  | openScope
  | closeScope
  | declare (category : Category) (name : String) (type : TypeId)
  | lookup (name : String)
  | find (name : String)
  | findLocal (name : String)
  | setType (id : EntryId) (type : TypeId)
  | setMeaning (id : EntryId) (meaning : Meaning)

/-- What an action answers. -/
inductive SymbolTable.Answer where
  /-- A scope is open, at a level. -/
  | opened (level : Nat)
  /-- A scope is closed, and has declared these entries. -/
  | closed (ids : List EntryId)
  | declared (r : Except Problem EntryId)
  | lookedUp (id? : Option EntryId)
  | found (r : Except Problem EntryId)
  /-- Whether an entry is there to be changed. -/
  | changed (b : Bool)

namespace SymbolTable.Action

/-- The answers to actions that are performed one after the other, and the state behind them. -/
def run {σ : Type} (perform : σ → Action → Answer × σ) (s : σ) : List Action → List Answer × σ
  | [] => ([], s)
  | a :: as =>
    let r := run perform (perform s a).2 as
    ((perform s a).1 :: r.1, r.2)

/-- Every scope that the actions open they close, and they close no other. -/
inductive Nested : List Action → Prop
  | nil : Nested []
  | cons {a : Action} {as : List Action} : a ≠ openScope → a ≠ closeScope → Nested as →
    Nested (a :: as)
  | scope {inside as : List Action} : Nested inside → Nested as →
    Nested (openScope :: inside ++ closeScope :: as)

theorem run_append {σ : Type} (perform : σ → Action → Answer × σ) (s : σ) (as bs : List Action) :
    (run perform s (as ++ bs)).2 = (run perform (run perform s as).2 bs).2 := by
  induction as generalizing s with
  | nil => rfl
  | cons a as ih => exact ih (perform s a).2

end SymbolTable.Action

/-- An action on a table. -/
def SymbolTable.perform (t : SymbolTable) : Action → Answer × SymbolTable
  | .openScope => (.opened t.openScope.level, t.openScope)
  | .closeScope => (.closed t.closeScope.1, t.closeScope.2)
  | .declare category name type =>
    (.declared (t.declare category name type).1, (t.declare category name type).2)
  | .lookup name => (.lookedUp (t.lookup? name), t)
  | .find name => (.found (t.find name), t)
  | .findLocal name => (.lookedUp (t.current.find? name), t)
  | .setType id type => (.changed (t.changeable id), t.update id ({ · with type }))
  | .setMeaning id meaning => (.changed (t.changeable id), t.update id ({ · with meaning }))

/-! ### Stacks of names -/

/-- A name, with the entry that it stands for and the category in which it was declared. -/
structure NameStack.Binding where
  name : String
  id : EntryId
  category : Category

/-- A stack of scopes that is never empty. Each scope lists its names in the order of their
declaration. -/
structure NameStack where
  innermost : List NameStack.Binding
  /-- The scopes around the innermost one, from the inside out. -/
  enclosing : List (List NameStack.Binding)
  /-- All entries that were ever made. -/
  entries : List Entry

namespace NameStack

open SymbolTable (Action Answer)

/-- The entry that a name stands for in a scope. -/
def entryOf? (bs : List Binding) (name : String) : Option EntryId :=
  (bs.find? (·.name = name)).map (·.id)

/-- How many variables a scope has declared. -/
def variableCount (bs : List Binding) : Nat := bs.countP (·.category = .var)

/-- The entry that a name stands for, in the innermost scope that has it. -/
def lookup? (m : NameStack) (name : String) : Option EntryId :=
  (m.innermost :: m.enclosing).findSome? (entryOf? · name)

/-- What a new name stands for. -/
def meaningOf (m : NameStack) : Category → Meaning
  | .constant => .constant 0
  | .var => .var (variableCount m.innermost) m.enclosing.length
  | .typeName => .typeName
  | .method => .method {}
  | .program => .program []

def changeable (m : NameStack) (id : EntryId) : Bool := id ≠ .none && id.index < m.entries.length

def change (m : NameStack) (id : EntryId) (f : Entry → Entry) : NameStack :=
  if id = .none then m else { m with entries := m.entries.modify id.index f }

/-- An action on a stack of names. -/
def perform (m : NameStack) : Action → Answer × NameStack
  | .openScope =>
    (.opened (m.enclosing.length + 1),
      { m with innermost := [], enclosing := m.innermost :: m.enclosing })
  | .closeScope =>
    match m.enclosing with
    | [] => (.closed [], m)
    | bs :: enclosing =>
      (.closed (m.innermost.map (·.id)), { m with innermost := bs, enclosing })
  | .declare category name type =>
    if (entryOf? m.innermost name).isSome then (.declared (.error .alreadyDeclared), m)
    else
      let id : EntryId := ⟨m.entries.length⟩
      (.declared (.ok id),
        { m with
          innermost := m.innermost ++ [⟨name, id, category⟩]
          entries := m.entries ++ [⟨name, type, m.meaningOf category⟩] })
  | .lookup name => (.lookedUp (m.lookup? name), m)
  | .find name => (.found ((m.lookup? name).elim (.error .notFound) .ok), m)
  | .findLocal name => (.lookedUp (entryOf? m.innermost name), m)
  | .setType id type => (.changed (m.changeable id), m.change id ({ · with type }))
  | .setMeaning id meaning => (.changed (m.changeable id), m.change id ({ · with meaning }))

/-- The stack that has only the names of the language. -/
def initial : NameStack where
  innermost :=
    [⟨"int", ⟨1⟩, .typeName⟩, ⟨"char", ⟨2⟩, .typeName⟩, ⟨"null", ⟨3⟩, .constant⟩,
     ⟨"chr", ⟨5⟩, .method⟩, ⟨"ord", ⟨7⟩, .method⟩, ⟨"len", ⟨9⟩, .method⟩]
  enclosing := []
  entries := SymbolTable.initial.entries.toList

theorem entryOf?_append (bs : List Binding) (b : Binding) (name : String) :
    entryOf? (bs ++ [b]) name =
      (entryOf? bs name).or (if b.name = name then some b.id else none) := by
  simp only [entryOf?, List.find?_append, Option.map_or, List.find?_singleton, decide_eq_true_eq]
  split <;> rfl

end NameStack

/-! ### A table in step with a stack -/

/-- The scope has the names of the list, each once, and counts its variables. -/
structure Scope.Shows (s : Scope) (bs : List NameStack.Binding) : Prop where
  find : ∀ name, s.find? name = NameStack.entryOf? bs name
  locals : s.locals.toList = bs.map (·.id)
  count : s.variableCount = NameStack.variableCount bs
  names : (bs.map (·.name)).Nodup

/-- The table has the scopes and entries of the stack. -/
structure SymbolTable.Shows (t : SymbolTable) (m : NameStack) : Prop where
  scopes : List.Forall₂ Scope.Shows t.scopes (m.innermost :: m.enclosing)
  entries : t.entries.toList = m.entries

theorem Scope.Shows.empty : Scope.empty.Shows [] where
  find := fun _ => find?_empty _
  locals := rfl
  count := rfl
  names := List.nodup_nil

theorem Scope.Shows.insert {s : Scope} {bs : List NameStack.Binding} (h : s.Shows bs)
    {b : NameStack.Binding} (hb : NameStack.entryOf? bs b.name = none) :
    (s.insert b.name b.id (b.category = .var)).Shows (bs ++ [b]) where
  find := by
    intro name
    rw [find?_insert, NameStack.entryOf?_append, h.find]
    by_cases hname : b.name = name
    · rw [if_pos hname, if_pos hname, ← hname, hb, Option.none_or]
    · rw [if_neg hname, if_neg hname, Option.or_none]
  locals := by simp [h.locals]
  count := by
    have := h.count
    simp only [Scope.insert, NameStack.variableCount, List.countP_append, List.countP_singleton,
      decide_eq_true_eq] at this ⊢
    split <;> omega
  names := by
    have hnew : b.name ∉ bs.map (·.name) := by
      simpa [NameStack.entryOf?, List.find?_eq_none] using hb
    rw [List.map_append]
    exact List.Nodup.append h.names (List.nodup_singleton b.name) (List.disjoint_singleton.2 hnew)

theorem Scope.Shows.findSome? {ss : List Scope} {bss : List (List NameStack.Binding)}
    (h : List.Forall₂ Scope.Shows ss bss) (name : String) :
    ss.findSome? (·.find? name) = bss.findSome? (NameStack.entryOf? · name) := by
  induction h with
  | nil => rfl
  | cons hs _ ih => rw [List.findSome?_cons, List.findSome?_cons, hs.find, ih]

namespace SymbolTable

theorem lookup?_eq_findSome? (t : SymbolTable) (name : String) :
    t.lookup? name = t.scopes.findSome? (·.find? name) := by
  simp [lookup?, scopes, List.findSome?_append]

theorem inner_ne_nil_iff (t : SymbolTable) : t.inner ≠ [] ↔ t.scopes.tail ≠ [] := by
  rcases t with ⟨entries, types, _ | ⟨s, outer⟩, outermost⟩ <;> simp [scopes]

theorem level_eq (t : SymbolTable) : t.level = t.scopes.tail.length := by
  simp [level, scopes]

namespace Shows

variable {t : SymbolTable} {m : NameStack}

theorem current (h : t.Shows m) : t.current.Shows m.innermost := by
  have := h.scopes
  rw [scopes_eq] at this
  exact (List.forall₂_cons.1 this).1

theorem tail (h : t.Shows m) : List.Forall₂ Scope.Shows t.scopes.tail m.enclosing := by
  have := h.scopes
  rw [scopes_eq] at this
  exact (List.forall₂_cons.1 this).2

theorem level (h : t.Shows m) : t.level = m.enclosing.length := by
  rw [level_eq, h.tail.length_eq]

theorem lookup? (h : t.Shows m) (name : String) : t.lookup? name = m.lookup? name := by
  rw [lookup?_eq_findSome?, NameStack.lookup?]
  exact Scope.Shows.findSome? h.scopes name

theorem find (h : t.Shows m) (name : String) :
    t.find name = (m.lookup? name).elim (.error .notFound) .ok := by
  rw [SymbolTable.find, h.lookup?]
  rcases m.lookup? name with _ | id <;> rfl

theorem size (h : t.Shows m) : t.entries.size = m.entries.length := by
  rw [← h.entries, Array.length_toList]

theorem changeable (h : t.Shows m) (id : EntryId) : t.changeable id = m.changeable id := by
  rw [SymbolTable.changeable, NameStack.changeable, h.size]

theorem meaningOf (h : t.Shows m) (category : Category) :
    t.meaningOf category = m.meaningOf category := by
  cases category <;> simp [SymbolTable.meaningOf, NameStack.meaningOf, h.current.count, h.level]

theorem update (h : t.Shows m) (id : EntryId) (f : Entry → Entry) :
    (t.update id f).Shows (m.change id f) := by
  rw [SymbolTable.update, NameStack.change]
  by_cases hid : id = .none
  · simpa [SymbolTable.changeable, hid] using h
  · rw [if_neg hid]
    by_cases hlt : id.index < t.entries.size
    · rw [if_pos (by simp [SymbolTable.changeable, hid, hlt])]
      exact ⟨h.scopes, by simp [h.entries]⟩
    · rw [if_neg (by simp [SymbolTable.changeable, hlt])]
      refine ⟨h.scopes, ?_⟩
      rw [List.modify_eq_self (by rw [← h.size]; omega), h.entries]

theorem openScope (h : t.Shows m) :
    t.openScope.Shows (m.perform .openScope).2 :=
  ⟨.cons .empty h.scopes, h.entries⟩

theorem closeScope (h : t.Shows m) :
    (t.perform .closeScope).1 = (m.perform .closeScope).1 ∧
      t.closeScope.2.Shows (m.perform .closeScope).2 := by
  obtain ⟨innermost, enclosing, entries⟩ := m
  have hcurrent := h.current
  have htail := h.tail
  rcases t with ⟨es, types, _ | ⟨s, outer⟩, outermost⟩
  · obtain rfl : enclosing = [] := List.forall₂_nil_left_iff.1 htail
    exact ⟨rfl, h⟩
  · rcases enclosing with _ | ⟨bs, enclosing⟩
    · exact absurd htail.length_eq (by simp [SymbolTable.scopes])
    · exact ⟨congrArg Answer.closed hcurrent.locals, htail, h.entries⟩

theorem declare (h : t.Shows m) (category : Category) (name : String) (type : TypeId) :
    (t.perform (.declare category name type)).1 = (m.perform (.declare category name type)).1 ∧
      (t.declare category name type).2.Shows (m.perform (.declare category name type)).2 := by
  simp only [SymbolTable.perform, SymbolTable.declare, NameStack.perform, h.current.find]
  by_cases hbound : (NameStack.entryOf? m.innermost name).isSome
  · rw [if_pos hbound, if_pos hbound]
    exact ⟨rfl, h⟩
  · rw [if_neg hbound, if_neg hbound, h.meaningOf]
    refine ⟨by simp [id_bind, h.size], ?_, ?_⟩
    · rw [scopes_bind, h.size]
      refine .cons ?_ h.tail
      have hvariable : Entry.isVariable ⟨name, type, m.meaningOf category⟩ =
          decide (category = .var) := by
        cases category <;> rfl
      rw [hvariable]
      exact h.current.insert (b := ⟨name, _, category⟩) (Option.not_isSome_iff_eq_none.1 hbound)
    · simp [h.entries]

/-- An action gets the same answer from the table as from the stack, and keeps them in step. -/
theorem perform (h : t.Shows m) (a : Action) :
    (t.perform a).1 = (m.perform a).1 ∧ (t.perform a).2.Shows (m.perform a).2 := by
  cases a with
  | openScope => exact ⟨congrArg Answer.opened (congrArg (· + 1) h.level), h.openScope⟩
  | closeScope => exact h.closeScope
  | declare category name type => exact h.declare category name type
  | lookup name => exact ⟨congrArg Answer.lookedUp (h.lookup? name), h⟩
  | find name => exact ⟨congrArg Answer.found (h.find name), h⟩
  | findLocal name => exact ⟨congrArg Answer.lookedUp (h.current.find name), h⟩
  | setType id type => exact ⟨congrArg Answer.changed (h.changeable id), h.update id _⟩
  | setMeaning id meaning => exact ⟨congrArg Answer.changed (h.changeable id), h.update id _⟩

theorem run (h : t.Shows m) (as : List Action) :
    (Action.run SymbolTable.perform t as).1 = (Action.run NameStack.perform m as).1 ∧
      (Action.run SymbolTable.perform t as).2.Shows (Action.run NameStack.perform m as).2 := by
  induction as generalizing t m with
  | nil => exact ⟨rfl, h⟩
  | cons a as ih =>
    obtain ⟨hanswer, hshows⟩ := h.perform a
    obtain ⟨hanswers, hend⟩ := ih hshows
    exact ⟨by rw [Action.run, Action.run, hanswer, hanswers], hend⟩

end Shows

/-- The table and the stack that have only the names of the language are in step. -/
theorem shows_initial : initial.Shows .initial := by
  have h := Scope.Shows.empty
  have h := h.insert (b := ⟨"int", ⟨1⟩, .typeName⟩) rfl
  have h := h.insert (b := ⟨"char", ⟨2⟩, .typeName⟩) rfl
  have h := h.insert (b := ⟨"null", ⟨3⟩, .constant⟩) rfl
  have h := h.insert (b := ⟨"chr", ⟨5⟩, .method⟩) rfl
  have h := h.insert (b := ⟨"ord", ⟨7⟩, .method⟩) rfl
  have h := h.insert (b := ⟨"len", ⟨9⟩, .method⟩) rfl
  exact ⟨.cons h .nil, rfl⟩

/-! ### What a scope leaves behind -/

/-- The table behind actions. -/
def after (t : SymbolTable) (as : List Action) : SymbolTable := (Action.run perform t as).2

theorem after_append (t : SymbolTable) (as bs : List Action) :
    t.after (as ++ bs) = (t.after as).after bs :=
  Action.run_append perform t as bs

/-- Only the innermost scope changes as long as none is opened or closed. -/
theorem tail_perform (t : SymbolTable) {a : Action} (hopen : a ≠ .openScope)
    (hclose : a ≠ .closeScope) : (t.perform a).2.scopes.tail = t.scopes.tail := by
  cases a with
  | openScope => exact absurd rfl hopen
  | closeScope => exact absurd rfl hclose
  | declare category name type =>
    simp only [perform, declare]
    split
    · rfl
    · rw [scopes_bind, List.tail_cons]
  | setType id type => simp only [perform, scopes_update]
  | setMeaning id meaning => simp only [perform, scopes_update]
  | _ => rfl

/-- If what is done in a new scope changes no scope around it, all are as before once it is closed. -/
theorem scopes_closeScope_after {inside : List Action} (t : SymbolTable)
    (h : (t.openScope.after inside).scopes.tail = t.openScope.scopes.tail) :
    (t.openScope.after inside).closeScope.2.scopes = t.scopes := by
  rw [scopes_openScope, List.tail_cons] at h
  rw [scopes_closeScope ((inner_ne_nil_iff _).2 ?_), h]
  rw [h, scopes_eq]
  exact List.cons_ne_nil _ _

/-- Actions that close what they open change no scope around the innermost one. -/
theorem tail_nested {as : List Action} (h : Action.Nested as) {t : SymbolTable}
    (ht : t.scopes.tail ≠ []) : (t.after as).scopes.tail = t.scopes.tail := by
  induction h generalizing t with
  | nil => rfl
  | @cons a as hopen hclose _ ih =>
    have ha := tail_perform t hopen hclose
    exact (ih (ha ▸ ht)).trans ha
  | @scope inside as _ _ ihInside ih =>
    -- what is inside leaves the new scope's surroundings alone, so closing it gives them back
    have hinside := ihInside (t := t.openScope) (by
      rw [scopes_openScope, List.tail_cons, scopes_eq]
      exact List.cons_ne_nil _ _)
    have hclosed := scopes_closeScope_after t hinside
    rw [after_append]
    exact (ih (hclosed.symm ▸ ht)).trans (congrArg List.tail hclosed)

/-- A scope that is opened and closed again leaves all scopes as they were. -/
theorem scopes_nested {inside : List Action} (h : Action.Nested inside) (t : SymbolTable) :
    (t.after (.openScope :: inside ++ [.closeScope])).scopes = t.scopes := by
  rw [after_append]
  refine scopes_closeScope_after t (tail_nested h ?_)
  rw [scopes_openScope, List.tail_cons, scopes_eq]
  exact List.cons_ne_nil _ _

theorem entryAt?_none_perform {t : SymbolTable} {e : Entry} (h : t.entryAt? .none = some e)
    (a : Action) : (t.perform a).2.entryAt? .none = some e := by
  have hupdate : ∀ id f, (t.update id f).entryAt? .none = some e := by
    intro id f
    rw [entryAt?_update, if_neg (by rintro ⟨rfl, hne⟩; exact hne rfl), h]
  cases a with
  | closeScope => rw [perform, entryAt?, entries_closeScope, ← entryAt?, h]
  | declare category name type =>
    simp only [perform, declare]
    split
    · exact h
    · have hne : (EntryId.none : EntryId) ≠ ⟨t.entries.size⟩ := by
        have := t.index_lt_of_entryAt? h
        rintro heq
        rw [heq] at this
        exact absurd this (Nat.lt_irrefl _)
      rw [entryAt?_bind, if_neg hne, h]
  | setType id type => exact hupdate id _
  | setMeaning id meaning => exact hupdate id _
  | _ => exact h

theorem entryAt?_none_after {t : SymbolTable} {e : Entry} (h : t.entryAt? .none = some e)
    (as : List Action) : (t.after as).entryAt? .none = some e := by
  induction as generalizing t with
  | nil => exact h
  | cons a as ih => exact ih (entryAt?_none_perform h a)

/-- A new name has an entry that was not there before. -/
theorem entryAt?_of_declare {t : SymbolTable} {category : Category} {name : String} {type : TypeId}
    {id : EntryId} (h : (t.declare category name type).1 = .ok id) : t.entryAt? id = none := by
  unfold declare at h
  split at h
  · contradiction
  · obtain rfl : (t.bind _).1 = id := Except.ok.inj h
    rw [id_bind, entryAt?, Array.getElem?_eq_none (Nat.le_refl _)]

/-- A name is refused only if the scope has it, and then nothing changes. -/
theorem eq_of_declare {t : SymbolTable} {category : Category} {name : String} {type : TypeId}
    {p : Problem} (h : (t.declare category name type).1 = .error p) :
    p = .alreadyDeclared ∧ (t.declare category name type).2 = t := by
  unfold declare at h ⊢
  split at h
  · next hbound => exact ⟨(Except.error.inj h).symm, by rw [if_pos hbound]⟩
  · contradiction

theorem closeScope_of_level {t : SymbolTable} (h : t.level = 0) :
    t.perform .closeScope = (.closed [], t) := by
  rcases t with ⟨entries, types, _ | ⟨s, outer⟩, outermost⟩
  · rfl
  · exact absurd h (Nat.succ_ne_zero _)

/-- Whatever is done with a table, it behaves like a stack of names: it gives the same answers and has
the same scopes and entries. A new name has an entry of its own, a name that is refused changes nothing,
a scope that is opened and closed again leaves every name, list and count as it was, the universe is
never closed, and the entry of undeclared names stays as it is. -/
theorem behaves_like_stack (as : List Action) :
    (Action.run perform initial as).1 = (Action.run NameStack.perform .initial as).1 ∧
    (initial.after as).Shows (Action.run NameStack.perform .initial as).2 ∧
    (∀ category name type id, ((initial.after as).declare category name type).1 = .ok id →
      (initial.after as).entryAt? id = none) ∧
    (∀ category name type p, ((initial.after as).declare category name type).1 = .error p →
      p = .alreadyDeclared ∧ ((initial.after as).declare category name type).2 = initial.after as) ∧
    (∀ inside, Action.Nested inside →
      let closed := initial.after (as ++ .openScope :: inside ++ [.closeScope])
      (∀ name, closed.lookup? name = (initial.after as).lookup? name) ∧
        closed.scopes = (initial.after as).scopes) ∧
    ((initial.after as).level = 0 →
      (initial.after as).perform .closeScope = (.closed [], initial.after as)) ∧
    (initial.after as).entryAt? .none = initial.entryAt? .none := by
  obtain ⟨hanswers, hshows⟩ := shows_initial.run as
  refine ⟨hanswers, hshows, fun _ _ _ _ => entryAt?_of_declare, fun _ _ _ _ => eq_of_declare,
    fun inside hinside => ?_, closeScope_of_level, entryAt?_none_after rfl as⟩
  have hscopes : (initial.after (as ++ .openScope :: inside ++ [.closeScope])).scopes =
      (initial.after as).scopes := by
    rw [List.append_assoc, after_append]
    exact scopes_nested hinside (initial.after as)
  exact ⟨fun name => by rw [lookup?_eq_findSome?, lookup?_eq_findSome?, hscopes], hscopes⟩

/-- A variable of the program, in front of a scope that declares its name again. -/
def shadowed : List Action := [.openScope, .declare .var "x" .int]

theorem behaves_like_stack_shadowed :
    (initial.after (shadowed ++ .openScope :: [.declare .var "x" .char] ++ [.closeScope])).lookup? "x" =
      some ⟨10⟩ ∧
    ((initial.after shadowed).declare .constant "x" .int).2 = initial.after shadowed ∧
    (initial.after shadowed).entryAt? ⟨11⟩ = none ∧
    initial.perform .closeScope = (.closed [], initial) := by
  obtain ⟨-, -, hfresh, hrefused, hclosed, -, -⟩ := behaves_like_stack shadowed
  obtain ⟨-, -, -, -, -, huniverse, -⟩ := behaves_like_stack []
  have hnested : Action.Nested [.declare .var "x" .char] := .cons nofun nofun .nil
  have hx : (initial.after shadowed).lookup? "x" = some ⟨10⟩ := by decide
  have hagain : ((initial.after shadowed).declare .constant "x" .int).1 = .error .alreadyDeclared := by
    rfl
  have hnew : ((initial.after shadowed).declare .var "y" .int).1 = .ok ⟨11⟩ := by rfl
  exact ⟨((hclosed _ hnested).1 "x").trans hx, (hrefused _ _ _ _ hagain).2, hfresh _ _ _ _ hnew,
    huniverse rfl⟩

end SymbolTable

end MicroJava
