import Mathlib.Data.List.Nodup
import MicroJava.Proofs.Closed
import MicroJava.Proofs.Slots

/-!
# Stages of a symbol table

What is known of a method is published in three parts: its parameters behind its header, its address in
front of its code, and all of its locals behind the code; and a class gets its fields when its scope is
closed. A table is at a stage of that (`Stage`), and every single change of a table leads from one stage to
the next (`Stage.Step`). In every table on such a way (`Stage.Upholds`), the locals of a method are numbered
from its parameters on, and the fields of a class are numbered and have names of their own. What a call
is checked against is settled when the header has been read (`Stage.Leads.settled`).
-/

namespace MicroJava

/-- Where in a program a table is. -/
inductive Stage where
  /-- Around the program. -/
  | outside
  /-- Between the declarations of the program, and between its methods. -/
  | program
  /-- Among the fields of a class. -/
  | fields (type : TypeId)
  /-- Behind the fields of a class, which it is still to get. -/
  | attaching (type : TypeId) (fields : List EntryId)
  /-- Behind the name of a method. -/
  | named (method : EntryId)
  /-- In the header of a method, with the parameters that could be declared so far. -/
  | header (method : EntryId) (parameters : List EntryId)
  /-- Behind the header of a method. -/
  | body (method : EntryId)
  /-- Behind the code of a method, whose locals are still to be recorded. -/
  | closing (method : EntryId) (locals : List EntryId)

namespace Stage

/-- How many scopes are open. -/
def level : Stage → Nat
  | outside => 0
  | program | attaching .. | named _ | closing .. => SymbolTable.programLevel
  | fields _ | header .. | body _ => SymbolTable.programLevel + 1

/-- The method whose header is being read. -/
def reading? : Stage → Option EntryId
  | named id | header id _ => some id
  | _ => none

end Stage

namespace SymbolTable

variable (t : SymbolTable)

/-- The entry that a declaration gives, which is that of undeclared names where it fails. -/
def declared (category : Category) (name : String) (type : TypeId) : EntryId :=
  match (t.declare category name type).1 with
  | .ok id => id
  | .error _ => .none

def nameAt? (id : EntryId) : Option String := (t.entryAt? id).map (·.name)

def methodAt? (id : EntryId) : Option Method := (t.entryAt? id).bind Entry.method?

/-- The variables of the innermost scope become the parameters of a method, which has no other locals
so far. -/
def publish (id : EntryId) (variadic : Bool) : SymbolTable :=
  t.update id (·.updateMethod fun m =>
    { m with parameters := t.current.variableCount, variadic, locals := t.current.locals.toList })

/-- An entry that is neither a variable nor a method. -/
def PlainAt (id : EntryId) : Prop := t.slotAt? id = none ∧ t.methodAt? id = none

end SymbolTable

/-- A meaning that is neither that of a variable nor that of a method. -/
def Meaning.IsPlain : Meaning → Prop
  | .var .. | .method _ => False
  | _ => True

/-- One change of a table, and where in the program it is made. -/
inductive Stage.Step : Stage → SymbolTable → Stage → SymbolTable → Prop
  | arrayOf {σ : Stage} {t : SymbolTable} (element : TypeId) : Step σ t σ (t.arrayOf element).2
  /-- The program is declared around itself, and everything else in it. -/
  | declareProgram {t : SymbolTable} (name : String) (type : TypeId) :
    Step outside t outside (t.declare .program name type).2
  | declare {t : SymbolTable} (category : Category) (name : String) (type : TypeId) :
    category ≠ .method → Step program t program (t.declare category name type).2
  /-- A constant gets its value, and the program its members. -/
  | define {σ : Stage} {t : SymbolTable} {id : EntryId} {meaning : Meaning} :
    t.PlainAt id → meaning.IsPlain → Step σ t σ (t.update id fun e => { e with meaning })
  | openProgram {t : SymbolTable} : Step outside t program t.openScope
  | closeProgram {t : SymbolTable} : Step program t outside t.closeScope.2
  | newClass {t : SymbolTable} : Step program t program t.newClass.2
  | openClass {t : SymbolTable} (type : TypeId) : Step program t (fields type) t.openScope
  | field {t : SymbolTable} {class_ : TypeId} (name : String) (type : TypeId) :
    Step (fields class_) t (fields class_) (t.declare .var name type).2
  | closeClass {t : SymbolTable} {type : TypeId} :
    Step (fields type) t (attaching type t.closeScope.1) t.closeScope.2
  | attach {t : SymbolTable} {type : TypeId} {fields : List EntryId} :
    Step (attaching type fields) t program (t.setFields type fields)
  /-- A method is declared without parameters. -/
  | method {t : SymbolTable} (name : String) (type : TypeId) :
    Step program t (named (t.declared .method name type)) (t.declare .method name type).2
  /-- A method without a name is read as well. -/
  | nameless {t : SymbolTable} : Step program t (named .none) t
  | openMethod {t : SymbolTable} {id : EntryId} : Step (named id) t (header id []) t.openScope
  | parameter {t : SymbolTable} {id : EntryId} {ids : List EntryId} (name : String) (type : TypeId) :
    Step (header id ids) t
      (header id (ids ++ (t.declare .var name type).1.toOption.toList)) (t.declare .var name type).2
  /-- A parameter is made an array of variable arguments. -/
  | collect {t : SymbolTable} {id x : EntryId} {ids : List EntryId} (type : TypeId) :
    x ∈ ids → Step (header id ids) t (header id ids) (t.update x fun e => { e with type })
  /-- The parameters are published, as the locals of the method so far. -/
  | publish {t : SymbolTable} {id : EntryId} {ids : List EntryId} (variadic : Bool) :
    Step (header id ids) t (body id) (t.publish id variadic)
  | localVariable {t : SymbolTable} {id : EntryId} (name : String) (type : TypeId) :
    Step (body id) t (body id) (t.declare .var name type).2
  | locate {t : SymbolTable} {id : EntryId} (address : Nat) :
    Step (body id) t (body id) (t.update id (·.updateMethod fun m => { m with address }))
  | closeMethod {t : SymbolTable} {id : EntryId} :
    Step (body id) t (closing id t.closeScope.1) t.closeScope.2
  | complete {t : SymbolTable} {id : EntryId} {locals : List EntryId} :
    Step (closing id locals) t program (t.update id (·.updateMethod fun m => { m with locals }))

/-- Any number of changes, one after the other. -/
inductive Stage.Leads (σ : Stage) (t : SymbolTable) : Stage → SymbolTable → Prop
  | refl : Leads σ t σ t
  | step {σ₁ σ' : Stage} {t₁ t' : SymbolTable} :
    Leads σ t σ₁ t₁ → Step σ₁ t₁ σ' t' → Leads σ t σ' t'

namespace SymbolTable

variable {t t' t'' : SymbolTable}

/-! ### Names and methods of a table -/

theorem nameAt?_bind (e : Entry) (id : EntryId) :
    (t.bind e).2.nameAt? id = if id = ⟨t.entries.size⟩ then some e.name else t.nameAt? id := by
  rw [nameAt?, entryAt?_bind]
  split <;> rfl

theorem methodAt?_bind (e : Entry) (id : EntryId) :
    (t.bind e).2.methodAt? id = if id = ⟨t.entries.size⟩ then e.method? else t.methodAt? id := by
  rw [methodAt?, entryAt?_bind]
  split <;> rfl

/-- A new entry that is no method adds none. -/
theorem methodAt?_of_bind {e : Entry} (he : e.method? = none) {id : EntryId} {m : Method}
    (h : (t.bind e).2.methodAt? id = some m) : t.methodAt? id = some m := by
  rw [methodAt?_bind] at h
  split at h
  · rw [he] at h
    contradiction
  · exact h

theorem index_lt_of_methodAt? {id : EntryId} {m : Method} (h : t.methodAt? id = some m) :
    id.index < t.entries.size := by
  obtain ⟨e, he, -⟩ := Option.bind_eq_some_iff.1 h
  exact t.index_lt_of_entryAt? he

theorem index_lt_of_nameAt? {id : EntryId} {name : String} (h : t.nameAt? id = some name) :
    id.index < t.entries.size := by
  obtain ⟨e, he, -⟩ := Option.map_eq_some_iff.1 h
  exact t.index_lt_of_entryAt? he

theorem ne_fresh {id : EntryId} (h : id.index < t.entries.size) : id ≠ ⟨t.entries.size⟩ := by
  rintro rfl
  exact Nat.lt_irrefl _ h

/-- A change that leaves the name of an entry alone leaves all names alone. -/
theorem nameAt?_update {i : EntryId} {f : Entry → Entry} (hf : ∀ e, (f e).name = e.name)
    (id : EntryId) : (t.update i f).nameAt? id = t.nameAt? id := by
  rw [nameAt?, entryAt?_update, nameAt?]
  split
  · rw [Option.map_map]
    exact congrArg (·  (t.entryAt? id)) (congrArg Option.map (funext hf))
  · rfl

theorem methodAt?_update_of_ne {i id : EntryId} (h : id ≠ i) (f : Entry → Entry) :
    (t.update i f).methodAt? id = t.methodAt? id := by
  rw [methodAt?, entryAt?_update, if_neg fun hid => h hid.1, methodAt?]

/-- What is known of a method is changed in it, and nowhere else. -/
theorem methodAt?_updateMethod (i : EntryId) (f : Method → Method) (id : EntryId) :
    (t.update i (·.updateMethod f)).methodAt? id =
      if id = i ∧ i ≠ .none then (t.methodAt? id).map f else t.methodAt? id := by
  rw [methodAt?, entryAt?_update]
  split
  · rw [methodAt?]
    rcases t.entryAt? id with _ | ⟨name, type, meaning⟩
    · rfl
    · cases meaning <;> rfl
  · rfl

theorem name_updateMethod (e : Entry) (f : Method → Method) : (e.updateMethod f).name = e.name := by
  obtain ⟨name, type, meaning⟩ := e
  cases meaning <;> rfl

theorem current_bind (e : Entry) : (t.bind e).2.current = t.current.insert e.name ⟨t.entries.size⟩
    (match e.meaning with | .var .. => true | _ => false) := by
  rw [bind, current_updateCurrent]
  rfl

theorem locals_current_bind (e : Entry) :
    (t.bind e).2.current.locals = t.current.locals.push ⟨t.entries.size⟩ := by
  rw [current_bind, Scope.locals_insert]

theorem methodAt?_closeScope (t : SymbolTable) (id : EntryId) :
    t.closeScope.2.methodAt? id = t.methodAt? id := by
  rw [methodAt?, entryAt?, entries_closeScope, methodAt?, entryAt?]

/-- A name is declared already, or bound to a new entry. -/
theorem declare_cases (t : SymbolTable) (category : Category) (name : String) (type : TypeId) :
    t.declare category name type = (.error .alreadyDeclared, t) ∨ t.current.find? name = none ∧
      t.declare category name type =
        (.ok ⟨t.entries.size⟩, (t.bind ⟨name, type, t.meaningOf category⟩).2) := by
  unfold declare
  split
  · exact .inl rfl
  · next h => exact .inr ⟨by simpa using h, rfl⟩

/-- The names, variables and methods of a table are those of another one, which may have more. -/
structure Retains (t t' : SymbolTable) : Prop extends t.Extends t' where
  nameAt? : ∀ id : EntryId, id.index < t.entries.size → t'.nameAt? id = t.nameAt? id
  isMethod : ∀ id : EntryId, id.index < t.entries.size →
    (t'.methodAt? id).isSome = (t.methodAt? id).isSome

theorem Retains.trans (h : t.Retains t') (h' : t'.Retains t'') : t.Retains t'' where
  toExtends := h.toExtends.trans h'.toExtends
  nameAt? := fun id hid => by rw [h'.nameAt? id (Nat.lt_of_lt_of_le hid h.size), h.nameAt? id hid]
  isMethod := fun id hid => by rw [h'.isMethod id (Nat.lt_of_lt_of_le hid h.size), h.isMethod id hid]

theorem Retains.bind (t : SymbolTable) (e : Entry) : t.Retains (t.bind e).2 where
  toExtends := .bind t e
  nameAt? := fun id hid => by rw [nameAt?_bind, if_neg (ne_fresh hid)]
  isMethod := fun id hid => by rw [methodAt?_bind, if_neg (ne_fresh hid)]

theorem Retains.of_entries (h : t'.entries = t.entries) : t.Retains t' where
  toExtends := .of_entries h
  nameAt? := fun id _ => by rw [SymbolTable.nameAt?, SymbolTable.nameAt?, entryAt?, entryAt?, h]
  isMethod := fun id _ => by rw [methodAt?, methodAt?, entryAt?, entryAt?, h]

theorem Retains.declare (t : SymbolTable) (category : Category) (name : String) (type : TypeId) :
    t.Retains (t.declare category name type).2 := by
  rcases t.declare_cases category name type with heq | ⟨-, heq⟩
  · rw [heq]
    exact .of_entries rfl
  · rw [heq]
    exact .bind t _

theorem Retains.update {i : EntryId} {f : Entry → Entry} (hname : ∀ e, (f e).name = e.name)
    (hslot : ∀ e, t.entryAt? i = some e → (f e).slot? = e.slot?)
    (hmethod : ∀ e, t.entryAt? i = some e → (f e).method?.isSome = e.method?.isSome) :
    t.Retains (t.update i f) where
  toExtends := .of_slotAt? (by simp) (slotAt?_update fun _ => hslot)
  nameAt? := fun id _ => nameAt?_update hname id
  isMethod := fun id _ => by
    rw [methodAt?, entryAt?_update, methodAt?]
    split
    · next h =>
      obtain ⟨rfl, -⟩ := h
      rcases he : t.entryAt? id with _ | e
      · rfl
      · exact hmethod e he
    · rfl

theorem Retains.updateMethod (t : SymbolTable) (i : EntryId) (f : Method → Method) :
    t.Retains (t.update i (·.updateMethod f)) :=
  .update (name_updateMethod · f) (fun e _ => e.slot?_updateMethod f) fun e _ => by
    obtain ⟨name, type, meaning⟩ := e
    cases meaning <;> rfl

/-- What is neither a variable nor a method may get another meaning of this kind. -/
theorem Retains.define {i : EntryId} {meaning : Meaning} (hi : t.PlainAt i) (hmeaning : meaning.IsPlain) :
    t.Retains (t.update i fun e => { e with meaning }) := by
  have hslot : ∀ e : Entry, ({ e with meaning } : Entry).slot? = none := fun _ => by
    cases meaning <;> first | rfl | exact hmeaning.elim
  have hmethod : ∀ e : Entry, ({ e with meaning } : Entry).method? = none := fun _ => by
    cases meaning <;> first | rfl | exact hmeaning.elim
  refine .update (fun _ => rfl) (fun e he => ?_) fun e he => ?_
  · rw [hslot, ← slotAt?_of_entryAt? he, hi.1]
  · have := hi.2
    rw [methodAt?, he] at this
    rw [hmethod, show e.method? = none from this]

theorem Retains.plainAt (h : t.Retains t') {id : EntryId} (hid : id.index < t.entries.size)
    (hplain : t.PlainAt id) : t'.PlainAt id := by
  refine ⟨(h.slotAt? id hid).trans hplain.1, ?_⟩
  have := h.isMethod id hid
  rwa [hplain.2, Option.isSome_none, Option.isSome_eq_false_iff, Option.isNone_iff_eq_none] at this

/-- What is known of a method behind a change was known before, or it is the method that was changed. -/
theorem of_methodAt?_updateMethod {i id : EntryId} {f : Method → Method} {m : Method}
    (h : (t.update i (·.updateMethod f)).methodAt? id = some m) :
    (id = i ∧ ∃ m₀, t.methodAt? i = some m₀ ∧ m = f m₀) ∨
      (id = i → i = .none) ∧ t.methodAt? id = some m := by
  rw [methodAt?_updateMethod] at h
  split at h
  · next hid =>
    obtain ⟨m₀, hm₀, rfl⟩ := Option.map_eq_some_iff.1 h
    exact .inl ⟨hid.1, m₀, hid.1 ▸ hm₀, rfl⟩
  · next hid => exact .inr ⟨fun hi => by_contra fun hnone => hid ⟨hi, hnone⟩, h⟩

@[simp] theorem current_update (i : EntryId) (f : Entry → Entry) :
    (t.update i f).current = t.current := by
  simp [current]

end SymbolTable

/-! ### What is upheld -/

theorem Entry.Sound.parameters_le {e : Entry} {m : Method} (h : e.Sound) (hm : e.method? = some m) :
    m.parameters ≤ m.locals.length := by
  obtain ⟨name, type, meaning⟩ := e
  cases meaning <;> simp only [Entry.method?, reduceCtorEq, Option.some.injEq] at hm
  exact hm ▸ h

/-- The names of a scope are those that it finds, and there are no two entries of one name. -/
structure Scope.Distinct (t : SymbolTable) (s : Scope) : Prop where
  names : (s.locals.toList.map t.nameAt?).Nodup
  found : ∀ id ∈ s.locals.toList, ∃ name, t.nameAt? id = some name ∧ (s.find? name).isSome

theorem Scope.Distinct.empty (t : SymbolTable) : Scope.empty.Distinct t :=
  ⟨by simp [Scope.empty], by simp [Scope.empty]⟩

/-- Names stay the same while entries are added. -/
theorem SymbolTable.Retains.map_nameAt? {t t' : SymbolTable} (h : t.Retains t') {ids : List EntryId}
    (hids : ∀ id ∈ ids, id.index < t.entries.size) : ids.map t'.nameAt? = ids.map t.nameAt? :=
  List.map_congr_left fun id hid => h.nameAt? id (hids id hid)

theorem Scope.Distinct.mono {t t' : SymbolTable} {s : Scope} (h : s.Distinct t) (ht : t.Retains t') :
    s.Distinct t' where
  names := by
    rw [ht.map_nameAt? fun id hid => ?_]
    · exact h.names
    · obtain ⟨name, hname, -⟩ := h.found id hid
      exact SymbolTable.index_lt_of_nameAt? hname
  found := fun id hid => by
    obtain ⟨name, hname, hfind⟩ := h.found id hid
    exact ⟨name, by rw [ht.nameAt? id (SymbolTable.index_lt_of_nameAt? hname), hname], hfind⟩

/-- A name that the scope does not find yet is one more name of it. -/
theorem Scope.Distinct.insert {t : SymbolTable} {s : Scope} (h : s.Distinct t) {id : EntryId}
    {name : String} (hname : t.nameAt? id = some name) (hfind : s.find? name = none) (b : Bool) :
    (s.insert name id b).Distinct t where
  names := by
    rw [Scope.locals_insert, Array.toList_push, List.map_append, List.map_singleton, hname,
      List.nodup_append]
    refine ⟨h.names, List.nodup_singleton _, ?_⟩
    rintro x hx y hy rfl
    obtain rfl := List.mem_singleton.1 hy
    obtain ⟨id', hid', heq⟩ := List.mem_map.1 hx
    obtain ⟨name', hname', hfind'⟩ := h.found id' hid'
    obtain rfl := Option.some.inj (heq.symm.trans hname')
    rw [hfind] at hfind'
    contradiction
  found := fun id' hid' => by
    rw [Scope.locals_insert, Array.toList_push, List.mem_append, List.mem_singleton] at hid'
    rcases hid' with hid' | rfl
    · obtain ⟨name', hname', hfind'⟩ := h.found id' hid'
      refine ⟨name', hname', ?_⟩
      rw [Scope.find?_insert]
      split
      · rfl
      · exact hfind'
    · exact ⟨name, hname, by rw [Scope.find?_insert, if_pos rfl]; rfl⟩

/-- A method has at least as many locals as parameters. They are entries of the table, and those of a
method of the program have the slots from zero on. -/
structure Method.Orderly (t : SymbolTable) (id : EntryId) (m : Method) : Prop where
  parameters : m.parameters ≤ m.locals.length
  known : ∀ x ∈ m.locals, x.index < t.entries.size
  slots : SymbolTable.initial.entries.size ≤ id.index → ∀ i x, m.locals[i]? = some x →
    t.slotAt? x = some (i, SymbolTable.programLevel + 1)

theorem Method.Orderly.mono {t t' : SymbolTable} {id : EntryId} {m : Method} (h : m.Orderly t id)
    (ht : t.Extends t') : m.Orderly t' id where
  parameters := h.parameters
  known := fun x hx => Nat.lt_of_lt_of_le (h.known x hx) ht.size
  slots := fun hid i x hx => by
    rw [ht.slotAt? x (h.known x (List.mem_of_getElem? hx))]
    exact h.slots hid i x hx

/-- The variables of a scope of the program are orderly locals of any method. -/
theorem Method.Orderly.of_scope {t : SymbolTable} {s : Scope} {m : Method}
    (hs : s.Numbered t (SymbolTable.programLevel + 1)) (hlocals : m.locals = s.locals.toList)
    (hparameters : m.parameters ≤ s.locals.toList.length) (id : EntryId) : m.Orderly t id where
  parameters := hlocals ▸ hparameters
  known := fun x hx => hs.known x (by rwa [hlocals, Array.mem_toList_iff] at hx)
  slots := fun _ i x hx => by
    rw [hlocals] at hx
    exact hs.slotAt?_of_getElem? (Nat.lt_succ_self _) hx

/-- A method of which only the parameters are known so far, which are the first of some locals. -/
structure Method.Begins (m : Method) (locals : List EntryId) : Prop where
  length : m.parameters = m.locals.length
  front : m.locals <+: locals

theorem Method.Begins.mono {m : Method} {ids ids' : List EntryId} (h : m.Begins ids)
    (hids : ids <+: ids') : m.Begins ids' := ⟨h.length, h.front.trans hids⟩

theorem Method.Begins.parameters_le {m : Method} {ids : List EntryId} (h : m.Begins ids) :
    m.parameters ≤ ids.length := h.length ▸ h.front.length_le

namespace Stage

/-- What is upheld at a stage besides. -/
def Holds : Stage → SymbolTable → Prop
  | outside, _ | program, _ | named _, _ => True
  | fields _, t => t.current.Distinct t
  | attaching _ ids, t => ∃ s : Scope, ids = s.locals.toList ∧ s.Distinct t ∧
    s.Numbered t (SymbolTable.programLevel + 1)
  | header _ ids, t => t.current.locals.toList = ids ∧
    ∀ id m, t.methodAt? id = some m → ∀ x ∈ m.locals, x ∉ ids
  | body id, t => ∀ m, t.methodAt? id = some m → m.Begins t.current.locals.toList
  | closing id ids, t => (∃ s : Scope, ids = s.locals.toList ∧
    s.Numbered t (SymbolTable.programLevel + 1)) ∧ ∀ m, t.methodAt? id = some m → m.Begins ids

/-- What is upheld at a stage does not change with the entries around it. -/
theorem Holds.mono {σ : Stage} {t t' : SymbolTable} (h : σ.Holds t) (ht : t.Retains t')
    (hcurrent : t'.current = t.current)
    (hmethods : ∀ id m, t'.methodAt? id = some m → t.methodAt? id = some m) : σ.Holds t' := by
  cases σ with
  | fields type =>
    rw [Holds, hcurrent]
    exact Scope.Distinct.mono h ht
  | attaching type ids =>
    obtain ⟨s, hids, hdistinct, hs⟩ := h
    exact ⟨s, hids, hdistinct.mono ht, hs.mono ht.toExtends⟩
  | header id ids => exact ⟨hcurrent ▸ h.1, fun id' m hm => h.2 id' m (hmethods id' m hm)⟩
  | body id =>
    intro m hm
    rw [hcurrent]
    exact h m (hmethods id m hm)
  | closing id ids =>
    obtain ⟨⟨s, hids, hs⟩, hmethod⟩ := h
    exact ⟨⟨s, hids, hs.mono ht.toExtends⟩, fun m hm => hmethod m (hmethods id m hm)⟩
  | _ => trivial

/-- What is upheld in every table on the way. -/
structure Upholds (σ : Stage) (t : SymbolTable) : Prop where
  level : t.level = σ.level
  numbered : t.Numbered
  none : t.methodAt? .none = none
  methods : ∀ id m, t.methodAt? id = some m → m.Orderly t id
  fields : ∀ ty, ((t.types.fields ty).map t.nameAt?).Nodup
  holds : σ.Holds t

namespace Upholds

variable {σ : Stage} {t : SymbolTable}

theorem initial : outside.Upholds .initial where
  level := rfl
  numbered := .initial
  none := rfl
  methods := fun id m hm => by
    obtain ⟨e, he, hmethod⟩ := Option.bind_eq_some_iff.1 hm
    refine ⟨(SymbolTable.Sound.initial.entryAt? he).parameters_le hmethod, ?_, fun hid => ?_⟩
    · exact (SymbolTable.Closed.initial.entryAt? he).locals m hmethod
    · exact absurd (SymbolTable.index_lt_of_entryAt? _ he) (Nat.not_lt.2 hid)
  fields := fun ty => by
    rw [show SymbolTable.initial.types.fields ty = [] from Types.fields_arrayOf_initial .none ty]
    exact List.nodup_nil
  holds := trivial

/-- A change that leaves names, variables and methods alone, but for methods that are orderly and
classes with names of their own. -/
theorem change (h : σ.Upholds t) {σ' : Stage} {t' : SymbolTable} (ht : t.Retains t')
    (hlevel : t'.level = σ'.level) (hnumbered : t'.Numbered) (hnone : t'.methodAt? .none = Option.none)
    (hmethods : ∀ id m, t'.methodAt? id = some m → t.methodAt? id = some m ∨ m.Orderly t' id)
    (hfields : ∀ ty, t'.types.fields ty = t.types.fields ty ∨
      ((t'.types.fields ty).map t'.nameAt?).Nodup)
    (hholds : σ'.Holds t') : σ'.Upholds t' where
  level := hlevel
  numbered := hnumbered
  none := hnone
  methods := fun id m hm => by
    rcases hmethods id m hm with hm | hm
    · exact (h.methods id m hm).mono ht.toExtends
    · exact hm
  fields := fun ty => by
    rcases hfields ty with heq | hnodup
    · rw [heq, ht.map_nameAt? (h.numbered.known ty)]
      exact h.fields ty
    · exact hnodup
  holds := hholds

/-- A change of the types that gives no class other fields. -/
theorem withTypes (h : σ.Upholds t) {types : Types}
    (hnumbered : ({ t with types } : SymbolTable).Numbered)
    (hfields : ∀ ty, types.fields ty = t.types.fields ty) : σ.Upholds { t with types } :=
  h.change (.of_entries rfl) h.level hnumbered h.none (fun _ _ => .inl) (fun ty => .inl (hfields ty))
    (h.holds.mono (.of_entries rfl) rfl fun _ _ hm => hm)

/-- One more entry, which is no method or one of which nothing is known. -/
theorem bind (h : σ.Upholds t) {σ' : Stage} {e : Entry} (hσ : σ'.level = σ.level)
    (hmethod : ∀ m, e.method? = some m → m = {})
    (hslot : e.slot? = Option.none ∧ t.level ≤ SymbolTable.programLevel ∨
      e.slot? = some (t.current.variableCount, t.level) ∧ 0 < t.level)
    (hholds : σ'.Holds (t.bind e).2) : σ'.Upholds (t.bind e).2 := by
  refine h.change (.bind t e) ?_ (h.numbered.bind hslot) ?_ (fun id m hm => ?_)
    (fun ty => .inl (by rw [SymbolTable.types_bind])) hholds
  · rw [SymbolTable.level_bind, h.level, hσ]
  · rw [SymbolTable.methodAt?_bind,
      if_neg (SymbolTable.ne_fresh (show EntryId.none.index < _ from h.numbered.nonempty)), h.none]
  · rw [SymbolTable.methodAt?_bind] at hm
    split at hm
    · obtain rfl := hmethod m hm
      exact .inr ⟨Nat.le_refl 0, by simp, by simp⟩
    · exact .inl hm

/-- A declaration that succeeds in giving an entry, or that leaves the table alone. -/
theorem declare (h : σ.Upholds t) {σ' : Stage} {category : Category} {name : String} {type : TypeId}
    (hσ : σ'.level = σ.level)
    (hcategory : category = .var ∧ 0 < σ.level ∨ category ≠ .var ∧ σ.level ≤ SymbolTable.programLevel)
    (hsame : t.declare category name type = (.error .alreadyDeclared, t) → σ'.Holds t)
    (hnew : t.current.find? name = Option.none →
      t.declare category name type =
        (.ok ⟨t.entries.size⟩, (t.bind ⟨name, type, t.meaningOf category⟩).2) →
      σ'.Holds (t.bind ⟨name, type, t.meaningOf category⟩).2) :
    σ'.Upholds (t.declare category name type).2 := by
  rcases t.declare_cases category name type with heq | ⟨hfind, heq⟩
  · rw [heq]
    exact h.change (.of_entries rfl) (h.level.trans hσ.symm) h.numbered h.none (fun _ _ => .inl)
      (fun _ => .inl rfl) (hsame heq)
  · rw [heq]
    refine h.bind hσ (fun m hm => ?_) ?_ (hnew hfind heq)
    · cases category <;>
        simp only [Entry.method?, SymbolTable.meaningOf, reduceCtorEq, Option.some.injEq] at hm
      exact hm.symm
    · rw [h.level]
      rcases hcategory with ⟨rfl, hlevel⟩ | ⟨hvar, hlevel⟩
      · exact .inr ⟨by rw [← h.level]; rfl, hlevel⟩
      · refine .inl ⟨?_, hlevel⟩
        cases category <;> first | rfl | exact absurd rfl hvar

/-- A change of an entry that leaves its name, its slot and its method alone. -/
theorem update (h : σ.Upholds t) {i : EntryId} {f : Entry → Entry}
    (hretains : t.Retains (t.update i f))
    (hmethod : ∀ e m, t.entryAt? i = some e → (f e).method? = some m → e.method? = some m) :
    σ.Upholds (t.update i f) := by
  have hmethods : ∀ id m, (t.update i f).methodAt? id = some m → t.methodAt? id = some m := by
    intro id m hm
    rw [SymbolTable.methodAt?, SymbolTable.entryAt?_update] at hm
    split at hm
    · next hid =>
      obtain ⟨_, hf, hm⟩ := Option.bind_eq_some_iff.1 hm
      obtain ⟨e, he, rfl⟩ := Option.map_eq_some_iff.1 hf
      exact Option.bind_eq_some_iff.2 ⟨e, he, hmethod e m (hid.1 ▸ he) hm⟩
    · exact hm
  refine h.change hretains ?_ (h.numbered.mono hretains.toExtends (by simp) (by simp) (by simp)) ?_
    (fun id m hm => .inl (hmethods id m hm)) (fun ty => .inl (by rw [SymbolTable.types_update])) ?_
  · rw [← h.level]
    simp [SymbolTable.level]
  · refine Option.eq_none_iff_forall_ne_some.2 fun m hm => ?_
    have := hmethods .none m hm
    rw [h.none] at this
    contradiction
  · exact h.holds.mono hretains (by simp [SymbolTable.current]) hmethods

/-- A change of what is known of a method, which leaves it orderly. -/
theorem updateMethod (h : σ.Upholds t) {σ' : Stage} {i : EntryId} {f : Method → Method}
    (hσ : σ'.level = σ.level) (hf : ∀ m, t.methodAt? i = some m → (f m).Orderly t i)
    (hholds : σ'.Holds (t.update i (·.updateMethod f))) :
    σ'.Upholds (t.update i (·.updateMethod f)) := by
  have hretains := SymbolTable.Retains.updateMethod t i f
  refine h.change hretains ?_ (h.numbered.update fun _ e _ => e.slot?_updateMethod f) ?_ ?_
    (fun ty => .inl (by rw [SymbolTable.types_update])) hholds
  · rw [hσ, ← h.level]
    simp [SymbolTable.level]
  · rw [SymbolTable.methodAt?_updateMethod, h.none]
    split <;> rfl
  · intro id m hm
    rcases SymbolTable.of_methodAt?_updateMethod hm with ⟨rfl, m₀, hm₀, rfl⟩ | ⟨-, hm⟩
    · exact .inr ((hf m₀ hm₀).mono hretains.toExtends)
    · exact .inl hm

/-- Behind a scope, all entries and types are still what they were. -/
theorem closeScope (h : σ.Upholds t) {σ' : Stage} (hσ : t.level - 1 = σ'.level)
    (hholds : σ'.Holds t.closeScope.2) : σ'.Upholds t.closeScope.2 :=
  h.change (.of_entries t.entries_closeScope) (t.level_closeScope.trans hσ) h.numbered.closeScope
    (by rw [t.methodAt?_closeScope, h.none]) (fun id m hm => .inl (t.methodAt?_closeScope id ▸ hm))
    (fun ty => .inl (by rw [t.types_closeScope])) hholds

end Upholds

variable {σ σ' : Stage} {t t' : SymbolTable}

/-- The scope of a class or method declares variables only. -/
theorem Upholds.current (h : σ.Upholds t) (hσ : σ.level = SymbolTable.programLevel + 1) :
    t.current.Numbered t (SymbolTable.programLevel + 1) := by
  have hlevel := h.level.trans hσ
  exact hlevel ▸ h.numbered.current (by omega)

theorem locals_closeScope (h : t.level = SymbolTable.programLevel + 1) :
    t.closeScope.1 = t.current.locals.toList := by
  exact t.closeScope_fst (by rw [show t.inner.length = _ from h]; exact Nat.succ_pos _)

/-- No change takes a name, a variable or a method away. -/
theorem Step.retains (h : Step σ t σ' t') : t.Retains t' := by
  cases h with
  | arrayOf | openProgram | newClass | openClass | attach | nameless | openMethod =>
    exact .of_entries rfl
  | declareProgram | declare | field | method | parameter | localVariable => exact .declare t ..
  | define hid hmeaning => exact .define hid hmeaning
  | closeProgram | closeClass | closeMethod => exact .of_entries t.entries_closeScope
  | collect => exact .update (fun _ => rfl) (fun _ _ => rfl) fun _ _ => rfl
  | publish | locate | complete => exact .updateMethod t _ _

theorem Leads.retains (h : Leads σ t σ' t') : t.Retains t' := by
  induction h with
  | refl => exact .of_entries rfl
  | step _ hstep ih => exact ih.trans hstep.retains

/-- Every change of a table upholds what is upheld at its stage. -/
theorem Step.upholds (h : Step σ t σ' t') (ht : σ.Upholds t) : σ'.Upholds t' := by
  have hlevel : SymbolTable.programLevel < SymbolTable.programLevel + 1 := Nat.lt_succ_self _
  cases h with
  | arrayOf element =>
    exact ht.withTypes (ht.numbered.arrayOf element) (t.types.fields_push rfl)
  | declareProgram name type =>
    exact ht.declare rfl (.inr ⟨by simp, Nat.zero_le _⟩) (fun _ => trivial) fun _ _ => trivial
  | declare category name type hcategory =>
    refine ht.declare rfl ?_ (fun _ => trivial) fun _ _ => trivial
    by_cases hvar : category = .var
    · exact .inl ⟨hvar, Nat.zero_lt_one⟩
    · exact .inr ⟨hvar, Nat.le_refl _⟩
  | @define _ _ id meaning hid hmeaning =>
    refine ht.update (.define hid hmeaning) fun e m he hm => ?_
    cases meaning <;> first | exact hmeaning.elim | exact absurd hm (by simp [Entry.method?])
  | openProgram =>
    exact ht.change (.of_entries rfl) (congrArg (· + 1) ht.level) ht.numbered.openScope ht.none
      (fun _ _ => .inl) (fun _ => .inl rfl) trivial
  | closeProgram =>
    refine ht.closeScope ?_ trivial
    rw [ht.level]
    rfl
  | newClass => exact ht.withTypes ht.numbered.newClass (t.types.fields_push rfl)
  | openClass type =>
    exact ht.change (.of_entries rfl) (congrArg (· + 1) ht.level) ht.numbered.openScope ht.none
      (fun _ _ => .inl) (fun _ => .inl rfl) (.empty _)
  | @field _ class_ name type =>
    refine ht.declare rfl (.inl ⟨rfl, Nat.succ_pos _⟩) (fun _ => ht.holds) fun hfind _ => ?_
    rw [Holds, SymbolTable.current_bind]
    exact (Scope.Distinct.mono ht.holds (.bind t _)).insert
      (by rw [SymbolTable.nameAt?_bind, if_pos rfl]) hfind _
  | closeClass =>
    have hretains : t.Retains t.closeScope.2 := .of_entries t.entries_closeScope
    refine ht.closeScope (by rw [ht.level]; rfl) ⟨t.current, locals_closeScope ht.level, ?_, ?_⟩
    · exact Scope.Distinct.mono ht.holds hretains
    · exact (ht.current rfl).mono hretains.toExtends
  | @attach _ type ids =>
    obtain ⟨s, rfl, hdistinct, hs⟩ := ht.holds
    refine ht.change (.of_entries rfl) ht.level (ht.numbered.setFields type hs hlevel) ht.none
      (fun _ _ => .inl) (fun ty => ?_) trivial
    rcases t.types.fields_setFields type s.locals.toList ty with heq | heq
    · exact .inl heq
    · exact .inr (by rw [show (t.setFields type _).types.fields ty = _ from heq]; exact hdistinct.names)
  | method name type =>
    refine ht.declare rfl (.inr ⟨by simp, Nat.le_refl _⟩) (fun _ => trivial) fun _ _ => trivial
  | nameless =>
    exact ht.change (.of_entries rfl) ht.level ht.numbered ht.none (fun _ _ => .inl)
      (fun _ => .inl rfl) trivial
  | openMethod =>
    exact ht.change (.of_entries rfl) (congrArg (· + 1) ht.level) ht.numbered.openScope ht.none
      (fun _ _ => .inl) (fun _ => .inl rfl) ⟨rfl, by simp⟩
  | @parameter _ id ids name type =>
    obtain ⟨hlocals, hfresh⟩ := ht.holds
    refine ht.declare rfl (.inl ⟨rfl, Nat.succ_pos _⟩) (fun heq => ?_) fun _ heq => ?_
    · rw [heq]
      exact ⟨by simp [hlocals, Except.toOption], by simpa [Except.toOption] using hfresh⟩
    · rw [heq]
      refine ⟨by simp [SymbolTable.locals_current_bind, hlocals, Except.toOption], ?_⟩
      intro id' m hm x hx
      replace hm := SymbolTable.methodAt?_of_bind rfl hm
      -- the new entry is none that was known, which those of a method are
      have hne := SymbolTable.ne_fresh ((ht.methods id' m hm).known x hx)
      simpa [Except.toOption, hne] using hfresh id' m hm x hx
  | @collect _ id x ids type hx =>
    exact ht.update (.update (fun _ => rfl) (fun _ _ => rfl) fun _ _ => rfl) fun _ _ _ hm => hm
  | @publish _ id ids variadic =>
    have hs := ht.current rfl
    have hlength : t.current.variableCount = t.current.locals.toList.length := by
      rw [Array.length_toList, hs.size_locals hlevel]
    refine ht.updateMethod rfl (fun m _ => .of_scope hs rfl (Nat.le_of_eq hlength) id) fun m hm => ?_
    rw [SymbolTable.current_update]
    rcases SymbolTable.of_methodAt?_updateMethod hm with ⟨-, m₀, -, rfl⟩ | ⟨hid, hm⟩
    · exact ⟨hlength, List.prefix_rfl⟩
    · exact absurd (hid rfl ▸ hm) (by simp [ht.none])
  | @localVariable _ id name type =>
    refine ht.declare rfl (.inl ⟨rfl, Nat.succ_pos _⟩) (fun _ => ht.holds) fun _ _ m hm => ?_
    refine (ht.holds m (SymbolTable.methodAt?_of_bind rfl hm)).mono ?_
    rw [SymbolTable.locals_current_bind, Array.toList_push]
    exact List.prefix_append _ _
  | @locate _ id address =>
    refine ht.updateMethod rfl (fun m hm => ?_) fun m hm => ?_
    · have horderly := ht.methods id m hm
      exact ⟨horderly.parameters, horderly.known, horderly.slots⟩
    · rw [SymbolTable.current_update]
      rcases SymbolTable.of_methodAt?_updateMethod hm with ⟨-, m₀, hm₀, rfl⟩ | ⟨-, hm⟩
      · have hbegins := ht.holds m₀ hm₀
        exact ⟨hbegins.length, hbegins.front⟩
      · exact ht.holds m hm
  | closeMethod =>
    have hretains : t.Retains t.closeScope.2 := .of_entries t.entries_closeScope
    refine ht.closeScope (by rw [ht.level]; rfl) ⟨⟨t.current, locals_closeScope ht.level, ?_⟩, ?_⟩
    · exact (ht.current rfl).mono hretains.toExtends
    · intro m hm
      rw [locals_closeScope ht.level]
      rw [t.methodAt?_closeScope] at hm
      exact ht.holds m hm
  | @complete _ id ids =>
    obtain ⟨⟨s, rfl, hs⟩, hmethod⟩ := ht.holds
    refine ht.updateMethod rfl (fun m hm => .of_scope hs rfl ?_ id) trivial
    exact (hmethod m hm).parameters_le

/-- What is upheld in a table is upheld in every one that it leads to. -/
theorem Leads.upholds (h : Leads σ t σ' t') (ht : σ.Upholds t) : σ'.Upholds t' := by
  induction h with
  | refl => exact ht
  | step _ hstep ih => exact hstep.upholds ih

theorem Leads.trans {σ₁ : Stage} {t₁ : SymbolTable} (h : Leads σ t σ₁ t₁) (h' : Leads σ₁ t₁ σ' t') :
    Leads σ t σ' t' := by
  induction h' with
  | refl => exact h
  | step _ hstep ih => exact ih.step hstep

/-- The field of a class with some name is the only one with this name. -/
theorem Upholds.findField_eq_ok_iff (h : σ.Upholds t) {name : String} {ty : TypeId} {id : EntryId} :
    t.findField name ty = .ok id ↔ id ∈ t.types.fields ty ∧ t.nameAt? id = some name := by
  have hnamed : ∀ id, (t.entryAt? id).any (·.name == name) = decide (t.nameAt? id = some name) := by
    intro id
    rw [SymbolTable.nameAt?]
    rcases t.entryAt? id with _ | e
    · rfl
    · simp [beq_eq_decide]
  simp only [SymbolTable.findField, hnamed]
  constructor
  · intro hfind
    split at hfind
    · next id' hid' =>
      obtain rfl := Except.ok.inj hfind
      exact ⟨List.mem_of_find?_eq_some hid', by simpa using List.find?_some hid'⟩
    · contradiction
  · rintro ⟨hmem, hname⟩
    have hsome : ((t.types.fields ty).find? fun id => decide (t.nameAt? id = some name)).isSome :=
      List.find?_isSome.2 ⟨id, hmem, by simpa using hname⟩
    obtain ⟨id', hid'⟩ := Option.isSome_iff_exists.1 hsome
    have hname' : t.nameAt? id' = some name := by simpa using List.find?_some hid'
    have : id' = id := List.inj_on_of_nodup_map (h.fields ty) (List.mem_of_find?_eq_some hid') hmem
      (hname'.trans hname.symm)
    rw [hid', this]

end Stage

end MicroJava
