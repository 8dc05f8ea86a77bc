import MicroJava.Production.Call
import MicroJava.Proofs.Stages

/-!
# Settled parameters

What a call of a method is checked against (`SymbolTable.signature?`) depends on the parameters of the
method, on their types and on the element type of the last of them. Behind the header of the method none
of these changes any more (`Stage.Leads.settles`), although its address and its local variables are known
only later.
-/

namespace MicroJava

/-! ### What calls are checked against -/

namespace SymbolTable

variable (t : SymbolTable)

def typeAt? (id : EntryId) : Option TypeId := (t.entryAt? id).map (·.type)

def typesAt? : List EntryId → Option (List TypeId)
  | [] => some []
  | id :: ids => do return (← t.typeAt? id) :: (← typesAt? ids)

def extraAt? : (variadic : Bool) → (last : Option TypeId) → Option (Option TypeId)
  | true, some type => (t.types.descriptor? type).map fun d => some d.element
  | _, _ => some none

/-- What a call of a method is checked against, if all that it depends on is in the table. -/
def signature? (m : Method) : Option Production.Signature := do
  let parameters ← t.typesAt? m.leading
  let extra ← t.extraAt? m.variadic parameters.getLast?
  return { parameters, fixed := m.fixed, extra }

variable {t t' : SymbolTable}

theorem typeAt?_bind (e : Entry) (id : EntryId) :
    (t.bind e).2.typeAt? id = if id = ⟨t.entries.size⟩ then some e.type else t.typeAt? id := by
  rw [typeAt?, entryAt?_bind]
  split <;> rfl

theorem type_updateMethod (e : Entry) (f : Method → Method) : (e.updateMethod f).type = e.type := by
  obtain ⟨name, type, meaning⟩ := e
  cases meaning <;> rfl

theorem typeAt?_update {i : EntryId} {f : Entry → Entry} (id : EntryId)
    (hf : id = i → ∀ e, (f e).type = e.type) : (t.update i f).typeAt? id = t.typeAt? id := by
  rw [typeAt?, entryAt?_update, typeAt?]
  split
  · next h =>
    rw [Option.map_map]
    exact congrArg (· (t.entryAt? id)) (congrArg Option.map (funext (hf h.1)))
  · rfl

theorem typesAt?_congr {ids : List EntryId} (h : ∀ x ∈ ids, t'.typeAt? x = t.typeAt? x) :
    t'.typesAt? ids = t.typesAt? ids := by
  induction ids with
  | nil => rfl
  | cons x ids ih =>
    rw [typesAt?, typesAt?, h x List.mem_cons_self, ih fun y hy => h y (List.mem_cons_of_mem x hy)]

/-- The types of the one table are in the other one, with the same elements. -/
def KeepsElements (t t' : SymbolTable) : Prop :=
  ∀ ty d, t.types.descriptor? ty = some d →
    ∃ d', t'.types.descriptor? ty = some d' ∧ d'.element = d.element

theorem KeepsElements.of_types (h : t'.types = t.types) : t.KeepsElements t' :=
  fun _ d hd => ⟨d, h ▸ hd, rfl⟩

theorem KeepsElements.push (t : SymbolTable) (d : Descriptor) :
    t.KeepsElements { t with types := ⟨t.types.descriptors.push d⟩ } :=
  fun ty d' hd' => ⟨d', Types.descriptor?_push d ty d' hd', rfl⟩

theorem KeepsElements.setFields (t : SymbolTable) (ty : TypeId) (fields : List EntryId) :
    t.KeepsElements (t.setFields ty fields) := by
  intro ty' d hd
  have hset := t.types.descriptor?_setFields ty fields ty'
  rw [hd] at hset
  split at hset
  · refine ⟨_, hset, ?_⟩
    cases d <;> rfl
  · exact ⟨d, hset, rfl⟩

theorem KeepsElements.extraAt? (h : t.KeepsElements t') {variadic : Bool} {last : Option TypeId}
    {extra : Option TypeId} (he : t.extraAt? variadic last = some extra) :
    t'.extraAt? variadic last = some extra := by
  rcases variadic with _ | _
  · exact he
  rcases last with _ | ty
  · exact he
  obtain ⟨d, hd, rfl⟩ := Option.map_eq_some_iff.1 he
  obtain ⟨d', hd', helement⟩ := h ty d hd
  simp [SymbolTable.extraAt?, hd', helement]

theorem Closed.exists_types (h : t.Closed) : ∀ {ids : List EntryId}, (∀ x ∈ ids, x.IsKnown t) →
    ∃ types, t.typesAt? ids = some types ∧ ∀ ty ∈ types, ty.IsKnown t
  | [], _ => ⟨[], rfl, by simp⟩
  | x :: ids, hids => by
    obtain ⟨types, htypes, hknown⟩ := h.exists_types fun y hy => hids y (List.mem_cons_of_mem x hy)
    obtain ⟨e, he⟩ := exists_entry (hids x List.mem_cons_self)
    refine ⟨e.type :: types, by simp [typesAt?, typeAt?, he, htypes], ?_⟩
    simpa using ⟨(h.entryAt? he).type, hknown⟩

/-- In a table without dangling handles, there is something that calls of a method are checked against. -/
theorem Closed.exists_signature (h : t.Closed) {id : EntryId} {m : Method}
    (hm : t.methodAt? id = some m) : ∃ s, t.signature? m = some s := by
  obtain ⟨e, he, hmethod⟩ := Option.bind_eq_some_iff.1 hm
  have hleading : ∀ x ∈ m.leading, x.IsKnown t := fun x hx =>
    (h.entryAt? he).locals m hmethod x (List.mem_of_mem_take hx)
  obtain ⟨types, htypes, hknown⟩ := h.exists_types hleading
  have hextra : ∃ extra, t.extraAt? m.variadic types.getLast? = some extra := by
    rcases m.variadic with _ | _
    · exact ⟨none, rfl⟩
    rcases hlast : types.getLast? with _ | ty
    · exact ⟨none, rfl⟩
    obtain ⟨d, hd⟩ := exists_descriptor (hknown ty (List.mem_of_getLast? hlast))
    exact ⟨some d.element, by simp [extraAt?, hd]⟩
  obtain ⟨extra, hextra⟩ := hextra
  exact ⟨_, by rw [signature?, htypes, Option.bind_eq_bind, Option.bind_some, hextra]; rfl⟩

end SymbolTable

/-- A method takes the same parameters in two tables. -/
structure Method.Agrees (t : SymbolTable) (m : Method) (t' : SymbolTable) (m' : Method) : Prop where
  parameters : m'.parameters = m.parameters
  variadic : m'.variadic = m.variadic
  leading : m'.leading = m.leading
  types : ∀ x ∈ m.leading, t'.typeAt? x = t.typeAt? x
  elements : t.KeepsElements t'

namespace Method.Agrees

variable {t t' t'' : SymbolTable} {m m' m'' : Method}

theorem refl (t : SymbolTable) (m : Method) : m.Agrees t t m :=
  ⟨rfl, rfl, rfl, fun _ _ => rfl, .of_types rfl⟩

theorem trans (h : m.Agrees t t' m') (h' : m'.Agrees t' t'' m'') : m.Agrees t t'' m'' where
  parameters := h'.parameters.trans h.parameters
  variadic := h'.variadic.trans h.variadic
  leading := h'.leading.trans h.leading
  types := fun x hx => (h'.types x (h.leading ▸ hx)).trans (h.types x hx)
  elements := fun ty d hd => by
    obtain ⟨d', hd', helement⟩ := h.elements ty d hd
    obtain ⟨d'', hd'', helement'⟩ := h'.elements ty d' hd'
    exact ⟨d'', hd'', helement'.trans helement⟩

/-- So its calls are checked against the same signature. -/
theorem signature? (h : m.Agrees t t' m') {s : Production.Signature} (hs : t.signature? m = some s) :
    t'.signature? m' = some s := by
  have hparameters : t'.typesAt? m'.leading = t.typesAt? m.leading := by
    rw [h.leading, SymbolTable.typesAt?_congr h.types]
  have hfixed : m'.fixed = m.fixed := by rw [Method.fixed, Method.fixed, h.parameters, h.variadic]
  obtain ⟨types, htypes, hs⟩ := Option.bind_eq_some_iff.1 hs
  obtain ⟨extra, hextra, hs⟩ := Option.bind_eq_some_iff.1 hs
  rw [SymbolTable.signature?, hparameters, h.variadic, hfixed, htypes]
  exact Option.bind_eq_some_iff.2 ⟨types, rfl, Option.bind_eq_some_iff.2
    ⟨extra, h.elements.extraAt? hextra, hs⟩⟩

end Method.Agrees

namespace Stage

variable {σ σ' : Stage} {t t' : SymbolTable}

/-- The parameters of a method do not change any more behind its header. -/
structure Settles (id : EntryId) (m : Method) (t : SymbolTable) (σ' : Stage) (t' : SymbolTable) :
    Prop where
  reading : σ'.reading? ≠ some id
  agrees : ∃ m', t'.methodAt? id = some m' ∧ m.Agrees t t' m'

section Settles

variable {id : EntryId} {m : Method}

/-- A change of other entries and of types leaves what is known of the method. -/
theorem Settles.of_same (hm : t.methodAt? id = some m) (hread : σ'.reading? ≠ some id)
    (hmethod : t'.methodAt? id = t.methodAt? id)
    (htypes : ∀ x ∈ m.leading, t'.typeAt? x = t.typeAt? x) (helements : t.KeepsElements t') :
    Settles id m t σ' t' :=
  ⟨hread, m, hmethod.trans hm, rfl, rfl, rfl, htypes, helements⟩

theorem Settles.of_entries (hm : t.methodAt? id = some m) (hread : σ'.reading? ≠ some id)
    (hentries : t'.entries = t.entries) (helements : t.KeepsElements t') : Settles id m t σ' t' := by
  have hentryAt : ∀ x, t'.entryAt? x = t.entryAt? x := fun x => by
    rw [SymbolTable.entryAt?, SymbolTable.entryAt?, hentries]
  refine .of_same hm hread ?_ (fun x _ => ?_) helements
  · rw [SymbolTable.methodAt?, SymbolTable.methodAt?, hentryAt]
  · rw [SymbolTable.typeAt?, SymbolTable.typeAt?, hentryAt]

theorem Upholds.index_lt_of_mem_leading (ht : σ.Upholds t) (hm : t.methodAt? id = some m) {x : EntryId}
    (hx : x ∈ m.leading) : x.index < t.entries.size :=
  (ht.methods id m hm).known x (List.mem_of_mem_take hx)

theorem Settles.declare (ht : σ.Upholds t) (hm : t.methodAt? id = some m)
    (hread : σ'.reading? ≠ some id) (category : Category) (name : String) (type : TypeId) :
    Settles id m t σ' (t.declare category name type).2 := by
  rcases t.declare_cases category name type with heq | ⟨-, heq⟩
  · rw [heq]
    exact .of_entries hm hread rfl (.of_types rfl)
  · rw [heq]
    refine .of_same hm hread ?_ (fun x hx => ?_) (.of_types (SymbolTable.types_bind ..))
    · rw [SymbolTable.methodAt?_bind, if_neg (SymbolTable.ne_fresh (t.index_lt_of_methodAt? hm))]
    · rw [SymbolTable.typeAt?_bind,
        if_neg (SymbolTable.ne_fresh (ht.index_lt_of_mem_leading hm hx))]

/-- A change of what is known of a method, which leaves its parameters alone. -/
theorem Settles.updateMethod (hm : t.methodAt? id = some m) (hread : σ'.reading? ≠ some id)
    {i : EntryId} {f : Method → Method} (hf : id = i → (f m).parameters = m.parameters ∧
      (f m).variadic = m.variadic ∧ (f m).leading = m.leading) :
    Settles id m t σ' (t.update i (·.updateMethod f)) := by
  have htypes : ∀ x ∈ m.leading, (t.update i (·.updateMethod f)).typeAt? x = t.typeAt? x :=
    fun x _ => SymbolTable.typeAt?_update x fun _ e => SymbolTable.type_updateMethod e f
  have helements : t.KeepsElements (t.update i (·.updateMethod f)) := .of_types (by simp)
  by_cases hid : id = i ∧ i ≠ .none
  · obtain ⟨hparameters, hvariadic, hleading⟩ := hf hid.1
    refine ⟨hread, f m, ?_, hparameters, hvariadic, hleading, htypes, helements⟩
    rw [SymbolTable.methodAt?_updateMethod, if_pos hid, hm]
    rfl
  · exact .of_same hm hread (by rw [SymbolTable.methodAt?_updateMethod, if_neg hid]) htypes helements

theorem Step.settles (h : Step σ t σ' t') (ht : σ.Upholds t) (hm : t.methodAt? id = some m)
    (hread : σ.reading? ≠ some id) : Settles id m t σ' t' := by
  have hsome : id ≠ .none := by
    rintro rfl
    exact absurd hm (by simp [ht.none])
  cases h with
  | arrayOf element => exact .of_entries hm hread rfl (.push t (.array element))
  | declareProgram name type => exact .declare ht hm hread ..
  | declare category name type _ => exact .declare ht hm hread ..
  | @define _ _ i meaning hid hmeaning =>
    refine .of_same hm hread ?_ (fun x _ => SymbolTable.typeAt?_update x fun _ _ => rfl)
      (.of_types (by simp))
    refine SymbolTable.methodAt?_update_of_ne ?_ _
    -- a method is not what is given another meaning
    rintro rfl
    rw [hid.2] at hm
    contradiction
  | openProgram => exact .of_entries hm hread rfl (.of_types rfl)
  | closeProgram =>
    exact .of_entries hm hread t.entries_closeScope (.of_types t.types_closeScope)
  | newClass => exact .of_entries hm hread rfl (.push t (.object []))
  | openClass type => exact .of_entries hm hread rfl (.of_types rfl)
  | field name type => exact .declare ht hm hread ..
  | closeClass =>
    exact .of_entries hm hread t.entries_closeScope (.of_types t.types_closeScope)
  | attach => exact .of_entries hm hread rfl (.setFields t _ _)
  | method name type =>
    refine .declare ht hm ?_ ..
    -- the new method is none that was known
    rcases t.declare_cases .method name type with heq | ⟨-, heq⟩
    · exact fun h => hsome (by rw [← Option.some.inj h, SymbolTable.declared, heq])
    · refine fun h => SymbolTable.ne_fresh (t.index_lt_of_methodAt? hm) ?_
      rw [← Option.some.inj h, SymbolTable.declared, heq]
  | nameless => exact .of_entries hm (fun h => hsome (Option.some.inj h).symm) rfl (.of_types rfl)
  | openMethod => exact .of_entries hm hread rfl (.of_types rfl)
  | parameter name type => exact .declare ht hm (by exact hread) ..
  | @collect _ i x ids type hx =>
    refine .of_same hm hread ?_ (fun y hy => ?_) (.of_types (by simp))
    · rw [SymbolTable.methodAt?, SymbolTable.entryAt?_update]
      split
      · rw [Option.bind_map]
        rfl
      · rfl
    · refine SymbolTable.typeAt?_update y ?_
      rintro rfl
      exact absurd hx (ht.holds.2 id m hm y (List.mem_of_mem_take hy))
  | publish variadic => exact .updateMethod hm (by simp [reading?]) fun h => (hread (h ▸ rfl)).elim
  | localVariable name type => exact .declare ht hm hread ..
  | locate address => exact .updateMethod hm hread fun _ => ⟨rfl, rfl, rfl⟩
  | closeMethod =>
    exact .of_entries hm (by simp [reading?]) t.entries_closeScope (.of_types t.types_closeScope)
  | @complete _ i ids =>
    refine .updateMethod hm (by simp [reading?]) ?_
    rintro rfl
    have hbegins := ht.holds.2 m hm
    refine ⟨rfl, rfl, ?_⟩
    rw [Method.leading, Method.leading, hbegins.length, List.take_length]
    exact (List.prefix_iff_eq_take.1 hbegins.front).symm

/-- What calls of a method are checked against is settled behind its header. -/
theorem Leads.settles (h : Leads σ t σ' t') (ht : σ.Upholds t) (hm : t.methodAt? id = some m)
    (hread : σ.reading? ≠ some id) : Settles id m t σ' t' := by
  induction h with
  | refl => exact ⟨hread, m, hm, .refl t m⟩
  | step hleads hstep ih =>
    obtain ⟨hread₁, m₁, hm₁, hagrees⟩ := ih
    obtain ⟨hread', m', hm', hagrees'⟩ := hstep.settles (hleads.upholds ht) hm₁ hread₁
    exact ⟨hread', m', hm', hagrees.trans hagrees'⟩

end Settles

end Stage

end MicroJava
