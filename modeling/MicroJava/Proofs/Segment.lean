import MicroJava.Proofs.Block
import MicroJava.Proofs.Declare
import MicroJava.Proofs.Growth
import MicroJava.Proofs.Scanned

/-!
# The methods in the code

Between two methods, the code is a sequence of segments, one for each method (`Linked`). A segment
starts with `enter` and ends with what ends a method; a label that it jumps to stands in front of one of
its items; and the methods that the symbol table knows are those that have a segment. Reading one more
method appends its segment (`Linked.methodDeclaration`).
-/

namespace MicroJava

/-- The code of one method. -/
structure Segment where
  address : Nat
  parameters : Nat
  size : Nat
  value : Bool
  body : List Item

namespace Segment

def start (g : Segment) : Item := .plain .enter [g.parameters, g.size]

def items (g : Segment) : List Item := g.start :: g.body

/-- The items that end a method. -/
def ending : (value : Bool) → List Item
  | true => [.plain .trap [1]]
  | false => [.plain .exit [], .plain .ret []]

/-- What is kept of a segment while further methods are read: the methods that it may call are behind
no later address, and as long as there is no mistake, it keeps the discipline of the stack. -/
structure Wired (address? : Label → Option Nat) (calls : Callees) (clean : Prop) (g : Segment) :
    Prop where
  enter : ∀ i ∈ g.body, i.opcode ≠ .enter
  ending : ∃ js, g.body = js ++ ending g.value
  jump : ∀ op l, .jump op l ∈ g.body → ∀ A, address? l = some A →
    ∃ pre i post, g.body = pre ++ i :: post ∧ A = g.address + codeSize (g.start :: pre) ∧
      (clean → Flows calls g.value 0 pre 0)
  call : ∀ target, .call target ∈ g.body → ∃ p b, calls target p b ∧ target ≤ g.address
  flows : clean → ∃ n, Flows calls g.value 0 g.body n

theorem Wired.mono {address? address?' : Label → Option Nat} {calls calls' : Callees}
    {clean clean' : Prop} {g : Segment} (h : g.Wired address? calls clean)
    (haddress : ∀ op l, .jump op l ∈ g.body → address?' l = address? l)
    (hcalls : ∀ a p b, calls a p b → calls' a p b) (hclean : clean' → clean) :
    g.Wired address?' calls' clean' where
  enter := h.enter
  ending := h.ending
  jump := fun op l hl A hA => by
    rw [haddress op l hl] at hA
    obtain ⟨pre, i, post, hbody, hA', hflows⟩ := h.jump op l hl A hA
    exact ⟨pre, i, post, hbody, hA', fun hc => (hflows (hclean hc)).mono hcalls⟩
  call := fun target ht => by
    obtain ⟨p, b, hc, hle⟩ := h.call target ht
    exact ⟨p, b, hcalls _ _ _ hc, hle⟩
  flows := fun hc => by
    obtain ⟨n, hn⟩ := h.flows (hclean hc)
    exact ⟨n, hn.mono hcalls⟩

/-- The methods that have a segment. -/
def callees (gs : List Segment) : Callees := fun a p b =>
  ∃ g ∈ gs, g.address = a ∧ g.parameters = p ∧ g.value = b

theorem callees_append {gs : List Segment} (g : Segment) {a p : Nat} {b : Bool}
    (h : callees gs a p b) : callees (gs ++ [g]) a p b := by
  obtain ⟨g', hg', h⟩ := h
  exact ⟨g', List.mem_append_left _ hg', h⟩

end Segment

open Segment

/-- The code of a session is that of the segments. The method `own` may lack a segment. As long as
there is no mistake, no method has more than `limit` variables, and the program starts in one without
parameters. -/
structure Linked (limit : Nat) (own : EntryId) (s : Session) (gs : List Segment) : Prop where
  lays : Lays s.assembly (gs.flatMap items)
  address : ∀ pre g post, gs = pre ++ g :: post → g.address = codeSize (pre.flatMap items)
  wired : ∀ g ∈ gs, g.Wired s.assembly.address? (callees gs) (s.mistakes = 0)
  method : ∀ id e m, id ≠ own → s.table.entryAt? id = some e → e.method? = some m →
    Builtin.ofId? id = none → callees gs m.address m.parameters (decide (e.type ≠ .none))
  entry : ∀ a, s.assembly.entry = some a → ∃ g ∈ gs, g.address = a
  parameters : s.mistakes = 0 → ∀ g ∈ gs, g.parameters ≤ limit
  starts : s.mistakes = 0 → ∀ a, s.assembly.entry = some a → ∃ g ∈ gs, g.address = a ∧ g.parameters = 0
  named : s.Named
  sound : s.table.Sound
  predeclared : s.table.Predeclared

namespace Linked

variable {limit : Nat} {own : EntryId} {s s' : Session} {gs : List Segment} {c : Setting}

/-- A change of the table that adds no method. -/
theorem withTable (h : Linked limit own s gs) {own' : EntryId} {table : SymbolTable}
    (hmethod : ∀ id e m, id ≠ own' → table.entryAt? id = some e → e.method? = some m →
      Builtin.ofId? id = none → callees gs m.address m.parameters (decide (e.type ≠ .none)))
    (hsound : table.Sound) (hpredeclared : table.Predeclared) :
    Linked limit own' { s with table } gs :=
  ⟨h.lays, h.address, h.wired, hmethod, h.entry, h.parameters, h.starts,
    ⟨h.named.1, h.named.2, h.named.3⟩, hsound, hpredeclared⟩

theorem declares (h : Linked limit own s gs) (hd : Declares s s') : Linked limit own s' gs := by
  obtain ⟨dataSize, hassembly⟩ := hd.assembly
  have haddress : s'.assembly.address? = s.assembly.address? := by
    rw [hassembly]
    rfl
  have hlays : Lays s'.assembly (gs.flatMap items) := by
    rw [hassembly]
    exact ⟨h.lays.code, h.lays.wellFormed, h.lays.pending, h.lays.known, h.lays.fit⟩
  refine ⟨hlays, h.address, fun g hg => ?_, fun id e m hid he hm hb => ?_, fun a ha => ?_,
    fun hc => ?_, fun hc a ha => ?_, hd.named h.named, hd.sound h.sound, fun id hid => ?_⟩
  · refine (h.wired g hg).mono (fun _ _ _ => by rw [haddress]) (fun _ _ _ hc => hc) fun hc => ?_
    have := hd.mistakes
    omega
  · by_cases hlt : id.index < s.table.entries.size
    · rw [hd.table.old id hlt] at he
      exact h.method id e m hid he hm hb
    · rw [hd.table.new id e (Nat.not_lt.1 hlt) he] at hm
      simp at hm
  · rw [hassembly] at ha
    exact h.entry a ha
  · have := hd.mistakes
    exact h.parameters (by omega)
  · rw [hassembly] at ha
    have := hd.mistakes
    exact h.starts (by omega) a ha
  · rw [hd.table.old id (Nat.lt_of_lt_of_le hid h.predeclared.size_le), h.predeclared id hid]

/-- What is known of a method may change, except for where it is, if it is there already. -/
theorem updateMethod (h : Linked limit own s gs) {id : EntryId} (hid : id.IsOwn) {f : Method → Method}
    (hf : ∀ e m, s.table.entryAt? id = some e → e.method? = some m →
      m.parameters ≤ m.locals.length → (f m).parameters ≤ (f m).locals.length)
    (hkeep : id ≠ own → ∀ m, (f m).address = m.address ∧ (f m).parameters = m.parameters) :
    Linked limit own { s with table := s.table.update id (·.updateMethod f) } gs := by
  refine h.withTable (fun id' e m hne he hm hb => ?_) (h.sound.update fun _ e he hes => ?_)
    (h.predeclared.update hid _)
  · rw [SymbolTable.entryAt?_update] at he
    split at he
    · next hupdate =>
      obtain ⟨e', he', rfl⟩ := Option.map_eq_some_iff.1 he
      obtain ⟨name, type, meaning⟩ := e'
      cases meaning with
      | method m' =>
        obtain rfl := Option.some.inj hm
        have hkept := hkeep (hupdate.1 ▸ hne) m'
        rw [hkept.1, hkept.2]
        exact h.method id' ⟨name, type, .method m'⟩ m' hne he' rfl hb
      | _ => simp [Entry.updateMethod, Entry.method?] at hm
    · exact h.method id' e m hne he hm hb
  · obtain ⟨name, type, meaning⟩ := e
    cases meaning with
    | method m => exact hf _ m he rfl hes
    | _ => exact hes

theorem openScope (h : Linked limit own s gs) :
    Linked limit own { s with table := s.table.openScope } gs :=
  h.withTable h.method h.sound.openScope h.predeclared

theorem entryAt?_closeScope (table : SymbolTable) (id : EntryId) :
    table.closeScope.2.entryAt? id = table.entryAt? id := by
  rw [SymbolTable.entryAt?, SymbolTable.entries_closeScope, SymbolTable.entryAt?]

theorem closeScope (h : Linked limit own s gs) :
    Linked limit own { s with table := s.table.closeScope.2 } gs := by
  refine h.withTable ?_ h.sound.closeScope fun id hid => ?_
  · simp only [entryAt?_closeScope]
    exact h.method
  · rw [entryAt?_closeScope, h.predeclared id hid]

/-- An entry may become anything but a method. -/
theorem update (h : Linked limit own s gs) {id : EntryId} (hid : id.IsOwn) {f : Entry → Entry}
    (hm : ∀ e, (f e).method? = none) (hf : ∀ e, (f e).Sound) :
    Linked limit own { s with table := s.table.update id f } gs := by
  refine h.withTable (fun id' e m hne he hme hb => ?_) (h.sound.update fun _ e _ _ => hf e)
    (h.predeclared.update hid _)
  rw [SymbolTable.entryAt?_update] at he
  split at he
  · obtain ⟨e', -, rfl⟩ := Option.map_eq_some_iff.1 he
    rw [hm] at hme
    simp at hme
  · exact h.method id' e m hne he hme hb

theorem withReturnType (h : Linked limit own s gs) (returnType : TypeId) :
    Linked limit own { s with returnType } gs :=
  ⟨h.lays, h.address, h.wired, h.method, h.entry, h.parameters, h.starts,
    ⟨h.named.1, h.named.2, h.named.3⟩, h.sound, h.predeclared⟩

end Linked

/-! ### One more method -/

namespace Production

variable {c : Setting} {s s' : Session} {u : Unit}

theorem runs_beginning {id : EntryId} {isEntry : Bool} {parameters size : Nat} :
    Runs c (beginning id isEntry parameters size) s u s' ↔
      s' = { s with
        table := s.table.update id (·.updateMethod fun m => { m with address := s.assembly.here })
        assembly := { s.assembly with
          entry := if isEntry then some s.assembly.here else s.assembly.entry }.emit .enter
            [parameters, size] } := by
  simp only [beginning, updateMethod, runs_bind, runs_write, runs_updateEntry,
    Emission.succeeds_here, Emission.enter, Emission.succeeds_emit]
  cases isEntry
  · simp [Emission.succeeds_pure]
  · simp [Emission.setEntry, Emission.succeeds_modify]

theorem runs_ending {t : TypeId} (h : Runs c (ending t) s u s') :
    ∃ assembly, s' = { s with assembly } ∧ assembly.entry = s.assembly.entry ∧
      assembly.address? = s.assembly.address? ∧ ∀ is, Lays s.assembly is →
        Lays assembly (is ++ Segment.ending (decide (t ≠ .none))) := by
  by_cases ht : t = .none
  · simp only [ending, if_pos ht, runs_bind, runs_emit, exists_eq_left] at h
    obtain ⟨-, rfl⟩ := h
    refine ⟨_, rfl, rfl, rfl, fun is hl => ?_⟩
    have hexit : Lays (s.assembly.emit .exit []) (is ++ [.plain .exit []]) := hl.emit ⟨rfl, rfl⟩
    rw [decide_eq_false (not_not_intro ht)]
    have hret : (Item.plain .ret []).WellFormed := ⟨rfl, rfl⟩
    simpa [Segment.ending] using hexit.emit hret
  · simp only [ending, if_neg ht, runs_emit] at h
    subst h
    refine ⟨_, rfl, rfl, rfl, fun is hl => ?_⟩
    rw [decide_eq_true ht]
    exact hl.emit ⟨rfl, rfl⟩

end Production

/-- The entry of a method that is being read. -/
structure Own (own : EntryId) (t : TypeId) (parameters : Nat) (table : SymbolTable) : Prop where
  isOwn : own.IsOwn
  entry : own ≠ .none → ∃ e m, table.entryAt? own = some e ∧ e.method? = some m ∧ e.type = t ∧
    m.parameters = parameters

theorem Own.adds {own : EntryId} {t : TypeId} {parameters : Nat} {table table' : SymbolTable}
    (h : Own own t parameters table) (ha : table.Adds table') : Own own t parameters table' where
  isOwn := h.isOwn
  entry := fun hne => by
    obtain ⟨e, m, he, hm⟩ := h.entry hne
    exact ⟨e, m, by rwa [ha.old own (table.index_lt_of_entryAt? he)], hm⟩

theorem entryAt?_updateMethod {table : SymbolTable} {id : EntryId} (hid : id ≠ .none) {e : Entry}
    {m : Method} (he : table.entryAt? id = some e) (hm : e.method? = some m)
    (f : Method → Method) :
    ∃ e', (table.update id (·.updateMethod f)).entryAt? id = some e' ∧ e'.method? = some (f m) ∧
      e'.type = e.type := by
  obtain ⟨name, type, meaning⟩ := e
  cases meaning with
  | method m' =>
    obtain rfl := Option.some.inj hm
    refine ⟨⟨name, type, .method (f m')⟩, ?_, rfl, rfl⟩
    rw [SymbolTable.entryAt?_update, if_pos ⟨rfl, hid⟩, he]
    rfl
  | _ => simp [Entry.method?] at hm

theorem Own.updateMethod {own : EntryId} {t : TypeId} {n n' : Nat} {table : SymbolTable}
    (h : Own own t n table) {f : Method → Method}
    (hf : ∀ m, m.parameters = n → (f m).parameters = n') :
    Own own t n' (table.update own (·.updateMethod f)) where
  isOwn := h.isOwn
  entry := fun hne => by
    obtain ⟨e, m, he, hm, rfl, rfl⟩ := h.entry hne
    obtain ⟨e', he', hm', htype⟩ := entryAt?_updateMethod hne he hm f
    exact ⟨e', f m, he', hm', htype, hf m rfl⟩

/-- In the table, the address of the method becomes that of its segment. -/
theorem Own.located {own : EntryId} {t : TypeId} {n : Nat} {table : SymbolTable}
    (h : Own own t n table) (hne : own ≠ .none) (address : Nat) :
    ∃ e m, (table.update own (·.updateMethod fun m => { m with address })).entryAt? own = some e ∧
      e.method? = some m ∧ address = m.address ∧ n = m.parameters ∧
        decide (t ≠ .none) = decide (e.type ≠ .none) := by
  obtain ⟨e, m, he, hm, rfl, rfl⟩ := h.entry hne
  obtain ⟨e', he', hm', htype⟩ := entryAt?_updateMethod hne he hm fun m => { m with address }
  exact ⟨e', _, he', hm', rfl, rfl, by rw [htype]⟩

/-- The moves of a block that is read without a mistake start and end with an empty stack. -/
theorem Emits.moves_block {F : Frame} {s s' : Session} {u : Unit} (hF : F.branches) (hs : F.Covers s)
    (hrun : Production.block.Runs F.setting s u s') :
    ∃ x y, Steps F s x s' y ∧ (s'.mistakes = 0 → x = some 0 ∧ y = some 0) := by
  by_cases hc : s.mistakes = 0
  · obtain ⟨y, hsteps, hy⟩ := Emits.block (q := True) (x := some 0) hF hs hrun (by simp)
    refine ⟨some 0, y, hsteps, fun hc' => ⟨rfl, ?_⟩⟩
    rcases y with _ | n
    · have := hsteps.mistakes.2 (by simp) rfl
      omega
    · rw [(hy n rfl).1]
  · obtain ⟨y, hsteps, -⟩ := Emits.block (q := True) (x := none) hF hs hrun (by simp)
    refine ⟨none, y, hsteps, fun hc' => ?_⟩
    have := hsteps.mistakes.1
    omega

namespace Segment

variable {F : Frame} {is js : List Item} {s s' : Session} {x y : Option Nat}

theorem flows_ending (calls : Callees) (value : Bool) : Flows calls value 0 (ending value) 0 := by
  cases value
  · have hexit : (Item.plain .exit []).Effect calls false 0 0 := by
      simp [Item.Effect, Opcode.pops, Opcode.pushes]
    exact .cons hexit (.cons (by simp [Item.Effect]) .nil)
  · exact .cons (by simp [Item.Effect, Opcode.pops, Opcode.pushes]) .nil

theorem mem_ending {value : Bool} {i : Item} (h : i ∈ ending value) :
    ∃ op operands, i = .plain op operands ∧ op ≠ .enter := by
  cases value <;> simp only [ending, List.mem_cons, List.not_mem_nil, or_false] at h
  · rcases h with rfl | rfl
    · exact ⟨_, _, rfl, by simp⟩
    · exact ⟨_, _, rfl, by simp⟩
  · subst h
    exact ⟨_, _, rfl, by simp⟩

theorem ending_ne_nil (value : Bool) : ending value ≠ [] := by
  cases value <;> simp [ending]

/-- The items that a block appends make up a segment. -/
theorem Wired.of_grows {g : Segment} {calls : Callees} (hg : Grows F is s x js s' y)
    (hbody : g.body = js ++ Segment.ending g.value) (hvalue : F.returns = g.value)
    (haddress : codeSize is = g.address + g.start.size)
    (hlabels : s.assembly.labels.size = F.firstLabel)
    (hcalls : ∀ a p b, F.callees a p b → calls a p b ∧ a ≤ g.address)
    (hx : s'.mistakes = 0 → x = some 0 ∧ y = some 0) :
    g.Wired s'.assembly.address? calls (s'.mistakes = 0) where
  enter := by
    intro i hi
    rw [hbody] at hi
    rcases List.mem_append.1 hi with hi | hi
    · exact (hg.within i hi).enter
    · obtain ⟨op, operands, rfl, hop⟩ := mem_ending hi
      exact hop
  ending := ⟨js, hbody⟩
  jump := by
    intro op l hl A hA
    have hjs : .jump op l ∈ js := by
      rw [hbody] at hl
      refine (List.mem_append.1 hl).resolve_right fun h => ?_
      obtain ⟨op', operands, heq, -⟩ := mem_ending h
      simp at heq
    have hfirst := (hg.within _ hjs).label op l rfl
    -- the label is one of this method, so it was not defined before
    rcases hg.defined l A hA with hA' | ⟨-, pre, post, hsplit, hA', hflows⟩
    · have := Lays.index_lt_of_address? hA'
      omega
    · obtain ⟨i, rest, hrest⟩ := List.exists_cons_of_ne_nil
        (List.append_ne_nil_of_right_ne_nil post (ending_ne_nil g.value))
      refine ⟨pre, i, rest, by rw [hbody, hsplit, List.append_assoc, hrest], ?_, fun hc => ?_⟩
      · rw [hA', codeSize_append, haddress, codeSize_cons, Nat.add_assoc]
      · obtain ⟨hx₀, hy⟩ := hx hc
        rw [← hvalue]
        exact (hflows 0 hx₀ (by simp [hy])).mono fun a p b h => (hcalls a p b h).1
  call := by
    intro target ht
    have hjs : .call target ∈ js := by
      rw [hbody] at ht
      refine (List.mem_append.1 ht).resolve_right fun h => ?_
      obtain ⟨op', operands, heq, -⟩ := mem_ending h
      simp at heq
    obtain ⟨p, b, h⟩ := (hg.within _ hjs).callee target rfl
    exact ⟨p, b, hcalls _ _ _ h⟩
  flows := by
    intro hc
    obtain ⟨hx₀, hy⟩ := hx hc
    have hjs := (hg.flows 0 0 hx₀ hy).mono fun a p b h => (hcalls a p b h).1
    rw [hvalue] at hjs
    rw [hbody]
    exact ⟨0, hjs.append (flows_ending calls g.value)⟩

end Segment

namespace Linked

open Production

variable {limit : Nat} {own : EntryId} {s s₁ s₂ s' : Session} {gs : List Segment} {c : Setting}
  {t : TypeId} {parameters size : Nat} {isEntry : Bool} {u v w : Unit}

theorem flatMap_items_snoc (gs : List Segment) (g : Segment) :
    (gs ++ [g]).flatMap items = gs.flatMap items ++ g.start :: g.body := by
  simp [items]

theorem address_le (h : Linked limit own s gs) {g : Segment} (hg : g ∈ gs) :
    g.address ≤ codeSize (gs.flatMap items) := by
  obtain ⟨pre, post, rfl⟩ := List.append_of_mem hg
  rw [h.address pre g post rfl, List.flatMap_append, codeSize_append]
  exact Nat.le_add_right _ _

/-- With the segment of the method that is being read, all methods have one. -/
theorem callees_snoc (h : Linked limit own s gs) {g : Segment}
    (hg : own ≠ .none → ∃ e m, s.table.entryAt? own = some e ∧ e.method? = some m ∧
      g.address = m.address ∧ g.parameters = m.parameters ∧ g.value = decide (e.type ≠ .none))
    (hcode : g.address = codeSize (gs.flatMap items)) {id : EntryId} {e : Entry} {m : Method}
    (he : s.table.entryAt? id = some e) (hm : e.method? = some m)
    (hid : Builtin.ofId? id = none) :
    callees (gs ++ [g]) m.address m.parameters (decide (e.type ≠ .none)) ∧
      m.address ≤ g.address := by
  by_cases hown : id = own
  · subst hown
    have hne : id ≠ .none := by
      rintro rfl
      rw [h.predeclared.method?_none he] at hm
      simp at hm
    obtain ⟨e', m', he', hm', haddress, hparameters, hvalue⟩ := hg hne
    rw [he] at he'
    obtain rfl := Option.some.inj he'
    rw [hm] at hm'
    obtain rfl := Option.some.inj hm'
    exact ⟨⟨g, by simp, haddress, hparameters, hvalue⟩, Nat.le_of_eq haddress.symm⟩
  · obtain ⟨g', hg', haddress, hrest⟩ := h.method id e m hown he hm hid
    refine ⟨callees_append g ⟨g', hg', haddress, hrest⟩, ?_⟩
    rw [hcode, ← haddress]
    exact h.address_le hg'

/-- One more segment. -/
theorem snoc (h : Linked limit own s gs) {g : Segment}
    (hg : own ≠ .none → ∃ e m, s.table.entryAt? own = some e ∧ e.method? = some m ∧
      g.address = m.address ∧ g.parameters = m.parameters ∧ g.value = decide (e.type ≠ .none))
    (hcode : g.address = codeSize (gs.flatMap items))
    (hlays : Lays s'.assembly ((gs ++ [g]).flatMap items))
    (hwired : g.Wired s'.assembly.address? (callees (gs ++ [g])) (s'.mistakes = 0))
    (haddress : ∀ l, l.index < s.assembly.labels.size →
      s'.assembly.address? l = s.assembly.address? l)
    (hentry : ∀ a, s'.assembly.entry = some a →
      s.assembly.entry = some a ∨ a = g.address ∧ (s.mistakes = 0 → g.parameters = 0))
    (hmistakes : s.mistakes ≤ s'.mistakes) (hparameters : s.mistakes = 0 → g.parameters ≤ limit)
    (htable : s'.table.entries = s.table.entries)
    (hnamed : s'.Named) (hsound : s'.table.Sound) (hpredeclared : s'.table.Predeclared) :
    Linked limit .none s' (gs ++ [g]) where
  lays := hlays
  address := by
    intro pre g' post hsplit
    rcases eq_append_cons_of_snoc hsplit with ⟨post', his⟩ | ⟨rfl, rfl⟩
    · exact h.address pre g' post' his
    · exact hcode
  wired := by
    intro g' hg'
    rcases List.mem_append.1 hg' with hg' | hg'
    · refine (h.wired g' hg').mono (fun op l hl => haddress l ?_) (fun _ _ _ => callees_append g)
        fun hc => by omega
      exact h.lays.known op l (List.mem_flatMap.2 ⟨g', hg', List.mem_cons_of_mem _ hl⟩)
    · rw [List.mem_singleton.1 hg']
      exact hwired
  method := by
    intro id e m _ he hm hid
    rw [SymbolTable.entryAt?, htable] at he
    exact (h.callees_snoc hg hcode he hm hid).1
  entry := by
    intro a ha
    rcases hentry a ha with ha | ⟨rfl, -⟩
    · obtain ⟨g', hg', rfl⟩ := h.entry a ha
      exact ⟨g', List.mem_append_left _ hg', rfl⟩
    · exact ⟨g, by simp, rfl⟩
  parameters := by
    intro hc g' hg'
    have hs : s.mistakes = 0 := by omega
    rcases List.mem_append.1 hg' with hg' | hg'
    · exact h.parameters hs g' hg'
    · rw [List.mem_singleton.1 hg']
      exact hparameters hs
  starts := by
    intro hc a ha
    have hs : s.mistakes = 0 := by omega
    rcases hentry a ha with ha | ⟨rfl, hnone⟩
    · obtain ⟨g', hg', hstart⟩ := h.starts hs a ha
      exact ⟨g', List.mem_append_left _ hg', hstart⟩
    · exact ⟨g, by simp, rfl, hnone hs⟩
  named := hnamed
  sound := hsound
  predeclared := hpredeclared

/-- Behind the first item of a segment, the code of the session is that of the segments and this item. -/
theorem behindBeginning (h : Linked limit own s gs) (ho : own.IsOwn)
    (hrun : Runs c (beginning own isEntry parameters size) s u s₁) :
    Linked limit own { s with table := s₁.table } gs ∧ s₁.Named ∧
      Lays s₁.assembly (gs.flatMap items ++ [.plain .enter [parameters, size]]) := by
  rw [runs_beginning] at hrun
  subst hrun
  refine ⟨h.updateMethod ho (fun _ _ _ _ hle => hle) fun hne => absurd rfl hne,
    ⟨h.named.1, h.named.2, h.named.3⟩, Lays.emit ?_ ⟨rfl, rfl⟩⟩
  exact ⟨h.lays.code, h.lays.wellFormed, h.lays.pending, h.lays.known, h.lays.fit⟩

/-- The block of a method appends its segment. -/
theorem block (h : Linked limit own s gs) (ho : Own own t parameters s.table) (ht : s.returnType = t)
    (hlimit : s.mistakes = 0 → parameters ≤ limit) (hstart : isEntry → s.mistakes = 0 → parameters = 0)
    (hbegin : Runs c (beginning own isEntry parameters size) s u s₁)
    (hblock : Runs c Production.block s₁ v s₂) (hend : Runs c (Production.ending t) s₂ w s') :
    (∃ g, Linked limit .none s' (gs ++ [g])) ∧
      ∃ types, s'.table = { s.table.update own (·.updateMethod fun m =>
        { m with address := s.assembly.here }) with types } := by
  have hs₁ := runs_beginning.1 hbegin
  have hhere : s.assembly.here = codeSize (gs.flatMap items) := h.lays.here
  have htable₁ : s₁.table = s.table.update own (·.updateMethod fun m =>
      { m with address := s.assembly.here }) := by rw [hs₁]
  have haddress₁ : s₁.assembly.address? = s.assembly.address? := by rw [hs₁]; rfl
  have hlabels₁ : s₁.assembly.labels.size = s.assembly.labels.size := by rw [hs₁]; rfl
  have hentry₁ : s₁.assembly.entry =
      if isEntry then some s.assembly.here else s.assembly.entry := by rw [hs₁]; rfl
  obtain ⟨h₁, hnamed₁, hlays₁⟩ := h.behindBeginning ho.isOwn hbegin
  have hcovers :
      Frame.Covers ⟨c, s₁.table.entries, s₁.assembly.labels.size, decide (t ≠ .none), true⟩ s₁ :=
    ⟨rfl, Nat.le_refl _, by rw [hs₁, ← ht], hnamed₁, h₁.sound, h₁.predeclared⟩
  obtain ⟨x, y, hsteps, hclean⟩ := Emits.moves_block rfl hcovers hblock
  obtain ⟨js, hg⟩ := hsteps.grows hlays₁
  obtain ⟨assembly, rfl, hentry, haddress, hlays⟩ := runs_ending hend
  obtain ⟨types, htypes⟩ := hsteps.table
  have hcovers₂ := hsteps.covers hcovers
  have hmistakes := hsteps.mistakes
  let g : Segment := ⟨s.assembly.here, parameters, size, decide (t ≠ .none),
    js ++ Segment.ending (decide (t ≠ .none))⟩
  have hown : own ≠ .none → ∃ e m, s₁.table.entryAt? own = some e ∧ e.method? = some m ∧
      g.address = m.address ∧ g.parameters = m.parameters ∧ g.value = decide (e.type ≠ .none) := by
    rw [htable₁]
    exact fun hne => ho.located hne s.assembly.here
  have hwired : g.Wired s₂.assembly.address? (callees (gs ++ [g])) (s₂.mistakes = 0) := by
    refine .of_grows hg rfl rfl ?_ rfl ?_ hclean
    · rw [codeSize_append, ← hhere]
      rfl
    · rintro a p b ⟨id, e, m, he, hm, hid, rfl, rfl, rfl⟩
      exact h₁.callees_snoc hown hhere he hm hid
  refine ⟨⟨g, h₁.snoc hown hhere ?_ ?_ ?_ ?_ ?_ hlimit ?_ ⟨hcovers₂.named.1, hcovers₂.named.2,
    hcovers₂.named.3⟩ hcovers₂.sound hcovers₂.predeclared⟩, types, by rw [← htable₁, ← htypes]⟩
  · rw [flatMap_items_snoc, List.append_cons, ← List.append_assoc]
    exact hlays _ hg.lays
  · show g.Wired assembly.address? _ _
    rw [haddress]
    exact hwired
  · intro l hl
    show assembly.address? l = _
    rw [haddress, hg.address?_eq (hlabels₁ ▸ hl), haddress₁]
  · intro a ha
    have ha : assembly.entry = some a := ha
    rw [hentry, hg.entry, hentry₁] at ha
    split at ha
    · next hisEntry => exact .inr ⟨(Option.some.inj ha).symm, hstart hisEntry⟩
    · exact .inl ha
  · have hm : s₁.mistakes = s.mistakes := by rw [hs₁]; rfl
    show s.mistakes ≤ s₂.mistakes
    omega
  · show s₂.table.entries = _
    rw [htypes]

theorem methodBody (h : Linked c.options.maxLocals own s gs) (ho : Own own t parameters s.table)
    (ht : s.returnType = t) (hparameters : parameters ≤ s.table.current.variableCount)
    (hstart : isEntry → s.mistakes = 0 → parameters = 0)
    (hrun : Runs c (methodBody own isEntry t parameters) s u s') :
    (∃ g, Linked c.options.maxLocals .none s' (gs ++ [g])) ∧ Own own t parameters s'.table ∧
      s'.table.inner.length = s.table.inner.length ∧
        s.table.current.variableCount ≤ s'.table.current.variableCount := by
  simp only [Production.methodBody, runs_bind, runs_table, runs_read] at hrun
  obtain ⟨_, _, h₁, _, _, ⟨rfl, rfl⟩, c, s₁, ⟨rfl, rfl⟩, _, s₂, h₂, hrun⟩ := hrun
  obtain ⟨_, s₃, h₃, _, s₄, h₄, h₅⟩ := hrun
  have hd₁ : Declares s s₁ := declares_variableDeclarations h₁
  have hd : Declares s s₂ := hd₁.trans (declares_reportIf h₂)
  have ho₂ := ho.adds hd.table
  have hlimit : s₂.mistakes = 0 → parameters ≤ c.options.maxLocals := by
    intro hc
    have := hd₁.table.count
    rw [runs_reportIf.1 h₂, Session.reportIf] at hc
    split at hc
    · simp at hc
    · omega
  have hstart₂ : isEntry → s₂.mistakes = 0 → parameters = 0 := fun hisEntry hc => by
    have := hd.mistakes
    exact hstart hisEntry (by omega)
  obtain ⟨hg, types, htable⟩ :=
    (h.declares hd).block ho₂ (hd.returnType.trans ht) hlimit hstart₂ h₃ h₄ h₅
  refine ⟨hg, ?_, ?_, ?_⟩
  · have ho₃ : Own own t parameters (s₂.table.update own (·.updateMethod fun m =>
      { m with address := s₂.assembly.here })) := ho₂.updateMethod fun m hm => hm
    rw [htable]
    exact ⟨ho₃.isOwn, ho₃.entry⟩
  · rw [htable, ← hd.table.level]
    exact congrArg List.length (SymbolTable.inner_update ..)
  · refine Nat.le_trans hd.table.count (Nat.le_of_eq ?_)
    rw [htable]
    simp [SymbolTable.current]

/-- A method that is declared is in the table, without its parameters. -/
theorem declareMethod (h : Linked limit .none s gs) {name : String} {id : EntryId}
    (hrun : Runs c (declare .method name t) s id s') :
    Linked limit id s' gs ∧ Own id t 0 s'.table := by
  rcases runs_declare.1 hrun with ⟨-, rfl, rfl⟩ | ⟨-, -, rfl, rfl⟩ | ⟨-, -, rfl, rfl⟩
  · exact ⟨h, .inl rfl, fun hne => absurd rfl hne⟩
  · exact ⟨h.declares (.report ..), .inl rfl, fun hne => absurd rfl hne⟩
  · have hsize := h.predeclared.size_le
    refine ⟨h.withTable (fun id e m hne he hm hid => ?_) (h.sound.bind (Nat.zero_le _))
      (h.predeclared.bind _), .inr hsize, fun _ => ⟨⟨name, t, .method {}⟩, {}, ?_, rfl, rfl, rfl⟩⟩
    · rw [SymbolTable.entryAt?_bind, if_neg hne] at he
      refine h.method id e m ?_ he hm hid
      rintro rfl
      rw [h.predeclared.method?_none he] at hm
      simp at hm
    · rw [SymbolTable.entryAt?_bind, if_pos rfl]
      rfl

theorem header (h : Linked limit own s gs) (ho : Own own t 0 s.table)
    (hrun : Runs c (header own) s parameters s') :
    Linked limit own s' gs ∧ Own own t parameters s'.table ∧ s'.returnType = s.returnType ∧
      s'.table.inner.length = s.table.inner.length ∧
        parameters ≤ s'.table.current.variableCount := by
  simp only [Production.header, Production.updateMethod, runs_bind, runs_table,
    runs_updateEntry] at hrun
  obtain ⟨_, s₁, h₁, variadic, s₂, h₂, _, _, h₃, _, s₃, ⟨rfl, rfl⟩, _, _, rfl, h₄⟩ := hrun
  obtain ⟨rfl, rfl⟩ := runs_pure.1 h₄
  have hd : Declares s s₃ :=
    ((declares_expect h₁).trans (declares_parameters h₂)).trans (declares_expect h₃)
  have h₃ := h.declares hd
  have hcount : s₃.table.current.variableCount ≤ s₃.table.current.locals.size :=
    h₃.sound.current.count
  refine ⟨h₃.updateMethod ho.isOwn (fun _ _ _ _ _ => ?_) fun hne => absurd rfl hne,
    (ho.adds hd.table).updateMethod fun _ _ => rfl, hd.returnType, ?_, ?_⟩
  · simpa using hcount
  · rw [← hd.table.level]
    exact congrArg List.length (SymbolTable.inner_update ..)
  · simp [SymbolTable.current]

/-- A method that is read has a segment. -/
theorem methodDeclaration (h : Linked c.options.maxLocals .none s gs)
    (hrun : Runs c methodDeclaration s u s') :
    ∃ gs', Linked c.options.maxLocals .none s' gs' := by
  simp only [Production.methodDeclaration, Production.setReturnType, Production.updateMethod,
    runs_bind, runs_read, runs_openScope, runs_closeScope, runs_updateEntry, runs_modify] at hrun
  obtain ⟨t, s₁, h₁, name, s₂, h₂, id, s₃, h₃, _, _, rfl, _, s₄, hs₄, n, _, h₅, hrun⟩ := hrun
  obtain ⟨c, s₅, ⟨rfl, rfl⟩, _, s₆, h₆, _, s₇, h₇, _, s₈, h₈, locals, s₉, ⟨hlocals, hs₉⟩, hrun⟩ := hrun
  obtain ⟨_, s₁₀, rfl, rfl⟩ := hrun
  have hd : Declares s s₂ := (declares_resultType h₁).trans (declares_identifier h₂)
  obtain ⟨hl₃, ho₃⟩ := (h.declares hd).declareMethod h₃
  have hl₄ : Linked c.options.maxLocals id s₄ gs := by
    rw [hs₄]
    exact (hl₃.withReturnType t).openScope
  have ho₄ : Own id t 0 s₄.table := by
    rw [hs₄]
    exact ⟨ho₃.isOwn, ho₃.entry⟩
  obtain ⟨hl₅, ho₅, hreturn₅, hlevel₅, hcount₅⟩ := hl₄.header ho₄ h₅
  have hd₆ : Declares s₅ s₇ := (declares_reportIf h₆).trans (declares_reportIf h₇)
  have hreturn₇ : s₇.returnType = t := by
    rw [hd₆.returnType, hreturn₅, hs₄]
  have hcount₇ := Nat.le_trans hcount₅ hd₆.table.count
  -- an entry method with parameters has been reported
  have hstart : (decide (id ≠ .none ∧ name = c.options.entryName) : Bool) → s₇.mistakes = 0 → n = 0 := by
    intro hisEntry hc
    have hmistakes := (declares_reportIf h₇).mistakes
    have hc₆ : s₆.mistakes = 0 := by omega
    rw [runs_reportIf.1 h₆, Session.reportIf] at hc₆
    split at hc₆
    · simp at hc₆
    · next hn => exact Nat.eq_zero_of_not_pos fun hpos => hn ⟨hisEntry, hpos⟩
  obtain ⟨⟨g, hl₈⟩, ho₈, hlevel₈, hcount₈⟩ :=
    (hl₅.declares hd₆).methodBody (ho₅.adds hd₆.table) hreturn₇ hcount₇ hstart h₈
  have hcount : n ≤ locals.length := by
    have hlevel : s₈.table.inner.length = s₃.table.inner.length + 1 := by
      rw [hlevel₈, hd₆.table.level, hlevel₅, hs₄]
      rfl
    have hlocals : locals.length = s₈.table.current.locals.size := by
      rw [hlocals, s₈.table.closeScope_fst (by omega), Array.length_toList]
    have := hl₈.sound.current.count
    omega
  have hl₉ : Linked c.options.maxLocals .none s₉ (gs ++ [g]) := hs₉ ▸ hl₈.closeScope
  have hl₁₀ := hl₉.updateMethod (f := fun m => { m with locals }) ho₈.isOwn ?_
    fun _ m => ⟨rfl, rfl⟩
  · exact ⟨gs ++ [g], hl₁₀.withReturnType _⟩
  intro e m he hm _
  have hne : id ≠ .none := by
    rintro rfl
    rw [hl₉.predeclared.method?_none he] at hm
    simp at hm
  obtain ⟨e', m', he', hm', -, hn⟩ := ho₈.entry hne
  rw [hs₉, entryAt?_closeScope, he'] at he
  obtain rfl := Option.some.inj he
  rw [hm'] at hm
  obtain rfl := Option.some.inj hm
  show m'.parameters ≤ locals.length
  omega

end Linked

/-! ### Programs -/

/-- Where the code consists of methods before, it does so behind. -/
def Relinks (limit : Nat) (s s' : Session) : Prop :=
  ∀ gs, Linked limit .none s gs → ∃ gs', Linked limit .none s' gs'

namespace Relinks

instance {limit : Nat} : Std.Refl (Relinks limit) := ⟨fun _ gs h => ⟨gs, h⟩⟩

instance {limit : Nat} : Trans (Relinks limit) (Relinks limit) (Relinks limit) :=
  ⟨fun h h' gs hgs => by
    obtain ⟨gs', hgs'⟩ := h gs hgs
    exact h' gs' hgs'⟩

open Production

variable {limit : Nat} {c : Setting} {α : Type} {m : Production α}

theorem of_declares (h : Keeps c Declares m) : Keeps c (Relinks limit) m :=
  fun _ _ _ hrun gs hgs => ⟨gs, hgs.declares (h hrun)⟩

theorem methods : Keeps c (Relinks c.options.maxLocals) methods := by
  refine .repeatWhile (.bind .peek fun k => ?_)
  have hmethod : Keeps c (Relinks c.options.maxLocals) methodDeclaration :=
    fun _ _ _ hrun gs hgs => hgs.methodDeclaration hrun
  split
  · exact .bind hmethod fun _ => .pure _
  · exact .bind hmethod fun _ => .pure _
  · exact .pure _
  · exact .pure _
  · exact .bind (of_declares declares_recoverMethod) fun _ => .pure _

theorem program : Keeps c (Relinks c.options.maxLocals) program := by
  intro s u s' hrun gs hgs
  simp only [Production.program, runs_bind, runs_openScope, runs_closeScope, runs_updateEntry,
    runs_read, runs_table, runs_get] at hrun
  obtain ⟨_, s₁, h₁, name, s₂, h₂, id, s₃, h₃, _, s₄, hs₄, _, s₅, h₅, hrun⟩ := hrun
  obtain ⟨_, _, ⟨rfl, rfl⟩, _, _, ⟨rfl, rfl⟩, _, s₆, h₆, _, s₇, h₇, _, _, h₈, hrun⟩ := hrun
  obtain ⟨_, _, ⟨rfl, rfl⟩, c, s₈, ⟨rfl, rfl⟩, _, s₉, h₉, _, s₁₀, h₁₀, hrun⟩ := hrun
  obtain ⟨members, s₁₁, ⟨-, hs₁₁⟩, rfl⟩ := hrun
  have hl₂ := hgs.declares ((declares_expect h₁).trans (declares_identifier h₂))
  obtain ⟨hd₃, hid⟩ := declares_declare (.refl _) (by simp) (fun _ h => by simp at h) h₃
  have hl₄ : Linked c.options.maxLocals .none s₄ gs := hs₄ ▸ (hl₂.declares hd₃).openScope
  have hd : Declares s₄ s₇ :=
    ((declares_declarations h₅).trans (declares_reportIf h₆)).trans (declares_expect h₇)
  obtain ⟨gs', hl₈⟩ := methods h₈ gs (hl₄.declares hd)
  have hl₁₀ := hl₈.declares ((declares_reportIf h₉).trans (declares_expect h₁₀))
  have hl₁₁ : Linked c.options.maxLocals .none s₁₁ gs' := hs₁₁ ▸ hl₁₀.closeScope
  have hown : id.IsOwn := hid.imp_right (Nat.le_trans hl₂.predeclared.size_le)
  exact ⟨gs', hl₁₁.update hown (fun _ => rfl) fun _ => trivial⟩

theorem sourceFile : Keeps c (Relinks c.options.maxLocals) sourceFile :=
  .bind (of_declares declares_advance) fun _ => .bind program fun _ => of_declares declares_expect

end Relinks

theorem ofId?_of_initial : ∀ i < SymbolTable.initial.entries.size,
    ((SymbolTable.initial.entryAt? ⟨i⟩).bind Entry.method?).isSome →
      (Builtin.ofId? ⟨i⟩).isSome := by
  decide

theorem Session.Named.start (source : String) (options : Options) :
    (Session.start (Token.scan source) options).Named := by
  obtain ⟨ts, p, unclosed?, heq, hts⟩ := Token.scan_eq source
  rw [heq]
  refine ⟨by simp [Session.start], fun t ht hk => ?_, by simp [Session.start, Token.Scanned.ofEnd]⟩
  rcases List.mem_append.1 ht with ht | ht
  · obtain ⟨q, ch, cs, rfl⟩ := hts t ht
    exact Token.Lexeme.text_of_identifier hk
  · rw [List.mem_singleton.1 ht] at hk
    simp [Token.Scanned.ofEnd] at hk

/-- Before the first token there are no methods. -/
theorem Linked.start (source : String) (options : Options) (limit : Nat) :
    Linked limit .none (.start (Token.scan source) options) [] where
  lays := .nil
  address := by simp
  wired := by simp
  method := by
    intro id e m _ he hm hid
    have he : SymbolTable.initial.entryAt? id = some e := he
    have hlt := SymbolTable.index_lt_of_entryAt? _ he
    have := ofId?_of_initial id.index hlt (by rw [he]; simp [hm])
    rw [hid] at this
    simp at this
  entry := by simp [Session.start]
  parameters := by simp
  starts := by simp [Session.start]
  named := .start source options
  sound := .initial
  predeclared := fun _ _ => rfl

/-- The code of a compilation consists of methods. -/
theorem linked_of_run {source : String} {options : Options} {c : Setting} {u : Unit} {s : Session}
    (h : Production.Runs c Production.sourceFile (.start (Token.scan source) options) u s) :
    ∃ gs, Linked c.options.maxLocals .none s gs :=
  Relinks.sourceFile h [] (.start source options c.options.maxLocals)

end MicroJava
