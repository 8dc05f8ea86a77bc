import MicroJava.Proofs.CheckingExpression
import MicroJava.Proofs.Obeying
import MicroJava.Proofs.Valuation

/-!
# Code that computes

What productions append to the code while they read the terminals of an expression without calls and
creations (`Codes`): they declare nothing, and where they report no mistake, the instructions depend on
the operands only. The parts of a production append one after the other (`Codes.bind`).

An operand stands for a value that is not loaded yet. `Operand.Gives` says of the instructions in front
of it that with those that load it they push that value.
-/

namespace MicroJava

open Production Tree

/-! ### Operands -/

/-- The instructions that load an operand. A method cannot be loaded. -/
def Operand.loading? (x : Operand) : Option (List Order) :=
  match x.place with
  | .constant v => some [Emission.constantCode v]
  | .frame slot => some [Emission.frameLoadCode slot]
  | .global slot => some [(.getStatic, [(slot : Int)])]
  | .stack => some []
  | .field slot => some [(.getField, [(slot : Int)])]
  | .element => some [(Emission.elementLoad x.type, [])]
  | .method _ => none

/-- Appends instructions. -/
def Assembly.emitAll (a : Assembly) (os : List Order) : Assembly :=
  os.foldl (fun a o => a.emit o.1 o.2) a

theorem Assembly.toList_code_emitAll (a : Assembly) (os : List Order) :
    (a.emitAll os).code.toList = a.code.toList ++ Order.bytes os := by
  induction os generalizing a with
  | nil => simp [emitAll, Order.bytes]
  | cons o os ih =>
    have htail := ih (a.emit o.1 o.2)
    simp only [emitAll, List.foldl_cons] at htail ⊢
    rw [htail]
    simp [Assembly.emit, Order.bytes]

theorem Emission.outcome_load (x : Operand) (a : Assembly) :
    (load x).outcome a = x.loading?.elim (.error .noValue, a) fun os => (.ok (), a.emitAll os) := by
  obtain ⟨place, type⟩ := x
  cases place <;> rfl

/-- The operands of the instructions fit their fields, if two bytes hold the slots. -/
def Order.FitsBelow (slots : List Nat) (os : List Order) : Prop :=
  (∀ slot ∈ slots, slot < 65536) → ∀ o ∈ os, o.Fits

/-- The instructions push what `f` computes, and their operands fit if the slots do. -/
structure Computes (slots : List Nat) (f : Memory → Computation Int32) (os : List Order) : Prop where
  pushes : Pushes f os
  fits : Order.FitsBelow slots os

namespace Order.FitsBelow

variable {slots slots' : List Nat} {os os' : List Order} {o : Order}

theorem append (h : FitsBelow slots os) (h' : FitsBelow slots' os') :
    FitsBelow (slots ++ slots') (os ++ os') := by
  intro hslots o ho
  rw [List.forall_mem_append] at hslots
  rcases List.mem_append.1 ho with ho | ho
  · exact h hslots.1 o ho
  · exact h' hslots.2 o ho

/-- An instruction without operands. -/
theorem bare {op : Opcode} (h : op.fields = []) (hrelative : op.isRelative = false) :
    FitsBelow [] [(op, [])] := by
  rintro - o ho
  rw [List.mem_singleton.1 ho]
  exact ⟨hrelative, h ▸ .nil⟩

/-- An instruction whose operand is a slot. -/
theorem slot {op : Opcode} {slot : Nat} (h : op.fields = [.short]) (hrelative : op.isRelative = false) :
    FitsBelow [slot] [(op, [(slot : Int)])] := by
  intro hslots o ho
  rw [List.mem_singleton.1 ho]
  refine ⟨hrelative, ?_⟩
  rw [h]
  exact .cons (Field.holds_short (hslots slot (by simp))) .nil

end Order.FitsBelow

namespace Computes

variable {slots slots' : List Nat} {f g : Memory → Computation Int32} {os os' : List Order}

theorem constant (v : Int32) : Computes [] (fun _ => return v) [Emission.constantCode v] where
  pushes := .constant v
  fits := by
    rintro - o ho
    rw [List.mem_singleton.1 ho]
    unfold Emission.constantCode
    split_ifs
    all_goals first
      | exact ⟨rfl, .nil⟩
      | exact ⟨rfl, .cons (Field.holds_word v) .nil⟩

theorem frame (slot : Nat) :
    Computes [slot] (fun m => return m.locals slot) [Emission.frameLoadCode slot] where
  pushes := .frame slot
  fits := by
    unfold Emission.frameLoadCode
    split
    all_goals first
      | exact .slot rfl rfl
      | exact fun _ => Order.FitsBelow.bare rfl rfl (by simp)

theorem global (slot : Nat) :
    Computes [slot] (fun m => return m.statics slot) [(.getStatic, [(slot : Int)])] where
  pushes := .global slot
  fits := .slot rfl rfl

theorem field (h : Computes slots f os) (slot : Nat) :
    Computes (slots ++ [slot]) (fun m => do m.field (← f m) slot)
      (os ++ [(.getField, [(slot : Int)])]) where
  pushes := h.pushes.unary (u := fun m object => m.field object slot) fun m => by simp [Machine.step]
  fits := h.fits.append (.slot rfl rfl)

theorem negated (h : Computes slots f os) :
    Computes slots (fun m => do return -(← f m)) (os ++ [(.neg, [])]) where
  pushes := h.pushes.unary (u := fun _ x => return -x) fun _ => rfl
  fits := by simpa using h.fits.append (.bare rfl rfl)

/-- An instruction that makes one value of two. -/
theorem binary {op : Opcode} {b : Memory → Int32 → Int32 → Computation Int32}
    (h : Computes slots f os) (h' : Computes slots' g os')
    (hstep : ∀ m : Machine, m.step op [] = m.binary (b m.memory)) (hfields : op.fields = [])
    (hrelative : op.isRelative = false) :
    Computes (slots ++ slots') (fun m => do b m (← f m) (← g m)) (os ++ os' ++ [(op, [])]) where
  pushes := h.pushes.binary h'.pushes hstep
  fits := by simpa using (h.fits.append h'.fits).append (.bare hfields hrelative)

end Computes

/-- With the instructions that load the operand, those in front of it push the value. There are none in
front of a constant. -/
structure Operand.Gives (x : Operand) (slots : List Nat) (f : Memory → Computation Int32)
    (os : List Order) : Prop where
  computes : ∃ os', x.loading? = some os' ∧ Computes slots f (os ++ os')
  is_constant : ∀ v, x.constant? = some v → os = [] ∧ f = fun _ => pure v

theorem Operand.Gives.constant (v : Int32) (type : TypeId) (slots : List Nat) :
    (Operand.constant v type).Gives slots (fun _ => return v) [] where
  computes := ⟨_, rfl, .constant v, fun _ => (Computes.constant v).fits (by simp)⟩
  is_constant w hw := by
    obtain rfl := Option.some.inj hw
    exact ⟨rfl, rfl⟩

/-- A value on the stack. -/
theorem Operand.Gives.onStack {slots : List Nat} {f : Memory → Computation Int32} {os : List Order}
    (h : Computes slots f os) (type : TypeId) : (Operand.onStack type).Gives slots f os where
  computes := ⟨[], rfl, by simpa using h⟩
  is_constant := by simp [Operand.onStack, Operand.constant?]

/-- What the entry of a constant or a variable gives. -/
theorem Operand.Gives.of_entry {id : EntryId} {e : Entry} {x : Operand} (hid : id ≠ .none)
    (he : e.HasValue) (hx : Operand.ofEntry id e = .ok x) :
    x.Gives e.slots e.value [] ∧ x.type = e.type := by
  rw [Operand.ofEntry, if_neg hid] at hx
  obtain ⟨name, type, meaning⟩ := e
  cases meaning with
  | constant v =>
    obtain rfl := Except.ok.inj hx
    exact ⟨.constant v type [], rfl⟩
  | var slot level =>
    obtain rfl := Except.ok.inj hx
    refine ⟨?_, rfl⟩
    by_cases hlevel : level = SymbolTable.programLevel
    · have hvalue : Entry.value ⟨name, type, .var slot level⟩ = fun m => return m.statics slot := by
        funext m
        simp [Entry.value, hlevel]
      rw [hvalue, if_pos hlevel]
      exact ⟨⟨_, rfl, .global slot⟩, by simp [Operand.constant?]⟩
    · have hvalue : Entry.value ⟨name, type, .var slot level⟩ = fun m => return m.locals slot := by
        funext m
        simp [Entry.value, hlevel]
      rw [hvalue, if_neg hlevel]
      exact ⟨⟨_, rfl, .frame slot⟩, by simp [Operand.constant?]⟩
  | _ => exact he.elim

/-! ### What productions append -/

/-- What lies between two sessions: the terminals in front of the rest are taken, nothing is declared,
and if there is no new mistake, then instructions are appended that `T` allows. -/
structure Appends (rest : List Terminal) (T : List Order → Prop) (s s' : Session) : Prop where
  takes : Takes rest s s'
  table : s'.table = s.table
  code : s'.mistakes = s.mistakes →
    ∃ os, T os ∧ s'.assembly.code.toList = s.assembly.code.toList ++ Order.bytes os

variable {α β : Type} {rest : List Terminal} {s s₁ s' : Session}

theorem Appends.post {S T : List Order → Prop} (h : Appends rest S s s') (hT : ∀ os, S os → T os) :
    Appends rest T s s' :=
  ⟨h.takes, h.table, fun hclean => (h.code hclean).imp fun os => And.imp_left (hT os)⟩

theorem Appends.trans {ts : List Terminal} {S T : List Order → Prop} (h : Appends ts S s s₁)
    (h' : Appends rest T s₁ s') :
    Appends rest (fun os => ∃ os₁ os₂, os = os₁ ++ os₂ ∧ S os₁ ∧ T os₂) s s' where
  takes := h.takes.trans h'.takes
  table := h'.table.trans h.table
  code hclean := by
    have hle := h.takes.mistakes
    have hle' := h'.takes.mistakes
    obtain ⟨os₁, hS, hcode⟩ := h.code (by omega)
    obtain ⟨os₂, hT, hcode'⟩ := h'.code (by omega)
    exact ⟨_, ⟨os₁, os₂, rfl, hS, hT⟩, by simp [hcode', hcode, Order.bytes]⟩

/-- Every run that starts in front of the terminals `xs`, where what follows is of a kind that `F`
allows, takes them and appends instructions that `T` allows. -/
def Codes (t : SymbolTable) (c : Setting) (m : Production α) (xs : List Terminal)
    (F : Token.Kind → Prop) (T : α → List Order → Prop) : Prop :=
  ∀ ⦃s a s' rest⦄, m.Runs c s a s' → s.Named → s.table = t → s.ahead = xs ++ rest →
    F (nextKind rest) → Appends rest (T a) s s'

namespace Codes

variable {t : SymbolTable} {c : Setting} {m : Production α} {f : α → Production β}
  {xs ys : List Terminal} {F H : Token.Kind → Prop} {S S' : α → List Order → Prop}
  {T : β → List Order → Prop} {a : α}

theorem post (hS : ∀ a os, S a os → S' a os) (h : Codes t c m xs F S) : Codes t c m xs F S' :=
  fun _ a _ _ hrun hn ht hahead hrest => (h hrun hn ht hahead hrest).post (hS a)

theorem bind {T : α → β → List Order → Prop} (hm : Codes t c m xs H S)
    (hf : ∀ a, Codes t c (f a) ys F (T a))
    (hF : ∀ rest, F (nextKind rest) → H (nextKind (ys ++ rest))) :
    Codes t c (m >>= f) (xs ++ ys) F fun b os =>
      ∃ a os₁ os₂, os = os₁ ++ os₂ ∧ S a os₁ ∧ T a b os₂ := by
  intro s b s' rest hrun hn ht hahead hrest
  obtain ⟨a, s₁, h₁, h₂⟩ := runs_bind.1 hrun
  rw [List.append_assoc] at hahead
  have hfirst := hm h₁ hn ht hahead (hF rest hrest)
  have hsecond := hf a h₂ hfirst.takes.named (hfirst.table.trans ht) hfirst.takes.ahead hrest
  exact (hfirst.trans hsecond).post fun os ⟨os₁, os₂, hos, hS, hT⟩ => ⟨a, os₁, os₂, hos, hS, hT⟩

/-- An action in front of reading. -/
theorem act {T : α → β → List Order → Prop} (hm : Codes t c m [] (fun _ => True) S)
    (hf : ∀ a, Codes t c (f a) ys F (T a)) :
    Codes t c (m >>= f) ys F fun b os => ∃ a os₁ os₂, os = os₁ ++ os₂ ∧ S a os₁ ∧ T a b os₂ :=
  bind hm hf fun _ _ => trivial

theorem ret : Codes t c (Pure.pure a) [] F fun b os => b = a ∧ os = [] := by
  intro s b s' rest hrun hn _ hahead _
  obtain ⟨rfl, rfl⟩ := runs_pure.1 hrun
  exact ⟨⟨hn, hahead, rfl, Nat.le_refl _⟩, rfl, fun _ => ⟨[], ⟨rfl, rfl⟩, by simp [Order.bytes]⟩⟩

theorem ite {p : Prop} [Decidable p] {m' : Production α} (h : p → Codes t c m xs F S)
    (h' : ¬p → Codes t c m' xs F S) : Codes t c (if p then m else m') xs F S := by
  split
  · next hp => exact h hp
  · next hp => exact h' hp

/-! #### Actions -/

theorem of_acts (hacts : Keeps c (Acts c) m)
    (hm : ∀ s a s', Runs c m s a s' → s.table = t → s'.table = s.table ∧
      (s'.mistakes = s.mistakes → ∃ os, S a os ∧ s'.assembly = s.assembly.emitAll os)) :
    Codes t c m [] F S := by
  intro s a s' rest hrun hn ht hahead _
  rw [List.nil_append] at hahead
  obtain ⟨htable, hcode⟩ := hm s a s' hrun ht
  refine ⟨hahead ▸ .of_still (hacts hrun).still hn, htable, fun hclean => ?_⟩
  obtain ⟨os, hS, hassembly⟩ := hcode hclean
  exact ⟨os, hS, by rw [hassembly, Assembly.toList_code_emitAll]⟩

/-- An action that appends nothing, and gives what `φ` allows if it reports nothing. -/
theorem look {φ : α → Prop} {T : α → β → List Order → Prop} (hacts : Keeps c (Acts c) m)
    (hm : ∀ s a s', Runs c m s a s' → s.table = t → s'.table = s.table ∧
      (s'.mistakes = s.mistakes → φ a ∧ s'.assembly = s.assembly))
    (hf : ∀ a, Codes t c (f a) ys F (T a)) :
    Codes t c (m >>= f) ys F fun b os => ∃ a, φ a ∧ T a b os := by
  refine (act (S := fun a os => φ a ∧ os = []) (of_acts hacts fun s a s' hrun ht => ?_) hf).post ?_
  · refine (hm s a s' hrun ht).imp_right fun h hclean => ?_
    obtain ⟨hφ, hassembly⟩ := h hclean
    exact ⟨[], ⟨hφ, rfl⟩, hassembly⟩
  · rintro b _ ⟨a, _, os, rfl, ⟨hφ, rfl⟩, hT⟩
    exact ⟨a, hφ, hT⟩

theorem reportIf {mistake : Prop} [Decidable mistake] {p : Problem} {details : List String}
    {g : Unit → Production β} (hp : p.isSyntactic = false) (hg : Codes t c (g ()) ys F T) :
    Codes t c (Production.reportIf mistake p details >>= g) ys F T := by
  refine (look (φ := fun _ => True) (acts_reportIf hp) (fun s u s' hrun _ => ?_) fun _ => hg).post
    fun b os ⟨_, _, hT⟩ => hT
  rw [runs_reportIf.1 hrun]
  unfold Session.reportIf
  split <;> exact ⟨rfl, fun _ => ⟨trivial, rfl⟩⟩

/-- A mistake is reported. -/
theorem report {p : Problem} {details : List String} {S : Unit → List Order → Prop}
    (hp : p.isSyntactic = false) :
    Codes t c (Production.report p details) [] F S := by
  refine of_acts (acts_report hp) fun s u s' hrun _ => ?_
  rw [runs_report.1 hrun]
  exact ⟨rfl, fun hclean => by simp at hclean⟩

theorem report_then {p : Problem} {details : List String} {g : Unit → Production β}
    {E : β → List Order → Prop} (hp : p.isSyntactic = false) (hg : Codes t c (g ()) ys F E) :
    Codes t c (Production.report p details >>= g) ys F T := by
  refine post ?_ (act (report (S := fun _ _ => False) hp) fun _ => hg)
  rintro _ _ ⟨_, _, _, _, h, _⟩
  exact h.elim

theorem load {x : Operand} :
    Codes t c (Production.load x) [] F fun _ os => x.loading? = some os := by
  refine of_acts acts_load fun s u s' hrun _ => ?_
  rcases runs_attempt.1 hrun with ⟨assembly, hload, rfl⟩ | ⟨p, assembly, -, rfl⟩
  · refine ⟨rfl, fun _ => ?_⟩
    rw [Emission.outcome_load] at hload
    rcases hos : x.loading? with _ | os
    · simp [hos] at hload
    · simp only [hos, Option.elim_some, Prod.mk.injEq, true_and] at hload
      exact ⟨os, rfl, hload.symm⟩
  · refine ⟨rfl, fun hclean => ?_⟩
    rw [Session.mistakes_report] at hclean
    exact absurd hclean (Nat.succ_ne_self _)

theorem emit {op : Opcode} {operands : List Int} :
    Codes t c (Production.emit op operands) [] F fun _ os => os = [(op, operands)] := by
  refine of_acts acts_write fun s u s' hrun _ => ?_
  obtain rfl := runs_emit.1 hrun
  exact ⟨rfl, fun _ => ⟨_, rfl, rfl⟩⟩

theorem find {n : String} {g : EntryId → Production β} {T : EntryId → β → List Order → Prop}
    (hn : n ≠ "") (hg : ∀ id, Codes t c (g id) ys F (T id)) :
    Codes t c (Production.find n >>= g) ys F fun b os => ∃ id, t.lookup? n = some id ∧ T id b os := by
  refine look acts_find (fun s id s' hrun ht => ?_) hg
  rcases runs_find.1 hrun with ⟨h, -⟩ | ⟨-, -, -, rfl⟩ | ⟨-, hid, rfl⟩
  · exact absurd h hn
  · exact ⟨rfl, fun hclean => by simp at hclean⟩
  · exact ⟨rfl, fun _ => ⟨ht ▸ hid, rfl⟩⟩

theorem entry {id : EntryId} {g : Entry → Production β} {T : Entry → β → List Order → Prop}
    (hg : ∀ e, Codes t c (g e) ys F (T e)) :
    Codes t c (Production.entry id >>= g) ys F fun b os =>
      ∃ e, t.entryAt? id = some e ∧ T e b os := by
  refine look acts_entry (fun s e s' hrun ht => ?_) hg
  obtain ⟨he, rfl⟩ := runs_entry.1 hrun
  exact ⟨rfl, fun _ => ⟨ht ▸ he, rfl⟩⟩

theorem descriptor {type : TypeId} {g : Descriptor → Production β}
    {T : Descriptor → β → List Order → Prop} (hg : ∀ d, Codes t c (g d) ys F (T d)) :
    Codes t c (Production.descriptor type >>= g) ys F fun b os =>
      ∃ d, t.types.descriptor? type = some d ∧ T d b os := by
  refine look acts_descriptor (fun s d s' hrun ht => ?_) hg
  obtain ⟨hd, rfl⟩ := runs_descriptor.1 hrun
  exact ⟨rfl, fun _ => ⟨ht ▸ hd, rfl⟩⟩

theorem findField {n : String} {type : TypeId} {g : EntryId → Production β}
    {T : EntryId → β → List Order → Prop} (hg : ∀ id, Codes t c (g id) ys F (T id)) :
    Codes t c (Production.findField n type >>= g) ys F fun b os =>
      ∃ id, t.findField n type = .ok id ∧ T id b os := by
  refine look acts_findField (fun s id s' hrun ht => ?_) hg
  subst ht
  simp only [Production.findField, runs_bind, runs_table] at hrun
  obtain ⟨_, _, ⟨rfl, rfl⟩, hrun⟩ := hrun
  split at hrun
  · next hid =>
    obtain ⟨rfl, rfl⟩ := runs_pure.1 hrun
    exact ⟨rfl, fun _ => ⟨hid, rfl⟩⟩
  · simp only [runs_bind, runs_report] at hrun
    obtain ⟨_, _, rfl, hrun⟩ := hrun
    obtain ⟨rfl, rfl⟩ := runs_pure.1 hrun
    exact ⟨rfl, fun hclean => by simp at hclean⟩

/-! #### Terminals -/

/-- A step that takes a terminal, and gives `a` for it. -/
theorem take {x : Terminal} {T : β → List Order → Prop}
    (hm : ∀ s a' s', Runs c m s a' s' → s.current.terminal = x → a' = a ∧ s' = s.advance)
    (hf : Codes t c (f a) ys F T) : Codes t c (m >>= f) (x :: ys) F T := by
  intro s b s' rest hrun hn ht hahead hrest
  obtain ⟨a', s₁, h₁, h₂⟩ := runs_bind.1 hrun
  rw [List.cons_append] at hahead
  obtain ⟨rfl, rfl⟩ := hm s a' s₁ h₁ (Session.current_of_ahead hahead).1
  have htakes := Takes.advance hn hahead
  have hrest := hf h₂ htakes.named ht htakes.ahead hrest
  exact ⟨htakes.trans hrest.takes, hrest.table, fun hclean => hrest.code (by simpa using hclean)⟩

theorem advance {x : Terminal} {g : Unit → Production β} (hg : Codes t c (g ()) ys F T) :
    Codes t c (Production.advance >>= g) (x :: ys) F T :=
  take World.Checks.runs_advance_terminal hg

theorem expect {k : Token.Kind} {g : Unit → Production β} (hg : Codes t c (g ()) ys F T) :
    Codes t c (Production.expect k >>= g) (.word k :: ys) F T :=
  take World.Checks.runs_expect_terminal hg

theorem identifier {n : String} {g : String → Production β} (hg : n ≠ "" → Codes t c (g n) ys F T) :
    Codes t c (Production.identifier >>= g) (.name n :: ys) F T := by
  intro s b s' rest hrun hn ht hahead hrest
  have hname := hn.name (Session.current_of_ahead hahead).1
  exact take World.Checks.runs_identifier_terminal (hg hname) hrun hn ht hahead hrest

theorem literal {x : Terminal} {v : Int32} {g : Int32 → Production β}
    (hx : x = .number v ∨ x = .character v) (hg : Codes t c (g v) ys F T) :
    Codes t c (Production.literal >>= g) (x :: ys) F T :=
  take (World.Checks.runs_literal_terminal hx) hg

/-! #### The next token -/

theorem peek {k : Token.Kind} {g : Token.Kind → Production β}
    (hk : ∀ rest, F (nextKind rest) → nextKind (ys ++ rest) = k) (hg : Codes t c (g k) ys F T) :
    Codes t c (Production.peek >>= g) ys F T := by
  intro s b s' rest hrun hn ht hahead hrest
  simp only [runs_bind, runs_peek] at hrun
  obtain ⟨_, s, ⟨rfl, rfl⟩, hrun⟩ := hrun
  rw [Session.kind_eq, hahead, hk rest hrest] at hrun
  exact hg hrun hn ht hahead hrest

theorem check {k : Token.Kind} {b : Bool} {g : Bool → Production β}
    (hk : ∀ rest, F (nextKind rest) → decide (nextKind (ys ++ rest) = k) = b)
    (hg : Codes t c (g b) ys F T) : Codes t c (Production.check k >>= g) ys F T := by
  intro s r s' rest hrun hn ht hahead hrest
  simp only [runs_bind, runs_check] at hrun
  obtain ⟨_, s, ⟨rfl, rfl⟩, hrun⟩ := hrun
  rw [Session.kind_eq, hahead, hk rest hrest] at hrun
  exact hg hrun hn ht hahead hrest

end Codes

/-! ### Chains -/

/-- Where a loop runs behind a production, it has read the terminals `xs` of a tree at some point, and
goes on from there. -/
def CodesTo (t : SymbolTable) (c : Setting) (m : Production α) (step : α → Production (α ⊕ β))
    (xs : List Terminal) (F : Token.Kind → Prop) (T : α → List Order → Prop) : Prop :=
  ∀ ⦃s a s₀ b s' rest⦄, Runs c m s a s₀ → Turns c step a s₀ b s' → s.Named → s.table = t →
    s.ahead = xs ++ rest → F (nextKind rest) →
      ∃ a' s₁, Turns c step a' s₁ b s' ∧ Appends rest (T a') s s₁

namespace CodesTo

variable {t : SymbolTable} {c : Setting} {m : Production α} {step : α → Production (α ⊕ β)}
  {xs ys : List Terminal} {F H : Token.Kind → Prop} {S T : α → List Order → Prop}

/-- The tree in front of all operators. -/
theorem first (h : Codes t c m xs F T) : CodesTo t c m step xs F T :=
  fun _ a s₀ _ _ _ hrun hturns hn ht hahead hrest => ⟨a, s₀, hturns, h hrun hn ht hahead hrest⟩

/-- One more operator and operand, where the loop goes on in front of the operator. -/
theorem extend {k : Token.Kind} {E : α → α → List Order → Prop} (h : CodesTo t c m step xs H S)
    (hgoes : ∀ s a r s', Runs c (step a) s r s' → s.current.kind = k → r.isLeft)
    (hstep : ∀ a, Codes t c (step a) (.word k :: ys) F fun r os => ∃ a', r = .inl a' ∧ E a a' os)
    (hk : H k) (hT : ∀ a os a' os', S a os → E a a' os' → T a' (os ++ os')) :
    CodesTo t c m step (xs ++ .word k :: ys) F T := by
  intro s a s₀ b s' rest hrun hturns hn ht hahead hrest
  rw [List.append_assoc] at hahead
  obtain ⟨a₁, s₁, hturns₁, hfirst⟩ := h hrun hturns hn ht hahead hk
  have hkind : s₁.current.kind = k := by rw [Session.kind_eq, hfirst.takes.ahead]; rfl
  cases hturns₁ with
  | last hlast => exact absurd (hgoes _ _ _ _ hlast hkind) (by simp)
  | @next _ a₂ _ s₂ _ _ hnext hturns₂ =>
    refine ⟨a₂, s₂, hturns₂, ?_⟩
    have hsecond :=
      hstep a₁ hnext hfirst.takes.named (hfirst.table.trans ht) hfirst.takes.ahead hrest
    refine (hfirst.trans hsecond).post ?_
    rintro _ ⟨os, os', rfl, hS, a', heq, hE⟩
    obtain rfl := Sum.inl.inj heq
    exact hT _ _ _ _ hS hE

/-- No further operator follows. -/
theorem last {step : α → Production (α ⊕ α)} (h : CodesTo t c m step xs H T)
    (hstop : ∀ s a r s', Runs c (step a) s r s' → F s.current.kind → r = .inr a ∧ s' = s)
    (hF : ∀ k, F k → H k) : Codes t c (do loop step (← m)) xs F T := by
  intro s b s' rest hrun hn ht hahead hrest
  obtain ⟨a, s₀, hm, hloop⟩ := runs_bind.1 hrun
  obtain ⟨a', s₁, hturns, happends⟩ :=
    h hm (turns_of_runs_loop hloop) hn ht hahead (hF _ hrest)
  have hk : F s₁.current.kind := by rwa [Session.kind_eq, happends.takes.ahead]
  cases hturns with
  | last hlast =>
    obtain ⟨heq, rfl⟩ := hstop _ _ _ _ hlast hk
    obtain rfl := Sum.inr.inj heq
    exact happends
  | next hnext _ =>
    obtain ⟨heq, -⟩ := hstop _ _ _ _ hnext hk
    contradiction

end CodesTo

end MicroJava
