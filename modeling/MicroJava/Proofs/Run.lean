import MicroJava.Compile
import MicroJava.Proofs.Session
import MicroJava.Proofs.Table

/-!
# Runs of productions

`Runs c m s a s'` says that the production `m`, run in the setting `c` from the session `s`, ends
without a fault, gives `a` and leaves `s'`. A run of a sequence splits into the runs of its parts
(`runs_bind`), so the run of a production is read off its definition; the lemmas on the small
productions say what each of them does. A run of a loop is a list of turns (`turns_of_runs_loop`), in
which the bound on their number no longer appears.
-/

namespace MicroJava

namespace Emission

variable {ε α β : Type} {a a' : Assembly}

/-- What an emission gives and leaves. -/
def outcome (e : Emission ε α) (a : Assembly) : Except ε α × Assembly := e a

theorem outcome_pure (x : α) : outcome (pure x : Emission ε α) a = (.ok x, a) := rfl

theorem outcome_throw (p : ε) : outcome (throw p : Emission ε α) a = (.error p, a) := rfl

theorem outcome_bind (e : Emission ε α) (f : α → Emission ε β) :
    outcome (e >>= f) a =
      match outcome e a with
      | (.ok x, a₁) => outcome (f x) a₁
      | (.error p, a₁) => (.error p, a₁) := by
  unfold outcome
  simp only [bind, ExceptT.bind, ExceptT.mk, StateT.bind]
  rcases e a with ⟨r | x, a₁⟩ <;> rfl

theorem outcome_emit (op : Opcode) (operands : List Int) :
    outcome (emit op operands : Emission ε Unit) a = (.ok (), a.emit op operands) := rfl

theorem outcome_here : outcome (here : Emission ε Nat) a = (.ok a.here, a) := rfl

theorem outcome_newLabel : outcome (newLabel : Emission ε Label) a = (.ok a.newLabel.1, a.newLabel.2) :=
  rfl

/-- An emission that succeeds. -/
def Succeeds (e : Emission ε α) (a : Assembly) (x : α) (a' : Assembly) : Prop :=
  e.outcome a = (.ok x, a')

theorem succeeds_bind {e : Emission ε α} {f : α → Emission ε β} {y : β} :
    Succeeds (e >>= f) a y a' ↔ ∃ x a₁, Succeeds e a x a₁ ∧ Succeeds (f x) a₁ y a' := by
  unfold Succeeds
  rw [outcome_bind]
  rcases outcome e a with ⟨r | x, a₁⟩
  · simp
  · constructor
    · intro h
      exact ⟨x, a₁, rfl, h⟩
    · rintro ⟨x', a₂, h, h'⟩
      cases h
      exact h'

theorem succeeds_pure {x y : α} : Succeeds (pure x : Emission ε α) a y a' ↔ y = x ∧ a' = a := by
  simp [Succeeds, outcome_pure, eq_comm]

theorem succeeds_emit {op : Opcode} {operands : List Int} {u : Unit} :
    Succeeds (emit op operands : Emission ε Unit) a u a' ↔ a' = a.emit op operands := by
  simp [Succeeds, outcome_emit, eq_comm]

theorem succeeds_modify {f : Assembly → Assembly} {u : Unit} :
    Succeeds (modify f : Emission ε Unit) a u a' ↔ a' = f a := by
  rw [Succeeds, show outcome (modify f : Emission ε Unit) a = (.ok (), f a) from rfl]
  simp [eq_comm]

theorem succeeds_here {n : Nat} : Succeeds (here : Emission ε Nat) a n a' ↔ n = a.here ∧ a' = a := by
  simp [Succeeds, outcome_here, eq_comm]

theorem succeeds_put {bytes : List UInt8} {u : Unit} :
    Succeeds (put bytes : Emission ε Unit) a u a' ↔ a' = a.append bytes :=
  succeeds_modify

theorem succeeds_labelState {l : Label} {st : LabelState} :
    Succeeds (labelState l) a st a' ↔ a.label? l = some st ∧ a' = a := by
  rw [Succeeds, labelState, outcome_bind,
    show (get : Emission Fault Assembly).outcome a = (.ok a, a) from rfl]
  rcases h : a.label? l with _ | st' <;> simp [h, outcome_throw, outcome_pure, eq_comm]

/-- The distance fits in two signed bytes. -/
def InReach (d : Int) : Prop := -32768 ≤ d ∧ d ≤ 32767

theorem succeeds_distance {target position : Nat} {d : Int} :
    Succeeds (distance target position) a d a' ↔
      d = (target : Int) - (position + 2) ∧ InReach d ∧ a' = a := by
  unfold distance
  simp only
  split
  · next h =>
    rw [succeeds_pure]
    constructor
    · rintro ⟨rfl, rfl⟩
      exact ⟨rfl, h, rfl⟩
    · rintro ⟨rfl, -, rfl⟩
      exact ⟨rfl, rfl⟩
  · next h =>
    simp only [Succeeds, outcome_throw, Prod.mk.injEq, reduceCtorEq, false_and, false_iff, not_and]
    rintro rfl hd
    exact absurd hd h

theorem succeeds_patch {position : Nat} {bytes : List UInt8} {u : Unit} :
    Succeeds (patch position bytes) a u a' ↔
      position + bytes.length ≤ a.here ∧
        a' = { a with code := Assembly.overwrite a.code position bytes } := by
  simp only [patch, succeeds_bind, succeeds_here]
  constructor
  · rintro ⟨_, _, ⟨rfl, rfl⟩, h⟩
    split at h
    · next hle => exact ⟨hle, succeeds_modify.1 h⟩
    · simp [Succeeds, outcome_throw] at h
  · rintro ⟨hle, rfl⟩
    refine ⟨_, _, ⟨rfl, rfl⟩, ?_⟩
    rw [if_pos hle]
    exact succeeds_modify.2 rfl

end Emission

namespace Production

variable {α β : Type} {c : Setting} {s s' : Session}

/-- What a production gives and leaves. -/
def outcome (m : Production α) (c : Setting) (s : Session) : Except Fault α × Session := m c s

/-- The production ends without a fault. -/
def Runs (c : Setting) (m : Production α) (s : Session) (a : α) (s' : Session) : Prop :=
  m.outcome c s = (.ok a, s')

/-! ### Sequences -/

theorem outcome_pure (a : α) : outcome (pure a) c s = (.ok a, s) := rfl

theorem outcome_throw (f : Fault) : outcome (throw f : Production α) c s = (.error f, s) := rfl

theorem outcome_get : outcome get c s = (.ok s, s) := rfl

theorem outcome_read : outcome read c s = (.ok c, s) := rfl

theorem outcome_modify (f : Session → Session) : outcome (modify f) c s = (.ok (), f s) := rfl

theorem outcome_modifyGet (f : Session → α × Session) :
    outcome (modifyGet f) c s = (.ok (f s).1, (f s).2) := rfl

theorem outcome_bind (m : Production α) (f : α → Production β) :
    outcome (m >>= f) c s =
      match outcome m c s with
      | (.ok a, s₁) => outcome (f a) c s₁
      | (.error e, s₁) => (.error e, s₁) := by
  unfold outcome
  simp only [bind, ReaderT.bind, ExceptT.bind, ExceptT.mk, StateT.bind]
  rcases m c s with ⟨r | a, s₁⟩ <;> rfl

@[simp] theorem runs_pure {a b : α} : Runs c (pure a) s b s' ↔ b = a ∧ s' = s := by
  simp [Runs, outcome_pure, eq_comm]

@[simp] theorem runs_throw {f : Fault} {a : α} : ¬Runs c (throw f) s a s' := by
  simp [Runs, outcome_throw]

@[simp] theorem runs_bind {m : Production α} {f : α → Production β} {b : β} :
    Runs c (m >>= f) s b s' ↔ ∃ a s₁, Runs c m s a s₁ ∧ Runs c (f a) s₁ b s' := by
  unfold Runs
  rw [outcome_bind]
  rcases outcome m c s with ⟨r | a, s₁⟩
  · simp
  · constructor
    · intro h
      exact ⟨a, s₁, rfl, h⟩
    · rintro ⟨a', s₂, h, h'⟩
      cases h
      exact h'

@[simp] theorem runs_map {m : Production α} {f : α → β} {b : β} :
    Runs c (f <$> m) s b s' ↔ ∃ a, Runs c m s a s' ∧ b = f a := by
  rw [map_eq_pure_bind, runs_bind]
  constructor
  · rintro ⟨a, s₁, h, h'⟩
    obtain ⟨rfl, rfl⟩ := runs_pure.1 h'
    exact ⟨a, h, rfl⟩
  · rintro ⟨a, h, rfl⟩
    exact ⟨a, s', h, runs_pure.2 ⟨rfl, rfl⟩⟩

@[simp] theorem runs_discard {m : Production α} {u : Unit} :
    Runs c (discard m) s u s' ↔ ∃ a, Runs c m s a s' := by
  rw [show (discard m : Production Unit) = Function.const α () <$> m from rfl, runs_map]
  simp

@[simp] theorem runs_ite {p : Prop} [Decidable p] {m n : Production α} {a : α} :
    Runs c (if p then m else n) s a s' ↔ if p then Runs c m s a s' else Runs c n s a s' := by
  split <;> rfl

@[simp] theorem runs_get {t : Session} : Runs c get s t s' ↔ t = s ∧ s' = s := by
  simp [Runs, outcome_get, eq_comm]

@[simp] theorem runs_read {d : Setting} : Runs c read s d s' ↔ d = c ∧ s' = s := by
  simp [Runs, outcome_read, eq_comm]

@[simp] theorem runs_modify {f : Session → Session} {u : Unit} :
    Runs c (modify f) s u s' ↔ s' = f s := by
  simp [Runs, outcome_modify, eq_comm]

@[simp] theorem runs_modifyGet {f : Session → α × Session} {a : α} :
    Runs c (modifyGet f) s a s' ↔ a = (f s).1 ∧ s' = (f s).2 := by
  simp [Runs, outcome_modifyGet, eq_comm]

/-! ### Tokens and reports -/

@[simp] theorem runs_advance {u : Unit} : Runs c advance s u s' ↔ s' = s.advance := runs_modify

@[simp] theorem runs_peek {k : Token.Kind} :
    Runs c peek s k s' ↔ k = s.current.kind ∧ s' = s := by
  rw [and_comm]
  simp [peek, and_assoc]

@[simp] theorem runs_check {k : Token.Kind} {b : Bool} :
    Runs c (check k) s b s' ↔ b = decide (s.current.kind = k) ∧ s' = s := by
  simp [check, and_assoc, and_comm]

@[simp] theorem runs_checkAny {ks : Token.KindSet} {b : Bool} :
    Runs c (checkAny ks) s b s' ↔ b = ks.contains s.current.kind ∧ s' = s := by
  simp [checkAny, and_assoc, and_comm]

@[simp] theorem runs_report {p : Problem} {details : List String} {u : Unit} :
    Runs c (report p details) s u s' ↔ s' = s.report c.options.reportDistance p details := by
  simp [report, and_assoc]

@[simp] theorem runs_reportIf {mistake : Prop} [Decidable mistake] {p : Problem}
    {details : List String} {u : Unit} :
    Runs c (reportIf mistake p details) s u s' ↔
      s' = s.reportIf mistake c.options.reportDistance p details := by
  unfold reportIf Session.reportIf
  split <;> simp

@[simp] theorem runs_resume {u : Unit} : Runs c resume s u s' ↔ s' = s.resume := runs_modify

theorem runs_expect {k : Token.Kind} {u : Unit} :
    Runs c (expect k) s u s' ↔
      s.current.kind = k ∧ s' = s.advance ∨
        s.current.kind ≠ k ∧ s' = s.report c.options.reportDistance .tokenExpected [k.label] := by
  by_cases h : s.current.kind = k <;> simp [expect, h]

theorem runs_takeIf {k : Token.Kind} {u : Unit} :
    Runs c (takeIf k) s u s' ↔
      s.current.kind = k ∧ s' = s.advance ∨ s.current.kind ≠ k ∧ s' = s := by
  by_cases h : s.current.kind = k <;> simp [takeIf, h]

theorem runs_identifier {name : String} :
    Runs c identifier s name s' ↔
      s.current.kind = .identifier ∧ name = s.current.name ∧ s' = s.advance ∨
        s.current.kind ≠ .identifier ∧ name = "" ∧
          s' = s.report c.options.reportDistance .tokenExpected
            [Token.Kind.identifier.label] := by
  rw [and_comm (a := name = _)]
  by_cases h : s.current.kind = .identifier <;> simp [identifier, h, and_assoc, and_comm]

@[simp] theorem runs_literal {v : Int32} :
    Runs c literal s v s' ↔ v = s.current.literal ∧ s' = s.advance := by
  rw [and_comm]
  simp [literal, and_assoc]

/-! ### Loops -/

/-- A run of the turns of a loop. -/
inductive Turns (c : Setting) (body : α → Production (α ⊕ β)) :
    α → Session → β → Session → Prop where
  | last {a : α} {s : Session} {b : β} {s' : Session} :
    Runs c (body a) s (.inr b) s' → Turns c body a s b s'
  | next {a a' : α} {s s₁ : Session} {b : β} {s' : Session} :
    Runs c (body a) s (.inl a') s₁ → Turns c body a' s₁ b s' → Turns c body a s b s'

theorem turns_of_runs_iterate {body : α → Production (α ⊕ β)} :
    ∀ (n : Nat) {a : α} {s : Session} {b : β}, Runs c (iterate body n a) s b s' →
      Turns c body a s b s'
  | 0, a, s, b, h => absurd h runs_throw
  | n + 1, a, s, b, h => by
    simp only [iterate, runs_bind] at h
    obtain ⟨r, s₁, h₁, h₂⟩ := h
    rcases r with a' | b'
    · exact .next h₁ (turns_of_runs_iterate n h₂)
    · obtain ⟨rfl, rfl⟩ := runs_pure.1 h₂
      exact .last h₁

theorem turns_of_runs_loop {body : α → Production (α ⊕ β)} {a : α} {b : β}
    (h : Runs c (loop body a) s b s') : Turns c body a s b s' := by
  simp only [loop, runs_bind, runs_read] at h
  obtain ⟨_, _, ⟨rfl, rfl⟩, h⟩ := h
  exact turns_of_runs_iterate _ h

/-- A run of the turns of a loop that goes on as long as its body says so. -/
inductive Repeats (c : Setting) (body : Production Bool) : Session → Session → Prop where
  | last {s s' : Session} : Runs c body s false s' → Repeats c body s s'
  | next {s s₁ s' : Session} :
    Runs c body s true s₁ → Repeats c body s₁ s' → Repeats c body s s'

theorem repeats_of_turns {body : Production Bool} {u v : Unit}
    (h : Turns c (fun _ => return if ← body then .inl () else .inr ()) u s v s') :
    Repeats c body s s' := by
  induction h with
  | last h =>
    simp only [runs_bind] at h
    obtain ⟨b, s₁, h₁, h₂⟩ := h
    rcases b with _ | _
    · obtain ⟨-, rfl⟩ := runs_pure.1 h₂
      exact .last h₁
    · simp at h₂
  | next h _ ih =>
    simp only [runs_bind] at h
    obtain ⟨b, s₁, h₁, h₂⟩ := h
    rcases b with _ | _
    · simp at h₂
    · obtain ⟨-, rfl⟩ := runs_pure.1 h₂
      exact .next h₁ ih

theorem repeats_of_runs {body : Production Bool} {u : Unit}
    (h : Runs c (repeatWhile body) s u s') : Repeats c body s s' :=
  repeats_of_turns (turns_of_runs_loop h)

/-- Every run of the production leads from a session to one that `R` relates to it. -/
def Keeps (c : Setting) (R : Session → Session → Prop) (m : Production α) : Prop :=
  ∀ ⦃s a s'⦄, Runs c m s a s' → R s s'

namespace Keeps

variable {R : Session → Session → Prop} {m m' : Production α}

theorem look [Std.Refl R] (h : ∀ s a s', Runs c m s a s' → s' = s) : Keeps c R m := by
  intro s a s' hrun
  rw [h s a s' hrun]
  exact Std.Refl.refl s

theorem pure [Std.Refl R] (a : α) : Keeps c R (pure a) :=
  look fun _ _ _ hrun => (runs_pure.1 hrun).2

theorem bind [Trans R R R] {f : α → Production β} (hm : Keeps c R m)
    (hf : ∀ a, Keeps c R (f a)) : Keeps c R (m >>= f) := by
  intro s b s' h
  obtain ⟨a, s₁, h₁, h₂⟩ := runs_bind.1 h
  exact Trans.trans (hm h₁) (hf a h₂)

theorem ite {p : Prop} [Decidable p] (hm : p → Keeps c R m) (hm' : ¬p → Keeps c R m') :
    Keeps c R (if p then m else m') := by
  split
  · next h => exact hm h
  · next h => exact hm' h

theorem discard (hm : Keeps c R m) : Keeps c R (discard m) := by
  intro s u s' h
  obtain ⟨a, h⟩ := runs_discard.1 h
  exact hm h

theorem loop [Trans R R R] {body : α → Production (α ⊕ β)} (hbody : ∀ a, Keeps c R (body a))
    (a : α) : Keeps c R (loop body a) := by
  intro s b s' h
  replace h := turns_of_runs_loop h
  induction h with
  | last h => exact hbody _ h
  | next h _ ih => exact Trans.trans (hbody _ h) ih

theorem repeatWhile [Std.Refl R] [Trans R R R] {body : Production Bool}
    (hbody : Keeps c R body) : Keeps c R (repeatWhile body) :=
  loop (fun _ => .bind hbody fun _ => .pure _) ()

theorem peek [Std.Refl R] : Keeps c R peek := look fun _ _ _ hrun => (runs_peek.1 hrun).2

theorem check [Std.Refl R] {k : Token.Kind} : Keeps c R (check k) :=
  look fun _ _ _ hrun => (runs_check.1 hrun).2

theorem checkAny [Std.Refl R] {ks : Token.KindSet} : Keeps c R (checkAny ks) :=
  look fun _ _ _ hrun => (runs_checkAny.1 hrun).2

theorem get [Std.Refl R] : Keeps c R get := look fun _ _ _ hrun => (runs_get.1 hrun).2

theorem read [Std.Refl R] : Keeps c R read := look fun _ _ _ hrun => (runs_read.1 hrun).2

end Keeps

/-! ### Symbols -/

@[simp] theorem runs_table {t : SymbolTable} : Runs c table s t s' ↔ t = s.table ∧ s' = s := by
  simp [table, and_assoc, and_comm]

@[simp] theorem runs_updateTable {f : SymbolTable → SymbolTable} {u : Unit} :
    Runs c (updateTable f) s u s' ↔ s' = { s with table := f s.table } := by
  simp [updateTable, Session.withTable]

@[simp] theorem runs_entry {id : EntryId} {e : Entry} :
    Runs c (entry id) s e s' ↔ s.table.entryAt? id = some e ∧ s' = s := by
  simp only [entry, runs_bind, runs_table, and_assoc, exists_and_left, exists_eq_left]
  rcases s.table.entryAt? id with _ | e' <;> simp [eq_comm]

@[simp] theorem runs_descriptor {t : TypeId} {d : Descriptor} :
    Runs c (descriptor t) s d s' ↔ s.table.types.descriptor? t = some d ∧ s' = s := by
  simp only [descriptor, runs_bind, runs_table, and_assoc, exists_and_left, exists_eq_left]
  rcases s.table.types.descriptor? t with _ | d' <;> simp [eq_comm]

@[simp] theorem runs_updateEntry {id : EntryId} {f : Entry → Entry} {u : Unit} :
    Runs c (updateEntry id f) s u s' ↔ s' = { s with table := s.table.update id f } :=
  runs_updateTable

@[simp] theorem runs_arrayOf {t t' : TypeId} :
    Runs c (arrayOf t) s t' s' ↔
      t' = (s.table.arrayOf t).1 ∧ s' = { s with table := (s.table.arrayOf t).2 } := by
  simp [arrayOf, Session.withTable]

@[simp] theorem runs_openScope {u : Unit} :
    Runs c openScope s u s' ↔ s' = { s with table := s.table.openScope } :=
  runs_updateTable

@[simp] theorem runs_closeScope {ids : List EntryId} :
    Runs c closeScope s ids s' ↔
      ids = s.table.closeScope.1 ∧ s' = { s with table := s.table.closeScope.2 } := by
  simp [closeScope, Session.withTable]

theorem runs_declare {category : Category} {name : String} {type : TypeId} {id : EntryId} :
    Runs c (declare category name type) s id s' ↔
      name = "" ∧ id = .none ∧ s' = s ∨
      name ≠ "" ∧ (s.table.current.find? name).isSome ∧ id = .none ∧
        s' = s.report c.options.reportDistance .alreadyDeclared [name] ∨
      name ≠ "" ∧ s.table.current.find? name = none ∧ id = ⟨s.table.entries.size⟩ ∧
        s' = { s with table := (s.table.bind ⟨name, type, s.table.meaningOf category⟩).2 } := by
  by_cases hname : name = ""
  · simp [declare, hname]
  · by_cases hfind : (s.table.current.find? name).isSome
    · have hnone : s.table.current.find? name ≠ none := Option.isSome_iff_ne_none.1 hfind
      simp [declare, hname, hfind, hnone, Session.withTable, SymbolTable.declare, and_assoc,
        and_comm]
    · have hnone : s.table.current.find? name = none := by simpa using hfind
      simp [declare, hname, hnone, Session.withTable, SymbolTable.declare, and_assoc,
        SymbolTable.id_bind]

theorem runs_find {name : String} {id : EntryId} :
    Runs c (find name) s id s' ↔
      name = "" ∧ id = .none ∧ s' = s ∨
      name ≠ "" ∧ s.table.lookup? name = none ∧ id = .none ∧
        s' = s.report c.options.reportDistance .notFound [name] ∨
      name ≠ "" ∧ s.table.lookup? name = some id ∧ s' = s := by
  by_cases hname : name = ""
  · simp [find, hname]
  · rcases hl : s.table.lookup? name with _ | id' <;>
      simp [find, hname, hl, SymbolTable.find, and_assoc, and_comm, eq_comm]

/-! ### Code -/

theorem runs_write {e : Emission Fault α} {a : α} :
    Runs c (write e) s a s' ↔
      ∃ assembly, e.Succeeds s.assembly a assembly ∧ s' = { s with assembly } := by
  simp only [write, runs_bind, runs_modifyGet, Session.withAssembly, Emission.Succeeds,
    Emission.outcome]
  rw [show e.run.run s.assembly = e s.assembly from rfl]
  rcases e s.assembly with ⟨r | b, assembly⟩ <;>
    simp [and_assoc, exists_and_left, eq_comm]

theorem runs_attempt {e : Emission Problem Unit} {u : Unit} :
    Runs c (attempt e) s u s' ↔
      (∃ assembly, e.outcome s.assembly = (.ok (), assembly) ∧ s' = { s with assembly }) ∨
        ∃ p assembly, e.outcome s.assembly = (.error p, assembly) ∧
          s' = Session.report { s with assembly } c.options.reportDistance p [] := by
  simp only [attempt, runs_bind, runs_modifyGet, Session.withAssembly, Emission.outcome]
  rw [show e.run.run s.assembly = e s.assembly from rfl]
  rcases e s.assembly with ⟨p | b, assembly⟩ <;>
    simp [and_assoc, exists_and_left, eq_comm]

@[simp] theorem runs_emit {op : Opcode} {operands : List Int} {u : Unit} :
    Runs c (emit op operands) s u s' ↔
      s' = { s with assembly := s.assembly.emit op operands } := by
  simp only [emit, runs_write, Emission.succeeds_emit, exists_eq_left]

/-! ### A part of a production -/

/-- What may come behind the first statement of an `if`. -/
def otherwise (statement : Option Label → Production Unit) (exit : Option Label) (b : Branch) :
    Production Unit := do
  if ← check .elseWord then
    advance
    let behind ← write Emission.newLabel
    write (Emission.jump behind)
    write (Emission.define b.whenFalse)
    statement exit
    write (Emission.define behind)
  else write (Emission.define b.whenFalse)

theorem ifStatement_eq (statement : Option Label → Production Unit) (exit : Option Label) :
    ifStatement statement exit = (do
      advance
      let b ← guardCondition
      statement exit
      otherwise statement exit b) := rfl

end Production

/-! ### Compilations -/

/-- A compilation is a run of the production of whole texts. -/
theorem runs_of_compile {source : String} {options : Options} {c : Compilation}
    (h : compile source options = .ok c) :
    ∃ s, Production.Runs (.ofStream options (Token.scan source)) Production.sourceFile
        (.start (Token.scan source) options) () s ∧
      s.assembly.finish = .ok c.image ∧ c.diagnostics = s.journal.log.toList := by
  unfold compile compileTokens at h
  split at h
  · simp at h
  · next s hrun =>
    rcases hfinish : s.assembly.finish with fault | image
    · simp [hfinish, Except.map] at h
    · simp only [hfinish, Except.map, Except.ok.injEq] at h
      subst h
      exact ⟨s, hrun, hfinish, rfl⟩

end MicroJava
