import MicroJava.Production.Program
import MicroJava.Proofs.Run
import MicroJava.Proofs.Scanned

/-!
# The course of a compilation

What a production does with the tokens and the journal (`Course`), also where it stops at a fault: it
takes tokens, reports, and marks where it has found its place again, and it takes the end of the file
in one place only. That is where a statement has to come and the file ends instead: the recovery then
takes the end of the file as if it were a token, and no statement is read behind it.

`Tracks` says of a production that it has such a course and does not take the end of the file,
`TracksEnd` that it takes it at most once. A whole program does so (`tracksEnd_program`).
-/

namespace MicroJava

namespace Event

/-- The token that is taken, if the event is that. -/
def taken? : Event → Option Token.Scanned
  | .took t => some t
  | _ => none

end Event

namespace Session

/-- The tokens and the journal are the same. -/
structure Beside (s s' : Session) : Prop where
  stream : s'.stream = s.stream
  current : s'.current = s.current
  journal : s'.journal = s.journal

/-- The file ends with the last of the tokens, and for ever behind it. -/
structure Ended (s : Session) : Prop where
  last : s.stream.last.kind = .endOfFile
  once : ∃ ts t, s.current :: s.stream.ahead.map (·.token) = ts ++ [t] ∧ t.kind = .endOfFile ∧
    ∀ t' ∈ ts, t'.kind ≠ .endOfFile

variable {s : Session}

theorem Ended.advance (h : s.Ended) : s.advance.Ended := by
  obtain ⟨⟨_ | ⟨t, ts⟩, last⟩, current, previous, journal, table, assembly, returnType⟩ := s
  · exact ⟨h.last, [], last, rfl, h.last, by simp⟩
  · obtain ⟨hlast, before, t', heq, ht', hbefore⟩ := h
    rcases before with _ | ⟨b, before⟩
    · simp at heq
    · exact ⟨hlast, before, t', (List.cons.inj heq).2, ht', fun t hmem =>
        hbefore t (List.mem_cons_of_mem _ hmem)⟩

/-- The end of the file is the last of the tokens. -/
theorem Ended.ahead_eq_nil_iff (h : s.Ended) :
    s.stream.ahead = [] ↔ s.current.kind = .endOfFile := by
  obtain ⟨-, before, t, heq, ht, hbefore⟩ := h
  rcases before with _ | ⟨b, before⟩
  · obtain ⟨rfl, hahead⟩ := List.cons.inj heq
    simp [ht, List.map_eq_nil_iff.1 hahead]
  · obtain ⟨rfl, hahead⟩ := List.cons.inj heq
    have hb : s.current.kind ≠ .endOfFile := hbefore _ (by simp)
    have hne : s.stream.ahead ≠ [] := fun h => by simp [h] at hahead
    simp [hb, hne]

/-- Behind the end of the file comes the end of the file. -/
theorem Ended.current_advance (h : s.Ended) (hk : s.current.kind = .endOfFile) :
    s.advance.current.kind = .endOfFile := by
  have hahead := h.ahead_eq_nil_iff.2 hk
  obtain ⟨⟨ts, last⟩, current, previous, journal, table, assembly, returnType⟩ := s
  subst hahead
  exact h.last

/-- The tokens of a text have one end. -/
theorem Ended.start (source : String) (options : Options) :
    (Session.start (Token.scan source) options).Ended := by
  obtain ⟨ts, p, unclosed?, heq, hts⟩ := Token.scan_eq source
  rw [heq]
  refine ⟨rfl, { kind := .unknown, position := .start } :: ts.map (·.token),
    (Token.Scanned.ofEnd p unclosed?).token, by simp [Session.start], rfl, fun t ht => ?_⟩
  rcases List.mem_cons.1 ht with rfl | ht
  · simp
  · obtain ⟨t', ht', rfl⟩ := List.mem_map.1 ht
    obtain ⟨q, ch, cs, rfl⟩ := hts t' ht'
    exact Token.Lexeme.kind_ne_endOfFile ch cs

/-- The tokens that were taken, in their order, and those that are ahead. -/
def scanned (s : Session) : List Token.Scanned :=
  (s.journal.events.filterMap Event.taken?).reverse ++ s.stream.ahead

theorem Ended.scanned_advance (h : s.Ended) :
    s.advance.scanned =
      s.scanned ++ if s.current.kind = .endOfFile then [⟨s.stream.last, []⟩] else [] := by
  simp only [← h.ahead_eq_nil_iff]
  obtain ⟨⟨_ | ⟨t, ts⟩, last⟩, current, previous, journal, table, assembly, returnType⟩ := s <;>
    simp [scanned, Session.advance, Token.Stream.next, Journal.took, Event.taken?]

theorem Beside.ended {s' : Session} (h : s.Beside s') (hs : s.Ended) : s'.Ended :=
  ⟨h.stream ▸ hs.last, h.stream ▸ h.current ▸ hs.once⟩

theorem last_advance : s.advance.stream.last = s.stream.last := by
  obtain ⟨⟨_ | ⟨t, ts⟩, last⟩, current, previous, journal, table, assembly, returnType⟩ := s <;> rfl

end Session

/-- What happens to the tokens and the journal from one session to another, and whether the end of
the file is taken as if it were a token. -/
inductive Course (c : Setting) : Session → Bool → Session → Prop where
  | refl {s : Session} : Course c s false s
  | beside {s s₁ s' : Session} {e : Bool} : Course c s e s₁ → s₁.Beside s' → Course c s e s'
  | advance {s s₁ : Session} {e : Bool} :
    Course c s e s₁ → s₁.current.kind ≠ .endOfFile → Course c s e s₁.advance
  | report {s s₁ : Session} {e : Bool} (p : Problem) (details : List String) :
    Course c s e s₁ → Course c s e (s₁.report c.options.reportDistance p details)
  /-- Where no statement comes, the next token is reported and taken, whatever it is. -/
  | skip {s s₁ : Session} (p : Problem) :
    Course c s false s₁ → Course c s (decide (s₁.current.kind = .endOfFile))
      (s₁.report c.options.reportDistance p []).advance
  /-- A place is found only behind a report. -/
  | resume {s s₁ : Session} {e : Bool} : Course c s e s₁ → 0 < s₁.mistakes → Course c s e s₁.resume

namespace Course

variable {c : Setting} {s s₁ s' : Session} {e : Bool}

theorem trans (h : Course c s e s₁) (h' : Course c s₁ false s') : Course c s e s' := by
  generalize hfalse : false = b at h'
  induction h' with
  | refl => exact h
  | beside _ hb ih => exact .beside (ih hfalse) hb
  | advance _ hk ih => exact .advance (ih hfalse) hk
  | report p details _ ih => exact .report p details (ih hfalse)
  | @skip s₂ p _ ih =>
    -- the end of the file was not taken, so another token was
    have hk : s₂.current.kind ≠ .endOfFile := of_decide_eq_false hfalse.symm
    exact .advance (.report p [] (ih rfl)) hk
  | resume _ hm ih => exact .resume (ih hfalse) hm

theorem before (h : Course c s false s₁) (h' : Course c s₁ e s') : Course c s e s' := by
  induction h' with
  | refl => exact h
  | beside _ hb ih => exact .beside ih hb
  | advance _ hk ih => exact .advance ih hk
  | report p details _ ih => exact .report p details ih
  | skip p _ ih => exact .skip p ih
  | resume _ hm ih => exact .resume ih hm

theorem ended (h : Course c s e s') (hs : s.Ended) : s'.Ended := by
  induction h with
  | refl => exact hs
  | beside _ hb ih => exact hb.ended ih
  | advance _ _ ih => exact ih.advance
  | report p details _ ih => exact ⟨ih.last, ih.once⟩
  | skip p _ ih => exact Session.Ended.advance ⟨ih.last, ih.once⟩
  | resume _ _ ih => exact ⟨ih.last, ih.once⟩

theorem mistakes (h : Course c s e s') : s.mistakes ≤ s'.mistakes := by
  induction h with
  | refl => exact Nat.le_refl _
  | beside _ hb ih =>
    rw [Session.mistakes, Session.mistakes, hb.journal]
    exact ih
  | advance _ _ ih => simpa using ih
  | report p details _ ih => exact Nat.le_trans ih (by simp)
  | skip p _ ih => exact Nat.le_trans ih (by simp)
  | resume _ _ ih => simpa using ih

/-- A course takes the tokens in their order, and at most one that is no token of the file. -/
theorem scanned (h : Course c s e s') (hs : s.Ended) :
    s'.scanned = s.scanned ++ (if e then [⟨s.stream.last, []⟩] else []) ∧
      s'.stream.last = s.stream.last := by
  induction h with
  | refl => simp
  | beside _ hb ih =>
    rw [Session.scanned, hb.journal, hb.stream]
    exact ih
  | @advance s₁ e h hk ih =>
    rw [(h.ended hs).scanned_advance, if_neg hk, List.append_nil, Session.last_advance]
    exact ih
  | report p details _ ih => exact ih
  | @skip s₁ p h ih =>
    have hs₁ := h.ended hs
    have hadvance := Session.Ended.scanned_advance
      (s := s₁.report c.options.reportDistance p []) ⟨hs₁.last, hs₁.once⟩
    refine ⟨hadvance.trans ?_, Session.last_advance.trans ih.2⟩
    rw [show (s₁.report c.options.reportDistance p []).scanned = s₁.scanned from rfl, ih.1]
    simp [Session.report, ih.2]
  | resume _ _ ih => exact ih

/-- Once the end of the file is the next token, it stays so. -/
theorem current (h : Course c s e s') (hs : s.Ended)
    (hk : e = true ∨ s.current.kind = .endOfFile) : s'.current.kind = .endOfFile := by
  induction h with
  | refl => simpa using hk
  | beside _ hb ih =>
    rw [hb.current]
    exact ih hk
  | advance _ hne ih => exact absurd (ih hk) hne
  | report p details _ ih => exact ih hk
  | @skip s₁ p h ih =>
    have hend : s₁.current.kind = .endOfFile := by
      rcases hk with hk | hk
      · exact of_decide_eq_true hk
      · exact ih (.inr hk)
    have hs₁ := h.ended hs
    exact Session.Ended.current_advance
      (s := s₁.report c.options.reportDistance p []) ⟨hs₁.last, hs₁.once⟩ hend
  | resume _ _ ih => exact ih hk

end Course

namespace Production

variable {α β : Type} {c : Setting} {p q : Token.Kind → Prop}

/-- From every session whose next token is of a kind that `p` allows, the production follows a course
on which the end of the file is not taken. -/
def Tracks (c : Setting) (p : Token.Kind → Prop) (m : Production α) : Prop :=
  ∀ ⦃s⦄, p s.current.kind → Course c s false (m.outcome c s).2

/-- The end of the file may be taken once. -/
def TracksEnd (c : Setting) (p : Token.Kind → Prop) (m : Production α) : Prop :=
  ∀ ⦃s⦄, s.Ended → p s.current.kind → ∃ e, Course c s e (m.outcome c s).2

/-- The production begins with `m₀`, and what follows is as `R` says. -/
def Begins (m₀ : Production β) (R : Production α → Prop) (m : Production α) : Prop :=
  ∃ f, m = m₀ >>= f ∧ ∀ b, R (f b)

/-- The production leaves the tokens and the journal alone. -/
def Aside (m : Production α) : Prop :=
  ∀ (c : Setting) (s : Session), s.Beside (m.outcome c s).2

/-! ### Steps that read nothing -/

namespace Aside

variable {m : Production α}

theorem pure (a : α) : Aside (pure a) := fun _ _ => ⟨rfl, rfl, rfl⟩

theorem throw (f : Fault) : Aside (throw f : Production α) := fun _ _ => ⟨rfl, rfl, rfl⟩

theorem bind {f : α → Production β} (hm : Aside m) (hf : ∀ a, Aside (f a)) :
    Aside (m >>= f) := by
  intro c s
  have h := hm c s
  rw [outcome_bind]
  rcases hr : outcome m c s with ⟨r | a, s₁⟩ <;> rw [hr] at h
  · exact h
  · have h' := hf a c s₁
    exact ⟨h'.stream.trans h.stream, h'.current.trans h.current, h'.journal.trans h.journal⟩

theorem ite {b : Prop} [Decidable b] {m' : Production α} (hm : b → Aside m)
    (hm' : ¬b → Aside m') : Aside (if b then m else m') := by
  split
  · next h => exact hm h
  · next h => exact hm' h

theorem get : Aside get := fun _ _ => ⟨rfl, rfl, rfl⟩

theorem table : Aside table := fun _ _ => ⟨rfl, rfl, rfl⟩

theorem updateTable {f : SymbolTable → SymbolTable} : Aside (updateTable f) :=
  fun _ _ => ⟨rfl, rfl, rfl⟩

theorem withTable {f : SymbolTable → α × SymbolTable} : Aside (modifyGet (·.withTable f)) :=
  fun _ _ => ⟨rfl, rfl, rfl⟩

theorem entry {id : EntryId} : Aside (entry id) := by
  refine bind table fun t => ?_
  split
  · exact pure _
  · exact throw _

theorem descriptor {t : TypeId} : Aside (descriptor t) := by
  refine bind table fun t => ?_
  split
  · exact pure _
  · exact throw _

theorem discard (hm : Aside m) : Aside (discard m) := by
  rw [show (Functor.discard m : Production Unit) = m >>= fun _ => Pure.pure () from rfl]
  exact bind hm fun _ => pure _

theorem map (hm : Aside m) (f : α → β) : Aside (f <$> m) := by
  rw [map_eq_pure_bind]
  exact bind hm fun _ => pure _

theorem write {e : Emission Fault α} : Aside (write e) := by
  refine bind (fun _ _ => ⟨rfl, rfl, rfl⟩ : Aside (modifyGet (·.withAssembly e.run.run))) fun r => ?_
  cases r
  · exact throw _
  · exact pure _

theorem emit {op : Opcode} {operands : List Int} : Aside (emit op operands) := write

theorem mapM {f : α → Production β} (hf : ∀ a, Aside (f a)) : ∀ as : List α, Aside (as.mapM f)
  | [] => pure _
  | a :: as => by
    rw [List.mapM_cons]
    exact bind (hf a) fun _ => bind (mapM hf as) fun _ => pure _

theorem fits {x : Operand} {t : TypeId} : Aside (fits x t) :=
  bind (discard descriptor) fun _ => bind (discard descriptor) fun _ => bind table fun _ => pure _

theorem comparable {t t' : TypeId} : Aside (comparable t t') :=
  bind (discard descriptor) fun _ => bind (discard descriptor) fun _ => bind table fun _ => pure _

end Aside

namespace Tracks

variable {m : Production α}

theorem pre (hm : Tracks c p m) (h : ∀ k, q k → p k) : Tracks c q m := fun _ hq => hm (h _ hq)

theorem aside (hm : Aside m) : Tracks c p m := fun s _ => .beside .refl (hm c s)

theorem pure (a : α) : Tracks c p (Pure.pure a) := aside (.pure a)

theorem bind {f : α → Production β} (hm : Tracks c p m)
    (hf : ∀ a, Tracks c (fun _ => True) (f a)) : Tracks c p (m >>= f) := by
  intro s hp
  have h := hm hp
  rw [outcome_bind]
  rcases hr : outcome m c s with ⟨r | a, s₁⟩ <;> rw [hr] at h
  · exact h
  · exact h.trans (hf a trivial)

/-- A step that reads nothing, in front of others. -/
theorem act {f : α → Production β} (hm : Aside m) (hf : ∀ a, Tracks c p (f a)) :
    Tracks c p (m >>= f) := by
  intro s hp
  have h := hm c s
  rw [outcome_bind]
  rcases hr : outcome m c s with ⟨r | a, s₁⟩ <;> rw [hr] at h
  · exact .beside .refl h
  · exact (Course.beside .refl h).trans (hf a (h.current ▸ hp))

theorem ite {b : Prop} [Decidable b] {m' : Production α} (hm : b → Tracks c p m)
    (hm' : ¬b → Tracks c p m') : Tracks c p (if b then m else m') := by
  split
  · next h => exact hm h
  · next h => exact hm' h

theorem read {f : Setting → Production α} (hf : Tracks c p (f c)) :
    Tracks c p (MonadReader.read >>= f) := by
  intro s hp
  rw [outcome_bind, outcome_read]
  exact hf hp

theorem discard (hm : Tracks c p m) : Tracks c p (discard m) := by
  rw [show (Functor.discard m : Production Unit) = m >>= fun _ => Pure.pure () from rfl]
  exact bind hm fun _ => pure _

theorem of_begins {m₀ : Production β} (h : Begins m₀ (Tracks c fun _ => True) m)
    (h₀ : Tracks c p m₀) : Tracks c p m := by
  obtain ⟨f, rfl, hf⟩ := h
  exact bind h₀ hf

/-! #### Tokens and reports -/

theorem peek {f : Token.Kind → Production α} (h : ∀ k, p k → Tracks c (· = k) (f k)) :
    Tracks c p (peek >>= f) := fun _ hp => h _ hp rfl

theorem check {k : Token.Kind} {f : Bool → Production α} (h : Tracks c (· = k) (f true))
    (h' : Tracks c (fun k' => p k' ∧ k' ≠ k) (f false)) : Tracks c p (check k >>= f) := by
  intro s hp
  rw [outcome_bind, show (Production.check k).outcome c s = (.ok (s.current.kind = k), s) from rfl]
  by_cases hk : s.current.kind = k
  · simpa only [decide_eq_true hk] using h hk
  · simpa only [decide_eq_false hk] using h' ⟨hp, hk⟩

theorem check_false {k : Token.Kind} {f : Bool → Production α} (hk : ¬p k)
    (h : Tracks c p (f false)) : Tracks c p (Production.check k >>= f) := by
  intro s hp
  have hne : s.current.kind ≠ k := fun h => hk (h ▸ hp)
  rw [outcome_bind, show (Production.check k).outcome c s = (.ok (s.current.kind = k), s) from rfl,
    decide_eq_false hne]
  exact h hp

theorem checkAny {ks : Token.KindSet} {f : Bool → Production α} (h : ∀ b, Tracks c p (f b)) :
    Tracks c p (checkAny ks >>= f) := fun _ hp => h _ hp

theorem advance (hp : ∀ k, p k → k ≠ .endOfFile) : Tracks c p advance :=
  fun _ hs => .advance .refl (hp _ hs)

theorem literal (hp : ∀ k, p k → k ≠ .endOfFile) : Tracks c p literal :=
  bind (advance hp) fun _ => aside (.bind .get fun _ => .pure _)

theorem report {pr : Problem} {details : List String} : Tracks c p (report pr details) :=
  fun _ _ => .report pr details .refl

theorem reportIf {mistake : Prop} [Decidable mistake] {pr : Problem} {details : List String} :
    Tracks c p (reportIf mistake pr details) :=
  ite (fun _ => report) fun _ => pure ()

/-- Behind a report, the next token is the same. -/
theorem reportIf_bind {mistake : Prop} [Decidable mistake] {pr : Problem} {details : List String}
    {f : Unit → Production α} (hf : Tracks c p (f ())) :
    Tracks c p (Production.reportIf mistake pr details >>= f) := by
  unfold Production.reportIf
  split
  · exact fun s hp => (Course.report pr details .refl).trans (hf hp)
  · exact fun s hp => hf hp

theorem expect {k : Token.Kind} (hk : k ≠ .endOfFile) : Tracks c p (expect k) :=
  check (advance fun _ h => h ▸ hk) report

theorem takeIf {k : Token.Kind} (hk : k ≠ .endOfFile) : Tracks c p (takeIf k) :=
  check (advance fun _ h => h ▸ hk) (pure ())

theorem identifier : Tracks c p identifier :=
  check (bind (advance fun _ h => h ▸ by decide) fun _ => aside (.bind .get fun _ => .pure _))
    (bind report fun _ => pure _)

/-! #### Loops -/

theorem iterate {body : α → Production (α ⊕ β)}
    (hbody : ∀ a, Tracks c (fun _ => True) (body a)) :
    ∀ n a, Tracks c (fun _ => True) (iterate body n a)
  | 0, _ => aside (.throw _)
  | n + 1, a => by
    refine bind (hbody a) fun r => ?_
    rcases r with a' | b
    · exact iterate hbody n a'
    · exact pure b

theorem loop {body : α → Production (α ⊕ β)} (hbody : ∀ a, Tracks c (fun _ => True) (body a))
    (a : α) : Tracks c p (loop body a) :=
  read ((iterate hbody _ a).pre fun _ _ => trivial)

theorem repeatWhile {body : Production Bool} (hbody : Tracks c (fun _ => True) body) :
    Tracks c p (repeatWhile body) :=
  loop (fun _ => bind hbody fun _ => pure _) ()

/-! #### Symbols and operands -/

theorem declare {category : Category} {name : String} {t : TypeId} :
    Tracks c p (declare category name t) := by
  refine ite (fun _ => pure _) fun _ => act .withTable fun r => ?_
  cases r
  · exact bind report fun _ => pure _
  · exact pure _

theorem find {name : String} : Tracks c p (find name) := by
  refine ite (fun _ => pure _) fun _ => act .table fun t => ?_
  split
  · exact pure _
  · exact bind report fun _ => pure _

theorem findField {name : String} {t : TypeId} : Tracks c p (findField name t) := by
  refine act .table fun t => ?_
  split
  · exact pure _
  · exact bind report fun _ => pure _

theorem attempt {e : Emission Problem Unit} : Tracks c p (attempt e) := by
  refine act (fun _ _ => ⟨rfl, rfl, rfl⟩ : Aside (modifyGet (·.withAssembly e.run.run))) fun r => ?_
  cases r
  · exact report
  · exact pure _

theorem load {x : Operand} : Tracks c p (load x) := attempt

theorem begins_namedType : Begins Production.identifier (Tracks c fun _ => True) namedType :=
  ⟨_, rfl, fun _ => bind find fun _ => act .entry fun _ => ite (fun _ => pure _) fun _ =>
    bind reportIf fun _ => pure _⟩

theorem namedType : Tracks c p namedType := of_begins begins_namedType identifier

theorem begins_type : Begins Production.namedType (Tracks c fun _ => True) type :=
  ⟨_, rfl, fun _ => check (bind (advance fun _ h => h ▸ by decide) fun _ =>
    bind (expect (by decide)) fun _ => aside .withTable) (pure _)⟩

theorem type : Tracks c p type := of_begins begins_type namedType

/-! #### Expressions -/

theorem begins_namedOperand : Begins Production.identifier (Tracks c fun _ => True) namedOperand := by
  refine ⟨_, rfl, fun _ => bind find fun _ => act .entry fun _ => ?_⟩
  split
  · exact pure _
  · exact bind report fun _ => pure _

theorem namedOperand : Tracks c p namedOperand := of_begins begins_namedOperand identifier

theorem fieldOf {x : Operand} : Tracks c p (fieldOf x) := by
  refine act .descriptor fun d => ite (fun _ => ?_) fun _ => ?_
  · refine bind load fun _ => bind identifier fun _ => bind findField fun _ => ?_
    exact ite (fun _ => pure _) fun _ => aside (.bind .entry fun _ => .pure _)
  · exact bind report fun _ => bind (discard identifier) fun _ => pure _

theorem checkArgument {x : Operand} : ∀ t : Option TypeId, Tracks c p (checkArgument x t)
  | some _ => act .fits fun _ => reportIf
  | none => pure ()

theorem afterMember {count : Nat} : Tracks c p (afterMember count) :=
  check (bind (advance fun _ h => h ▸ by decide) fun _ => pure _) (pure _)

theorem checkCount {wanted : Option Nat} {count : Nat} {tooFew tooMany : Problem} :
    Tracks c p (checkCount wanted count tooFew tooMany) := by
  cases wanted with
  | none => exact pure ()
  | some n => exact ite (fun _ => report) fun _ => ite (fun _ => report) fun _ => pure ()

theorem announcement : Tracks c p announcement :=
  check (bind (literal fun _ h => h ▸ by decide) fun _ => pure _)
    (bind (expect (by decide)) fun _ => pure _)

theorem members {member : Nat → Production (Nat ⊕ Nat)}
    (hm : ∀ n, Tracks c (fun _ => True) (member n)) : Tracks c p (members member) :=
  checkAny fun _ => ite (fun _ => loop hm 0) fun _ => pure 0

section Expressions

variable {E : Production Operand} (hE : Tracks c (fun _ => True) E)

include hE

theorem loadInteger {mistake : Problem} : Tracks c p (loadInteger E mistake) :=
  bind (hE.pre fun _ _ => trivial) fun _ => bind reportIf fun _ => load

theorem elementOf {x : Operand} : Tracks c p (elementOf E x) :=
  act .descriptor fun _ => bind (ite (fun _ => load) fun _ => report) fun _ =>
    bind (loadInteger hE) fun _ => bind (expect (by decide)) fun _ => pure _

theorem designatorStep {x : Operand} : Tracks c p (designatorStep E x) := by
  refine peek fun k _ => ?_
  split
  · exact bind (advance fun _ h => h ▸ by decide) fun _ => bind fieldOf fun _ => pure _
  · exact bind (advance fun _ h => h ▸ by decide) fun _ => bind (elementOf hE) fun _ => pure _
  · exact pure _

theorem begins_designator :
    Begins Production.namedOperand (Tracks c fun _ => True) (designator E) :=
  ⟨_, rfl, fun x => loop (fun _ => designatorStep hE) x⟩

theorem designator : Tracks c p (designator E) := of_begins (begins_designator hE) namedOperand

theorem argument {s : Signature} {count : Nat} : Tracks c p (argument E s count) :=
  bind (hE.pre fun _ _ => trivial) fun _ => bind (checkArgument _) fun _ => bind load fun _ =>
    afterMember

theorem packArgument {count : Nat} : ∀ t : Option TypeId, Tracks c p (packArgument E count t)
  | none => discard (hE.pre fun _ _ => trivial)
  | some _ => act .emit fun _ => act .write fun _ => bind (hE.pre fun _ _ => trivial) fun _ =>
    bind (checkArgument _) fun _ => bind load fun _ => aside .write

omit hE in
theorem newArrayOf {length : Int32} (t : Option TypeId) : Aside (newArrayOf length t) := by
  cases t
  · exact .pure ()
  · exact .write

theorem extraArguments {t : Option TypeId} : Tracks c (· = .hash) (extraArguments E t) :=
  bind (advance fun _ h => h ▸ by decide) fun _ => bind announcement fun _ =>
    act (newArrayOf t) fun _ => bind (members fun _ => bind (packArgument hE t) fun _ =>
      afterMember) fun _ => checkCount

theorem variablePart {isMethod : Bool} {t : Option TypeId} :
    Tracks c p (variablePart E isMethod t) :=
  check (reportIf_bind (extraArguments hE)) (aside (newArrayOf t))

omit hE in
theorem callee {x : Operand} : Aside (callee x) := by
  unfold Production.callee
  split
  · exact .bind .entry fun _ => .pure _
  · exact .pure _

omit hE in
theorem targetSignature : ∀ target : Option (EntryId × Method), Aside (targetSignature target)
  | none => .pure _
  | some (_, m) => by
    refine .bind (.mapM (fun _ => .bind .entry fun _ => .pure _) _) fun ts => .bind ?_ fun _ =>
      .pure _
    unfold extraType
    split
    · exact .map (.map .descriptor _) _
    · exact .pure _

omit hE in
theorem result {t : TypeId} : ∀ target : Option (EntryId × Method), Aside (result t target)
  | none => .pure _
  | some (id, m) => by
    refine .bind ?_ fun _ => .pure _
    unfold invoke
    split
    · exact .emit
    · exact .pure _
    · exact .pure _
    · exact .write

theorem call {x : Operand} : Tracks c p (call E x) :=
  act callee fun _ => bind reportIf fun _ => bind (expect (by decide)) fun _ =>
    act (targetSignature _) fun _ => bind (members fun _ => argument hE) fun _ =>
      bind checkCount fun _ => bind (variablePart hE) fun _ => bind (expect (by decide)) fun _ =>
        aside (result _)

theorem creation : Tracks c p (creation E) := by
  refine bind namedType fun t => check ?_ ?_
  · exact bind (advance fun _ h => h ▸ by decide) fun _ => bind (loadInteger hE) fun _ =>
      bind (expect (by decide)) fun _ => act .write fun _ => act .withTable fun _ => pure _
  · refine act .descriptor fun d => ?_
    exact ite (fun _ => act .write fun _ => pure _) fun _ => bind reportIf fun _ => pure _

theorem designatorFactor : Tracks c p (designatorFactor E) :=
  bind (designator hE) fun _ => check (bind reportIf fun _ => call hE) (pure _)

theorem factor : Tracks c p (factor E) := by
  refine peek fun k _ => ?_
  split
  · exact designatorFactor hE
  · exact bind (literal fun _ h => h ▸ by decide) fun _ => pure _
  · exact bind (literal fun _ h => h ▸ by decide) fun _ => pure _
  · exact bind (advance fun _ h => h ▸ by decide) fun _ => creation hE
  · exact bind (advance fun _ h => h ▸ by decide) fun _ => bind hE fun _ =>
      bind (expect (by decide)) fun _ => pure _
  · exact bind report fun _ => pure _

omit hE in
theorem operation {operator? : Token.Kind → Option Opcode} {operand : Production Operand}
    {x : Operand} (hop : operator? .endOfFile = none) (hy : Tracks c (fun _ => True) operand) :
    Tracks c p (operation operator? operand x) := by
  refine peek fun k _ => ?_
  split
  · exact pure _
  · next op hk =>
    refine bind (advance fun _ h => ?_) fun _ => bind load fun _ => bind hy fun _ =>
      bind load fun _ => bind reportIf fun _ => act .emit fun _ => pure _
    rintro rfl
    rw [← h, hop] at hk
    contradiction

theorem term : Tracks c p (term E) :=
  bind (factor hE) fun x => loop (fun _ => operation rfl (factor hE)) x

omit hE in
theorem negate {x : Operand} : Tracks c p (negate x) := by
  refine ite (fun _ => bind report fun _ => pure _) fun _ => ?_
  split
  · exact pure _
  · exact bind load fun _ => act .emit fun _ => pure _

theorem firstTerm : Tracks c p (firstTerm E) :=
  check (bind (advance fun _ h => h ▸ by decide) fun _ => bind (term hE) fun _ => negate) (term hE)

theorem sum : Tracks c p (sum E) :=
  bind (firstTerm hE) fun x => loop (fun _ => operation rfl (term hE)) x

end Expressions

theorem nestedExpression : ∀ depth, Tracks c (fun _ => True) (nestedExpression depth)
  | 0 => aside (.throw _)
  | depth + 1 => sum (nestedExpression depth)

theorem expression : Tracks c p expression :=
  read ((nestedExpression _).pre fun _ _ => trivial)

/-! #### Conditions -/

theorem comparison : Tracks c p comparison := by
  refine peek fun k _ => ?_
  split
  · next o ho =>
    refine bind (advance fun _ h => ?_) fun _ => pure _
    rintro rfl
    rw [← h] at ho
    contradiction
  · exact bind report fun _ => pure _

theorem test {l l' : Label} : Tracks c p (test l l') :=
  bind expression fun _ => bind load fun _ => bind comparison fun _ => bind expression fun _ =>
    bind load fun _ => bind (act .comparable fun _ => ite (fun _ => act .descriptor fun _ =>
      reportIf) fun _ => report) fun _ => pure _

theorem conjunctionStep {l l' : Label} {b : Branch} : Tracks c p (conjunctionStep l l' b) :=
  check (bind (advance fun _ h => h ▸ by decide) fun _ => act .write fun _ => bind test fun _ =>
    pure _) (pure _)

theorem conjunction {l : Label} : Tracks c p (conjunction l) :=
  act .write fun _ => bind test fun b => loop (fun _ => conjunctionStep) b

theorem conditionStep {l : Label} {b : Branch} : Tracks c p (conditionStep l b) :=
  check (bind (advance fun _ h => h ▸ by decide) fun _ => act .write fun _ => act .write fun _ =>
    bind conjunction fun _ => pure _) (pure _)

theorem condition : Tracks c p condition :=
  act .write fun _ => bind conjunction fun b => loop (fun _ => conditionStep) b

/-! #### Statements without statements in them -/

theorem assignment {x : Operand} {operator : Option Opcode} :
    Tracks c p (assignment x operator) := by
  refine bind ?_ fun _ => bind expression fun _ => bind reportIf fun _ =>
    act .fits fun _ => ite (fun _ => attempt) fun _ => report
  exact ite (fun _ => pure ()) fun _ => ite (fun _ => attempt) fun _ => report

theorem increment {x : Operand} {step : Int32} : Tracks c p (increment x step) := by
  refine ite (fun _ => report) fun _ => ?_
  split
  · exact aside .write
  · exact attempt

theorem callAlone {x : Operand} : Tracks c p (callAlone x) :=
  bind (call expression) fun _ => aside (.ite (fun _ => .emit) fun _ => .pure ())

theorem designatorAction {x : Operand} : Tracks c p (designatorAction x) := by
  refine peek fun k _ => ?_
  split
  · next operator hk =>
    refine bind (advance fun _ h => ?_) fun _ => assignment
    rintro rfl
    rw [← h] at hk
    contradiction
  · split
    · exact callAlone
    · exact bind (advance fun _ h => h ▸ by decide) fun _ => increment
    · exact bind (advance fun _ h => h ▸ by decide) fun _ => increment
    · exact report

theorem begins_designatorStatement : Begins (Production.designator Production.expression)
    (Tracks c fun _ => True) designatorStatement :=
  ⟨_, rfl, fun _ => bind designatorAction fun _ => expect (by decide)⟩

theorem guardCondition : Tracks c p guardCondition :=
  bind (expect (by decide)) fun _ => bind condition fun _ => bind (expect (by decide)) fun _ =>
    act .write fun _ => act .write fun _ => pure _

theorem begins_breakStatement {exit : Option Label} :
    Begins Production.advance (Tracks c fun _ => True) (breakStatement exit) := by
  refine ⟨_, rfl, fun _ => bind ?_ fun _ => expect (by decide)⟩
  cases exit
  · exact report
  · exact aside .write

theorem returnValue {t : TypeId} : Tracks c p (returnValue t) := by
  refine checkAny fun b => ite (fun _ => bind expression fun _ => ite (fun _ => report) fun _ => ?_)
    fun _ => reportIf
  exact act .fits fun _ => bind load fun _ => reportIf

theorem begins_returnStatement :
    Begins Production.advance (Tracks c fun _ => True) returnStatement :=
  ⟨_, rfl, fun _ => act .get fun _ => bind returnValue fun _ => act .emit fun _ =>
    act .emit fun _ => expect (by decide)⟩

theorem begins_readStatement :
    Begins Production.advance (Tracks c fun _ => True) readStatement := by
  refine ⟨_, rfl, fun _ => bind (expect (by decide)) fun _ => bind (designator expression) fun x =>
    bind ?_ fun _ => bind (expect (by decide)) fun _ => expect (by decide)⟩
  unfold readInto
  split
  · exact act .emit fun _ => attempt
  · exact report

theorem printWidth : Tracks c p printWidth :=
  read (check (bind (advance fun _ h => h ▸ by decide) fun _ =>
    check (literal fun _ h => h ▸ by decide) (bind (expect (by decide)) fun _ => pure _)) (pure _))

theorem begins_printStatement :
    Begins Production.advance (Tracks c fun _ => True) printStatement := by
  refine ⟨_, rfl, fun _ => bind (expect (by decide)) fun _ => bind expression fun x =>
    bind reportIf fun _ => bind load fun _ => bind printWidth fun _ => act .write fun _ =>
      act ?_ fun _ => bind (expect (by decide)) fun _ => expect (by decide)⟩
  unfold emitPrint
  split
  · exact .emit
  · exact .pure ()

end Tracks

/-! ### Finding the place again -/

section Recovery

variable {found : Production Bool} {s : Session}

/-- What the recoveries look for is found at the end of the file at the latest. -/
structure Finds (c : Setting) (found : Production Bool) : Prop where
  aside : Aside found
  atEnd : ∀ s : Session, s.current.kind = .endOfFile → (found.outcome c s).1 = .ok true

/-- One turn of skipping. -/
def skipTurn (found : Production Bool) (_ : Unit) : Production (Unit ⊕ Unit) := do
  return if ← (do advance; return !(← found)) then .inl () else .inr ()

/-- A turn takes the next token, and another one follows only where that was not the last. -/
theorem outcome_skipTurn (hf : Finds c found) (n : Nat) (s : Session) :
    ∃ s₁, s.advance.Beside s₁ ∧ (((iterate (skipTurn found) (n + 1) ()).outcome c s).2 = s₁ ∨
      s₁.current.kind ≠ .endOfFile ∧ ((iterate (skipTurn found) (n + 1) ()).outcome c s).2 =
        ((iterate (skipTurn found) n ()).outcome c s₁).2) := by
  have hb := hf.aside c s.advance
  have he := hf.atEnd s.advance
  refine ⟨(found.outcome c s.advance).2, hb, ?_⟩
  rw [iterate]
  simp only [skipTurn, outcome_bind, show outcome advance c s = (.ok (), s.advance) from rfl]
  rcases hr : outcome found c s.advance with ⟨r | b, s₁⟩
  · exact .inl rfl
  · rw [hr] at hb he
    rcases b with _ | _
    · -- nothing is found, so this is not the end of the file
      refine .inr ⟨fun hk => ?_, rfl⟩
      have hfound := he (hb.current ▸ hk)
      simp at hfound
    · exact .inl rfl

theorem tracks_skipTurns (hf : Finds c found) :
    ∀ n, Tracks c (· ≠ .endOfFile) (iterate (skipTurn found) n ())
  | 0, _, _ => .refl
  | n + 1, s, hs => by
    obtain ⟨s₁, hb, heq | ⟨hk, heq⟩⟩ := outcome_skipTurn hf n s <;> rw [heq]
    · exact .beside (.advance .refl hs) hb
    · exact (Course.beside (.advance .refl hs) hb).trans (tracks_skipTurns hf n hk)

/-- Behind a report, the next token is skipped, even if it is the end of the file. -/
theorem course_report_skip (hf : Finds c found) (p : Problem) (s s' : Session)
    (hs' : s' = ((skipUntil found).outcome c (s.report c.options.reportDistance p [])).2) :
    s.mistakes < s'.mistakes ∧
      ∃ e, (e = true → s.current.kind = .endOfFile) ∧ Course c s e s' := by
  change s' = ((iterate (skipTurn found) c.bound ()).outcome c _).2 at hs'
  generalize c.bound = n at hs'
  rcases n with _ | n
  · subst hs'
    exact ⟨by simp [iterate, outcome_throw], false, by simp, .report p [] .refl⟩
  · have hlt : s.mistakes < (s.report c.options.reportDistance p []).advance.mistakes := by simp
    have hskip := Course.skip (c := c) p (.refl (s := s))
    have hmistakes : ∀ {t t' : Session}, t.Beside t' → t.mistakes = t'.mistakes := fun h => by
      rw [Session.mistakes, Session.mistakes, h.journal]
    obtain ⟨s₁, hb, heq | ⟨hk, heq⟩⟩ :=
      outcome_skipTurn hf n (s.report c.options.reportDistance p []) <;> rw [heq] at hs' <;> subst hs'
    · exact ⟨hmistakes hb ▸ hlt, _, of_decide_eq_true, .beside hskip hb⟩
    · have hmore := tracks_skipTurns hf n hk
      exact ⟨Nat.lt_of_lt_of_le (hmistakes hb ▸ hlt) hmore.mistakes, _, of_decide_eq_true,
        (Course.beside hskip hb).trans hmore⟩

/-- A recovery reports, skips, and marks the place that it has found. -/
theorem course_recover (hf : Finds c found) (p : Problem) {rest : Production Unit}
    (hrest : Tracks c (fun _ => True) rest) (s : Session) :
    ∃ e, (e = true → s.current.kind = .endOfFile) ∧ Course c s e
      ((do report p; skipUntil found; rest; resume : Production Unit).outcome c s).2 := by
  simp only [outcome_bind,
    show outcome (report p) c s = (.ok (), s.report c.options.reportDistance p []) from rfl]
  obtain ⟨hlt, e, he, h⟩ := course_report_skip hf p s _ rfl
  refine ⟨e, he, ?_⟩
  rcases hr : (skipUntil found).outcome c (s.report c.options.reportDistance p []) with ⟨r | ⟨⟩, s₁⟩ <;>
    rw [hr] at h hlt
  · exact h
  · have hrest' := hrest (s := s₁) trivial
    simp only
    rcases hr' : outcome rest c s₁ with ⟨r | ⟨⟩, s₂⟩ <;> rw [hr'] at hrest'
    · exact h.trans hrest'
    · exact .resume (h.trans hrest') (Nat.lt_of_lt_of_le (Nat.zero_lt_of_lt hlt) hrest'.mistakes)

theorem finds_any {ks : Token.KindSet} (hks : ks.contains .endOfFile = true) :
    Finds c (checkAny ks) :=
  ⟨fun _ _ => ⟨rfl, rfl, rfl⟩, fun s hk => by
    rw [show (checkAny ks).outcome c s = (.ok (ks.contains s.current.kind), s) from rfl, hk, hks]⟩

theorem aside_atTypeName : Aside atTypeName := by
  refine .bind .get fun s => .ite (fun _ => .pure _) fun _ => .bind .table fun t => ?_
  split
  · exact .pure _
  · exact .bind .entry fun _ => .pure _

/-- What the recovery of a declaration looks for. -/
def atDeclaration : Production Bool := do
  if ← checkAny declarationStops then return true
  if (← get).previous.kind = .semicolon then return true
  atTypeName

theorem finds_atDeclaration : Finds c atDeclaration := by
  refine ⟨?_, fun s hk => ?_⟩
  · refine .bind (fun _ _ => ⟨rfl, rfl, rfl⟩) fun b => .ite (fun _ => .pure _) fun _ => ?_
    exact .bind .get fun _ => .ite (fun _ => .pure _) fun _ => aside_atTypeName
  · simp only [atDeclaration, outcome_bind,
      show (checkAny declarationStops).outcome c s =
        (.ok (declarationStops.contains s.current.kind), s) from rfl, hk]
    rfl

theorem tracks_recoverDeclaration : Tracks c (· ≠ .endOfFile) recoverDeclaration := by
  intro s hs
  obtain ⟨e, he, h⟩ := course_recover finds_atDeclaration .invalidDeclaration
    (Tracks.pure (c := c) ()) s
  rcases e with _ | _
  · exact h
  · exact absurd (he rfl) hs

theorem tracks_recoverMethod : Tracks c (· ≠ .endOfFile) recoverMethod := by
  intro s hs
  obtain ⟨e, he, h⟩ := course_recover (finds_any (by decide : methodStops.contains .endOfFile = true)) .invalidMethod
    (Tracks.pure (c := c) ()) s
  rcases e with _ | _
  · exact h
  · exact absurd (he rfl) hs

theorem tracksEnd_recoverStatement {p : Token.Kind → Prop} : TracksEnd c p recoverStatement := by
  intro s _ _
  obtain ⟨e, -, h⟩ := course_recover (finds_any (by decide : statementStops.contains .endOfFile = true))
    .invalidStatement (Tracks.takeIf (c := c) (k := .semicolon) (by decide)) s
  exact ⟨e, h⟩

end Recovery

/-! ### Statements -/

namespace TracksEnd

variable {m : Production α}

theorem of_tracks (hm : Tracks c p m) : TracksEnd c p m := fun _ _ hp => ⟨false, hm hp⟩

theorem read {f : Setting → Production α} (hf : TracksEnd c p (f c)) :
    TracksEnd c p (MonadReader.read >>= f) := by
  intro s hs hp
  rw [outcome_bind, outcome_read]
  exact hf hs hp

theorem bind {f : α → Production β} (hm : TracksEnd c p m)
    (hf : ∀ a, Tracks c (fun _ => True) (f a)) : TracksEnd c p (m >>= f) := by
  intro s hs hp
  obtain ⟨e, h⟩ := hm hs hp
  refine ⟨e, ?_⟩
  rw [outcome_bind]
  rcases hr : outcome m c s with ⟨r | a, s₁⟩ <;> rw [hr] at h
  · exact h
  · exact h.trans (hf a trivial)

theorem before {f : α → Production β} (hm : Tracks c p m)
    (hf : ∀ a, TracksEnd c (fun _ => True) (f a)) : TracksEnd c p (m >>= f) := by
  intro s hs hp
  have h := hm hp
  rw [outcome_bind]
  rcases hr : outcome m c s with ⟨r | a, s₁⟩ <;> rw [hr] at h
  · exact ⟨false, h⟩
  · obtain ⟨e, h'⟩ := hf a (h.ended hs) trivial
    exact ⟨e, h.before h'⟩

theorem of_begins {m₀ : Production β} (h : Begins m₀ (TracksEnd c fun _ => True) m)
    (h₀ : Tracks c p m₀) : TracksEnd c p m := by
  obtain ⟨f, rfl, hf⟩ := h
  exact before h₀ hf

/-- Behind the end of the file, it is not taken again. -/
theorem next {f : α → Production β} (hm : TracksEnd c p m)
    (hf : ∀ a, TracksEnd c (fun _ => True) (f a)) (hend : ∀ a, Tracks c (· = .endOfFile) (f a)) :
    TracksEnd c p (m >>= f) := by
  intro s hs hp
  obtain ⟨e, h⟩ := hm hs hp
  rw [outcome_bind]
  rcases hr : outcome m c s with ⟨r | a, s₁⟩ <;> rw [hr] at h
  · exact ⟨e, h⟩
  · rcases e with _ | _
    · obtain ⟨e, h'⟩ := hf a (h.ended hs) trivial
      exact ⟨e, h.before h'⟩
    · exact ⟨true, h.trans (hend a (h.current hs (.inl rfl)))⟩

theorem peek {f : Token.Kind → Production α} (h : ∀ k, p k → TracksEnd c (· = k) (f k)) :
    TracksEnd c p (peek >>= f) := fun _ hs hp => h _ hp hs rfl

theorem check {k : Token.Kind} {f : Bool → Production α} (h : TracksEnd c (· = k) (f true))
    (h' : TracksEnd c (fun k' => p k' ∧ k' ≠ k) (f false)) : TracksEnd c p (check k >>= f) := by
  intro s hs hp
  rw [outcome_bind, show (Production.check k).outcome c s = (.ok (s.current.kind = k), s) from rfl]
  by_cases hk : s.current.kind = k
  · simpa only [decide_eq_true hk] using h hs hk
  · simpa only [decide_eq_false hk] using h' hs ⟨hp, hk⟩

/-- At the end of the file, the loop ends. -/
theorem tracks_turns {turn : Unit → Production (Unit ⊕ Unit)}
    (hstop : ∀ s : Session, s.current.kind = .endOfFile → (turn ()).outcome c s = (.ok (.inr ()), s)) :
    ∀ n, Tracks c (· = .endOfFile) (iterate turn n ())
  | 0, _, _ => .refl
  | n + 1, s, hs => by
    rw [iterate, outcome_bind, hstop s hs]
    exact .refl

theorem turns {turn : Unit → Production (Unit ⊕ Unit)}
    (hturn : TracksEnd c (fun _ => True) (turn ()))
    (hstop : ∀ s : Session, s.current.kind = .endOfFile → (turn ()).outcome c s = (.ok (.inr ()), s)) :
    ∀ n, TracksEnd c (fun _ => True) (iterate turn n ())
  | 0 => of_tracks (.aside (.throw _))
  | n + 1 => by
    refine next hturn (fun r => ?_) fun r => ?_
    · rcases r with ⟨⟩ | b
      · exact turns hturn hstop n
      · exact of_tracks (.pure b)
    · rcases r with ⟨⟩ | b
      · exact tracks_turns hstop n
      · exact .pure b

/-- A loop that ends at the end of the file. -/
theorem repeatWhile {body : Production Bool} (hbody : TracksEnd c (fun _ => True) body)
    (hstop : ∀ s : Session, s.current.kind = .endOfFile → body.outcome c s = (.ok false, s)) :
    TracksEnd c p (repeatWhile body) := by
  refine fun s hs _ => turns (bind hbody fun _ => .pure _) (fun s hk => ?_) _ hs trivial
  rw [outcome_bind, hstop s hk]
  rfl

section Statements

variable {statement : Option Label → Production Unit}
  (hs : ∀ exit, TracksEnd c (fun _ => True) (statement exit))

include hs

theorem begins_ifStatement {exit : Option Label} :
    Begins advance (TracksEnd c fun _ => True) (ifStatement statement exit) := by
  refine ⟨_, rfl, fun _ => before .guardCondition fun b =>
    next (hs exit) (fun _ => check ?_ (of_tracks (.aside .write))) fun _ =>
      .check_false (by decide) (.aside .write)⟩
  exact before (.advance fun _ h => h ▸ by decide) fun _ => before (.aside .write) fun _ =>
    before (.aside .write) fun _ => before (.aside .write) fun _ => bind (hs exit) fun _ =>
      .aside .write

theorem begins_whileStatement :
    Begins advance (TracksEnd c fun _ => True) (whileStatement statement) :=
  ⟨_, rfl, fun _ => before (.aside .write) fun _ => before (.aside .write) fun _ =>
    before .guardCondition fun _ => before (.aside .write) fun exit => bind (hs (some exit)) fun _ =>
      .act .write fun _ => .act .write fun _ => .aside .write⟩

theorem begins_blockOf {exit : Option Label} :
    Begins (expect .leftBrace) (TracksEnd c fun _ => True) (blockOf statement exit) := by
  refine ⟨_, rfl, fun _ => bind (repeatWhile (peek fun k _ => ?_) fun s hk => ?_) fun _ =>
    .expect (by decide)⟩
  · split
    · exact of_tracks (.pure _)
    · exact of_tracks (.pure _)
    · exact bind (fun s hs' _ => hs exit hs' trivial) fun _ => .pure _
  · simp only [outcome_bind, show outcome Production.peek c s = (.ok s.current.kind, s) from rfl, hk]
    rfl

theorem statementOf {exit : Option Label} : TracksEnd c p (statementOf statement exit) := by
  refine peek fun k _ => ?_
  split
  · exact of_tracks (.of_begins Tracks.begins_designatorStatement (.designator .expression))
  · exact of_begins (begins_ifStatement hs) (.advance fun _ h => h ▸ by decide)
  · exact of_begins (begins_whileStatement hs) (.advance fun _ h => h ▸ by decide)
  · exact of_tracks (.of_begins Tracks.begins_breakStatement (.advance fun _ h => h ▸ by decide))
  · exact of_tracks (.of_begins Tracks.begins_returnStatement (.advance fun _ h => h ▸ by decide))
  · exact of_tracks (.of_begins Tracks.begins_readStatement (.advance fun _ h => h ▸ by decide))
  · exact of_tracks (.of_begins Tracks.begins_printStatement (.advance fun _ h => h ▸ by decide))
  · exact of_begins (begins_blockOf hs) (.expect (by decide))
  · exact of_tracks (.advance fun _ h => h ▸ by decide)
  · exact tracksEnd_recoverStatement

end Statements

theorem nestedStatement : ∀ depth exit, TracksEnd c (fun _ => True) (nestedStatement depth exit)
  | 0, _ => of_tracks (.aside (.throw _))
  | depth + 1, _ => statementOf fun exit => nestedStatement depth exit

theorem block : TracksEnd c p block := fun s hs hp => by
  rw [Production.block, outcome_bind, outcome_read]
  exact of_begins (begins_blockOf fun exit => nestedStatement _ exit) (.expect (by decide)) hs hp

end TracksEnd

/-! ### Declarations -/

namespace Tracks

theorem updateEntry {id : EntryId} {f : Entry → Entry} : Tracks c p (updateEntry id f) :=
  aside .updateTable

theorem begins_constantDeclaration :
    Begins Production.advance (Tracks c fun _ => True) constantDeclaration := by
  refine ⟨_, rfl, fun _ => bind type fun t => bind identifier fun _ => bind declare fun id =>
    bind (expect (by decide)) fun _ => bind (peek fun k _ => ?_) fun _ => expect (by decide)⟩
  split
  · next u hu =>
    refine reportIf_bind (bind (literal fun _ h => ?_) fun _ => updateEntry)
    rintro rfl
    rw [← h] at hu
    contradiction
  · exact report

theorem countGlobal {id : EntryId} : Tracks c p (countGlobal id) :=
  aside (.bind .table fun _ => .ite (fun _ => .write) fun _ => .pure ())

theorem variableName {t : TypeId} : Tracks c p (variableName t) :=
  bind identifier fun _ => bind declare fun _ => bind countGlobal fun _ =>
    check (bind (advance fun _ h => h ▸ by decide) fun _ => pure _) (pure _)

theorem begins_variableDeclaration :
    Begins Production.type (Tracks c fun _ => True) variableDeclaration :=
  ⟨_, rfl, fun _ => bind (repeatWhile variableName) fun _ => expect (by decide)⟩

theorem variableDeclaration : Tracks c p variableDeclaration :=
  of_begins begins_variableDeclaration type

theorem variableDeclarations : Tracks c p variableDeclarations :=
  repeatWhile (check (bind variableDeclaration fun _ => pure _) (pure _))

theorem begins_classDeclaration :
    Begins Production.advance (Tracks c fun _ => True) classDeclaration :=
  ⟨_, rfl, fun _ => bind identifier fun _ => act .withTable fun _ => bind (discard declare) fun _ =>
    bind (expect (by decide)) fun _ => act .updateTable fun _ => bind variableDeclarations fun _ =>
      read (act .table fun _ => bind reportIf fun _ => act .withTable fun _ =>
        act (.discard .descriptor) fun _ => act .updateTable fun _ => expect (by decide))⟩

theorem parameter {u : Unit} : Tracks c p (parameter u) :=
  bind type fun _ => bind identifier fun _ => bind declare fun _ =>
    check (bind (advance fun _ h => h ▸ by decide) fun _ => act .withTable fun _ =>
      bind updateEntry fun _ => pure _)
    (check (bind (advance fun _ h => h ▸ by decide) fun _ => pure _) (pure _))

theorem parameters : Tracks c p parameters := check (loop (fun _ => parameter) ()) (pure _)

theorem resultType : Tracks c p resultType :=
  check (bind (advance fun _ h => h ▸ by decide) fun _ => pure _) type

theorem header {id : EntryId} : Tracks c p (header id) :=
  bind (expect (by decide)) fun _ => bind parameters fun _ => bind (expect (by decide)) fun _ =>
    act .table fun _ => bind updateEntry fun _ => pure _

theorem beginning {id : EntryId} {isEntry : Bool} {parameters size : Nat} :
    Tracks c p (beginning id isEntry parameters size) :=
  act .write fun _ => bind updateEntry fun _ => act .write fun _ => aside .write

theorem ending {t : TypeId} : Tracks c p (ending t) :=
  aside (.ite (fun _ => .bind .emit fun _ => .emit) fun _ => .emit)

theorem declarations : Tracks c p declarations := by
  refine repeatWhile (peek fun k _ => ?_)
  split
  · exact bind (of_begins begins_constantDeclaration (advance fun _ h => h ▸ by decide)) fun _ => pure _
  · exact bind (of_begins begins_classDeclaration (advance fun _ h => h ▸ by decide)) fun _ => pure _
  · exact bind variableDeclaration fun _ => pure _
  · exact pure _
  · exact pure _
  · next hk => exact bind (tracks_recoverDeclaration.pre fun _ h => h ▸ hk) fun _ => pure _

end Tracks

/-! ### Methods and programs -/

namespace TracksEnd

theorem methodBody {id : EntryId} {isEntry : Bool} {t : TypeId} {parameters : Nat} :
    TracksEnd c p (methodBody id isEntry t parameters) :=
  before .variableDeclarations fun _ => before (.aside .table) fun _ => read <|
    before .reportIf fun _ => before .beginning fun _ => bind block fun _ => .ending

theorem begins_methodDeclaration :
    Begins resultType (TracksEnd c fun _ => True) methodDeclaration :=
  ⟨_, rfl, fun _ => before .identifier fun _ => before .declare fun _ =>
    before (.aside fun _ _ => ⟨rfl, rfl, rfl⟩) fun _ => before (.aside .updateTable) fun _ =>
      before .header fun _ => read <| before .reportIf fun _ => before .reportIf fun _ =>
        bind methodBody fun _ => .act .withTable fun _ => .bind .updateEntry fun _ =>
          .aside fun _ _ => ⟨rfl, rfl, rfl⟩⟩

theorem methodDeclaration : TracksEnd c p methodDeclaration :=
  of_begins begins_methodDeclaration .resultType

theorem methods : TracksEnd c p methods := by
  refine repeatWhile (peek fun k _ => ?_) fun s hk => ?_
  · split
    · exact bind methodDeclaration fun _ => .pure _
    · exact bind methodDeclaration fun _ => .pure _
    · exact of_tracks (.pure _)
    · exact of_tracks (.pure _)
    · next hk =>
      exact bind (of_tracks (tracks_recoverMethod.pre fun _ h => h ▸ hk)) fun _ => .pure _
  · simp only [outcome_bind, show outcome Production.peek c s = (.ok s.current.kind, s) from rfl, hk]
    rfl

/-- A program takes the end of the file at most once. -/
theorem program : TracksEnd c p program :=
  before (.expect (by decide)) fun _ => before .identifier fun _ => before .declare fun _ =>
    before (.aside .updateTable) fun _ => before .declarations fun _ => read <|
      before (.aside .table) fun _ => before .reportIf fun _ => before (.expect (by decide)) fun _ =>
        bind methods fun _ => .act .get fun _ => .read <| .bind .reportIf fun _ =>
          .bind (.expect (by decide)) fun _ => .act .withTable fun _ => .updateEntry

end TracksEnd

/-- A source text takes the first token, follows the course of a program, and takes the end of the
file, if it has come to it. -/
theorem course_sourceFile {s : Session} (hs : s.Ended) :
    ∃ e s₁, Course c s.advance e s₁ ∧ ((sourceFile.outcome c s).2 = s₁ ∨
      s₁.current.kind = .endOfFile ∧ (sourceFile.outcome c s).2 = s₁.advance) := by
  obtain ⟨e, h⟩ := TracksEnd.program (c := c) (p := fun _ => True) hs.advance trivial
  rw [sourceFile, outcome_bind, show outcome advance c s = (.ok (), s.advance) from rfl]
  simp only [outcome_bind]
  rcases hr : outcome program c s.advance with ⟨r | ⟨⟩, s₁⟩ <;> rw [hr] at h
  · exact ⟨e, s₁, h, .inl rfl⟩
  · by_cases hk : s₁.current.kind = .endOfFile
    · refine ⟨e, s₁, h, .inr ⟨hk, ?_⟩⟩
      have hrun : Runs c (expect .endOfFile) s₁ () s₁.advance := runs_expect.2 (.inl ⟨hk, rfl⟩)
      exact congrArg Prod.snd hrun
    · refine ⟨e, _, .report .tokenExpected [Token.Kind.endOfFile.label] h, .inl ?_⟩
      have hrun := runs_expect (c := c) (u := ()) |>.2 (.inr ⟨hk, rfl⟩)
      exact congrArg Prod.snd hrun

end Production

end MicroJava
