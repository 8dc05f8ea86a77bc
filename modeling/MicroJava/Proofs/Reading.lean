import Mathlib.Algebra.GroupWithZero.Nat
import MicroJava.Proofs.Grammar
import MicroJava.Proofs.Run

/-!
# Reading tokens

What a session has ahead are the terminals up to the end of the file (`Session.ahead`). A production
either acts, which leaves them where they are (`Acts`), or reads some of them (`Reads`). A syntactic
report is a slip; what is known of the terminals that a production reads is known unless it slips.

Along the way, the first mistake is logged (`Session.Watched`): as long as there is none, the distance
to the last report only grows, and the tokens ahead are too few to make it start again from zero.
-/

namespace MicroJava

/-- The problem is one of the grammar, whatever the names of the program stand for. -/
def Problem.isSyntactic : Problem → Bool
  | tokenExpected | literalExpected | designatorAlone | invalidDeclaration | invalidFactor
  | invalidMethod | comparisonExpected | invalidStatement => true
  | _ => false

/-- The event is the report of a syntactic problem. -/
def Event.isSlip : Event → Bool
  | reported d _ => d.problem.isSyntactic
  | _ => false

/-- Types may be added, and those that are there stay as they are. -/
def SymbolTable.Widens (t t' : SymbolTable) : Prop :=
  ∃ types, t' = { t with types } ∧
    ∀ id d, t.types.descriptor? id = some d → types.descriptor? id = some d

theorem SymbolTable.Widens.refl (t : SymbolTable) : t.Widens t := ⟨_, rfl, fun _ _ h => h⟩

theorem SymbolTable.Widens.trans {t t' t'' : SymbolTable} (h : t.Widens t') (h' : t'.Widens t'') :
    t.Widens t'' := by
  obtain ⟨types, rfl, hsub⟩ := h
  obtain ⟨types', rfl, hsub'⟩ := h'
  exact ⟨types', rfl, fun id d hd => hsub' id d (hsub id d hd)⟩

theorem SymbolTable.Widens.descriptor? {t t' : SymbolTable} (h : t.Widens t') {id : TypeId}
    {d : Descriptor} (hd : t.types.descriptor? id = some d) : t'.types.descriptor? id = some d := by
  obtain ⟨types, rfl, hsub⟩ := h
  exact hsub id d hd

theorem SymbolTable.Widens.arrayOf (t : SymbolTable) (element : TypeId) :
    t.Widens (t.arrayOf element).2 := by
  exact ⟨_, rfl, Types.descriptor?_push _⟩

namespace Session

variable (s : Session)

/-- How many syntactic problems were reported. -/
def slips : Nat := s.journal.events.countP Event.isSlip

/-- The terminals ahead, up to the end of the file. -/
def ahead : List Terminal :=
  ((s.current :: s.stream.ahead.map (·.token)).takeWhile (·.kind ≠ .endOfFile)).map Token.terminal

/-- A mistake is in the log. -/
def Logged : Prop := ∃ d, .reported d true ∈ s.journal.events

/-- The first mistake is in the log, or will be; where no distance is wanted, all are. -/
structure Watched (least : UInt32) : Prop where
  all : least = 0 → ∀ d kept, .reported d kept ∈ s.journal.events → kept = true
  first : s.Logged ∨ s.mistakes = 0 ∧ least ≤ s.journal.distance ∧
    (least = 0 ∨ s.journal.distance.toNat + s.ahead.length < 2 ^ 32)

/-- The tokens bring no diagnostics of their own. -/
structure Quiet : Prop where
  ahead : ∀ t ∈ s.stream.ahead, t.diagnostics = []
  taken : ∀ t, .took t ∈ s.journal.events → t.diagnostics = []

variable {s} {least : UInt32}

@[simp] theorem slips_advance : s.advance.slips = s.slips := by
  simp [slips, advance, Journal.took, Event.isSlip]

@[simp] theorem slips_report (p : Problem) (details : List String) :
    (s.report least p details).slips = s.slips + p.isSyntactic.toNat := by
  simp only [slips, report, Journal.report, List.countP_cons, Event.isSlip]
  by_cases hp : p.isSyntactic = true <;> simp [hp]

@[simp] theorem slips_resume : s.resume.slips = s.slips := by
  simp [slips, resume, Journal.resume, Event.isSlip]

theorem ahead_of_end (h : s.current.kind = .endOfFile) : s.ahead = [] := by
  simp [ahead, h]

theorem ahead_advance (h : s.Named) (hk : s.current.kind ≠ .endOfFile) :
    s.ahead = s.current.terminal :: s.advance.ahead := by
  obtain ⟨⟨ts, last⟩, current, previous, journal, table, assembly, returnType⟩ := s
  have hlast : last.kind = .endOfFile := h.last
  have hk : current.kind ≠ .endOfFile := hk
  rcases ts with _ | ⟨t, ts⟩
  · simp [ahead, advance, Token.Stream.next, hk, hlast]
  · simp [ahead, advance, Token.Stream.next, hk]

theorem current_of_ahead {t : Terminal} {ts : List Terminal} (h : s.ahead = t :: ts) :
    s.current.terminal = t ∧ s.current.kind = t.kind ∧ s.current.kind ≠ .endOfFile := by
  have hk : s.current.kind ≠ .endOfFile := by
    intro heq
    rw [ahead_of_end heq] at h
    contradiction
  have ht : s.current.terminal = t := by
    simp only [ahead, List.takeWhile_cons, hk, ne_eq, not_false_eq_true, decide_true,
      if_true, List.map_cons, List.cons.injEq] at h
    exact h.1
  exact ⟨ht, by rw [← ht, Token.kind_terminal], hk⟩

theorem current_of_nil (h : s.ahead = []) : s.current.kind = .endOfFile := by
  by_cases hk : s.current.kind = .endOfFile
  · exact hk
  · simp [ahead, hk] at h

theorem Quiet.advance (h : s.Quiet) : s.advance.Quiet := by
  obtain ⟨⟨ts, last⟩, current, previous, journal, table, assembly, returnType⟩ := s
  rcases ts with _ | ⟨t, ts⟩
  · refine ⟨h.ahead, fun t ht => ?_⟩
    rcases List.mem_cons.1 ht with heq | ht
    · rw [Event.took.inj heq]
    · exact h.taken t ht
  · refine ⟨fun t' ht' => h.ahead t' (List.mem_cons_of_mem _ ht'), fun t' ht' => ?_⟩
    rcases List.mem_cons.1 ht' with heq | ht'
    · rw [Event.took.inj heq]
      exact h.ahead t (by simp)
    · exact h.taken t' ht'

theorem Quiet.report (h : s.Quiet) (p : Problem) (details : List String) :
    (s.report least p details).Quiet := by
  refine ⟨h.ahead, fun t ht => ?_⟩
  rcases List.mem_cons.1 ht with heq | ht
  · contradiction
  · exact h.taken t ht

/-- Reporting a mistake that may be the first logs it. -/
theorem Watched.report (h : s.Watched least) (p : Problem) (details : List String) :
    (s.report least p details).Watched least ∧ (s.report least p details).Logged := by
  have hlogged : (s.report least p details).Logged := by
    rcases h.first with ⟨d, hd⟩ | ⟨-, hle, -⟩
    · exact ⟨d, List.mem_cons_of_mem _ hd⟩
    · refine ⟨⟨s.current.position, p, details⟩, ?_⟩
      simp [Session.report, Journal.report, hle]
  refine ⟨⟨fun hleast d kept hd => ?_, .inl hlogged⟩, hlogged⟩
  rcases List.mem_cons.1 hd with heq | hd
  · rw [(Event.reported.inj heq).2, hleast]
    simp
  · exact h.all hleast d kept hd

theorem Watched.advance (h : s.Watched least) (hn : s.Named)
    (hk : s.Logged ∨ s.current.kind ≠ .endOfFile) : s.advance.Watched least := by
  refine ⟨fun hleast d kept hd => ?_, ?_⟩
  · rcases List.mem_cons.1 hd with heq | hd
    · contradiction
    · exact h.all hleast d kept hd
  · have hlogged : s.Logged → s.advance.Logged := fun ⟨d, hd⟩ => ⟨d, List.mem_cons_of_mem _ hd⟩
    rcases h.first with hl | ⟨hclean, hle, hwrap⟩
    · exact .inl (hlogged hl)
    rcases hk with hl | hk
    · exact .inl (hlogged hl)
    refine .inr ⟨by simpa using hclean, ?_⟩
    rcases hwrap with hzero | hwrap
    · rw [hzero]
      exact ⟨UInt32.zero_le, .inl rfl⟩
    · -- the distance grows by one, and one token less is ahead
      rw [ahead_advance hn hk, List.length_cons] at hwrap
      have hdistance : (s.journal.distance + 1).toNat = s.journal.distance.toNat + 1 := by
        rw [UInt32.toNat_add]
        exact Nat.mod_eq_of_lt (by simp only [UInt32.toNat_one]; omega)
      have hle' : least ≤ s.journal.distance + 1 := by
        rw [UInt32.le_iff_toNat_le, hdistance]
        rw [UInt32.le_iff_toNat_le] at hle
        omega
      refine ⟨hle', .inr ?_⟩
      show (s.journal.distance + 1).toNat + s.advance.ahead.length < 2 ^ 32
      omega

end Session

/-! ### Productions that read nothing -/

/-- No token lies between two sessions, and no syntactic report. -/
structure Still (c : Setting) (s s' : Session) : Prop where
  stream : s'.stream = s.stream
  current : s'.current = s.current
  slips : s'.slips = s.slips
  mistakes : s.mistakes ≤ s'.mistakes
  quiet : s.Quiet → s'.Quiet
  watched : s.Watched c.options.reportDistance → s'.Watched c.options.reportDistance

namespace Still

variable {c : Setting} {s s₁ s' : Session}

theorem refl (s : Session) : Still c s s := ⟨rfl, rfl, rfl, Nat.le_refl _, id, id⟩

theorem trans (h : Still c s s₁) (h' : Still c s₁ s') : Still c s s' where
  stream := h'.stream.trans h.stream
  current := h'.current.trans h.current
  slips := h'.slips.trans h.slips
  mistakes := Nat.le_trans h.mistakes h'.mistakes
  quiet := h'.quiet ∘ h.quiet
  watched := h'.watched ∘ h.watched

instance : Std.Refl (Still c) := ⟨refl⟩

instance : Trans (Still c) (Still c) (Still c) := ⟨trans⟩

theorem ahead (h : Still c s s') : s'.ahead = s.ahead := by
  rw [Session.ahead, h.stream, h.current, Session.ahead]

theorem named (h : Still c s s') (hn : s.Named) : s'.Named := by
  refine ⟨?_, ?_, ?_⟩
  · rw [h.current]
    exact hn.current
  · rw [h.stream]
    exact hn.ahead
  · rw [h.stream]
    exact hn.last

theorem report {p : Problem} (hp : p.isSyntactic = false) (details : List String) :
    Still c s (s.report c.options.reportDistance p details) where
  stream := rfl
  current := rfl
  slips := by simp [hp]
  mistakes := by simp
  quiet := fun h => h.report p details
  watched := fun h => (h.report p details).1

/-- The tokens and the journal may stay the same while everything else changes. -/
theorem of_eq (hstream : s'.stream = s.stream) (hcurrent : s'.current = s.current)
    (hjournal : s'.journal = s.journal) : Still c s s' := by
  have hahead : s'.ahead = s.ahead := by
    rw [Session.ahead, hstream, hcurrent, Session.ahead]
  have hmistakes : s'.mistakes = s.mistakes := by
    rw [Session.mistakes, hjournal, Session.mistakes]
  refine ⟨hstream, hcurrent, by rw [Session.slips, hjournal, Session.slips],
    Nat.le_of_eq hmistakes.symm, fun h => ?_, fun h => ?_⟩
  · refine ⟨?_, ?_⟩
    · rw [hstream]
      exact h.ahead
    · rw [hjournal]
      exact h.taken
  · refine ⟨?_, ?_⟩
    · rw [hjournal]
      exact h.all
    · rw [Session.Logged, hjournal, hmistakes, hahead]
      exact h.first

end Still

/-- Besides, nothing is declared. -/
structure Acts (c : Setting) (s s' : Session) : Prop where
  still : Still c s s'
  table : s.table.Widens s'.table
  returnType : s'.returnType = s.returnType

namespace Acts

variable {c : Setting} {s s₁ s' : Session}

theorem refl (s : Session) : Acts c s s := ⟨.refl s, .refl _, rfl⟩

theorem trans (h : Acts c s s₁) (h' : Acts c s₁ s') : Acts c s s' :=
  ⟨h.still.trans h'.still, h.table.trans h'.table, h'.returnType.trans h.returnType⟩

instance : Std.Refl (Acts c) := ⟨refl⟩

instance : Trans (Acts c) (Acts c) (Acts c) := ⟨trans⟩

theorem report {p : Problem} (hp : p.isSyntactic = false) (details : List String) :
    Acts c s (s.report c.options.reportDistance p details) :=
  ⟨.report hp details, .refl _, rfl⟩

theorem withAssembly (assembly : Assembly) : Acts c s { s with assembly } :=
  ⟨.of_eq rfl rfl rfl, .refl _, rfl⟩

theorem arrayOf (t : TypeId) : Acts c s { s with table := (s.table.arrayOf t).2 } :=
  ⟨.of_eq rfl rfl rfl, .arrayOf _ t, rfl⟩

end Acts

namespace Production

variable {c : Setting} {s s' : Session}

theorem acts_report {p : Problem} {details : List String} (hp : p.isSyntactic = false) :
    Keeps c (Acts c) (report p details) := by
  intro s u s' h
  rw [runs_report.1 h]
  exact .report hp details

theorem acts_reportIf {mistake : Prop} [Decidable mistake] {p : Problem} {details : List String}
    (hp : p.isSyntactic = false) : Keeps c (Acts c) (reportIf mistake p details) :=
  .ite (fun _ => acts_report hp) fun _ => .pure ()

theorem acts_write {α : Type} {e : Emission Fault α} : Keeps c (Acts c) (write e) := by
  intro s a s' h
  obtain ⟨assembly, -, rfl⟩ := runs_write.1 h
  exact .withAssembly assembly

theorem acts_emit {op : Opcode} {operands : List Int} : Keeps c (Acts c) (emit op operands) :=
  acts_write

theorem acts_table : Keeps c (Acts c) table := .look fun _ _ _ h => (runs_table.1 h).2

theorem acts_entry {id : EntryId} : Keeps c (Acts c) (entry id) :=
  .look fun _ _ _ h => (runs_entry.1 h).2

theorem acts_descriptor {t : TypeId} : Keeps c (Acts c) (descriptor t) :=
  .look fun _ _ _ h => (runs_descriptor.1 h).2

theorem acts_find {name : String} : Keeps c (Acts c) (find name) := by
  intro s id s' h
  rcases runs_find.1 h with ⟨-, -, rfl⟩ | ⟨-, -, -, rfl⟩ | ⟨-, -, rfl⟩
  · exact .refl _
  · exact .report rfl _
  · exact .refl _

theorem acts_findField {name : String} {t : TypeId} : Keeps c (Acts c) (findField name t) := by
  refine .bind acts_table fun table => ?_
  split
  · exact .pure _
  · next p h =>
    have hp : p = .notAField := by
      unfold SymbolTable.findField at h
      split at h
      · contradiction
      · exact (Except.error.inj h).symm
    subst hp
    exact .bind (acts_report rfl) fun _ => .pure _

theorem acts_arrayOf {t : TypeId} : Keeps c (Acts c) (arrayOf t) := by
  intro s t' s' h
  rw [(runs_arrayOf.1 h).2]
  exact .arrayOf t

theorem acts_fits {x : Operand} {t : TypeId} : Keeps c (Acts c) (fits x t) :=
  .bind (.discard acts_descriptor) fun _ => .bind (.discard acts_descriptor) fun _ =>
    .bind acts_table fun _ => .pure _

theorem acts_comparable {t t' : TypeId} : Keeps c (Acts c) (comparable t t') :=
  .bind (.discard acts_descriptor) fun _ => .bind (.discard acts_descriptor) fun _ =>
    .bind acts_table fun _ => .pure _

end Production

/-! ### Productions that read -/

/-- What lies between two sessions: the terminals ahead of both are related, unless there was a slip
between them. -/
structure Reads (c : Setting) (R : List Terminal → List Terminal → Prop) (s s' : Session) :
    Prop where
  named : s.Named → s'.Named
  quiet : s.Quiet → s'.Quiet
  watched : s.Named → s.Watched c.options.reportDistance → s'.Watched c.options.reportDistance
  slips : s.slips ≤ s'.slips
  reads : s.Named → s'.slips = s.slips → R s.ahead s'.ahead

namespace Reads

variable {c : Setting} {R S : List Terminal → List Terminal → Prop} {s s₁ s' : Session}

theorem mono (h : Reads c R s s') (hRS : ∀ x y, R x y → S x y) : Reads c S s s' :=
  ⟨h.named, h.quiet, h.watched, h.slips, fun hn hs => hRS _ _ (h.reads hn hs)⟩

theorem trans (h : Reads c R s s₁) (h' : Reads c S s₁ s') :
    Reads c (fun x y => ∃ m, R x m ∧ S m y) s s' where
  named := h'.named ∘ h.named
  quiet := h'.quiet ∘ h.quiet
  watched := fun hn hw => h'.watched (h.named hn) (h.watched hn hw)
  slips := Nat.le_trans h.slips h'.slips
  reads := fun hn hs => by
    have hle := h.slips
    have hle' := h'.slips
    exact ⟨_, h.reads hn (by omega), h'.reads (h.named hn) (by omega)⟩

theorem of_still (h : Still c s s') : Reads c Eq s s' where
  named := h.named
  quiet := h.quiet
  watched := fun _ => h.watched
  slips := Nat.le_of_eq h.slips.symm
  reads := fun _ _ => h.ahead.symm

theorem advance (hk : s.current.kind ≠ .endOfFile) :
    Reads c (fun x y => x = s.current.terminal :: y) s s.advance where
  named := fun hn => hn.advance
  quiet := fun h => h.advance
  watched := fun hn hw => hw.advance hn (.inr hk)
  slips := by simp
  reads := fun hn _ => Session.ahead_advance hn hk

/-- After a slip, nothing is known of what was read. -/
theorem slip {p : Problem} (hp : p.isSyntactic) (details : List String) :
    Reads c R s (s.report c.options.reportDistance p details) where
  named := fun hn => ⟨hn.1, hn.2, hn.3⟩
  quiet := fun h => h.report p details
  watched := fun _ hw => (hw.report p details).1
  slips := by simp
  reads := fun _ hs => by simp [hp] at hs

end Reads

/-- Every run of the production that starts at a token of a kind that `p` allows reads what `R` says
of its result. -/
def Reading (c : Setting) {α : Type} (p : Token.Kind → Prop) (m : Production α)
    (R : α → List Terminal → List Terminal → Prop) : Prop :=
  ∀ ⦃s a s'⦄, p s.current.kind → Production.Runs c m s a s' → Reads c (R a) s s'

/-- Some tree that `yield` spells stands in front of the rest. -/
def Spells {α : Type} (yield : α → List Terminal) (x y : List Terminal) : Prop :=
  ∃ a, x = yield a ++ y

/-- What one turn of a loop reads, where the rest of the loop reads what `L` says: a turn that is not
the last one extends that in front. -/
def Turn {α β : Type} (L : List Terminal → List Terminal → Prop) :
    α ⊕ β → List Terminal → List Terminal → Prop
  | .inl _, x, y => ∀ z, L y z → L x z
  | .inr _, x, y => L x y

/-- There is only one terminal of this kind. -/
def Token.Kind.IsWord (k : Token.Kind) : Prop :=
  k ≠ .identifier ∧ k ≠ .number ∧ k ≠ .character ∧ k ≠ .endOfFile

instance (k : Token.Kind) : Decidable k.IsWord := by
  unfold Token.Kind.IsWord
  infer_instance

theorem Token.terminal_of_isWord {t : Token} (h : t.kind.IsWord) : t.terminal = .word t.kind := by
  obtain ⟨h₁, h₂, h₃, -⟩ := h
  unfold Token.terminal
  split
  · exact absurd ‹_› h₁
  · exact absurd ‹_› h₂
  · exact absurd ‹_› h₃
  · rfl

namespace Reading

open Production

variable {c : Setting} {α β : Type} {p q : Token.Kind → Prop} {m : Production α}
  {R R' : α → List Terminal → List Terminal → Prop} {k : Token.Kind}

theorem post (h : Reading c p m R) (hR : ∀ a x y, R a x y → R' a x y) : Reading c p m R' :=
  fun _ _ _ hp hrun => (h hp hrun).mono (hR _)

theorem pure {a : α} (h : ∀ x, R a x x) : Reading c p (pure a) R := by
  intro s b s' _ hrun
  obtain ⟨rfl, rfl⟩ := runs_pure.1 hrun
  exact (Reads.of_still (.refl _)).mono fun x y hxy => hxy ▸ h x

theorem returns {a : α} : Reading c p (Pure.pure a) fun b x y => b = a ∧ x = y :=
  pure fun _ => ⟨rfl, rfl⟩

theorem discard (h : Reading c p m R) :
    Reading c p (discard m) fun _ x y => ∃ a, R a x y := by
  intro s u s' hp hrun
  obtain ⟨a, hrun⟩ := runs_discard.1 hrun
  exact (h hp hrun).mono fun x y hxy => ⟨a, hxy⟩

theorem bind {f : α → Production β} {S : α → β → List Terminal → List Terminal → Prop}
    (hm : Reading c p m R) (hf : ∀ a, Reading c (fun _ => True) (f a) (S a)) :
    Reading c p (m >>= f) fun b x y => ∃ a z, R a x z ∧ S a b z y := by
  intro s b s' hp hrun
  obtain ⟨a, s₁, h₁, h₂⟩ := runs_bind.1 hrun
  exact ((hm hp h₁).trans (hf a trivial h₂)).mono fun x y ⟨z, hz⟩ => ⟨a, z, hz⟩

/-- What is done in front of reading. -/
theorem still_bind {f : α → Production β} {S : β → List Terminal → List Terminal → Prop}
    (hm : Keeps c (Still c) m) (hf : ∀ a, Reading c p (f a) S) : Reading c p (m >>= f) S := by
  intro s b s' hp hrun
  obtain ⟨a, s₁, h₁, h₂⟩ := runs_bind.1 hrun
  have hstill := hm h₁
  refine ((Reads.of_still hstill).trans (hf a (hstill.current ▸ hp) h₂)).mono ?_
  rintro x y ⟨z, rfl, hz⟩
  exact hz

/-- What is done behind reading. -/
theorem bind_still {f : α → Production β} (hm : Reading c p m R)
    (hf : ∀ a, Keeps c (Still c) (f a)) :
    Reading c p (m >>= f) fun _ x y => ∃ a, R a x y := by
  intro s b s' hp hrun
  obtain ⟨a, s₁, h₁, h₂⟩ := runs_bind.1 hrun
  refine ((hm hp h₁).trans (Reads.of_still (hf a h₂))).mono ?_
  rintro x y ⟨z, hz, rfl⟩
  exact ⟨a, hz⟩

theorem of_still (hm : Keeps c (Still c) m) : Reading c p m fun _ => Eq :=
  fun _ _ _ _ hrun => .of_still (hm hrun)

theorem act {f : α → Production β} {S : β → List Terminal → List Terminal → Prop}
    (hm : Keeps c (Acts c) m) (hf : ∀ a, Reading c p (f a) S) : Reading c p (m >>= f) S :=
  still_bind (fun _ _ _ hrun => (hm hrun).still) hf

theorem acts {f : α → Production β} (hm : Reading c p m R)
    (hf : ∀ a, Keeps c (Acts c) (f a)) :
    Reading c p (m >>= f) fun _ x y => ∃ a, R a x y :=
  bind_still hm fun a _ _ _ hrun => (hf a hrun).still

theorem of_acts (hm : Keeps c (Acts c) m) : Reading c p m fun _ => Eq :=
  of_still fun _ _ _ hrun => (hm hrun).still

theorem throw {f : Fault} : Reading c p (throw f : Production α) R :=
  fun _ _ _ _ hrun => absurd hrun runs_throw

/-- The kind of the first terminal is known. -/
theorem kind (h : Reading c p m R) :
    Reading c p m fun a x y => R a x y ∧ ∀ t ∈ x.head?, p t.kind := by
  intro s a s' hp hrun
  have hreads := h hp hrun
  refine ⟨hreads.named, hreads.quiet, hreads.watched, hreads.slips, fun hn hs =>
    ⟨hreads.reads hn hs, fun t ht => ?_⟩⟩
  obtain ⟨ts, hts⟩ := List.head?_eq_some_iff.1 ht
  rw [← (Session.current_of_ahead hts).2.1]
  exact hp

theorem ite {b : Prop} [Decidable b] {m' : Production α} (hm : b → Reading c p m R)
    (hm' : ¬b → Reading c p m' R) : Reading c p (if b then m else m') R := by
  split
  · next h => exact hm h
  · next h => exact hm' h

theorem slip {pr : Problem} (hp : pr.isSyntactic) (details : List String)
    {S : Unit → List Terminal → List Terminal → Prop} : Reading c p (report pr details) S := by
  intro s u s' _ hrun
  rw [runs_report.1 hrun]
  exact .slip hp details

theorem peek {f : Token.Kind → Production α} (h : ∀ k, p k → Reading c (· = k) (f k) R) :
    Reading c p (peek >>= f) R := by
  intro s a s' hp hrun
  simp only [runs_bind, runs_peek] at hrun
  obtain ⟨_, s, ⟨rfl, rfl⟩, hrun⟩ := hrun
  exact h _ hp rfl hrun

theorem check {f : Bool → Production α} (h : Reading c (· = k) (f true) R)
    (h' : Reading c (fun k' => p k' ∧ k' ≠ k) (f false) R) : Reading c p (check k >>= f) R := by
  intro s a s' hp hrun
  simp only [runs_bind, runs_check] at hrun
  obtain ⟨_, s, ⟨rfl, rfl⟩, hrun⟩ := hrun
  by_cases hk : s.current.kind = k
  · rw [decide_eq_true hk] at hrun
    exact h hk hrun
  · rw [decide_eq_false hk] at hrun
    exact h' ⟨hp, hk⟩ hrun

theorem checkAny {ks : Token.KindSet} {f : Bool → Production α}
    (h : Reading c (fun k => p k ∧ ks.contains k) (f true) R)
    (h' : Reading c (fun k => p k ∧ ks.contains k = false) (f false) R) :
    Reading c p (checkAny ks >>= f) R := by
  intro s a s' hp hrun
  simp only [runs_bind, runs_checkAny] at hrun
  obtain ⟨_, s, ⟨rfl, rfl⟩, hrun⟩ := hrun
  rcases hk : ks.contains s.current.kind with _ | _
  · rw [hk] at hrun
    exact h' ⟨hp, hk⟩ hrun
  · rw [hk] at hrun
    exact h ⟨hp, hk⟩ hrun

theorem advance (hk : k.IsWord) :
    Reading c (· = k) advance fun _ x y => x = .word k :: y := by
  rintro s u s' rfl hrun
  rw [runs_advance.1 hrun, ← Token.terminal_of_isWord hk]
  exact .advance hk.2.2.2

theorem expect (hk : k.IsWord) : Reading c p (expect k) fun _ x y => x = .word k :: y := by
  intro s u s' _ hrun
  rcases runs_expect.1 hrun with ⟨rfl, rfl⟩ | ⟨-, rfl⟩
  · rw [← Token.terminal_of_isWord hk]
    exact .advance hk.2.2.2
  · exact .slip rfl _

theorem expect_of_ne (hpk : ∀ k', p k' → k' ≠ k)
    {S : Unit → List Terminal → List Terminal → Prop} : Reading c p (Production.expect k) S := by
  intro s u s' hp hrun
  rcases runs_expect.1 hrun with ⟨hk, -⟩ | ⟨-, rfl⟩
  · exact absurd hk (hpk _ hp)
  · exact .slip rfl _

theorem identifier : Reading c p identifier fun name x y => x = .name name :: y := by
  intro s name s' _ hrun
  rcases runs_identifier.1 hrun with ⟨hk, rfl, rfl⟩ | ⟨-, -, rfl⟩
  · have ht : s.current.terminal = .name s.current.name := by simp [Token.terminal, hk]
    have hadvance := Reads.advance (c := c) (s := s) (by simp [hk])
    rwa [ht] at hadvance
  · exact .slip rfl _

theorem number : Reading c (· = .number) literal fun v x y => x = .number v :: y := by
  intro s v s' hk hrun
  obtain ⟨rfl, rfl⟩ := runs_literal.1 hrun
  have ht : s.current.terminal = .number s.current.literal := by simp [Token.terminal, hk]
  have hadvance := Reads.advance (c := c) (s := s) (by simp [hk])
  rwa [ht] at hadvance

theorem character : Reading c (· = .character) literal fun v x y => x = .character v :: y := by
  intro s v s' hk hrun
  obtain ⟨rfl, rfl⟩ := runs_literal.1 hrun
  have ht : s.current.terminal = .character s.current.literal := by simp [Token.terminal, hk]
  have hadvance := Reads.advance (c := c) (s := s) (by simp [hk])
  rwa [ht] at hadvance

/-- A loop reads what is closed under one more turn in front. -/
theorem loop {body : α → Production (α ⊕ β)} {L : List Terminal → List Terminal → Prop}
    (hbody : ∀ a, Reading c (fun _ => True) (body a) (Turn L)) (a : α) :
    Reading c p (loop body a) fun _ => L := by
  intro s b s' hp hrun
  clear hp
  replace hrun := turns_of_runs_loop hrun
  induction hrun with
  | last h => exact hbody _ trivial h
  | next h _ ih => exact ((hbody _ trivial h).trans ih).mono fun x y ⟨z, hstep, hz⟩ => hstep y hz

theorem repeatWhile {body : Production Bool} {L : List Terminal → List Terminal → Prop}
    (hbody : Reading c (fun _ => True) body fun b x y =>
      if b then ∀ z, L y z → L x z else L x y) :
    Reading c p (repeatWhile body) fun _ => L := by
  intro s u s' hp hrun
  clear hp
  replace hrun := repeats_of_runs hrun
  induction hrun with
  | last h => exact hbody trivial h
  | next h _ ih =>
    exact ((hbody trivial h).trans ih).mono fun x y ⟨z, hstep, hz⟩ => hstep y hz

end Reading

end MicroJava
