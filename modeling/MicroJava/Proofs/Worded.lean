import MicroJava.Proofs.Composing
import MicroJava.Proofs.SourceFile

/-!
# The details of diagnostics

Every diagnostic of a compilation has as many details as its wording has places for, whether it stems from
a lexeme, from a production or from an emission that fails (`Session.Worded`). So its message is the
wording with the detail in its place as it is (`compile_worded`), also where the detail has braces itself.
-/

namespace MicroJava

/-- The details of the diagnostic are as many as its wording has places for. -/
def Diagnostic.Worded (d : Diagnostic) : Prop := d.problem.Takes d.details

/-- The message of such a diagnostic is the wording, with the detail in its place if it has one. -/
theorem Diagnostic.Worded.message {d : Diagnostic} (h : d.Worded) :
    d.details.length = d.problem.holes ∧ d.problem.holes ≤ 1 ∧
      (d.problem.holes = 0 → d.message = d.problem.template) ∧
      ∀ detail ∈ d.details, ∃ before after : String,
        d.problem.template = before ++ "\x7b0\x7d" ++ after ∧ d.message = before ++ detail ++ after := by
  rw [Diagnostic.message, Problem.holes_eq]
  rcases Problem.Takes.cases h with ⟨hp, hdetails⟩ | ⟨hp, detail, hdetails⟩
  · rw [hp, hdetails]
    exact ⟨rfl, Nat.zero_le 1, fun _ => Problem.message_nil _, nofun⟩
  · rw [hp, hdetails]
    refine ⟨rfl, Nat.le_refl 1, nofun, fun detail' hmem => ?_⟩
    obtain rfl := List.mem_singleton.1 hmem
    exact Problem.exists_message_eq hp _

/-- What has been reported so far is worded, and so is what comes with the tokens ahead. -/
structure Session.Worded (s : Session) : Prop where
  events : ∀ e ∈ s.journal.events, ∀ d ∈ e.diagnostics, d.Worded
  ahead : ∀ t ∈ s.stream.ahead, ∀ d ∈ t.diagnostics, d.Worded

namespace Session.Worded

variable {s s' : Session}

theorem beside (h : s.Worded) (hs : s.Beside s') : s'.Worded :=
  ⟨hs.journal ▸ h.events, hs.stream ▸ h.ahead⟩

theorem advance (h : s.Worded) : s.advance.Worded := by
  obtain ⟨⟨_ | ⟨t, ts⟩, last⟩, current, previous, journal, table, assembly, returnType⟩ := s
  · exact ⟨List.forall_mem_cons.2 ⟨nofun, h.events⟩, h.ahead⟩
  · obtain ⟨ht, hts⟩ := List.forall_mem_cons.1 h.ahead
    exact ⟨List.forall_mem_cons.2 ⟨ht, h.events⟩, hts⟩

theorem report (h : s.Worded) (least : UInt32) {p : Problem} {details : List String}
    (hp : p.Takes details) : (s.report least p details).Worded := by
  refine ⟨List.forall_mem_cons.2 ⟨fun d hd => ?_, h.events⟩, h.ahead⟩
  rw [Event.diagnostics] at hd
  split at hd
  · rw [List.mem_singleton.1 hd]
    exact hp
  · contradiction

theorem resume (h : s.Worded) : s.resume.Worded := ⟨List.forall_mem_cons.2 ⟨nofun, h.events⟩, h.ahead⟩

/-- The lexemes of a text, and the end of the file behind them, have worded problems. -/
theorem start (source : String) (options : Options) :
    (Session.start (Token.scan source) options).Worded := by
  refine ⟨nofun, fun t ht => ?_⟩
  obtain ⟨ts, p, unclosed?, heq, hts⟩ := Token.scan_eq source
  rw [Session.start, heq] at ht
  rcases List.mem_append.1 ht with ht | ht
  · obtain ⟨q, ch, cs, rfl⟩ := hts t ht
    exact List.forall_mem_map.2 (Token.Lexeme.worded_read ch cs)
  · rw [List.mem_singleton.1 ht]
    exact List.forall_mem_map.2 fun _ _ => rfl

end Session.Worded

namespace Production

variable {α β : Type} {c : Setting}

/-- Behind the production, everything is worded if it was before. -/
def Words (c : Setting) (m : Production α) : Prop := ∀ ⦃s a s'⦄, Runs c m s a s' → s.Worded → s'.Worded

namespace Words

theorem aside {m : Production α} (hm : Aside m) : Words c m := by
  intro s a s' h hs
  have hbeside := hm c s
  rw [h] at hbeside
  exact hs.beside hbeside

theorem visits : Visits c fun m => Words c m where
  quiet hm s a s' h hs := by
    have hbeside := (hm s).1
    rw [h] at hbeside
    exact hs.beside hbeside
  advance s _ s' h hs := by
    rw [runs_advance.1 h]
    exact hs.advance
  resume s _ s' h hs := by
    rw [runs_resume.1 h]
    exact hs.resume
  report hp s _ s' h hs := by
    rw [runs_report.1 h]
    exact hs.report _ hp
  attempt {e p?} he hp s _ s' h hs := by
    obtain ⟨assembly, rfl⟩ := runs_attempt_of_ends he h
    have hs' : Session.Worded { s with assembly } := hs.beside ⟨rfl, rfl, rfl⟩
    rcases p? with _ | p
    · exact hs'
    · exact hs'.report _ (hp p rfl)
  bind hm hf s b s' h hs := by
    obtain ⟨a, s₁, h₁, h₂⟩ := runs_bind.1 h
    exact hf a h₂ (hm h₁ hs)
  read hm s a s' h hs := by
    obtain ⟨_, _, hread, hrest⟩ := runs_bind.1 h
    obtain ⟨rfl, rfl⟩ := runs_read.1 hread
    exact hm hrest hs

variable {m : Production α} {f : α → Production β}

theorem pure (a : α) : Words c (pure a) := visits.pure a

theorem bind (hm : Words c m) (hf : ∀ a, Words c (f a)) : Words c (m >>= f) := visits.bind hm hf

theorem ite {p : Prop} [Decidable p] {m' : Production α} (hm : p → Words c m) (hm' : ¬p → Words c m') :
    Words c (if p then m else m') := by
  split
  · next h => exact hm h
  · next h => exact hm' h

theorem act (hm : Aside m) (hf : ∀ a, Words c (f a)) : Words c (m >>= f) := bind (aside hm) hf

theorem reportIf {mistake : Prop} [Decidable mistake] {p : Problem} {details : List String}
    (hp : p.Takes details) : Words c (reportIf mistake p details) := visits.reportIf hp

theorem expect {k : Token.Kind} : Words c (expect k) := visits.expect

theorem arrayOf (t : TypeId) : Words c (arrayOf t) := aside .withTable

theorem updateEntry {id : EntryId} {f : Entry → Entry} : Words c (updateEntry id f) := aside .updateTable

theorem type : Words c type := visits.type arrayOf

/-- A name that is declared already is the detail of the report. -/
theorem declare {category : Category} {name : String} {t : TypeId} :
    Words c (declare category name t) := by
  intro s id s' h hs
  rcases runs_declare.1 h with ⟨-, -, rfl⟩ | ⟨-, -, -, rfl⟩ | ⟨-, -, -, rfl⟩
  · exact hs
  · exact hs.report _ rfl
  · exact hs.beside ⟨rfl, rfl, rfl⟩

theorem variableDeclaration : Words c variableDeclaration :=
  visits.variableDeclaration arrayOf fun _ _ => declare

theorem variableDeclarations : Words c variableDeclarations :=
  visits.variableDeclarations arrayOf fun _ _ => declare

/-! ### Declarations -/

theorem constantDeclaration : Words c constantDeclaration := by
  refine bind visits.advance fun _ => bind type fun _ => bind visits.identifier fun _ =>
    bind declare fun _ => bind expect fun _ => bind (bind visits.peek fun k => ?_) fun _ => expect
  split
  · exact bind (reportIf rfl) fun _ => bind visits.literal fun _ => updateEntry
  · exact visits.report rfl

theorem classDeclaration : Words c classDeclaration :=
  bind visits.advance fun _ => bind visits.identifier fun _ => act .withTable fun _ =>
    bind (visits.discard declare) fun _ => bind expect fun _ => act .updateTable fun _ =>
      bind variableDeclarations fun _ => visits.read <| act .table fun _ => bind (reportIf rfl) fun _ =>
        act .withTable fun _ => bind (visits.discard visits.descriptor) fun _ => act .updateTable fun _ =>
          expect

theorem declarations : Words c declarations := by
  refine visits.repeatWhile (bind visits.peek fun k => ?_)
  split
  · exact bind constantDeclaration fun _ => pure _
  · exact bind classDeclaration fun _ => pure _
  · exact bind variableDeclaration fun _ => pure _
  · exact pure _
  · exact pure _
  · exact bind visits.recoverDeclaration fun _ => pure _

/-! ### Methods and programs -/

theorem parameter {u : Unit} : Words c (parameter u) :=
  bind type fun _ => bind visits.identifier fun _ => bind declare fun _ => bind visits.check fun _ =>
    ite (fun _ => bind visits.advance fun _ => bind (arrayOf _) fun _ => bind updateEntry fun _ =>
      pure _) fun _ => bind visits.check fun _ => ite (fun _ => bind visits.advance fun _ => pure _)
        fun _ => pure _

theorem header {id : EntryId} : Words c (header id) :=
  bind expect fun _ => bind (bind visits.check fun _ =>
    ite (fun _ => visits.loop (fun _ => parameter) ()) fun _ => pure _) fun _ =>
      bind expect fun _ => act .table fun _ => bind updateEntry fun _ => pure _

theorem methodBody {id : EntryId} {isEntry : Bool} {t : TypeId} {parameters : Nat} :
    Words c (methodBody id isEntry t parameters) := by
  have hblock : Words c block := (visits.visitsBlocks arrayOf).block
  have hbeginning : ∀ size, Words c (beginning id isEntry parameters size) := fun _ =>
    act .write fun _ => bind updateEntry fun _ => act .write fun _ => visits.write
  have hending : Words c (ending t) :=
    ite (fun _ => bind visits.emit fun _ => visits.emit) fun _ => visits.emit
  exact bind variableDeclarations fun _ => act .table fun _ => visits.read <| bind (reportIf rfl) fun _ =>
    bind (hbeginning _) fun _ => bind hblock fun _ => hending

theorem methodDeclaration : Words c methodDeclaration := by
  have hreturnType : ∀ t, Words c (setReturnType t) := fun _ => aside fun _ _ => ⟨rfl, rfl, rfl⟩
  exact bind (visits.resultType arrayOf) fun t => bind visits.identifier fun _ => bind declare fun _ =>
    bind (hreturnType t) fun _ => act .updateTable fun _ => bind header fun _ => visits.read <|
      bind (reportIf rfl) fun _ => bind (reportIf rfl) fun _ => bind methodBody fun _ =>
        act .withTable fun _ => bind updateEntry fun _ => hreturnType _

theorem methods : Words c methods := by
  refine visits.repeatWhile (bind visits.peek fun k => ?_)
  split
  · exact bind methodDeclaration fun _ => pure _
  · exact bind methodDeclaration fun _ => pure _
  · exact pure _
  · exact pure _
  · exact bind visits.recoverMethod fun _ => pure _

theorem program : Words c program :=
  bind expect fun _ => bind visits.identifier fun _ => bind declare fun _ => act .updateTable fun _ =>
    bind declarations fun _ => visits.read <| act .table fun _ => bind (reportIf rfl) fun _ =>
      bind expect fun _ => bind methods fun _ => act .get fun _ => visits.read <| bind (reportIf rfl) fun _ =>
        bind expect fun _ => act .withTable fun _ => updateEntry

theorem sourceFile : Words c sourceFile :=
  bind visits.advance fun _ => bind program fun _ => expect

end Words

end Production

/-- Whatever the text and the options are, each diagnostic has as many details as its wording has places
for, which are none or one, and its message is the wording with the detail in its place as it is. -/
theorem compile_worded (source : String) (options : Options) (c : Compilation)
    (hcompile : compile source options = .ok c) (d : Diagnostic) (hd : d ∈ c.diagnostics) :
    d.details.length = d.problem.holes ∧ d.problem.holes ≤ 1 ∧
      (d.problem.holes = 0 → d.message = d.problem.template) ∧
      ∀ detail ∈ d.details, ∃ before after : String,
        d.problem.template = before ++ "\x7b0\x7d" ++ after ∧
          d.message = before ++ detail ++ after := by
  obtain ⟨s, hrun, -, hlog⟩ := runs_of_compile hcompile
  rw [hlog] at hd
  obtain ⟨e, he, hde⟩ := Session.mem_log.1 hd
  have hs := Production.Words.sourceFile hrun (.start source options)
  exact (hs.events e he d hde).message

/-- The name of the entry method has the place for a detail in it twice. -/
theorem compile_worded_braces : ∃ c d,
    compile "program P { }" { entryName := "\x7b0\x7d\x7b0\x7d" } = .ok c ∧ d ∈ c.diagnostics ∧
      d.problem = .noEntryMethod ∧ d.problem.holes = 1 ∧ ∃ before after : String,
        d.problem.template = before ++ "\x7b0\x7d" ++ after ∧
          d.message = before ++ "\x7b0\x7d\x7b0\x7d" ++ after := by
  let d : Diagnostic := ⟨⟨1, 13⟩, .noEntryMethod, ["\x7b0\x7d\x7b0\x7d"]⟩
  have hcompile : compile "program P { }" { entryName := "\x7b0\x7d\x7b0\x7d" } =
      .ok ⟨⟨#[], 0, none⟩, [d]⟩ := by
    decide +kernel
  have hd : d ∈ [d] := List.mem_singleton_self d
  obtain ⟨hlength, -, -, hmessage⟩ := compile_worded _ _ _ hcompile d hd
  exact ⟨_, d, hcompile, hd, rfl, hlength.symm, hmessage _ (List.mem_singleton_self _)⟩

end MicroJava
