import MicroJava.Proofs.Closed
import MicroJava.Proofs.Patching

/-!
# Productions that never go wrong

A session that a production works on stays healthy (`Session.Healthy`): no handle is dangling, the
code can be patched wherever a label asks for it, and the labels that are not defined yet are known.
`Safe c s m L Q` says that the production `m`, started in the session `s`, either ends in a healthy
session, with the labels of `L` not defined yet and a result as `Q` says, or stops at a jump that is
too far. It is composed like the productions themselves. The tokens that are left bound the turns of
a loop, because each turn but the last takes one (`Safe.loop`).
-/

namespace MicroJava

/-- The type of the operand, and the method that it is, are those of the table. -/
structure Operand.IsKnown (x : Operand) (t : SymbolTable) : Prop where
  type : x.type.IsKnown t
  method : ∀ id, x.place = .method id → id.IsKnown t

theorem Operand.IsKnown.grows {x : Operand} {t t' : SymbolTable} (h : x.IsKnown t)
    (hg : t.Grows t') : x.IsKnown t' :=
  ⟨hg.type h.type, fun id hid => hg.entry (h.method id hid)⟩

/-- An operand that is not a method. -/
theorem Operand.IsKnown.of_type {x : Operand} {t : SymbolTable} (ht : x.type.IsKnown t)
    (hm : ∀ id, x.place ≠ .method id) : x.IsKnown t :=
  ⟨ht, fun id h => absurd h (hm id)⟩

theorem Operand.IsKnown.onStack {ty : TypeId} {t : SymbolTable} (h : ty.IsKnown t) :
    (Operand.onStack ty).IsKnown t :=
  .of_type h fun _ => by simp [Operand.onStack]

theorem Operand.IsKnown.constant {v : Int32} {ty : TypeId} {t : SymbolTable} (h : ty.IsKnown t) :
    (Operand.constant v ty).IsKnown t :=
  .of_type h fun _ => by simp [Operand.constant]

namespace Session

/-- How many tokens there are from the next one on, where the end of the file is none. -/
def left (s : Session) : Nat :=
  if s.current.kind = .endOfFile then s.stream.ahead.length else s.stream.ahead.length + 1

theorem left_bounds (s : Session) :
    s.stream.ahead.length ≤ s.left ∧ s.left ≤ s.stream.ahead.length + 1 := by
  unfold left
  split <;> omega

theorem left_of_ne {s : Session} (h : s.current.kind ≠ .endOfFile) :
    s.left = s.stream.ahead.length + 1 :=
  if_neg h

/-- Taking a token leaves one less, if there is one. -/
theorem left_advance {s : Session} (h : s.stream.last.kind = .endOfFile) :
    s.advance.left ≤ s.stream.ahead.length := by
  obtain ⟨⟨_ | ⟨t, ts⟩, last⟩, current, previous, journal, table, assembly, returnType⟩ := s
  · exact Nat.le_of_eq (if_pos h)
  · exact (left_bounds _).2

/-- A session in which no production goes wrong, with the labels of `L` not defined yet. -/
structure Healthy (c : Setting) (L : Set Label) (s : Session) : Prop where
  last : s.stream.last.kind = .endOfFile
  left : s.left + 2 ≤ c.bound
  table : s.table.Closed
  patchable : s.assembly.Patchable
  undefined : s.assembly.undefined = L
  methods : ∀ id e m, s.table.entryAt? id = some e → e.method? = some m →
    m.address ≤ s.assembly.here
  returnType : s.returnType.IsKnown s.table

/-- Tokens are taken, and whatever has a handle stays. -/
structure Precedes (s s' : Session) : Prop where
  left : s'.left ≤ s.left
  table : s.table.Grows s'.table
  labels : s.assembly.labels.size ≤ s'.assembly.labels.size
  here : s.assembly.here ≤ s'.assembly.here

theorem Precedes.refl (s : Session) : s.Precedes s :=
  ⟨Nat.le_refl _, .refl _, Nat.le_refl _, Nat.le_refl _⟩

theorem Precedes.trans {s s₁ s' : Session} (h : s.Precedes s₁) (h' : s₁.Precedes s') :
    s.Precedes s' :=
  ⟨Nat.le_trans h'.left h.left, h.table.trans h'.table, Nat.le_trans h.labels h'.labels,
    Nat.le_trans h.here h'.here⟩

variable {c : Setting} {L L' : Set Label} {s s' : Session}

theorem Healthy.advance (h : s.Healthy c L) :
    s.advance.Healthy c L ∧ s.Precedes s.advance ∧
      (s.current.kind ≠ .endOfFile → s.advance.left < s.left) := by
  have hadvance := left_advance h.last
  have hbounds := s.left_bounds
  have hleft : s.advance.left ≤ s.left := Nat.le_trans hadvance hbounds.1
  refine ⟨⟨?_, ?_, h.table, h.patchable, h.undefined, h.methods, h.returnType⟩,
    ⟨hleft, .refl _, Nat.le_refl _, Nat.le_refl _⟩, fun hk => ?_⟩
  · obtain ⟨⟨_ | ⟨t, ts⟩, last⟩, current, previous, journal, table, assembly, returnType⟩ := s <;>
      exact h.last
  · have := h.left
    omega
  · rw [left_of_ne hk]
    omega

/-- A label that is not defined yet exists. -/
theorem Healthy.index_lt (h : s.Healthy c L) {l : Label} (hl : l ∈ L) :
    l.index < s.assembly.labels.size := by
  obtain ⟨ps, hps⟩ := h.undefined.symm ▸ hl
  exact s.assembly.index_lt_of_label? hps

theorem Healthy.report (h : s.Healthy c L) (least : UInt32) (p : Problem) (details : List String) :
    (s.report least p details).Healthy c L ∧ s.Precedes (s.report least p details) :=
  ⟨⟨h.last, h.left, h.table, h.patchable, h.undefined, h.methods, h.returnType⟩,
    ⟨Nat.le_refl _, .refl _, Nat.le_refl _, Nat.le_refl _⟩⟩

/-- Other code, in which the labels of `L'` are not defined yet. -/
theorem Healthy.withAssembly (h : s.Healthy c L) {assembly : Assembly}
    (ha : Emission.Continues L' s.assembly assembly) :
    Session.Healthy c L' { s with assembly } ∧ s.Precedes { s with assembly } :=
  ⟨⟨h.last, h.left, h.table, ha.patchable, ha.undefined, fun id e m he hm =>
      Nat.le_trans (h.methods id e m he hm) ha.here, h.returnType⟩,
    ⟨Nat.le_refl _, .refl _, ha.labels, ha.here⟩⟩

/-- Another table, whose methods are those of before or have no address yet. -/
theorem Healthy.withTable (h : s.Healthy c L) {table : SymbolTable} (ht : table.Closed)
    (hg : s.table.Grows table)
    (hm : ∀ id e m, table.entryAt? id = some e → e.method? = some m →
      m.address ≤ s.assembly.here) :
    Session.Healthy c L { s with table } ∧ s.Precedes { s with table } :=
  ⟨⟨h.last, h.left, ht, h.patchable, h.undefined, hm, hg.type h.returnType⟩,
    ⟨Nat.le_refl _, hg, Nat.le_refl _, Nat.le_refl _⟩⟩

/-- Other types. -/
theorem Healthy.withTypes (h : s.Healthy c L) {types : Types}
    (ht : SymbolTable.Closed { s.table with types })
    (hg : s.table.Grows { s.table with types }) :
    Session.Healthy c L { s with table := { s.table with types } } ∧
      s.Precedes { s with table := { s.table with types } } :=
  h.withTable ht hg h.methods

/-- A changed entry. -/
theorem Healthy.update (h : s.Healthy c L) (id : EntryId) {f : Entry → Entry}
    (hf : ∀ e, s.table.entryAt? id = some e → e.Closed s.table → (f e).Closed s.table)
    (hm : ∀ e m, s.table.entryAt? id = some e → (f e).method? = some m →
      m.address ≤ s.assembly.here) :
    Session.Healthy c L { s with table := s.table.update id f } ∧
      s.Precedes { s with table := s.table.update id f } := by
  refine h.withTable (h.table.update hf) (.update id f) fun id' e m he hm' => ?_
  rw [SymbolTable.entryAt?_update] at he
  split at he
  · next hid =>
    obtain ⟨e', he', rfl⟩ := Option.map_eq_some_iff.1 he
    exact hm e' m (hid.1 ▸ he') hm'
  · exact h.methods id' e m he hm'

end Session

namespace Production

variable {α β : Type}

/-- The production ends in a healthy session as `Q` says, or stops at a jump that is too far. -/
def Safe (c : Setting) (s : Session) (m : Production α) (L : α → Set Label)
    (Q : α → Session → Prop) : Prop :=
  match m.outcome c s with
  | (.ok a, s') => s'.Healthy c (L a) ∧ s.Precedes s' ∧ Q a s'
  | (.error f, s') => s'.assembly.Overruns f

namespace Safe

variable {c : Setting} {L L' : Set Label} {K : α → Set Label} {M : β → Set Label}
  {s s' s₁ : Session} {m m' : Production α} {f : α → Production β} {Q Q' : α → Session → Prop}
  {R : β → Session → Prop}

/-! ### Sequences -/

theorem of_runs {a : α} (h : Runs c m s a s') (hs : s'.Healthy c (K a) ∧ s.Precedes s')
    (hQ : Q a s') : Safe c s m K Q := by
  unfold Safe
  rw [h]
  exact ⟨hs.1, hs.2, hQ⟩

theorem bind (hm : Safe c s m K Q)
    (hf : ∀ a s₁, s₁.Healthy c (K a) → s.Precedes s₁ → Q a s₁ → Safe c s₁ (f a) M R) :
    Safe c s (m >>= f) M R := by
  unfold Safe at hm hf ⊢
  rw [outcome_bind]
  rcases hr : outcome m c s with ⟨e | a, s₁⟩ <;> rw [hr] at hm
  · exact hm
  · obtain ⟨hs, hp, hQ⟩ := hm
    have hsafe := hf a s₁ hs hp hQ
    rcases hr : outcome (f a) c s₁ with ⟨e | b, s'⟩
    · rw [hr] at hsafe
      simpa only [hr] using hsafe
    · rw [hr] at hsafe
      simp only [hr]
      exact ⟨hsafe.1, hp.trans hsafe.2.1, hsafe.2.2⟩

theorem mono (hm : Safe c s m K Q) (hQ : ∀ a s', s.Precedes s' → Q a s' → Q' a s') :
    Safe c s m K Q' := by
  unfold Safe at hm ⊢
  rcases hr : outcome m c s with ⟨e | a, s'⟩ <;> rw [hr] at hm
  · exact hm
  · exact ⟨hm.1, hm.2.1, hQ a s' hm.2.1 hm.2.2⟩

theorem pure {a : α} (hs : s.Healthy c (K a)) (hQ : Q a s) : Safe c s (pure a) K Q :=
  of_runs (runs_pure.2 ⟨rfl, rfl⟩) ⟨hs, .refl s⟩ hQ

theorem ite {p : Prop} [Decidable p] (hm : p → Safe c s m K Q) (hm' : ¬p → Safe c s m' K Q) :
    Safe c s (if p then m else m') K Q := by
  split
  · next h => exact hm h
  · next h => exact hm' h

theorem discard (hm : Safe c s m (fun _ => L) Q) :
    Safe c s (discard m) (fun _ => L) fun _ s' => ∃ a, Q a s' := by
  rw [show (Functor.discard m : Production Unit) = m >>= fun _ => Pure.pure () from rfl]
  exact hm.bind fun a _ hs _ hQ => .pure hs ⟨a, hQ⟩

theorem map {g : α → β} (hm : Safe c s m (fun a => M (g a)) fun a s' => R (g a) s') :
    Safe c s (g <$> m) M R := by
  rw [map_eq_pure_bind]
  exact hm.bind fun _ _ hs _ hR => .pure hs hR

/-- A production that only looks. -/
theorem look {a : α} (h : Runs c m s a s) (hf : Safe c s (f a) M R) : Safe c s (m >>= f) M R := by
  unfold Safe
  rw [outcome_bind, h]
  exact hf

/-! ### Tokens and reports -/

theorem peek {g : Token.Kind → Production β} (h : Safe c s (g s.current.kind) M R) :
    Safe c s (peek >>= g) M R :=
  look (runs_peek.2 ⟨rfl, rfl⟩) h

theorem check {k : Token.Kind} {g : Bool → Production β}
    (h : s.current.kind = k → Safe c s (g true) M R)
    (h' : s.current.kind ≠ k → Safe c s (g false) M R) : Safe c s (check k >>= g) M R := by
  refine look (runs_check.2 ⟨rfl, rfl⟩) ?_
  by_cases hk : s.current.kind = k
  · rw [decide_eq_true hk]
    exact h hk
  · rw [decide_eq_false hk]
    exact h' hk

theorem checkAny {ks : Token.KindSet} {g : Bool → Production β}
    (h : ks.contains s.current.kind = true → Safe c s (g true) M R)
    (h' : ks.contains s.current.kind = false → Safe c s (g false) M R) :
    Safe c s (checkAny ks >>= g) M R := by
  refine look (runs_checkAny.2 ⟨rfl, rfl⟩) ?_
  rcases hk : ks.contains s.current.kind with _ | _
  · exact h' hk
  · exact h hk

theorem get {g : Session → Production β} (h : Safe c s (g s) M R) :
    Safe c s (MonadState.get >>= g) M R :=
  look (runs_get.2 ⟨rfl, rfl⟩) h

theorem read {g : Setting → Production β} (h : Safe c s (g c) M R) :
    Safe c s (MonadReader.read >>= g) M R :=
  look (runs_read.2 ⟨rfl, rfl⟩) h

theorem table {g : SymbolTable → Production β} (h : Safe c s (g s.table) M R) :
    Safe c s (table >>= g) M R :=
  look (runs_table.2 ⟨rfl, rfl⟩) h

variable (hs : s.Healthy c L)

include hs

/-- Besides, a token is taken where there is one. -/
theorem advance : Safe c s advance (fun _ => L) fun _ s' =>
    s' = s.advance ∧ (s.current.kind ≠ .endOfFile → s'.left < s.left) :=
  of_runs (a := ()) (runs_advance.2 rfl) ⟨hs.advance.1, hs.advance.2.1⟩ ⟨rfl, hs.advance.2.2⟩

theorem literal : Safe c s literal (fun _ => L) fun _ s' =>
    s.current.kind ≠ .endOfFile → s'.left < s.left :=
  of_runs (runs_literal.2 ⟨rfl, rfl⟩) ⟨hs.advance.1, hs.advance.2.1⟩ hs.advance.2.2

theorem report {p : Problem} {details : List String} :
    Safe c s (report p details) (fun _ => L) fun _ s' => s'.left = s.left ∧ s'.current = s.current :=
  of_runs (a := ()) (runs_report.2 rfl) (hs.report ..) ⟨rfl, rfl⟩

theorem reportIf {mistake : Prop} [Decidable mistake] {p : Problem} {details : List String} :
    Safe c s (reportIf mistake p details) (fun _ => L) fun _ s' =>
      s'.left = s.left ∧ s'.current = s.current :=
  .ite (fun _ => .report hs) fun _ => .pure hs ⟨rfl, rfl⟩

theorem resume : Safe c s resume (fun _ => L) fun _ _ => True :=
  of_runs (a := ()) (runs_resume.2 rfl)
    ⟨⟨hs.last, hs.left, hs.table, hs.patchable, hs.undefined, hs.methods, hs.returnType⟩,
      ⟨Nat.le_refl _, .refl _, Nat.le_refl _, Nat.le_refl _⟩⟩ trivial

theorem expect {k : Token.Kind} : Safe c s (expect k) (fun _ => L) fun _ s' =>
    k ≠ .endOfFile → s.current.kind = k → s'.left < s.left := by
  refine .check (fun hk => ?_) fun hk => ?_
  · exact (advance hs).mono fun _ _ _ h hne _ => h.2 (hk ▸ hne)
  · exact (report hs).mono fun _ _ _ _ _ hk' => absurd hk' hk

theorem takeIf {k : Token.Kind} : Safe c s (takeIf k) (fun _ => L) fun _ _ => True := by
  refine .check (fun _ => ?_) fun _ => .pure hs trivial
  exact (advance hs).mono fun _ _ _ _ => trivial

theorem identifier : Safe c s identifier (fun _ => L) fun _ s' =>
    s.current.kind = .identifier → s'.left < s.left := by
  refine .check (fun hk => ?_) fun hk => ?_
  · refine (advance hs).bind fun _ s₁ hs₁ hp₁ h => .get (.pure hs₁ fun _ => h.2 ?_)
    rw [hk]
    decide
  · exact (report hs).bind fun _ s₁ hs₁ hp₁ _ => .pure hs₁ fun hk' => absurd hk' hk

omit hs

/-! ### Loops -/

/-- Each turn but the last takes a token, and there are at least as many turns as tokens. -/
theorem iterate {body : α → Production (α ⊕ β)} {I : α → Session → Prop} {K : α → Set Label}
    (hbody : ∀ a s₁, s₁.Healthy c (K a) → s.Precedes s₁ → I a s₁ →
      Safe c s₁ (body a) (Sum.elim K M)
        (Sum.elim (fun a' s₂ => s₂.left < s₁.left ∧ I a' s₂) R)) :
    ∀ n a s₁, s₁.Healthy c (K a) → s.Precedes s₁ → I a s₁ → s₁.left < n →
      Safe c s₁ (iterate body n a) M R := by
  intro n
  induction n with
  | zero => exact fun _ _ _ _ _ hn => absurd hn (Nat.not_lt_zero _)
  | succ n ih =>
    intro a s₁ hs₁ hp₁ ha hn
    refine (hbody a s₁ hs₁ hp₁ ha).bind fun r s₂ hs₂ hp₂ hr => ?_
    rcases r with a' | b
    · exact ih a' s₂ hs₂ (hp₁.trans hp₂) hr.2 (by have := hr.1; omega)
    · exact .pure hs₂ hr

/-- Each turn of a loop but the last takes a token. -/
theorem loop {body : α → Production (α ⊕ β)} {I : α → Session → Prop} {K : α → Set Label} {a : α}
    (hbody : ∀ a s₁, s₁.Healthy c (K a) → s.Precedes s₁ → I a s₁ →
      Safe c s₁ (body a) (Sum.elim K M)
        (Sum.elim (fun a' s₂ => s₂.left < s₁.left ∧ I a' s₂) R))
    (hs : s.Healthy c (K a)) (ha : I a s) : Safe c s (loop body a) M R := by
  have := hs.left
  exact .read (iterate hbody _ a s hs (.refl s) ha (by omega))

theorem repeatWhile {body : Production Bool}
    (hbody : ∀ s₁, s₁.Healthy c L → s.Precedes s₁ →
      Safe c s₁ body (fun _ => L) fun more s₂ => more = true → s₂.left < s₁.left)
    (hs : s.Healthy c L) : Safe c s (repeatWhile body) (fun _ => L) fun _ _ => True := by
  refine .loop (I := fun _ _ => True) (K := fun _ => L) (fun _ s₁ hs₁ hp₁ _ => ?_) hs trivial
  refine (hbody s₁ hs₁ hp₁).bind fun more s₂ hs₂ hp₂ h => ?_
  rcases more with _ | _
  · exact .pure hs₂ trivial
  · exact .pure hs₂ ⟨h rfl, trivial⟩

/-! ### Symbols -/

variable (hs : s.Healthy c L)

include hs

theorem entry {id : EntryId} (hid : id.IsKnown s.table) :
    Safe c s (entry id) (fun _ => L) fun e s' =>
      s' = s ∧ s.table.entryAt? id = some e ∧ e.Closed s.table := by
  obtain ⟨e, he⟩ := SymbolTable.Closed.exists_entry hid
  exact of_runs (runs_entry.2 ⟨he, rfl⟩) ⟨hs, .refl s⟩ ⟨rfl, he, hs.table.entryAt? he⟩

theorem descriptor {ty : TypeId} (hty : ty.IsKnown s.table) :
    Safe c s (descriptor ty) (fun _ => L) fun d s' =>
      s' = s ∧ s.table.types.descriptor? ty = some d := by
  obtain ⟨d, hd⟩ := SymbolTable.Closed.exists_descriptor hty
  exact of_runs (runs_descriptor.2 ⟨hd, rfl⟩) ⟨hs, .refl s⟩ ⟨rfl, hd⟩

theorem find {name : String} :
    Safe c s (find name) (fun _ => L) fun id s' =>
      id.IsKnown s'.table ∧ s'.left = s.left ∧ s'.current = s.current := by
  refine .ite (fun _ => .pure hs ⟨hs.table.nonempty, rfl, rfl⟩) fun _ => .table ?_
  unfold SymbolTable.find
  rcases hl : s.table.lookup? name with _ | id
  · exact (report hs).bind fun _ s₁ hs₁ _ h => .pure hs₁ ⟨hs₁.table.nonempty, h.1, h.2⟩
  · exact .pure hs ⟨hs.table.lookup? hl, rfl, rfl⟩

theorem findField {name : String} {ty : TypeId} :
    Safe c s (findField name ty) (fun _ => L) fun id s' => id.IsKnown s'.table := by
  refine .table ?_
  unfold SymbolTable.findField
  rcases hl : List.find? _ (s.table.types.fields ty) with _ | id
  · exact (report hs).bind fun _ s₁ hs₁ _ h => .pure hs₁ hs₁.table.nonempty
  · exact .pure hs (hs.table.fields ty id (List.mem_of_find?_eq_some hl))

/-- A new entry has no address yet. -/
theorem declare {category : Category} {name : String} {ty : TypeId} (hty : ty.IsKnown s.table) :
    Safe c s (declare category name ty) (fun _ => L) fun id s' =>
      id.IsKnown s'.table ∧ s'.left = s.left ∧ s'.current = s.current := by
  by_cases hname : name = ""
  · exact of_runs (runs_declare.2 (.inl ⟨hname, rfl, rfl⟩)) ⟨hs, .refl s⟩
      ⟨hs.table.nonempty, rfl, rfl⟩
  rcases hfind : s.table.current.find? name with _ | id
  · -- a new entry
    have hdeclare : s.table.declare category name ty =
        (.ok ⟨s.table.entries.size⟩, (s.table.bind ⟨name, ty, s.table.meaningOf category⟩).2) := by
      simp [SymbolTable.declare, hfind, SymbolTable.id_bind]
    have hclosed := hs.table.declare category name hty
    rw [hdeclare] at hclosed
    refine of_runs (runs_declare.2 (.inr (.inr ⟨hname, hfind, rfl, rfl⟩)))
      (hs.withTable hclosed (.bind _) fun id e m he hm => ?_) ⟨?_, rfl, rfl⟩
    · rw [SymbolTable.entryAt?_bind] at he
      split at he
      · obtain rfl := Option.some.inj he
        cases category
        case method =>
          obtain rfl : ({} : Method) = m := Option.some.inj hm
          exact Nat.zero_le _
        all_goals exact absurd hm (by simp [Entry.method?, SymbolTable.meaningOf])
      · exact hs.methods id e m he hm
    · simp [EntryId.IsKnown]
  · refine of_runs (runs_declare.2 (.inr (.inl ⟨hname, by simp [hfind], rfl, rfl⟩)))
      (hs.report ..) ⟨hs.table.nonempty, rfl, rfl⟩

theorem updateEntry {id : EntryId} {g : Entry → Entry}
    (hg : ∀ e, s.table.entryAt? id = some e → e.Closed s.table → (g e).Closed s.table)
    (hm : ∀ e m, s.table.entryAt? id = some e → (g e).method? = some m →
      m.address ≤ s.assembly.here) :
    Safe c s (updateEntry id g) (fun _ => L) fun _ s' =>
      s' = { s with table := s.table.update id g } :=
  of_runs (a := ()) (runs_updateEntry.2 rfl) (hs.update id hg hm) rfl

theorem arrayOf {ty : TypeId} (hty : ty.IsKnown s.table) :
    Safe c s (arrayOf ty) (fun _ => L) fun ty' s' =>
      ty'.IsKnown s'.table ∧ s'.left = s.left ∧ s'.current = s.current :=
  of_runs (runs_arrayOf.2 ⟨rfl, rfl⟩)
    (hs.withTypes (hs.table.arrayOf hty).1 (.arrayOf ty)) ⟨(hs.table.arrayOf hty).2, rfl, rfl⟩

theorem openScope : Safe c s openScope (fun _ => L) fun _ s' =>
    s' = { s with table := s.table.openScope } :=
  of_runs (a := ()) (runs_openScope.2 rfl) (hs.withTable hs.table.openScope .openScope hs.methods) rfl

theorem closeScope : Safe c s closeScope (fun _ => L) fun ids s' =>
    ∀ id ∈ ids, id.IsKnown s'.table := by
  refine of_runs (runs_closeScope.2 ⟨rfl, rfl⟩)
    (hs.withTable hs.table.closeScope.1 .closeScope ?_) hs.table.closeScope.2
  intro id e m he
  rw [SymbolTable.entryAt?, SymbolTable.entries_closeScope] at he
  exact hs.methods id e m he

/-! ### Code -/

theorem write {e : Emission Fault α} {Q : α → Assembly → Prop}
    (he : e.Safe s.assembly fun x a' => Emission.Continues (K x) s.assembly a' ∧ Q x a') :
    Safe c s (write e) K fun x s' => Q x s'.assembly ∧ s' = { s with assembly := s'.assembly } := by
  unfold Emission.Safe at he
  split at he
  · next x a' hrun =>
    exact of_runs (runs_write.2 ⟨a', hrun, rfl⟩) (hs.withAssembly he.1) ⟨he.2, rfl⟩
  · next p a' hrun =>
    have houtcome : outcome (Production.write e) c s = (.error p, { s with assembly := a' }) := by
      unfold Production.write
      rw [outcome_bind, outcome_modifyGet]
      simp only [Session.withAssembly]
      rw [show e.run.run s.assembly = e.outcome s.assembly from rfl, hrun]
      rfl
    unfold Safe
    rw [houtcome]
    exact he

theorem writePlain {e : Emission Fault α} (hp : e.Plain) (ht : e.Total) :
    Safe c s (Production.write e) (fun _ => L) fun _ _ => True := by
  refine (write hs (K := fun _ => L) (Q := fun _ _ => True) ?_).mono fun _ _ _ _ => trivial
  exact Emission.safe_mono (Emission.safe_of_plain hp ht hs.patchable) fun _ a' ha =>
    ⟨hs.undefined ▸ ha, trivial⟩

theorem emit {op : Opcode} {operands : List Int} :
    Safe c s (emit op operands) (fun _ => L) fun _ _ => True :=
  writePlain hs (Emission.plain_emit op operands) (Emission.total_emit op operands)

theorem attempt {e : Emission Problem Unit} (hp : e.Plain) :
    Safe c s (attempt e) (fun _ => L) fun _ _ => True := by
  obtain ⟨hlabels, hhere⟩ := hp s.assembly
  obtain ⟨hpatch, hundefined⟩ := hs.patchable.grow hlabels hhere
  have hcontinues : Emission.Continues L s.assembly (e.outcome s.assembly).2 :=
    ⟨hpatch, hundefined.trans hs.undefined, Nat.le_of_eq (by rw [hlabels]), hhere⟩
  obtain ⟨hs', hp'⟩ := hs.withAssembly hcontinues
  rcases hr : e.outcome s.assembly with ⟨p | ⟨⟩, a'⟩ <;> rw [hr] at hs' hp'
  · obtain ⟨hs'', hp''⟩ := hs'.report c.options.reportDistance p []
    exact of_runs (a := ()) (runs_attempt.2 (.inr ⟨p, a', hr, rfl⟩)) ⟨hs'', hp'.trans hp''⟩ trivial
  · exact of_runs (a := ()) (runs_attempt.2 (.inl ⟨a', hr, rfl⟩)) ⟨hs', hp'⟩ trivial

theorem load {x : Operand} : Safe c s (load x) (fun _ => L) fun _ _ => True :=
  attempt hs (Emission.plain_load x)

/-- A new label is not defined yet. -/
theorem newLabel : Safe c s (Production.write Emission.newLabel) (fun l => insert l L)
    fun l _ => l ∉ L := by
  refine (write hs (K := fun l => insert l L) (Q := fun l _ => l ∉ L) ?_).mono fun _ _ _ h => h.1
  exact Emission.safe_mono (Emission.safe_newLabel hs.patchable) fun l a' ha =>
    hs.undefined ▸ ha

omit hs in
/-- A label is defined once. -/
theorem define {l : Label} (hs : s.Healthy c (insert l L)) (hl : l ∉ L) :
    Safe c s (Production.write (Emission.define l)) (fun _ => L) fun _ _ => True := by
  have hmem : l ∈ s.assembly.undefined := hs.undefined ▸ Set.mem_insert l L
  refine (write hs (K := fun _ => L) (Q := fun _ _ => True) ?_).mono fun _ _ _ _ => trivial
  refine Emission.safe_mono (Emission.safe_define hs.patchable hmem) fun _ a' ha => ⟨?_, trivial⟩
  rwa [hs.undefined, Set.insert_sdiff_of_mem _ (Set.mem_singleton l),
    Set.sdiff_singleton_eq_self hl] at ha

theorem jumpTo {op : Opcode} {l : Label} (hl : l.index < s.assembly.labels.size) :
    Safe c s (Production.write do Emission.emit op; Emission.reference l) (fun _ => L)
      fun _ _ => True := by
  refine (write hs (K := fun _ => L) (Q := fun _ _ => True) ?_).mono fun _ _ _ _ => trivial
  exact Emission.safe_mono (Emission.safe_jumpTo hs.patchable hl) fun _ a' ha =>
    ⟨hs.undefined ▸ ha, trivial⟩

/-- A method is called at an address that is in the code. -/
theorem callTo {target : Nat} (ht : target ≤ s.assembly.here) :
    Safe c s (Production.write (Emission.call target)) (fun _ => L) fun _ _ => True := by
  refine (write hs (K := fun _ => L) (Q := fun _ _ => True) ?_).mono fun _ _ _ _ => trivial
  exact Emission.safe_mono (Emission.safe_call hs.patchable ht) fun _ a' ha =>
    ⟨hs.undefined ▸ ha, trivial⟩

/-! ### Types -/

theorem namedType : Safe c s namedType (fun _ => L) fun ty s' =>
    ty.IsKnown s'.table ∧ (s.current.kind = .identifier → s'.left < s.left) := by
  refine (identifier hs).bind fun name s₁ hs₁ _ htake => ?_
  refine (find hs₁).bind fun id s₂ hs₂ _ ⟨hid, hleft, _⟩ => ?_
  refine (entry hs₂ hid).bind fun e s₃ hs₃ _ ⟨heq, _, he⟩ => ?_
  subst heq
  refine .ite (fun _ => .pure hs₃ ⟨he.type, fun hk => hleft ▸ htake hk⟩) fun _ => ?_
  refine (reportIf hs₃).bind fun _ s₄ hs₄ _ h => .pure hs₄ ⟨hs₄.table.known_none, fun hk => ?_⟩
  rw [h.1, hleft]
  exact htake hk

theorem type : Safe c s type (fun _ => L) fun ty s' =>
    ty.IsKnown s'.table ∧ (s.current.kind = .identifier → s'.left < s.left) := by
  refine (namedType hs).bind fun ty s₁ hs₁ _ ⟨hty, htake⟩ => ?_
  refine .check (fun _ => ?_) fun _ => .pure hs₁ ⟨hty, htake⟩
  refine (advance hs₁).bind fun _ s₂ hs₂ hp₂ _ => (expect hs₂).bind fun _ s₃ hs₃ hp₃ _ => ?_
  refine (arrayOf hs₃ ((hp₂.trans hp₃).table.type hty)).mono fun ty' s₄ hp₄ h => ⟨h.1, fun hk => ?_⟩
  exact Nat.lt_of_le_of_lt ((hp₂.trans hp₃).trans hp₄).left (htake hk)

theorem fits {x : Operand} {ty : TypeId} (hx : x.IsKnown s.table) (hty : ty.IsKnown s.table) :
    Safe c s (fits x ty) (fun _ => L) fun _ s' => s' = s := by
  refine (discard (descriptor hs hx.type)).bind fun _ s₁ hs₁ _ ⟨_, heq, _⟩ => ?_
  subst heq
  refine (discard (descriptor hs₁ hty)).bind fun _ s₂ hs₂ _ ⟨_, heq, _⟩ => ?_
  subst heq
  exact .table (.pure hs₂ rfl)

theorem comparable {a b : TypeId} (ha : a.IsKnown s.table) (hb : b.IsKnown s.table) :
    Safe c s (comparable a b) (fun _ => L) fun _ s' => s' = s := by
  refine (discard (descriptor hs ha)).bind fun _ s₁ hs₁ _ ⟨_, heq, _⟩ => ?_
  subst heq
  refine (discard (descriptor hs₁ hb)).bind fun _ s₂ hs₂ _ ⟨_, heq, _⟩ => ?_
  subst heq
  exact .table (.pure hs₂ rfl)

end Safe

end Production

end MicroJava
