import MicroJava.Proofs.Composing
import MicroJava.Proofs.Evolution

/-!
# Productions and the symbol table

Every production of expressions, statements and declarations takes a table that has come about in steps
from the first one to another such table, also where it stops at a fault, and leaves the scopes open that
were open in front of it (`Production.Evolving`). Most of them only add array types; those that declare
names and classes say besides that what they give is known (`Production.Evolves`).
-/

namespace MicroJava

/-- The table comes about in steps from the first one. -/
def SymbolTable.Reachable (t : SymbolTable) : Prop := initial.Evolves t

namespace SymbolTable.Reachable

variable {t t' : SymbolTable}

theorem evolves (h : t.Reachable) (h' : t.Evolves t') : t'.Reachable := h.trans h'

theorem closed (h : t.Reachable) : t.Closed := Evolves.closed h .initial

theorem predeclared (h : t.Reachable) : t.Predeclared := Evolves.predeclared h fun _ _ => rfl

end SymbolTable.Reachable

namespace Production

variable {α β : Type} {c : Setting} {s : Session}

/-- The production takes the table to another one in steps, and if it ends, its result and the table
are as `Q` says. -/
structure Evolves (c : Setting) (s : Session) (m : Production α) (Q : α → SymbolTable → Prop) :
    Prop where
  table : s.table.Evolves (m.outcome c s).2.table
  result : ∀ a s', Runs c m s a s' → Q a s'.table

/-- From every table that has come about in steps, the production takes it further, and where it ends,
the same scopes are open. -/
def Evolving (c : Setting) (m : Production α) : Prop :=
  ∀ ⦃s⦄, s.table.Reachable → Evolves c s m fun _ t => t.level = s.table.level

/-- Besides, the production gives a type of the table. -/
def Typing (c : Setting) (m : Production TypeId) : Prop :=
  ∀ ⦃s⦄, s.table.Reachable → Evolves c s m fun ty t => ty.IsKnown t ∧ t.level = s.table.level

namespace Evolves

variable {m m' : Production α} {f : α → Production β} {Q Q' : α → SymbolTable → Prop}
  {R : β → SymbolTable → Prop}

theorem mono (h : Evolves c s m Q) (hQ : ∀ a t, s.table.Evolves t → Q a t → Q' a t) :
    Evolves c s m Q' := by
  refine ⟨h.table, fun a s' hrun => hQ a s'.table ?_ (h.result a s' hrun)⟩
  have ht := h.table
  rwa [show m.outcome c s = (.ok a, s') from hrun] at ht

theorem bind (hm : Evolves c s m Q) (hs : s.table.Reachable)
    (hf : ∀ a s₁, s₁.table.Reachable → s.table.Evolves s₁.table → Q a s₁.table →
      Evolves c s₁ (f a) R) :
    Evolves c s (m >>= f) R := by
  have ht := hm.table
  rcases hr : outcome m c s with ⟨e | a, s₁⟩
  · rw [hr] at ht
    refine ⟨by rw [outcome_bind, hr]; exact ht, fun b s' hrun => ?_⟩
    obtain ⟨a, s₂, h, -⟩ := runs_bind.1 hrun
    simp [Runs, hr] at h
  · rw [hr] at ht
    have h := hf a s₁ (hs.evolves ht) ht (hm.result a s₁ hr)
    refine ⟨by rw [outcome_bind, hr]; exact ht.trans h.table, fun b s' hrun => ?_⟩
    obtain ⟨a', s₂, h₁, h₂⟩ := runs_bind.1 hrun
    obtain ⟨ha, rfl⟩ : a = a' ∧ s₁ = s₂ := by simpa [Runs, hr] using h₁
    exact h.result b s' (ha ▸ h₂)

theorem pure {a : α} (h : Q a s.table) : Evolves c s (pure a) Q := by
  refine ⟨.refl _, fun b s' hrun => ?_⟩
  obtain ⟨rfl, rfl⟩ := runs_pure.1 hrun
  exact h

theorem ite {p : Prop} [Decidable p] (hm : p → Evolves c s m Q) (hm' : ¬p → Evolves c s m' Q) :
    Evolves c s (if p then m else m') Q := by
  split
  · next h => exact hm h
  · next h => exact hm' h

/-- A production that ends with this table. -/
theorem of_runs {a : α} {s' : Session} (h : Runs c m s a s') (ht : s.table.Evolves s'.table)
    (hQ : Q a s'.table) : Evolves c s m Q := by
  refine ⟨by rwa [show m.outcome c s = (.ok a, s') from h], fun b s₁ hrun => ?_⟩
  obtain ⟨rfl, rfl⟩ : a = b ∧ s' = s₁ := by
    have := h.symm.trans hrun
    simpa using this
  exact hQ

theorem read {f : Setting → Production α} (hf : Evolves c s (f c) Q) :
    Evolves c s (MonadReader.read >>= f) Q := by
  refine ⟨?_, fun a s' hrun => ?_⟩
  · rw [outcome_bind, outcome_read]
    exact hf.table
  · obtain ⟨_, _, hread, hrun⟩ := runs_bind.1 hrun
    obtain ⟨rfl, rfl⟩ := runs_read.1 hread
    exact hf.result a s' hrun

/-- The turns of a loop, where what each of them needs of the table stays true. -/
theorem loop {body : α → Production (α ⊕ β)} {I : SymbolTable → Prop}
    (hI : ∀ t t', t.Evolves t' → I t → I t')
    (hbody : ∀ a s, s.table.Reachable → I s.table →
      Evolves c s (body a) fun _ t => t.level = s.table.level)
    (hs : s.table.Reachable) (hi : I s.table) (a : α) :
    Evolves c s (loop body a) fun _ t => t.level = s.table.level := by
  have hiterate : ∀ n a s, s.table.Reachable → I s.table →
      Evolves c s (iterate body n a) fun _ t => t.level = s.table.level := by
    intro n
    induction n with
    | zero => exact fun a s _ _ => ⟨.refl _, fun b s' hrun => absurd hrun runs_throw⟩
    | succ n ih =>
      intro a s hs hi
      refine (hbody a s hs hi).bind hs fun r s₁ hs₁ h₁ hl₁ => ?_
      rcases r with a' | b
      · exact (ih a' s₁ hs₁ (hI _ _ h₁ hi)).mono fun _ _ _ hl => hl.trans hl₁
      · exact .pure hl₁
  exact .read (hiterate _ a s hs hi)

end Evolves

namespace Evolving

variable {m m' : Production α}

/-- A production that leaves the table alone. -/
theorem still (h : ∀ s, (m.outcome c s).2.table = s.table) : Evolving c m := by
  refine fun s _ => ⟨by rw [h s]; exact .refl _, fun a s' hrun => ?_⟩
  have := h s
  rw [show m.outcome c s = (.ok a, s') from hrun] at this
  rw [this]

theorem pure (a : α) : Evolving c (pure a) := still fun _ => rfl

theorem bind {f : α → Production β} (hm : Evolving c m) (hf : ∀ a, Evolving c (f a)) :
    Evolving c (m >>= f) := by
  intro s hs
  refine (hm hs).bind hs fun a s₁ hs₁ _ hl₁ => (hf a hs₁).mono fun _ t _ hl => ?_
  exact hl.trans hl₁

theorem ite {p : Prop} [Decidable p] (hm : p → Evolving c m) (hm' : ¬p → Evolving c m') :
    Evolving c (if p then m else m') := by
  split
  · next h => exact hm h
  · next h => exact hm' h

theorem read {f : Setting → Production α} (hf : Evolving c (f c)) :
    Evolving c (MonadReader.read >>= f) := fun _ hs => .read (hf hs)

theorem composes : Composes c fun m => Evolving c m := ⟨still, bind, read⟩

theorem visits : Visits c fun m => Evolving c m := composes.visits

theorem loop {body : α → Production (α ⊕ β)} (hbody : ∀ a, Evolving c (body a)) (a : α) :
    Evolving c (loop body a) := visits.loop hbody a

/-! ### Tokens, reports and lookups -/

theorem peek : Evolving c peek := visits.peek

theorem check {k : Token.Kind} : Evolving c (check k) := visits.check

theorem get : Evolving c get := visits.get

theorem table : Evolving c table := visits.table

theorem advance : Evolving c advance := visits.advance

theorem report {p : Problem} {details : List String} : Evolving c (report p details) := composes.report

theorem reportIf {mistake : Prop} [Decidable mistake] {p : Problem} {details : List String} :
    Evolving c (reportIf mistake p details) := composes.reportIf

theorem expect {k : Token.Kind} : Evolving c (expect k) := visits.expect

theorem identifier : Evolving c identifier := visits.identifier

theorem literal : Evolving c literal := visits.literal

theorem entry {id : EntryId} : Evolving c (entry id) := visits.entry

theorem descriptor {t : TypeId} : Evolving c (descriptor t) := visits.descriptor

theorem find {name : String} : Evolving c (find name) := visits.find

theorem write {e : Emission Fault α} : Evolving c (write e) := visits.write

theorem emit {op : Opcode} {operands : List Int} : Evolving c (emit op operands) := visits.emit

theorem discard (hm : Evolving c m) : Evolving c (discard m) := visits.discard hm

theorem repeatWhile {body : Production Bool} (hbody : Evolving c body) :
    Evolving c (repeatWhile body) := visits.repeatWhile hbody

end Evolving

/-! ### Types -/

namespace Typing

/-- A known type makes a new array type known. -/
theorem arrayOf (hs : s.table.Reachable) {t : TypeId} (ht : t.IsKnown s.table) :
    Evolves c s (arrayOf t) fun ty t' => ty.IsKnown t' ∧ t'.level = s.table.level :=
  .of_runs (runs_arrayOf.2 ⟨rfl, rfl⟩) (.step (.arrayOf ht)) ⟨(hs.closed.arrayOf ht).2, rfl⟩

theorem namedType : Typing c namedType := by
  intro s hs
  refine (Evolving.identifier hs).bind hs fun name s₁ hs₁ _ hl₁ => ?_
  refine (Evolving.find hs₁).bind hs₁ fun id s₂ hs₂ _ hl₂ => ?_
  refine Evolves.bind (Q := fun e t => e.Closed t ∧ t.level = s.table.level) ⟨?_, ?_⟩ hs₂
    fun e s₃ hs₃ _ ⟨he, hl₃⟩ => ?_
  · exact (Evolving.entry hs₂).table
  · intro e s' hrun
    obtain ⟨he, rfl⟩ := runs_entry.1 hrun
    exact ⟨hs₂.closed.entryAt? he, hl₂.trans hl₁⟩
  refine .ite (fun _ => .pure ⟨he.type, hl₃⟩) fun _ => ?_
  exact (Evolving.reportIf hs₃).bind hs₃ fun _ s₄ hs₄ _ hl₄ =>
    .pure ⟨hs₄.closed.known_none, hl₄.trans hl₃⟩

theorem type : Typing c type := by
  intro s hs
  refine (namedType hs).bind hs fun t s₁ hs₁ _ ⟨ht, hl₁⟩ => ?_
  refine (Evolving.check hs₁).bind hs₁ fun _ s₂ hs₂ h₂ hl₂ => ?_
  refine .ite (fun _ => ?_) fun _ => .pure ⟨h₂.grows.type ht, hl₂.trans hl₁⟩
  refine (Evolving.advance hs₂).bind hs₂ fun _ s₃ hs₃ h₃ hl₃ => ?_
  refine (Evolving.expect hs₃).bind hs₃ fun _ s₄ hs₄ h₄ hl₄ => ?_
  refine (arrayOf hs₄ (((h₂.trans h₃).trans h₄).grows.type ht)).mono fun _ _ _ ⟨hty, hl⟩ => ⟨hty, ?_⟩
  rw [hl, hl₄, hl₃, hl₂, hl₁]

theorem resultType : Typing c resultType := by
  intro s hs
  refine (Evolving.check hs).bind hs fun _ s₁ hs₁ _ hl₁ => .ite (fun _ => ?_) fun _ => ?_
  · exact (Evolving.advance hs₁).bind hs₁ fun _ s₂ hs₂ _ hl₂ =>
      .pure ⟨hs₂.closed.known_none, hl₂.trans hl₁⟩
  · exact (type hs₁).mono fun _ _ _ ⟨hty, hl⟩ => ⟨hty, hl.trans hl₁⟩

end Typing

namespace Evolving

/-! ### Blocks -/

section

variable {E : Production Operand} (hE : Evolving c E)

include hE

theorem arrayCreation (hs : s.table.Reachable) {t : TypeId} (ht : t.IsKnown s.table) :
    Evolves c s (arrayCreation E t) fun _ t' => t'.level = s.table.level := by
  refine (advance hs).bind hs fun _ s₁ hs₁ h₁ hl₁ => ?_
  refine (visits.loadInteger hE (by rfl) hs₁).bind hs₁ fun _ s₂ hs₂ h₂ hl₂ => ?_
  refine (expect hs₂).bind hs₂ fun _ s₃ hs₃ h₃ hl₃ => ?_
  refine (write hs₃).bind hs₃ fun _ s₄ hs₄ h₄ hl₄ => ?_
  have ht₄ := (((h₁.trans h₂).trans h₃).trans h₄).grows.type ht
  refine (Typing.arrayOf hs₄ ht₄).bind hs₄ fun _ s₅ _ _ ⟨_, hl₅⟩ => .pure ?_
  rw [hl₅, hl₄, hl₃, hl₂, hl₁]

theorem creation : Evolving c (creation E) := by
  intro s hs
  refine (Typing.namedType hs).bind hs fun t s₁ hs₁ _ ⟨ht, hl₁⟩ => ?_
  refine (check hs₁).bind hs₁ fun _ s₂ hs₂ h₂ hl₂ => .ite (fun _ => ?_) fun _ => ?_
  · exact (arrayCreation hE hs₂ (h₂.grows.type ht)).mono fun _ _ _ hl => (hl.trans hl₂).trans hl₁
  · have hobject : Evolving c (objectCreation t) := bind descriptor fun d =>
      ite (fun _ => bind write fun _ => pure _) fun _ => bind reportIf fun _ => pure _
    exact (hobject hs₂).mono fun _ _ _ hl => (hl.trans hl₂).trans hl₁

end

theorem visitsBlocks : VisitsBlocks c fun m => Evolving c m := { visits with creation := creation }

theorem block : Evolving c block := visitsBlocks.block

end Evolving

end Production

end MicroJava
