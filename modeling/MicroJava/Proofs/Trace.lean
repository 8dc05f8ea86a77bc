import MicroJava.Proofs.Effect
import MicroJava.Proofs.Table

/-!
# What a block does to a session

Between the first and the last brace of a method, a session changes in seven ways only (`Move`). With
each of them goes the depth of the expression stack at the end of the code, which is no longer known
after a mistake. `Steps` are any number of such moves. `Emits F P m Q` says that a run of `m` consists
of such moves, and leads from depths that `P` allows to depths that `Q` allows; it is composed like the
productions themselves.
-/

namespace MicroJava

namespace Item

/-- The assembly with the item behind its code. -/
def Appends (a : Assembly) (i : Item) (a' : Assembly) : Prop :=
  match i with
  | .plain op operands => a' = a.emit op operands
  | .jump op l => Emission.Succeeds (do Emission.emit op; Emission.reference l) a () a'
  | .call target => Emission.Succeeds (Emission.call target) a () a'

end Item

theorem Lays.append {a a' : Assembly} {is : List Item} {i : Item} (h : Lays a is)
    (hi : i.WellFormed) (ha : i.Appends a a') :
    Lays a' (is ++ [i]) ∧ a'.address? = a.address? ∧ a'.labels.size = a.labels.size := by
  cases i with
  | plain op operands =>
    obtain rfl := ha
    exact ⟨h.emit hi, rfl, rfl⟩
  | jump op l => exact h.jump hi ha
  | call target => exact h.call ha

/-- What stays the same while the block of a method, or a part of it, is read. -/
structure Frame where
  setting : Setting
  entries : Array Entry
  /-- The first label that the method can use. -/
  firstLabel : Nat
  /-- The method gives a value. -/
  returns : Bool
  /-- The part may jump, be jumped to, and return. -/
  branches : Bool

namespace Frame

/-- The methods that the block may call. -/
def callees (F : Frame) : Callees := fun address p b =>
  ∃ (id : EntryId) (e : Entry) (m : Method), F.entries[id.index]? = some e ∧
    e.method? = some m ∧ Builtin.ofId? id = none ∧ m.address = address ∧ m.parameters = p ∧
      b = decide (e.type ≠ .none)

end Frame

/-- The item may stand in the block of a method. -/
structure Item.Within (F : Frame) (i : Item) : Prop where
  wellFormed : i.WellFormed
  enter : i.opcode ≠ .enter
  label : ∀ op l, i = .jump op l → F.firstLabel ≤ l.index
  callee : ∀ target, i = .call target → ∃ p b, F.callees target p b
  straight : F.branches = false → i.FallsThrough

/-- The session belongs to the block. -/
structure Frame.Covers (F : Frame) (s : Session) : Prop where
  entries : s.table.entries = F.entries
  labels : F.firstLabel ≤ s.assembly.labels.size
  returns : F.returns = decide (s.returnType ≠ .none)
  named : s.Named
  sound : s.table.Sound
  predeclared : s.table.Predeclared

/-! ### Moves -/

/-- One change of a session in a block, with the depth of the stack, as long as it is known. -/
inductive Move (F : Frame) : Session → Option Nat → Session → Option Nat → Prop where
  | advance {s : Session} {x : Option Nat} : Move F s x s.advance x
  | report {s : Session} {x : Option Nat} (p : Problem) (details : List String) :
    Move F s x (s.report F.setting.options.reportDistance p details) none
  | resume {s : Session} {x : Option Nat} : Move F s x s.resume x
  | arrayOf {s : Session} {x : Option Nat} (t : TypeId) :
    Move F s x { s with table := (s.table.arrayOf t).2 } x
  | newLabel {s : Session} {x : Option Nat} (hb : F.branches) :
    Move F s x { s with assembly := s.assembly.newLabel.2 } x
  /-- A label stands where the stack is empty. -/
  | define {s : Session} {x : Option Nat} {l : Label} {assembly : Assembly} :
    F.branches → F.firstLabel ≤ l.index → (∀ n, x = some n → n = 0) →
    (Emission.define l).Succeeds s.assembly () assembly → Move F s x { s with assembly } x
  | write {s : Session} {x y : Option Nat} {i : Item} {assembly : Assembly} :
    i.Within F → Option.Rel (i.Effect F.callees F.returns) x y → i.Appends s.assembly assembly →
    Move F s x { s with assembly } y

/-- Any number of moves. -/
inductive Steps (F : Frame) : Session → Option Nat → Session → Option Nat → Prop where
  | refl {s : Session} {x : Option Nat} : Steps F s x s x
  | snoc {s s₁ s' : Session} {x x₁ y : Option Nat} :
    Steps F s x s₁ x₁ → Move F s₁ x₁ s' y → Steps F s x s' y

variable {F : Frame} {s s' s₁ : Session} {x x₁ y : Option Nat}

theorem Move.steps (h : Move F s x s' y) : Steps F s x s' y := .snoc .refl h

theorem Steps.trans (h : Steps F s x s₁ x₁) (h' : Steps F s₁ x₁ s' y) : Steps F s x s' y := by
  induction h' with
  | refl => exact h
  | snoc _ hm ih => exact .snoc (ih h) hm

theorem Item.Appends.kept {a a' : Assembly} {i : Item} (h : i.Appends a a') :
    a'.labels.size = a.labels.size ∧ a'.entry = a.entry := by
  cases i with
  | plain op operands =>
    obtain rfl := h
    exact ⟨rfl, rfl⟩
  | jump op l =>
    simp only [Item.Appends, Emission.succeeds_bind, Emission.succeeds_emit] at h
    obtain ⟨_, _, rfl, h⟩ := h
    obtain ⟨hsize, hentry, -⟩ := Emission.kept_reference h
    rw [hsize, hentry]
    exact ⟨rfl, rfl⟩
  | call target =>
    obtain ⟨-, rfl⟩ := Emission.succeeds_call.1 h
    exact ⟨rfl, rfl⟩

/-- The tokens and the symbols of a session with other code are those of the session. -/
theorem Frame.Covers.withAssembly (hc : F.Covers s) {assembly : Assembly}
    (hsize : s.assembly.labels.size ≤ assembly.labels.size) :
    F.Covers { s with assembly } :=
  ⟨hc.entries, Nat.le_trans hc.labels hsize, hc.returns, ⟨hc.named.1, hc.named.2, hc.named.3⟩,
    hc.sound, hc.predeclared⟩

theorem Move.covers (h : Move F s x s' y) (hc : F.Covers s) : F.Covers s' := by
  have hnamed : s.Named := hc.named
  cases h with
  | advance =>
    exact ⟨hc.entries, hc.labels, hc.returns, hnamed.advance, hc.sound, hc.predeclared⟩
  | report p details =>
    exact ⟨hc.entries, hc.labels, hc.returns, ⟨hnamed.1, hnamed.2, hnamed.3⟩, hc.sound,
      hc.predeclared⟩
  | resume =>
    exact ⟨hc.entries, hc.labels, hc.returns, ⟨hnamed.1, hnamed.2, hnamed.3⟩, hc.sound,
      hc.predeclared⟩
  | arrayOf t =>
    exact ⟨hc.entries, hc.labels, hc.returns, ⟨hnamed.1, hnamed.2, hnamed.3⟩,
      hc.sound.arrayOf t, hc.predeclared⟩
  | newLabel => exact hc.withAssembly (by simp [Assembly.newLabel])
  | define _ _ _ hs => exact hc.withAssembly (Nat.le_of_eq (kept_define hs).1.symm)
  | write _ _ hs => exact hc.withAssembly (Nat.le_of_eq hs.kept.1.symm)

theorem Steps.covers (h : Steps F s x s' y) (hc : F.Covers s) : F.Covers s' := by
  induction h with
  | refl => exact hc
  | snoc _ hm ih => exact hm.covers ih

theorem Move.table (h : Move F s x s' y) : ∃ types, s'.table = { s.table with types } := by
  cases h <;> exact ⟨_, rfl⟩

/-- A block declares nothing. -/
theorem Steps.table (h : Steps F s x s' y) : ∃ types, s'.table = { s.table with types } := by
  induction h with
  | refl => exact ⟨_, rfl⟩
  | snoc _ hm ih =>
    obtain ⟨types, ht⟩ := ih
    obtain ⟨types', ht'⟩ := hm.table
    exact ⟨types', by rw [ht', ht]⟩

/-- After a mistake, the depth of the stack stays unknown. -/
theorem Steps.eq_none (h : Steps F s x s' y) (hx : x = none) : y = none := by
  induction h with
  | refl => exact hx
  | snoc _ hm ih =>
    obtain rfl := ih hx
    cases hm with
    | write _ hrel _ =>
      cases hrel
      rfl
    | _ => rfl

theorem Move.mistakes (h : Move F s x s' y) :
    s.mistakes ≤ s'.mistakes ∧ (x ≠ none → y = none → s.mistakes < s'.mistakes) := by
  cases h with
  | report p details => simp
  | write _ hrel _ =>
    refine ⟨Nat.le_refl _, fun hx hy => ?_⟩
    cases hrel with
    | some _ => simp at hy
    | none => exact absurd rfl hx
  | advance => exact ⟨Nat.le_of_eq s.mistakes_advance.symm, fun hx hy => absurd hy hx⟩
  | resume => exact ⟨Nat.le_of_eq s.mistakes_resume.symm, fun hx hy => absurd hy hx⟩
  | _ => exact ⟨Nat.le_refl _, fun hx hy => absurd hy hx⟩

/-- The depth of the stack gets unknown only by a mistake. -/
theorem Steps.mistakes (h : Steps F s x s' y) :
    s.mistakes ≤ s'.mistakes ∧ (x ≠ none → y = none → s.mistakes < s'.mistakes) := by
  induction h with
  | refl => exact ⟨Nat.le_refl _, fun hx hy => absurd hy hx⟩
  | @snoc s₁ s' x x₁ y _ hm ih =>
    refine ⟨Nat.le_trans ih.1 hm.mistakes.1, fun hx hy => ?_⟩
    by_cases hx₁ : x₁ = none
    · exact Nat.lt_of_lt_of_le (ih.2 hx hx₁) hm.mistakes.1
    · exact Nat.lt_of_le_of_lt ih.1 (hm.mistakes.2 hx₁ hy)

/-! ### Productions that move -/

/-- The stack is `n` values deep and `p` holds, unless there was a mistake. -/
def Holds (n : Nat) (p : Prop) (x : Option Nat) : Prop := ∀ k, x = some k → k = n ∧ p

@[simp] theorem holds_none {n : Nat} {p : Prop} : Holds n p none := fun _ h => by simp at h

@[simp] theorem holds_some {n k : Nat} {p : Prop} : Holds n p (some k) ↔ k = n ∧ p := by
  simp [Holds]

theorem Holds.imp {n : Nat} {p q : Prop} (h : Holds n p x) (hpq : p → q) : Holds n q x :=
  fun k hk => ⟨(h k hk).1, hpq (h k hk).2⟩

/-- After a mistake, everything holds. -/
theorem Holds.of_false {n k : Nat} {p : Prop} (h : Holds n False x) : Holds k p x :=
  fun d hd => (h d hd).2.elim

/-- A run of the production in the block moves the session, and leads from depths that `P` allows to
depths that `Q` allows. -/
def Emits (F : Frame) {α : Type} (P : Option Nat → Prop) (m : Production α)
    (Q : α → Option Nat → Prop) : Prop :=
  ∀ ⦃s a s' x⦄, F.Covers s → m.Runs F.setting s a s' → P x → ∃ y, Steps F s x s' y ∧ Q a y

namespace Emits

open Production

variable {α β : Type} {P P' : Option Nat → Prop} {m : Production α} {Q Q' : α → Option Nat → Prop}

theorem pure {a : α} (h : ∀ x, P x → Q a x) : Emits F P (pure a) Q := by
  intro s a' s' x _ hrun hx
  obtain ⟨rfl, rfl⟩ := runs_pure.1 hrun
  exact ⟨x, .refl, h x hx⟩

theorem bind {f : α → Production β} {R : β → Option Nat → Prop} (hm : Emits F P m Q)
    (hf : ∀ a, Emits F (Q a) (f a) R) : Emits F P (m >>= f) R := by
  intro s b s' x hc hrun hx
  obtain ⟨a, s₁, hrun₁, hrun₂⟩ := runs_bind.1 hrun
  obtain ⟨y, hsteps, hy⟩ := hm hc hrun₁ hx
  obtain ⟨z, hsteps', hz⟩ := hf a (hsteps.covers hc) hrun₂ hy
  exact ⟨z, hsteps.trans hsteps', hz⟩

theorem throw {f : Fault} : Emits F P (throw f : Production α) Q :=
  fun _ _ _ _ _ hrun => absurd hrun runs_throw

theorem pre (hm : Emits F P m Q) (h : ∀ x, P' x → P x) : Emits F P' m Q :=
  fun _ _ _ _ hc hrun hx => hm hc hrun (h _ hx)

theorem post (hm : Emits F P m Q) (h : ∀ a x, Q a x → Q' a x) : Emits F P m Q' := by
  intro s a s' x hc hrun hx
  obtain ⟨y, hsteps, hy⟩ := hm hc hrun hx
  exact ⟨y, hsteps, h a y hy⟩

theorem map {f : α → β} {R : β → Option Nat → Prop} (hm : Emits F P m fun a => R (f a)) :
    Emits F P (f <$> m) R := by
  intro s b s' x hc hrun hx
  obtain ⟨a, hrun₁, rfl⟩ := runs_map.1 hrun
  exact hm hc hrun₁ hx

theorem discard (hm : Emits F P m fun _ => P') : Emits F P (discard m) fun _ => P' := by
  intro s u s' x hc hrun hx
  obtain ⟨a, hrun⟩ := runs_discard.1 hrun
  exact hm hc hrun hx

/-- What does not depend on the depth is known from here on. -/
theorem and_left {p : Prop} (hm : p → Emits F P m Q) : Emits F (fun x => p ∧ P x) m Q :=
  fun _ _ _ _ hc hrun hx => hm hx.1 hc hrun hx.2

theorem ite {p : Prop} [Decidable p] {m' : Production α} (hm : p → Emits F P m Q)
    (hm' : ¬p → Emits F P m' Q) : Emits F P (if p then m else m') Q := by
  split
  · next h => exact hm h
  · next h => exact hm' h

/-- What is known of the sessions of the block may be used. -/
theorem of_covers (hm : ∀ s, F.Covers s → Emits F P m Q) : Emits F P m Q :=
  fun _ _ _ _ hc hrun hx => hm _ hc hc hrun hx

/-- A production that only looks. -/
theorem look {q : α → Prop}
    (h : ∀ s a s', F.Covers s → m.Runs F.setting s a s' → s' = s ∧ q a) :
    Emits F P m fun a x => q a ∧ P x := by
  intro s a s' x hc hrun hx
  obtain ⟨rfl, ha⟩ := h s a s' hc hrun
  exact ⟨x, .refl, ha, hx⟩

theorem move (h : ∀ s a s' x, F.Covers s → m.Runs F.setting s a s' → P x →
    ∃ y, Move F s x s' y ∧ Q a y) : Emits F P m Q := by
  intro s a s' x hc hrun hx
  obtain ⟨y, hm, hy⟩ := h s a s' x hc hrun hx
  exact ⟨y, hm.steps, hy⟩

/-! #### Tokens and reports -/

theorem peek : Emits F P peek fun _ => P :=
  (look fun _ _ _ _ hrun => ⟨(runs_peek.1 hrun).2, trivial⟩).post fun _ _ => And.right

theorem check {k : Token.Kind} : Emits F P (check k) fun _ => P :=
  (look fun _ _ _ _ hrun => ⟨(runs_check.1 hrun).2, trivial⟩).post fun _ _ => And.right

theorem checkAny {ks : Token.KindSet} : Emits F P (checkAny ks) fun _ => P :=
  (look fun _ _ _ _ hrun => ⟨(runs_checkAny.1 hrun).2, trivial⟩).post fun _ _ => And.right

theorem advance : Emits F P advance fun _ => P :=
  move fun _ _ _ x _ hrun hx => ⟨x, runs_advance.1 hrun ▸ .advance, hx⟩

theorem literal : Emits F P literal fun _ => P :=
  move fun _ _ _ x _ hrun hx => ⟨x, (runs_literal.1 hrun).2 ▸ .advance, hx⟩

theorem resume : Emits F P resume fun _ => P :=
  move fun _ _ _ x _ hrun hx => ⟨x, runs_resume.1 hrun ▸ .resume, hx⟩

theorem report {p : Problem} {details : List String} {n : Nat} {q : Prop} :
    Emits F P (report p details) fun _ => Holds n q :=
  move fun _ _ _ _ _ hrun _ => ⟨none, runs_report.1 hrun ▸ .report p details, holds_none⟩

theorem reportIf {mistake : Prop} [Decidable mistake] {p : Problem} {details : List String}
    {n : Nat} {q : Prop} :
    Emits F (Holds n q) (reportIf mistake p details) fun _ => Holds n (¬mistake ∧ q) := by
  refine .ite (fun h => .report) fun h => .pure fun x hx => hx.imp fun hq => ⟨h, hq⟩

theorem expect {k : Token.Kind} {n : Nat} {q : Prop} :
    Emits F (Holds n q) (expect k) fun _ => Holds n q :=
  .bind .check fun _ => .ite (fun _ => .advance) fun _ => .report

theorem takeIf {k : Token.Kind} : Emits F P (takeIf k) fun _ => P :=
  .bind .check fun _ => .ite (fun _ => .advance) fun _ => .pure fun _ => id

theorem identifier {n : Nat} {q : Prop} :
    Emits F (Holds n q) identifier fun name => Holds n (name ≠ "" ∧ q) := by
  intro s name s' x hc hrun hx
  rcases runs_identifier.1 hrun with ⟨hk, rfl, rfl⟩ | ⟨-, -, rfl⟩
  · exact ⟨x, Move.advance.steps, hx.imp fun hq => ⟨hc.named.current hk, hq⟩⟩
  · exact ⟨none, (Move.report _ _).steps, holds_none⟩

/-! #### Loops -/

theorem loop {body : α → Production (α ⊕ β)} {I : α → Option Nat → Prop}
    {R : β → Option Nat → Prop}
    (hbody : ∀ a, Emits F (I a) (body a) fun r => Sum.elim I R r) (a : α) :
    Emits F (I a) (loop body a) R := by
  intro s b s' x hc hrun hx
  replace hrun := turns_of_runs_loop hrun
  induction hrun generalizing x with
  | last h =>
    obtain ⟨y, hsteps, hy⟩ := hbody _ hc h hx
    exact ⟨y, hsteps, hy⟩
  | next h _ ih =>
    obtain ⟨y, hsteps, hy⟩ := hbody _ hc h hx
    obtain ⟨z, hsteps', hz⟩ := ih (hsteps.covers hc) hy
    exact ⟨z, hsteps.trans hsteps', hz⟩

theorem repeatWhile {body : Production Bool} (hbody : Emits F P body fun _ => P) :
    Emits F P (repeatWhile body) fun _ => P :=
  loop (fun _ => .bind hbody fun b => .pure fun x hx => by cases b <;> exact hx) ()

end Emits

end MicroJava
