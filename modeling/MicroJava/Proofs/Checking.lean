import MicroJava.Proofs.Denoting

/-!
# Checking while reading

What the productions do with the terminals of a tree (`World.Checks`): they take them without a slip,
whatever the tree means, and report no mistake exactly if the tree keeps the static rules. The parts of a
production are checked one after the other (`World.Checks.bind`); what the rules say of the first part is
known where the second is checked.

Chains of operators are read by a loop that extends the tree read so far (`World.Leads`), lists by a loop
that reads their members in order (`World.Checks.turns_next`).
-/

namespace MicroJava

open Static

/-- The kind of the next token, where these terminals are ahead. -/
def nextKind : List Terminal → Token.Kind
  | [] => .endOfFile
  | t :: _ => t.kind

@[simp] theorem nextKind_cons (t : Terminal) (ts : List Terminal) : nextKind (t :: ts) = t.kind :=
  rfl

theorem Session.kind_eq (s : Session) : s.current.kind = nextKind s.ahead := by
  rcases h : s.ahead with _ | ⟨t, ts⟩
  · exact Session.current_of_nil h
  · exact (Session.current_of_ahead h).2.1

/-- A name among the terminals has a spelling. -/
theorem Session.Named.name {s : Session} {n : String} (hn : s.Named)
    (h : s.current.terminal = .name n) : n ≠ "" := by
  have hk : s.current.kind = .identifier := by rw [← Token.kind_terminal, h, Terminal.kind]
  simp only [Token.terminal, hk, Terminal.name.injEq] at h
  exact h ▸ hn.current hk

/-- The terminals in front of the rest are taken, without a slip. -/
structure Takes (rest : List Terminal) (s s' : Session) : Prop where
  named : s'.Named
  ahead : s'.ahead = rest
  slips : s'.slips = s.slips
  mistakes : s.mistakes ≤ s'.mistakes

theorem Takes.trans {ts rest : List Terminal} {s s₁ s' : Session} (h : Takes ts s s₁)
    (h' : Takes rest s₁ s') : Takes rest s s' :=
  ⟨h'.named, h'.ahead, h'.slips.trans h.slips, Nat.le_trans h.mistakes h'.mistakes⟩

theorem Takes.advance {t : Terminal} {rest : List Terminal} {s : Session} (hn : s.Named)
    (h : s.ahead = t :: rest) : Takes rest s s.advance := by
  have hstep := Session.ahead_advance hn (Session.current_of_ahead h).2.2
  rw [h] at hstep
  exact ⟨hn.advance, (List.cons.inj hstep).2.symm, by simp, by simp⟩

/-- Besides, nothing is declared. -/
structure Reaches (rest : List Terminal) (s s' : Session) : Prop extends Takes rest s s' where
  table : s.table.Widens s'.table
  returnType : s'.returnType = s.returnType

namespace Reaches

variable {c : Setting} {ts rest : List Terminal} {s s₁ s' : Session}

theorem trans (h : Reaches ts s s₁) (h' : Reaches rest s₁ s') : Reaches rest s s' :=
  ⟨h.toTakes.trans h'.toTakes, h.table.trans h'.table, h'.returnType.trans h.returnType⟩

theorem advance {t : Terminal} (hn : s.Named) (h : s.ahead = t :: rest) :
    Reaches rest s s.advance :=
  ⟨.advance hn h, .refl _, rfl⟩

theorem of_acts (h : Acts c s s') (hn : s.Named) : Reaches s.ahead s s' :=
  ⟨⟨h.still.named hn, h.still.ahead, h.still.slips, h.still.mistakes⟩, h.table, h.returnType⟩

end Reaches

theorem Session.Agrees.reaches {ρ : Classes} {Γ : Context} {rest : List Terminal} {s s' : Session}
    (h : s.Agrees ρ Γ) (h' : Reaches rest s s') : s'.Agrees ρ Γ where
  table := h.table.widens h'.table
  result := by
    rw [h'.returnType]
    exact h.result.mono h'.table.below.classes (h'.table.below (ρ := ρ)).arrays

/-- The types that have names: those of variable arrays are written with brackets. -/
def Static.Context.NamesTypes (Γ : Context) : Prop :=
  ∀ n τ, Γ.lookup n = some (.type τ) → τ = .int ∨ τ = .char ∨ ∃ k, τ = .object k

/-- What a tree is read in: what is declared there, and the table behind a place further on. -/
structure World where
  classes : Classes
  context : Context
  table : SymbolTable
  models : table.types.Models classes
  named : context.NamesTypes

namespace World

variable (w : World)

/-- The handle has the type. -/
def HasType (τ : Ty) (t : TypeId) : Prop := w.table.types.HasType w.classes τ t

/-- The operand is that of the value. -/
def Is (x : Operand) (v : Value) : Prop := w.table.Denotes w.classes x v

/-- The session agrees with what is declared, and is not behind the place further on. -/
structure Agrees (s s' : Session) : Prop where
  session : s.Agrees w.classes w.context
  widens : s'.table.Widens w.table

/-- What lies between two sessions: where `A` holds, there is no new mistake exactly if there is some
`v` that the rules allow, and the result is then that of `v`. -/
structure Checked (A : Prop) (rest : List Terminal) {α V : Type} (J : V → Prop) (D : α → V → Prop)
    (s : Session) (a : α) (s' : Session) : Prop where
  reaches : Reaches rest s s'
  sound : A → w.Agrees s s' → s'.mistakes = s.mistakes → ∃ v, J v
  complete : A → w.Agrees s s' → ∀ v, J v → s'.mistakes = s.mistakes ∧ D a v

/-- Every run that starts in front of the terminals `xs`, where what follows is of a kind that `F`
allows, takes them and checks them. Whatever they mean, the result is one that `P` allows. -/
def Checks (A : Prop) {α V : Type} (run : Session → α → Session → Prop) (xs : List Terminal)
    (F : Token.Kind → Prop) (P : α → Prop) (J : V → Prop) (D : α → V → Prop) : Prop :=
  ∀ ⦃s a s' rest⦄, run s a s' → s.Named → s.ahead = xs ++ rest → F (nextKind rest) →
    P a ∧ w.Checked A rest J D s a s'

/-- The production gives the operand of a value that the rules allow. -/
def Gives (c : Setting) (A : Prop) (m : Production Operand) (xs : List Terminal)
    (F : Token.Kind → Prop) (J : Value → Prop) : Prop :=
  w.Checks A (Production.Runs c m) xs F (fun _ => True) J w.Is

/-- The production makes sure that the rules allow what it reads. -/
def Ensures (c : Setting) (A : Prop) {α : Type} (m : Production α) (xs : List Terminal)
    (F : Token.Kind → Prop) (φ : Prop) : Prop :=
  w.Checks A (Production.Runs c m) xs F (fun _ => True) (fun _ : Unit => φ) fun _ _ => True

/-- The turns of a loop make sure that the rules allow what they read. -/
def Repeating (c : Setting) (A : Prop) (m : Production Bool) (xs : List Terminal)
    (F : Token.Kind → Prop) (φ : Prop) : Prop :=
  w.Checks A (fun s (_ : Unit) s' => Production.Repeats c m s s') xs F (fun _ => True)
    (fun _ : Unit => φ) fun _ _ => True

variable {w} {c : Setting} {A B : Prop} {α β V U : Type} {rest : List Terminal}
  {s s₁ s' : Session} {a : α} {b : β}

theorem Checked.bind [Nonempty V] {ts : List Terminal} {I : V → Prop} {S : α → V → Prop}
    {J : V → U → Prop} {D : β → U → Prop} (h₁ : w.Checked A ts I S s a s₁)
    (h₂ : ∀ v, w.Checked (A ∧ I v ∧ S a v) rest (J v) D s₁ b s') :
    w.Checked A rest (fun u => ∃ v, I v ∧ J v u) D s b s' := by
  obtain ⟨v₀⟩ := ‹Nonempty V›
  have hr := (h₂ v₀).reaches
  have hle₁ := h₁.reaches.mistakes
  have hle₂ := hr.mistakes
  have hagrees : w.Agrees s s' → w.Agrees s s₁ ∧ w.Agrees s₁ s' := fun hw =>
    ⟨⟨hw.session, hr.table.trans hw.widens⟩, ⟨hw.session.reaches h₁.reaches, hw.widens⟩⟩
  refine ⟨h₁.reaches.trans hr, fun hA hw hm => ?_, ?_⟩
  · obtain ⟨hw₁, hw₂⟩ := hagrees hw
    obtain ⟨v, hv⟩ := h₁.sound hA hw₁ (by omega)
    obtain ⟨-, hd⟩ := h₁.complete hA hw₁ v hv
    obtain ⟨u, hu⟩ := (h₂ v).sound ⟨hA, hv, hd⟩ hw₂ (by omega)
    exact ⟨u, v, hv, hu⟩
  · rintro hA hw u ⟨v, hv, hu⟩
    obtain ⟨hw₁, hw₂⟩ := hagrees hw
    obtain ⟨hm₁, hd₁⟩ := h₁.complete hA hw₁ v hv
    obtain ⟨hm₂, hd⟩ := (h₂ v).complete ⟨hA, hv, hd₁⟩ hw₂ u hu
    exact ⟨hm₂.trans hm₁, hd⟩

/-- Where the rules allow the same. -/
theorem Checked.conseq {J : V → Prop} {D : α → V → Prop} {J' : U → Prop} {T : α → U → Prop}
    (h : w.Checked A rest J D s a s') (hA : B → A) (hsound : B → ∀ v, J v → ∃ u, J' u)
    (hcomplete : B → ∀ u, J' u → ∃ v, J v ∧ ∀ a, D a v → T a u) :
    w.Checked B rest J' T s a s' := by
  refine ⟨h.reaches, fun hB hw hm => ?_, fun hB hw u hu => ?_⟩
  · obtain ⟨v, hv⟩ := h.sound (hA hB) hw hm
    exact hsound hB v hv
  · obtain ⟨v, hv, hd⟩ := hcomplete hB u hu
    obtain ⟨hm, ha⟩ := h.complete (hA hB) hw v hv
    exact ⟨hm, hd a ha⟩

namespace Checks

open Production

variable {run : Session → α → Session → Prop} {xs ys : List Terminal} {F H : Token.Kind → Prop}
  {P R : α → Prop} {Q : β → Prop} {J I : V → Prop} {D S : α → V → Prop} {m : Production α}
  {f : α → Production β} {K : U → Prop} {E : β → U → Prop}

theorem conseq {J' : U → Prop} {T : α → U → Prop} {P' : α → Prop} {F' : Token.Kind → Prop}
    (h : w.Checks A run xs F P J D) (hsound : B → ∀ v, J v → ∃ u, J' u)
    (hcomplete : B → ∀ u, J' u → ∃ v, J v ∧ ∀ a, D a v → T a u) (hA : B → A)
    (hF : ∀ k, F' k → F k) (hP : ∀ a, P a → P' a) : w.Checks B run xs F' P' J' T := by
  intro s a s' rest hrun hn hahead hf
  obtain ⟨hp, hchecked⟩ := h hrun hn hahead (hF _ hf)
  exact ⟨hP a hp, hchecked.conseq hA hsound hcomplete⟩

/-- Where the rules allow the same. -/
theorem post {J' : U → Prop} {T : α → U → Prop} (h : w.Checks A run xs F P J D)
    (hsound : A → ∀ v, J v → ∃ u, J' u)
    (hcomplete : A → ∀ u, J' u → ∃ v, J v ∧ ∀ a, D a v → T a u) :
    w.Checks A run xs F P J' T :=
  h.conseq hsound hcomplete id (fun _ => id) fun _ => id

theorem iff {J' : V → Prop} (h : w.Checks A run xs F P J D) (hJ : A → ∀ v, J v ↔ J' v) :
    w.Checks A run xs F P J' D :=
  h.post (fun hA v hv => ⟨v, (hJ hA v).1 hv⟩) fun hA v hv => ⟨v, (hJ hA v).2 hv, fun _ => id⟩

theorem weaken (h : w.Checks A run xs F P J D) (hA : B → A) : w.Checks B run xs F P J D :=
  h.conseq (fun _ v hv => ⟨v, hv⟩) (fun _ v hv => ⟨v, hv, fun _ => id⟩) hA (fun _ => id)
    fun _ => id

theorem follow {F' : Token.Kind → Prop} (h : w.Checks A run xs F P J D)
    (hF : ∀ k, F' k → F k) : w.Checks A run xs F' P J D :=
  h.conseq (fun _ v hv => ⟨v, hv⟩) (fun _ v hv => ⟨v, hv, fun _ => id⟩) id hF fun _ => id

/-- Nothing is left to read or to check. -/
theorem ret (hP : P a) (hsound : A → ∃ v, J v) (hcomplete : A → ∀ v, J v → D a v) :
    w.Checks A (Runs c (Pure.pure a)) [] F P J D := by
  intro s a' s' rest hrun hn hahead _
  obtain ⟨rfl, rfl⟩ := runs_pure.1 hrun
  exact ⟨hP, ⟨⟨hn, hahead, rfl, Nat.le_refl _⟩, .refl _, rfl⟩, fun hA _ _ => hsound hA,
    fun hA _ v hv => ⟨rfl, hcomplete hA v hv⟩⟩

theorem bind [Nonempty V] {K : V → U → Prop} (hm : w.Checks A (Runs c m) xs H R I S)
    (hf : ∀ a v, R a → w.Checks (A ∧ I v ∧ S a v) (Runs c (f a)) ys F Q (K v) E)
    (hF : ∀ rest, F (nextKind rest) → H (nextKind (ys ++ rest))) :
    w.Checks A (Runs c (m >>= f)) (xs ++ ys) F Q (fun u => ∃ v, I v ∧ K v u) E := by
  intro s b s' rest hrun hn hahead hrest
  obtain ⟨v₀⟩ := ‹Nonempty V›
  obtain ⟨a, s₁, h₁, h₂⟩ := runs_bind.1 hrun
  rw [List.append_assoc] at hahead
  obtain ⟨hp, hchecked⟩ := hm h₁ hn hahead (hF rest hrest)
  have hsecond := fun v => hf a v hp h₂ hchecked.reaches.named hchecked.reaches.ahead hrest
  exact ⟨(hsecond v₀).1, hchecked.bind fun v => (hsecond v).2⟩

/-- What is known everywhere is known here. -/
theorem anywhere (h : w.Checks True run xs F P J D) : w.Checks A run xs F P J D :=
  h.weaken fun _ => trivial

/-- The result is passed on in another form. -/
theorem map {g : α → β} {T : β → V → Prop} (hm : w.Checks A (Runs c m) xs F P J D)
    (hP : ∀ a, P a → Q (g a)) (hD : ∀ a v, D a v → T (g a) v) :
    w.Checks A (Runs c (do return g (← m))) xs F Q J T := by
  intro s b s' rest hrun hn hahead hrest
  obtain ⟨a, s₁, hrun, hret⟩ := runs_bind.1 hrun
  obtain ⟨rfl, rfl⟩ := runs_pure.1 hret
  obtain ⟨hp, hchecked⟩ := hm hrun hn hahead hrest
  exact ⟨hP a hp, hchecked.reaches, hchecked.sound, fun hA hw v hv =>
    (hchecked.complete hA hw v hv).imp id (hD a v)⟩

theorem discarded (hm : w.Checks A (Runs c m) xs F P J D) :
    w.Checks A (Runs c (discard m)) xs F (fun _ => True) J fun _ _ => True := by
  intro s u s' rest hrun hn hahead hrest
  obtain ⟨a, hrun⟩ := runs_discard.1 hrun
  obtain ⟨-, hchecked⟩ := hm hrun hn hahead hrest
  exact ⟨trivial, hchecked.reaches, hchecked.sound, fun hA hw v hv =>
    (hchecked.complete hA hw v hv).imp id fun _ => trivial⟩

/-- An action in front of reading. -/
theorem act [Nonempty V] {K : V → U → Prop}
    (hm : w.Checks A (Runs c m) [] (fun _ => True) R I S)
    (hf : ∀ a v, R a → w.Checks (A ∧ I v ∧ S a v) (Runs c (f a)) ys F Q (K v) E) :
    w.Checks A (Runs c (m >>= f)) ys F Q (fun u => ∃ v, I v ∧ K v u) E :=
  bind hm hf fun _ _ => trivial

/-- The first part ensures what the rules want of it, and the rest is checked where that holds. -/
theorem ensure {φ : Prop} {S : α → Unit → Prop}
    (hm : w.Checks A (Runs c m) xs H R (fun _ : Unit => φ) S)
    (hf : ∀ a, R a → w.Checks (A ∧ φ ∧ S a ()) (Runs c (f a)) ys F Q K E)
    (hF : ∀ rest, F (nextKind rest) → H (nextKind (ys ++ rest))) :
    w.Checks A (Runs c (m >>= f)) (xs ++ ys) F Q (fun u => φ ∧ K u) E :=
  (hm.bind (K := fun _ => K) (fun a _ ha => hf a ha) hF).iff fun _ u => by simp

/-- An action that ensures what the rules want, in front of reading. -/
theorem ensureHere {φ : Prop} {S : α → Unit → Prop}
    (hm : w.Checks A (Runs c m) [] (fun _ => True) R (fun _ : Unit => φ) S)
    (hf : ∀ a, R a → w.Checks (A ∧ φ ∧ S a ()) (Runs c (f a)) ys F Q K E) :
    w.Checks A (Runs c (m >>= f)) ys F Q (fun u => φ ∧ K u) E :=
  ensure hm hf fun _ _ => trivial

theorem of_acts (hacts : Keeps c (Acts c) m)
    (hm : ∀ s a s', Runs c m s a s' → P a ∧ (A → w.Agrees s s' →
      (s'.mistakes = s.mistakes → ∃ v, J v) ∧ ∀ v, J v → s'.mistakes = s.mistakes ∧ D a v)) :
    w.Checks A (Runs c m) [] F P J D := by
  intro s a s' rest hrun hn hahead _
  rw [List.nil_append] at hahead
  obtain ⟨hp, hchecked⟩ := hm s a s' hrun
  exact ⟨hp, hahead ▸ .of_acts (hacts hrun) hn, fun hA hw => (hchecked hA hw).1,
    fun hA hw => (hchecked hA hw).2⟩

/-- A mistake is reported, and the rules allow nothing. -/
theorem refuted {G : V → Prop} (hm : s'.mistakes = s.mistakes + 1) (hJ : ∀ v, ¬J v) :
    (s'.mistakes = s.mistakes → ∃ v, J v) ∧ ∀ v, J v → s'.mistakes = s.mistakes ∧ G v :=
  ⟨fun heq => by omega, fun v hv => absurd hv (hJ v)⟩

/-- Where nothing is known, an action reads nothing. -/
theorem idle (hacts : Keeps c (Acts c) m) (hA : ¬A) :
    w.Checks A (Runs c m) [] F (fun _ => True) J D :=
  of_acts hacts fun _ _ _ _ => ⟨trivial, fun h => absurd h hA⟩

/-- An action that never reports a mistake. -/
theorem silent (hacts : Keeps c (Acts c) m)
    (hm : ∀ s a s', Runs c m s a s' → s'.mistakes = s.mistakes) :
    w.Checks A (Runs c m) [] F (fun _ => True) (fun _ : Unit => True) fun _ _ => True :=
  of_acts hacts fun s a s' hrun =>
    ⟨trivial, fun _ _ => ⟨fun _ => ⟨(), trivial⟩, fun _ _ => ⟨hm s a s' hrun, trivial⟩⟩⟩

/-- A silent action in front of reading. -/
theorem skip (hacts : Keeps c (Acts c) m)
    (hm : ∀ s a s', Runs c m s a s' → s'.mistakes = s.mistakes)
    (hf : ∀ a, w.Checks A (Runs c (f a)) ys F Q K E) :
    w.Checks A (Runs c (m >>= f)) ys F Q K E :=
  ((silent hacts hm).act fun a _ _ => (hf a).weaken And.left).iff fun _ _ => by simp

/-- What the rules do not allow is reported. -/
theorem reportIf {mistake : Prop} [Decidable mistake] {p : Problem} {details : List String}
    (hp : p.isSyntactic = false) :
    w.Checks A (Runs c (reportIf mistake p details)) [] F (fun _ => True)
      (fun _ : Unit => ¬mistake) fun _ _ => True := by
  refine of_acts (acts_reportIf hp) fun s u s' hrun => ⟨trivial, fun _ _ => ?_⟩
  rw [runs_reportIf.1 hrun]
  by_cases hmistake : mistake <;> simp [Session.reportIf, hmistake]

theorem report {p : Problem} {details : List String} (hp : p.isSyntactic = false)
    {G : Unit → V → Prop} :
    w.Checks A (Runs c (report p details)) [] F (fun _ => True) (fun _ : V => False) G := by
  refine of_acts (acts_report hp) fun s u s' hrun => ⟨trivial, fun _ _ => ?_⟩
  rw [runs_report.1 hrun]
  simp

/-- Where the rules allow nothing behind an action, they allow nothing. -/
theorem refute (hacts : Keeps c (Acts c) m)
    (hf : ∀ a, w.Checks A (Runs c (f a)) ys F Q (fun _ : U => False) E) :
    w.Checks A (Runs c (m >>= f)) ys F Q (fun _ : U => False) E := by
  intro s b s' rest hrun hn hahead hrest
  obtain ⟨a, s₁, h₁, h₂⟩ := runs_bind.1 hrun
  have hfirst := Reaches.of_acts (hacts h₁) hn
  rw [hahead] at hfirst
  obtain ⟨hq, hsecond⟩ := hf a h₂ hfirst.named hfirst.ahead hrest
  refine ⟨hq, hfirst.trans hsecond.reaches, fun hA hw hm => ?_, fun _ _ _ => False.elim⟩
  have hle := hfirst.mistakes
  have hle' := hsecond.reaches.mistakes
  exact hsecond.sound hA ⟨hw.session.reaches hfirst, hw.widens⟩ (by omega)

/-- The first part reports a mistake, and the rest is only read. -/
theorem refuted_then {S : α → Unit → Prop}
    (hm : w.Checks A (Runs c m) [] (fun _ => True) R (fun _ : Unit => False) S)
    (hK : A → ∀ u, ¬K u) (hf : ∀ a, R a → w.Checks False (Runs c (f a)) ys F Q K E) :
    w.Checks A (Runs c (m >>= f)) ys F Q K E := by
  refine Checks.post (J := fun u : U => ∃ _ : Unit, False ∧ K u)
    (hm.act fun a _ ha => (hf a ha).weaken fun hA => hA.2.1) ?_ ?_
  · rintro - u ⟨_, h, -⟩
    exact h.elim
  · exact fun hA u hu => absurd hu (hK hA u)

theorem report_then {p : Problem} {details : List String} {g : Unit → Production β}
    (hp : p.isSyntactic = false) (hK : A → ∀ u, ¬K u)
    (hg : w.Checks False (Runs c (g ())) ys F Q K E) :
    w.Checks A (Runs c (Production.report p details >>= g)) ys F Q K E :=
  refuted_then (report (G := fun _ _ => True) hp) hK fun _ _ => hg

/-- Where the rules allow nothing, there is a report. -/
theorem reported {p : Problem} {details : List String} (hp : p.isSyntactic = false) (hP : P a)
    (hJ : A → ∀ v, ¬J v) :
    w.Checks A (Runs c (do Production.report p details; Pure.pure a)) [] F P J D := by
  refine of_acts (.bind (acts_report hp) fun _ => .pure a) fun s a' s' hrun => ?_
  simp only [runs_bind, runs_report] at hrun
  obtain ⟨_, _, rfl, hrun⟩ := hrun
  obtain ⟨rfl, rfl⟩ := runs_pure.1 hrun
  exact ⟨hP, fun hA _ => refuted (Session.mistakes_report ..) (hJ hA)⟩

theorem write {e : Emission Fault β} {g : β → Production α}
    (hg : ∀ b, w.Checks A (Runs c (g b)) xs F P J D) :
    w.Checks A (Runs c (Production.write e >>= g)) xs F P J D :=
  skip acts_write (fun s b s' hrun => by
    obtain ⟨assembly, -, rfl⟩ := runs_write.1 hrun
    rfl) hg

theorem setting {g : Setting → Production β} (h : w.Checks A (Runs c (g c)) xs F Q K E) :
    w.Checks A (Runs c (read >>= g)) xs F Q K E := by
  intro s b s' rest hrun hn hahead hrest
  simp only [runs_bind, runs_read] at hrun
  obtain ⟨c, s, ⟨rfl, rfl⟩, hrun⟩ := hrun
  exact h hrun hn hahead hrest

/-- The type that the method returns is that of the context. -/
theorem returnType {g : TypeId → Production β}
    (h : ∀ t, w.Checks (A ∧ w.HasType w.context.result t) (Runs c (g t)) xs F Q K E) :
    w.Checks A (Runs c (do g (← get).returnType)) xs F Q K E := by
  intro s b s' rest hrun hn hahead hrest
  simp only [runs_bind, runs_get] at hrun
  obtain ⟨_, s, ⟨rfl, rfl⟩, hrun⟩ := hrun
  obtain ⟨hq, hchecked⟩ := h _ hrun hn hahead hrest
  have hresult : w.Agrees s s' → w.HasType w.context.result s.returnType := fun hw => by
    have hbelow := (hchecked.reaches.table.trans hw.widens).below (ρ := w.classes)
    exact hw.session.result.mono hbelow.classes hbelow.arrays
  exact ⟨hq, hchecked.reaches, fun hA hw => hchecked.sound ⟨hA, hresult hw⟩ hw,
    fun hA hw => hchecked.complete ⟨hA, hresult hw⟩ hw⟩

/-! ### Terminals -/

/-- A step that takes the terminal `t`, and gives `a` for it. -/
theorem taken {t : Terminal} (hm : ∀ s a' s', Runs c m s a' s' → s.current.terminal = t →
      a' = a ∧ s' = s.advance) :
    w.Checks A (Runs c m) [t] F (· = a) (fun _ : Unit => True) fun _ _ => True := by
  intro s a' s' rest hrun hn hahead _
  obtain ⟨rfl, rfl⟩ := hm s a' s' hrun (Session.current_of_ahead hahead).1
  exact ⟨rfl, .advance hn hahead, fun _ _ _ => ⟨(), trivial⟩, fun _ _ _ _ => ⟨by simp, trivial⟩⟩

/-- In front of further reading. -/
theorem take {t : Terminal} (hm : ∀ s a' s', Runs c m s a' s' → s.current.terminal = t →
      a' = a ∧ s' = s.advance) (h : w.Checks A (Runs c (f a)) ys F Q K E) :
    w.Checks A (Runs c (m >>= f)) (t :: ys) F Q K E := by
  refine ((taken (F := fun _ => True) hm).bind (K := fun _ => K) (fun a' _ ha => ?_)
    fun _ _ => trivial).iff
    fun _ _ => by simp
  exact ha ▸ h.weaken And.left

theorem runs_advance_terminal {t : Terminal} (s : Session) (u : Unit) (s' : Session)
    (h : Runs c Production.advance s u s') (_ : s.current.terminal = t) :
    u = () ∧ s' = s.advance :=
  ⟨rfl, runs_advance.1 h⟩

theorem runs_expect_terminal {k : Token.Kind} (s : Session) (u : Unit) (s' : Session)
    (h : Runs c (Production.expect k) s u s') (ht : s.current.terminal = .word k) :
    u = () ∧ s' = s.advance := by
  have hk : s.current.kind = k := by rw [← Token.kind_terminal, ht, Terminal.kind]
  rcases runs_expect.1 h with ⟨-, rfl⟩ | ⟨hne, -⟩
  · exact ⟨rfl, rfl⟩
  · exact absurd hk hne

theorem advance {t : Terminal} {g : Unit → Production β}
    (h : w.Checks A (Runs c (g ())) ys F Q K E) :
    w.Checks A (Runs c (Production.advance >>= g)) (t :: ys) F Q K E :=
  take runs_advance_terminal h

theorem expect {k : Token.Kind} {g : Unit → Production β}
    (h : w.Checks A (Runs c (g ())) ys F Q K E) :
    w.Checks A (Runs c (Production.expect k >>= g)) (.word k :: ys) F Q K E :=
  take runs_expect_terminal h

theorem expected {k : Token.Kind} : w.Ensures c A (Production.expect k) [.word k] F True :=
  (taken runs_expect_terminal).conseq (fun _ v hv => ⟨v, hv⟩) (fun _ v hv => ⟨v, hv, fun _ => id⟩)
    id (fun _ => id) fun _ _ => trivial

theorem runs_identifier_terminal {n : String} (s : Session) (a : String) (s' : Session)
    (h : Runs c Production.identifier s a s') (ht : s.current.terminal = .name n) :
    a = n ∧ s' = s.advance := by
  have hk : s.current.kind = .identifier := by rw [← Token.kind_terminal, ht, Terminal.kind]
  rcases runs_identifier.1 h with ⟨-, rfl, rfl⟩ | ⟨hne, -⟩
  · simp only [Token.terminal, hk, Terminal.name.injEq] at ht
    exact ⟨ht, rfl⟩
  · exact absurd hk hne

theorem identifier {n : String} {g : String → Production β}
    (h : n ≠ "" → w.Checks A (Runs c (g n)) ys F Q K E) :
    w.Checks A (Runs c (Production.identifier >>= g)) (.name n :: ys) F Q K E := by
  intro s b s' rest hrun hn hahead hrest
  have hname := hn.name (Session.current_of_ahead hahead).1
  exact take runs_identifier_terminal (h hname) hrun hn hahead hrest

theorem runs_literal_terminal {t : Terminal} {v : Int32} (ht : t = .number v ∨ t = .character v)
    (s : Session) (a : Int32) (s' : Session) (h : Runs c literal s a s')
    (hs : s.current.terminal = t) : a = v ∧ s' = s.advance := by
  obtain ⟨rfl, rfl⟩ := runs_literal.1 h
  rcases ht with rfl | rfl
  · have hk : s.current.kind = .number := by rw [← Token.kind_terminal, hs, Terminal.kind]
    simp only [Token.terminal, hk, Terminal.number.injEq] at hs
    exact ⟨hs, rfl⟩
  · have hk : s.current.kind = .character := by rw [← Token.kind_terminal, hs, Terminal.kind]
    simp only [Token.terminal, hk, Terminal.character.injEq] at hs
    exact ⟨hs, rfl⟩

theorem number {v : Int32} {g : Int32 → Production β}
    (h : w.Checks A (Runs c (g v)) ys F Q K E) :
    w.Checks A (Runs c (literal >>= g)) (.number v :: ys) F Q K E :=
  take (runs_literal_terminal (.inl rfl)) h

theorem character {v : Int32} {g : Int32 → Production β}
    (h : w.Checks A (Runs c (g v)) ys F Q K E) :
    w.Checks A (Runs c (literal >>= g)) (.character v :: ys) F Q K E :=
  take (runs_literal_terminal (.inr rfl)) h

/-! ### The next token -/

theorem peek {k : Token.Kind} {g : Token.Kind → Production β}
    (hk : ∀ rest, F (nextKind rest) → nextKind (ys ++ rest) = k)
    (h : w.Checks A (Runs c (g k)) ys F Q K E) :
    w.Checks A (Runs c (Production.peek >>= g)) ys F Q K E := by
  intro s b s' rest hrun hn hahead hrest
  simp only [runs_bind, runs_peek] at hrun
  obtain ⟨_, s, ⟨rfl, rfl⟩, hrun⟩ := hrun
  rw [Session.kind_eq, hahead, hk rest hrest] at hrun
  exact h hrun hn hahead hrest

/-- The next token is behind the tree. -/
theorem peek_end {g : Token.Kind → Production β}
    (h : ∀ k, F k → w.Checks A (Runs c (g k)) [] F Q K E) :
    w.Checks A (Runs c (Production.peek >>= g)) [] F Q K E := by
  intro s b s' rest hrun hn hahead hrest
  simp only [runs_bind, runs_peek] at hrun
  obtain ⟨_, s, ⟨rfl, rfl⟩, hrun⟩ := hrun
  rw [Session.kind_eq, hahead, List.nil_append] at hrun
  exact h _ hrest hrun hn hahead hrest

theorem check {k : Token.Kind} {g : Bool → Production β}
    (hk : ∀ rest, F (nextKind rest) → nextKind (ys ++ rest) = k)
    (h : w.Checks A (Runs c (g true)) ys F Q K E) :
    w.Checks A (Runs c (Production.check k >>= g)) ys F Q K E := by
  intro s b s' rest hrun hn hahead hrest
  simp only [runs_bind, runs_check] at hrun
  obtain ⟨_, s, ⟨rfl, rfl⟩, hrun⟩ := hrun
  rw [Session.kind_eq, hahead, decide_eq_true (hk rest hrest)] at hrun
  exact h hrun hn hahead hrest

theorem check_ne {k : Token.Kind} {g : Bool → Production β}
    (hk : ∀ rest, F (nextKind rest) → nextKind (ys ++ rest) ≠ k)
    (h : w.Checks A (Runs c (g false)) ys F Q K E) :
    w.Checks A (Runs c (Production.check k >>= g)) ys F Q K E := by
  intro s b s' rest hrun hn hahead hrest
  simp only [runs_bind, runs_check] at hrun
  obtain ⟨_, s, ⟨rfl, rfl⟩, hrun⟩ := hrun
  rw [Session.kind_eq, hahead, decide_eq_false (hk rest hrest)] at hrun
  exact h hrun hn hahead hrest

theorem checkAny {ks : Token.KindSet} {b : Bool} {g : Bool → Production β}
    (hk : ∀ rest, F (nextKind rest) → ks.contains (nextKind (ys ++ rest)) = b)
    (h : w.Checks A (Runs c (g b)) ys F Q K E) :
    w.Checks A (Runs c (Production.checkAny ks >>= g)) ys F Q K E := by
  intro s b' s' rest hrun hn hahead hrest
  simp only [runs_bind, runs_checkAny] at hrun
  obtain ⟨_, s, ⟨rfl, rfl⟩, hrun⟩ := hrun
  rw [Session.kind_eq, hahead, hk rest hrest] at hrun
  exact h hrun hn hahead hrest

theorem ite {b : Prop} [Decidable b] {m' : Production α}
    (h : b → w.Checks A (Runs c m) xs F P J D) (h' : ¬b → w.Checks A (Runs c m') xs F P J D) :
    w.Checks A (Runs c (if b then m else m')) xs F P J D := by
  split
  · next hb => exact h hb
  · next hb => exact h' hb

/-! ### Lists -/

variable {body : α → Production (α ⊕ β)}

/-- A member of a list, and the list behind it. -/
theorem turns_next [Nonempty V] {K : V → U → Prop}
    (hx : w.Checks A (Runs c (body a)) xs H (fun r => ∃ a', r = .inl a' ∧ R a') I fun r v =>
      ∃ a', r = .inl a' ∧ S a' v)
    (hxs : ∀ a' v, R a' → w.Checks (A ∧ I v ∧ S a' v) (Turns c body a') ys F Q (K v) E)
    (hF : ∀ rest, F (nextKind rest) → H (nextKind (ys ++ rest))) :
    w.Checks A (Turns c body a) (xs ++ ys) F Q (fun u => ∃ v, I v ∧ K v u) E := by
  intro s b s' rest hrun hn hahead hrest
  obtain ⟨v₀⟩ := ‹Nonempty V›
  rw [List.append_assoc] at hahead
  cases hrun with
  | last h =>
    obtain ⟨a', heq, -⟩ := (hx h hn hahead (hF rest hrest)).1
    contradiction
  | @next _ a' _ s₁ _ _ h hturns =>
    obtain ⟨⟨a'', heq, hp⟩, hchecked⟩ := hx h hn hahead (hF rest hrest)
    obtain rfl := Sum.inl.inj heq
    have hsecond := fun v => hxs a' v hp hturns hchecked.reaches.named hchecked.reaches.ahead hrest
    refine ⟨(hsecond v₀).1, hchecked.bind fun v => ?_⟩
    refine (hsecond v).2.conseq (fun ⟨hA, hv, a'', heq, hd⟩ => ?_) (fun _ u hu => ⟨u, hu⟩)
      fun _ u hu => ⟨u, hu, fun _ => id⟩
    obtain rfl := Sum.inl.inj heq
    exact ⟨hA, hv, hd⟩

/-- The last member of a list. -/
theorem turns_last (hx : w.Checks A (Runs c (body a)) xs F (fun r => ∃ b, r = .inr b ∧ Q b) K
      fun r u => ∃ b, r = .inr b ∧ E b u) :
    w.Checks A (Turns c body a) xs F Q K E := by
  intro s b s' rest hrun hn hahead hrest
  cases hrun with
  | last h =>
    obtain ⟨⟨b', heq, hq⟩, hchecked⟩ := hx h hn hahead hrest
    obtain rfl := Sum.inr.inj heq
    refine ⟨hq, hchecked.reaches, hchecked.sound, fun hA hw u hu => ?_⟩
    obtain ⟨hm, b', heq, he⟩ := hchecked.complete hA hw u hu
    obtain rfl := Sum.inr.inj heq
    exact ⟨hm, he⟩
  | next h _ =>
    obtain ⟨⟨b', heq, -⟩, -⟩ := hx h hn hahead hrest
    contradiction

/-- A turn of a loop that goes on, and the turns behind it. -/
theorem repeats_next {m : Production Bool} {φ ψ : Prop}
    (hm : w.Checks A (Runs c m) xs H (· = true) (fun _ : Unit => φ) fun _ _ => True)
    (hys : w.Repeating c (A ∧ φ) m ys F ψ)
    (hF : ∀ rest, F (nextKind rest) → H (nextKind (ys ++ rest))) :
    w.Repeating c A m (xs ++ ys) F (φ ∧ ψ) := by
  intro s b s' rest hrun hn hahead hrest
  rw [List.append_assoc] at hahead
  cases hrun with
  | last h => exact absurd (hm h hn hahead (hF rest hrest)).1 (by simp)
  | next h hrun =>
    have hfirst := (hm h hn hahead (hF rest hrest)).2
    have hsecond := (hys (a := b) hrun hfirst.reaches.named hfirst.reaches.ahead hrest).2
    have hboth := hfirst.bind (J := fun _ _ => ψ) fun _ =>
      hsecond.conseq (B := A ∧ φ ∧ True) (fun hA => ⟨hA.1, hA.2.1⟩) (fun _ u hu => ⟨u, hu⟩)
        fun _ u hu => ⟨u, hu, fun _ => id⟩
    refine ⟨trivial, hboth.conseq id ?_ ?_⟩
    · exact fun _ u ⟨_, hφ, hψ⟩ => ⟨u, hφ, hψ⟩
    · exact fun _ u ⟨hφ, hψ⟩ => ⟨u, ⟨u, hφ, hψ⟩, fun _ => id⟩

/-- The last turn. -/
theorem repeats_last {m : Production Bool} {φ : Prop}
    (hm : w.Checks A (Runs c m) xs F (· = false) (fun _ : Unit => φ) fun _ _ => True) :
    w.Repeating c A m xs F φ := by
  intro s b s' rest hrun hn hahead hrest
  cases hrun with
  | last h =>
    have hchecked := (hm h hn hahead hrest).2
    exact ⟨trivial, hchecked.reaches, hchecked.sound, hchecked.complete⟩
  | next h _ => exact absurd (hm h hn hahead hrest).1 (by simp)

theorem repeats {m : Production Bool} {φ : Prop} (h : w.Repeating c A m xs F φ) :
    w.Ensures c A (repeatWhile m) xs F φ :=
  fun _ _ _ _ hrun => h (repeats_of_runs hrun)

theorem loop (h : w.Checks A (Turns c body a) xs F Q K E) :
    w.Checks A (Runs c (Production.loop body a)) xs F Q K E :=
  fun _ _ _ _ hrun => h (turns_of_runs_loop hrun)

end Checks

/-! ### Chains -/

/-- Where a loop runs behind a production, it has read the terminals `xs` of a tree at some point, and
goes on from there. -/
def Leads (w : World) (c : Setting) (A : Prop) {α β V : Type} (m : Production α)
    (step : α → Production (α ⊕ β)) (xs : List Terminal) (F : Token.Kind → Prop) (J : V → Prop)
    (D : α → V → Prop) : Prop :=
  ∀ ⦃s a s₀ b s' rest⦄, Production.Runs c m s a s₀ → Production.Turns c step a s₀ b s' → s.Named →
    s.ahead = xs ++ rest → F (nextKind rest) →
      ∃ a' s₁, Production.Turns c step a' s₁ b s' ∧ w.Checked A rest J D s a' s₁

namespace Leads

open Production

variable {m : Production α} {step : α → Production (α ⊕ β)} {xs ys : List Terminal}
  {F H : Token.Kind → Prop} {P : α → Prop} {J : V → Prop} {D : α → V → Prop}

/-- The tree in front of all operators. -/
theorem first (h : w.Checks A (Runs c m) xs F P J D) : w.Leads c A m step xs F J D :=
  fun _ a s₀ _ _ _ hrun hturns hn hahead hrest =>
    ⟨a, s₀, hturns, (h hrun hn hahead hrest).2⟩

/-- One more operator and operand. -/
theorem extend [Nonempty V] {K : V → U → Prop} {E : α → U → Prop} (h : w.Leads c A m step xs H J D)
    (hstep : ∀ a v, w.Checks (A ∧ J v ∧ D a v) (Runs c (step a)) ys F (fun r => r.isLeft) (K v)
      fun r u => ∃ a', r = .inl a' ∧ E a' u)
    (hF : ∀ rest, F (nextKind rest) → H (nextKind (ys ++ rest))) :
    w.Leads c A m step (xs ++ ys) F (fun u => ∃ v, J v ∧ K v u) E := by
  intro s a s₀ b s' rest hrun hturns hn hahead hrest
  obtain ⟨v₀⟩ := ‹Nonempty V›
  rw [List.append_assoc] at hahead
  obtain ⟨a₁, s₁, hturns₁, hchecked⟩ := h hrun hturns hn hahead (hF rest hrest)
  have hnamed := hchecked.reaches.named
  have hahead₁ := hchecked.reaches.ahead
  cases hturns₁ with
  | last hlast =>
    have hp := (hstep a₁ v₀ hlast hnamed hahead₁ hrest).1
    contradiction
  | @next _ a₂ _ s₂ _ _ hnext hturns₂ =>
    refine ⟨a₂, s₂, hturns₂, ?_⟩
    have hboth := hchecked.bind fun v => (hstep a₁ v hnext hnamed hahead₁ hrest).2
    refine ⟨hboth.reaches, hboth.sound, fun hA hw u hu => ?_⟩
    obtain ⟨hm, a', heq, he⟩ := hboth.complete hA hw u hu
    obtain rfl := Sum.inl.inj heq
    exact ⟨hm, he⟩

theorem iff {J' : V → Prop} (h : w.Leads c A m step xs F J D) (hJ : A → ∀ v, J v ↔ J' v) :
    w.Leads c A m step xs F J' D := by
  intro s a s₀ b s' rest hrun hturns hn hahead hrest
  obtain ⟨a', s₁, hturns₁, hchecked⟩ := h hrun hturns hn hahead hrest
  exact ⟨a', s₁, hturns₁, hchecked.conseq id (fun hA v hv => ⟨v, (hJ hA v).1 hv⟩)
    fun hA v hv => ⟨v, (hJ hA v).2 hv, fun _ => id⟩⟩

/-- No further operator follows. -/
theorem last {step : α → Production (α ⊕ α)} (h : w.Leads c A m step xs H J D)
    (hstop : ∀ s a r s', Runs c (step a) s r s' → F s.current.kind → r = .inr a ∧ s' = s)
    (hF : ∀ k, F k → H k) :
    w.Checks A (Runs c (do loop step (← m))) xs F (fun _ => True) J D := by
  intro s b s' rest hrun hn hahead hrest
  obtain ⟨a, s₀, hm, hloop⟩ := runs_bind.1 hrun
  obtain ⟨a', s₁, hturns, hchecked⟩ :=
    h hm (turns_of_runs_loop hloop) hn hahead (hF _ hrest)
  have hk : F s₁.current.kind := by rwa [Session.kind_eq, hchecked.reaches.ahead]
  cases hturns with
  | last hlast =>
    obtain ⟨heq, rfl⟩ := hstop _ _ _ _ hlast hk
    obtain rfl := Sum.inr.inj heq
    exact ⟨trivial, hchecked⟩
  | next hnext _ =>
    obtain ⟨heq, -⟩ := hstop _ _ _ _ hnext hk
    contradiction

end Leads

end World

end MicroJava
