import MicroJava.Proofs.Placing
import MicroJava.Proofs.Structured

/-!
# Conditions are evaluated as far as they have to be

A condition ends in a test whose jump is left to the caller. If that jump decides the test (`Decides`),
then the code of the condition evaluates the comparisons that short-circuit evaluation does, in this
order, and goes where the last test leads if it holds or fails (`Tests`). The false label of each
conjunction is the address of the next one, and the true label, which they share, is where the whole
condition leads (`condition_executes`).
-/

namespace MicroJava

open Tree

/-- The code of which an act of the program is seen: that which the production of the act has placed
for its terminals. Behind the sides of a comparison stands the jump that compares them, in its own
sense or the other way around. -/
inductive Shown (F : Frame) (base : Session) (C : Code) : Act → List Control.Event → Prop where
  | perform {x : Statement} {m : Production Unit} {p : Nat} {js : List Item}
    (hx : Production.simple? x = some m) (h : Piece F base C m x.yield p js) :
    Shown F base C (.perform x) (Code.steps p js)
  | compare {t : Test} {l l' l'' : Label} {p : Nat} {js : List Item} {o : Comparison}
    (h : Piece F base C (Production.test l l') t.yield p js)
    (ho : o = t.comparison ∨ o = t.comparison.inverse)
    (hjump : C.Has (p + codeSize js) [.jump o.jump l'']) (x y : Int32) :
    Shown F base C (.compare t x y) (Code.steps p js ++ [.test (p + codeSize js) x y])
  | leave {e : Option Expression} {type : TypeId} {p : Nat} {js : List Item}
    (h : Piece F base C (Production.returnValue type) (e.elim [] Expression.yield) p js)
    (hexit : C.Has (p + codeSize js) [.plain .exit []]) :
    Shown F base C (.leave e) (Code.steps p js ++ [.step (p + codeSize js)])

/-- The code of which acts of the program are seen, one after the other. -/
inductive Shows (F : Frame) (base : Session) (C : Code) : List Act → List Control.Event → Prop where
  | nil : Shows F base C [] []
  | cons {a : Act} {as : List Act} {es es' : List Control.Event} :
    Shown F base C a es → Shows F base C as es' → Shows F base C (a :: as) (es ++ es')

section

variable {F : Frame} {base : Session} {C : Code}

theorem Shown.shows {a : Act} {es : List Control.Event} (h : Shown F base C a es) :
    Shows F base C [a] es := by
  simpa using Shows.cons h .nil

theorem Shows.append {as as' : List Act} {es es' : List Control.Event} (h : Shows F base C as es)
    (h' : Shows F base C as' es') : Shows F base C (as ++ as') (es ++ es') := by
  induction h with
  | nil => exact h'
  | cons ha _ ih =>
    rw [List.cons_append, List.append_assoc]
    exact .cons ha ih

end

/-! ### Tests -/

/-- The conditional jump at `q` decides a test: it goes to `T` if it holds, and to `A` if it fails. -/
structure Decides (C : Code) (o : Comparison) (q T A : Nat) : Prop where
  jump : ∃ o' l, (o' = o ∨ o' = o.inverse) ∧ C.Has q [.jump o'.jump l]
  moves : ∀ x y, Control.Moves C.instructions q [.test q x y] (if o.holds x y then T else A)

namespace Decides

variable {C : Code} {b : Branch} {q A : Nat}

theorem of_jumpIfFalse (h : C.Has q [.jump b.comparison.inverse.jump b.whenFalse])
    (hA : C.address? b.whenFalse = some A) : Decides C b.comparison q (q + 3) A where
  jump := ⟨_, _, .inr rfl, h⟩
  moves := fun x y => by
    have := h.test hA x y
    cases ho : b.comparison.holds x y <;> simpa [ho] using this

theorem of_jumpIfTrue (h : C.Has q [.jump b.comparison.jump b.whenTrue])
    (hA : C.address? b.whenTrue = some A) : Decides C b.comparison q A (q + 3) where
  jump := ⟨_, _, .inl rfl, h⟩
  moves := h.test hA

end Decides

/-- If the jump at `q` decides the last test, then the code from `p` on does what is seen of the acts,
and goes where that test leads if it holds or fails. -/
def Tests (F : Frame) (base : Session) (C : Code) (acts : Values → List Act)
    (holds : Values → Bool) (o : Comparison) (T A p q : Nat) : Prop :=
  Decides C o q T A → ∀ v, ∃ es, Shows F base C (acts v) es ∧
    Control.Passes C.instructions p es (if holds v then T else A)

namespace Tests

variable {F : Frame} {base : Session} {C : Code} {acts acts' : Values → List Act}
  {holds holds' : Values → Bool} {o o' : Comparison} {T A m p q q' : Nat}

theorem test {t : Test} {l l' : Label} {js : List Item}
    (h : Piece F base C (Production.test l l') t.yield p js) :
    Tests F base C t.acts t.holds t.comparison T A p (p + codeSize js) := by
  intro hd v
  obtain ⟨o', l'', ho, hjump⟩ := hd.jump
  exact ⟨_, (Shown.compare h ho hjump _ _).shows, h.passes.trans (hd.moves _ _).passes⟩

/-- What stands behind the tests is evaluated if they hold. -/
theorem and (h : Tests F base C acts holds o m A p q) (hd : Decides C o q m A)
    (h' : Tests F base C acts' holds' o' T A m q') (g : Values → Values) :
    Tests F base C (fun v => acts v ++ if holds v then acts' (g v) else [])
      (fun v => holds v && holds' (g v)) o' T A p q' := by
  intro hd' v
  obtain ⟨es, hshows, hpasses⟩ := h hd v
  cases hv : holds v with
  | true =>
    obtain ⟨es', hshows', hpasses'⟩ := h' hd' (g v)
    simp only [hv] at hpasses ⊢
    exact ⟨es ++ es', hshows.append hshows', hpasses.trans hpasses'⟩
  | false =>
    simp only [hv] at hpasses ⊢
    exact ⟨es, by simpa using hshows, hpasses⟩

/-- What stands behind the tests is evaluated if they fail. -/
theorem or (h : Tests F base C acts holds o T m p q) (hd : Decides C o q T m)
    (h' : Tests F base C acts' holds' o' T A m q') (g : Values → Values) :
    Tests F base C (fun v => acts v ++ if holds v then [] else acts' (g v))
      (fun v => holds v || holds' (g v)) o' T A p q' := by
  intro hd' v
  obtain ⟨es, hshows, hpasses⟩ := h hd v
  cases hv : holds v with
  | true =>
    simp only [hv] at hpasses ⊢
    exact ⟨es, by simpa using hshows, hpasses⟩
  | false =>
    obtain ⟨es', hshows', hpasses'⟩ := h' hd' (g v)
    simp only [hv] at hpasses ⊢
    exact ⟨es ++ es', hshows.append hshows', hpasses.trans hpasses'⟩

end Tests

/-! ### The productions of conditions -/

namespace Places

open Production

variable {F : Frame} {base : Session} {p : Token.Kind → Prop}

theorem jumpIfFalse (hF : F.Open) (b : Branch) :
    Places F base p (write (Emission.jumpIfFalse b)) fun C _ v v' =>
      C.Has v.here [.jump b.comparison.inverse.jump b.whenFalse] ∧
        v' = ⟨v.here + 3, v.ahead⟩ :=
  jumpTo hF (Comparison.isJump_jump _)

theorem jumpIfTrue (hF : F.Open) (b : Branch) :
    Places F base p (write (Emission.jumpIfTrue b)) fun C _ v v' =>
      C.Has v.here [.jump b.comparison.jump b.whenTrue] ∧ v' = ⟨v.here + 3, v.ahead⟩ :=
  jumpTo hF (Comparison.isJump_jump _)

theorem test (l l' : Label) : Places F base p (test l l') fun C b v v' =>
    ∃ t : Test, b = ⟨t.comparison, l, l'⟩ ∧ v.ahead = t.yield ++ v'.ahead ∧
      ∀ T A, Tests F base C t.acts t.holds t.comparison T A v.here v'.here := by
  refine .post (.piece (Emits.test (q := True) l l') holds_none reading_test) ?_
  rintro C b v v' ⟨⟨t, rfl, ht⟩, js, hhere, hpiece⟩
  exact ⟨t, rfl, ht, fun T A => hhere ▸ .test (hpiece _ ht)⟩

/-- A conjunction, with its true label, up to its last test. -/
def Conjoins (F : Frame) (base : Session) (C : Code) (k : Conjunction) (whenTrue : Label)
    (b : Branch) (p q : Nat) : Prop :=
  b.whenTrue = whenTrue ∧ ∀ T A, C.address? b.whenFalse = some A →
    Tests F base C k.acts k.holds b.comparison T A p q

theorem conjunction (hF : F.Open) (l : Label) :
    Places F base p (conjunction l) fun C b v v' => ∃ k : Conjunction,
      v.ahead = k.yield ++ v'.ahead ∧ Conjoins F base C k l b v.here v'.here := by
  -- the loop goes on from a conjunction that is read already
  let L : Label → Code → Branch → Branch → View → View → Prop := fun l' C b b' v v' =>
    b.whenFalse = l' → ∀ (k : Conjunction) p, Conjoins F base C k l b p v.here →
      ∃ k' : Conjunction, k.yield ++ v.ahead = k'.yield ++ v'.ahead ∧
        Conjoins F base C k' l b' p v'.here
  refine .post (.bind (.newLabel hF) fun l' => .bind (.test l l') fun b =>
    .loop (L := L l') (fun b => .check ?_ (.pure ?_)) b) ?_
  · refine .post (.bind (.advance (by decide)) fun _ => .bind (.jumpIfFalse hF b) fun _ =>
      .bind (.test l l') fun _ => .returns) ?_
    rintro C _ v v' ⟨-, w, ⟨hword, hw⟩, -, _, ⟨hjump, rfl⟩, _, u, ⟨t, rfl, ht, htest⟩, rfl, rfl⟩
      b' z hz hlabel k p ⟨htrue, hk⟩
    rw [hw] at hjump htest
    have hand : Conjoins F base C (.and k t) l ⟨t.comparison, l, l'⟩ p u.here := by
      refine ⟨rfl, fun T A hA => ?_⟩
      replace hA : C.address? b.whenFalse = some A := hlabel ▸ hA
      exact (hk _ A hA).and (.of_jumpIfFalse hjump hA) (htest T A) k.behind
    obtain ⟨k', hk', hjoins⟩ := hz rfl (.and k t) p hand
    refine ⟨k', ?_, hjoins⟩
    have ht : w.ahead = t.yield ++ u.ahead := ht
    rw [← hk', hword, ht]
    simp [Conjunction.yield]
  · exact fun C v _ k p hk => ⟨k, rfl, hk⟩
  · rintro C b v v' ⟨l', _, rfl, _, w, ⟨t, rfl, ht, htest⟩, hloop⟩
    obtain ⟨k, hk, hjoins⟩ := hloop rfl (.test t) v.here ⟨rfl, fun T A _ => htest T A⟩
    exact ⟨k, by rw [ht]; exact hk, hjoins⟩

/-- A condition up to its last test. -/
def Disjoins (F : Frame) (base : Session) (C : Code) (d : Condition) (b : Branch) (p q : Nat) :
    Prop :=
  ∀ T A, C.address? b.whenTrue = some T → C.address? b.whenFalse = some A →
    Tests F base C d.acts d.holds b.comparison T A p q

theorem condition (hF : F.Open) : Places F base p condition fun C b v v' =>
    ∃ d : Condition, v.ahead = d.yield ++ v'.ahead ∧ Disjoins F base C d b v.here v'.here := by
  let L : Label → Code → Branch → Branch → View → View → Prop := fun l C b b' v v' =>
    b.whenTrue = l → ∀ (d : Condition) p, Disjoins F base C d b p v.here →
      ∃ d' : Condition, d.yield ++ v.ahead = d'.yield ++ v'.ahead ∧
        Disjoins F base C d' b' p v'.here
  refine .post (.bind (.newLabel hF) fun l => .bind (.conjunction hF l) fun b =>
    .loop (L := L l) (fun b => .check ?_ (.pure ?_)) b) ?_
  · refine .post (.bind (.advance (by decide)) fun _ => .bind (.jumpIfTrue hF b) fun _ =>
      .bind (.define hF) fun _ => .bind (.conjunction hF l) fun _ => .returns) ?_
    rintro C _ v v' ⟨-, w, ⟨hword, hw⟩, -, _, ⟨hjump, rfl⟩, -, _, ⟨rfl, hlabel⟩, b₁, u,
      ⟨k, hk, htrue, htests⟩, rfl, rfl⟩ b' z hz hb d p hd
    rw [hw] at hjump hlabel htests
    have hor : Disjoins F base C (.or d k) b₁ p u.here := by
      intro T A hT hA
      replace hT : C.address? b.whenTrue = some T := by rw [hb, ← htrue, hT]
      exact (hd T _ hT hlabel).or (.of_jumpIfTrue hjump hT) (htests T A hA) d.behind
    obtain ⟨d', hd', hjoins⟩ := hz htrue (.or d k) p hor
    refine ⟨d', ?_, hjoins⟩
    have hk : w.ahead = k.yield ++ u.ahead := hk
    rw [← hd', hword, hk]
    simp [Condition.yield]
  · exact fun C v _ d p hd => ⟨d, rfl, hd⟩
  · rintro C b v v' ⟨l, _, rfl, b₀, w, ⟨k, hk, htrue, htests⟩, hloop⟩
    obtain ⟨d, hd, hjoins⟩ :=
      hloop htrue (.conjunction k) v.here fun T A _ hA => htests T A hA
    exact ⟨d, by rw [hk]; exact hd, hjoins⟩

end Places

/-- The code from `p` on evaluates the condition, and goes on at `q` if it holds and at `A` if it
fails. -/
def Guards (F : Frame) (base : Session) (C : Code) (d : Condition) (A p q : Nat) : Prop :=
  ∀ v, ∃ es, Shows F base C (d.acts v) es ∧
    Control.Passes C.instructions p es (if d.holds v then q else A)

/-- Behind the last test stands the jump to the false label, and behind that the true label. -/
theorem Places.Disjoins.guards {F : Frame} {base : Session} {C : Code} {d : Condition} {b : Branch}
    {A p q : Nat} (h : Disjoins F base C d b p q)
    (hjump : C.Has q [.jump b.comparison.inverse.jump b.whenFalse])
    (hT : C.address? b.whenTrue = some (q + 3)) (hA : C.address? b.whenFalse = some A) :
    Guards F base C d A p (q + 3) :=
  h _ A hT hA (.of_jumpIfFalse hjump hA)

/-- A condition with the jump past what it guards. -/
def Production.decision : Production Branch := do
  let b ← condition
  write (Emission.jumpIfFalse b)
  write (Emission.define b.whenTrue)
  return b

namespace Places

open Production

variable {F : Frame} {base : Session} {p : Token.Kind → Prop}

theorem decision (hF : F.Open) : Places F base p decision fun C b v v' =>
    ∃ d : Condition, v.ahead = d.yield ++ v'.ahead ∧ C.address? b.whenTrue = some v'.here ∧
      ∀ A, C.address? b.whenFalse = some A → Guards F base C d A v.here v'.here := by
  refine .post (.bind (.condition hF) fun b => .bind (.jumpIfFalse hF b) fun _ =>
    .bind (.define hF) fun _ => .returns) ?_
  rintro C _ v v' ⟨b, w, ⟨d, hd, hjoins⟩, -, _, ⟨hjump, rfl⟩, -, _, ⟨rfl, hT⟩, rfl, rfl⟩
  exact ⟨d, hd, hT, fun A hA => hjoins.guards hjump hT hA⟩

theorem guardCondition (hF : F.Open) : Places F base p guardCondition fun C b v v' =>
    ∃ d : Condition,
      v.ahead = .word .leftParen :: (d.yield ++ .word .rightParen :: v'.ahead) ∧
        ∀ A, C.address? b.whenFalse = some A → Guards F base C d A v.here v'.here := by
  refine .post (.bind (.expect (by decide)) fun _ => .bind (.condition hF) fun b =>
    .bind (.expect (by decide)) fun _ => .bind (.jumpIfFalse hF b) fun _ =>
      .bind (.define hF) fun _ => .returns) ?_
  rintro C _ v v' ⟨-, u, ⟨hopen, hu⟩, b, w, ⟨d, hd, hjoins⟩, -, _, ⟨hclose, hw⟩, -, _,
    ⟨hjump, rfl⟩, -, _, ⟨rfl, hT⟩, rfl, rfl⟩
  rw [hw] at hjump hT
  refine ⟨d, by rw [hopen, hd, hclose], fun A hA => ?_⟩
  rw [← hu, hw]
  exact hjoins.guards hjump hT hA

end Places

/-- The code of a condition that is read without a mistake, with the jump to its false label behind it
and its true label behind that, evaluates the comparisons that short-circuit evaluation does, and goes
to its true label if it holds, and to its false label if it fails, wherever that is. -/
theorem condition_executes {c : Setting} {s s' : Session} {b : Branch} {is : List Item}
    (hs : s.Consistent) (hlays : Lays s.assembly is) (hrun : Production.decision.Runs c s b s')
    (hclean : s'.mistakes = s.mistakes) :
    ∃ js, Writes (s.frame c) s is js s' ∧ ∀ C : Code, C.Continues s'.assembly (is ++ js) →
      ∃ d : Condition, s.ahead = d.yield ++ s'.ahead ∧
        ∃ T, C.address? b.whenTrue = some T ∧ ∀ A, C.address? b.whenFalse = some A → ∀ v : Values,
          ∃ es, Shows (s.frame c) s C (d.acts v) es ∧
            Control.Executes C.instructions (codeSize is) es (if d.holds v then T else A) := by
  obtain ⟨js, hw, hr⟩ := (Places.decision (s.open_frame c)).of_run hs hlays hrun hclean
  refine ⟨js, hw, fun C hC => ?_⟩
  obtain ⟨d, hd, hT, hguards⟩ := hr C hC
  refine ⟨d, hd, _, hT, fun A hA v => ?_⟩
  obtain ⟨es, hshows, hpasses⟩ := hguards A hA v
  exact ⟨es, hshows, hpasses.executes C.apart⟩

theorem condition_executes_mixed :
    let c : Setting := ⟨{}, 20⟩
    let s := (Session.start (Token.scan "1 < 2 && 3 == 3 || 5 >= 4") {}).advance
    ∃ b s' js, Production.decision.Runs c s b s' ∧ s'.ahead = [] ∧ Writes (s.frame c) s [] js s' ∧
      ∀ C : Code, C.Continues s'.assembly js →
        ∃ d : Condition, s.ahead = d.yield ++ s'.ahead ∧
          ∃ T, C.address? b.whenTrue = some T ∧ ∀ A, C.address? b.whenFalse = some A →
            ∀ v : Values, ∃ es, Shows (s.frame c) s C (d.acts v) es ∧
              Control.Executes C.instructions 0 es (if d.holds v then T else A) := by
  intro c s
  have hs : s.Consistent :=
    ⟨(Session.Named.start _ _).advance, .initial, fun _ _ => rfl⟩
  obtain ⟨b, hb⟩ : ∃ b, (Production.decision.outcome c s).1 = .ok b := ⟨⟨.ge, ⟨0⟩, ⟨2⟩⟩, by decide +kernel⟩
  have hrun : Production.decision.Runs c s b (Production.decision.outcome c s).2 :=
    Prod.ext hb rfl
  have hclean : (Production.decision.outcome c s).2.mistakes = s.mistakes := by decide +kernel
  have hend : (Production.decision.outcome c s).2.ahead = [] := by decide +kernel
  obtain ⟨js, hw, hr⟩ := condition_executes hs .nil hrun hclean
  exact ⟨b, _, js, hrun, hend, hw, hr⟩

end MicroJava
