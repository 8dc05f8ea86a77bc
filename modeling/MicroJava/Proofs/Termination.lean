import MicroJava.Proofs.Progress
import MicroJava.Proofs.SafeProgram
import MicroJava.Proofs.Suppression

/-!
# Every compilation ends

The bound on the turns of a loop and on the depth of nesting is never reached: a turn behind which
another one follows takes a token, and so does an expression or a statement before it reads another
one inside (`agrees_sum`, `agrees_statementOf`). So a compilation takes each token once, and the end of
the file at most three times (`compile_terminates`).
-/

namespace MicroJava

namespace Production

variable {α β : Type}

/-- With fewer than `n` tokens left, the productions do the same. -/
def Agrees (c : Setting) (n : Nat) (p : Token.Kind → Prop) (m m' : Production α) : Prop :=
  ∀ ⦃s⦄, s.Ended → s.left < n → p s.current.kind → m.outcome c s = m'.outcome c s

variable {c : Setting} {n : Nat} {p : Token.Kind → Prop} {m m' : Production α}

namespace Agrees

theorem refl (m : Production α) : Agrees c n p m m := fun _ _ _ _ => rfl

theorem pre {q : Token.Kind → Prop} (hm : Agrees c n p m m') (h : ∀ k, q k → p k) :
    Agrees c n q m m' := fun _ hs hn hq => hm hs hn (h _ hq)

theorem mono {n' : Nat} (hm : Agrees c n' p m m') (hn : n ≤ n') : Agrees c n p m m' :=
  fun _ hs hlt hp => hm hs (Nat.lt_of_lt_of_le hlt hn) hp

theorem bind {f f' : α → Production β} (ht : TracksEnd c p m) (hm : Agrees c n p m m')
    (hf : ∀ a, Agrees c n (fun _ => True) (f a) (f' a)) : Agrees c n p (m >>= f) (m' >>= f') := by
  intro s hs hn hp
  obtain ⟨e, hcourse⟩ := ht hs hp
  rw [outcome_bind, outcome_bind, ← hm hs hn hp]
  rcases hr : outcome m c s with ⟨r | a, s₁⟩
  · rfl
  · rw [hr] at hcourse
    exact hf a (hcourse.ended hs) (Nat.lt_of_le_of_lt (hcourse.left hs) hn) trivial

/-- The productions begin with the same. -/
theorem after {m : Production α} {f f' : α → Production β} (ht : TracksEnd c p m)
    (hf : ∀ a, Agrees c n (fun _ => True) (f a) (f' a)) : Agrees c n p (m >>= f) (m >>= f') :=
  bind ht (refl m) hf

/-- The productions end with the same. -/
theorem andThen {f : α → Production β} (hm : Agrees c n p m m') :
    Agrees c n p (m >>= f) (m' >>= f) := by
  intro s hs hn hp
  rw [outcome_bind, outcome_bind, hm hs hn hp]

/-- Behind a token that is taken, there is one less. -/
theorem take {f f' : α → Production β} (ht : Takes c p m fun _ => True)
    (hm : Agrees c (n + 1) p m m') (hf : ∀ a, Agrees c n (fun _ => True) (f a) (f' a)) :
    Agrees c (n + 1) p (m >>= f) (m' >>= f') := by
  intro s hs hn hp
  rw [outcome_bind, outcome_bind, ← hm hs hn hp]
  rcases hr : outcome m c s with ⟨r | a, s₁⟩
  · rfl
  · obtain ⟨hs₁, -, hlt⟩ := ht hs hp hr
    exact hf a hs₁ (Nat.lt_of_lt_of_le (hlt trivial) (Nat.le_of_lt_succ hn)) trivial

theorem advance {k : Token.Kind} (hk : k ≠ .endOfFile) {f f' : Unit → Production β}
    (hf : ∀ u, Agrees c n (fun _ => True) (f u) (f' u)) :
    Agrees c (n + 1) (· = k) (Production.advance >>= f) (Production.advance >>= f') :=
  take (.advance_of hk) (refl _) hf

theorem ite {d : Prop} [Decidable d] {m₁ m₁' : Production α} (hm : d → Agrees c n p m m')
    (hm₁ : ¬d → Agrees c n p m₁ m₁') :
    Agrees c n p (if d then m else m₁) (if d then m' else m₁') := by
  split
  · next h => exact hm h
  · next h => exact hm₁ h

theorem peek {f f' : Token.Kind → Production α} (h : ∀ k, p k → Agrees c n (· = k) (f k) (f' k)) :
    Agrees c n p (peek >>= f) (Production.peek >>= f') := fun _ hs hn hp => h _ hp hs hn rfl

theorem check {k : Token.Kind} {m₁ m₁' : Production α} (h : Agrees c n (· = k) m m')
    (h₁ : Agrees c n (fun k' => p k' ∧ k' ≠ k) m₁ m₁') :
    Agrees c n p (check k >>= fun b => if b = true then m else m₁)
      (Production.check k >>= fun b => if b = true then m' else m₁') := by
  intro s hs hn hp
  rw [outcome_bind, outcome_bind, show (Production.check k).outcome c s =
    (.ok (s.current.kind = k), s) from rfl]
  by_cases hk : s.current.kind = k
  · simpa only [decide_eq_true hk, if_true] using h hs hn hk
  · simpa only [decide_eq_false hk, Bool.false_eq_true, if_false] using h₁ hs hn ⟨hp, hk⟩

theorem iterate {turn turn' : α → Production (α ⊕ β)} (ht : Progresses c turn)
    (hturn : ∀ a, Agrees c n (fun _ => True) (turn a) (turn' a)) :
    ∀ (k : Nat) (a : α), Agrees c n (fun _ => True) (iterate turn k a) (iterate turn' k a)
  | 0, _ => refl _
  | k + 1, a => by
    intro s hs hn _
    rw [Production.iterate, Production.iterate, outcome_bind, outcome_bind, ← hturn a hs hn trivial]
    rcases hr : (turn a).outcome c s with ⟨r | a' | x, s₁⟩
    · rfl
    · obtain ⟨hs₁, hle, -⟩ := ht a hs trivial hr
      exact iterate ht hturn k a' hs₁ (Nat.lt_of_le_of_lt hle hn) trivial
    · rfl

theorem loop {turn turn' : α → Production (α ⊕ β)} (ht : Progresses c turn)
    (hturn : ∀ a, Agrees c n (fun _ => True) (turn a) (turn' a)) (a : α) :
    Agrees c n p (loop turn a) (Production.loop turn' a) :=
  fun _ hs hn _ => iterate ht hturn c.bound a hs hn trivial

/-! ### Expressions -/

section Expressions

variable {E E' : Production Operand} (ht : Tracks c (fun _ => True) E)
  (hE : Agrees c n (fun _ => True) E E')

include ht hE

omit ht in
theorem loadInteger {mistake : Problem} :
    Agrees c n p (loadInteger E mistake) (Production.loadInteger E' mistake) :=
  andThen (hE.pre fun _ _ => trivial)

omit ht in
theorem elementOf {x : Operand} : Agrees c n p (elementOf E x) (Production.elementOf E' x) :=
  after (.of_tracks (.aside .descriptor)) fun _ =>
    after (.of_tracks (.ite (fun _ => .load) fun _ => .report)) fun _ => andThen (loadInteger hE)

omit ht in
theorem designatorStep {x : Operand} :
    Agrees c (n + 1) p (designatorStep E x) (Production.designatorStep E' x) := by
  refine peek fun k _ => ?_
  split
  · exact refl _
  · exact advance (by decide) fun _ => andThen (elementOf hE)
  · exact refl _

/-- Once the name of a designator is taken, its steps are read. -/
theorem designator : Agrees c (n + 1) p (designator E) (Production.designator E') :=
  after (.of_tracks .namedOperand) fun x =>
    loop (progresses_designatorStep ht) (fun _ => designatorStep hE) x

omit ht in
theorem argument (s : Signature) (count : Nat) :
    Agrees c n p (argument E s count) (Production.argument E' s count) :=
  andThen (hE.pre fun _ _ => trivial)

omit ht in
theorem packArgument (t : Option TypeId) (count : Nat) :
    Agrees c n p (packArgument E count t) (Production.packArgument E' count t) := by
  cases t with
  | none =>
    intro s hs hn _
    have heq : ∀ m : Production Operand, (discard m : Production Unit) =
      m >>= fun _ => Pure.pure () := fun _ => rfl
    rw [Production.packArgument, Production.packArgument, heq, heq]
    exact andThen hE hs hn trivial
  | some t =>
    exact after (.of_tracks (.aside .emit)) fun _ => after (.of_tracks (.aside .write)) fun _ =>
      andThen hE

omit ht in
theorem extraArgument (t : Option TypeId) (count : Nat) :
    Agrees c n p (extraArgument E t count) (Production.extraArgument E' t count) :=
  andThen (packArgument hE t count)

omit ht hE in
theorem members {member member' : Nat → Production (Nat ⊕ Nat)} (hp : Progresses c member)
    (hm : ∀ count, Agrees c n (fun _ => True) (member count) (member' count)) :
    Agrees c n p (members member) (Production.members member') :=
  after (.of_tracks (.checkAny (f := fun b => Pure.pure b) fun _ => .pure _)) fun _ =>
    ite (fun _ => loop hp hm 0) fun _ => refl _

omit ht hE in
theorem reportIf {mistake : Prop} [Decidable mistake] {pr : Problem} {details : List String}
    {f f' : Unit → Production α} (hf : Agrees c n p (f ()) (f' ())) :
    Agrees c n p (Production.reportIf mistake pr details >>= f)
      (Production.reportIf mistake pr details >>= f') := by
  unfold Production.reportIf
  split
  · exact fun s hs hn hp => hf (s := s.report c.options.reportDistance pr details)
      ⟨hs.last, hs.once⟩ hn hp
  · exact fun s hs hn hp => hf hs hn hp

theorem extraArguments {t : Option TypeId} :
    Agrees c n (· = .hash) (extraArguments E t) (Production.extraArguments E' t) :=
  after (.of_tracks (.advance fun _ h => h ▸ by decide)) fun _ => after (.of_tracks .announcement)
    fun _ => after (.of_tracks (.aside (Tracks.newArrayOf t))) fun _ =>
      andThen (members (progresses_extraArgument ht t) (extraArgument hE t))

theorem variablePart {isMethod : Bool} {t : Option TypeId} :
    Agrees c n p (variablePart E isMethod t) (Production.variablePart E' isMethod t) :=
  check (reportIf (extraArguments ht hE)) (refl _)

theorem call {x : Operand} : Agrees c n p (call E x) (Production.call E' x) :=
  after (.of_tracks (.aside Tracks.callee)) fun _ => after (.of_tracks .reportIf) fun _ =>
    after (.of_tracks (.expect (by decide))) fun _ =>
      after (.of_tracks (.aside (Tracks.targetSignature _))) fun s =>
        bind (.of_tracks (.members fun _ => .argument ht))
            (members (progresses_argument ht s) (argument hE s)) fun _ =>
          after (.of_tracks .checkCount) fun _ => andThen (variablePart ht hE)

omit ht in
theorem creation : Agrees c n p (creation E) (Production.creation E') :=
  after (.of_tracks .namedType) fun t => check
    (after (.of_tracks (.advance fun _ h => h ▸ by decide)) fun _ => andThen (loadInteger hE))
    (refl _)

theorem designatorFactor : Agrees c (n + 1) (· = .identifier) (designatorFactor E)
    (Production.designatorFactor E') :=
  take (.designator ht) (designator ht hE) fun _ => check (reportIf (call ht hE)) (refl _)

theorem factor : Agrees c (n + 1) p (factor E) (Production.factor E') := by
  refine peek fun k _ => ?_
  split
  · exact designatorFactor ht hE
  · exact refl _
  · exact refl _
  · exact advance (by decide) fun _ => creation hE
  · exact advance (by decide) fun _ => andThen hE
  · exact refl _

omit ht hE in
theorem operation {operator? : Token.Kind → Option Opcode} {operand operand' : Production Operand}
    (hop : operator? .endOfFile = none) (hy : Agrees c n (fun _ => True) operand operand')
    (x : Operand) :
    Agrees c (n + 1) p (operation operator? operand x)
      (Production.operation operator? operand' x) := by
  refine peek fun k _ => ?_
  rcases h : operator? k with _ | op
  · exact refl _
  · refine advance ?_ fun _ => after (.of_tracks .load) fun _ => andThen hy
    rintro rfl
    rw [hop] at h
    contradiction

theorem term : Agrees c (n + 1) p (term E) (Production.term E') :=
  bind (.of_tracks (.factor ht)) (factor ht hE) fun x =>
    loop (progresses_operation rfl (.factor ht))
      (operation rfl ((factor ht hE).mono (Nat.le_succ n))) x

/-- An expression takes a token before it reads another one inside. -/
theorem sum : Agrees c (n + 1) p (sum E) (Production.sum E') := by
  have hterm := (term (p := fun _ => True) ht hE).mono (Nat.le_succ n)
  exact bind (.of_tracks (.firstTerm ht))
    (check (advance (by decide) fun _ => andThen hterm) (term ht hE)) fun x =>
      loop (progresses_operation rfl (.term ht)) (operation rfl hterm) x

end Expressions

/-! ### Statements -/

section Statements

variable {S S' : Option Label → Production Unit} (ht : ∀ exit, TracksEnd c (fun _ => True) (S exit))
  (hS : ∀ exit, Agrees c n (fun _ => True) (S exit) (S' exit))

include ht hS

theorem ifStatement {exit : Option Label} :
    Agrees c (n + 1) (· = .ifWord) (ifStatement S exit) (Production.ifStatement S' exit) :=
  advance (by decide) fun _ => after (.of_tracks .guardCondition) fun _ =>
    bind (ht exit) (hS exit) fun _ => check
      (after (.of_tracks (.advance fun _ h => h ▸ by decide)) fun _ =>
        after (.of_tracks (.aside .write)) fun _ => after (.of_tracks (.aside .write)) fun _ =>
          after (.of_tracks (.aside .write)) fun _ => andThen (hS exit))
      (refl _)

omit ht in
theorem blockTurn {exit : Option Label} :
    Agrees c n p (blockTurn S exit) (Production.blockTurn S' exit) := by
  refine peek fun k _ => ?_
  split
  · exact refl _
  · exact refl _
  · exact andThen ((hS exit).pre fun _ _ => trivial)

omit ht in
theorem whileStatement :
    Agrees c (n + 1) (· = .whileWord) (whileStatement S) (Production.whileStatement S') :=
  advance (by decide) fun _ => after (.of_tracks (.aside .write)) fun _ =>
    after (.of_tracks (.aside .write)) fun _ => after (.of_tracks .guardCondition) fun _ =>
      after (.of_tracks (.aside .write)) fun exit => andThen (hS (some exit))

omit ht in
theorem blockOf {exit : Option Label}
    (hp : Progresses c (turnOf (Production.blockTurn S exit))) :
    Agrees c (n + 1) (· = .leftBrace) (blockOf S exit) (Production.blockOf S' exit) :=
  take (.expect (by decide)) (refl _) fun _ =>
    andThen (loop hp (fun _ => andThen (blockTurn hS)) ())

/-- A statement takes a token before it reads another one inside. -/
theorem statementOf {exit : Option Label} (hp : Progresses c (turnOf (Production.blockTurn S exit))) :
    Agrees c (n + 1) p (statementOf S exit) (Production.statementOf S' exit) := by
  refine peek fun k _ => ?_
  split
  · exact refl _
  · exact ifStatement ht hS
  · exact whileStatement hS
  · exact refl _
  · exact refl _
  · exact refl _
  · exact refl _
  · exact blockOf hS hp
  · exact refl _
  · exact refl _

end Statements

end Agrees

variable {source : String} {options : Options}

/-- The tokens of a text are those up to the first end of the file. -/
theorem length_ahead (source : String) :
    ((Token.scan source).ahead.takeWhile fun t => t.token.kind ≠ .endOfFile).length + 1 =
      (Token.scan source).ahead.length := by
  obtain ⟨ts, p, unclosed?, heq, hts⟩ := Token.scan_eq source
  have hne : ∀ t ∈ ts, decide (t.token.kind ≠ .endOfFile) = true := by
    intro t ht
    obtain ⟨q, ch, cs, rfl⟩ := hts t ht
    exact decide_eq_true (Token.Lexeme.kind_ne_endOfFile ch cs)
  rw [heq, List.takeWhile_append_of_pos hne, List.takeWhile_cons_of_neg (by simp [Token.Scanned.ofEnd])]
  simp

/-- Besides the tokens of the text, the end of the file is taken at most twice more. -/
theorem taken_le (source : String) (options : Options) (bound : Nat) :
    ((sourceFile.outcome ⟨options, bound⟩
      (.start (Token.scan source) options)).2.journal.events.filterMap Event.taken?).length ≤
        (Token.scan source).ahead.length + 2 := by
  obtain ⟨e, s, hcourse, hend⟩ :=
    course_sourceFile (c := ⟨options, bound⟩) (Session.Ended.start source options)
  have htaken := hcourse.taken_le (Session.Ended.start source options).advance
  rw [start_scanned] at htaken
  have he := Bool.toNat_le e
  rcases hend with hsame | ⟨-, hadvance⟩
  · rw [hsame]
    omega
  · rw [hadvance, show s.advance.journal.events = .took s.stream.next.1 :: s.journal.events from rfl,
      List.filterMap_cons, show (Event.took s.stream.next.1).taken? = some _ from rfl,
      List.length_cons]
    omega

/-- No bound that covers the tokens is reached. -/
theorem not_stalled {bound : Nat} (hbound : (Token.scan source).ahead.length + 2 ≤ bound) :
    (sourceFile.outcome ⟨options, bound⟩ (.start (Token.scan source) options)).1 ≠
      .error .stalled := by
  have hhealthy : (Session.start (Token.scan source) options).advance.Healthy
      (.ofStream options (Token.scan source)) ∅ :=
    .start (Session.Named.start source options).last options
  have hsafe := Safe.sourceFile (c := ⟨options, bound⟩)
    { hhealthy with left := Nat.le_trans hhealthy.left hbound }
  rcases hr : sourceFile.outcome ⟨options, bound⟩ (.start (Token.scan source) options)
    with ⟨f | ⟨⟩, s⟩ <;> rw [hr] at hsafe
  · obtain ⟨position, d, rfl, -⟩ := hsafe
    simp
  · simp

end Production

open Production

/-- Every compilation ends: no bound that covers the tokens up to the end of the file is reached, and
no more tokens are taken than there are and two. For each turn of a loop behind which another one
follows takes a token, and so does each expression and each statement before it reads another one
inside: what it does depends only on what the inner ones do with fewer tokens. -/
theorem compile_terminates (source : String) (options : Options) :
    let tokens := ((Token.scan source).ahead.takeWhile fun t => t.token.kind ≠ .endOfFile).length + 1
    (∀ bound, tokens + 2 ≤ bound →
      (sourceFile.outcome ⟨options, bound⟩ (.start (Token.scan source) options)).1 ≠
        .error .stalled ∧
      ((sourceFile.outcome ⟨options, bound⟩
        (.start (Token.scan source) options)).2.journal.events.filterMap Event.taken?).length ≤
          tokens + 2) ∧
    (∀ c {α β : Type} (turn : α → Production (α ⊕ β)), IsTurn c turn →
      ∀ a s a' s', s.Ended → Runs c (turn a) s (.inl a') s' → s'.left < s.left) ∧
    (∀ c s E E', s.Ended → Tracks c (fun _ => True) E →
      Agrees c s.left (fun _ => True) E E' → (sum E).outcome c s = (sum E').outcome c s) ∧
    ∀ c s depth S' exit, s.Ended →
      (∀ exit, Agrees c s.left (fun _ => True) (nestedStatement depth exit) (S' exit)) →
        (statementOf (nestedStatement depth) exit).outcome c s =
          (statementOf S' exit).outcome c s := by
  intro tokens
  have htokens : tokens = (Token.scan source).ahead.length := length_ahead source
  refine ⟨fun bound hbound => ⟨not_stalled (htokens ▸ hbound), ?_⟩, ?_, ?_, ?_⟩
  · rw [htokens]
    exact taken_le source options bound
  · intro c α β turn hturn a s a' s' hs hrun
    exact (hturn.progresses a hs trivial hrun).2.2 rfl
  · intro c s E E' hs ht hE
    exact Agrees.sum (p := fun _ => True) ht hE hs (Nat.lt_succ_self _) trivial
  · intro c s depth S' exit hs hS
    exact Agrees.statementOf (p := fun _ => True) (TracksEnd.nestedStatement depth) hS
      (progresses_blockTurn depth _) hs (Nat.lt_succ_self _) trivial

end MicroJava
