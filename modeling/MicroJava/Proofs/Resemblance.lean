import MicroJava.Proofs.Crossing

/-!
# Sessions with the same tokens in front

Two sessions that resemble each other up to a place (`Session.Resembles`) read the same where the production
stops in front of this place. A designator ends in front of a token that it does not take, which has to end
it in both texts, but need not be the same (`Session.Resembles.runs_designator`).
-/

namespace MicroJava

open Production Tree

namespace Session

/-- The sessions have come to the same, and have the same `n` tokens in front. -/
structure Resembles (n : Nat) (s s' : Session) : Prop where
  journal : s'.journal = s.journal
  table : s'.table = s.table
  assembly : s'.assembly = s.assembly
  returnType : s'.returnType = s.returnType
  tokens : ∀ i < n, (s.upcoming i).Same (s'.upcoming i)
  /-- The first text has one end. -/
  ends : ∀ i, (s.upcoming i).kind = .endOfFile → (s.upcoming (i + 1)).kind = .endOfFile

variable {n : Nat} {s s' : Session}

/-- The tokens of the two texts. -/
def Resembles.pairing (h : s.Resembles n s') : Pairing where
  first i := s.upcoming (i - s.taken)
  second i := s'.upcoming (i - s.taken)
  ends i hi := by
    by_cases hle : s.taken ≤ i
    · rw [Nat.succ_sub hle]
      exact h.ends _ hi
    · rwa [Nat.sub_eq_zero_of_le (by omega), ← Nat.sub_eq_zero_of_le (Nat.le_of_not_le hle)]
  shift := 0
  start := s.taken
  limit := s.taken + n
  shared i hstart hlimit := h.tokens _ (by omega)
  reports := s'.reports

theorem Resembles.paired (h : s.Resembles n s') : s.Paired h.pairing s' := by
  have htaken : s'.taken = s.taken := by rw [taken, taken, h.journal]
  refine ⟨Nat.le_refl _, htaken, fun i => ?_, fun i => ?_, h.table, h.assembly, h.returnType, rfl⟩
  · exact congrArg s.upcoming (Nat.add_sub_cancel_left s.taken i).symm
  · refine congrArg s'.upcoming ?_
    omega

/-- The token behind terminals that are in front. -/
theorem kind_upcoming_append (hn : s.Named) {xs ys : List Terminal} (h : s.ahead = xs ++ ys) :
    (s.upcoming xs.length).kind = nextKind ys := by
  induction xs generalizing s with
  | nil => exact (s.kind_eq).trans (congrArg nextKind h)
  | cons x xs ih =>
    rw [List.length_cons, ← upcoming_advance]
    exact ih hn.advance (Takes.advance hn h).ahead

end Session

/-! ### Designators -/

namespace Production

variable {c c' : Setting} {E E' : Production Operand} {V : Pairing} {s s' s₁ : Session} {x y : Operand}

theorem Finishes.elementOf {d : Lookahead} (hE : Copies .token c c' E E') :
    Finishes d c c' (elementOf E x) (elementOf E' x) :=
  before .descriptor fun _ => before (.ite .load .report) fun _ => before (.loadInteger hE) fun _ =>
    expect.andThen fun _ => .pure

/-- A step of a designator only looks at tokens that it takes. -/
theorem copies_designatorStep (hE : Copies .token c c' E E')
    (hrun : (designatorStep E x).Runs c s (.inl y) s₁) (hm : s₁.mistakes = s.mistakes)
    (hp : s.Paired V s') (hlimit : s₁.taken ≤ V.limit) :
    ∃ s₁', (designatorStep E' x).Runs c' s' (.inl y) s₁' ∧ s₁.Paired V s₁' := by
  obtain ⟨_, s, hpeek, hstep⟩ := runs_bind.1 hrun
  obtain ⟨rfl, rfl⟩ := runs_peek.1 hpeek
  have hcopy : ∀ {m m' : Production (Operand ⊕ Operand)}, Finishes .nothing c c' m m' →
      m.Runs c s (.inl y) s₁ → s'.current.kind = s.current.kind ∧
        ∃ s₁', m'.Runs c' s' (.inl y) s₁' ∧ s₁.Paired V s₁' := fun hf hrun =>
    ⟨(hp.current (Nat.le_trans (hf.takes hrun hm) hlimit)).kind, (hf.copies hrun).2 hm hp hlimit⟩
  have hpeek' : ∀ {k}, s.current.kind = k → s'.current.kind = s.current.kind →
      Production.peek.Runs c' s' k s' := fun hk hsame => runs_peek.2 ⟨(hsame.trans hk).symm, rfl⟩
  split at hstep
  · next hk =>
    obtain ⟨hsame, s₁', hrun', hp'⟩ := hcopy
      (Finishes.advance.andThen fun _ => .bind .fieldOf fun _ => .pure) hstep
    exact ⟨s₁', runs_bind.2 ⟨_, s', hpeek' hk hsame, hrun'⟩, hp'⟩
  · next hk =>
    obtain ⟨hsame, s₁', hrun', hp'⟩ := hcopy (Finishes.advance.andThen fun _ =>
      .bind (Finishes.elementOf hE).copies fun _ => .pure) hstep
    exact ⟨s₁', runs_bind.2 ⟨_, s', hpeek' hk hsame, hrun'⟩, hp'⟩
  · obtain ⟨h, -⟩ := runs_pure.1 hstep
    contradiction

/-- Where a designator ends. -/
theorem runs_designatorStep_inr :
    (designatorStep E x).Runs c s (.inr y) s₁ ↔ s.current.kind.EndsDesignator ∧ y = x ∧ s₁ = s := by
  simp only [designatorStep, runs_bind, runs_peek]
  constructor
  · rintro ⟨_, _, ⟨rfl, rfl⟩, hrun⟩
    split at hrun
    · simp [runs_bind] at hrun
    · simp [runs_bind] at hrun
    · next hdot hbracket =>
      obtain ⟨h, rfl⟩ := runs_pure.1 hrun
      exact ⟨⟨hdot, hbracket⟩, Sum.inr.inj h, rfl⟩
  · rintro ⟨⟨hdot, hbracket⟩, rfl, rfl⟩
    refine ⟨_, s₁, ⟨rfl, rfl⟩, ?_⟩
    split
    · contradiction
    · contradiction
    · exact runs_pure.2 ⟨rfl, rfl⟩

theorem copies_steps (hE : Copies .token c c' E E') {n n' : Nat} (hn : n ≤ n')
    (hrun : (iterate (designatorStep E) n x).Runs c s y s₁) (hm : s₁.mistakes = s.mistakes)
    (hp : s.Paired V s') (hlimit : s₁.taken ≤ V.limit)
    (hends : (V.second (s₁.taken + V.shift)).kind.EndsDesignator) :
    ∃ s₁', (iterate (designatorStep E') n' x).Runs c' s' y s₁' ∧ s₁.Paired V s₁' := by
  induction n generalizing n' x s s' with
  | zero => exact absurd hrun runs_throw
  | succ n ih =>
    obtain ⟨n', rfl⟩ := Nat.exists_eq_succ_of_ne_zero (Nat.ne_of_gt (Nat.zero_lt_of_lt hn))
    have hn := Nat.le_of_succ_le_succ hn
    obtain ⟨r | r, s₂, hstep, hrest⟩ := runs_bind.1 hrun
    · have hlater₂ := (Copies.designatorStep hE).later hstep
      have hlater := (Copies.iterate (fun _ => Copies.designatorStep hE) hn r).later hrest
      have hle := hlater₂.mistakes
      have hle' := hlater.mistakes
      obtain ⟨s₂', hstep', hp₂⟩ := copies_designatorStep hE hstep (by omega) hp
        (Nat.le_trans hlater.taken hlimit)
      obtain ⟨s₁', hrest', hp₁⟩ := ih hn hrest (by omega) hp₂
      exact ⟨s₁', runs_bind.2 ⟨_, s₂', hstep', hrest'⟩, hp₁⟩
    · obtain ⟨rfl, rfl⟩ := runs_pure.1 hrest
      obtain ⟨-, rfl, rfl⟩ := runs_designatorStep_inr.1 hstep
      have hcurrent : s'.current = V.second (s₁.taken + V.shift) := by
        rw [← hp.taken, ← Nat.add_zero s'.taken, ← hp.second]
        rfl
      exact ⟨s', runs_bind.2 ⟨_, s', runs_designatorStep_inr.2 ⟨hcurrent ▸ hends, rfl, rfl⟩,
        runs_pure.2 ⟨rfl, rfl⟩⟩, hp⟩

theorem copies_designator (hc : c.Extends c') (hE : Copies .token c c' E E')
    (hrun : (designator E).Runs c s y s₁) (hm : s₁.mistakes = s.mistakes) (hp : s.Paired V s')
    (hlimit : s₁.taken ≤ V.limit) (hends : (V.second (s₁.taken + V.shift)).kind.EndsDesignator) :
    ∃ s₁', (designator E').Runs c' s' y s₁' ∧ s₁.Paired V s₁' := by
  have hcopies : Copies .nothing c c' namedOperand namedOperand := .namedOperand
  obtain ⟨x, s₂, hname, hloop⟩ := runs_bind.1 hrun
  obtain ⟨_, s₂, hread, hsteps⟩ := runs_bind.1 hloop
  obtain ⟨rfl, rfl⟩ := runs_read.1 hread
  have hnamed := hcopies hname
  have hlater := (Copies.iterate (fun _ => Copies.designatorStep hE) hc.bound x).later hsteps
  have hle := hnamed.1.mistakes
  have hle' := hlater.mistakes
  obtain ⟨s₂', hname', hp₂⟩ := hnamed.2 (by omega) hp (Nat.le_trans hlater.taken hlimit)
  obtain ⟨s₁', hsteps', hp₁⟩ := copies_steps hE hc.bound hsteps (by omega) hp₂ hlimit hends
  exact ⟨s₁', runs_bind.2 ⟨x, s₂', hname', runs_bind.2 ⟨_, s₂', runs_read.2 ⟨rfl, rfl⟩, hsteps'⟩⟩, hp₁⟩

end Production

/-- What is read of a designator. -/
theorem takes_designator {c : Setting} {d : Designator} {s s₁ : Session} {x : Operand} {rest : List Terminal}
    (hn : s.Named) (hahead : s.ahead = d.yield ++ rest) (hends : (nextKind rest).EndsDesignator)
    (hrun : (designator expression).Runs c s x s₁) : Takes rest s s₁ :=
  (World.Checks.wholeDesignator (w := .initial) (A := True) d hrun hn hahead hends).2.reaches.toTakes

/-- Where the designator is read without a mistake on the first text, it is read in the same way on the
second one, and the same code is appended. -/
theorem Session.Resembles.runs_designator {c c' : Setting} {d : Designator} {s s' s₁ : Session} {x : Operand}
    {rest rest' : List Terminal} (h : s.Resembles d.yield.length s') (hc : c.Extends c') (hn : s.Named)
    (hn' : s'.Named) (hahead : s.ahead = d.yield ++ rest) (hahead' : s'.ahead = d.yield ++ rest')
    (hne : rest ≠ []) (hends : (nextKind rest).EndsDesignator) (hends' : (nextKind rest').EndsDesignator)
    (hrun : (designator expression).Runs c s x s₁) (hm : s₁.mistakes = s.mistakes) :
    ∃ s₁', (designator expression).Runs c' s' x s₁' ∧ s₁'.assembly = s₁.assembly := by
  have hcopies : Copies .token c c' expression expression := .expression hc
  have htakes : Takes rest s s₁ := takes_designator hn hahead hends hrun
  have htaken : s₁.taken = s.taken + d.yield.length :=
    ((Copies.designator hc hcopies).later hrun).taken_eq hn htakes.named h.ends hahead htakes.ahead hne
  have hsecond : (h.pairing.second (s₁.taken + h.pairing.shift)).kind = nextKind rest' := by
    have hplace : s₁.taken + 0 - s.taken = d.yield.length := by omega
    show (s'.upcoming (s₁.taken + 0 - s.taken)).kind = _
    rw [hplace, Session.kind_upcoming_append hn' hahead']
  obtain ⟨s₁', hrun', hp⟩ := copies_designator hc hcopies hrun hm h.paired (Nat.le_of_eq htaken)
    (hsecond ▸ hends')
  exact ⟨s₁', hrun', hp.assembly⟩

end MicroJava
