import MicroJava.Proofs.Course

/-!
# Two texts that are compiled alike

Sessions on two texts are paired (`Session.Paired`) if they differ in their journals and positions only,
and the tokens of the first text, from the next one up to a limit, are in the second one as well, as many
places behind as the pairing says. A production copies another one (`Production.Copies`) if, from paired
sessions, its run leads to what the run of the other one leads to, as long as that reports no mistake and
does not reach the limit.

Most productions look at the token behind the last one that they take, so this one has to be shared. A
statement only looks whether it is an `else`. Others end with a token of their own and look no further
(`Lookahead`).
-/

namespace MicroJava

/-- The diagnostic of a report, kept or not. -/
def Event.report? : Event → Option Diagnostic
  | reported d _ => some d
  | _ => none

/-- The tokens differ in their places, and in what no production looks at. -/
structure Token.Same (t t' : Token) : Prop where
  kind : t'.kind = t.kind
  literal : t'.literal = t.literal
  name : t.kind = .identifier → t'.name = t.name

namespace Session

variable {s s₁ s₂ : Session} {least : UInt32} {p : Problem} {details : List String}

/-! ### Tokens ahead and taken -/

/-- The token behind `i` others. The last one comes again and again. -/
def upcoming (s : Session) : Nat → Token
  | 0 => s.current
  | i + 1 => (s.stream.ahead[i]?.map (·.token)).getD s.stream.last

/-- How many tokens were taken. -/
def taken (s : Session) : Nat := (s.journal.events.filterMap Event.taken?).length

/-- The mistakes that were reported, newest first. -/
def reports (s : Session) : List Diagnostic := s.journal.events.filterMap Event.report?

theorem upcoming_advance (s : Session) (i : Nat) : s.advance.upcoming i = s.upcoming (i + 1) := by
  obtain ⟨⟨_ | ⟨t, ts⟩, last⟩, current, previous, journal, table, assembly, returnType⟩ := s <;>
    cases i <;> simp [upcoming, advance, Token.Stream.next]

@[simp] theorem taken_advance : s.advance.taken = s.taken + 1 := rfl

@[simp] theorem reports_advance : s.advance.reports = s.reports := rfl

@[simp] theorem taken_report : (s.report least p details).taken = s.taken := rfl

@[simp] theorem reports_report :
    (s.report least p details).reports = ⟨s.current.position, p, details⟩ :: s.reports := rfl

@[simp] theorem taken_resume : s.resume.taken = s.taken := rfl

@[simp] theorem reports_resume : s.resume.reports = s.reports := rfl

/-- The second session comes behind the first. -/
structure Later (s s₁ : Session) : Prop where
  taken : s.taken ≤ s₁.taken
  mistakes : s.mistakes ≤ s₁.mistakes
  upcoming : ∀ i, s₁.upcoming i = s.upcoming (s₁.taken - s.taken + i)

namespace Later

theorem of_beside (h : s.Beside s₁) : s.Later s₁ := by
  have htaken : s₁.taken = s.taken := by rw [Session.taken, h.journal, Session.taken]
  refine ⟨Nat.le_of_eq htaken.symm, Nat.le_of_eq ?_, fun i => ?_⟩
  · rw [Session.mistakes, Session.mistakes, h.journal]
  · rw [htaken, Nat.sub_self, Nat.zero_add]
    cases i with
    | zero => exact h.current
    | succ i => rw [Session.upcoming, h.stream, Session.upcoming]

theorem refl (s : Session) : s.Later s := of_beside ⟨rfl, rfl, rfl⟩

theorem trans (h : s.Later s₁) (h' : s₁.Later s₂) : s.Later s₂ := by
  have htaken := h.taken
  have htaken' := h'.taken
  refine ⟨Nat.le_trans htaken htaken', Nat.le_trans h.mistakes h'.mistakes, fun i => ?_⟩
  rw [h'.upcoming, h.upcoming]
  congr 1
  omega

theorem advance (s : Session) : s.Later s.advance := by
  refine ⟨by simp, by simp, fun i => ?_⟩
  rw [upcoming_advance, taken_advance, Nat.add_sub_cancel_left, Nat.add_comm]

theorem report : s.Later (s.report least p details) := by
  refine ⟨by simp, by simp, fun i => ?_⟩
  rw [taken_report, Nat.sub_self, Nat.zero_add]
  cases i <;> rfl

theorem resume : s.Later s.resume := by
  refine ⟨by simp, by simp, fun i => ?_⟩
  rw [taken_resume, Nat.sub_self, Nat.zero_add]
  cases i <;> rfl

instance : Std.Refl Later := ⟨refl⟩

instance : Trans Later Later Later := ⟨trans⟩

end Later

end Session

/-! ### Pairings -/

/-- Which tokens two texts have in common. A token is known by how many are taken in front of it. -/
structure Pairing where
  first : Nat → Token
  second : Nat → Token
  /-- The file has one end. -/
  ends : ∀ i, (first i).kind = .endOfFile → (first (i + 1)).kind = .endOfFile
  /-- How many places behind a token of the first text is in the second. -/
  shift : Nat
  start : Nat
  limit : Nat
  shared : ∀ i, start ≤ i → i < limit → (first i).Same (second (i + shift))
  /-- The mistakes of the second text. -/
  reports : List Diagnostic

/-- What a production looks at behind the last token that it takes. -/
inductive Lookahead where
  | nothing
  /-- Whether an `else` comes next. -/
  | whetherElse
  | token

/-- A production that takes the tokens up to `n` sees the same of what follows. -/
def Pairing.Shows (V : Pairing) (d : Lookahead) (n : Nat) : Prop :=
  match d with
  | .nothing => n ≤ V.limit
  | .whetherElse => n ≤ V.limit ∧ ∀ i ≤ n, V.start ≤ i →
    ((V.second (i + V.shift)).kind = .elseWord ↔ (V.first i).kind = .elseWord)
  | .token => n < V.limit

namespace Pairing.Shows

variable {V : Pairing} {d : Lookahead} {n : Nat}

theorem le (h : V.Shows d n) : n ≤ V.limit := by
  cases d with
  | nothing => exact h
  | whetherElse => exact h.1
  | token => exact Nat.le_of_lt h

theorem mono (h : V.Shows d n) {m : Nat} (hm : m ≤ n) : V.Shows d m := by
  cases d with
  | nothing => exact Nat.le_trans hm h
  | whetherElse => exact ⟨Nat.le_trans hm h.1, fun i hi => h.2 i (Nat.le_trans hi hm)⟩
  | token => exact Nat.lt_of_le_of_lt hm h

/-- A token that is shared shows everything. -/
theorem of_lt (h : n < V.limit) : V.Shows d n := by
  cases d with
  | nothing => exact Nat.le_of_lt h
  | whetherElse =>
    refine ⟨Nat.le_of_lt h, fun i hi hstart => ?_⟩
    rw [(V.shared i hstart (Nat.lt_of_le_of_lt hi h)).kind]
  | token => exact h

end Pairing.Shows

/-- The sessions are at places of their texts that correspond. -/
structure Session.Paired (V : Pairing) (s s' : Session) : Prop where
  started : V.start ≤ s.taken
  taken : s'.taken = s.taken + V.shift
  first : ∀ i, s.upcoming i = V.first (s.taken + i)
  second : ∀ i, s'.upcoming i = V.second (s'.taken + i)
  table : s'.table = s.table
  assembly : s'.assembly = s.assembly
  returnType : s'.returnType = s.returnType
  reports : s'.reports = V.reports

namespace Session.Paired

variable {V : Pairing} {s s' : Session}

/-- In front of the limit, the next token is the same. -/
theorem current (h : s.Paired V s') (hlimit : s.taken + 1 ≤ V.limit) :
    s.current.Same s'.current := by
  have hshared := V.shared s.taken h.started hlimit
  rwa [← h.taken, ← Nat.add_zero s.taken, ← h.first, ← Nat.add_zero s'.taken, ← h.second] at hshared

theorem elses (h : s.Paired V s') (hshows : V.Shows .whetherElse s.taken) :
    s'.current.kind = .elseWord ↔ s.current.kind = .elseWord := by
  have helses := hshows.2 s.taken (Nat.le_refl _) h.started
  rwa [← h.taken, ← Nat.add_zero s.taken, ← h.first, ← Nat.add_zero s'.taken, ← h.second] at helses

theorem advance (h : s.Paired V s') : s.advance.Paired V s'.advance where
  started := by simpa using Nat.le_succ_of_le h.started
  taken := by
    rw [taken_advance, taken_advance, h.taken]
    omega
  first i := by
    rw [upcoming_advance, h.first, taken_advance]
    congr 1
    omega
  second i := by
    rw [upcoming_advance, h.second, taken_advance]
    congr 1
    omega
  table := h.table
  assembly := h.assembly
  returnType := h.returnType
  reports := by rw [reports_advance, h.reports]

end Session.Paired

/-- The second setting has the same options, and more room. -/
structure Setting.Extends (c c' : Setting) : Prop where
  options : c'.options = c.options
  bound : c.bound ≤ c'.bound

namespace Production

variable {α β γ : Type} {c c' : Setting} {d : Lookahead}

/-- From paired sessions, the second production does what the first one does, as long as that reports no
mistake, and sees the same behind the last token that it takes. -/
def Copies (d : Lookahead) (c c' : Setting) (m m' : Production α) : Prop :=
  ∀ ⦃s a s₁⦄, Runs c m s a s₁ → s.Later s₁ ∧
    (s₁.mistakes = s.mistakes → ∀ ⦃V s'⦄, s.Paired V s' → V.Shows d s₁.taken →
      ∃ s₁', Runs c' m' s' a s₁' ∧ s₁.Paired V s₁')

/-- A production that also takes a token. -/
structure Finishes (d : Lookahead) (c c' : Setting) (m m' : Production α) : Prop where
  copies : Copies d c c' m m'
  takes : ∀ ⦃s a s₁⦄, Runs c m s a s₁ → s₁.mistakes = s.mistakes → s.taken < s₁.taken

namespace Copies

variable {m m' : Production α}

theorem later (h : Copies d c c' m m') {s s₁ : Session} {a : α} (hrun : Runs c m s a s₁) :
    s.Later s₁ := (h hrun).1

theorem keeps (h : Copies d c c' m m') : Keeps c Session.Later m := fun _ _ _ hrun => h.later hrun

/-- What copies without a look ahead copies in any case. -/
theorem still (h : Copies .nothing c c' m m') : Copies d c c' m m' := fun _ _ _ hrun =>
  ⟨h.later hrun, fun hm _ _ hp hshows => (h hrun).2 hm hp hshows.le⟩

/-- Where the next token is shared, everything is seen. -/
theorem sighted (h : Copies d c c' m m') : Copies .token c c' m m' := fun _ _ _ hrun =>
  ⟨h.later hrun, fun hm _ _ hp hshows => (h hrun).2 hm hp (.of_lt hshows)⟩

theorem bind {f f' : α → Production β} (hm : Copies d c c' m m')
    (hf : ∀ a, Copies d c c' (f a) (f' a)) : Copies d c c' (m >>= f) (m' >>= f') := by
  intro s b s₂ hrun
  obtain ⟨a, s₁, h₁, h₂⟩ := runs_bind.1 hrun
  have hlater₁ := hm.later h₁
  have hlater₂ := (hf a).later h₂
  refine ⟨hlater₁.trans hlater₂, fun hmistakes V s' hp hlimit => ?_⟩
  have hle₁ := hlater₁.mistakes
  have hle₂ := hlater₂.mistakes
  have htaken := hlater₂.taken
  obtain ⟨s₁', hrun₁, hp₁⟩ := (hm h₁).2 (by omega) hp (hlimit.mono htaken)
  obtain ⟨s₂', hrun₂, hp₂⟩ := (hf a h₂).2 (by omega) hp₁ hlimit
  exact ⟨s₂', runs_bind.2 ⟨a, s₁', hrun₁, hrun₂⟩, hp₂⟩

theorem pure {a : α} : Copies d c c' (pure a) (pure a) := by
  intro s b s₁ hrun
  obtain ⟨rfl, rfl⟩ := runs_pure.1 hrun
  exact ⟨.refl s₁, fun _ V s' hp _ => ⟨s', runs_pure.2 ⟨rfl, rfl⟩, hp⟩⟩

theorem throw {f : Fault} {m' : Production α} : Copies d c c' (throw f) m' :=
  fun _ _ _ hrun => absurd hrun runs_throw

theorem ite {b : Prop} [Decidable b] {n n' : Production α} (hm : Copies d c c' m m')
    (hn : Copies d c c' n n') :
    Copies d c c' (if b then m else n) (if b then m' else n') := by
  split
  · exact hm
  · exact hn

theorem read {f f' : Setting → Production α} (hf : Copies d c c' (f c) (f' c')) :
    Copies d c c' (MonadReader.read >>= f) (MonadReader.read >>= f') := by
  intro s a s₁ hrun
  simp only [runs_bind, runs_read] at hrun
  obtain ⟨_, _, ⟨rfl, rfl⟩, hrun⟩ := hrun
  refine ⟨hf.later hrun, fun hm V s' hp hlimit => ?_⟩
  obtain ⟨s₁', hrun', hp'⟩ := (hf hrun).2 hm hp hlimit
  exact ⟨s₁', runs_bind.2 ⟨_, _, runs_read.2 ⟨rfl, rfl⟩, hrun'⟩, hp'⟩

theorem map {f : α → β} (hm : Copies d c c' m m') : Copies d c c' (f <$> m) (f <$> m') := by
  rw [map_eq_pure_bind, map_eq_pure_bind]
  exact bind hm fun _ => pure

theorem discard (hm : Copies d c c' m m') : Copies d c c' (discard m) (discard m') := by
  have hdiscard : ∀ m : Production α, (Functor.discard m : Production Unit) =
      m >>= fun _ => Pure.pure () := fun _ => rfl
  rw [hdiscard, hdiscard]
  exact bind hm fun _ => pure

theorem mapM {f f' : α → Production β} (hf : ∀ a, Copies d c c' (f a) (f' a)) :
    ∀ as : List α, Copies d c c' (as.mapM f) (as.mapM f')
  | [] => pure
  | a :: as => by
    rw [List.mapM_cons, List.mapM_cons]
    exact bind (hf a) fun _ => bind (mapM hf as) fun _ => pure

/-- A loop may be given more turns. -/
theorem iterate {body body' : α → Production (α ⊕ β)}
    (hbody : ∀ a, Copies d c c' (body a) (body' a)) :
    ∀ {n n' : Nat}, n ≤ n' → ∀ a, Copies d c c' (iterate body n a) (iterate body' n' a)
  | 0, _, _, _ => throw
  | _ + 1, _ + 1, h, a => bind (hbody a) fun
    | .inl a' => iterate hbody (Nat.le_of_succ_le_succ h) a'
    | .inr _ => pure

theorem loop (hc : c.Extends c') {body body' : α → Production (α ⊕ β)}
    (hbody : ∀ a, Copies d c c' (body a) (body' a)) (a : α) :
    Copies d c c' (loop body a) (loop body' a) := read (iterate hbody hc.bound a)

theorem repeatWhile (hc : c.Extends c') {body body' : Production Bool}
    (hbody : Copies d c c' body body') : Copies d c c' (repeatWhile body) (repeatWhile body') :=
  loop hc (fun _ => bind hbody fun _ => pure) ()

/-! ### Tokens and reports -/

theorem advance : Copies d c c' advance advance := by
  intro s u s₁ hrun
  obtain rfl := runs_advance.1 hrun
  exact ⟨.advance s, fun _ V s' hp _ => ⟨s'.advance, runs_advance.2 rfl, hp.advance⟩⟩

theorem peek : Copies .token c c' peek peek := by
  intro s k s₁ hrun
  obtain ⟨rfl, rfl⟩ := runs_peek.1 hrun
  refine ⟨.refl s₁, fun _ V s' hp hlimit => ⟨s', runs_peek.2 ⟨?_, rfl⟩, hp⟩⟩
  exact (hp.current hlimit).kind.symm

theorem check {k : Token.Kind} : Copies .token c c' (check k) (check k) := bind peek fun _ => pure

theorem checkAny {ks : Token.KindSet} : Copies .token c c' (checkAny ks) (checkAny ks) :=
  bind peek fun _ => pure

theorem checkElse :
    Copies .whetherElse c c' (Production.check .elseWord) (Production.check .elseWord) := by
  intro s b s₁ hrun
  obtain ⟨rfl, rfl⟩ := runs_check.1 hrun
  refine ⟨.refl s₁, fun _ V s' hp hlimit => ⟨s', runs_check.2 ⟨?_, rfl⟩, hp⟩⟩
  exact decide_eq_decide.2 (hp.elses hlimit).symm

/-- A report is a mistake, behind which nothing is said of the second production. -/
theorem report {p : Problem} {details : List String} {m' : Production Unit} :
    Copies d c c' (report p details) m' := by
  intro s u s₁ hrun
  obtain rfl := runs_report.1 hrun
  refine ⟨.report, fun hm => ?_⟩
  rw [Session.mistakes_report] at hm
  omega

theorem reportIf {mistake : Prop} [Decidable mistake] {p : Problem} {details : List String} :
    Copies d c c' (reportIf mistake p details) (reportIf mistake p details) := ite report pure

/-- What a production does behind a report does not matter. -/
theorem reported {p : Problem} {details : List String} {f : Unit → Production α}
    {m' : Production α} (hf : ∀ u, Keeps c Session.Later (f u)) :
    Copies d c c' (Production.report p details >>= f) m' := by
  intro s a s₂ hrun
  obtain ⟨u, s₁, h₁, h₂⟩ := runs_bind.1 hrun
  obtain rfl := runs_report.1 h₁
  have hlater := hf u h₂
  refine ⟨Session.Later.report.trans hlater, fun hm => ?_⟩
  have hle := hlater.mistakes
  rw [Session.mistakes_report] at hle
  omega

/-- The session is looked at for what does not differ. -/
theorem get {f f' : Session → Production α}
    (hf : ∀ s s' : Session, s'.returnType = s.returnType → s'.assembly = s.assembly →
      Copies d c c' (f s) (f' s')) :
    Copies d c c' (MonadState.get >>= f) (MonadState.get >>= f') := by
  intro s a s₁ hrun
  simp only [runs_bind, runs_get] at hrun
  obtain ⟨_, _, ⟨rfl, rfl⟩, hrun⟩ := hrun
  refine ⟨(hf _ _ rfl rfl).later hrun, fun hm V s' hp hlimit => ?_⟩
  obtain ⟨s₁', hrun', hp'⟩ := (hf _ s' hp.returnType hp.assembly hrun).2 hm hp hlimit
  exact ⟨s₁', runs_bind.2 ⟨_, _, runs_get.2 ⟨rfl, rfl⟩, hrun'⟩, hp'⟩

end Copies

namespace Finishes

variable {m m' : Production α} {f f' : α → Production β}

/-- A production that does not look ahead may be followed by any other one. -/
theorem copying (h : Finishes .nothing c c' m m') : Copies d c c' m m' := h.copies.still

theorem advance : Finishes d c c' advance advance := by
  refine ⟨.advance, fun s u s₁ hrun _ => ?_⟩
  obtain rfl := runs_advance.1 hrun
  simp

theorem expect {k : Token.Kind} : Finishes d c c' (expect k) (expect k) := by
  refine ⟨fun s u s₁ hrun => ?_, fun s u s₁ hrun hm => ?_⟩
  · rcases runs_expect.1 hrun with ⟨hk, rfl⟩ | ⟨-, rfl⟩
    · refine ⟨.advance s, fun _ V s' hp hlimit => ⟨s'.advance, ?_, hp.advance⟩⟩
      exact runs_expect.2 (.inl ⟨(hp.current hlimit.le).kind.trans hk, rfl⟩)
    · refine ⟨.report, fun hm => ?_⟩
      rw [Session.mistakes_report] at hm
      omega
  · rcases runs_expect.1 hrun with ⟨-, rfl⟩ | ⟨-, rfl⟩
    · simp
    · rw [Session.mistakes_report] at hm
      omega

/-- In front of a part that finishes, a production may look ahead. -/
theorem before (hm : Copies .token c c' m m') (hf : ∀ a, Finishes d c c' (f a) (f' a)) :
    Finishes d c c' (m >>= f) (m' >>= f') := by
  refine ⟨fun s b s₂ hrun => ?_, fun s b s₂ hrun hmistakes => ?_⟩ <;>
    obtain ⟨a, s₁, h₁, h₂⟩ := runs_bind.1 hrun <;> have hlater₁ := hm.later h₁ <;>
    have hlater₂ := (hf a).copies.later h₂ <;> have hle₁ := hlater₁.mistakes <;>
    have hle₂ := hlater₂.mistakes
  · refine ⟨hlater₁.trans hlater₂, fun hmistakes V s' hp hlimit => ?_⟩
    have htakes := (hf a).takes h₂ (by omega)
    obtain ⟨s₁', hrun₁, hp₁⟩ := (hm h₁).2 (by omega) hp (Nat.lt_of_lt_of_le htakes hlimit.le)
    obtain ⟨s₂', hrun₂, hp₂⟩ := ((hf a).copies h₂).2 (by omega) hp₁ hlimit
    exact ⟨s₂', runs_bind.2 ⟨a, s₁', hrun₁, hrun₂⟩, hp₂⟩
  · exact Nat.lt_of_le_of_lt hlater₁.taken ((hf a).takes h₂ (by omega))

/-- Behind a part that finishes, a production may act. -/
theorem andThen (hm : Finishes d c c' m m') (hf : ∀ a, Copies d c c' (f a) (f' a)) :
    Finishes d c c' (m >>= f) (m' >>= f') := by
  refine ⟨hm.copies.bind hf, fun s b s₂ hrun hmistakes => ?_⟩
  obtain ⟨a, s₁, h₁, h₂⟩ := runs_bind.1 hrun
  have hlater₁ := hm.copies.later h₁
  have hlater₂ := (hf a).later h₂
  have hle₁ := hlater₁.mistakes
  have hle₂ := hlater₂.mistakes
  exact Nat.lt_of_lt_of_le (hm.takes h₁ (by omega)) hlater₂.taken

theorem throw {f : Fault} : Finishes d c c' (throw f) m' :=
  ⟨.throw, fun _ _ _ hrun => absurd hrun runs_throw⟩

theorem reported {p : Problem} {details : List String} {g : Unit → Production α}
    (hg : ∀ u, Keeps c Session.Later (g u)) :
    Finishes d c c' (Production.report p details >>= g) m' := by
  refine ⟨.reported hg, fun s a s₁ hrun hm => ?_⟩
  obtain ⟨u, s₂, h₁, h₂⟩ := runs_bind.1 hrun
  obtain rfl := runs_report.1 h₁
  have hle := (hg u h₂).mistakes
  rw [Session.mistakes_report] at hle
  omega

end Finishes

end Production

end MicroJava
