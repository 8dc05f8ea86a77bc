import MicroJava.Proofs.Copying
import MicroJava.Proofs.Obeying

/-!
# Tokens that are inserted

A text that differs from another one by tokens that are inserted at one place (`Insertion`). In front of
the place the texts are paired (`Insertion.front`), and behind it again, once a recovery has skipped what
was inserted and reported one mistake (`Insertion.Resumed`). A production crosses the place
(`Insertion.Crosses`) if it starts in front of it on the first text, ends behind it without a mistake, and
on the second text gives the same and ends where reading was resumed.
-/

namespace MicroJava

namespace Session

/-! ### Tokens that are skipped -/

/-- The session with more tokens taken. -/
def skip (s : Session) : Nat → Session
  | 0 => s
  | n + 1 => (s.skip n).advance

variable {s : Session}

@[simp] theorem taken_skip (n : Nat) : (s.skip n).taken = s.taken + n := by
  induction n with
  | zero => rfl
  | succ n ih => rw [skip, taken_advance, ih, Nat.add_assoc]

@[simp] theorem reports_skip (n : Nat) : (s.skip n).reports = s.reports := by
  induction n with
  | zero => rfl
  | succ n ih => rw [skip, reports_advance, ih]

@[simp] theorem table_skip (n : Nat) : (s.skip n).table = s.table := by
  induction n with
  | zero => rfl
  | succ n ih => exact ih

@[simp] theorem assembly_skip (n : Nat) : (s.skip n).assembly = s.assembly := by
  induction n with
  | zero => rfl
  | succ n ih => exact ih

@[simp] theorem returnType_skip (n : Nat) : (s.skip n).returnType = s.returnType := by
  induction n with
  | zero => rfl
  | succ n ih => exact ih

theorem upcoming_skip (n i : Nat) : (s.skip n).upcoming i = s.upcoming (n + i) := by
  induction n generalizing i with
  | zero => rw [Nat.zero_add]; rfl
  | succ n ih => rw [skip, upcoming_advance, ih, Nat.succ_add_eq_add_succ]

theorem current_skip (n : Nat) : (s.skip n).current = s.upcoming n := upcoming_skip n 0

theorem previous_skip (n : Nat) : (s.skip (n + 1)).previous = s.upcoming n := current_skip n

/-! ### How many tokens are taken -/

theorem getD_takeWhile {α : Type} {p : α → Bool} {last : α} (hlast : p last = false) (l : List α) :
    (∀ i < (l.takeWhile p).length, p (l.getD i last) = true) ∧
      p (l.getD (l.takeWhile p).length last) = false := by
  induction l with
  | nil => exact ⟨fun i hi => absurd hi (Nat.not_lt_zero i), hlast⟩
  | cons a l ih =>
    by_cases ha : p a = true
    · rw [List.takeWhile_cons_of_pos ha]
      refine ⟨fun i hi => ?_, ih.2⟩
      cases i with
      | zero => exact ha
      | succ i => exact ih.1 i (Nat.lt_of_succ_lt_succ hi)
    · rw [List.takeWhile_cons_of_neg ha]
      exact ⟨fun i hi => absurd hi (Nat.not_lt_zero i), by simpa using ha⟩

/-- The terminals ahead are those of the upcoming tokens, up to the end of the file. -/
theorem kind_upcoming (hlast : s.stream.last.kind = .endOfFile) :
    (∀ i < s.ahead.length, (s.upcoming i).kind ≠ .endOfFile) ∧
      (s.upcoming s.ahead.length).kind = .endOfFile := by
  have hupcoming : ∀ i, s.upcoming i =
      (s.current :: s.stream.ahead.map (·.token)).getD i s.stream.last := by
    intro i
    cases i with
    | zero => rfl
    | succ i => simp [upcoming, List.getD]
  have hend : decide (s.stream.last.kind ≠ .endOfFile) = false := by simpa using hlast
  have h := getD_takeWhile (p := fun t : Token => decide (t.kind ≠ .endOfFile)) hend
    (s.current :: s.stream.ahead.map (·.token))
  simpa [ahead, hupcoming] using h

/-- What is ahead no longer was taken. -/
theorem Later.taken_eq {s₁ : Session} (h : s.Later s₁) (hn : s.Named) (hn₁ : s₁.Named)
    (hends : ∀ i, (s.upcoming i).kind = .endOfFile → (s.upcoming (i + 1)).kind = .endOfFile)
    {xs ys : List Terminal} (hahead : s.ahead = xs ++ ys) (hahead₁ : s₁.ahead = ys) (hys : ys ≠ []) :
    s₁.taken = s.taken + xs.length := by
  have htaken := h.taken
  obtain ⟨hbefore, hend⟩ := kind_upcoming hn.last
  obtain ⟨hbefore₁, hend₁⟩ := kind_upcoming hn₁.last
  have hlength : s.ahead.length = xs.length + ys.length := by rw [hahead, List.length_append]
  have hpos : 0 < ys.length := List.length_pos_iff.2 hys
  rw [hahead₁] at hbefore₁ hend₁
  have hall : ∀ i, (s.upcoming (s.ahead.length + i)).kind = .endOfFile := by
    intro i
    induction i with
    | zero => exact hend
    | succ i ih => exact hends _ ih
  -- the end of the file is as far from the first session as it is from the second
  have hlt : s₁.taken - s.taken < s.ahead.length := by
    refine Nat.lt_of_not_le fun hle => hbefore₁ 0 hpos ?_
    rw [h.upcoming, Nat.add_zero, ← Nat.add_sub_cancel' hle]
    exact hall _
  have hge : s.ahead.length ≤ s₁.taken - s.taken + ys.length := by
    refine Nat.le_of_not_lt fun hlt' => hbefore _ hlt' ?_
    rw [← h.upcoming]
    exact hend₁
  have hle : ys.length ≤ s.ahead.length - (s₁.taken - s.taken) := by
    refine Nat.le_of_not_lt fun hlt' => hbefore₁ _ hlt' ?_
    rw [h.upcoming, Nat.add_sub_cancel' (Nat.le_of_lt hlt)]
    exact hend
  omega

end Session

/-! ### Insertions -/

/-- The second text is the first with tokens inserted at one place, and a mistake is to be reported
there. A token is known by how many are taken in front of it. -/
structure Insertion where
  first : Nat → Token
  second : Nat → Token
  /-- The file has one end. -/
  ends : ∀ i, (first i).kind = .endOfFile → (first (i + 1)).kind = .endOfFile
  /-- How many tokens are in front of the place. -/
  place : Nat
  /-- How many tokens are inserted. -/
  length : Nat
  before : ∀ i < place, (first i).Same (second i)
  behind : ∀ i, place ≤ i → (first i).Same (second (i + length))
  problem : Problem

namespace Insertion

variable (I : Insertion)

/-- The mistake at the first of the inserted tokens. -/
def diagnostic : Diagnostic := ⟨(I.second I.place).position, I.problem, []⟩

/-- The texts are the same in front of the place. -/
def front : Pairing where
  first := I.first
  second := I.second
  ends := I.ends
  shift := 0
  start := 0
  limit := I.place
  shared i _ hi := I.before i hi
  reports := []

/-- They are the same again behind the inserted tokens, and have as many tokens in common there as one
wants. -/
def back (limit : Nat) : Pairing where
  first := I.first
  second := I.second
  ends := I.ends
  shift := I.length
  start := I.place
  limit
  shared i hi _ := I.behind i hi
  reports := [I.diagnostic]

variable {I} {s s' : Session}

/-- Reading was resumed behind the inserted tokens. -/
def Resumed (I : Insertion) (s s' : Session) : Prop := s.Paired (I.back 0) s'

theorem Resumed.paired (h : I.Resumed s s') (limit : Nat) : s.Paired (I.back limit) s' :=
  ⟨h.started, h.taken, h.first, h.second, h.table, h.assembly, h.returnType, h.reports⟩

/-- One mistake is reported at the place, and the inserted tokens are skipped. -/
theorem resumed (hp : s.Paired I.front s') (hplace : s.taken = I.place) (least : UInt32) :
    I.Resumed s (((s'.report least I.problem []).skip I.length).resume) where
  started := Nat.le_of_eq hplace.symm
  taken := by
    rw [Session.taken_resume, Session.taken_skip, Session.taken_report, hp.taken]
    rfl
  first := hp.first
  second i := by
    have hupcoming : ∀ (t : Session) i, t.resume.upcoming i = t.upcoming i := by
      intro t i
      cases i <;> rfl
    have hreport : ∀ i, (s'.report least I.problem []).upcoming i = s'.upcoming i := by
      intro i
      cases i <;> rfl
    rw [hupcoming, Session.upcoming_skip, hreport, hp.second, Session.taken_resume,
      Session.taken_skip, Session.taken_report, Nat.add_assoc]
    rfl
  table := by
    rw [show ((s'.report least I.problem []).skip I.length).resume.table =
      ((s'.report least I.problem []).skip I.length).table from rfl, Session.table_skip]
    exact hp.table
  assembly := by
    rw [show ((s'.report least I.problem []).skip I.length).resume.assembly =
      ((s'.report least I.problem []).skip I.length).assembly from rfl, Session.assembly_skip]
    exact hp.assembly
  returnType := by
    rw [show ((s'.report least I.problem []).skip I.length).resume.returnType =
      ((s'.report least I.problem []).skip I.length).returnType from rfl, Session.returnType_skip]
    exact hp.returnType
  reports := by
    have hcurrent : s'.current = I.second I.place := by
      have h := hp.second 0
      rwa [hp.taken, hplace] at h
    have hreports : s'.reports = [] := hp.reports
    rw [Session.reports_resume, Session.reports_skip, Session.reports_report, hreports, hcurrent]
    rfl

end Insertion

namespace Production

variable {α β : Type} {c c' : Setting} {d : Lookahead} {I : Insertion} {m m' : Production α}
  {f f' : α → Production β} {s s' s₁ : Session} {a : α}

/-- Behind the place, productions copy themselves as far as one wants. -/
theorem Copies.resumed (hm : Copies d c c' m m') (hrun : Runs c m s a s₁)
    (hmistakes : s₁.mistakes = s.mistakes) (h : I.Resumed s s') :
    ∃ s₁', Runs c' m' s' a s₁' ∧ I.Resumed s₁ s₁' := by
  obtain ⟨s₁', hrun', hp⟩ :=
    (hm hrun).2 hmistakes (h.paired (s₁.taken + 1)) (.of_lt (Nat.lt_succ_self _))
  exact ⟨s₁', hrun', hp.started, hp.taken, hp.first, hp.second, hp.table, hp.assembly, hp.returnType,
    hp.reports⟩

/-- Every run that starts in front of the terminals `xs`, where what follows is of a kind that `H`
allows, takes them and gives what `P` allows. -/
def Consumes (c : Setting) (m : Production α) (xs : List Terminal) (H : Token.Kind → Prop)
    (P : α → Prop) : Prop :=
  ∀ ⦃s a s₁ rest⦄, Runs c m s a s₁ → s.Named → s.ahead = xs ++ rest → H (nextKind rest) →
    P a ∧ MicroJava.Takes rest s s₁

/-- A production that reads nothing. -/
theorem Consumes.of_still (h : ∀ s a s₁, Runs c m s a s₁ → Still c s s₁) :
    Consumes c m [] (fun _ => True) fun _ => True :=
  fun _ _ _ _ hrun hn hahead _ => ⟨trivial, (List.nil_append _ ▸ hahead) ▸ .of_still (h _ _ _ hrun) hn⟩

namespace Consumes

variable {xs ys : List Terminal} {F H : Token.Kind → Prop} {P : α → Prop} {Q : β → Prop}

theorem bind (hm : Consumes c m xs H P) (hf : ∀ a, P a → Consumes c (f a) ys F Q)
    (hH : ∀ rest, F (nextKind rest) → H (nextKind (ys ++ rest))) :
    Consumes c (m >>= f) (xs ++ ys) F Q := by
  intro s b s₂ rest hrun hn hahead hrest
  obtain ⟨a, s₁, h₁, h₂⟩ := runs_bind.1 hrun
  rw [List.append_assoc] at hahead
  obtain ⟨ha, htakes₁⟩ := hm h₁ hn hahead (hH rest hrest)
  obtain ⟨hb, htakes₂⟩ := hf a ha h₂ htakes₁.named htakes₁.ahead hrest
  exact ⟨hb, htakes₁.trans htakes₂⟩

theorem peek {f : Token.Kind → Production α} {p : Token.Kind → Prop}
    (hk : ∀ rest, H (nextKind rest) → p (nextKind (xs ++ rest)))
    (hf : ∀ k, p k → Consumes c (f k) xs H P) : Consumes c (Production.peek >>= f) xs H P := by
  intro s a s₁ rest hrun hn hahead hrest
  obtain ⟨_, _, hpeek, hrun⟩ := runs_bind.1 hrun
  obtain ⟨rfl, rfl⟩ := runs_peek.1 hpeek
  have hkind : p _ := hk rest hrest
  rw [← hahead, ← Session.kind_eq] at hkind
  exact hf _ hkind hrun hn hahead hrest

/-- A turn of a loop that asks for another. -/
theorem turn {m : Production Unit} {P : Unit → Prop} (hm : Consumes c m xs H P) :
    Consumes c (do m; return true) xs H (· = true) := by
  intro s a s₁ rest hrun hn hahead hrest
  obtain ⟨_, s₂, h, hret⟩ := runs_bind.1 hrun
  obtain ⟨rfl, rfl⟩ := runs_pure.1 hret
  exact ⟨rfl, (hm h hn hahead hrest).2⟩

end Consumes

/-- A run on the first text that starts in front of the place, with `pre` up to it and `post` behind it,
and with a table that `G` allows, is one on the second text as well, which resumes reading behind what is
inserted. -/
structure Crosses (I : Insertion) (c c' : Setting) (G : SymbolTable → Prop) (m m' : Production α)
    (pre post : List Terminal) (F : Token.Kind → Prop) : Prop where
  later : Keeps c Session.Later m
  meets : ∀ ⦃s a s₁ s' rest⦄, Runs c m s a s₁ → s₁.mistakes = s.mistakes → s.Named → G s.table →
    s.ahead = pre ++ (post ++ rest) → F (nextKind rest) → s.Paired I.front s' →
      s.taken + pre.length = I.place → ∃ s₁', Runs c' m' s' a s₁' ∧ I.Resumed s₁ s₁'

namespace Crosses

variable {pre post xs ys : List Terminal} {F H : Token.Kind → Prop} {P : α → Prop}
  {G G' : SymbolTable → Prop}

/-- Where nothing need be known of the table, more may be known. -/
theorem anywhere (h : Crosses I c c' (fun _ => True) m m' pre post F) :
    Crosses I c c' G m m' pre post F :=
  ⟨h.later, fun _ _ _ _ _ hrun hmistakes hn _ => h.meets hrun hmistakes hn trivial⟩

/-- A part in front of the place. -/
theorem step (hm : Copies d c c' m m') (hd : d = .nothing ∨ pre ≠ []) (hconsumes : Consumes c m xs H P)
    (hH : ∀ rest, F (nextKind rest) → H (nextKind (pre ++ (post ++ rest))))
    (hpost : ∀ rest, F (nextKind rest) → post ++ rest ≠ [])
    (hG : ∀ s a s₁, Runs c m s a s₁ → G s.table → G' s₁.table)
    (hf : ∀ a, Crosses I c c' G' (f a) (f' a) pre post F) :
    Crosses I c c' G (m >>= f) (m' >>= f') (xs ++ pre) post F := by
  refine ⟨.bind hm.keeps fun a => (hf a).later,
    fun s b s₂ s' rest hrun hmistakes hn hg hahead hrest hp hplace => ?_⟩
  obtain ⟨a, s₁, h₁, h₂⟩ := runs_bind.1 hrun
  have hlater := hm.later h₁
  have hle := hlater.mistakes
  have hle' := ((hf a).later h₂).mistakes
  rw [List.append_assoc] at hahead
  obtain ⟨-, htakes⟩ := hconsumes h₁ hn hahead (hH rest hrest)
  have htaken := hlater.taken_eq hn htakes.named (fun i hi => ?_) hahead htakes.ahead
    (List.append_ne_nil_of_right_ne_nil _ (hpost rest hrest))
  · rw [List.length_append] at hplace
    have hshows : I.front.Shows d s₁.taken := by
      rcases hd with rfl | hpre
      · exact show s₁.taken ≤ I.place by omega
      · have hpos := List.length_pos_iff.2 hpre
        exact .of_lt (show s₁.taken < I.place by omega)
    obtain ⟨s₁', hrun₁, hp₁⟩ := (hm h₁).2 (by omega) hp hshows
    obtain ⟨s₂', hrun₂, hresumed⟩ :=
      (hf a).meets h₂ (by omega) htakes.named (hG _ _ _ h₁ hg) htakes.ahead hrest hp₁ (by omega)
    exact ⟨s₂', runs_bind.2 ⟨a, s₁', hrun₁, hrun₂⟩, hresumed⟩
  · rw [hp.first] at hi ⊢
    exact I.ends _ hi

/-- An action in front of the place. -/
theorem act (hm : Copies .nothing c c' m m') (hstill : ∀ s a s₁, Runs c m s a s₁ → Still c s s₁)
    (hpost : ∀ rest, F (nextKind rest) → post ++ rest ≠ [])
    (hG : ∀ s a s₁, Runs c m s a s₁ → G s.table → G' s₁.table)
    (hf : ∀ a, Crosses I c c' G' (f a) (f' a) pre post F) :
    Crosses I c c' G (m >>= f) (m' >>= f') pre post F :=
  step hm (.inl rfl) (.of_still hstill) (fun _ _ => trivial) hpost hG hf

/-- A part behind the place. -/
theorem andThen (hm : Crosses I c c' G m m' pre post H) (hf : ∀ a, Copies d c c' (f a) (f' a))
    (hH : ∀ rest, F (nextKind rest) → H (nextKind (ys ++ rest))) :
    Crosses I c c' G (m >>= f) (m' >>= f') pre (post ++ ys) F := by
  refine ⟨.bind hm.later fun a => (hf a).keeps,
    fun s b s₂ s' rest hrun hmistakes hn hg hahead hrest hp hplace => ?_⟩
  obtain ⟨a, s₁, h₁, h₂⟩ := runs_bind.1 hrun
  have hle := (hm.later h₁).mistakes
  have hle' := ((hf a).later h₂).mistakes
  rw [List.append_assoc] at hahead
  obtain ⟨s₁', hrun₁, hresumed⟩ := hm.meets h₁ (by omega) hn hg hahead (hH rest hrest) hp hplace
  obtain ⟨s₂', hrun₂, hresumed'⟩ := (hf a).resumed h₂ (by omega) hresumed
  exact ⟨s₂', runs_bind.2 ⟨a, s₁', hrun₁, hrun₂⟩, hresumed'⟩

theorem read {f f' : Setting → Production α} (hf : Crosses I c c' G (f c) (f' c') pre post F) :
    Crosses I c c' G (MonadReader.read >>= f) (MonadReader.read >>= f') pre post F := by
  have hruns : ∀ {c : Setting} {f : Setting → Production α} {s a s₁},
      Runs c (MonadReader.read >>= f) s a s₁ ↔ Runs c (f c) s a s₁ := by
    intro c f s a s₁
    constructor
    · intro h
      obtain ⟨_, _, hread, h⟩ := runs_bind.1 h
      obtain ⟨rfl, rfl⟩ := runs_read.1 hread
      exact h
    · exact fun h => runs_bind.2 ⟨c, s, runs_read.2 ⟨rfl, rfl⟩, h⟩
  refine ⟨fun s a s₁ hrun => hf.later (hruns.1 hrun),
    fun s a s₁ s' rest hrun hmistakes hn hg hahead hrest hp hplace => ?_⟩
  obtain ⟨s₁', hrun', hresumed⟩ := hf.meets (hruns.1 hrun) hmistakes hn hg hahead hrest hp hplace
  exact ⟨s₁', hruns.2 hrun', hresumed⟩

/-- The kind of the next token, which is in front of the place. -/
theorem peek {f f' : Token.Kind → Production α} {p : Token.Kind → Prop}
    (hlater : Keeps c Session.Later (Production.peek >>= f)) (hpre : pre ≠ [])
    (hk : ∀ rest, F (nextKind rest) → p (nextKind (pre ++ (post ++ rest))))
    (hf : ∀ k, p k → Crosses I c c' G (f k) (f' k) pre post F) :
    Crosses I c c' G (Production.peek >>= f) (Production.peek >>= f') pre post F := by
  refine ⟨hlater, fun s a s₁ s' rest hrun hmistakes hn hg hahead hrest hp hplace => ?_⟩
  obtain ⟨_, _, hpeek, hrun⟩ := runs_bind.1 hrun
  obtain ⟨rfl, rfl⟩ := runs_peek.1 hpeek
  have hkind : p _ := hk rest hrest
  rw [← hahead, ← Session.kind_eq] at hkind
  obtain ⟨s₁', hrun', hresumed⟩ := (hf _ hkind).meets hrun hmistakes hn hg hahead hrest hp hplace
  have hpos := List.length_pos_iff.2 hpre
  have hsame := (hp.current (show _ + 1 ≤ I.place by omega)).kind
  exact ⟨s₁', runs_bind.2 ⟨_, s', runs_peek.2 ⟨rfl, rfl⟩, hsame ▸ hrun'⟩, hresumed⟩

end Crosses

/-! ### Loops -/

/-- As many turns of a loop as a number says, at most. -/
def turns (body : Production Bool) (n : Nat) : Production Unit :=
  iterate (fun _ => return if ← body then .inl () else .inr ()) n ()

theorem repeatWhile_eq (body : Production Bool) :
    repeatWhile body = MonadReader.read >>= fun c => turns body c.bound := rfl

theorem runs_turns_succ {body : Production Bool} {n : Nat} {u : Unit} :
    Runs c (turns body (n + 1)) s u s' ↔
      ∃ b s₁, Runs c body s b s₁ ∧ (b = true ∧ Runs c (turns body n) s₁ u s' ∨ b = false ∧ s' = s₁) := by
  simp only [turns, iterate, runs_bind]
  constructor
  · rintro ⟨r, s₂, ⟨b, s₁, hbody, hr⟩, h⟩
    obtain ⟨rfl, rfl⟩ := runs_pure.1 hr
    refine ⟨b, s₂, hbody, ?_⟩
    cases b with
    | true => exact .inl ⟨rfl, h⟩
    | false => exact .inr ⟨rfl, (runs_pure.1 h).2⟩
  · rintro ⟨b, s₁, hbody, h⟩
    refine ⟨_, s₁, ⟨b, s₁, hbody, runs_pure.2 ⟨rfl, rfl⟩⟩, ?_⟩
    rcases h with ⟨rfl, h⟩ | ⟨rfl, rfl⟩
    · exact h
    · exact runs_pure.2 ⟨rfl, rfl⟩

/-- A turn of a loop copies another one, and where another turn follows, it looks at less. -/
structure CopiesTurn (d : Lookahead) (c c' : Setting) (m m' : Production Bool) : Prop where
  copies : Copies .token c c' m m'
  finishes : ∀ ⦃s s₁⦄, Runs c m s true s₁ → s₁.mistakes = s.mistakes → ∀ ⦃V s'⦄, s.Paired V s' →
    V.Shows d s₁.taken → ∃ s₁', Runs c' m' s' true s₁' ∧ s₁.Paired V s₁'

/-- A turn reads something that ends with its own token, or ends the loop. -/
theorem CopiesTurn.of_peek {f f' : Token.Kind → Production Bool}
    (hf : ∀ k, Finishes d c c' (f k) (f' k) ∨ f k = pure false ∧ f' k = pure false) :
    CopiesTurn d c c' (peek >>= f) (peek >>= f') := by
  have hcopies : ∀ k, Copies .token c c' (f k) (f' k) := by
    intro k
    rcases hf k with h | ⟨h, h'⟩
    · exact h.copies.sighted
    · rw [h, h']
      exact .pure
  refine ⟨.bind .peek hcopies, fun s s₁ hrun hmistakes V s' hp hlimit => ?_⟩
  obtain ⟨k, _, hpeek, hrun⟩ := runs_bind.1 hrun
  obtain ⟨rfl, rfl⟩ := runs_peek.1 hpeek
  rcases hf _ with h | ⟨h, -⟩
  · have htakes := h.takes hrun hmistakes
    obtain ⟨s₁', hrun', hp'⟩ := (h.copies hrun).2 hmistakes hp hlimit
    have hkind := (hp.current (Nat.lt_of_lt_of_le htakes hlimit.le)).kind
    exact ⟨s₁', runs_bind.2 ⟨_, s', runs_peek.2 ⟨rfl, rfl⟩, hkind ▸ hrun'⟩, hp'⟩
  · rw [h] at hrun
    obtain ⟨hfalse, -⟩ := runs_pure.1 hrun
    contradiction

theorem CopiesTurn.turns {body body' : Production Bool} (h : CopiesTurn d c c' body body') {n n' : Nat}
    (hn : n ≤ n') : Copies .token c c' (turns body n) (turns body' n') :=
  .iterate (fun _ => h.copies.bind fun _ => .pure) hn ()

namespace Crosses

variable {body body' : Production Bool} {pre post : List Terminal} {F H : Token.Kind → Prop}
  {G : SymbolTable → Prop}

/-- A turn in front of the one in which the place is reached. -/
theorem turns_next (hturn : CopiesTurn d c c' body body') (hd : I.front.Shows d I.place)
    {xs : List Terminal}
    (hbody : Consumes c body xs H (· = true))
    (hpre : ∀ rest, F (nextKind rest) → H (nextKind (pre ++ (post ++ rest))))
    (hpost : ∀ rest, F (nextKind rest) → post ++ rest ≠ [])
    (hG : ∀ s b s₁, Runs c body s b s₁ → G s.table → G s₁.table)
    (hcross : ∀ n n', n < n' → Crosses I c c' G (turns body n) (turns body' n') pre post F) :
    ∀ n n', n < n' → Crosses I c c' G (turns body n) (turns body' n') (xs ++ pre) post F := by
  intro n n' hlt
  refine ⟨(hturn.turns (Nat.le_of_lt hlt)).keeps,
    fun s u s₂ s' rest hrun hmistakes hn hg hahead hF hp hplace => ?_⟩
  obtain ⟨n', rfl⟩ : ∃ k, n' = k + 1 := ⟨n' - 1, by omega⟩
  cases n with
  | zero => exact absurd hrun runs_throw
  | succ n =>
    obtain ⟨b, s₁, h₁, h⟩ := runs_turns_succ.1 hrun
    rw [List.append_assoc] at hahead
    obtain ⟨rfl, htakes⟩ := hbody h₁ hn hahead (hpre rest hF)
    replace h := (h.resolve_right fun h => absurd h.1 (by simp)).2
    have hlater := hturn.copies.later h₁
    have hle := hlater.mistakes
    have hle' := ((hturn.turns (Nat.le_refl n)).later h).mistakes
    have htaken := hlater.taken_eq hn htakes.named (fun i hi => ?_) hahead htakes.ahead
      (List.append_ne_nil_of_right_ne_nil _ (hpost rest hF))
    · rw [List.length_append] at hplace
      obtain ⟨s₁', h₁', hp₁⟩ := hturn.finishes h₁ (by omega) hp (hd.mono (by omega))
      obtain ⟨s₂', h', hresumed⟩ := (hcross n n' (by omega)).meets h (by omega) htakes.named
        (hG _ _ _ h₁ hg) htakes.ahead hF hp₁ (by omega)
      exact ⟨s₂', runs_turns_succ.2 ⟨true, s₁', h₁', .inl ⟨rfl, h'⟩⟩, hresumed⟩
    · rw [hp.first] at hi ⊢
      exact I.ends _ hi

/-- At the place, one more turn of the loop skips what is inserted. -/
theorem turns_here (hturn : CopiesTurn d c c' body body')
    (hrecover : ∀ ⦃n s u s₁ s'⦄, Runs c (turns body n) s u s₁ → s₁.mistakes = s.mistakes →
      s.Named → G s.table → s.Paired I.front s' → s.taken = I.place →
        ∃ s₂', Runs c' body' s' true s₂' ∧ I.Resumed s s₂') :
    ∀ n n', n < n' → Crosses I c c' G (turns body n) (turns body' n') [] post F := by
  intro n n' hlt
  refine ⟨(hturn.turns (Nat.le_of_lt hlt)).keeps,
    fun s u s₁ s' rest hrun hmistakes hn hg hahead hF hp hplace => ?_⟩
  obtain ⟨n', rfl⟩ : ∃ k, n' = k + 1 := ⟨n' - 1, by omega⟩
  obtain ⟨s₂', hbody, hresumed⟩ := hrecover hrun hmistakes hn hg hp hplace
  obtain ⟨s₁', hrun', hresumed'⟩ :=
    (hturn.turns (Nat.le_of_lt_succ hlt)).resumed hrun hmistakes hresumed
  exact ⟨s₁', runs_turns_succ.2 ⟨true, s₂', hbody, .inl ⟨rfl, hrun'⟩⟩, hresumed'⟩

/-- The place is reached inside a turn. -/
theorem turns_inside (hturn : CopiesTurn d c c' body body') {ys : List Terminal}
    (hbody : Crosses I c c' G body body' pre post H)
    (hH : ∀ rest, F (nextKind rest) → H (nextKind (ys ++ rest))) {n n' : Nat} (hn : n ≤ n') :
    Crosses I c c' G (turns body n) (turns body' n') pre (post ++ ys) F := by
  refine ⟨(hturn.turns hn).keeps, fun s u s₂ s' rest hrun hmistakes hnamed hg hahead hF hp hplace => ?_⟩
  cases n with
  | zero => exact absurd hrun runs_throw
  | succ n =>
    obtain ⟨n', rfl⟩ : ∃ k, n' = k + 1 := ⟨n' - 1, by omega⟩
    obtain ⟨b, s₁, h₁, h⟩ := runs_turns_succ.1 hrun
    rw [List.append_assoc] at hahead
    have hle := (hbody.later h₁).mistakes
    have hle' : s₁.mistakes ≤ s₂.mistakes := by
      rcases h with ⟨-, h⟩ | ⟨-, rfl⟩
      · exact ((hturn.turns (Nat.le_refl n)).later h).mistakes
      · exact Nat.le_refl _
    obtain ⟨s₁', hrun₁, hresumed⟩ := hbody.meets h₁ (by omega) hnamed hg hahead (hH rest hF) hp hplace
    rcases h with ⟨rfl, h⟩ | ⟨rfl, rfl⟩
    · obtain ⟨s₂', hrun₂, hresumed'⟩ :=
        (hturn.turns (Nat.le_of_succ_le_succ hn)).resumed h (by omega) hresumed
      exact ⟨s₂', runs_turns_succ.2 ⟨true, s₁', hrun₁, .inl ⟨rfl, hrun₂⟩⟩, hresumed'⟩
    · exact ⟨s₁', runs_turns_succ.2 ⟨false, s₁', hrun₁, .inr ⟨rfl, rfl⟩⟩, hresumed⟩

end Crosses

end Production

end MicroJava
