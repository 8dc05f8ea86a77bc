import MicroJava.Proofs.EvolvingProgram
import MicroJava.Proofs.Insertion

/-!
# Recovering at what is inserted

Each recovery skips the tokens that are inserted, if it stops at none of them and stops behind them
(`Insertion.SkippedAtMethods`, `Insertion.SkippedAtDeclarations`, `Insertion.SkippedInBlock`). The
declarations of a program go on at the name of a type, which a declaration of variables starts with unless
it is a mistake (`isType_of_variableDeclaration`).
-/

namespace MicroJava

open Token

/-! ### Type names -/

/-- No name of a table that comes about in steps stands for the entry of undeclared names. -/
theorem SymbolTable.Step.scopes {t t' : SymbolTable} (h : t.Step t') (ht : t.Predeclared)
    (hs : ∀ s ∈ t.outermost :: t.inner, s.Sound) : ∀ s ∈ t'.outermost :: t'.inner, s.Sound := by
  cases h with
  | declare category name _ =>
    rw [SymbolTable.declare]
    split
    · exact hs
    · have hfresh : (⟨t.entries.size⟩ : EntryId) ≠ .none := by
        have hsize := Nat.lt_of_lt_of_le Sound.initial.nonempty ht.size_le
        exact fun heq => Nat.ne_of_gt hsize (congrArg EntryId.index heq)
      obtain ⟨entries, types, inner, outermost⟩ := t
      cases inner with
      | nil =>
        rw [List.forall_mem_cons] at hs ⊢
        exact ⟨hs.1.insert hfresh, hs.2⟩
      | cons s outer =>
        simp only [List.forall_mem_cons] at hs
        refine List.forall_mem_cons.2 ⟨hs.1, List.forall_mem_cons.2 ⟨?_, hs.2.2⟩⟩
        exact hs.2.1.insert hfresh
  | update _ _ _ => simpa using hs
  | arrayOf _ => exact hs
  | newClass => exact hs
  | setFields _ _ => exact hs
  | openScope =>
    rw [List.forall_mem_cons] at hs
    exact List.forall_mem_cons.2 ⟨hs.1, List.forall_mem_cons.2 ⟨.empty, hs.2⟩⟩
  | closeScope =>
    obtain ⟨entries, types, _ | ⟨s, outer⟩, outermost⟩ := t
    · exact hs
    · simp only [List.forall_mem_cons] at hs
      exact List.forall_mem_cons.2 ⟨hs.1, hs.2.2⟩

theorem SymbolTable.Reachable.ne_none {t : SymbolTable} (h : t.Reachable) {name : String}
    {id : EntryId} (hid : t.lookup? name = some id) : id ≠ .none := by
  have hs : ∀ s ∈ t.outermost :: t.inner, s.Sound := by
    clear hid
    induction h with
    | refl => exact List.forall_mem_cons.2 ⟨Sound.initial.outermost, Sound.initial.inner⟩
    | tail h hstep ih => exact hstep.scopes (Reachable.predeclared h) ih
  simp only [List.forall_mem_cons] at hs
  rcases Option.or_eq_some_iff.1 hid with hl | ⟨-, hl⟩
  · obtain ⟨s, hmem, hl⟩ := List.exists_of_findSome?_eq_some hl
    exact (hs.2 s hmem).find hl
  · exact hs.1.find hl

namespace Production

variable {c c' : Setting} {s s' s₁ : Session} {u : Unit}

/-- Unless it is a mistake, a type starts with its name. -/
theorem isType_of_namedType {t : TypeId} (hrun : Runs c namedType s t s₁)
    (hm : s₁.mistakes = s.mistakes) (hs : s.table.Reachable) (hk : s.current.kind = .identifier)
    (hname : s.current.name ≠ "") :
    ∃ id e, s.table.lookup? s.current.name = some id ∧ s.table.entryAt? id = some e ∧
      e.isType = true := by
  simp only [namedType, runs_bind, runs_entry] at hrun
  obtain ⟨name, s₂, hidentifier, id, s₃, hfind, e, s₄, ⟨hentry, rfl⟩, hrun⟩ := hrun
  obtain ⟨-, rfl, rfl⟩ := (runs_identifier.1 hidentifier).resolve_right fun h => h.1 hk
  have hm₄ : s₄.mistakes ≤ s₁.mistakes := by
    exact (Copies.ite .pure (.bind .reportIf fun _ => .pure) :
      Copies .nothing c c _ _).keeps hrun |>.mistakes
  rcases runs_find.1 hfind with ⟨hempty, -⟩ | ⟨-, -, -, rfl⟩ | ⟨-, hid, rfl⟩
  · exact absurd hempty hname
  · simp only [Session.mistakes_report, Session.mistakes_advance] at hm₄
    omega
  · refine ⟨id, e, hid, hentry, ?_⟩
    by_contra htype
    rw [if_neg htype] at hrun
    obtain ⟨_, s₅, hreport, hret⟩ := runs_bind.1 hrun
    obtain ⟨-, rfl⟩ := runs_pure.1 hret
    rw [runs_reportIf.1 hreport] at hm
    have hne : id ≠ .none := hs.ne_none hid
    simp [Session.reportIf, hne] at hm

/-- Unless it is a mistake, a declaration of variables starts with the name of a type. -/
theorem isType_of_variableDeclaration (hrun : Runs c variableDeclaration s u s₁)
    (hm : s₁.mistakes = s.mistakes) (hs : s.table.Reachable) (hk : s.current.kind = .identifier)
    (hname : s.current.name ≠ "") :
    ∃ id e, s.table.lookup? s.current.name = some id ∧ s.table.entryAt? id = some e ∧
      e.isType = true := by
  obtain ⟨t, s₂, htype, hnames⟩ := runs_bind.1 hrun
  obtain ⟨t', s₃, hnamed, hbrackets⟩ := runs_bind.1 htype
  have hle₃ := ((Copies.namedType : Copies .nothing c c _ _).later hnamed).mistakes
  have hle₂ := ((Copies.bind .check fun _ => .ite (.bind .advance fun _ => .bind .expect fun _ =>
    .arrayOf) .pure : Copies .token c c _ _).later hbrackets).mistakes
  have hle₁ := ((Copies.bind (.repeatWhile ⟨rfl, Nat.le_refl _⟩ .variableName) fun _ => .expect :
    Copies .token c c _ _).later hnames).mistakes
  exact isType_of_namedType hnamed (by omega) hs hk hname

/-! ### Skipping -/

/-- Tokens are skipped up to the first place that is found. -/
theorem runs_skipUntil {found : Production Bool} {n : Nat} (hn : 0 < n) (hbound : n ≤ c.bound)
    (hgo : ∀ i, 0 < i → i < n → Runs c found (s.skip i) false (s.skip i))
    (hstop : Runs c found (s.skip n) true (s.skip n)) :
    Runs c (skipUntil found) s () (s.skip n) := by
  have hturn : ∀ i b, Runs c found (s.skip (i + 1)) b (s.skip (i + 1)) →
      Runs c (do advance; return !(← found)) (s.skip i) (!b) (s.skip (i + 1)) := fun i b h =>
    runs_bind.2 ⟨(), _, runs_advance.2 rfl, runs_bind.2 ⟨b, _, h, runs_pure.2 ⟨rfl, rfl⟩⟩⟩
  have hturns : ∀ k i m, i + k + 1 = n → k < m →
      Runs c (turns (do advance; return !(← found)) m) (s.skip i) () (s.skip n) := by
    intro k
    induction k with
    | zero =>
      intro i m hi hm
      obtain ⟨m, rfl⟩ : ∃ j, m = j + 1 := ⟨m - 1, by omega⟩
      subst hi
      exact runs_turns_succ.2 ⟨false, _, hturn i true hstop, .inr ⟨rfl, rfl⟩⟩
    | succ k ih =>
      intro i m hi hm
      obtain ⟨m, rfl⟩ : ∃ j, m = j + 1 := ⟨m - 1, by omega⟩
      exact runs_turns_succ.2 ⟨true, _, hturn i false (hgo _ (by omega) (by omega)),
        .inl ⟨rfl, ih (i + 1) m (by omega) (by omega)⟩⟩
  rw [skipUntil, repeatWhile_eq]
  exact runs_bind.2 ⟨c, s, runs_read.2 ⟨rfl, rfl⟩, hturns (n - 1) 0 c.bound (by omega) (by omega)⟩

end Production

namespace Insertion

open Production

variable {I : Insertion} {c : Setting} {s s' s₁ : Session} {u : Unit}

/-- The tokens of the second text, from the place on. -/
theorem upcoming_report (hp : s.Paired I.front s') (hplace : s.taken = I.place) (least : UInt32)
    (i : Nat) : (s'.report least I.problem []).upcoming i = I.second (I.place + i) := by
  have hsecond := hp.second i
  rw [hp.taken, hplace] at hsecond
  cases i <;> exact hsecond

/-- The first of the inserted tokens is the next one. -/
theorem current_front (hp : s.Paired I.front s') (hplace : s.taken = I.place) :
    s'.current = I.second I.place := upcoming_report hp hplace 0 0

/-- Behind the inserted tokens, the first text goes on. -/
theorem kind_behind : (I.second (I.place + I.length)).kind = (I.first I.place).kind :=
  (I.behind I.place (Nat.le_refl _)).kind

/-- A recovery of the methods stops behind the inserted tokens. -/
structure SkippedAtMethods (I : Insertion) : Prop where
  problem : I.problem = .invalidMethod
  pos : 0 < I.length
  inserted : ∀ i < I.length, methodStops.contains (I.second (I.place + i)).kind = false
  behind : methodStops.contains (I.first I.place).kind = true

theorem SkippedAtMethods.runs (h : I.SkippedAtMethods) (hbound : I.length ≤ c.bound)
    (hp : s.Paired I.front s') (hplace : s.taken = I.place) :
    ∃ s₁', Runs c methodTurn s' true s₁' ∧ I.Resumed s s₁' := by
  have hupcoming := upcoming_report hp hplace c.options.reportDistance
  have hrecover : Runs c recoverMethod s' ()
      (((s'.report c.options.reportDistance I.problem []).skip I.length).resume) := by
    rw [recoverMethod, h.problem]
    refine runs_bind.2 ⟨(), _, runs_report.2 rfl, runs_bind.2 ⟨(), _, ?_, runs_resume.2 rfl⟩⟩
    rw [h.problem] at hupcoming
    refine runs_skipUntil h.pos hbound (fun i _ hi => runs_checkAny.2 ⟨?_, rfl⟩)
      (runs_checkAny.2 ⟨?_, rfl⟩) <;> rw [Session.current_skip, hupcoming]
    · exact (h.inserted i hi).symm
    · rw [kind_behind, h.behind]
  refine ⟨_, ?_, resumed hp hplace c.options.reportDistance⟩
  have hfirst := h.inserted 0 h.pos
  rw [Nat.add_zero, ← current_front hp hplace, methodStops, KindSet.contains_ofList] at hfirst
  refine runs_bind.2 ⟨_, s', runs_peek.2 ⟨rfl, rfl⟩, ?_⟩
  split
  case h_5 => exact runs_bind.2 ⟨(), _, hrecover, runs_pure.2 ⟨rfl, rfl⟩⟩
  all_goals simp_all

/-! ### Declarations -/

theorem runs_atTypeName_of_ne (hk : s.current.kind ≠ .identifier) : Runs c atTypeName s false s := by
  refine runs_bind.2 ⟨s, s, runs_get.2 ⟨rfl, rfl⟩, ?_⟩
  rw [if_pos hk]
  exact runs_pure.2 ⟨rfl, rfl⟩

theorem runs_atTypeName {id : EntryId} {e : Entry} (hk : s.current.kind = .identifier)
    (hid : s.table.lookup? s.current.name = some id) (he : s.table.entryAt? id = some e) :
    Runs c atTypeName s e.isType s := by
  refine runs_bind.2 ⟨s, s, runs_get.2 ⟨rfl, rfl⟩, ?_⟩
  rw [if_neg (not_not.2 hk)]
  refine runs_bind.2 ⟨s.table, s, runs_table.2 ⟨rfl, rfl⟩, ?_⟩
  simp only [hid]
  exact runs_bind.2 ⟨e, s, runs_entry.2 ⟨he, rfl⟩, runs_pure.2 ⟨rfl, rfl⟩⟩

/-- A recovery of the declarations stops behind the inserted tokens, if a name there is that of a type. -/
structure SkippedAtDeclarations (I : Insertion) : Prop where
  problem : I.problem = .invalidDeclaration
  pos : 0 < I.length
  inserted : ∀ i < I.length, declarationStops.contains (I.second (I.place + i)).kind = false ∧
    (I.second (I.place + i)).kind ≠ .semicolon ∧ (I.second (I.place + i)).kind ≠ .identifier
  behind : declarationStops.contains (I.first I.place).kind = true ∨
    (I.first I.place).kind = .identifier

theorem SkippedAtDeclarations.recovers (h : I.SkippedAtDeclarations) (hbound : I.length ≤ c.bound)
    (hp : s.Paired I.front s') (hplace : s.taken = I.place)
    (htype : s.current.kind = .identifier → ∃ id e, s.table.lookup? s.current.name = some id ∧
      s.table.entryAt? id = some e ∧ e.isType = true) :
    Runs c recoverDeclaration s' ()
      (((s'.report c.options.reportDistance I.problem []).skip I.length).resume) := by
  have hupcoming := upcoming_report hp hplace c.options.reportDistance
  rw [recoverDeclaration, ← h.problem]
  refine runs_bind.2 ⟨(), _, runs_report.2 rfl, runs_bind.2 ⟨(), _, ?_, runs_resume.2 rfl⟩⟩
  have hprevious : ∀ i, 0 < i → i ≤ I.length →
      ((s'.report c.options.reportDistance I.problem []).skip i).previous.kind ≠ .semicolon := by
    intro i hpos hi
    obtain ⟨j, rfl⟩ : ∃ j, i = j + 1 := ⟨i - 1, by omega⟩
    rw [Session.previous_skip, hupcoming]
    exact (h.inserted j hi).2.1
  refine runs_skipUntil h.pos hbound (fun i hpos hi => ?_) ?_
  · obtain ⟨hstops, -, hidentifier⟩ := h.inserted i hi
    refine runs_bind.2 ⟨false, _, runs_checkAny.2 ⟨?_, rfl⟩,
      runs_bind.2 ⟨_, _, runs_get.2 ⟨rfl, rfl⟩, ?_⟩⟩
    · rw [Session.current_skip, hupcoming, hstops]
    · rw [if_neg (hprevious i hpos (Nat.le_of_lt hi))]
      refine runs_atTypeName_of_ne ?_
      rwa [Session.current_skip, hupcoming]
  · have hcurrent : ((s'.report c.options.reportDistance I.problem []).skip I.length).current =
        I.second (I.place + I.length) := by rw [Session.current_skip, hupcoming]
    refine runs_bind.2 ⟨_, _, runs_checkAny.2 ⟨rfl, rfl⟩, ?_⟩
    rw [hcurrent, kind_behind]
    rcases hstops : declarationStops.contains (I.first I.place).kind with _ | _
    · -- what follows is a name, which has to be that of a type
      have hfirst : s.current = I.first I.place := hplace ▸ hp.first 0
      have hk := h.behind.resolve_left (by simp [hstops])
      obtain ⟨id, e, hid, he, htrue⟩ := htype (by rw [hfirst, hk])
      have htable := (Session.table_skip (s := s'.report c.options.reportDistance I.problem [])
        I.length).trans hp.table
      have hsame := (I.behind I.place (Nat.le_refl _)).name hk
      rw [hfirst, ← hsame, ← hcurrent, ← htable] at hid
      rw [← htable] at he
      refine runs_bind.2 ⟨_, _, runs_get.2 ⟨rfl, rfl⟩, ?_⟩
      rw [if_neg (hprevious _ h.pos (Nat.le_refl _))]
      exact htrue ▸ runs_atTypeName (by rw [hcurrent, kind_behind, hk]) hid he
    · exact runs_pure.2 ⟨rfl, rfl⟩

theorem SkippedAtDeclarations.runs (h : I.SkippedAtDeclarations) (hbound : I.length ≤ c.bound)
    (hp : s.Paired I.front s') (hplace : s.taken = I.place)
    (htype : s.current.kind = .identifier → ∃ id e, s.table.lookup? s.current.name = some id ∧
      s.table.entryAt? id = some e ∧ e.isType = true) :
    ∃ s₁', Runs c declarationTurn s' true s₁' ∧ I.Resumed s s₁' := by
  refine ⟨_, ?_, resumed hp hplace c.options.reportDistance⟩
  have hkind := h.inserted 0 h.pos
  rw [Nat.add_zero, ← current_front hp hplace, declarationStops, KindSet.contains_ofList] at hkind
  refine runs_bind.2 ⟨_, s', runs_peek.2 ⟨rfl, rfl⟩, ?_⟩
  split
  case h_6 =>
    exact runs_bind.2 ⟨(), _, h.recovers hbound hp hplace htype, runs_pure.2 ⟨rfl, rfl⟩⟩
  all_goals simp_all

/-! ### Statements -/

/-- A recovery of a statement stops at the last of the inserted tokens, a semicolon. -/
structure SkippedInBlock (I : Insertion) : Prop where
  problem : I.problem = .invalidStatement
  length : 2 ≤ I.length
  first : statementStops.contains (I.second I.place).kind = false ∧
    (I.second I.place).kind ≠ .leftBrace ∧ (I.second I.place).kind ≠ .identifier
  /-- No `else` is next, with or without the inserted tokens. -/
  elses : (I.first I.place).kind ≠ .elseWord ∧ (I.second I.place).kind ≠ .elseWord
  inserted : ∀ i, 0 < i → i + 1 < I.length →
    statementStops.contains (I.second (I.place + i)).kind = false
  last : ∀ i, i + 1 = I.length → (I.second (I.place + i)).kind = .semicolon

theorem SkippedInBlock.shows (h : I.SkippedInBlock) : I.front.Shows .whetherElse I.place := by
  refine ⟨Nat.le_refl _, fun i hi _ => ?_⟩
  rcases Nat.lt_or_eq_of_le hi with hlt | rfl
  · exact iff_of_eq (congrArg (· = _) (I.before i hlt).kind)
  · exact iff_of_false h.elses.2 h.elses.1

theorem SkippedInBlock.runs (h : I.SkippedInBlock) (hbound : I.length ≤ c.bound)
    (hp : s.Paired I.front s') (hplace : s.taken = I.place) {depth : Nat} (hdepth : 0 < depth)
    (exit : Option Label) :
    ∃ s₁', Runs c (World.Checks.blockTurn (nestedStatement depth) exit) s' true s₁' ∧
      I.Resumed s s₁' := by
  have hlength := h.length
  have hupcoming := upcoming_report hp hplace c.options.reportDistance
  obtain ⟨n, hn⟩ : ∃ n, n + 1 = I.length := ⟨I.length - 1, by omega⟩
  have hrecover : Runs c recoverStatement s' ()
      (((s'.report c.options.reportDistance I.problem []).skip I.length).resume) := by
    rw [recoverStatement, h.problem]
    rw [h.problem] at hupcoming
    refine runs_bind.2 ⟨(), _, runs_report.2 rfl, runs_bind.2
      ⟨(), (s'.report c.options.reportDistance .invalidStatement []).skip n, ?_,
        runs_bind.2 ⟨(), _, ?_, runs_resume.2 rfl⟩⟩⟩
    · refine runs_skipUntil (by omega) (by omega) (fun i hpos hi => runs_checkAny.2 ⟨?_, rfl⟩)
        (runs_checkAny.2 ⟨?_, rfl⟩) <;> rw [Session.current_skip, hupcoming]
      · exact (h.inserted i hpos (by omega)).symm
      · rw [h.last n hn]
        decide
    · refine runs_takeIf.2 (.inl ⟨?_, by rw [← hn]; rfl⟩)
      rw [Session.current_skip, hupcoming, h.last n hn]
  refine ⟨_, ?_, resumed hp hplace c.options.reportDistance⟩
  have hfirst := h.first
  rw [← current_front hp hplace, statementStops, KindSet.contains_ofList] at hfirst
  have hstatement : Runs c (nestedStatement depth exit) s' ()
      (((s'.report c.options.reportDistance I.problem []).skip I.length).resume) := by
    obtain ⟨depth, rfl⟩ : ∃ j, depth = j + 1 := ⟨depth - 1, by omega⟩
    refine runs_bind.2 ⟨_, s', runs_peek.2 ⟨rfl, rfl⟩, ?_⟩
    split
    case h_10 => exact hrecover
    all_goals simp_all
  refine runs_bind.2 ⟨_, s', runs_peek.2 ⟨rfl, rfl⟩, ?_⟩
  split
  case h_3 => exact runs_bind.2 ⟨(), _, hstatement, runs_pure.2 ⟨rfl, rfl⟩⟩
  all_goals simp_all

end Insertion

end MicroJava
