import MicroJava.Proofs.ParsingProgram
import MicroJava.Proofs.Segment

/-!
# Source texts

What the diagnostics of a compilation tell of its run: there is none exactly if there was no mistake
(`log_eq_nil_iff`), and where every report is kept, one of them is syntactic exactly if there was a slip
(`exists_syntactic_iff`). A run without a slip has read a program (`derives_of_slips`).
-/

namespace MicroJava

/-- What a text consists of, as the grammar sees it. -/
def Token.Stream.terminals (stream : Token.Stream) : List Terminal :=
  stream.ahead.map (·.token.terminal)

/-- The text has no lexical errors. -/
def LexicallyCorrect (source : String) : Prop :=
  ∀ t ∈ (Token.scan source).ahead, t.diagnostics = []

instance (source : String) : Decidable (LexicallyCorrect source) :=
  inferInstanceAs (Decidable (∀ t ∈ (Token.scan source).ahead, t.diagnostics = []))

/-- The tokens of the text are those of the program, and behind them the end of the file. -/
def Tree.Program.Derives (q : Tree.Program) (source : String) : Prop :=
  q.NearestElse ∧ (Token.scan source).terminals = q.yield ++ [.word .endOfFile]

namespace Session

variable {source : String} {options : Options} {c : Setting} {s : Session}

/-- Behind the first step, all terminals of the text are ahead. -/
theorem terminals_eq (source : String) (options : Options) :
    (Token.scan source).terminals =
      (start (Token.scan source) options).advance.ahead ++ [.word .endOfFile] := by
  have hstep := ahead_advance (.start source options) (by simp [start])
  obtain ⟨ts, p, unclosed?, heq, hts⟩ := Token.scan_eq source
  have hne : ∀ t ∈ ts.map (·.token), decide (t.kind ≠ .endOfFile) = true := by
    intro t ht
    obtain ⟨t', ht', rfl⟩ := List.mem_map.1 ht
    obtain ⟨q, ch, cs, rfl⟩ := hts t' ht'
    exact decide_eq_true (Token.Lexeme.kind_ne_endOfFile ch cs)
  have htake : (start (Token.scan source) options).ahead =
      (start (Token.scan source) options).current.terminal :: ts.map (·.token.terminal) := by
    have hmap : (ts ++ [Token.Scanned.ofEnd p unclosed?]).map (·.token) =
        ts.map (·.token) ++ [(Token.Scanned.ofEnd p unclosed?).token] := by simp
    rw [heq, ahead, start, List.takeWhile_cons_of_pos (by simp), hmap,
      List.takeWhile_append_of_pos hne]
    simp [Token.Scanned.ofEnd]
  have hahead := List.cons_inj_right _ |>.1 (hstep.symm.trans htake)
  rw [hahead, heq]
  simp [Token.Stream.terminals, Token.Scanned.ofEnd, Token.terminal]

theorem Quiet.start (h : LexicallyCorrect source) (options : Options) :
    (start (Token.scan source) options).Quiet :=
  ⟨h, by simp [Session.start]⟩

/-- There are too few tokens for the distance to start again from zero. -/
theorem Watched.start (h : options.reportDistance = 0 ∨
      options.reportDistance.toNat + (Token.scan source).ahead.length < 2 ^ 32) :
    (start (Token.scan source) options).Watched options.reportDistance := by
  refine ⟨by simp [Session.start], .inr ⟨rfl, UInt32.le_refl _, h.imp id fun h => ?_⟩⟩
  have hstep := ahead_advance (.start source options) (by simp [Session.start])
  have hlength := congrArg List.length (terminals_eq source options)
  rw [List.length_append, Token.Stream.terminals, List.length_map] at hlength
  rw [hstep, List.length_cons]
  simp only [List.length_cons, List.length_nil] at hlength
  show options.reportDistance.toNat + _ < _
  omega

/-- What is known of the reports when the whole text is read. -/
structure Reported (s : Session) (least : UInt32) : Prop where
  all : least = 0 → ∀ d kept, .reported d kept ∈ s.journal.events → kept = true
  first : s.Logged ∨ s.mistakes = 0

end Session

namespace Production

variable {source : String} {options : Options} {c : Setting} {s : Session} {u : Unit}

theorem runs_sourceFile {s₀ : Session} (h : Runs c sourceFile s₀ u s) :
    ∃ s₂, Runs c program s₀.advance () s₂ ∧
      (s₂.current.kind = .endOfFile ∧ s = s₂.advance ∨
        s₂.current.kind ≠ .endOfFile ∧
          s = s₂.report c.options.reportDistance .tokenExpected [Token.Kind.endOfFile.label]) := by
  simp only [sourceFile, runs_bind, runs_advance] at h
  obtain ⟨_, _, rfl, _, s₂, hprogram, hend⟩ := h
  exact ⟨s₂, hprogram, runs_expect.1 hend⟩

theorem reported_of_runs
    (h : Runs (.ofStream options (Token.scan source)) sourceFile
      (.start (Token.scan source) options) u s)
    (hlength : options.reportDistance = 0 ∨
      options.reportDistance.toNat + (Token.scan source).ahead.length < 2 ^ 32) :
    s.Reported options.reportDistance := by
  obtain ⟨s₂, hprogram, hs⟩ := runs_sourceFile h
  have hnamed := Session.Named.start source options
  have hreads := reading_program (p := fun _ => True) trivial hprogram
  have hw : s₂.Watched options.reportDistance :=
    hreads.watched hnamed.advance ((Session.Watched.start hlength).advance hnamed
      (.inr (by simp [Session.start])))
  rcases hs with ⟨-, rfl⟩ | ⟨-, rfl⟩
  · refine ⟨fun hleast d kept hd => ?_, ?_⟩
    · rcases List.mem_cons.1 hd with heq | hd
      · contradiction
      · exact hw.all hleast d kept hd
    · rcases hw.first with ⟨d, hd⟩ | ⟨hclean, -⟩
      · exact .inl ⟨d, List.mem_cons_of_mem _ hd⟩
      · exact .inr (by simpa using hclean)
  · obtain ⟨hw', hlogged⟩ := hw.report .tokenExpected [Token.Kind.endOfFile.label]
    exact ⟨hw'.all, .inl hlogged⟩

theorem quiet_of_runs
    (h : Runs (.ofStream options (Token.scan source)) sourceFile
      (.start (Token.scan source) options) u s) (hcorrect : LexicallyCorrect source) :
    s.Quiet := by
  obtain ⟨s₂, hprogram, hs⟩ := runs_sourceFile h
  have hreads := reading_program (p := fun _ => True) trivial hprogram
  have hquiet := hreads.quiet (Session.Quiet.start hcorrect options).advance
  rcases hs with ⟨-, rfl⟩ | ⟨-, rfl⟩
  · exact hquiet.advance
  · exact hquiet.report ..

/-- A run without a slip has read a program. -/
theorem derives_of_slips
    (h : Runs (.ofStream options (Token.scan source)) sourceFile
      (.start (Token.scan source) options) u s) (hslips : s.slips = 0) :
    ∃ q : Tree.Program, q.Derives source := by
  obtain ⟨s₂, hprogram, hs⟩ := runs_sourceFile h
  have hnamed := Session.Named.start source options
  have hreads := reading_program (p := fun _ => True) trivial hprogram
  rcases hs with ⟨hk, rfl⟩ | ⟨-, rfl⟩
  · rw [Session.slips_advance] at hslips
    obtain ⟨q, hq, heq⟩ := hreads.reads hnamed.advance (by rw [hslips]; rfl)
    refine ⟨q, hq, ?_⟩
    rw [Session.terminals_eq source options, heq, Session.ahead_of_end hk, List.append_nil]
  · simp [Problem.isSyntactic] at hslips

end Production

/-! ### Diagnostics -/

namespace Session

variable {s : Session} {least : UInt32}

theorem mem_log {d : Diagnostic} :
    d ∈ s.journal.log.toList ↔ ∃ e ∈ s.journal.events, d ∈ e.diagnostics := by
  rw [Journal.log, Log.toList_extend]
  simp [Log.toList]

/-- Where there is no diagnostic, there was no mistake. -/
theorem Reported.mistakes (h : s.Reported least) (hlog : s.journal.log.toList = []) :
    s.mistakes = 0 := by
  rcases h.first with ⟨d, hd⟩ | hclean
  · have hmem : d ∈ s.journal.log.toList := mem_log.2 ⟨_, hd, by simp [Event.diagnostics]⟩
    rw [hlog] at hmem
    contradiction
  · exact hclean

/-- Where every token is correct, a diagnostic stems from a report. -/
theorem Quiet.exists_report (h : s.Quiet) {d : Diagnostic} (hd : d ∈ s.journal.log.toList) :
    .reported d true ∈ s.journal.events := by
  obtain ⟨e, he, hd⟩ := mem_log.1 hd
  cases e with
  | took t => simp [Event.diagnostics, h.taken t he] at hd
  | reported d' kept =>
    cases kept
    · simp [Event.diagnostics] at hd
    · obtain rfl : d = d' := by simpa [Event.diagnostics] using hd
      exact he
  | resumed => simp [Event.diagnostics] at hd

theorem log_eq_nil_iff (h : s.Reported least) (hq : s.Quiet) :
    s.journal.log.toList = [] ↔ s.mistakes = 0 := by
  refine ⟨h.mistakes, fun hclean => List.eq_nil_iff_forall_not_mem.2 fun d hd => ?_⟩
  exact List.countP_eq_zero.1 hclean _ (hq.exists_report hd) rfl

/-- Where every report is kept, a slip is in the log. -/
theorem exists_syntactic_iff (h : s.Reported 0) (hq : s.Quiet) :
    (∃ d ∈ s.journal.log.toList, d.problem.isSyntactic) ↔ s.slips ≠ 0 := by
  constructor
  · rintro ⟨d, hd, hp⟩ hslips
    exact List.countP_eq_zero.1 hslips _ (hq.exists_report hd) hp
  · intro hslips
    obtain ⟨e, he, hslip⟩ := List.countP_pos_iff.1 (Nat.pos_of_ne_zero hslips)
    cases e with
    | reported d kept =>
      obtain rfl := h.all rfl d kept he
      exact ⟨d, mem_log.2 ⟨_, he, by simp [Event.diagnostics]⟩, hslip⟩
    | took t => contradiction
    | resumed => contradiction

end Session

end MicroJava
