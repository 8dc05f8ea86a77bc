import Mathlib.Data.List.GetD
import MicroJava.Proofs.Characters
import MicroJava.Proofs.CrossingProgram

/-!
# Texts with tokens inserted

A program says between which of its terminals tokens may be inserted that no recovery stops at
(`Tree.Program.Admits`). If its text is compiled without diagnostics, a text with such tokens inserted is
compiled to the same image, with one diagnostic at the first of them (`compile_recovers`).
-/

namespace MicroJava

open Tree

namespace Token

/-! ### Tokens of texts -/

/-- Only numbers and character constants have values. -/
theorem Lexeme.value_eq_none {c : Char} {cs : List Char} (hnumber : (read c cs).kind ≠ .number)
    (hcharacter : (read c cs).kind ≠ .character) : (read c cs).value = none := by
  have hclose : ∀ ch more problems rest, (closeCharacter ch more problems rest).kind = .character := by
    intro ch more problems rest
    unfold closeCharacter
    split <;> rfl
  have hconstant : ∀ cs, (characterConstant cs).kind = .character := by
    intro cs
    unfold characterConstant
    split
    case h_6 => split <;> exact hclose _ _ _ _
    case h_7 => exact hclose _ _ _ _
    all_goals rfl
  unfold read at hnumber hcharacter ⊢
  split
  · rfl
  · next halpha =>
    rw [if_neg halpha] at hnumber hcharacter
    split
    · next hdigit =>
      rw [if_pos hdigit] at hnumber
      exact absurd (by unfold integer; dsimp only; split <;> rfl) hnumber
    · next hdigit =>
      rw [if_neg hdigit] at hcharacter
      split
      · next hquote =>
        rw [if_pos hquote] at hcharacter
        exact absurd (hconstant cs) hcharacter
      · unfold sign
        split <;> rfl

/-- The token carries nothing that its terminal does not show. -/
def Shown (t : Token) : Prop := t.kind ≠ .number → t.kind ≠ .character → t.literal = 0

theorem same_of_terminal {t t' : Token} (h : t'.terminal = t.terminal) (ht : t.Shown)
    (ht' : t'.Shown) : t.Same t' := by
  have hkind : t'.kind = t.kind := by rw [← kind_terminal, h, kind_terminal]
  refine ⟨hkind, ?_, fun hk => ?_⟩
  · by_cases hnumber : t.kind = .number
    · simpa [terminal, hkind, hnumber] using h
    · by_cases hcharacter : t.kind = .character
      · simpa [terminal, hkind, hcharacter] using h
      · rw [ht hnumber hcharacter, ht' (hkind ▸ hnumber) (hkind ▸ hcharacter)]
  · simpa [terminal, hkind, hk] using h

end Token

namespace Session

variable (source : String) (options : Options)

theorem upcoming_start_succ (i : Nat) :
    (start (Token.scan source) options).upcoming (i + 1) =
      ((Token.scan source).ahead[i]?.map (·.token)).getD (Token.scan source).last := rfl

theorem terminal_upcoming (i : Nat) :
    ((start (Token.scan source) options).upcoming (i + 1)).terminal =
      (Token.scan source).terminals.getD i (.word .endOfFile) := by
  obtain ⟨ts, p, unclosed?, heq, -⟩ := Token.scan_eq source
  rw [upcoming_start_succ, Token.Stream.terminals, List.getD, List.getElem?_map]
  rcases (Token.scan source).ahead[i]? with _ | t
  · rw [heq]
    rfl
  · rfl

theorem shown_upcoming (i : Nat) : ((start (Token.scan source) options).upcoming i).Shown := by
  obtain ⟨ts, p, unclosed?, heq, hts⟩ := Token.scan_eq source
  cases i with
  | zero => exact fun _ _ => rfl
  | succ i =>
    rw [upcoming_start_succ]
    rcases h : (Token.scan source).ahead[i]? with _ | t
    · rw [heq]
      exact fun _ _ => rfl
    · have hmem := List.mem_of_getElem? h
      rw [heq] at hmem
      rcases List.mem_append.1 hmem with hmem | hmem
      · obtain ⟨q, c, cs, rfl⟩ := hts t hmem
        intro hnumber hcharacter
        exact congrArg (·.getD 0) (Token.Lexeme.value_eq_none hnumber hcharacter)
      · obtain rfl := List.mem_singleton.1 hmem
        exact fun _ _ => rfl

/-- The end of the file is the last terminal of a text, and no other one. -/
theorem kind_ne_endOfFile {xs : List Terminal}
    (h : (Token.scan source).terminals = xs ++ [.word .endOfFile]) :
    ∀ t ∈ xs, t.kind ≠ .endOfFile := by
  obtain ⟨ts, p, unclosed?, heq, hts⟩ := Token.scan_eq source
  have hmap : ts.map (·.token.terminal) ++ [.word .endOfFile] = xs ++ [.word .endOfFile] := by
    rw [← h, heq]
    simp [Token.Stream.terminals, Token.Scanned.ofEnd, Token.terminal]
  rw [← List.append_cancel_right hmap]
  intro t ht
  obtain ⟨t, hmem, rfl⟩ := List.mem_map.1 ht
  obtain ⟨q, c, cs, rfl⟩ := hts t hmem
  rw [Token.kind_terminal]
  exact Token.Lexeme.kind_ne_endOfFile c cs

theorem ends_upcoming {xs : List Terminal}
    (h : (Token.scan source).terminals = xs ++ [.word .endOfFile]) {i : Nat}
    (hi : ((start (Token.scan source) options).upcoming i).kind = .endOfFile) :
    ((start (Token.scan source) options).upcoming (i + 1)).kind = .endOfFile := by
  cases i with
  | zero => contradiction
  | succ i =>
    have hle : xs.length ≤ i := by
      refine Nat.le_of_not_lt fun hlt => ?_
      rw [← Token.kind_terminal, terminal_upcoming, h, List.getD_append _ _ _ _ hlt,
        List.getD_eq_getElem _ _ hlt] at hi
      exact kind_ne_endOfFile source h _ (List.getElem_mem hlt) hi
    rw [← Token.kind_terminal, terminal_upcoming, h, List.getD_eq_default _ _ (by simp; omega)]
    rfl

end Session

/-! ### Insertions into texts -/

theorem kind_getD_length (xs ys : List Terminal) (d : Terminal) :
    ((xs ++ (ys ++ [Terminal.word .endOfFile])).getD xs.length d).kind = nextKind ys := by
  rw [List.getD_append_right _ _ _ _ (Nat.le_refl _), Nat.sub_self]
  cases ys <;> rfl

section Texts

variable {source source' : String} {before junk behind : List Terminal}

/-- The insertion of tokens into a text. -/
def Insertion.ofTexts (options : Options) (problem : Problem)
    (h : (Token.scan source).terminals = before ++ (behind ++ [.word .endOfFile]))
    (h' : (Token.scan source').terminals = before ++ (junk ++ behind ++ [.word .endOfFile])) :
    Insertion where
  first := (Session.start (Token.scan source) options).upcoming
  second := (Session.start (Token.scan source') options).upcoming
  ends i := Session.ends_upcoming source options (h.trans (List.append_assoc ..).symm)
  place := before.length + 1
  length := junk.length
  before i hi := by
    refine Token.same_of_terminal ?_ (Session.shown_upcoming source options i)
      (Session.shown_upcoming source' options i)
    cases i with
    | zero => rfl
    | succ i =>
      have hlt := Nat.lt_of_succ_lt_succ hi
      rw [Session.terminal_upcoming, Session.terminal_upcoming, h, h', List.getD_append _ _ _ _ hlt,
        List.getD_append _ _ _ _ hlt]
  behind i hi := by
    refine Token.same_of_terminal ?_ (Session.shown_upcoming source options i)
      (Session.shown_upcoming source' options _)
    obtain ⟨j, rfl⟩ : ∃ j, i = before.length + j + 1 := ⟨i - (before.length + 1), by omega⟩
    have hindex : before.length + j + 1 + junk.length = before.length + j + junk.length + 1 := by omega
    rw [hindex, Session.terminal_upcoming, Session.terminal_upcoming, h, h', List.append_assoc junk,
      List.getD_append_right before _ _ _ (by omega), List.getD_append_right before _ _ _ (by omega),
      List.getD_append_right junk _ _ _ (by omega)]
    congr 1
    omega
  problem

variable {options : Options} {p : Problem}
  {h : (Token.scan source).terminals = before ++ (behind ++ [.word .endOfFile])}
  {h' : (Token.scan source').terminals = before ++ (junk ++ behind ++ [.word .endOfFile])}

theorem Insertion.kind_first :
    ((ofTexts options p h h').first (before.length + 1)).kind = nextKind behind := by
  have hterminal := Session.terminal_upcoming source options before.length
  rw [← Token.kind_terminal]
  refine (congrArg Terminal.kind hterminal).trans ?_
  rw [h, kind_getD_length]

theorem Insertion.kind_second {i : Nat} (hi : i < junk.length) :
    ((ofTexts options p h h').second (before.length + 1 + i)).kind = junk[i].kind := by
  have hterminal := Session.terminal_upcoming source' options (before.length + i)
  rw [← Token.kind_terminal, show before.length + 1 + i = before.length + i + 1 by omega]
  refine (congrArg Terminal.kind hterminal).trans ?_
  rw [h', List.getD_append_right _ _ _ _ (by omega), Nat.add_sub_cancel_left, List.append_assoc,
    List.getD_append _ _ _ _ hi, List.getD_eq_getElem _ _ hi]

end Texts

/-! ### Programs with tokens inserted -/

namespace Tree.Program

variable {q : Program}

/-- Between the terminals `before` and `behind` of the program, the terminals `junk` may be inserted, at
the price of one mistake. -/
inductive Admits (q : Program) : Problem → List Terminal → List Terminal → List Terminal → Prop
  /-- In front of a method, or behind the last one. -/
  | method {ms ms' : List Tree.Method} {junk : List Terminal} : q.methods = ms ++ ms' → junk ≠ [] →
    (∀ t ∈ junk, t.kind ∉ [.identifier, .voidWord, .rightBrace]) →
    Admits q .invalidMethod
      ([.word .programWord, .name q.name] ++ (q.declarations.flatMap Declaration.yield ++
        ([.word .leftBrace] ++ ms.flatMap Tree.Method.yield)))
      junk (ms'.flatMap Tree.Method.yield ++ [.word .rightBrace])
  /-- In front of a declaration, or behind the last one. -/
  | declaration {ds ds' : List Declaration} {junk : List Terminal} : q.declarations = ds ++ ds' →
    junk ≠ [] → (∀ t ∈ junk, t.kind ∉ [.finalWord, .classWord, .leftBrace, .semicolon, .identifier]) →
    Admits q .invalidDeclaration ([.word .programWord, .name q.name] ++ ds.flatMap Declaration.yield)
      junk (ds'.flatMap Declaration.yield ++ .word .leftBrace ::
        (q.methods.flatMap Tree.Method.yield ++ [.word .rightBrace]))
  /-- In front of a statement of a block, or behind the last one. -/
  | statement {ms ms' : List Tree.Method} {m : Tree.Method} {front back : List Terminal} {t : Terminal}
      {ts : List Terminal} : q.methods = ms ++ m :: ms' → m.body.Splits front back →
    t.kind ∉ [.elseWord, .leftBrace, .rightBrace, .semicolon, .identifier, .ifWord, .whileWord,
      .breakWord, .returnWord, .readWord, .printWord] →
    (∀ u ∈ ts, u.kind ∉ [.ifWord, .whileWord, .breakWord, .returnWord, .readWord, .printWord,
      .semicolon, .rightBrace]) →
    Admits q .invalidStatement
      ([.word .programWord, .name q.name] ++ (q.declarations.flatMap Declaration.yield ++
        ([.word .leftBrace] ++ (ms.flatMap Tree.Method.yield ++ (m.front ++ front)))))
      (t :: ts ++ [.word .semicolon])
      (back ++ [.word .rightBrace] ++ ms'.flatMap Tree.Method.yield ++ [.word .rightBrace])

variable {p : Problem} {before junk behind : List Terminal}

theorem Admits.yield (h : q.Admits p before junk behind) : q.yield = before ++ behind := by
  cases h with
  | method hms _ _ => simp [Program.yield, hms]
  | declaration hds _ _ => simp [Program.yield, hds]
  | statement hms hbody _ _ => simp [Program.yield, hms, Method.yield_eq, hbody.yield]

theorem Admits.ne_nil (h : q.Admits p before junk behind) : junk ≠ [] := by
  cases h with
  | method _ hne _ => exact hne
  | declaration _ hne _ => exact hne
  | statement _ _ _ _ => simp

end Tree.Program

namespace Insertion

open Production Tree

variable {source source' : String} {options : Options} {before junk behind : List Terminal}

section Skipped

variable {p : Problem} (h : (Token.scan source).terminals = before ++ (behind ++ [.word .endOfFile]))
  (h' : (Token.scan source').terminals = before ++ (junk ++ behind ++ [.word .endOfFile]))

include h' in
theorem kind_ne_endOfFile : ∀ t ∈ junk, t.kind ≠ .endOfFile := by
  have heq : (Token.scan source').terminals = (before ++ (junk ++ behind)) ++ [.word .endOfFile] := by
    rw [h']
    simp
  exact fun t ht => Session.kind_ne_endOfFile source' heq t (by simp [ht])

/-- The inserted tokens are of the kinds of the inserted terminals. -/
theorem exists_kind_second {i : Nat} (hi : i < junk.length) :
    ∃ t ∈ junk, ((ofTexts options p h h').second (before.length + 1 + i)).kind = t.kind ∧
      t.kind ≠ .endOfFile :=
  ⟨junk[i], List.getElem_mem hi, kind_second hi, kind_ne_endOfFile h' _ (List.getElem_mem hi)⟩

theorem skippedAtMethods (hne : junk ≠ [])
    (hjunk : ∀ t ∈ junk, t.kind ∉ [.identifier, .voidWord, .rightBrace])
    (hbehind : nextKind behind ∈ [.identifier, .voidWord, .rightBrace]) :
    (ofTexts options .invalidMethod h h').SkippedAtMethods where
  problem := rfl
  pos := List.length_pos_iff.2 hne
  inserted i hi := by
    obtain ⟨t, ht, hkind, hend⟩ := exists_kind_second h h' hi
    have hstop := hjunk t ht
    refine (congrArg methodStops.contains hkind).trans ?_
    simp_all [methodStops]
  behind := by
    refine (congrArg methodStops.contains kind_first).trans ?_
    rw [methodStops, Token.KindSet.contains_ofList, List.contains_iff_mem]
    exact List.mem_append_left [.endOfFile] hbehind

theorem skippedAtDeclarations (hne : junk ≠ [])
    (hjunk : ∀ t ∈ junk, t.kind ∉ [.finalWord, .classWord, .leftBrace, .semicolon, .identifier])
    (hbehind : nextKind behind ∈ [.finalWord, .classWord, .leftBrace, .identifier]) :
    (ofTexts options .invalidDeclaration h h').SkippedAtDeclarations where
  problem := rfl
  pos := List.length_pos_iff.2 hne
  inserted i hi := by
    obtain ⟨t, ht, hkind, hend⟩ := exists_kind_second h h' hi
    have hstop := hjunk t ht
    simp only [List.mem_cons, List.not_mem_nil, or_false, not_or] at hstop
    refine ⟨(congrArg declarationStops.contains hkind).trans ?_, hkind.trans_ne hstop.2.2.2.1,
      hkind.trans_ne hstop.2.2.2.2⟩
    simp_all [declarationStops]
  behind := by
    have hkind : ((ofTexts options .invalidDeclaration h h').first (before.length + 1)).kind =
        nextKind behind := kind_first
    by_cases hidentifier : nextKind behind = .identifier
    · exact .inr (hkind.trans hidentifier)
    · refine .inl ((congrArg declarationStops.contains hkind).trans ?_)
      simp only [List.mem_cons, List.not_mem_nil, or_false, hidentifier] at hbehind
      rw [declarationStops, Token.KindSet.contains_ofList, List.contains_iff_mem]
      simp only [List.mem_cons]
      tauto

theorem skippedInBlock {t : Terminal} {ts : List Terminal}
    (h' : (Token.scan source').terminals =
      before ++ (t :: ts ++ [.word .semicolon] ++ behind ++ [.word .endOfFile]))
    (ht : t.kind ∉ [.elseWord, .leftBrace, .rightBrace, .semicolon, .identifier, .ifWord, .whileWord,
      .breakWord, .returnWord, .readWord, .printWord])
    (hts : ∀ u ∈ ts, u.kind ∉ [.ifWord, .whileWord, .breakWord, .returnWord, .readWord, .printWord,
      .semicolon, .rightBrace])
    (hbehind : nextKind behind ≠ .elseWord) :
    (ofTexts options .invalidStatement h h').SkippedInBlock := by
  have hkindBehind : ((ofTexts options .invalidStatement h h').first (before.length + 1)).kind =
      nextKind behind := kind_first
  have hkind : ∀ {i} (hi : i < (t :: ts ++ [Terminal.word .semicolon]).length),
      ((ofTexts options .invalidStatement h h').second (before.length + 1 + i)).kind =
        (t :: ts ++ [Terminal.word .semicolon])[i].kind := kind_second
  have hfirst : ((ofTexts options .invalidStatement h h').second (before.length + 1)).kind = t.kind :=
    hkind (i := 0) (by simp)
  have hend := kind_ne_endOfFile h'
  have hne : ∀ k ∈ [Token.Kind.elseWord, .leftBrace, .identifier],
      ((ofTexts options .invalidStatement h h').second (before.length + 1)).kind ≠ k := by
    intro k hk heq
    rw [hfirst] at heq
    simp_all
  refine ⟨rfl, by simp [ofTexts], ⟨?_, hne _ (by simp), hne _ (by simp)⟩,
    ⟨hkindBehind.trans_ne hbehind, hne _ (by simp)⟩, fun i hpos hi => ?_,
    fun i hi => ?_⟩
  · have := hend t (by simp)
    refine (congrArg statementStops.contains hfirst).trans ?_
    simp_all [statementStops]
  · obtain ⟨i, rfl⟩ : ∃ j, i = j + 1 := ⟨i - 1, by omega⟩
    have hlt : i < ts.length := by
      simp only [ofTexts, List.length_append, List.length_cons, List.length_nil] at hi
      omega
    have hstop := hts _ (List.getElem_mem hlt)
    have := hend ts[i] (by simp)
    refine (congrArg statementStops.contains (hkind (by simp; omega))).trans ?_
    rw [List.getElem_append_left (by simpa using hlt), List.getElem_cons_succ]
    simp_all [statementStops]
  · have heq : i = ts.length + 1 := by
      simp only [ofTexts, List.length_append, List.length_cons, List.length_nil] at hi
      omega
    subst heq
    refine (hkind (by simp)).trans ?_
    simp [Terminal.kind]

end Skipped

end Insertion

namespace Production

open Tree

variable {q : Program} {source source' : String} {options : Options} {p : Problem}
  {before junk behind : List Terminal} {c c' : Setting}

/-- Where tokens may be inserted, the program is crossed. -/
theorem crosses_program (hq : q.NearestElse) (hadmits : q.Admits p before junk behind)
    (h : (Token.scan source).terminals = before ++ (behind ++ [.word .endOfFile]))
    (h' : (Token.scan source').terminals = before ++ (junk ++ behind ++ [.word .endOfFile]))
    (hc : c.Extends c') (hroom : c.bound < c'.bound) (hlength : junk.length ≤ c'.bound) :
    Crosses (.ofTexts options p h h') c c' SymbolTable.Reachable program program before behind
      fun _ => True := by
  cases hadmits with
  | @method ms ms' _ hms hne hjunk =>
    refine Crosses.anywhere (Crosses.programInMethods hc (Crosses.methodsHere hc hroom ?_ hlength ?_))
    · refine Insertion.skippedAtMethods h h' hne hjunk ?_
      rcases ms' with _ | ⟨m, ms'⟩
      · simp [Terminal.kind]
      · rw [List.flatMap_cons, m.yield_eq, List.append_assoc, List.append_assoc]
        rcases m.nextKind_front (m.body.yield ++ [.word .rightBrace] ++
          (ms'.flatMap Tree.Method.yield ++ [.word .rightBrace])) with heq | heq <;> simp_all
    · exact fun m hm => hq m (hms ▸ List.mem_append_left _ hm)
  | @declaration ds ds' _ hds hne hjunk =>
    refine Crosses.programInDeclarations hc (Crosses.declarationsHere hc hroom ?_ hlength ds)
    refine Insertion.skippedAtDeclarations h h' hne hjunk ?_
    rcases ds' with _ | ⟨_ | ⟨⟨t, ns⟩⟩ | _, ds'⟩ <;>
      simp [Terminal.kind, Declaration.yield, Variables.yield, TypeName.yield]
  | @statement ms ms' m front back t ts hms hbody ht hts =>
    have hnearest := hq m (by simp [hms])
    have hms' : ∀ m ∈ ms, m.body.NearestElse := fun m hm => hq m (by simp [hms, hm])
    refine Crosses.anywhere (Crosses.programInMethods hc
      (Crosses.methodsInside hc hroom ?_ hlength hms' hbody hnearest))
    refine Insertion.skippedInBlock h h' ht hts ?_
    rw [List.append_assoc, List.append_assoc]
    exact hbody.nextKind_ne_else rfl

end Production

/-! ### Compilations -/

namespace Session

variable {s : Session}

/-- The log of a session with one report, where every token is correct. -/
theorem log_eq_singleton (hq : s.Quiet) {d : Diagnostic} (hreports : s.reports = [d])
    (hkept : ∀ newer kept older, s.journal.events = newer ++ .reported d kept :: older →
      older.countP Event.isReport = 0 → kept = true) : s.journal.log.toList = [d] := by
  obtain ⟨newer, e, older, heq, hnewer, he, holder⟩ := List.filterMap_eq_cons_iff.1 hreports
  have hsilent : ∀ e ∈ s.journal.events, e.report? = none → e.diagnostics = [] := by
    intro e he hnone
    cases e with
    | took t => exact hq.taken t he
    | reported d kept => contradiction
    | resumed => rfl
  obtain ⟨d', kept, rfl⟩ : ∃ d' kept, e = .reported d' kept := by
    cases e with
    | reported d' kept => exact ⟨d', kept, rfl⟩
    | took t => contradiction
    | resumed => contradiction
  obtain rfl := Option.some.inj he
  have hnone : ∀ e ∈ older, e.report? = none := List.filterMap_eq_nil_iff.1 holder
  obtain rfl := hkept newer kept older heq (List.countP_eq_zero.2 fun e he hreport => by
    cases e with
    | reported d kept => exact absurd (hnone _ he) nofun
    | took t => contradiction
    | resumed => contradiction)
  have hdrop : ∀ es : List Event, (∀ e ∈ es, e ∈ s.journal.events) → (∀ e ∈ es, e.report? = none) →
      es.reverse.flatMap Event.diagnostics = [] := fun es hmem hes =>
    List.flatMap_eq_nil_iff.2 fun e he =>
      hsilent e (hmem e (List.mem_reverse.1 he)) (hes e (List.mem_reverse.1 he))
  rw [Journal.log, Log.toList_extend, heq, List.reverse_append, List.reverse_cons, List.flatMap_append,
    List.flatMap_append, hdrop newer (by simp_all) hnewer, hdrop older (by simp_all) hnone]
  rfl

end Session

open Production Tree

variable {source source' : String} {options : Options} {q : Program} {p : Problem}
  {before junk behind : List Terminal}

theorem compile_of_runs {s : Session} {image : Image}
    (h : Runs (.ofStream options (Token.scan source)) sourceFile
      (.start (Token.scan source) options) () s)
    (hfinish : s.assembly.finish = .ok image) :
    compile source options = .ok ⟨image, s.journal.log.toList⟩ := by
  unfold compile compileTokens runOn
  rw [show sourceFile _ _ = (.ok (), s) from h]
  simp [hfinish, Except.map]

theorem paired_start (h : (Token.scan source).terminals = before ++ (behind ++ [.word .endOfFile]))
    (h' : (Token.scan source').terminals = before ++ (junk ++ behind ++ [.word .endOfFile])) :
    (Session.start (Token.scan source) options).Paired (Insertion.ofTexts options p h h').front
      (.start (Token.scan source') options) where
  started := Nat.zero_le _
  taken := rfl
  first i := congrArg (Session.start (Token.scan source) options).upcoming (Nat.zero_add i).symm
  second i := congrArg (Session.start (Token.scan source') options).upcoming (Nat.zero_add i).symm
  table := rfl
  assembly := rfl
  returnType := rfl
  reports := rfl

/-- Without the inserted tokens there is no mistake, and with them one, at the first of them. -/
theorem runs_inserted (hq : q.Derives source) (hadmits : q.Admits p before junk behind)
    (h' : (Token.scan source').terminals = before ++ (junk ++ behind ++ [.word .endOfFile]))
    {s : Session} (hrun : Runs (.ofStream options (Token.scan source)) sourceFile
      (.start (Token.scan source) options) () s) (hm : s.mistakes = 0) :
    ∃ s' t, Runs (.ofStream options (Token.scan source')) sourceFile
        (.start (Token.scan source') options) () s' ∧ s'.assembly = s.assembly ∧
      (Token.scan source').ahead[before.length]? = some t ∧
      s'.reports = [⟨t.token.position, p, []⟩] := by
  have h : (Token.scan source).terminals = before ++ (behind ++ [.word .endOfFile]) := by
    rw [hq.2, hadmits.yield, List.append_assoc]
  have hlength : (Token.scan source).ahead.length = before.length + (behind.length + 1) := by
    simpa [Token.Stream.terminals] using congrArg List.length h
  have hlength' : (Token.scan source').ahead.length =
      before.length + (junk.length + (behind.length + 1)) := by
    simpa [Token.Stream.terminals, Nat.add_assoc] using congrArg List.length h'
  have hpos := List.length_pos_iff.2 hadmits.ne_nil
  obtain ⟨s₂, hprogram, hend⟩ := runs_sourceFile hrun
  obtain ⟨hk, rfl⟩ : s₂.current.kind = .endOfFile ∧ s = s₂.advance :=
    hend.resolve_right fun hs => by simp [hs.2] at hm
  have hc : (Setting.ofStream options (Token.scan source)).Extends
      (.ofStream options (Token.scan source')) := ⟨rfl, by simp only [Setting.ofStream]; omega⟩
  have hahead :
      (Session.start (Token.scan source) options).advance.ahead = before ++ (behind ++ []) := by
    have heq := (Session.terminals_eq source options).symm.trans h
    rw [← List.append_assoc] at heq
    rw [List.append_nil]
    exact List.append_cancel_right heq
  have hcrosses : Crosses (.ofTexts options p h h') _ _ SymbolTable.Reachable program program before
      behind fun _ => True :=
    crosses_program hq.1 hadmits h h' hc (by simp only [Setting.ofStream]; omega)
      (by simp only [Setting.ofStream]; omega)
  obtain ⟨s₂', hprogram', hresumed⟩ := hcrosses.meets hprogram
    (by rw [Session.mistakes_advance] at hm ⊢; exact hm) (Session.Named.start source options).advance
    (.refl _) hahead trivial (paired_start h h').advance (Nat.add_comm _ _)
  have hcopies : Copies .nothing (.ofStream options (Token.scan source))
      (.ofStream options (Token.scan source')) (expect .endOfFile) (expect .endOfFile) :=
    Finishes.expect.copies
  obtain ⟨s₃', hexpect, hresumed'⟩ :=
    hcopies.resumed (runs_expect.2 (.inl ⟨hk, rfl⟩)) (by simp) hresumed
  have hlt : before.length < (Token.scan source').ahead.length := by omega
  refine ⟨s₃', (Token.scan source').ahead[before.length], ?_, hresumed'.assembly,
    List.getElem?_eq_getElem hlt, hresumed'.reports.trans ?_⟩
  · exact runs_bind.2 ⟨(), _, runs_advance.2 rfl, runs_bind.2 ⟨(), _, hprogram', hexpect⟩⟩
  · have hsecond := Session.upcoming_start_succ source' options before.length
    rw [List.getElem?_eq_getElem hlt] at hsecond
    exact congrArg (fun t : Token => [(⟨t.position, p, []⟩ : Diagnostic)]) hsecond

/-- Tokens that are inserted where the program admits them lead to the same image, and to one diagnostic,
at the first of them, as long as there are too few tokens for the distance between reports to start again
from zero. -/
theorem compile_recovers (hfew : options.reportDistance = 0 ∨
      options.reportDistance.toNat + (Token.scan source').ahead.length < 2 ^ 32) {r : Compilation}
    (h : compile source options = .ok r) (hnone : r.diagnostics = []) (hq : q.Derives source)
    (hadmits : q.Admits p before junk behind) (hcorrect : LexicallyCorrect source')
    (hterminals : (Token.scan source').terminals = before ++ (junk ++ behind ++ [.word .endOfFile])) :
    ∃ r' t, compile source' options = .ok r' ∧ r'.image = r.image ∧
      (Token.scan source').ahead[before.length]? = some t ∧
      r'.diagnostics = [⟨t.token.position, p, []⟩] := by
  have hfew₁ : options.reportDistance = 0 ∨
      options.reportDistance.toNat + (Token.scan source).ahead.length < 2 ^ 32 := by
    have hlength := congrArg List.length (hq.2.trans (congrArg (· ++ _) hadmits.yield))
    have hlength' := congrArg List.length hterminals
    simp only [Token.Stream.terminals, List.length_map, List.length_append] at hlength hlength'
    exact hfew.imp id fun hlt => by omega
  obtain ⟨s, hrun, hfinish, -⟩ := runs_of_compile h
  have hm : s.mistakes = 0 := by
    have hjournal : journal source options = s.journal := congrArg (·.2.journal) hrun
    rw [Session.mistakes, ← hjournal]
    exact ((diagnostics_eq_nil_iff hfew₁ h).1 hnone).2
  obtain ⟨s', t, hrun', hassembly, ht, hreports⟩ := runs_inserted hq hadmits hterminals hrun hm
  have hjournal' : journal source' options = s'.journal := congrArg (·.2.journal) hrun'
  refine ⟨_, t, compile_of_runs hrun' (hassembly ▸ hfinish), rfl, ht, ?_⟩
  refine Session.log_eq_singleton (quiet_of_runs hrun' hcorrect) hreports
    fun newer kept older heq hfirst => ?_
  exact (kept_iff hfew (hjournal' ▸ heq)).2 (.inl hfirst)

/-- A parenthesis in front of a statement. -/
theorem compile_recovers_parenthesis :
    let source := "program P { void main() { ; } }"
    let source' := "program P { void main() { ) ; ; } }"
    let q : Program := ⟨"P", [], [⟨none, "main", none, [], .cons .empty .nil⟩]⟩
    let before : List Terminal := [.word .programWord, .name "P", .word .leftBrace, .word .voidWord,
      .name "main", .word .leftParen, .word .rightParen, .word .leftBrace]
    let behind : List Terminal := [.word .semicolon, .word .rightBrace, .word .rightBrace]
    q.Derives source ∧
      q.Admits .invalidStatement before [.word .rightParen, .word .semicolon] behind ∧
      LexicallyCorrect source' ∧ (Token.scan source').terminals =
        before ++ ([.word .rightParen, .word .semicolon] ++ behind ++ [.word .endOfFile]) ∧
      ∃ r r' t, compile source = .ok r ∧ compile source' = .ok r' ∧ r'.image = r.image ∧
        (Token.scan source').ahead[before.length]? = some t ∧
        r'.diagnostics = [⟨t.token.position, .invalidStatement, []⟩] := by
  intro source source' q before behind
  have hq : q.Derives source := by
    refine ⟨fun m hm => ?_, by decide +kernel⟩
    obtain rfl := List.mem_singleton.1 hm
    exact ⟨trivial, trivial⟩
  have hadmits : q.Admits .invalidStatement before [.word .rightParen, .word .semicolon] behind :=
    @Program.Admits.statement q [] [] ⟨none, "main", none, [], .cons .empty .nil⟩ [] _
      (.word .rightParen) [] rfl .here (by decide) nofun
  have hcorrect : LexicallyCorrect source' := by decide +kernel
  have hterminals : (Token.scan source').terminals =
      before ++ ([.word .rightParen, .word .semicolon] ++ behind ++ [.word .endOfFile]) := by
    decide +kernel
  have hnone : (compile source).toOption.map (·.diagnostics) = some [] := by decide +kernel
  refine ⟨hq, hadmits, hcorrect, hterminals, ?_⟩
  rcases hr : compile source with f | r
  · simp [hr, Except.toOption] at hnone
  · rw [hr] at hnone
    have hfew : (3 : UInt32).toNat + (Token.scan source').ahead.length < 2 ^ 32 := by decide +kernel
    obtain ⟨r', t, h⟩ :=
      compile_recovers (.inr hfew) hr (Option.some.inj hnone) hq hadmits hcorrect hterminals
    exact ⟨r, r', t, rfl, h⟩

end MicroJava
