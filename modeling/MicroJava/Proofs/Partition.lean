import Mathlib.Algebra.GroupWithZero.Nat
import Mathlib.Data.List.GetD
import MicroJava.Proofs.Gaps
import MicroJava.Proofs.Lexemes
import MicroJava.Proofs.Order

/-!
# A source text in pieces

Scanning takes a source text apart: it is a sequence of pieces, each a gap with a lexeme behind it, and
a gap at the end (`Token.scan_partitions`). The tokens are those of the lexemes, each at the position
behind the text in front of it, and the end of the file follows them for ever.
-/

namespace MicroJava.Token

/-- A part of a source text: a gap, and the run of characters of a token. -/
structure Piece where
  gap : List Char
  lexeme : List Char
  token : Token

namespace Piece

def text (q : Piece) : List Char := q.gap ++ q.lexeme

/-- The pieces stand one behind the other from a position on, with some text behind them. -/
def Follow (tail : List Char) : Position → List Piece → Prop
  | _, [] => True
  | p, q :: qs =>
    Gap q.gap ∧ q.lexeme ≠ [] ∧ StartsLexeme (q.lexeme ++ (qs.flatMap text ++ tail)) ∧
      q.token.Spells (q.lexeme ++ (qs.flatMap text ++ tail)) q.lexeme ∧
      q.token.position = p.afterAll q.gap ∧ Follow tail (p.afterAll q.text) qs

end Piece

/-- The tokens from a cursor on are those of pieces of the text there. -/
theorem scanFrom_pieces (c : Cursor) (found : List Scanned) :
    ∃ (ts : List Scanned) (qs : List Piece) (tail : List Char) (unclosed? : Option Position),
      scanFrom c found = ⟨found.reverse ++ ts ++ [.ofEnd (c.position.afterAll c.rest) unclosed?],
        (Scanned.ofEnd (c.position.afterAll c.rest) unclosed?).token⟩ ∧
      ts.map (·.token) = qs.map (·.token) ∧ c.rest = qs.flatMap Piece.text ++ tail ∧
      (Gap tail ∨ OpenGap tail) ∧ Piece.Follow tail c.position qs := by
  fun_induction scanFrom c found with
  | case1 c found p unclosed? hg stop =>
    have hend : p = c.position.afterAll c.rest ∧ (Gap c.rest ∨ OpenGap c.rest) := by
      obtain ⟨gap, rest, hrest, hgap, -, heq⟩ | ⟨gap, body, hrest, hgap, hopen, heq⟩ := c.skipGap_spec
      · obtain ⟨rfl, rfl⟩ := Cursor.mk.inj (Prod.mk.inj (hg.symm.trans heq)).1
        rw [List.append_nil] at hrest
        exact ⟨by rw [hrest], .inl (hrest ▸ hgap)⟩
      · obtain ⟨rfl, -⟩ := Cursor.mk.inj (Prod.mk.inj (hg.symm.trans heq)).1
        exact ⟨rfl, .inr ⟨gap, body, hrest, hgap, hopen⟩⟩
    obtain ⟨rfl, htail⟩ := hend
    exact ⟨[], [], c.rest, unclosed?, by simp [stop], rfl, rfl, htail, trivial⟩
  | case2 c found p ch cs unclosed? hg l ih =>
    -- the gap and the lexeme behind it are the first piece; the others start where the lexeme ends
    obtain ⟨gap, rest, hrest, hgap, hstart, heq⟩ | ⟨gap, body, -, -, -, heq⟩ := c.skipGap_spec
    · obtain ⟨rfl, rfl⟩ := Cursor.mk.inj (Prod.mk.inj (hg.symm.trans heq)).1
      obtain ⟨ts, qs, tail, unclosed?, hscan, htokens, hcs, htail, hfollow⟩ := ih
      have hsplit : l.spelling ch cs ++ (qs.flatMap Piece.text ++ tail) = ch :: cs := by
        rw [← hcs]
        exact l.spelling_append_rest ch cs
      have hposition : (c.position.afterAll gap).afterAll (ch :: cs) = c.position.afterAll c.rest := by
        rw [hrest, Position.afterAll_append]
      have hbehind : ((c.position.afterAll gap).afterAll (l.spelling ch cs)).afterAll (l.rest cs) =
          c.position.afterAll c.rest := by
        rw [← Position.afterAll_append, l.spelling_append_rest, hposition]
      refine ⟨.ofLexeme (c.position.afterAll gap) l :: ts,
        ⟨gap, l.spelling ch cs, (Scanned.ofLexeme (c.position.afterAll gap) l).token⟩ :: qs, tail,
        unclosed?, ?_, by rw [List.map_cons, List.map_cons, htokens], ?_, htail, ?_⟩
      · rw [hscan, hbehind]
        simp
      · rw [hrest, List.flatMap_cons, Piece.text, List.append_assoc, List.append_assoc, hsplit]
      · refine ⟨hgap, List.cons_ne_nil _ _, ?_, ?_, rfl, ?_⟩
        · rw [hsplit]
          exact hstart
        · rw [hsplit]
          exact spells_read _ ch cs
        · rw [Piece.text, Position.afterAll_append]
          exact hfollow
    · exact absurd (congrArg (Cursor.rest ∘ Prod.fst) (hg.symm.trans heq)) (List.cons_ne_nil _ _)

namespace Piece.Follow

variable {tail : List Char} {p : Position} {qs : List Piece}

/-- Each piece is read behind the text in front of it. -/
theorem split (h : Follow tail p qs) {before behind : List Piece} {q : Piece}
    (hqs : qs = before ++ q :: behind) :
    Gap q.gap ∧ q.lexeme ≠ [] ∧ StartsLexeme (q.lexeme ++ (behind.flatMap text ++ tail)) ∧
      q.token.Spells (q.lexeme ++ (behind.flatMap text ++ tail)) q.lexeme ∧
      q.token.position = p.afterAll (before.flatMap text ++ q.gap) := by
  subst hqs
  induction before generalizing p with
  | nil =>
    obtain ⟨hgap, hne, hstart, hspells, hposition, -⟩ := h
    exact ⟨hgap, hne, hstart, hspells, hposition⟩
  | cons q' before ih =>
    obtain ⟨hgap, hne, hstart, hspells, hposition⟩ := ih h.2.2.2.2.2
    refine ⟨hgap, hne, hstart, hspells, ?_⟩
    rw [hposition, List.flatMap_cons, List.append_assoc, Position.afterAll_append p]

/-- The tokens of the pieces, and one at the end of the text, are in order. -/
theorem pairwise (h : Follow tail p qs) {stop : Token}
    (hstop : stop.position = p.afterAll (qs.flatMap text ++ tail)) :
    (∀ t ∈ qs.map (·.token) ++ [stop], p ≤ t.position) ∧
      (qs.map (·.token) ++ [stop]).Pairwise (·.position < ·.position) := by
  induction qs generalizing p with
  | nil =>
    refine ⟨fun t ht => ?_, List.pairwise_singleton _ _⟩
    rw [List.mem_singleton.1 ht, hstop]
    exact p.le_afterAll _
  | cons q qs ih =>
    obtain ⟨-, hne, -, -, hposition, hfollow⟩ := h
    rw [List.flatMap_cons, List.append_assoc, Position.afterAll_append] at hstop
    obtain ⟨hle, hpairwise⟩ := ih hfollow hstop
    have hlt : q.token.position < p.afterAll q.text := by
      rw [hposition, text, Position.afterAll_append]
      exact Position.lt_afterAll _ hne
    have hfront : p ≤ q.token.position := hposition ▸ p.le_afterAll q.gap
    rw [List.map_cons, List.cons_append]
    refine ⟨List.forall_mem_cons.2 ⟨hfront, fun t ht => ?_⟩, List.pairwise_cons.2 ⟨fun t ht => ?_,
      hpairwise⟩⟩
    · exact Position.le_trans (Position.le_trans hfront (Position.le_of_lt hlt)) (hle t ht)
    · exact Position.lt_of_lt_of_le hlt (hle t ht)

end Piece.Follow

/-- The stream behind some calls for the next token. -/
def Stream.after (s : Stream) : Nat → Stream
  | 0 => s
  | n + 1 => s.next.2.after n

/-- A stream gives its tokens one after the other, and then its last one for ever. -/
theorem Stream.next_after (ahead : List Scanned) (last : Token) (n : Nat) :
    ((Stream.mk ahead last).after n).next.1 = ahead.getD n { token := last } := by
  induction n generalizing ahead with
  | zero => rcases ahead with _ | ⟨t, ts⟩ <;> rfl
  | succ n ih => rcases ahead with _ | ⟨t, ts⟩ <;> exact ih _

/-- Scanning takes a source text apart into gaps and lexemes, without losing a character or reading one
twice. Each token is that of the run of characters behind its gap, names, numbers and signs being the
longest there; its position counts the lines and columns of the text in front of it, so positions
increase and, in a text of so few characters, do not overflow. The end of the file is behind the whole
text; once it is reached it is given for ever, and nothing more is reported. -/
theorem scan_partitions {source : String} (hlength : source.length < 2 ^ 32 - 1) :
    ∃ (qs : List Piece) (tail : List Char),
      source.toList = qs.flatMap Piece.text ++ tail ∧ (Gap tail ∨ OpenGap tail) ∧
      (∀ before q behind, qs = before ++ q :: behind →
        Gap q.gap ∧ q.lexeme ≠ [] ∧
        StartsLexeme (q.lexeme ++ (behind.flatMap Piece.text ++ tail)) ∧
        q.token.Spells (q.lexeme ++ (behind.flatMap Piece.text ++ tail)) q.lexeme ∧
        q.token.position = .behind (before.flatMap Piece.text ++ q.gap)) ∧
      let stop : Token := { kind := .endOfFile, position := .behind source.toList }
      let ts := qs.map (·.token) ++ [stop]
      ts.Pairwise (·.position < ·.position) ∧
      (∀ t ∈ ts, t.position.line < 2 ^ 32 ∧ t.position.column < 2 ^ 32) ∧
      ∀ n, ((scan source).after n).next.1.token = ts.getD n stop ∧
        (qs.length < n → ((scan source).after n).next.1.diagnostics = []) := by
  obtain ⟨ss, qs, tail, unclosed?, hscan, htokens, htext, htail, hfollow⟩ :=
    scanFrom_pieces (.ofString source) []
  have hstart : ∀ front, (Cursor.ofString source).position.afterAll front = .behind front :=
    Position.afterAll_start
  have htext : source.toList = qs.flatMap Piece.text ++ tail := htext
  have hlen : source.toList.length < 2 ^ 32 - 1 := by rwa [String.length_toList]
  have hbound : ∀ front, front <+: source.toList → (Position.behind front).line < 2 ^ 32 ∧
      (Position.behind front).column < 2 ^ 32 := by
    intro front hfront
    have := hfront.length_le
    have := Position.line_behind_le front
    have := Position.column_behind_le front
    omega
  refine ⟨qs, tail, htext, htail, fun before q behind hqs => ?_, ?_, ?_, fun n => ?_⟩
  · rw [← hstart]
    exact hfollow.split hqs
  · refine (hfollow.pairwise ?_).2
    rw [hstart, htext]
  · intro t ht
    rcases List.mem_append.1 ht with ht | ht
    · obtain ⟨q, hq, rfl⟩ := List.mem_map.1 ht
      obtain ⟨before, behind, hqs⟩ := List.append_of_mem hq
      obtain ⟨-, -, -, -, hposition⟩ := hfollow.split hqs
      rw [hposition, hstart]
      refine hbound _ ⟨q.lexeme ++ (behind.flatMap Piece.text ++ tail), ?_⟩
      rw [htext, hqs]
      simp [Piece.text]
    · rw [List.mem_singleton.1 ht]
      exact hbound _ (List.prefix_refl _)
  · rw [scan, hscan, Stream.next_after, List.reverse_nil, List.nil_append, ← hstart, ← htokens]
    constructor
    · exact (List.getD_map _ _ Scanned.token).symm.trans (by rw [List.map_append]; rfl)
    · intro hn
      have hss : ss.length = qs.length := by simpa using congrArg List.length htokens
      rw [List.getD_eq_default _ _ (by rw [List.length_append, hss]; exact hn)]

/-- A text of two lines that ends in a comment. -/
theorem scan_partitions_unclosed :
    "x\n+= 12 /*".length < 2 ^ 32 - 1 ∧
      (scan "x\n+= 12 /*").ahead.map (fun s => (s.token.kind, s.token.position)) =
        [(.identifier, ⟨1, 1⟩), (.plusAssign, ⟨2, 1⟩), (.number, ⟨2, 4⟩), (.endOfFile, ⟨2, 9⟩)] ∧
      ∃ (qs : List Piece) (tail : List Char),
        "x\n+= 12 /*".toList = qs.flatMap Piece.text ++ tail ∧ (Gap tail ∨ OpenGap tail) ∧
        ∀ n, qs.length < n → ((scan "x\n+= 12 /*").after n).next.1.token =
          { kind := .endOfFile, position := ⟨2, 9⟩ } := by
  have hlength : "x\n+= 12 /*".length < 2 ^ 32 - 1 := by decide +kernel
  refine ⟨hlength, by decide +kernel, ?_⟩
  obtain ⟨qs, tail, htext, htail, -, -, -, htokens⟩ := scan_partitions hlength
  refine ⟨qs, tail, htext, htail, fun n hn => ?_⟩
  rw [(htokens n).1, List.getD_eq_default _ _ (by rw [List.length_append, List.length_map]; exact hn)]
  decide +kernel

end MicroJava.Token
