import MicroJava.Diagnostic
import MicroJava.Token.Lexeme
import MicroJava.Text.Blank

/-!
# Scanning

A source text is a sequence of lexemes with gaps between them; a gap consists of blanks and
comments. Scanning gives the tokens of the lexemes and at last the end of the file, each together
with the diagnostics that its characters cause. A comment that is never closed reaches to the end
of the text, so its diagnostic comes with the end of the file.

A `Stream` hands the tokens out one by one, and repeats the end of the file when they run out.
-/

namespace MicroJava

/-- A place in a text and the characters from there on. -/
structure Cursor where
  position : Position
  rest : List Char
  deriving DecidableEq, Inhabited

namespace Cursor

/-- The start of a text. -/
def ofString (s : String) : Cursor := ⟨.start, s.toList⟩

/-- The cursor behind all blanks. -/
def skipBlanks : Position → List Char → Cursor
  | p, [] => ⟨p, []⟩
  | p, c :: cs => if isBlank c then skipBlanks (p.after c) cs else ⟨p, c :: cs⟩

/-- The cursor behind the comment in which the cursor stands, `depth` levels below the outermost
one, and whether that comment is closed. An opener in a comment starts a comment of its own. -/
def skipComment (depth : Nat) (p : Position) : List Char → Bool × Cursor
  | [] => (false, ⟨p, []⟩)
  | '/' :: '*' :: cs => skipComment (depth + 1) ((p.after '/').after '*') cs
  | '*' :: '/' :: cs =>
    match depth with
    | 0 => (true, ⟨(p.after '*').after '/', cs⟩)
    | depth + 1 => skipComment depth ((p.after '*').after '/') cs
  | c :: cs => skipComment depth (p.after c) cs

theorem length_skipBlanks_le (p : Position) (cs : List Char) :
    (skipBlanks p cs).rest.length ≤ cs.length := by
  fun_induction skipBlanks p cs with
  | case1 => simp
  | case2 p c cs _ ih => exact Nat.le_succ_of_le ih
  | case3 => simp

theorem length_skipComment_le (depth : Nat) (p : Position) (cs : List Char) :
    (skipComment depth p cs).2.rest.length ≤ cs.length := by
  fun_induction skipComment depth p cs <;> simp only [List.length_cons, List.length_nil] <;> omega

/-- The cursor behind blanks and comments, and the place of the opener if the last comment is not
closed. -/
def skipGap (c : Cursor) : Cursor × Option Position :=
  match _hb : skipBlanks c.position c.rest with
  | ⟨p, '/' :: '*' :: cs⟩ =>
    match _hc : skipComment 0 ((p.after '/').after '*') cs with
    | (true, c') => skipGap c'
    | (false, c') => (c', some p)
  | c' => (c', none)
  termination_by c.rest.length
  decreasing_by
    have h₁ := length_skipBlanks_le c.position c.rest
    have h₂ := length_skipComment_le 0 ((p.after '/').after '*') cs
    rw [_hb] at h₁
    rw [_hc] at h₂
    simp only [List.length_cons] at h₁ h₂
    omega

theorem length_skipGap_le (c : Cursor) : c.skipGap.1.rest.length ≤ c.rest.length := by
  fun_induction skipGap c with
  | case1 c p cs hb c' hc ih =>
    have h₁ := length_skipBlanks_le c.position c.rest
    have h₂ := length_skipComment_le 0 ((p.after '/').after '*') cs
    rw [hb] at h₁
    rw [hc] at h₂
    simp only [List.length_cons] at h₁ h₂
    omega
  | case2 c p cs hb c' hc =>
    have h₁ := length_skipBlanks_le c.position c.rest
    have h₂ := length_skipComment_le 0 ((p.after '/').after '*') cs
    rw [hb] at h₁
    rw [hc] at h₂
    simp only [List.length_cons] at h₁ h₂
    simp only
    omega
  | case3 c => exact length_skipBlanks_le c.position c.rest

end Cursor

namespace Token

/-- A token with the diagnostics of its characters. -/
structure Scanned where
  token : Token
  diagnostics : List Diagnostic := []
  deriving DecidableEq, Inhabited

/-- The token of a lexeme at a place. -/
def Scanned.ofLexeme (p : Position) (l : Lexeme) : Scanned where
  token := { kind := l.kind, position := p, text := l.text, value := l.value }
  diagnostics := l.problems.map fun d => ⟨p, d.1, d.2⟩

/-- The end of the file, behind a comment opened at `unclosed?` that nothing closes. -/
def Scanned.ofEnd (p : Position) (unclosed? : Option Position) : Scanned where
  token := { kind := .endOfFile, position := p }
  diagnostics := unclosed?.toList.map fun q => { position := q, problem := .endInComment }

/-- The tokens not yet handed out, and the token that follows them for ever. -/
structure Stream where
  ahead : List Scanned
  last : Token
  deriving DecidableEq, Inhabited

namespace Stream

/-- The next token, and the stream behind it. -/
def next (s : Stream) : Scanned × Stream :=
  match s.ahead with
  | [] => ({ token := s.last }, s)
  | t :: ts => (t, { s with ahead := ts })

end Stream

/-- The tokens from a cursor on, behind those found before, which stand last first. -/
def scanFrom (c : Cursor) (found : List Scanned) : Stream :=
  match _hg : c.skipGap with
  | (⟨p, []⟩, unclosed?) =>
    let stop := Scanned.ofEnd p unclosed?
    { ahead := (stop :: found).reverse, last := stop.token }
  | (⟨p, ch :: cs⟩, _) =>
    let l := Lexeme.read ch cs
    scanFrom ⟨p.afterAll (l.spelling ch cs), l.rest cs⟩ (.ofLexeme p l :: found)
  termination_by c.rest.length
  decreasing_by
    have h := c.length_skipGap_le
    rw [_hg] at h
    simp only [List.length_cons] at h
    simp only [Lexeme.rest, List.length_drop]
    omega

/-- The tokens of a source text. -/
def scan (source : String) : Stream := scanFrom (.ofString source) []

end Token

end MicroJava
