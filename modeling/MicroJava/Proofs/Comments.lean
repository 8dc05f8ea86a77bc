import Mathlib.Data.List.Find
import Mathlib.Data.List.TakeWhile
import MicroJava.Proofs.Gaps
import MicroJava.Proofs.Lexemes
import MicroJava.Proofs.Order

/-!
# Comments between tokens

How deep a text nests comments is counted in one reading from the left (`nesting`); a comment is a
shortest text that begins with an opener and nests none at its end (`IsComment`). The scanner comes to
places between tokens (`Token.Meets`), and from a comment at such a place it goes on behind the comment
and reports nothing, or else goes to the end of the text and reports the opener. What it has found by then
depends on the text in front of the comment only, and what it finds behind it does not depend on where
that stands: so a comment is as good as a blank (`Token.scan_comment`).
-/

namespace MicroJava

/-- How many more comments are opened than closed in a text, when openers and closers are read from the
left without overlap. -/
def nesting : List Char → Int
  | [] => 0
  | '/' :: '*' :: cs => nesting cs + 1
  | '*' :: '/' :: cs => nesting cs - 1
  | _ :: cs => nesting cs

/-- A text that begins with an opener and closes what it opens. -/
def Balanced (p : List Char) : Prop := opener <+: p ∧ nesting p = 0

/-- The shortest balanced front of a text. -/
structure IsComment (p text : List Char) : Prop where
  front : p <+: text
  balanced : Balanced p
  shortest : ∀ q, q <+: text → Balanced q → p.length ≤ q.length

section Nesting

variable {cs p : List Char}

@[simp] theorem nesting_nil : nesting [] = 0 := rfl

@[simp] theorem nesting_opener (cs : List Char) : nesting (opener ++ cs) = nesting cs + 1 := rfl

@[simp] theorem nesting_closer (cs : List Char) : nesting (closer ++ cs) = nesting cs - 1 := rfl

theorem nesting_other {c : Char} (hopener : ¬opener <+: c :: cs) (hcloser : ¬closer <+: c :: cs) :
    nesting (c :: cs) = nesting cs := by
  rw [nesting]
  · rintro ds rfl rfl
    exact hopener ⟨ds, rfl⟩
  · rintro ds rfl rfl
    exact hcloser ⟨ds, rfl⟩

theorem nesting_singleton (c : Char) : nesting [c] = 0 := by
  refine nesting_other ?_ ?_ <;> simp [opener, closer]

/-- A front of a text that begins with a pair of characters cuts the pair, or goes on behind it. -/
theorem front_pair {a b : Char} (h : p <+: [a, b] ++ cs) :
    nesting p = 0 ∨ ∃ q, p = [a, b] ++ q ∧ q <+: cs := by
  rcases p with _ | ⟨c, _ | ⟨d, q⟩⟩
  · exact .inl rfl
  · exact .inl (nesting_singleton c)
  · obtain ⟨rfl, hd⟩ := List.cons_prefix_cons.1 h
    obtain ⟨rfl, hq⟩ := List.cons_prefix_cons.1 hd
    exact .inr ⟨q, rfl, hq⟩

/-- A front of a text that begins with no opener and no closer begins with neither. -/
theorem front_other {c : Char} (hopener : ¬opener <+: c :: cs) (hcloser : ¬closer <+: c :: cs)
    (h : p <+: c :: cs) : p = [] ∨ ∃ q, p = c :: q ∧ q <+: cs ∧ nesting p = nesting q := by
  rcases p with _ | ⟨d, q⟩
  · exact .inl rfl
  · obtain ⟨rfl, hq⟩ := List.cons_prefix_cons.1 h
    exact .inr ⟨q, rfl, hq, nesting_other (fun ho => hopener (ho.trans h)) fun hc => hcloser (hc.trans h)⟩

theorem nesting_of_closes {depth : Nat} (h : Closes depth cs) : nesting cs = -(depth + 1) := by
  induction h with
  | last => rfl
  | inner _ ih => rw [nesting_opener, ih]; omega
  | close _ ih => rw [nesting_closer, ih]; omega
  | other hopener hcloser _ ih => rw [nesting_other hopener hcloser, ih]

/-- No shorter front of a text that ends with the closer of the outermost comment closes it. -/
theorem lt_nesting_of_closes {depth : Nat} (h : Closes depth cs) :
    ∀ {p}, p <+: cs → p ≠ cs → -(depth + 1 : Int) < nesting p := by
  induction h with
  | last =>
    intro p hp hne
    rcases @front_pair [] p _ _ hp with hzero | ⟨q, rfl, hq⟩
    · omega
    · obtain rfl := List.prefix_nil.1 hq
      exact absurd rfl hne
  | @inner depth cs _ ih =>
    intro p hp hne
    rcases front_pair hp with hzero | ⟨q, rfl, hq⟩
    · omega
    · have := ih hq fun heq => hne (heq ▸ rfl)
      have := nesting_opener q
      rw [opener] at this
      omega
  | @close depth cs _ ih =>
    intro p hp hne
    rcases front_pair hp with hzero | ⟨q, rfl, hq⟩
    · omega
    · have := ih hq fun heq => hne (heq ▸ rfl)
      have := nesting_closer q
      rw [closer] at this
      omega
  | other hopener hcloser _ ih =>
    intro p hp hne
    rcases front_other hopener hcloser hp with rfl | ⟨q, rfl, hq, heq⟩
    · rw [nesting_nil]
      omega
    · rw [heq]
      exact ih hq fun heq => hne (heq ▸ rfl)

/-- No front of a text that leaves the outermost comment open closes it. -/
theorem le_nesting_of_leavesOpen {depth : Nat} (h : LeavesOpen depth cs) :
    ∀ {p}, p <+: cs → -(depth : Int) ≤ nesting p := by
  induction h with
  | nil =>
    intro p hp
    obtain rfl := List.prefix_nil.1 hp
    simp
  | inner _ ih =>
    intro p hp
    rcases front_pair hp with hzero | ⟨q, rfl, hq⟩
    · omega
    · have := ih hq
      have := nesting_opener q
      rw [opener] at this
      omega
  | close _ ih =>
    intro p hp
    rcases front_pair hp with hzero | ⟨q, rfl, hq⟩
    · omega
    · have := ih hq
      have := nesting_closer q
      rw [closer] at this
      omega
  | other hopener hcloser _ ih =>
    intro p hp
    rcases front_other hopener hcloser hp with rfl | ⟨q, rfl, hq, heq⟩
    · simp
    · rw [heq]
      exact ih hq

/-- What closes a comment makes the comment the shortest balanced front of the text. -/
theorem isComment_of_closes {body : List Char} (h : Closes 0 body) (rest : List Char) :
    IsComment (opener ++ body) (opener ++ body ++ rest) where
  front := List.prefix_append _ _
  balanced := ⟨List.prefix_append _ _, by rw [nesting_opener, nesting_of_closes h]; rfl⟩
  shortest := by
    rintro _ hfront ⟨⟨q, rfl⟩, hzero⟩
    refine Nat.le_of_not_lt fun hlt => ?_
    rw [List.append_assoc, List.prefix_append_right_inj] at hfront
    rw [List.length_append, List.length_append] at hlt
    have hq : q <+: body :=
      List.prefix_of_prefix_length_le hfront (List.prefix_append body rest) (by omega)
    have := lt_nesting_of_closes h hq (by rintro rfl; omega)
    rw [nesting_opener] at hzero
    omega

/-- In a text that leaves a comment open, the comment is not balanced anywhere. -/
theorem not_balanced_of_leavesOpen (h : LeavesOpen 0 cs) (hp : p <+: opener ++ cs) : ¬Balanced p := by
  rintro ⟨⟨q, rfl⟩, hzero⟩
  rw [List.prefix_append_right_inj] at hp
  have := le_nesting_of_leavesOpen h hp
  rw [nesting_opener] at hzero
  omega

/-- There is one shortest balanced front. -/
theorem IsComment.unique {q text : List Char} (h : IsComment p text) (h' : IsComment q text) : p = q :=
  (List.prefix_of_prefix_length_le h.front h'.front (h.shortest q h'.front h'.balanced)).eq_of_length
    (Nat.le_antisymm (h.shortest q h'.front h'.balanced) (h'.shortest p h.front h.balanced))

end Nesting

/-- The reader of comments ends behind the shortest balanced front of the text, if there is one, and else
at the end of the text. -/
theorem Cursor.skipComment_iff (p : Position) (cs : List Char) :
    (∃ body rest, cs = body ++ rest ∧ Closes 0 body ∧ IsComment (opener ++ body) (opener ++ cs) ∧
      skipComment 0 p cs = (true, ⟨p.afterAll body, rest⟩)) ∨
    (∀ q, q <+: opener ++ cs → ¬Balanced q) ∧ skipComment 0 p cs = (false, ⟨p.afterAll cs, []⟩) := by
  obtain ⟨body, rest, rfl, hbody, heq⟩ | ⟨hopen, heq⟩ := skipComment_spec 0 p cs
  · refine .inl ⟨body, rest, rfl, hbody, ?_, heq⟩
    rw [← List.append_assoc]
    exact isComment_of_closes hbody rest
  · exact .inr ⟨fun q => not_balanced_of_leavesOpen hopen, heq⟩

namespace Cursor

/-! ### Gaps step by step -/

variable {c c' : Cursor} {p : Position} {cs : List Char}

/-- Behind a closed comment the gap goes on. -/
theorem skipGap_of_closed (h : skipBlanks c.position c.rest = ⟨p, opener ++ cs⟩)
    (hc : skipComment 0 (p.afterAll opener) cs = (true, c')) : c.skipGap = c'.skipGap := by
  have hc : skipComment 0 ((p.after '/').after '*') cs = (true, c') := hc
  rw [skipGap]
  split
  · next heq =>
    obtain ⟨rfl, hcs⟩ := Cursor.mk.inj (heq.symm.trans h)
    obtain rfl : _ = cs := (List.cons.inj (List.cons.inj hcs).2).2
    split
    · next heq' => rw [(Prod.mk.inj (heq'.symm.trans hc)).2]
    · next heq' => exact absurd (heq'.symm.trans hc) (by simp)
  · next hne => exact absurd h (hne p cs)

/-- At a comment that is left open the gap ends. -/
theorem skipGap_of_open (h : skipBlanks c.position c.rest = ⟨p, opener ++ cs⟩)
    (hc : skipComment 0 (p.afterAll opener) cs = (false, c')) : c.skipGap = (c', some p) := by
  have hc : skipComment 0 ((p.after '/').after '*') cs = (false, c') := hc
  rw [skipGap]
  split
  · next heq =>
    obtain ⟨rfl, hcs⟩ := Cursor.mk.inj (heq.symm.trans h)
    obtain rfl : _ = cs := (List.cons.inj (List.cons.inj hcs).2).2
    split
    · next heq' => exact absurd (heq'.symm.trans hc) (by simp)
    · next heq' => rw [(Prod.mk.inj (heq'.symm.trans hc)).2]
  · next hne => exact absurd h (hne p cs)

/-- In front of anything but a comment the gap ends. -/
theorem skipGap_of_other (h : ¬opener <+: (skipBlanks c.position c.rest).rest) :
    c.skipGap = (skipBlanks c.position c.rest, none) := by
  rw [skipGap]
  split
  · next p cs heq =>
    rw [heq] at h
    exact absurd ⟨cs, rfl⟩ h
  · rfl

theorem skipBlanks_opener (p : Position) (cs : List Char) :
    skipBlanks p (opener ++ cs) = ⟨p, opener ++ cs⟩ := by
  rw [opener, List.cons_append, skipBlanks, if_neg (by decide)]

theorem skipGap_congr (h : skipBlanks c.position c.rest = skipBlanks c'.position c'.rest) :
    c.skipGap = c'.skipGap := by
  rcases hb : skipBlanks c.position c.rest with ⟨p, rest⟩
  by_cases hfront : opener <+: rest
  · obtain ⟨cs, rfl⟩ := hfront
    rcases hc : skipComment 0 (p.afterAll opener) cs with ⟨_ | _, c''⟩
    · rw [skipGap_of_open hb hc, skipGap_of_open (h.symm.trans hb) hc]
    · rw [skipGap_of_closed hb hc, skipGap_of_closed (h.symm.trans hb) hc]
  · rw [skipGap_of_other (by rwa [hb]), skipGap_of_other (by rwa [← h, hb]), h]

theorem skipGap_blank {ch : Char} (h : isBlank ch) (p : Position) (cs : List Char) :
    skipGap ⟨p, ch :: cs⟩ = skipGap ⟨p.after ch, cs⟩ := by
  refine skipGap_congr ?_
  rw [skipBlanks, if_pos h]

/-! ### Gaps at other places -/

theorem rest_skipBlanks (p q : Position) (cs : List Char) :
    (skipBlanks p cs).rest = (skipBlanks q cs).rest := by
  induction cs generalizing p q with
  | nil => rfl
  | cons c cs ih =>
    simp only [skipBlanks]
    split
    · exact ih _ _
    · rfl

theorem rest_skipComment (depth : Nat) (p q : Position) (cs : List Char) :
    (skipComment depth p cs).1 = (skipComment depth q cs).1 ∧
      (skipComment depth p cs).2.rest = (skipComment depth q cs).2.rest := by
  fun_induction skipComment depth p cs generalizing q with
  | case1 => exact ⟨rfl, rfl⟩
  | case2 depth p cs ih => exact ih _
  | case3 p cs => exact ⟨rfl, rfl⟩
  | case4 p cs depth ih => exact ih _
  | case5 depth p c cs hopener hcloser ih =>
    rw [skipComment]
    · exact ih _
    · exact hopener
    · exact hcloser

theorem skipBlanks_of_rest {rest : List Char} (h : c.rest = c'.rest)
    (hb : skipBlanks c.position c.rest = ⟨p, rest⟩) :
    ∃ q, skipBlanks c'.position c'.rest = ⟨q, rest⟩ := by
  have heq := rest_skipBlanks c.position c'.position c.rest
  rcases hb' : skipBlanks c'.position c'.rest with ⟨q, rest'⟩
  rw [hb, h, hb'] at heq
  exact ⟨q, by rw [← show rest = rest' from heq]⟩

theorem skipComment_of_eq (q : Position) {closed : Bool}
    (h : skipComment 0 (p.afterAll opener) cs = (closed, c)) :
    ∃ c', skipComment 0 (q.afterAll opener) cs = (closed, c') ∧ c.rest = c'.rest := by
  obtain ⟨hclosed, hrest⟩ := rest_skipComment 0 (p.afterAll opener) (q.afterAll opener) cs
  rcases hc : skipComment 0 (q.afterAll opener) cs with ⟨closed', c'⟩
  rw [h, hc] at hclosed hrest
  exact ⟨c', by rw [← show closed = closed' from hclosed], hrest⟩

/-- What is skipped does not depend on the place where it stands. -/
theorem rest_skipGap (h : c.rest = c'.rest) :
    c.skipGap.1.rest = c'.skipGap.1.rest ∧ c.skipGap.2.isSome = c'.skipGap.2.isSome := by
  fun_induction skipGap c generalizing c' with
  | case1 c p cs hb d hc ih =>
    obtain ⟨q, hb'⟩ := skipBlanks_of_rest h hb
    obtain ⟨d', hc', hrest⟩ := skipComment_of_eq q hc
    rw [skipGap_of_closed hb' hc']
    exact ih hrest
  | case2 c p cs hb d hc =>
    obtain ⟨q, hb'⟩ := skipBlanks_of_rest h hb
    obtain ⟨d', hc', hrest⟩ := skipComment_of_eq q hc
    rw [skipGap_of_open hb' hc']
    exact ⟨hrest, rfl⟩
  | case3 c hne =>
    rcases hb : skipBlanks c.position c.rest with ⟨p, rest⟩
    obtain ⟨q, hb'⟩ := skipBlanks_of_rest h hb
    have hfront : ¬opener <+: rest := by
      rintro ⟨cs, rfl⟩
      exact hne p cs hb
    rw [skipGap_of_other (by rwa [hb']), hb']
    exact ⟨rfl, rfl⟩

end Cursor

namespace Token

open Lexeme

/-! ### Lexemes in front of a comment or a blank -/

/-- A text begins with a character that ends every lexeme in front of it, but for character constants. -/
def Separates (text : List Char) : Prop := ∃ d ds, text = d :: ds ∧ (d = '/' ∨ d = ' ')

section Separates

variable {tail tail' w : List Char}

theorem Separates.takeWhile (h : Separates tail) {p : Char → Bool} (hslash : p '/' = false)
    (hblank : p ' ' = false) (w : List Char) : (w ++ tail).takeWhile p = w.takeWhile p := by
  obtain ⟨d, ds, rfl, hd⟩ := h
  have hp : p d = false := by rcases hd with rfl | rfl <;> assumption
  rw [List.takeWhile_append]
  split
  · rw [List.takeWhile_cons_of_neg (by simp [hp]), List.append_nil]
    exact ((List.takeWhile_prefix p).eq_of_length ‹_›).symm
  · rfl

/-- No sign goes on with a slash or with a blank. -/
theorem not_mem_sign : ∀ l, IsSign l → '/' ∉ l.tail ∧ ' ' ∉ l.tail := by
  have hsigns : ∀ k ∈ signs, '/' ∉ k.label.toList.tail ∧ ' ' ∉ k.label.toList.tail := by
    decide
  rintro l ⟨k, hk, rfl⟩
  exact hsigns k hk

theorem Separates.front_iff (h : Separates tail) {l : List Char} (hl : IsSign l) (c : Char) :
    l <+: c :: (w ++ tail) ↔ l <+: c :: w := by
  refine ⟨fun hfront => ?_, fun hfront => hfront.trans ⟨tail, rfl⟩⟩
  rcases List.prefix_or_prefix_of_prefix hfront (List.prefix_append (c :: w) tail) with hle | ⟨x, rfl⟩
  · exact hle
  · obtain ⟨d, ds, rfl, hd⟩ := h
    rcases x with _ | ⟨e, es⟩
    · simp
    · -- the sign would go on with the first character behind
      obtain ⟨heq, -⟩ := List.cons_prefix_cons.1 ((List.prefix_append_right_inj (c :: w)).1 hfront)
      have hnot := not_mem_sign _ hl
      rw [List.cons_append, List.tail_cons] at hnot
      rcases hd with rfl | rfl
      · exact absurd (by simp [heq]) hnot.1
      · exact absurd (by simp [heq]) hnot.2

theorem Separates.sign (h : Separates tail) (h' : Separates tail') (c : Char) :
    Lexeme.sign c (w ++ tail) = Lexeme.sign c (w ++ tail') := by
  have hfind : signSpellings.find? (fun s => s.2.isPrefixOf (c :: (w ++ tail))) =
      signSpellings.find? (fun s => s.2.isPrefixOf (c :: (w ++ tail'))) := by
    refine List.find?_congr fun s hs => Bool.eq_iff_iff.2 ?_
    have hsign : IsSign s.2 := ⟨s.1, mem_signSpellings.1 hs⟩
    rw [List.isPrefixOf_iff_prefix, List.isPrefixOf_iff_prefix, h.front_iff hsign, h'.front_iff hsign]
  rw [Lexeme.sign, hfind]
  rfl

theorem Separates.closeCharacter (h : Separates tail) (h' : Separates tail') (c : Char) (more : Nat)
    (problems : List (Problem × List String)) :
    Lexeme.closeCharacter c more problems (w ++ tail) =
      Lexeme.closeCharacter c more problems (w ++ tail') := by
  have hhead : (w ++ tail).head? = some '\'' ↔ (w ++ tail').head? = some '\'' := by
    obtain ⟨d, ds, rfl, hd⟩ := h
    obtain ⟨d', ds', rfl, hd'⟩ := h'
    rcases w with _ | ⟨e, w⟩
    · rcases hd with rfl | rfl <;> rcases hd' with rfl | rfl <;> simp
    · simp
  unfold Lexeme.closeCharacter
  simp only [hhead]

theorem le_more_closeCharacter (c : Char) (more : Nat) (problems : List (Problem × List String))
    (rest : List Char) : more ≤ (Lexeme.closeCharacter c more problems rest).more := by
  unfold Lexeme.closeCharacter
  split
  · exact Nat.le_succ more
  · exact Nat.le_refl more

theorem characterConstant_other {c : Char} (hquote : c ≠ '\'') (hn : c ≠ '\n') (hr : c ≠ '\r')
    (hback : c ≠ '\\') (rest : List Char) :
    Lexeme.characterConstant (c :: rest) = Lexeme.closeCharacter c 1 [] rest := by
  unfold Lexeme.characterConstant
  split <;> simp_all

theorem characterConstant_escape (e : Char) : ∃ c problems, ∀ rest,
    Lexeme.characterConstant ('\\' :: e :: rest) = Lexeme.closeCharacter c 2 problems rest := by
  simp only [Lexeme.characterConstant]
  split
  · exact ⟨_, _, fun _ => rfl⟩
  · exact ⟨_, _, fun _ => rfl⟩

/-- A character constant that ends in front of a slash or a blank is the same whatever follows. -/
theorem Separates.characterConstant (h : Separates tail) (h' : Separates tail')
    (hmore : (Lexeme.characterConstant (w ++ tail)).more ≤ w.length) :
    Lexeme.characterConstant (w ++ tail) = Lexeme.characterConstant (w ++ tail') := by
  rcases w with _ | ⟨c, w⟩
  · -- a slash or a blank behind the quote would be part of the constant
    obtain ⟨d, ds, rfl, hd⟩ := h
    rw [List.nil_append, characterConstant_other (by rcases hd with rfl | rfl <;> decide)
      (by rcases hd with rfl | rfl <;> decide) (by rcases hd with rfl | rfl <;> decide)
      (by rcases hd with rfl | rfl <;> decide)] at hmore
    exact absurd (Nat.le_trans (le_more_closeCharacter d 1 [] ds) hmore) (by simp)
  by_cases hquote : c = '\''
  · subst hquote
    rfl
  by_cases hn : c = '\n'
  · subst hn
    rfl
  by_cases hr : c = '\r'
  · subst hr
    rfl
  by_cases hback : c = '\\'
  · subst hback
    rcases w with _ | ⟨e, w⟩
    · -- an escape would take the slash or the blank
      obtain ⟨d, ds, rfl, -⟩ := h
      obtain ⟨c', problems, heq⟩ := characterConstant_escape d
      rw [List.singleton_append, heq] at hmore
      exact absurd (Nat.le_trans (le_more_closeCharacter c' 2 problems ds) hmore) (by simp)
    · obtain ⟨c', problems, heq⟩ := characterConstant_escape e
      rw [List.cons_append, List.cons_append, List.cons_append, List.cons_append, heq, heq]
      exact h.closeCharacter h' c' 2 problems
  · rw [List.cons_append, List.cons_append, characterConstant_other hquote hn hr hback,
      characterConstant_other hquote hn hr hback]
    exact h.closeCharacter h' c 1 []

/-- A lexeme that ends in front of a slash or a blank, or earlier, is the same whatever follows there. -/
theorem Separates.read (h : Separates tail) (h' : Separates tail') {c : Char}
    (hmore : (Lexeme.read c (w ++ tail)).more ≤ w.length) :
    Lexeme.read c (w ++ tail) = Lexeme.read c (w ++ tail') := by
  have hname : ∀ t, Separates t → (w ++ t).takeWhile continuesName = w.takeWhile continuesName :=
    fun t ht => ht.takeWhile (by decide) (by decide) w
  have hdigit : ∀ t, Separates t → (w ++ t).takeWhile Char.isDigit = w.takeWhile Char.isDigit :=
    fun t ht => ht.takeWhile (by decide) (by decide) w
  unfold Lexeme.read at hmore ⊢
  split
  · simp only [word, hname tail h, hname tail' h']
  · split
    · simp only [integer, hdigit tail h, hdigit tail' h']
    · split
      · rw [if_neg ‹_›, if_neg ‹_›, if_pos ‹_›] at hmore
        exact h.characterConstant h' hmore
      · exact h.sign h' c

end Separates

/-! ### Places between tokens -/

/-- From the start of a text the scanner comes to the place that cuts it into two parts, between two
tokens, when it has found some tokens, which stand last first. -/
inductive Meets : List Char → List Char → List Scanned → Prop
  | start (text : List Char) : Meets [] text []
  | blank {u cs : List Char} {c : Char} {found : List Scanned} :
      Meets u (c :: cs) found → isBlank c → Meets (u ++ [c]) cs found
  | comment {u body rest : List Char} {found : List Scanned} :
      Meets u (opener ++ body ++ rest) found → Closes 0 body → Meets (u ++ (opener ++ body)) rest found
  | lexeme {u cs : List Char} {c : Char} {found : List Scanned} :
      Meets u (c :: cs) found → StartsLexeme (c :: cs) →
      Meets (u ++ (Lexeme.read c cs).spelling c cs) ((Lexeme.read c cs).rest cs)
        (.ofLexeme (.behind u) (.read c cs) :: found)

/-- Scanning from a cursor on depends on what stands behind the gap there. -/
theorem scanFrom_congr {c c' : Cursor} (h : c.skipGap = c'.skipGap) (found : List Scanned) :
    scanFrom c found = scanFrom c' found := by
  rcases hg : c.skipGap with ⟨⟨p, _ | ⟨ch, cs⟩⟩, unclosed?⟩
  · rw [scanFrom_of_end hg, scanFrom_of_end (h.symm.trans hg)]
  · rw [scanFrom_of_lexeme hg, scanFrom_of_lexeme (h.symm.trans hg)]

/-- Scanning goes on behind a closed comment. -/
theorem skipGap_closes {body : List Char} (h : Closes 0 body) (p : Position) (rest : List Char) :
    Cursor.skipComment 0 (p.afterAll opener) (body ++ rest) =
        (true, ⟨p.afterAll (opener ++ body), rest⟩) ∧
      Cursor.skipGap ⟨p, opener ++ body ++ rest⟩ = Cursor.skipGap ⟨p.afterAll (opener ++ body), rest⟩ := by
  have hcomment : Cursor.skipComment 0 (p.afterAll opener) (body ++ rest) =
      (true, ⟨p.afterAll (opener ++ body), rest⟩) := by
    have hshortest := isComment_of_closes h rest
    rw [List.append_assoc] at hshortest
    obtain ⟨body', rest', heq, -, hshortest', hskip⟩ | ⟨hnone, -⟩ :=
      Cursor.skipComment_iff (p.afterAll opener) (body ++ rest)
    · obtain rfl := List.append_cancel_left (hshortest.unique hshortest')
      rw [hskip, Position.afterAll_append, List.append_cancel_left heq]
    · exact absurd hshortest.balanced (hnone _ hshortest.front)
  refine ⟨hcomment, Cursor.skipGap_of_closed ?_ hcomment⟩
  rw [List.append_assoc]
  exact Cursor.skipBlanks_opener p (body ++ rest)

/-- What is found up to a place between two tokens is what scanning the text has found there. -/
theorem Meets.scan_eq {u text : List Char} {found : List Scanned} (h : Meets u text found) :
    scan (.ofList (u ++ text)) = scanFrom ⟨.behind u, text⟩ found := by
  induction h with
  | start text =>
    rw [scan, Cursor.ofString, String.toList_ofList]
    rfl
  | @blank u cs c found _ hc ih =>
    rw [List.append_assoc, List.singleton_append, ih, Position.behind_append]
    exact scanFrom_congr (Cursor.skipGap_blank hc _ cs) found
  | @comment u body rest found _ hbody ih =>
    rw [List.append_assoc, ih, ← Position.afterAll_behind]
    exact scanFrom_congr (skipGap_closes hbody _ rest).2 found
  | @lexeme u cs c found _ hstart ih =>
    have hgap : Cursor.skipGap ⟨.behind u, c :: cs⟩ = (⟨.behind u, c :: cs⟩, none) :=
      @Cursor.skipGap_blanks (.behind u) [] _ (by simp) hstart
    rw [List.append_assoc, Lexeme.spelling_append_rest, ih, scanFrom_of_lexeme hgap,
      Position.afterAll_behind]

theorem Separates.startsLexeme {tail tail' w : List Char} (ht' : Separates tail') {c : Char}
    (h : StartsLexeme (c :: (w ++ tail))) : StartsLexeme (c :: (w ++ tail')) where
  notBlank := h.notBlank
  notComment := by
    intro hopen
    obtain ⟨rfl, ds, heq⟩ := Cursor.opener_front_iff.1 hopen
    rcases w with _ | ⟨d, w⟩
    · obtain ⟨d, ds', rfl, hd⟩ := ht'
      obtain rfl := (List.cons.inj heq).1
      exact absurd hd (by decide)
    · obtain ⟨rfl, -⟩ := List.cons.inj heq
      exact h.notComment ⟨w ++ tail, rfl⟩

/-- A lexeme that takes just some characters behind its first has these as its spelling, and what is
behind them as its rest. -/
theorem cut_of_more {l : Lexeme} {front rest : List Char} (h : front.length = l.more) (c : Char) :
    l.spelling c (front ++ rest) = c :: front ∧ l.rest (front ++ rest) = rest := by
  rw [Lexeme.spelling, Lexeme.rest, ← h, List.take_left, List.drop_left]
  exact ⟨rfl, rfl⟩

/-- What stands behind the text in front of a slash or a blank does not matter to how the scanner comes
to a place in that text. -/
theorem Meets.change_within {u rest tail tail' : List Char} {found : List Scanned}
    (h : Meets u rest found) (ht : Separates tail) (ht' : Separates tail') :
    ∀ w, rest = w ++ tail → Meets u (w ++ tail') found := by
  induction h with
  | start text =>
    intro w _
    exact .start _
  | @blank u cs c found _ hc ih =>
    rintro w rfl
    exact .blank (ih (c :: w) rfl) hc
  | @comment u body rest found _ hbody ih =>
    rintro w rfl
    have hmeets := ih (opener ++ body ++ w) (List.append_assoc ..).symm
    rw [List.append_assoc] at hmeets
    exact .comment hmeets hbody
  | @lexeme u cs c found _ hstart ih =>
    intro w hrest
    generalize hl : Lexeme.read c cs = l at hrest ⊢
    obtain ⟨front, hmore, rfl⟩ : ∃ front : List Char, front.length = l.more ∧ cs = front ++ w ++ tail := by
      refine ⟨cs.take l.more, ?_, by
        rw [List.append_assoc, ← hrest, Lexeme.rest, List.take_append_drop]⟩
      obtain ⟨d, ds, rfl, -⟩ := ht
      have hlength := congrArg List.length hrest
      rw [Lexeme.rest, List.length_drop, List.length_append, List.length_cons] at hlength
      rw [List.length_take]
      omega
    have hread : Lexeme.read c (front ++ w ++ tail') = l := by
      refine (ht.read ht' ?_).symm.trans hl
      rw [hl, List.length_append]
      omega
    have hfront : Meets u (c :: (front ++ w ++ tail')) found := ih (c :: (front ++ w)) rfl
    have hmeets := Meets.lexeme hfront (ht'.startsLexeme hstart)
    rw [hread, List.append_assoc, (cut_of_more hmore c).1, (cut_of_more hmore c).2] at hmeets
    rw [List.append_assoc, (cut_of_more hmore c).1]
    exact hmeets

/-- Whatever stands behind the slash or the blank at a place between tokens, the scanner comes to the
place and has found the same by then. -/
theorem Meets.change {u tail tail' : List Char} {found : List Scanned} (h : Meets u tail found)
    (ht : Separates tail) (ht' : Separates tail') : Meets u tail' found :=
  h.change_within ht ht' [] rfl

/-- What a token is, and what is reported with it, apart from places. -/
def Scanned.placeless (s : Scanned) :
    Kind × Option String × Option Int32 × List (Problem × List String) :=
  (s.token.kind, s.token.text, s.token.value, s.diagnostics.map fun d => (d.problem, d.details))

theorem placeless_ofLexeme (p q : Position) (l : Lexeme) :
    (Scanned.ofLexeme p l).placeless = (Scanned.ofLexeme q l).placeless := by
  simp [Scanned.placeless, Scanned.ofLexeme]

theorem placeless_ofEnd (p q : Position) {unclosed? unclosed?' : Option Position}
    (h : unclosed?.isSome = unclosed?'.isSome) :
    (Scanned.ofEnd p unclosed?).placeless = (Scanned.ofEnd q unclosed?').placeless := by
  rcases unclosed? with _ | r <;> rcases unclosed?' with _ | r' <;>
    simp [Scanned.placeless, Scanned.ofEnd] at h ⊢

/-- What is found in a text does not depend on where the text stands. -/
theorem placeless_scanFrom {c c' : Cursor} (h : c.rest = c'.rest) {found found' : List Scanned}
    (hfound : found.map Scanned.placeless = found'.map Scanned.placeless) :
    (scanFrom c found).ahead.map Scanned.placeless = (scanFrom c' found').ahead.map Scanned.placeless := by
  fun_induction scanFrom c found generalizing c' found' with
  | case1 c found p unclosed? hg =>
    obtain ⟨hrest, hopen⟩ := Cursor.rest_skipGap h
    rcases hg' : c'.skipGap with ⟨⟨q, rest⟩, unclosed?'⟩
    rw [hg, hg'] at hrest hopen
    obtain rfl : [] = rest := hrest
    rw [scanFrom_of_end hg', List.reverse_cons, List.map_append, List.map_append, List.map_reverse,
      List.map_reverse, hfound, List.map_singleton, List.map_singleton, placeless_ofEnd p q hopen]
  | case2 c found p ch cs unclosed? hg l =>
    rename_i ih
    obtain ⟨hrest, -⟩ := Cursor.rest_skipGap h
    rcases hg' : c'.skipGap with ⟨⟨q, rest⟩, unclosed?'⟩
    rw [hg, hg'] at hrest
    obtain rfl : ch :: cs = rest := hrest
    rw [scanFrom_of_lexeme hg']
    refine ih (by rfl) ?_
    rw [List.map_cons, List.map_cons, hfound, placeless_ofLexeme p q]

/-- At a comment between two tokens the scanner skips the shortest front of the text in which openers and
closers, read from the left without overlap, balance, and reports nothing; a blank in place of that
comment leaves all tokens and all that is reported as they are, apart from places. If no front is
balanced, the scanner skips all of the text and reports the opener, and nothing else. -/
theorem scan_comment {u text : List Char} {found : List Scanned} (h : Meets u text found)
    (hopen : opener <+: text) :
    (∀ comment rest, text = comment ++ rest → IsComment comment text →
      Cursor.skipComment 0 (.behind (u ++ opener)) (text.drop 2) =
        (true, ⟨.behind (u ++ comment), rest⟩) ∧
      scan (.ofList (u ++ text)) = scanFrom ⟨.behind (u ++ comment), rest⟩ found ∧
      (scan (.ofList (u ++ text))).ahead.map Scanned.placeless =
        (scan (.ofList (u ++ ' ' :: rest))).ahead.map Scanned.placeless) ∧
    ((∀ front, front <+: text → ¬Balanced front) →
      Cursor.skipComment 0 (.behind (u ++ opener)) (text.drop 2) =
        (false, ⟨.behind (u ++ text), []⟩) ∧
      (scan (.ofList (u ++ text))).ahead =
        found.reverse ++ [{ token := { kind := .endOfFile, position := .behind (u ++ text) }
                            diagnostics := [⟨.behind u, .endInComment, []⟩] }]) := by
  obtain ⟨cs, rfl⟩ := hopen
  have hdrop : (opener ++ cs).drop 2 = cs := rfl
  rw [hdrop, ← Position.afterAll_behind u opener]
  constructor
  · intro comment rest htext hcomment
    -- the comment is what the reader of comments has read
    obtain ⟨body, rest', rfl, hbody, hshortest, -⟩ | ⟨hnone, -⟩ :=
      Cursor.skipComment_iff ((Position.behind u).afterAll opener) cs
    · obtain rfl := hcomment.unique hshortest
      rw [List.append_assoc, List.append_cancel_left_eq, List.append_cancel_left_eq] at htext
      subst htext
      have hmeets : Meets u (opener ++ body ++ rest') found := by rwa [List.append_assoc]
      have hbehind := (hmeets.comment hbody).scan_eq
      rw [List.append_assoc, List.append_assoc] at hbehind
      obtain ⟨hskip, -⟩ := skipGap_closes hbody (.behind u) rest'
      rw [Position.afterAll_behind u (opener ++ body)] at hskip
      refine ⟨hskip, hbehind, ?_⟩
      -- in front of the comment and of the blank the same is found, and the same behind them
      have hslash : Separates (opener ++ (body ++ rest')) := ⟨'/', '*' :: (body ++ rest'), rfl, .inl rfl⟩
      have hblank : Separates (' ' :: rest') := ⟨' ', rest', rfl, .inr rfl⟩
      rw [hbehind, (h.change hslash hblank).scan_eq,
        scanFrom_congr (Cursor.skipGap_blank (by decide) _ rest')]
      exact placeless_scanFrom (by rfl) rfl
    · exact absurd hcomment.balanced (hnone _ hcomment.front)
  · intro hnone
    obtain ⟨body, rest, -, -, hcomment, -⟩ | ⟨-, hskip⟩ :=
      Cursor.skipComment_iff ((Position.behind u).afterAll opener) cs
    · exact absurd hcomment.balanced (hnone _ hcomment.front)
    · refine ⟨?_, ?_⟩
      · rw [hskip, ← Position.afterAll_append, Position.afterAll_behind]
      · have hgap := Cursor.skipGap_of_open (c := ⟨.behind u, opener ++ cs⟩)
          (Cursor.skipBlanks_opener (.behind u) cs) hskip
        rw [h.scan_eq, scanFrom_of_end hgap, ← Position.afterAll_append, Position.afterAll_behind]
        rfl

/-- A comment in a comment, in which characters of openers and closers overlap, behind a name; and the
same comment without its last closer. -/
theorem scan_comment_overlapping :
    let inner := opener ++ '/' :: ' ' :: closer
    let text := opener ++ (inner ++ closer) ++ ['y']
    Meets ['x'] text [.ofLexeme .start (.read 'x' text)] ∧ opener <+: text ∧
      IsComment (opener ++ (inner ++ closer)) text ∧
      (scan "x/*/*/ */*/y").ahead.map Scanned.placeless = (scan "x y").ahead.map Scanned.placeless ∧
      (scan "x/*/*/ */y").ahead =
        [.ofLexeme .start (.read 'x' (opener ++ inner ++ ['y'])),
          { token := { kind := .endOfFile, position := ⟨1, 11⟩ }
            diagnostics := [⟨⟨1, 2⟩, .endInComment, []⟩] }] := by
  intro inner text
  have hmeets : ∀ tail, Lexeme.read 'x' (opener ++ tail) =
      { kind := .identifier, more := 0, text := some "x" } →
      Meets ['x'] (opener ++ tail) [.ofLexeme .start (.read 'x' (opener ++ tail))] := by
    intro tail hread
    have hstart : StartsLexeme ('x' :: (opener ++ tail)) :=
      ⟨by simp [isBlank, blankRanges], fun h => absurd (Cursor.opener_front_iff.1 h).1 (by decide)⟩
    have hmeets := Meets.lexeme (.start _) hstart
    rw [hread] at hmeets ⊢
    exact hmeets
  have htext : Meets ['x'] text [.ofLexeme .start (.read 'x' text)] :=
    hmeets (inner ++ closer ++ ['y']) (by decide)
  have hbody : Closes 0 (inner ++ closer) :=
    .inner (.other (by decide) (by decide) (.other (by decide) (by decide) (.close .last)))
  have hcomment : IsComment (opener ++ (inner ++ closer)) text := isComment_of_closes hbody ['y']
  refine ⟨htext, ⟨_, rfl⟩, hcomment, ?_, ?_⟩
  · exact ((scan_comment htext ⟨_, rfl⟩).1 _ ['y'] rfl hcomment).2.2
  · have hopen : LeavesOpen 0 (inner ++ ['y']) :=
      .inner (.other (by decide) (by decide) (.other (by decide) (by decide)
        (.close (.other (by decide) (by decide) .nil))))
    have hscan := ((scan_comment (hmeets (inner ++ ['y']) (by decide)) ⟨_, rfl⟩).2
      fun front => not_balanced_of_leavesOpen hopen).2
    exact hscan

end Token

end MicroJava
