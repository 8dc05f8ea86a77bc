import Mathlib.Algebra.GroupWithZero.Nat
import MicroJava.Proofs.Gaps
import MicroJava.Proofs.Lexemes

/-!
# Printed tokens

A token of the language can be written down (`Token.print`), and what is written is read back as that
token if a blank or nothing follows it (`Token.WellFormed.reads`). So tokens that are printed with
blanks between them are scanned as they were, and nothing is reported (`Token.scan_print`).
-/

namespace MicroJava.Token

open Lexeme

/-- A token that a text can have: a name, a reserved word, a number of at most 31 bits, a character
constant or a sign. -/
inductive WellFormed (t : Token) : Prop
  | name {s : String} (kind : t.kind = .identifier) (text : t.text = some s)
    (value : t.value = none) (isName : IsName s.toList) (free : Kind.reserved? s = none)
  | reserved (kind : t.kind ∈ Kind.reserved) (text : t.text = some t.kind.label)
    (value : t.value = none)
  | number {n : Nat} (kind : t.kind = .number) (text : t.text = none)
    (value : t.value = some (.ofNat n)) (small : n < 2 ^ 31)
  | character {c : Char} (kind : t.kind = .character) (text : t.text = none)
    (value : t.value = some (.ofNat c.toNat))
  | sign (kind : t.kind ∈ signs) (text : t.text = none) (value : t.value = none)

/-- Every kind has well-formed tokens, but for the end of the file and what is no token. -/
theorem exists_wellFormed_iff (k : Kind) :
    (∃ t : Token, t.WellFormed ∧ t.kind = k) ↔ k ≠ .unknown ∧ k ≠ .endOfFile := by
  constructor
  · rintro ⟨t, ht, rfl⟩
    have hmem : ∀ k ∈ Kind.reserved ++ signs, k ≠ .unknown ∧ k ≠ .endOfFile := by decide
    cases ht with
    | name kind => simp [kind]
    | reserved kind => exact hmem _ (List.mem_append_left _ kind)
    | number kind => simp [kind]
    | character kind => simp [kind]
    | sign kind => exact hmem _ (List.mem_append_right _ kind)
  · intro h
    have hcases : ∀ k ∈ Kind.all, k ≠ .unknown ∧ k ≠ .endOfFile →
        k = .identifier ∨ k ∈ Kind.reserved ∨ k = .number ∨ k = .character ∨ k ∈ signs := by
      decide
    rcases hcases k k.mem_all h with rfl | hk | rfl | rfl | hk
    · exact ⟨{ kind := .identifier, position := .start, text := some "x" },
        .name rfl rfl rfl ⟨'x', [], rfl, rfl, by simp⟩ (by decide), rfl⟩
    · exact ⟨{ kind := k, position := .start, text := some k.label }, .reserved hk rfl rfl, rfl⟩
    · exact ⟨{ kind := .number, position := .start, value := some (.ofNat 0) },
        .number rfl rfl rfl (by decide), rfl⟩
    · exact ⟨{ kind := .character, position := .start, value := some (.ofNat ('x').toNat) },
        .character rfl rfl rfl, rfl⟩
    · exact ⟨{ kind := k, position := .start }, .sign hk rfl rfl, rfl⟩

/-- A character as it is written between quotes. -/
def quoted : Char → List Char
  | '\n' => ['\\', 'n']
  | '\r' => ['\\', 'r']
  | '\'' => ['\\', '\'']
  | '\\' => ['\\', '\\']
  | c => [c]

/-- The spelling of a token; a number may have zeros in front of it. -/
def print (zeros : Nat) (t : Token) : List Char :=
  match t.kind with
  | .identifier => t.name.toList
  | .number => List.replicate zeros '0' ++ Nat.toDigits 10 t.literal.toInt.toNat
  | .character => '\'' :: quoted (.ofNat t.literal.toInt.toNat) ++ ['\'']
  | k => k.label.toList

/-- What follows a lexeme is nothing or a blank. -/
def Apart (rest : List Char) : Prop := ∀ c ∈ rest.head?, c = ' '

/-- The token, and no problem, is read from its spelling in front of some text. -/
def Reads (t : Token) (l rest : List Char) : Prop :=
  ∃ c cs, l = c :: cs ∧ StartsLexeme (c :: (cs ++ rest)) ∧
    Lexeme.read c (cs ++ rest) =
      { kind := t.kind, more := cs.length, text := t.text, value := t.value }

section

variable {t : Token} {c : Char} {l l' cs rest : List Char}

theorem Apart.takeWhile (h : Apart rest) {p : Char → Bool} (hp : p ' ' = false)
    (hcs : ∀ d ∈ cs, p d) : (cs ++ rest).takeWhile p = cs := by
  rw [List.takeWhile_append_of_pos hcs]
  rcases rest with _ | ⟨d, ds⟩
  · rw [List.takeWhile_nil, List.append_nil]
  · obtain rfl := h d rfl
    rw [List.takeWhile_cons_of_neg (by simp [hp]), List.append_nil]

/-- A run without blanks in front of a text is part of the lexeme in front. -/
theorem Apart.front (h : Apart rest) (hl' : ' ' ∉ l') (hfront : l' <+: l ++ rest) : l' <+: l := by
  rcases List.prefix_or_prefix_of_prefix hfront (List.prefix_append l rest) with hle | ⟨x, rfl⟩
  · exact hle
  · rcases x with _ | ⟨d, ds⟩
    · simp
    · obtain ⟨es, hes⟩ := hfront
      rw [List.append_assoc, List.append_cancel_left_eq] at hes
      obtain rfl := h d (by rw [← hes]; rfl)
      exact absurd (by simp) hl'

theorem startsLexeme_cons (hblank : isBlank c = false) (hslash : c ≠ '/') (cs : List Char) :
    StartsLexeme (c :: cs) where
  notBlank := by simpa using hblank
  notComment := fun h => hslash (Cursor.opener_front_iff.1 h).1

theorem isBlank_eq_false (h : 33 ≤ c.toNat) (h' : c.toNat ≤ 126) : isBlank c = false := by
  simp [isBlank, blankRanges]
  omega

theorem bounds_of_isAlpha (h : c.isAlpha) : 65 ≤ c.toNat ∧ c.toNat ≤ 122 := by
  unfold Char.isAlpha Char.isUpper Char.isLower at h
  simp only [Bool.or_eq_true, Bool.and_eq_true, decide_eq_true_eq, UInt32.le_iff_toNat_le,
    ge_iff_le] at h
  change 65 ≤ c.toNat ∧ c.toNat ≤ 90 ∨ 97 ≤ c.toNat ∧ c.toNat ≤ 122 at h
  omega

theorem bounds_of_isDigit (h : c.isDigit) : 48 ≤ c.toNat ∧ c.toNat ≤ 57 := by
  unfold Char.isDigit at h
  simp only [Bool.and_eq_true, decide_eq_true_eq, UInt32.le_iff_toNat_le, ge_iff_le] at h
  exact h

theorem startsLexeme_of_bounds (h : 48 ≤ c.toNat) (h' : c.toNat ≤ 122) (cs : List Char) :
    StartsLexeme (c :: cs) := by
  refine startsLexeme_cons (isBlank_eq_false (by omega) (by omega)) ?_ cs
  rintro rfl
  exact absurd h (by decide)

/-! ### Names and numbers -/

theorem reads_word {s : String} (h : IsName s.toList) (hrest : Apart rest)
    (hkind : t.kind = (Kind.reserved? s).getD .identifier) (htext : t.text = some s)
    (hvalue : t.value = none) : t.Reads s.toList rest := by
  obtain ⟨c, cs, hs, hc, hcs⟩ := h
  have hofList : String.ofList (c :: cs) = s := by rw [← hs, String.ofList_toList]
  have hbounds := bounds_of_isAlpha hc
  refine ⟨c, cs, hs, startsLexeme_of_bounds (by omega) (by omega) _, ?_⟩
  rw [Lexeme.read, if_pos hc, word, hrest.takeWhile (by decide) hcs]
  simp only [hofList, hkind, htext, hvalue]

theorem not_isAlpha_of_isDigit (h : c.isDigit) : ¬c.isAlpha := fun halpha => by
  have := bounds_of_isDigit h
  have := bounds_of_isAlpha halpha
  omega

theorem reads_integer {n : Nat} (h : ∀ d ∈ l, d.isDigit) (hl : l ≠ []) (hn : decimal l = n)
    (hsmall : n < 2 ^ 31) (hrest : Apart rest) (hkind : t.kind = .number) (htext : t.text = none)
    (hvalue : t.value = some (.ofNat n)) : t.Reads l rest := by
  obtain ⟨c, cs, rfl⟩ := List.exists_cons_of_ne_nil hl
  rw [List.forall_mem_cons] at h
  have hbounds := bounds_of_isDigit h.1
  refine ⟨c, cs, rfl, startsLexeme_of_bounds (by omega) (by omega) _, ?_⟩
  have hle : (n : Int) ≤ Int32.maxValue.toInt := by
    rw [show Int32.maxValue.toInt = 2147483647 from rfl]
    omega
  rw [Lexeme.read, if_neg (not_isAlpha_of_isDigit h.1), if_pos h.1, integer,
    hrest.takeWhile (by decide) h.2]
  simp only [hn, if_pos hle, hkind, htext, hvalue]

theorem decimal_print (zeros n : Nat) :
    decimal (List.replicate zeros '0' ++ Nat.toDigits 10 n) = n := by
  have : ∀ l, decimal l = Nat.ofDigitChars 10 l 0 := fun _ => rfl
  rw [this, Nat.ofDigitChars_append, Nat.ofDigitChars_replicate_zero, Nat.mul_zero,
    Nat.ofDigitChars_ten_toDigits]

/-! ### Character constants -/

/-- A character that is written as it is. -/
theorem characterConstant_plain (hn : c ≠ '\n') (hr : c ≠ '\r') (hquote : c ≠ '\'') (hback : c ≠ '\\') :
    characterConstant (c :: '\'' :: rest) =
      { kind := .character, more := 2, value := some (.ofNat c.toNat) } := by
  unfold characterConstant
  split
  · contradiction
  · next h => exact absurd (List.cons.inj h).1 hquote
  · next h => exact absurd (List.cons.inj h).1 hn
  · next h => exact absurd (List.cons.inj h).1 hr
  · next h => exact absurd (List.cons.inj h).1 hback
  · next h => exact absurd (List.cons.inj h).1 hback
  · next h =>
    obtain ⟨rfl, rfl⟩ := List.cons.inj h
    rfl

theorem characterConstant_quoted (c : Char) (rest : List Char) :
    characterConstant (quoted c ++ '\'' :: rest) =
      { kind := .character, more := (quoted c ++ ['\'']).length, value := some (.ofNat c.toNat) } := by
  unfold quoted
  split
  · rfl
  · rfl
  · rfl
  · rfl
  · next hn hr hquote hback => exact characterConstant_plain hn hr hquote hback

theorem reads_character (rest : List Char) (hkind : t.kind = .character) (htext : t.text = none)
    (hvalue : t.value = some (.ofNat c.toNat)) :
    t.Reads ('\'' :: quoted c ++ ['\'']) rest := by
  refine ⟨'\'', quoted c ++ ['\''], rfl, startsLexeme_cons (by decide) (by decide) _, ?_⟩
  rw [Lexeme.read, if_neg (by decide), if_neg (by decide), if_pos rfl, List.append_assoc,
    List.singleton_append, characterConstant_quoted, hkind, htext, hvalue]

/-! ### Signs -/

/-- What a sign starts with starts no other lexeme and no gap. -/
theorem label_of_mem_signs : ∀ k ∈ signs, k.label.toList ≠ [] ∧ ' ' ∉ k.label.toList ∧
    ¬opener <+: k.label.toList ∧ k.label.toList.head?.all fun c =>
      !c.isAlpha && !c.isDigit && c != '\'' && !isBlank c := by
  decide

theorem label_injOn_signs : ∀ k ∈ signs, ∀ k' ∈ signs, k.label.toList = k'.label.toList → k = k' := by
  decide

/-- In front of a blank, the longest sign is the one that is written there. -/
theorem sign_label {k : Kind} (hk : k ∈ signs) (hlabel : k.label.toList = c :: cs)
    (hrest : Apart rest) : sign c (cs ++ rest) = { kind := k, more := cs.length } := by
  have hfront : c :: cs <+: c :: (cs ++ rest) := List.prefix_append (c :: cs) rest
  rcases hfind : signSpellings.find? (fun s => s.2.isPrefixOf (c :: (cs ++ rest))) with _ | ⟨k', l⟩
  · exact absurd hfront (no_sign hfind ⟨k, hk, hlabel⟩)
  · obtain ⟨hk', rfl, hlongest⟩ := longest_sign hfind
    -- the sign that is found does not reach over the blank, and is as long as any other there
    have hle : k'.label.toList <+: c :: cs :=
      hrest.front (label_of_mem_signs k' hk').2.1 hlongest.front
    have heq : k'.label.toList = c :: cs :=
      hle.eq_of_length_le (hlongest.length_le _ ⟨k, hk, hlabel⟩ hfront)
    obtain rfl := label_injOn_signs k' hk' k hk (heq.trans hlabel.symm)
    rw [sign, hfind]
    simp only [heq, List.length_cons, Nat.add_sub_cancel]

theorem reads_sign (hrest : Apart rest) (hkind : t.kind ∈ signs) (htext : t.text = none)
    (hvalue : t.value = none) : t.Reads t.kind.label.toList rest := by
  obtain ⟨hne, hblank, hopener, hhead⟩ := label_of_mem_signs _ hkind
  obtain ⟨c, cs, hlabel⟩ := List.exists_cons_of_ne_nil hne
  rw [hlabel] at hopener hhead
  obtain ⟨⟨⟨halpha, hdigit⟩, hquote⟩, hb⟩ :
      ((c.isAlpha = false ∧ c.isDigit = false) ∧ c ≠ '\'') ∧ isBlank c = false := by
    simpa using hhead
  refine ⟨c, cs, hlabel, ⟨by simpa using hb, fun h => hopener (hrest.front (by decide) h)⟩, ?_⟩
  rw [Lexeme.read, if_neg (by simp [halpha]), if_neg (by simp [hdigit]), if_neg hquote,
    sign_label hkind hlabel hrest, htext, hvalue]

/-! ### Tokens -/

theorem label_of_mem_reserved : ∀ k ∈ Kind.reserved,
    k.label.toList ≠ [] ∧ k.label.toList.head?.all Char.isAlpha ∧
      k.label.toList.tail.all continuesName ∧ Kind.reserved? k.label = some k := by
  decide

theorem print_of_mem (zeros : Nat) (h : t.kind ∈ Kind.reserved ++ signs) :
    t.print zeros = t.kind.label.toList := by
  have : ∀ k ∈ Kind.reserved ++ signs, k ≠ .identifier ∧ k ≠ .number ∧ k ≠ .character := by
    decide
  obtain ⟨hname, hnumber, hcharacter⟩ := this _ h
  unfold print
  split
  · contradiction
  · contradiction
  · contradiction
  · rfl

theorem toNat_ofNat {n : Nat} (h : n < 2 ^ 31) : (Int32.ofNat n).toInt.toNat = n := by
  rw [Int32.toInt_ofNat_of_lt h, Int.toNat_natCast]

theorem character_lt (c : Char) : c.toNat < 2 ^ 31 := by
  rcases c.valid with h | ⟨-, h⟩
  · exact Nat.lt_trans h (by decide)
  · exact Nat.lt_trans h (by decide)

/-- A token is read from its spelling if a blank or nothing follows. -/
theorem WellFormed.reads (h : t.WellFormed) (hrest : Apart rest) (zeros : Nat) :
    t.Reads (t.print zeros) rest := by
  cases h with
  | @name s hkind htext hvalue hname hfree =>
    have hprint : t.print zeros = s.toList := by
      simp only [print, hkind, Token.name, htext, Option.getD_some]
    rw [hprint]
    exact reads_word hname hrest (by rw [hfree, hkind]; rfl) htext hvalue
  | reserved hkind htext hvalue =>
    obtain ⟨hne, halpha, hmore, hreserved⟩ := label_of_mem_reserved _ hkind
    rw [print_of_mem zeros (List.mem_append_left _ hkind)]
    obtain ⟨c, cs, hlabel⟩ := List.exists_cons_of_ne_nil hne
    rw [hlabel] at halpha hmore
    have hname : IsName t.kind.label.toList := ⟨c, cs, hlabel, halpha, List.all_eq_true.1 hmore⟩
    exact reads_word hname hrest (by rw [hreserved]; rfl) htext hvalue
  | @number n hkind htext hvalue hsmall =>
    have hprint : t.print zeros = List.replicate zeros '0' ++ Nat.toDigits 10 n := by
      simp only [print, hkind, literal, hvalue, Option.getD_some, toNat_ofNat hsmall]
    rw [hprint]
    refine reads_integer (fun d hd => ?_) ?_ (decimal_print zeros n) hsmall hrest hkind htext hvalue
    · rcases List.mem_append.1 hd with hd | hd
      · rw [List.eq_of_mem_replicate hd]
        rfl
      · exact Nat.isDigit_of_mem_toDigits (by decide) (by decide) hd
    · exact List.append_ne_nil_of_right_ne_nil _ Nat.toDigits_ne_nil
  | @character c hkind htext hvalue =>
    have hprint : t.print zeros = '\'' :: quoted c ++ ['\''] := by
      simp only [print, hkind, literal, hvalue, Option.getD_some, toNat_ofNat (character_lt c),
        Char.ofNat_toNat]
    rw [hprint]
    exact reads_character rest hkind htext hvalue
  | sign hkind htext hvalue =>
    rw [print_of_mem zeros (List.mem_append_right _ hkind)]
    exact reads_sign hrest hkind htext hvalue

end

/-! ### Texts of printed tokens -/

/-- Tokens, each with the zeros in front of its number, with single blanks between them. -/
def printAll (ts : List (Nat × Token)) : List Char :=
  List.intercalate [' '] (ts.map fun t => t.2.print t.1)

/-- What a token is, apart from its place, and what is reported with it. -/
def Scanned.content (s : Scanned) :
    Kind × Option String × Option Int32 × List Diagnostic :=
  (s.token.kind, s.token.text, s.token.value, s.diagnostics)

/-- A token behind blanks is read, and nothing is reported. -/
theorem Reads.scanFrom {t : Token} {l rest : List Char} (h : t.Reads l rest) {blanks : List Char}
    (hblanks : ∀ c ∈ blanks, isBlank c) (p : Position) (found : List Scanned) :
    ∃ s : Scanned, s.content = (t.kind, t.text, t.value, []) ∧
      Token.scanFrom ⟨p, blanks ++ (l ++ rest)⟩ found =
        Token.scanFrom ⟨p.afterAll (blanks ++ l), rest⟩ (s :: found) := by
  obtain ⟨c, cs, rfl, hstart, hread⟩ := h
  refine ⟨.ofLexeme (p.afterAll blanks) (.read c (cs ++ rest)), ?_, ?_⟩
  · rw [hread]
    rfl
  · rw [List.cons_append, scanFrom_of_lexeme (Cursor.skipGap_blanks p hblanks hstart)]
    simp only [hread, Lexeme.spelling, Lexeme.rest, List.take_left, List.drop_left,
      Position.afterAll_append]

/-- The end of the file behind blanks. -/
theorem scanFrom_blanks {blanks : List Char} (h : ∀ c ∈ blanks, isBlank c) (p : Position)
    (found : List Scanned) :
    scanFrom ⟨p, blanks⟩ found =
      ⟨found.reverse ++ [.ofEnd (p.afterAll blanks) none],
        (Scanned.ofEnd (p.afterAll blanks) none).token⟩ := by
  have hgap := Cursor.skipGap_blanks p h (⟨by simp, by decide⟩ : StartsLexeme [])
  rw [List.append_nil] at hgap
  exact scanFrom_of_end hgap found

theorem printAll_cons (t : Nat × Token) (ts : List (Nat × Token)) :
    ∃ blanks, (∀ c ∈ blanks, isBlank c) ∧ Apart (blanks ++ printAll ts) ∧
      printAll (t :: ts) = t.2.print t.1 ++ (blanks ++ printAll ts) := by
  rcases ts with _ | ⟨t', ts⟩
  · exact ⟨[], by simp, by simp [Apart, printAll], by simp [printAll]⟩
  · exact ⟨[' '], by simp [isBlank, blankRanges], by simp [Apart], by simp [printAll]⟩

theorem scanFrom_printAll {ts : List (Nat × Token)} (h : ∀ t ∈ ts, t.2.WellFormed) {blanks : List Char}
    (hblanks : ∀ c ∈ blanks, isBlank c) (p : Position) (found : List Scanned) :
    (scanFrom ⟨p, blanks ++ printAll ts⟩ found).ahead.map Scanned.content =
      found.reverse.map Scanned.content ++ ts.map (fun t => (t.2.kind, t.2.text, t.2.value, [])) ++
        [(.endOfFile, none, none, [])] := by
  induction ts generalizing blanks p found with
  | nil =>
    have hnil : blanks ++ printAll [] = blanks := List.append_nil blanks
    rw [hnil, scanFrom_blanks hblanks]
    simp [Scanned.content, Scanned.ofEnd]
  | cons t ts ih =>
    rw [List.forall_mem_cons] at h
    obtain ⟨blanks', hblanks', hapart, hprint⟩ := printAll_cons t ts
    obtain ⟨s, hs, hscan⟩ := (h.1.reads hapart t.1).scanFrom hblanks p found
    rw [hprint, hscan, ih h.2 hblanks']
    simp [hs]

/-- Well-formed tokens that are printed with single blanks between them, and with any zeros in front of
their numbers, are scanned as they are and in their order; the end of the file follows, and nothing is
reported. -/
theorem scan_print {ts : List (Nat × Token)} (h : ∀ t ∈ ts, t.2.WellFormed) :
    (scan (.ofList (printAll ts))).ahead.map Scanned.content =
      ts.map (fun t => (t.2.kind, t.2.text, t.2.value, [])) ++ [(.endOfFile, none, none, [])] := by
  have hcursor : Cursor.ofString (.ofList (printAll ts)) = ⟨.start, [] ++ printAll ts⟩ := by
    rw [Cursor.ofString, String.toList_ofList, List.nil_append]
  rw [scan, hcursor, scanFrom_printAll h (by simp)]
  rfl

/-- Signs that begin alike, a reserved word, leading zeros and an escape. -/
theorem scan_print_mixed :
    let ts : List (Nat × Token) :=
      [(0, { kind := .ifWord, position := .start, text := some "if" }),
       (0, { kind := .identifier, position := .start, text := some "iffy_1" }),
       (0, { kind := .lessEqual, position := .start }),
       (0, { kind := .less, position := .start }),
       (2, { kind := .number, position := .start, value := some (.ofNat 2147483647) }),
       (0, { kind := .character, position := .start, value := some (.ofNat ('\'').toNat) })]
    (∀ t ∈ ts, t.2.WellFormed) ∧
      String.ofList (printAll ts) = "if iffy_1 <= < 002147483647 '\\''" ∧
      (scan "if iffy_1 <= < 002147483647 '\\''").ahead.map Scanned.content =
        [(.ifWord, some "if", none, []), (.identifier, some "iffy_1", none, []),
         (.lessEqual, none, none, []), (.less, none, none, []), (.number, none, some 2147483647, []),
         (.character, none, some 39, []), (.endOfFile, none, none, [])] := by
  intro ts
  have hts : ∀ t ∈ ts, t.2.WellFormed := by
    simp only [ts, List.forall_mem_cons]
    refine ⟨.reserved (by decide) rfl rfl, ?_, .sign (by decide) rfl rfl, .sign (by decide) rfl rfl,
      .number rfl rfl rfl (by decide), .character rfl rfl rfl, by simp⟩
    have hmore : ("ffy_1".toList.all continuesName) = true := by decide
    exact .name rfl rfl rfl ⟨'i', "ffy_1".toList, by decide, rfl, List.all_eq_true.1 hmore⟩
      (by decide)
  have htext : String.ofList (printAll ts) = "if iffy_1 <= < 002147483647 '\\''" := by
    decide
  refine ⟨hts, htext, ?_⟩
  rw [← htext, scan_print hts]
  rfl

end MicroJava.Token
