import MicroJava.Proofs.Blind
import MicroJava.Proofs.SourceFile

/-!
# Names and layout do not matter

Two texts whose tokens differ in their places and by a renaming (`Renames`) have the same image, or stop
at the same fault, and their diagnostics are of the same kinds (`compile_renamed`).
-/

namespace MicroJava

open Production

/-- The names that a text and the language use. -/
def namesOf (options : Options) (source : String) : List String :=
  options.entryName :: languageNames ++ (Token.scan source).ahead.filterMap fun t =>
    if t.token.kind = .identifier then some t.token.name else none

/-- The tokens of the second text are those of the first one with other names, at other places. The
renaming is one-to-one, and keeps the names of the language and that of the entry method. -/
structure Renames (f : String → String) (options : Options) (source source' : String) : Prop where
  fixed : ∀ n ∈ options.entryName :: languageNames, f n = n
  injective : ∀ n ∈ namesOf options source, ∀ m ∈ namesOf options source, f n = f m → n = m
  tokens : List.Forall₂ (fun t t' : Token.Scanned => t'.token.kind = t.token.kind ∧
      t'.token.value = t.token.value ∧ (t.token.kind = .identifier → t'.token.name = f t.token.name))
    (Token.scan source).ahead (Token.scan source').ahead

/-- What does not depend on names and layout. -/
def Compilation.nameless (r : Compilation) : Image × List Problem :=
  (r.image, r.diagnostics.map (·.problem))

namespace Renames

variable {f : String → String} {options : Options} {source source' : String}

/-- No name is empty. -/
theorem name_ne_empty {t : Token.Scanned} (ht : t ∈ (Token.scan source).ahead)
    (hk : t.token.kind = .identifier) : t.token.name ≠ "" := by
  obtain ⟨ts, p, unclosed?, heq, hts⟩ := Token.scan_eq source
  rw [heq] at ht
  rcases List.mem_append.1 ht with ht | ht
  · obtain ⟨q, ch, cs, rfl⟩ := hts t ht
    exact Token.Lexeme.text_of_identifier hk
  · rw [List.mem_singleton.1 ht] at hk
    cases hk

def toRenaming (h : Renames f options source source') : Renaming options.entryName where
  rel n n' := n = "" ∧ n' = "" ∨ n ∈ namesOf options source ∧ n ≠ "" ∧ n' = f n ∧ n' ≠ ""
  oneToOne := by
    rintro a a' b b' (⟨rfl, rfl⟩ | ⟨ha, hne, rfl, hne'⟩) (⟨rfl, rfl⟩ | ⟨hb, hnb, rfl, hnb'⟩)
    · exact Iff.rfl
    · exact iff_of_false hnb.symm hnb'.symm
    · exact iff_of_false hne hne'
    · exact ⟨fun hab => hab ▸ rfl, h.injective a ha b hb⟩
  empty := .inl ⟨rfl, rfl⟩
  language := by
    intro n hn
    have hne : n ≠ "" := by
      rintro rfl
      exact absurd hn (by decide)
    exact .inr ⟨List.mem_append_left _ (List.mem_cons_of_mem _ hn), hne,
      (h.fixed n (List.mem_cons_of_mem _ hn)).symm, hne⟩
  entry := by
    by_cases hne : options.entryName = ""
    · exact .inl ⟨hne, hne⟩
    · exact .inr ⟨List.mem_append_left _ List.mem_cons_self, hne,
        (h.fixed _ List.mem_cons_self).symm, hne⟩

/-- Before the first token, the sessions are alike. -/
theorem start_alike (h : Renames f options source source') (hcorrect : LexicallyCorrect source)
    (hcorrect' : LexicallyCorrect source') :
    (Session.start (Token.scan source) options).Alike h.toRenaming
      (Session.start (Token.scan source') options) where
  ahead := by
    show List.Forall₂ _ (Token.scan source).ahead (Token.scan source').ahead
    refine List.forall₂_iff_get.2 ⟨h.tokens.length_eq, fun i hi hi' => ?_⟩
    obtain ⟨hkind, hvalue, hname⟩ := h.tokens.get hi hi'
    have hmem := List.get_mem (Token.scan source).ahead ⟨i, hi⟩
    have hmem' := List.get_mem (Token.scan source').ahead ⟨i, hi'⟩
    refine ⟨⟨hkind, congrArg (Option.getD · 0) hvalue, fun hk => .inr ⟨?_, name_ne_empty hmem hk,
      hname hk, name_ne_empty hmem' (hkind.trans hk)⟩⟩, ?_⟩
    · exact List.mem_append_right _ (List.mem_filterMap.2 ⟨_, hmem, by rw [if_pos hk]⟩)
    · rw [hcorrect _ hmem, hcorrect' _ hmem']
  last := by
    obtain ⟨_, p, unclosed?, heq, -⟩ := Token.scan_eq source
    obtain ⟨_, p', unclosed?', heq', -⟩ := Token.scan_eq source'
    rw [heq, heq']
    exact ⟨rfl, rfl, fun hk => by cases hk⟩
  current := ⟨rfl, rfl, fun hk => by cases hk⟩
  previous := ⟨rfl, rfl, fun hk => by cases hk⟩
  distance := rfl
  problems := rfl
  table := .initial
  assembly := rfl
  returnType := rfl

end Renames

/-- The names and the layout of a text have no influence on the image, or the fault, and on the kinds of
its diagnostics. -/
theorem compile_renamed {f : String → String} {options : Options} {source source' : String}
    (h : Renames f options source source') (hcorrect : LexicallyCorrect source)
    (hcorrect' : LexicallyCorrect source') :
    (compile source' options).map Compilation.nameless =
      (compile source options).map Compilation.nameless := by
  have hsetting : Setting.ofStream options (Token.scan source') =
      .ofStream options (Token.scan source) := by
    rw [Setting.ofStream, Setting.ofStream, h.tokens.length_eq]
  have hblind := Blind.sourceFile (c := .ofStream options (Token.scan source)) (R := h.toRenaming)
    (h.start_alike hcorrect hcorrect')
  unfold compile compileTokens runOn
  rw [hsetting]
  unfold outcome at hblind
  rcases hr : sourceFile (.ofStream options (Token.scan source))
    (.start (Token.scan source) options) with ⟨e | u, s⟩ <;>
    rcases hr' : sourceFile (.ofStream options (Token.scan source))
      (.start (Token.scan source') options) with ⟨e' | u', s'⟩ <;>
    rw [hr, hr'] at hblind
  · exact congrArg Except.error hblind.1.symm
  · exact False.elim hblind.1
  · exact False.elim hblind.1
  · have halike : s.Alike h.toRenaming s' := hblind.2
    simp only [halike.assembly]
    rcases s.assembly.finish with e | image
    · rfl
    · exact congrArg (fun ps => Except.ok (image, ps)) halike.problems

/-- A program that uses a name without declaring it, with other names in another layout. -/
theorem compile_renamed_layout :
    (compile "program Q /* total, count */ { void main() int total; { total=1; count=total; } }").map
        Compilation.nameless =
      (compile "program P { void main() int x; { x = 1; y = x; } }").map Compilation.nameless := by
  let f : String → String := fun n =>
    if n = "P" then "Q" else if n = "x" then "total" else if n = "y" then "count" else n
  have hrenames : Renames f {} "program P { void main() int x; { x = 1; y = x; } }"
      "program Q /* total, count */ { void main() int total; { total=1; count=total; } }" :=
    ⟨by decide +kernel, by decide +kernel, by decide +kernel⟩
  exact compile_renamed hrenames (by decide +kernel) (by decide +kernel)

end MicroJava
