import Mathlib.Data.List.Infix
import Mathlib.Data.List.TakeWhile
import MicroJava.Token.Scan

/-!
# Wordings and their details

A wording has a place for one detail or for none (`Problem.holes_eq`). A problem that comes with as many
details as its wording has places for (`Problem.Takes`) has a message in which the detail stands as it
is, whatever is in it (`Problem.exists_message_eq`). Such are the problems of all lexemes
(`Token.Lexeme.worded_read`).
-/

namespace MicroJava

namespace Problem

/-! ### Places -/

/-- The text starts with a number in braces. -/
def startsHole : List Char → Bool
  | '{' :: cs =>
    let digits := cs.takeWhile Char.isDigit
    !digits.isEmpty && (cs.drop digits.length).head? == some '}'
  | _ => false

/-- How many details the wording has a place for. -/
def holes (p : Problem) : Nat := p.template.toList.tails.countP startsHole

/-- The wording has a place for a detail. -/
def isDetailed : Problem → Bool
  | undefinedEscape | invalidCharacter | numberTooBig | tokenExpected | alreadyDeclared | notFound
  | notAField | noEntryMethod => true
  | _ => false

theorem holes_eq (p : Problem) : p.holes = p.isDetailed.toNat := by
  have hspelling : ∃ l, p.template = .ofList l ∧ l.tails.countP startsHole = p.isDetailed.toNat := by
    cases p <;> refine ⟨_, rfl, ?_⟩ <;> decide
  obtain ⟨l, htemplate, hcount⟩ := hspelling
  rw [holes, htemplate, String.toList_ofList, hcount]

/-- No brace opens in a wording but that of the place for the detail. -/
theorem exists_template_eq (p : Problem) : ∃ front back : List Char,
    p.template = .ofList (front ++ ((if p.isDetailed then hole 0 else []) ++ back)) ∧
      '{' ∉ front ∧ '{' ∉ back := by
  have hspelling : ∃ l : List Char, p.template = .ofList l ∧
      l = l.takeWhile (· != '{') ++ ((if p.isDetailed then hole 0 else []) ++
        (l.dropWhile (· != '{')).drop (hole 0).length) ∧
      '{' ∉ (l.dropWhile (· != '{')).drop (hole 0).length := by
    cases p <;> refine ⟨_, rfl, ?_⟩ <;> decide
  obtain ⟨l, htemplate, hl, hback⟩ := hspelling
  refine ⟨_, _, htemplate.trans (congrArg String.ofList hl), fun h => ?_, hback⟩
  simpa using List.mem_takeWhile_imp h

/-! ### Filling in -/

section Replacing

variable {o : Char} {pattern filler : List Char}

theorem replaceAll_append {front : List Char} (h : o ∉ front) (text : List Char) :
    replaceAll (o :: pattern) filler (front ++ text) =
      front ++ replaceAll (o :: pattern) filler text := by
  induction front with
  | nil => rfl
  | cons c front ih =>
    obtain ⟨hne, hfront⟩ := not_or.1 (mt List.mem_cons.2 h)
    have hno : (o :: pattern).isPrefixOf (c :: (front ++ text)) = false := by
      simp [List.isPrefixOf, hne]
    rw [List.cons_append, replaceAll, if_neg (by simp [hno]), ih hfront, List.cons_append]

/-- A text without the first character of the pattern is left as it is. -/
theorem replaceAll_of_not_mem {text : List Char} (h : o ∉ text) :
    replaceAll (o :: pattern) filler text = text := by
  have happend : replaceAll (o :: pattern) filler (text ++ []) =
      text ++ replaceAll (o :: pattern) filler [] := replaceAll_append h []
  rwa [replaceAll, List.append_nil] at happend

theorem replaceAll_self (text : List Char) :
    replaceAll (o :: pattern) filler (o :: pattern ++ text) =
      filler ++ replaceAll (o :: pattern) filler text := by
  have hyes : (o :: pattern).isPrefixOf (o :: (pattern ++ text)) = true := by
    simp [List.isPrefixOf_iff_prefix]
  rw [List.cons_append, replaceAll, if_pos hyes]
  simp

end Replacing

/-- The details are as many as the wording has places for. -/
def Takes (p : Problem) (details : List String) : Prop := details.length = p.isDetailed.toNat

variable {p : Problem} {details : List String}

theorem Takes.cases (h : p.Takes details) :
    p.isDetailed = false ∧ details = [] ∨ p.isDetailed ∧ ∃ detail, details = [detail] := by
  unfold Takes at h
  rcases hp : p.isDetailed with _ | _ <;> rw [hp] at h
  · exact .inl ⟨rfl, List.length_eq_zero_iff.1 h⟩
  · exact .inr ⟨rfl, List.length_eq_one_iff.1 h⟩

theorem message_nil (p : Problem) : p.message [] = p.template := String.ofList_toList

/-- The detail takes its place as it is. -/
theorem exists_message_eq (h : p.isDetailed) (detail : String) : ∃ before after : String,
    p.template = before ++ "\x7b0\x7d" ++ after ∧ p.message [detail] = before ++ detail ++ after := by
  obtain ⟨front, back, htemplate, hfront, hback⟩ := p.exists_template_eq
  rw [if_pos h] at htemplate
  have hfill : fill p.template.toList [detail] = front ++ (detail.toList ++ back) := by
    rw [htemplate, String.toList_ofList]
    show replaceAll (hole 0) detail.toList (front ++ (hole 0 ++ back)) = _
    rw [show hole 0 = ['{', '0', '}'] by decide, replaceAll_append hfront, replaceAll_self,
      replaceAll_of_not_mem hback]
  refine ⟨.ofList front, .ofList back, ?_, ?_⟩
  · rw [htemplate, String.ofList_append, String.ofList_append, String.append_assoc]
    rfl
  · rw [message, hfill, String.ofList_append, String.ofList_append, String.append_assoc,
      String.ofList_toList]

end Problem

/-! ### Lexemes -/

namespace Token.Lexeme

/-- The problems come with as many details as their wordings have places for. -/
def Worded (l : Lexeme) : Prop := ∀ d ∈ l.problems, d.1.Takes d.2

theorem worded_closeCharacter {c : Char} {more : Nat} {problems : List (Problem × List String)}
    (h : ∀ d ∈ problems, d.1.Takes d.2) (rest : List Char) :
    (closeCharacter c more problems rest).Worded := by
  unfold closeCharacter
  split
  · exact h
  · exact List.forall_mem_append.2 ⟨h, List.forall_mem_singleton.2 rfl⟩

theorem worded_characterConstant (cs : List Char) : (characterConstant cs).Worded := by
  unfold characterConstant
  split
  case h_6 =>
    split
    · exact worded_closeCharacter (List.forall_mem_nil _) _
    · exact worded_closeCharacter (by exact List.forall_mem_singleton.2 rfl) _
  case h_7 => exact worded_closeCharacter (List.forall_mem_nil _) _
  all_goals exact List.forall_mem_singleton.2 rfl

theorem worded_integer (c : Char) (cs : List Char) : (integer c cs).Worded := by
  unfold integer
  dsimp only
  split
  · exact nofun
  · exact List.forall_mem_singleton.2 rfl

theorem worded_sign (c : Char) (cs : List Char) : (sign c cs).Worded := by
  unfold sign
  split
  · exact nofun
  · exact List.forall_mem_singleton.2 rfl

theorem worded_read (c : Char) (cs : List Char) : (read c cs).Worded := by
  unfold read
  split_ifs
  · exact nofun
  · exact worded_integer c cs
  · exact worded_characterConstant cs
  · exact worded_sign c cs

end Token.Lexeme

end MicroJava
