import MicroJava.Proofs.Control
import MicroJava.Proofs.Grammar

/-!
# Structured control flow

What the statements of a program do, in which order, and how they end, as far as this depends on the
values that its comparisons find (`Statement.Executes`). Simple statements are performed as a whole. A
condition is evaluated from the left, and only as far as its value is not known yet; `&&` binds tighter
than `||`. Each evaluation of a condition takes new values, one pair for each of its comparisons. Where
none are left, the execution is cut in front of the condition, so that endless loops are seen through
all their beginnings. Every statement can be executed with all values (`Statement.executable`).
-/

namespace MicroJava.Tree

/-- What a program does that its control flow can tell. -/
inductive Act where
  | perform (x : Statement)
  | compare (t : Test) (x y : Int32)
  /-- The method is left, with the value of an expression if there is one. -/
  | leave (e : Option Expression)

/-- The values that the comparisons of a condition find, in their order from the left. -/
abbrev Values := Nat → Int32 × Int32

/-! ### Conditions -/

def Test.holds (t : Test) (v : Values) : Bool := t.comparison.holds (v 0).1 (v 0).2

def Test.acts (t : Test) (v : Values) : List Act := [.compare t (v 0).1 (v 0).2]

namespace Conjunction

/-- The number of comparisons. -/
def size : Conjunction → Nat
  | test _ => 1
  | and k _ => k.size + 1

/-- The values that are left behind the conjunction. -/
def behind (k : Conjunction) (v : Values) : Values := fun i => v (k.size + i)

def holds : Conjunction → Values → Bool
  | test t, v => t.holds v
  | and k t, v => k.holds v && t.holds (k.behind v)

def acts : Conjunction → Values → List Act
  | test t, v => t.acts v
  | and k t, v => k.acts v ++ if k.holds v then t.acts (k.behind v) else []

end Conjunction

namespace Condition

/-- The number of comparisons. -/
def size : Condition → Nat
  | conjunction k => k.size
  | or d k => d.size + k.size

/-- The values that are left behind the condition. -/
def behind (d : Condition) (v : Values) : Values := fun i => v (d.size + i)

def holds : Condition → Values → Bool
  | conjunction k, v => k.holds v
  | or d k, v => d.holds v || k.holds (d.behind v)

def acts : Condition → Values → List Act
  | conjunction k, v => k.acts v
  | or d k, v => d.acts v ++ if d.holds v then [] else k.acts (d.behind v)

end Condition

/-! ### Statements -/

/-- How an execution ends. -/
inductive Ending where
  /-- What stands behind the statement comes next. -/
  | done
  /-- The innermost loop around the statement is left. -/
  | broken
  /-- The method is left. -/
  | returned
  /-- There are no values for the condition that comes next. -/
  | cut
  deriving DecidableEq

namespace Statement

/-- The statement starts with a condition. -/
def IsGuarded : Statement → Prop
  | ifThen .. | ifElse .. | whileLoop .. => True
  | _ => False

/-- The statement does this for these values, one for each evaluation of a condition, and ends like
this. -/
inductive Executes : Statement → List Values → List Act → Ending → Prop where
  | simple {x : Statement} (hx : x.IsSimple) : Executes x [] [.perform x] .done
  | empty : Executes .empty [] [] .done
  | breakLoop : Executes .breakLoop [] [] .broken
  | returnNone : Executes .returnNone [] [.leave none] .returned
  | returnValue (e : Expression) : Executes (.returnValue e) [] [.leave (some e)] .returned
  | cut {x : Statement} (hx : x.IsGuarded) : Executes x [] [] .cut
  | ifTrue {b : Condition} {x : Statement} {v : Values} {vs : List Values} {as : List Act}
    {e : Ending} : b.holds v → Executes x vs as e →
      Executes (.ifThen b x) (v :: vs) (b.acts v ++ as) e
  | ifFalse {b : Condition} {x : Statement} {v : Values} : b.holds v = false →
      Executes (.ifThen b x) [v] (b.acts v) .done
  | thenBranch {b : Condition} {x y : Statement} {v : Values} {vs : List Values} {as : List Act}
    {e : Ending} : b.holds v → Executes x vs as e →
      Executes (.ifElse b x y) (v :: vs) (b.acts v ++ as) e
  | elseBranch {b : Condition} {x y : Statement} {v : Values} {vs : List Values} {as : List Act}
    {e : Ending} : b.holds v = false → Executes y vs as e →
      Executes (.ifElse b x y) (v :: vs) (b.acts v ++ as) e
  | whileFalse {b : Condition} {x : Statement} {v : Values} : b.holds v = false →
      Executes (.whileLoop b x) [v] (b.acts v) .done
  /-- Behind the statement, the condition is evaluated again. -/
  | whileNext {b : Condition} {x : Statement} {v : Values} {vs vs' : List Values}
    {as as' : List Act} {e : Ending} : b.holds v → Executes x vs as .done →
      Executes (.whileLoop b x) vs' as' e →
      Executes (.whileLoop b x) (v :: (vs ++ vs')) (b.acts v ++ (as ++ as')) e
  | whileBroken {b : Condition} {x : Statement} {v : Values} {vs : List Values} {as : List Act} :
      b.holds v → Executes x vs as .broken →
      Executes (.whileLoop b x) (v :: vs) (b.acts v ++ as) .done
  | whileStopped {b : Condition} {x : Statement} {v : Values} {vs : List Values} {as : List Act}
    {e : Ending} : b.holds v → Executes x vs as e → e = .returned ∨ e = .cut →
      Executes (.whileLoop b x) (v :: vs) (b.acts v ++ as) e
  | blockNil : Executes (.block .nil) [] [] .done
  | blockNext {x : Statement} {xs : Statements} {vs vs' : List Values} {as as' : List Act}
    {e : Ending} : Executes x vs as .done → Executes (.block xs) vs' as' e →
      Executes (.block (.cons x xs)) (vs ++ vs') (as ++ as') e
  | blockStopped {x : Statement} {xs : Statements} {vs : List Values} {as : List Act} {e : Ending} :
      Executes x vs as e → e ≠ .done → Executes (.block (.cons x xs)) vs as e

/-- The statement can be executed with the values: it ends before they do, or uses them up. -/
def Executable (x : Statement) (vs : List Values) : Prop :=
  ∃ used rest as e, vs = used ++ rest ∧ x.Executes used as e ∧ (e = .cut → rest = [])

namespace Executable

variable {b : Condition} {x y : Statement} {xs : Statements} {v : Values} {vs : List Values}

/-- An execution that takes no values. -/
theorem of_nil {as : List Act} {e : Ending} (h : x.Executes [] as e) (he : e ≠ .cut) :
    x.Executable vs :=
  ⟨[], vs, as, e, rfl, h, fun hcut => absurd hcut he⟩

theorem cut (h : x.IsGuarded) : x.Executable [] := ⟨[], [], [], .cut, rfl, .cut h, fun _ => rfl⟩

theorem ifThen (h : ∀ vs, x.Executable vs) : ∀ vs, (ifThen b x).Executable vs
  | [] => cut trivial
  | v :: vs => by
    by_cases hb : b.holds v = true
    · obtain ⟨used, rest, as, e, rfl, hx, hcut⟩ := h vs
      exact ⟨v :: used, rest, _, e, rfl, .ifTrue hb hx, hcut⟩
    · exact ⟨[v], vs, _, _, rfl, .ifFalse (by simpa using hb), by simp⟩

theorem ifElse (hx : ∀ vs, x.Executable vs) (hy : ∀ vs, y.Executable vs) :
    ∀ vs, (ifElse b x y).Executable vs
  | [] => cut trivial
  | v :: vs => by
    by_cases hb : b.holds v = true
    · obtain ⟨used, rest, as, e, rfl, h, hcut⟩ := hx vs
      exact ⟨v :: used, rest, _, e, rfl, .thenBranch hb h, hcut⟩
    · obtain ⟨used, rest, as, e, rfl, h, hcut⟩ := hy vs
      exact ⟨v :: used, rest, _, e, rfl, .elseBranch (by simpa using hb) h, hcut⟩

/-- Each turn of a loop takes values. -/
theorem whileLoop (h : ∀ vs, x.Executable vs) (vs : List Values) : (whileLoop b x).Executable vs := by
  induction hn : vs.length using Nat.strongRecOn generalizing vs with
  | _ n ih =>
    rcases vs with _ | ⟨v, vs⟩
    · exact cut trivial
    by_cases hb : b.holds v = true
    · obtain ⟨used, rest, as, e, rfl, hx, hcut⟩ := h vs
      cases e with
      | done =>
        have hlt : rest.length < n := by
          rw [← hn, List.length_cons, List.length_append]
          omega
        obtain ⟨used', rest', as', e', rfl, hloop, hcut'⟩ := ih _ hlt rest rfl
        exact ⟨v :: (used ++ used'), rest', _, e', by simp, .whileNext hb hx hloop, hcut'⟩
      | broken => exact ⟨v :: used, rest, _, _, rfl, .whileBroken hb hx, by simp⟩
      | returned => exact ⟨v :: used, rest, _, _, rfl, .whileStopped hb hx (.inl rfl), by simp⟩
      | cut => exact ⟨v :: used, rest, _, _, rfl, .whileStopped hb hx (.inr rfl), hcut⟩
    · exact ⟨[v], vs, _, _, rfl, .whileFalse (by simpa using hb), by simp⟩

theorem block_cons (hx : ∀ vs, x.Executable vs) (hxs : ∀ vs, (block xs).Executable vs)
    (vs : List Values) : (block (.cons x xs)).Executable vs := by
  obtain ⟨used, rest, as, e, rfl, h, hcut⟩ := hx vs
  by_cases he : e = .done
  · subst he
    obtain ⟨used', rest', as', e', rfl, h', hcut'⟩ := hxs rest
    exact ⟨used ++ used', rest', _, e', by simp, .blockNext h h', hcut'⟩
  · exact ⟨used, rest, as, e, rfl, .blockStopped h he, hcut⟩

end Executable

end Statement

mutual

/-- Every statement can be executed with all values. -/
theorem Statement.executable : ∀ (x : Statement) (vs : List Values), x.Executable vs
  | .assign .., _ | .call .., _ | .increment _, _ | .decrement _, _ | .read _, _ | .print _, _
  | .printWide .., _ => .of_nil (.simple trivial) (by simp)
  | .ifThen _ x, vs => .ifThen x.executable vs
  | .ifElse _ x y, vs => .ifElse x.executable y.executable vs
  | .whileLoop _ x, vs => .whileLoop x.executable vs
  | .breakLoop, _ => .of_nil .breakLoop (by simp)
  | .returnNone, _ => .of_nil .returnNone (by simp)
  | .returnValue e, _ => .of_nil (.returnValue e) (by simp)
  | .block xs, vs => xs.executable vs
  | .empty, _ => .of_nil .empty (by simp)

theorem Statements.executable : ∀ (xs : Statements) (vs : List Values),
    (Statement.block xs).Executable vs
  | .nil, _ => .of_nil .blockNil (by simp)
  | .cons x xs, vs => .block_cons x.executable xs.executable vs

end

end MicroJava.Tree
