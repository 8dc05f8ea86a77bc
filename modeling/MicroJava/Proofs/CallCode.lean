import MicroJava.Proofs.Crossing
import MicroJava.Proofs.Growth
import MicroJava.Proofs.Packing

/-!
# The code of calls

What a production that reads the terminals of a tree appends to a listing, as long as it reports no mistake
(`Lists`). The code for an argument is what the production of expressions appends in front of it, with what
loads its operand (`Loads`), so it may have calls in it, also of the method that is called.
-/

namespace MicroJava

open Production Tree

variable {α β : Type} {F : Frame} {t : SymbolTable} {m : Production α} {f : α → Production β}
  {xs ys : List Terminal} {H K : Token.Kind → Prop} {S S' : α → List Item → Prop}
  {T : β → List Item → Prop}

/-! ### What productions append to a listing -/

/-- The session belongs to the block, and has the names of the table. -/
structure Frame.Sees (F : Frame) (t : SymbolTable) (s : Session) : Prop where
  covers : F.Covers s
  widens : t.Widens s.table

theorem Move.widens {s s' : Session} {x y : Option Nat} (h : Move F s x s' y) :
    s.table.Widens s'.table := by
  cases h with
  | arrayOf type => exact .arrayOf _ type
  | _ => exact .refl _

theorem Steps.sees {s s' : Session} {x y : Option Nat} (h : Steps F s x s' y) (hs : F.Sees t s) :
    F.Sees t s' := by
  induction h with
  | refl => exact hs
  | snoc _ hm ih => exact ⟨hm.covers ih.covers, ih.widens.trans hm.widens⟩

/-- A run in a block stays in the block. -/
def Moves (F : Frame) (t : SymbolTable) (m : Production α) : Prop :=
  ∀ ⦃s a s'⦄, F.Sees t s → m.Runs F.setting s a s' → F.Sees t s' ∧ s.mistakes ≤ s'.mistakes

theorem Emits.moves {P : Option Nat → Prop} {Q : α → Option Nat → Prop} (h : Emits F P m Q)
    (hP : P none) : Moves F t m := by
  intro s a s' hs hrun
  obtain ⟨y, hsteps, -⟩ := h hs.covers hrun hP
  exact ⟨hsteps.sees hs, hsteps.mistakes.1⟩

theorem Moves.bind (hm : Moves F t m) (hf : ∀ a, Moves F t (f a)) : Moves F t (m >>= f) := by
  intro s b s' hs hrun
  obtain ⟨a, s₁, h₁, h₂⟩ := runs_bind.1 hrun
  obtain ⟨hs₁, hle⟩ := hm hs h₁
  obtain ⟨hs', hle'⟩ := hf a hs₁ h₂
  exact ⟨hs', Nat.le_trans hle hle'⟩

/-- A run without a mistake that starts in front of the terminals `xs`, where what follows is of a kind that
`H` allows, takes them and appends items that `T` allows. -/
structure Lists (F : Frame) (t : SymbolTable) (m : Production α) (xs : List Terminal)
    (H : Token.Kind → Prop) (T : α → List Item → Prop) : Prop where
  moves : Moves F t m
  lists : ∀ ⦃s a s' rest is⦄, F.Sees t s → m.Runs F.setting s a s' → s.ahead = xs ++ rest →
    H (nextKind rest) → s'.mistakes = s.mistakes → Lays s.assembly is →
      s'.ahead = rest ∧ ∃ js, T a js ∧ Lays s'.assembly (is ++ js)

namespace Lists

theorem post (h : Lists F t m xs H S) (hS : ∀ a js, S a js → S' a js) : Lists F t m xs H S' := by
  refine ⟨h.moves, fun s a s' rest is hc hrun hahead hrest hclean hlays => ?_⟩
  obtain ⟨hahead', js, hjs, hlays'⟩ := h.lists hc hrun hahead hrest hclean hlays
  exact ⟨hahead', js, hS a js hjs, hlays'⟩

theorem follow (h : Lists F t m xs K S) (hK : ∀ k, H k → K k) : Lists F t m xs H S :=
  ⟨h.moves, fun _ _ _ _ _ hc hrun hahead hrest => h.lists hc hrun hahead (hK _ hrest)⟩

theorem bind {T : α → β → List Item → Prop} (hm : Lists F t m xs K S)
    (hf : ∀ a, Lists F t (f a) ys H (T a)) (hK : ∀ rest, H (nextKind rest) → K (nextKind (ys ++ rest))) :
    Lists F t (m >>= f) (xs ++ ys) H fun b js => ∃ a js₁ js₂, js = js₁ ++ js₂ ∧ S a js₁ ∧ T a b js₂ := by
  refine ⟨hm.moves.bind fun a => (hf a).moves, ?_⟩
  intro s b s' rest is hc hrun hahead hrest hclean hlays
  obtain ⟨a, s₁, h₁, h₂⟩ := runs_bind.1 hrun
  obtain ⟨hc₁, hle⟩ := hm.moves hc h₁
  obtain ⟨-, hle'⟩ := (hf a).moves hc₁ h₂
  rw [List.append_assoc] at hahead
  obtain ⟨hahead₁, js₁, hS, hlays₁⟩ := hm.lists hc h₁ hahead (hK rest hrest) (by omega) hlays
  obtain ⟨hahead', js₂, hT, hlays'⟩ := (hf a).lists hc₁ h₂ hahead₁ hrest (by omega) hlays₁
  exact ⟨hahead', js₁ ++ js₂, ⟨a, js₁, js₂, rfl, hS, hT⟩, by rwa [← List.append_assoc]⟩

/-- An action in front of reading. -/
theorem act {T : α → β → List Item → Prop} (hm : Lists F t m [] (fun _ => True) S)
    (hf : ∀ a, Lists F t (f a) ys H (T a)) :
    Lists F t (m >>= f) ys H fun b js => ∃ a js₁ js₂, js = js₁ ++ js₂ ∧ S a js₁ ∧ T a b js₂ :=
  bind hm hf fun _ _ => trivial

theorem ret {a : α} : Lists F t (Pure.pure a) [] H fun b js => b = a ∧ js = [] where
  moves s b s' hc hrun := by
    obtain ⟨rfl, rfl⟩ := runs_pure.1 hrun
    exact ⟨hc, Nat.le_refl _⟩
  lists s b s' rest is hc hrun hahead _ _ hlays := by
    obtain ⟨rfl, rfl⟩ := runs_pure.1 hrun
    exact ⟨hahead, [], ⟨rfl, rfl⟩, by rwa [List.append_nil]⟩

/-- A mistake is reported. -/
theorem report {p : Problem} {details : List String} {T : Unit → List Item → Prop} :
    Lists F t (Production.report p details) [] H T := by
  refine ⟨(Emits.report (P := fun _ => True) (n := 0) (q := True)).moves trivial,
    fun s u s' rest is hc hrun hahead hrest hclean hlays => ?_⟩
  rw [runs_report.1 hrun, Session.mistakes_report] at hclean
  omega

theorem reportIf {mistake : Prop} [Decidable mistake] {p : Problem} {details : List String} :
    Lists F t (Production.reportIf mistake p details) [] H fun _ js => ¬mistake ∧ js = [] := by
  unfold Production.reportIf
  split
  · exact report
  · next h => exact ret.post fun _ js hjs => ⟨h, hjs.2⟩

theorem checkCount {n count : Nat} {tooFew tooMany : Problem} :
    Lists F t (Production.checkCount (some n) count tooFew tooMany) [] H
      fun _ js => count = n ∧ js = [] := by
  simp only [Production.checkCount]
  split_ifs with hlt hgt
  · exact report
  · exact report
  · exact ret.post fun _ js hjs => ⟨by omega, hjs.2⟩

/-! #### Terminals -/

/-- A step that takes a terminal. -/
theorem take {x : Terminal} {v : α} {g : α → Production β} (hmoves : Moves F t (m >>= g)) (hm : Moves F t m)
    (hx : ∀ s a s', m.Runs F.setting s a s' → s.current.terminal = x → a = v ∧ s' = s.advance)
    (hg : Lists F t (g v) ys H T) : Lists F t (m >>= g) (x :: ys) H T := by
  refine ⟨hmoves, fun s b s' rest is hc hrun hahead hrest hclean hlays => ?_⟩
  obtain ⟨a, s₁, h₁, h₂⟩ := runs_bind.1 hrun
  obtain ⟨hc₁, -⟩ := hm hc h₁
  rw [List.cons_append] at hahead
  obtain ⟨rfl, rfl⟩ := hx s a s₁ h₁ (Session.current_of_ahead hahead).1
  exact hg.lists hc₁ h₂ (Takes.advance hc.covers.named hahead).ahead hrest (by simpa using hclean) hlays

theorem advance {x : Terminal} {g : Unit → Production β} (hg : Lists F t (g ()) ys H T) :
    Lists F t (Production.advance >>= g) (x :: ys) H T :=
  have hadvance : Moves F t Production.advance := (Emits.advance (P := fun _ => True)).moves trivial
  take (hadvance.bind fun _ => hg.moves) hadvance World.Checks.runs_advance_terminal hg

theorem expect {k : Token.Kind} {g : Unit → Production β} (hg : Lists F t (g ()) ys H T) :
    Lists F t (Production.expect k >>= g) (.word k :: ys) H T :=
  have hexpect : Moves F t (Production.expect k) := (Emits.expect (n := 0) (q := True)).moves holds_none
  take (hexpect.bind fun _ => hg.moves) hexpect World.Checks.runs_expect_terminal hg

theorem check {k : Token.Kind} {b : Bool} {g : Bool → Production β}
    (hmoves : Moves F t (Production.check k >>= g))
    (hk : ∀ rest, H (nextKind rest) → decide (nextKind (ys ++ rest) = k) = b)
    (hg : Lists F t (g b) ys H T) : Lists F t (Production.check k >>= g) ys H T := by
  refine ⟨hmoves, fun s r s' rest is hc hrun hahead hrest hclean hlays => ?_⟩
  obtain ⟨_, s, h₁, h₂⟩ := runs_bind.1 hrun
  obtain ⟨rfl, rfl⟩ := runs_check.1 h₁
  rw [Session.kind_eq, hahead, hk rest hrest] at h₂
  exact hg.lists hc h₂ hahead hrest hclean hlays

theorem checkAny {ks : Token.KindSet} {b : Bool} {g : Bool → Production β}
    (hmoves : Moves F t (Production.checkAny ks >>= g))
    (hk : ∀ rest, H (nextKind rest) → ks.contains (nextKind (ys ++ rest)) = b)
    (hg : Lists F t (g b) ys H T) : Lists F t (Production.checkAny ks >>= g) ys H T := by
  refine ⟨hmoves, fun s r s' rest is hc hrun hahead hrest hclean hlays => ?_⟩
  obtain ⟨_, s, h₁, h₂⟩ := runs_bind.1 hrun
  obtain ⟨rfl, rfl⟩ := runs_checkAny.1 h₁
  rw [Session.kind_eq, hahead, hk rest hrest] at h₂
  exact hg.lists hc h₂ hahead hrest hclean hlays

/-! #### Instructions -/

/-- An item is written. -/
theorem write {e : Emission Fault Unit} {js : List Item} (hmoves : Moves F t (Production.write e))
    (he : ∀ a a' is, e.Succeeds a () a' → Lays a is → Lays a' (is ++ js)) :
    Lists F t (Production.write e) [] H fun _ js' => js' = js := by
  refine ⟨hmoves, fun s u s' rest is hc hrun hahead _ _ hlays => ?_⟩
  obtain ⟨assembly, hs, rfl⟩ := runs_write.1 hrun
  exact ⟨hahead, js, rfl, he _ _ _ hs hlays⟩

theorem emit {op : Opcode} {operands : List Int} (hwf : (Item.plain op operands).WellFormed)
    (hmoves : Moves F t (Production.emit op operands)) :
    Lists F t (Production.emit op operands) [] H fun _ js => js = [.plain op operands] :=
  write hmoves fun a a' is hs hlays => by
    rw [Emission.succeeds_emit.1 hs]
    exact hlays.emit hwf

theorem constant {v : Int32} :
    Lists F t (Production.write (Emission.constant v)) [] H fun _ js => js = [.constant v] := by
  refine write ((Emits.write (Lines.constant (n := 0) (q := True) v)).moves holds_none)
    fun a a' is hs hlays => ?_
  have hfits : Order.Fits (Emission.constantCode v) :=
    (Computes.constant v).fits (by simp) _ (List.mem_singleton_self _)
  rw [Emission.succeeds_emit.1 hs]
  exact hlays.emit ⟨hfits.relative, hfits.operands.length_eq.symm⟩

theorem newArray {n : Int32} {type : TypeId} :
    Lists F t (Production.write (Emission.newArray (some n) type)) [] H
      fun _ js => js = [.constant n, .plain .newArray [if type = .char then 0 else 1]] := by
  refine write ((Emits.write (Lines.newArray (n := 0) (q := True) (some n) type)).moves holds_none)
    fun a a' is hs hlays => ?_
  simp only [Emission.newArray, Emission.constant?, Emission.succeeds_bind] at hs
  obtain ⟨_, a₁, h₁, h₂⟩ := hs
  have hfits : Order.Fits (Emission.constantCode n) :=
    (Computes.constant n).fits (by simp) _ (List.mem_singleton_self _)
  have hlays₁ : Lays a₁ (is ++ [.constant n]) := by
    rw [Emission.succeeds_emit.1 h₁]
    exact hlays.emit ⟨hfits.relative, hfits.operands.length_eq.symm⟩
  rw [Emission.succeeds_emit.1 h₂, show [Item.constant n, .plain .newArray [if type = .char then 0 else 1]] =
    [.constant n] ++ [.plain .newArray [if type = .char then 0 else 1]] from rfl, ← List.append_assoc]
  exact hlays₁.emit ⟨rfl, rfl⟩

theorem storeElement {type : TypeId} :
    Lists F t (Production.write (Emission.storeElement type)) [] H
      fun _ js => js = [.plain (if type = .char then .charStore else .arrayStore) []] := by
  refine write ((Emits.write (Lines.storeElement (n := 0) (q := True) type)).moves holds_none)
    fun a a' is hs hlays => ?_
  rw [Emission.succeeds_emit.1 hs]
  unfold Emission.elementStore
  split <;> exact hlays.emit ⟨rfl, rfl⟩

theorem callTo {target : Nat} (hmoves : Moves F t (Production.write (Emission.call target))) :
    Lists F t (Production.write (Emission.call target)) [] H fun _ js => js = [.call target] :=
  write hmoves fun _ _ _ hs hlays => (hlays.call hs).1

end Lists

/-! ### Arguments -/

/-- What a production of expressions does in a block: it leaves the value of its operand, and takes the
terminals of an expression, as far as it makes no mistake. -/
structure ReadsExpressions (F : Frame) (E : Production Operand) : Prop where
  leaves : Emits.Leaves F E
  takes : ∀ (e : Expression) ⦃s x s' rest⦄, E.Runs F.setting s x s' → s.Named →
    s.ahead = e.yield ++ rest → (nextKind rest).EndsExpression → Takes rest s s'
  spells : ∀ p, Reading F.setting p E fun _ => Spells Expression.yield

theorem ReadsExpressions.nested (depth : Nat) : ReadsExpressions F (nestedExpression depth) where
  leaves := .nestedExpression depth
  takes e _ _ _ _ hrun hn hahead hends := (World.nested .initial F.setting e
    (fun depth => World.sumLeads .initial F.setting depth e) depth hrun hn hahead hends).2.reaches.toTakes
  spells := reading_nestedExpression depth

theorem ReadsExpressions.unnested : ReadsExpressions F Production.expression where
  leaves := .expression
  takes e _ _ _ _ hrun hn hahead hends :=
    (World.Checks.expression (w := .initial) (A := True) e hrun hn hahead hends).2.reaches.toTakes
  spells := reading_expression

/-- Where the expression is read in the block, without a mistake, the items are appended for it and for what
loads its operand. -/
def Tree.Expression.Loads (F : Frame) (t : SymbolTable) (E : Production Operand) (e : Expression)
    (js : List Item) : Prop :=
  ∃ (s s₁ s' : Session) (x : Operand) (rest : List Terminal) (is : List Item),
    F.Sees t s ∧ s.ahead = e.yield ++ rest ∧ (nextKind rest).EndsExpression ∧
      E.Runs F.setting s x s₁ ∧ (Production.load x).Runs F.setting s₁ () s' ∧
        s'.mistakes = s.mistakes ∧ Lays s.assembly is ∧ Lays s'.assembly (is ++ js)

section

variable {c : Setting} {s s' : Session} {x : Operand} {u : Unit}

/-- Where no mistake is reported, there was none. -/
theorem runs_reportIf_clean {mistake : Prop} [Decidable mistake] {p : Problem} {details : List String}
    (h : (Production.reportIf mistake p details).Runs c s u s') (hclean : s'.mistakes = s.mistakes) :
    ¬mistake ∧ s' = s := by
  obtain rfl := runs_reportIf.1 h
  unfold Session.reportIf at hclean ⊢
  split_ifs at hclean ⊢ with hm
  · simp at hclean
  · exact ⟨hm, rfl⟩

theorem runs_fits {type : TypeId} {b : Bool} (h : (fits x type).Runs c s b s') : s' = s := by
  simp only [fits, runs_bind, runs_discard, runs_descriptor, runs_table, runs_pure] at h
  obtain ⟨_, _, ⟨_, -, rfl⟩, _, _, ⟨_, -, rfl⟩, _, _, ⟨rfl, rfl⟩, -, rfl⟩ := h
  rfl

/-- An argument that fits is only looked at. -/
theorem runs_checkArgument : ∀ {type : Option TypeId}, (checkArgument x type).Runs c s u s' →
    s'.mistakes = s.mistakes → s' = s
  | none, h, _ => (runs_pure.1 h).2
  | some type, h, hclean => by
    obtain ⟨b, s₁, h₁, h₂⟩ := runs_bind.1 h
    obtain rfl := runs_fits h₁
    exact (runs_reportIf_clean h₂ hclean).2

end

namespace Lists

variable {E : Production Operand} {e : Expression}

/-- An argument that fits what it is for is loaded. -/
theorem loadArgument (hE : ReadsExpressions F E) (type : Option TypeId) :
    Lists F t (do let x ← E; checkArgument x type; Production.load x) e.yield (·.EndsExpression)
      fun _ js => e.Loads F t E js := by
  have hrest : ∀ x, Emits F (Holds (0 + x.depth) True) (do checkArgument x type; Production.load x)
      fun _ => Holds 1 True := fun x => .bind (.checkArgument x type) fun _ => .load x
  have hemits : Emits F (Holds 0 True) (do let x ← E; checkArgument x type; Production.load x)
      fun _ => Holds 1 True := .bind (hE.leaves 0 True) hrest
  refine ⟨hemits.moves holds_none, fun s u s' rest is hc hrun hahead hends hclean hlays => ?_⟩
  obtain ⟨_, hsteps, -⟩ := hemits hc.covers hrun holds_none
  obtain ⟨js, hlays', -⟩ := hsteps.grows hlays
  obtain ⟨x, s₁, h₁, h₂⟩ := runs_bind.1 hrun
  obtain ⟨_, s₂, h₂, h₃⟩ := runs_bind.1 h₂
  have htakes : Takes rest s s₁ := hE.takes e h₁ hc.covers.named hahead hends
  have hcheck : s₁.mistakes ≤ s₂.mistakes := (acts_checkArgument type h₂).still.mistakes
  have hload : Still F.setting s₂ s' := (acts_load h₃).still
  have hle := htakes.mistakes
  have hle' := hload.mistakes
  obtain rfl := runs_checkArgument h₂ (by omega)
  exact ⟨hload.ahead.trans htakes.ahead, js,
    ⟨s, s₂, s', x, rest, is, hc, hahead, hends, h₁, h₃, hclean, hlays, hlays'⟩, hlays'⟩

end Lists

end MicroJava
