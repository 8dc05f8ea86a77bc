import MicroJava.Proofs.CheckingDesignator

/-!
# Checking calls

The arguments of a call are counted and checked against the signature of what is called, as far as it is
declared (`World.Announces`), and so are variable arguments (`World.Checks.call_plain`,
`World.Checks.call_extended`).
-/

namespace MicroJava.World

open Static Tree

variable {w : World} {τ : Ty} {t : TypeId}

/-! ### Calls -/

/-- What the arguments of a call are checked against is what the signature says. -/
structure Announces (w : World) (s : Production.Signature) (σ : Static.Signature) : Prop where
  fixed : s.fixed = σ.fixed.length
  leading : List.Forall₂ (fun t τ => w.HasType τ t) (s.parameters.take s.fixed) σ.fixed
  extra : Option.Rel (fun t τ => w.HasType τ t) s.extra σ.extra

theorem rel_getElem? {α β : Type} {R : α → β → Prop} {as : List α} {bs : List β}
    (h : List.Forall₂ R as bs) (i : Nat) : Option.Rel R as[i]? bs[i]? := by
  induction h generalizing i with
  | nil => exact .none
  | cons hab _ ih =>
    cases i with
    | zero => exact .some hab
    | succ i => simpa using ih i

/-- What is called is the method that the value is, if it is one. -/
def Targets (w : World) : Option (EntryId × Method) → Value → Prop
  | some (_, m), v => ∃ σ, v = .method σ ∧ w.table.HasSignature w.classes m σ
  | none, v => ∀ σ, v ≠ .method σ

theorem Announces.parameter? {s : Production.Signature} {σ : Static.Signature}
    (h : w.Announces s σ) (i : Nat) :
    Option.Rel (fun t τ => w.HasType τ t) (s.parameter? i) σ.fixed[i]? := by
  have heq : s.parameter? i = (s.parameters.take s.fixed)[i]? := by
    simp only [Production.Signature.parameter?, List.getElem?_take]
  rw [heq]
  exact rel_getElem? h.leading i

namespace Checks

open Production

variable {c : Setting} {A : Prop} {F : Token.Kind → Prop} {v : Value} {x y : Operand}
  {E : Production Operand} {xs : List Terminal} {target : Option (EntryId × Method)}
  {σ : Static.Signature} {s : Session} {sig : Production.Signature}

/-- The types of entries are read from the table. -/
theorem hasTypes_of_runs {ids : List EntryId} {τs : List Ty} {ts : List TypeId} {s s' : Session}
    (hs : s.table.Widens w.table)
    (h : List.Forall₂ (fun id τ => ∃ e, w.table.entryAt? id = some e ∧ w.HasType τ e.type) ids τs)
    (hrun : Runs c (ids.mapM fun id => return (← Production.entry id).type) s ts s') :
    s' = s ∧ List.Forall₂ (fun t τ => w.HasType τ t) ts τs := by
  induction h generalizing ts s' with
  | nil =>
    rw [List.mapM_nil] at hrun
    obtain ⟨rfl, rfl⟩ := runs_pure.1 hrun
    exact ⟨rfl, .nil⟩
  | cons hid _ ih =>
    rw [List.mapM_cons] at hrun
    simp only [runs_bind, runs_entry] at hrun
    obtain ⟨t, _, ⟨e, _, ⟨he, rfl⟩, ht⟩, ts, _, hts, hret⟩ := hrun
    obtain ⟨rfl, rfl⟩ := runs_pure.1 ht
    obtain ⟨rfl, hrel⟩ := ih hts
    obtain ⟨rfl, rfl⟩ := runs_pure.1 hret
    obtain ⟨e', he', hτ⟩ := hid
    obtain rfl := Option.some.inj (((hs.below (ρ := w.classes)).entries _ _ he).symm.trans he')
    exact ⟨rfl, .cons hτ hrel⟩

/-- The type of the variable arguments is that of the elements of the last parameter. -/
theorem extra_of_runs {m : Method} {ts : List TypeId} {extra : Option TypeId} {s s' : Session}
    (hs : s.table.Widens w.table) (hm : w.table.HasSignature w.classes m σ)
    (h : List.Forall₂ (fun t τ => w.HasType τ t) ts σ.parameters)
    (hrun : Runs c (extraType m.variadic ts.getLast?) s extra s') :
    s' = s ∧ Option.Rel (fun t τ => w.HasType τ t) extra σ.extra := by
  rcases hextra : σ.extra with _ | τ
  · have hvariadic : m.variadic = false := by rw [hm.variadic, hextra]; rfl
    rw [hvariadic] at hrun
    obtain ⟨rfl, rfl⟩ := runs_pure.1 hrun
    exact ⟨rfl, .none⟩
  · have hvariadic : m.variadic = true := by rw [hm.variadic, hextra]; rfl
    have hlast : Option.Rel (fun t τ => w.HasType τ t) ts.getLast? σ.parameters.getLast? := by
      rw [List.getLast?_eq_getElem?, List.getLast?_eq_getElem?, h.length_eq]
      exact rel_getElem? h _
    have hparameters : σ.parameters.getLast? = some (.array τ) := by
      simp [Static.Signature.parameters, hextra]
    rw [hparameters] at hlast
    generalize ts.getLast? = last at hlast hrun
    obtain ⟨ht⟩ := hlast
    rename_i t
    obtain ⟨e, he, -, hτ⟩ := ht
    rw [hvariadic] at hrun
    simp only [extraType, runs_map, runs_descriptor] at hrun
    obtain ⟨_, ⟨d, ⟨hd, rfl⟩, rfl⟩, rfl⟩ := hrun
    obtain rfl := Option.some.inj ((hs.descriptor? hd).symm.trans he)
    exact ⟨rfl, .some hτ⟩

/-- The types of the parameters, and that of the variable arguments. -/
theorem targetSignature
    (ht : A → ∃ id m, target = some (id, m) ∧ w.table.HasSignature w.classes m σ) :
    w.Checks A (Runs c (Production.targetSignature target)) [] F (fun _ => True)
      (fun _ : Unit => True) fun sig _ => w.Announces sig σ := by
  refine of_acts (acts_targetSignature target) fun s sig s' hrun => ⟨trivial, fun hA hw => ?_⟩
  obtain ⟨id, m, rfl, hm⟩ := ht hA
  have hs := (acts_targetSignature _ hrun).table.trans hw.widens
  simp only [Production.targetSignature, signature, runs_bind] at hrun
  obtain ⟨ts, s₁, hts, extra, s₂, hextra, hret⟩ := hrun
  obtain ⟨rfl, htypes⟩ := hasTypes_of_runs hs hm.leading hts
  obtain ⟨rfl, hrel⟩ := extra_of_runs hs hm htypes hextra
  obtain ⟨rfl, rfl⟩ := runs_pure.1 hret
  have hfixed : m.fixed = σ.fixed.length := by
    rw [Method.fixed, hm.count, hm.variadic, Static.Signature.parameters]
    rcases σ.extra with _ | τ <;> simp
  refine ⟨fun _ => ⟨(), trivial⟩, fun _ _ => ⟨rfl, hfixed, ?_, hrel⟩⟩
  have hleading := List.forall₂_take m.fixed htypes
  rw [Static.Signature.parameters] at hleading
  rwa [hfixed, List.take_left, ← hfixed] at hleading

/-- A method is called, and any other value is reported. -/
theorem callee (hx : A → w.Is x v) :
    w.Checks A (Runs c (Production.callee x)) [] F (fun _ => True) (fun _ : Unit => True)
      fun target _ => w.Targets target v := by
  rw [Production.callee]
  split
  · next id hplace =>
    refine entry fun e => ret trivial (fun _ => ⟨(), trivial⟩) fun hA _ _ => ?_
    have hv := hx hA.1
    cases v with
    | method σ =>
      obtain ⟨id', e', m, hplace', he, hm, -, hσ⟩ := hv
      obtain rfl := Place.method.inj (hplace.symm.trans hplace')
      obtain rfl := Option.some.inj (hA.2.symm.trans he)
      simp only [Entry.method?, hm, Option.map_some]
      exact ⟨σ, rfl, hσ⟩
    | «variable» τ => simp [World.Is, SymbolTable.Denotes, Operand.isVariable, hplace] at hv
    | _ => simp [World.Is, SymbolTable.Denotes, hplace] at hv
  · next hplace =>
    refine ret trivial (fun _ => ⟨(), trivial⟩) fun hA _ _ σ => ?_
    rintro rfl
    obtain ⟨id, _, _, hmethod, -⟩ := hx hA
    exact hplace id hmethod

theorem notAMethod (ht : A → w.Targets target v) :
    w.Checks A (Runs c (Production.reportIf target.isNone .notAMethod)) [] F (fun _ => True)
      (fun σ => v = .method σ)
      fun _ σ => ∃ id m, target = some (id, m) ∧ w.table.HasSignature w.classes m σ := by
  refine (reportIf rfl).post (fun hA _ hsome => ?_) fun hA σ hσ => ?_
  · rcases target with _ | ⟨id, m⟩
    · simp at hsome
    · obtain ⟨σ, hσ, -⟩ := ht hA
      exact ⟨σ, hσ⟩
  · rcases target with _ | ⟨id, m⟩
    · exact absurd hσ (ht hA σ)
    · obtain ⟨σ', hσ', hm⟩ := ht hA
      obtain rfl := Value.method.inj (hσ.symm.trans hσ')
      exact ⟨(), by simp, fun _ _ => ⟨id, m, rfl, hm⟩⟩

/-! ### Lists of arguments -/

theorem afterMember_comma {n : Nat} :
    w.Checks A (Runs c (afterMember n)) [.word .comma] F (· = .inl n) (fun _ : Unit => True)
      fun r _ => r = .inl n := by
  rw [afterMember]
  exact check (fun _ _ => rfl) (advance (ret rfl (fun _ => ⟨(), trivial⟩) fun _ _ _ => rfl))

theorem afterMember_last {n : Nat} :
    w.Checks A (Runs c (afterMember n)) [] (·.EndsMember) (· = .inr n) (fun _ : Unit => True)
      fun r _ => r = .inr n := by
  rw [afterMember]
  exact check_ne (fun _ hrest => hrest.2) (ret rfl (fun _ => ⟨(), trivial⟩) fun _ _ _ => rfl)

section Members

variable {member : Nat → Production (Nat ⊕ Nat)} {M : Nat → Production Unit}
  {R : Nat → Expression → Prop}

/-- The members of a list are read one after the other, and counted. -/
theorem memberTurns (hmember : ∀ n, member n = do M n; afterMember (n + 1)) :
    ∀ (es : Expressions) (e : Expression) (n : Nat), (Expressions.cons e es).Each
      (fun n e => w.Ensures c A (M n) e.yield (·.EndsExpression) (R n e)) n →
      w.Checks A (Turns c member n) (Expressions.cons e es).yield (·.EndsMember)
        (· = n + (Expressions.cons e es).length)
        (fun _ : Unit => (Expressions.cons e es).Each R n) fun _ _ => True
  | .nil, e, n, ⟨he, _⟩ => by
    refine turns_last ?_
    rw [hmember, Expressions.yield, Expressions.more]
    exact (he.ensure (fun _ _ => afterMember_last.conseq (T := fun r _ => r = .inr (n + 1))
      (fun _ u hu => ⟨u, hu⟩) (fun _ u hu => ⟨u, hu, fun _ => id⟩) id (fun _ => id)
      fun r hr => ⟨n + 1, hr, rfl⟩) fun _ hrest => hrest.1).post
        (fun _ u hu => ⟨u, hu.1, trivial⟩) fun _ u hu => ⟨u, ⟨hu.1, trivial⟩, fun r hr =>
          ⟨n + 1, hr, trivial⟩⟩
  | .cons e' es, e, n, ⟨he, hes⟩ => by
    have hyield : (Expressions.cons e (.cons e' es)).yield =
        (e.yield ++ [.word .comma]) ++ (Expressions.cons e' es).yield := by
      simp [Expressions.yield, Expressions.more]
    have hlength : n + (Expressions.cons e (.cons e' es)).length =
        n + 1 + (Expressions.cons e' es).length := by
      simp only [Expressions.length]
      omega
    rw [hyield, hlength]
    refine Checks.iff (J := fun _ : Unit => ∃ _ : Unit, R n e ∧ (Expressions.cons e' es).Each R (n + 1))
      (turns_next (H := fun _ => True) (R := (· = n + 1)) (S := fun _ _ => True) (I := fun _ => R n e)
        (K := fun _ _ => (Expressions.cons e' es).Each R (n + 1)) ?_ ?_ ?_)
      fun _ _ => by simp [Expressions.Each]
    · rw [hmember]
      exact (he.ensure (fun _ _ => afterMember_comma) fun _ _ =>
        (by decide : Token.Kind.comma.EndsExpression)).conseq (fun _ u hu => ⟨u, hu.1⟩)
          (fun _ u hu => ⟨u, ⟨hu, trivial⟩, fun r hr => ⟨n + 1, hr, trivial⟩⟩) id (fun _ => id)
          fun r hr => ⟨n + 1, hr, rfl⟩
    · rintro _ _ rfl
      exact (memberTurns hmember es e' (n + 1) hes).weaken And.left
    · exact fun _ _ => trivial

theorem members (hmember : ∀ n, member n = do M n; afterMember (n + 1)) {es : Expressions}
    (h : es.Each (fun n e => w.Ensures c A (M n) e.yield (·.EndsExpression) (R n e)) 0) :
    w.Checks A (Runs c (Production.members member)) es.yield (·.EndsList) (· = es.length)
      (fun _ : Unit => es.Each R 0) fun _ _ => True := by
  rw [Production.members]
  cases es with
  | nil =>
    refine checkAny (b := false) (fun rest hrest => ?_)
      (ret rfl (fun _ => ⟨(), trivial⟩) fun _ _ _ => trivial)
    rcases hrest with hk | hk <;> simp [Expressions.yield, hk, expressionStarts]
  | cons e es =>
    have hturns := (memberTurns hmember es e 0 h).follow fun _ => Token.Kind.EndsList.endsMember
    rw [Nat.zero_add] at hturns
    refine checkAny (b := true) (fun rest _ => ?_) (loop hturns)
    rw [Expressions.yield, List.append_assoc]
    exact e.nextKind_yield _

end Members

/-- An argument is loaded, and fits its parameter. -/
theorem loadArgument {t? : Option TypeId} (τ? : Option Ty) (hx : A → w.Is x v)
    (ht : A → Option.Rel (fun t τ => w.HasType τ t) t? τ?) :
    w.Ensures c A (do checkArgument x t?; Production.load x) [] F (v.Suits τ?) := by
  by_cases hA : A
  swap
  · exact idle (.bind (acts_checkArgument t?) fun _ => acts_load) hA
  have hload {A} : w.Ensures c (A ∧ w.Is x v) (Production.load x) [] F (∃ σ, v.type? = some σ) :=
    (load And.right).post (fun _ σ hσ => ⟨(), σ, hσ⟩) fun _ _ ⟨σ, hσ⟩ => ⟨σ, hσ, fun _ _ => trivial⟩
  cases ht hA with
  | none =>
    exact skip (.pure ()) (fun s u s' hrun => by rw [(runs_pure.1 hrun).2]) fun _ =>
      hload.weaken fun hA => ⟨hA, hx hA⟩
  | @some t τ hτ =>
    rcases hv : v.type? with _ | σ
    · -- a method is reported when it is loaded
      have hfalse : ¬v.Fits τ := fun h => by
        obtain ⟨σ, hσ⟩ := h.exists_type
        simp [hv] at hσ
      refine Checks.iff (J := fun _ : Unit => False) ?_ fun _ _ => ⟨False.elim, hfalse⟩
      refine refute (acts_checkArgument _) fun _ => ?_
      exact (hload.weaken fun hA => ⟨hA, hx hA⟩).iff fun _ _ => by simp [hv]
    · refine Checks.iff (J := fun _ : Unit => v.Fits τ ∧ ∃ σ, v.type? = some σ) ?_
        fun _ _ => by simp [hv, Value.Suits]
      refine ensureHere (R := fun _ => True) (S := fun _ _ => True) (fits hx (fun _ => hτ) fun b => ?_) fun _ _ =>
        hload.weaken fun hA => ⟨hA, hx hA.1⟩
      refine (reportIf rfl).iff fun hA _ => ?_
      rw [← hA.2 σ hv]
      simp

theorem expressionsFit_iff (Γ : Context) : ∀ (es : Expressions) (τs : List Ty) (n : Nat)
    (τ? : Nat → Option Ty), (∀ i < τs.length, τ? (n + i) = τs[i]?) →
      (ExpressionsFit Γ τs es ↔
        es.Each (fun n e => ∃ v, ExpressionIs Γ e v ∧ v.Suits (τ? n)) n ∧ τs.length = es.length)
  | .nil, [], _, _, _ => by simp [Expressions.Each, Expressions.length, ExpressionsFit.nil]
  | .nil, τ :: τs, _, _, _ => ⟨nofun, fun h => by simp [Expressions.length] at h⟩
  | .cons e es, [], _, _, _ => ⟨nofun, fun h => by simp [Expressions.length] at h⟩
  | .cons e es, τ :: τs, n, τ?, hτ => by
    have ih := expressionsFit_iff Γ es τs (n + 1) τ? fun i hi => by
      rw [Nat.add_right_comm, Nat.add_assoc, hτ (i + 1) (Nat.succ_lt_succ hi),
        List.getElem?_cons_succ]
    have hhead : τ? n = some τ := hτ 0 (Nat.succ_pos _)
    simp only [Expressions.Each, Expressions.length, List.length_cons, Nat.add_right_cancel_iff,
      hhead, Value.Suits]
    constructor
    · rintro (_ | ⟨he, hv, hes⟩)
      exact ⟨⟨⟨_, he, hv⟩, (ih.1 hes).1⟩, (ih.1 hes).2⟩
    · rintro ⟨⟨⟨v, he, hv⟩, hes⟩, hlength⟩
      exact .cons he hv (ih.2 ⟨hes, hlength⟩)

theorem argument_eq (sig : Production.Signature) (n : Nat) :
    argument E sig n = (do
      (do let x ← E; checkArgument x (sig.parameter? n); Production.load x)
      afterMember (n + 1)) := by
  simp only [argument, bind_assoc]

theorem argument {e : Expression} {n : Nat}
    (hE : w.Gives c True E e.yield (·.EndsExpression) (ExpressionIs w.context e))
    (hsig : A → w.Announces sig σ) :
    w.Ensures c A (do let x ← E; checkArgument x (sig.parameter? n); Production.load x) e.yield
      (·.EndsExpression) (∃ v, ExpressionIs w.context e v ∧ v.Suits σ.fixed[n]?) := by
  refine Checks.iff (J := fun _ : Unit => ∃ v, ExpressionIs w.context e v ∧ v.Suits σ.fixed[n]?) ?_
    fun _ _ => Iff.rfl
  rw [← List.append_nil e.yield]
  refine hE.anywhere.bind (fun x v _ => ?_) fun _ hrest => hrest
  exact loadArgument _ (fun hA => hA.2.2) fun hA => (hsig hA.1).parameter? n

/-- A variable argument is stored in the array. -/
theorem packArgument {e : Expression} {n : Nat} {element : Option TypeId}
    (hE : w.Gives c True E e.yield (·.EndsExpression) (ExpressionIs w.context e))
    (hτ : A → ∃ t, element = some t ∧ w.HasType τ t) :
    w.Ensures c A (Production.packArgument E n element) e.yield (·.EndsExpression)
      (∃ v, ExpressionIs w.context e v ∧ v.Suits (some τ)) := by
  cases element with
  | none =>
    have hA : ¬A := fun hA => by simpa using hτ hA
    exact hE.discarded.conseq (fun h => absurd h hA) (fun h => absurd h hA) (fun _ => trivial)
      (fun _ => id) fun _ => id
  | some t =>
    rw [Production.packArgument]
    refine emit (write fun _ => Checks.iff (J := fun _ : Unit => ∃ v, ExpressionIs w.context e v ∧
      v.Suits (some τ) ∧ True) ?_ fun _ _ => by simp)
    rw [← List.append_nil e.yield]
    refine hE.anywhere.bind (fun x v _ => ?_) fun _ hrest => hrest
    rw [← bind_assoc]
    refine (loadArgument (some τ) (fun hA => hA.2.2) fun hA => ?_).ensureHere fun _ _ => ?_
    · obtain ⟨t', heq, ht⟩ := hτ hA.1
      obtain rfl := Option.some.inj heq
      exact .some ht
    · exact silent acts_write fun s u s' hrun => by
        obtain ⟨assembly, -, rfl⟩ := runs_write.1 hrun
        rfl

theorem checkCount {n count : Nat} {wanted : Option Nat} {tooFew tooMany : Problem}
    (hw : A → wanted = some n) (hfew : tooFew.isSyntactic = false)
    (hmany : tooMany.isSyntactic = false) :
    w.Ensures c A (Production.checkCount wanted count tooFew tooMany) [] F (n = count) := by
  by_cases hA : A
  swap
  · exact idle (acts_checkCount hfew hmany) hA
  rw [hw hA]
  refine ite (fun hlt => ?_) fun hlt => ite (fun hgt => ?_) fun hgt => ?_
  · exact (report hfew).iff fun _ _ => ⟨False.elim, by omega⟩
  · exact (report hmany).iff fun _ _ => ⟨False.elim, by omega⟩
  · exact ret trivial (fun _ => ⟨(), by omega⟩) fun _ _ _ => trivial

/-- The variable arguments are as many as announced. -/
theorem extraArguments {k : Int32} {fs : Expressions} {element : Option TypeId}
    (hfs : fs.Each (fun _ e =>
      w.Gives c True E e.yield (·.EndsExpression) (ExpressionIs w.context e)) 0)
    (hτ : A → ∃ t, element = some t ∧ w.HasType τ t) :
    w.Ensures c A (Production.extraArguments E element) (.word .hash :: .number k :: fs.yield)
      (· = .rightParen) (ExpressionsFit w.context (.replicate k.toInt.toNat τ) fs) := by
  rw [Production.extraArguments]
  refine advance ?_
  rw [announcement]
  rw [bind_assoc]
  refine check (fun _ _ => rfl) ?_
  simp only [if_true, bind_assoc, pure_bind]
  refine number ?_
  refine skip (acts_newArrayOf _) (fun s u s' hrun => ?_) fun _ => ?_
  · cases element with
    | none => rw [(runs_pure.1 hrun).2]
    | some t =>
      obtain ⟨assembly, -, rfl⟩ := runs_write.1 hrun
      rfl
  · rw [← List.append_nil fs.yield]
    refine Checks.iff (J := fun _ : Unit => fs.Each (fun _ e => ∃ v, ExpressionIs w.context e v ∧
      v.Suits (some τ)) 0 ∧ k.toInt.toNat = fs.length) ?_ fun _ _ => ?_
    · refine (members (M := fun n => Production.packArgument E n element) (fun _ => rfl) ?_).ensure
        (fun n hn => ?_) fun _ hk => .inl hk
      · exact hfs.imp fun _ _ he => packArgument he hτ
      · subst hn
        refine checkCount (fun hA => ?_) rfl rfl
        obtain ⟨t, ht, -⟩ := hτ hA.1
        rw [ht]
        rfl
    · have hiff := expressionsFit_iff w.context fs (.replicate k.toInt.toNat τ) 0
        (fun _ => some τ) fun i hi => by
          rw [List.length_replicate] at hi
          rw [List.getElem?_replicate, if_pos hi]
      rw [hiff, List.length_replicate]

theorem variablePart_plain {isMethod : Bool} {extra : Option TypeId} :
    w.Ensures c A (variablePart E isMethod extra) [] (· = .rightParen) True := by
  rw [variablePart]
  refine check_ne (fun rest hrest => ?_) (silent (acts_newArrayOf _) fun s u s' hrun => ?_)
  · rw [List.nil_append, hrest]
    decide
  · cases extra with
    | none => rw [(runs_pure.1 hrun).2]
    | some t =>
      obtain ⟨assembly, -, rfl⟩ := runs_write.1 hrun
      rfl

/-- Only a variadic method takes variable arguments. -/
theorem variablePart_extended {isMethod : Bool} {k : Int32} {fs : Expressions}
    (hfs : fs.Each (fun _ e =>
      w.Gives c True E e.yield (·.EndsExpression) (ExpressionIs w.context e)) 0)
    (hmethod : A → isMethod = true) (hsig : A → w.Announces sig σ) :
    w.Ensures c A (variablePart E isMethod sig.extra) (.word .hash :: .number k :: fs.yield)
      (· = .rightParen) (∃ τ, σ.extra = some τ ∧
        ExpressionsFit w.context (.replicate k.toInt.toNat τ) fs) := by
  rw [variablePart]
  refine check (fun _ _ => rfl) ?_
  rcases hextra : σ.extra with _ | τ
  · refine refuted_then ((reportIf rfl).iff fun hA _ => ?_) (fun _ _ ⟨τ, h, _⟩ => by contradiction)
      fun _ _ => (extraArguments (τ := .int) hfs False.elim).conseq (fun h => h.elim)
        (fun h => h.elim) id (fun _ => id) fun _ => id
    have hrel := (hsig hA).extra
    rw [hextra] at hrel
    generalize sig.extra = extra at hrel
    cases hrel
    simp [hmethod hA]
  · have hrel : A → ∃ t, sig.extra = some t ∧ w.HasType τ t := fun hA => by
      have h := (hsig hA).extra
      rw [hextra] at h
      generalize sig.extra = extra at h
      cases h with
      | some h => exact ⟨_, rfl, h⟩
    refine Checks.iff (J := fun _ : Unit => True ∧
      ExpressionsFit w.context (.replicate k.toInt.toNat τ) fs) ?_ fun _ _ => by simp
    refine ensureHere ((reportIf rfl).iff fun hA _ => ?_) fun _ _ =>
      extraArguments hfs fun hA => hrel hA.1
    obtain ⟨t, ht, -⟩ := hrel hA
    simp [ht]

theorem result (ht : A → ∃ id m, target = some (id, m) ∧ w.table.HasSignature w.classes m σ)
    (hτ : A → w.HasType σ.result t) :
    w.Gives c A (Production.result t target) [] F (· = .temporary σ.result) := by
  refine of_acts (acts_result target) fun s y s' hrun => ⟨trivial, fun hA _ => ?_⟩
  obtain ⟨id, m, rfl, -⟩ := ht hA
  obtain ⟨_, s₁, hinvoke, hret⟩ := runs_bind.1 hrun
  obtain ⟨rfl, rfl⟩ := runs_pure.1 hret
  have hmistakes : s'.mistakes = s.mistakes := by
    unfold invoke at hinvoke
    split at hinvoke
    · rw [runs_emit.1 hinvoke]
      rfl
    · rw [(runs_pure.1 hinvoke).2]
    · rw [(runs_pure.1 hinvoke).2]
    · obtain ⟨assembly, -, rfl⟩ := runs_write.1 hinvoke
      rfl
  refine ⟨fun _ => ⟨_, rfl⟩, ?_⟩
  rintro _ rfl
  exact ⟨hmistakes, rfl, hτ hA⟩

/-- A call, whatever its variable part is. -/
theorem callWith {es : Expressions} (vs : List Terminal) {φ : Static.Signature → Prop}
    (hx : A → w.Is x v) (hes : es.Each (fun _ e =>
      w.Gives c True E e.yield (·.EndsExpression) (ExpressionIs w.context e)) 0)
    (hvs : ∀ (A : Prop) (isMethod : Bool) (sig : Production.Signature) (σ : Static.Signature),
      (A → isMethod = true) → (A → w.Announces sig σ) →
        w.Ensures c A (variablePart E isMethod sig.extra) vs (· = .rightParen) (φ σ))
    (hstart : ∀ rest, (nextKind (vs ++ .word .rightParen :: rest)).EndsList) :
    w.Gives c A (Production.call E x)
      (.word .leftParen :: (es.yield ++ (vs ++ [.word .rightParen]))) F
      fun u => ∃ σ, v = .method σ ∧ (ExpressionsFit w.context σ.fixed es ∧ φ σ) ∧
        u = .temporary σ.result := by
  rw [Production.call]
  refine Checks.iff (J := fun u => True ∧ ∃ σ, v = .method σ ∧ True ∧
    es.Each (fun n e => ∃ v, ExpressionIs w.context e v ∧ v.Suits σ.fixed[n]?) 0 ∧
      σ.fixed.length = es.length ∧ φ σ ∧ u = Value.temporary σ.result) ?_ fun _ u => ?_
  · refine (callee hx).ensureHere fun target _ => ?_
    refine (notAMethod fun hA => hA.2.2).act fun _ σ _ => expect ?_
    refine (targetSignature fun hA => hA.2.2).ensureHere fun sig _ => ?_
    refine (members (argument_eq sig) ?_).ensure (fun n hn => ?_) fun rest _ => ?_
    · exact hes.imp fun n e he => argument he fun hA => hA.2.2
    · subst hn
      refine (checkCount (fun hA => ?_) rfl rfl).ensureHere fun _ _ => ?_
      · obtain ⟨id, m, rfl, -⟩ := hA.1.1.2.2
        rw [← hA.1.2.2.fixed]
        rfl
      refine (hvs _ _ _ σ (fun hA => ?_) fun hA => hA.1.1.2.2).ensure (fun _ _ => expect ?_)
        fun _ _ => rfl
      · obtain ⟨id, m, rfl, -⟩ := hA.1.1.1.2.2
        rfl
      · refine result (fun hA => hA.1.1.1.1.2.2) fun hA => ?_
        have hτ := (hx hA.1.1.1.1.1.1).hasType
        rwa [hA.1.1.1.1.2.1] at hτ
    · rw [List.append_assoc]
      exact hstart rest
  · have hfits := fun σ : Static.Signature => expressionsFit_iff w.context es σ.fixed 0
      (fun n => σ.fixed[n]?) fun i _ => by rw [Nat.zero_add]
    simp only [hfits, true_and, and_assoc]

theorem call_plain {es : Expressions} (hx : A → w.Is x v) (hes : es.Each (fun _ e =>
      w.Gives c True E e.yield (·.EndsExpression) (ExpressionIs w.context e)) 0) :
    w.Gives c A (Production.call E x) (Arguments.plain es).yield F fun u => ∃ σ, v = .method σ ∧
      ArgumentsFit w.context σ (.plain es) ∧ u = .temporary σ.result := by
  rw [Arguments.yield]
  refine (callWith [] (φ := fun _ => True) hx hes (fun _ _ _ _ _ _ => variablePart_plain)
    fun _ => .inl rfl).iff fun _ u => ?_
  simp only [and_true]
  refine exists_congr fun σ => and_congr_right fun _ => and_congr_left fun _ => ?_
  exact ⟨.plain, fun | .plain h => h⟩

theorem call_extended {es fs : Expressions} {k : Int32} (hx : A → w.Is x v)
    (hes : es.Each (fun _ e =>
      w.Gives c True E e.yield (·.EndsExpression) (ExpressionIs w.context e)) 0)
    (hfs : fs.Each (fun _ e =>
      w.Gives c True E e.yield (·.EndsExpression) (ExpressionIs w.context e)) 0) :
    w.Gives c A (Production.call E x) (Arguments.extended es k fs).yield F fun u =>
      ∃ σ, v = .method σ ∧ ArgumentsFit w.context σ (.extended es k fs) ∧
        u = .temporary σ.result := by
  rw [Arguments.yield]
  refine (callWith _ hx hes (fun _ _ _ _ => variablePart_extended hfs)
    fun _ => .inr rfl).iff fun _ u => ?_
  refine exists_congr fun σ => and_congr_right fun _ => and_congr_left fun _ => ?_
  constructor
  · rintro ⟨h, τ, hextra, hτ⟩
    exact .extended h hextra hτ
  · rintro (_ | ⟨h, hextra, hτ⟩)
    exact ⟨h, _, hextra, hτ⟩

end Checks

end MicroJava.World
