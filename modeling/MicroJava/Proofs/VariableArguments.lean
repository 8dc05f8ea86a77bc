import MicroJava.Proofs.CallCode
import MicroJava.Proofs.Placing

/-!
# Calls with variable arguments

A call of a method with variable arguments, read without a mistake, has as many fixed arguments as the
method has fixed parameters, and as many variable ones as it announces. Its code loads the fixed arguments,
then packs the variable ones into an array, and calls the method (`call_packsArguments`).
-/

namespace MicroJava

open Production Tree

/-! ### Lists of arguments -/

def Tree.Expressions.toList : Expressions → List Expression
  | .nil => []
  | .cons e es => e :: es.toList

theorem Tree.Expressions.length_toList : ∀ es : Expressions, es.toList.length = es.length
  | .nil => rfl
  | .cons _ es => congrArg (· + 1) es.length_toList

namespace Tree.Arguments

/-- The arguments in front of the announcement. -/
def fixed : Arguments → Expressions
  | plain es => es
  | extended es _ _ => es

/-- The arguments behind the announcement. -/
def extra : Arguments → Expressions
  | plain _ => .nil
  | extended _ _ fs => fs

/-- How many variable arguments are announced. -/
def announced : Arguments → Nat
  | plain _ => 0
  | extended _ k _ => k.toInt.toNat

/-- The terminals of the announcement and the variable arguments. -/
def extraYield : Arguments → List Terminal
  | plain _ => []
  | extended _ k fs => .word .hash :: .number k :: fs.yield

theorem yield_eq (a : Arguments) :
    a.yield = .word .leftParen :: (a.fixed.yield ++ (a.extraYield ++ [.word .rightParen])) := by
  cases a <;> simp [yield, fixed, extraYield]

theorem endsList (a : Arguments) (rest : List Terminal) :
    (nextKind (a.extraYield ++ (.word .rightParen :: rest))).EndsList := by
  cases a with
  | plain _ => exact .inl rfl
  | extended _ _ _ => exact .inr rfl

theorem announced_lt (a : Arguments) : a.announced < 2 ^ 31 := by
  cases a with
  | plain _ => exact Nat.two_pow_pos 31
  | extended _ k _ =>
    have hk := k.toInt_lt
    simp only [announced]
    omega

end Tree.Arguments

variable {F : Frame} {t : SymbolTable} {E : Production Operand} {e : Expression} {T : TypeId}
  {H : Token.Kind → Prop} {n : Nat}

theorem numbered_flatten (jss : List (List Item)) (i : Nat) :
    numbered (fun _ js => js) i jss = jss.flatten := by
  induction jss generalizing i with
  | nil => rfl
  | cons js jss ih => rw [numbered, ih, List.flatten_cons]

namespace Moves

variable {α β : Type} {body : α → Production (α ⊕ β)}

theorem turns (h : ∀ a, Moves F t (body a)) {s s' : Session} {a : α} {b : β} (hc : F.Sees t s)
    (hrun : Turns F.setting body a s b s') : F.Sees t s' ∧ s.mistakes ≤ s'.mistakes := by
  induction hrun with
  | last hlast => exact h _ hc hlast
  | next hnext _ ih =>
    obtain ⟨hc₁, hle⟩ := h _ hc hnext
    obtain ⟨hc', hle'⟩ := ih hc₁
    exact ⟨hc', Nat.le_trans hle hle'⟩

theorem loop (h : ∀ a, Moves F t (body a)) (a : α) : Moves F t (Production.loop body a) :=
  fun _ _ _ hc hrun => turns h hc (turns_of_runs_loop hrun)

end Moves

namespace Lists

theorem afterMember_comma : Lists F t (afterMember n) [.word .comma] H fun r js => r = .inl n ∧ js = [] :=
  check ((Emits.afterMember (P := fun _ => True) n).moves trivial) (fun _ _ => rfl) (advance ret)

theorem afterMember_last :
    Lists F t (afterMember n) [] (·.EndsMember) fun r js => r = .inr n ∧ js = [] :=
  check ((Emits.afterMember (P := fun _ => True) n).moves trivial)
    (fun _ hrest => decide_eq_false hrest.2) ret

section Members

variable {member : Nat → Production (Nat ⊕ Nat)} {M : Nat → Production Unit}
  {g : Nat → List Item → List Item}

/-- A member with a comma behind it is not the last one. -/
theorem member_comma (hmember : ∀ n, member n = do M n; afterMember (n + 1))
    (hM : Lists F t (M n) e.yield (·.EndsExpression) fun _ js' => ∃ js, e.Loads F t E js ∧ js' = g n js) :
    Lists F t (member n) (e.yield ++ [.word .comma]) (fun _ => True)
      fun r js' => r = .inl (n + 1) ∧ ∃ js, e.Loads F t E js ∧ js' = g n js := by
  have hcomma : Token.Kind.comma.EndsExpression := by decide
  rw [hmember]
  refine (bind hM (fun _ => afterMember_comma) fun _ _ => hcomma).post ?_
  rintro r _ ⟨_, _, _, rfl, hjs, rfl, rfl⟩
  exact ⟨rfl, by rwa [List.append_nil]⟩

theorem member_last (hmember : ∀ n, member n = do M n; afterMember (n + 1))
    (hM : Lists F t (M n) e.yield (·.EndsExpression) fun _ js' => ∃ js, e.Loads F t E js ∧ js' = g n js) :
    Lists F t (member n) (e.yield ++ []) (·.EndsMember)
      fun r js' => r = .inr (n + 1) ∧ ∃ js, e.Loads F t E js ∧ js' = g n js := by
  rw [hmember]
  refine (bind hM (fun _ => afterMember_last) fun _ hrest => hrest.1).post ?_
  rintro r _ ⟨_, _, _, rfl, hjs, rfl, rfl⟩
  exact ⟨rfl, by rwa [List.append_nil]⟩

/-- The members of a list are read one after the other, and what one appends depends on its number. -/
theorem memberTurns (hmember : ∀ n, member n = do M n; afterMember (n + 1))
    (hM : ∀ n (e : Expression), Lists F t (M n) e.yield (·.EndsExpression)
      fun _ js' => ∃ js, e.Loads F t E js ∧ js' = g n js) {s' : Session} {b : ℕ} {rest : List Terminal}
    (hrest : (nextKind rest).EndsMember) :
    ∀ (es : Expressions) (e : Expression) {n : Nat} {s : Session} {is : List Item}, F.Sees t s →
      Turns F.setting member n s b s' → s.ahead = (Expressions.cons e es).yield ++ rest →
        s'.mistakes = s.mistakes → Lays s.assembly is →
          s'.ahead = rest ∧ b = n + (Expressions.cons e es).length ∧
            ∃ jss, List.Forall₂ (·.Loads F t E ·) (Expressions.cons e es).toList jss ∧
              Lays s'.assembly (is ++ numbered g n jss)
  | .nil, e, n, s, is, hc, hturns, hahead, hclean, hlays => by
    have hlast := member_last hmember (hM n e)
    cases hturns with
    | last hrun =>
      obtain ⟨hahead', _, ⟨heq, js, hjs, rfl⟩, hlays'⟩ :=
        hlast.lists hc hrun hahead hrest hclean hlays
      exact ⟨hahead', Sum.inr.inj heq, [js], .cons hjs .nil, by rwa [numbered, numbered, List.append_nil]⟩
    | next hrun hturns =>
      obtain ⟨hc₁, hle⟩ := hlast.moves hc hrun
      obtain ⟨-, hle'⟩ := Moves.turns (fun n => (member_last hmember (hM n e)).moves) hc₁ hturns
      obtain ⟨-, _, ⟨heq, -⟩, -⟩ := hlast.lists hc hrun hahead hrest (by omega) hlays
      contradiction
  | .cons e' es, e, n, s, is, hc, hturns, hahead, hclean, hlays => by
    have hcomma := member_comma hmember (hM n e)
    have hahead : s.ahead = (e.yield ++ [.word .comma]) ++ ((Expressions.cons e' es).yield ++ rest) := by
      rw [hahead]
      simp [Expressions.yield, Expressions.more]
    cases hturns with
    | last hrun =>
      obtain ⟨-, _, ⟨heq, -⟩, -⟩ := hcomma.lists hc hrun hahead trivial hclean hlays
      contradiction
    | next hrun hturns =>
      obtain ⟨hc₁, hle⟩ := hcomma.moves hc hrun
      obtain ⟨-, hle'⟩ := Moves.turns (fun n => (member_comma hmember (hM n e)).moves) hc₁ hturns
      obtain ⟨hahead₁, _, ⟨heq, js, hjs, rfl⟩, hlays₁⟩ :=
        hcomma.lists hc hrun hahead trivial (by omega) hlays
      obtain rfl := Sum.inl.inj heq
      obtain ⟨hahead', rfl, jss, hjss, hlays'⟩ :=
        memberTurns hmember hM hrest es e' hc₁ hturns hahead₁ (by omega) hlays₁
      refine ⟨hahead', ?_, js :: jss, .cons hjs hjss, ?_⟩
      · simp only [Expressions.length]
        omega
      · rwa [numbered, ← List.append_assoc]

theorem members (hmoves : Moves F t (Production.members member))
    (hmember : ∀ n, member n = do M n; afterMember (n + 1))
    (hM : ∀ n (e : Expression), Lists F t (M n) e.yield (·.EndsExpression)
      fun _ js' => ∃ js, e.Loads F t E js ∧ js' = g n js) (es : Expressions) :
    Lists F t (Production.members member) es.yield (·.EndsList) fun n js => n = es.length ∧
      ∃ jss, List.Forall₂ (·.Loads F t E ·) es.toList jss ∧ js = numbered g 0 jss := by
  rw [Production.members] at hmoves ⊢
  cases es with
  | nil =>
    refine checkAny (b := false) hmoves (fun rest hrest => ?_) (ret.post ?_)
    · rcases hrest with hk | hk <;> simp [Expressions.yield, hk, expressionStarts]
    · rintro _ _ ⟨rfl, rfl⟩
      exact ⟨rfl, [], .nil, rfl⟩
  | cons e es =>
    refine checkAny (b := true) hmoves (fun rest _ => ?_) ⟨?_, ?_⟩
    · rw [Expressions.yield, List.append_assoc]
      exact e.nextKind_yield _
    · exact .loop (fun n => (member_last hmember (hM n e)).moves) 0
    · intro s b s' rest is hc hrun hahead hrest hclean hlays
      obtain ⟨hahead', rfl, jss, hjss, hlays'⟩ := memberTurns hmember hM hrest.endsMember es e hc
        (turns_of_runs_loop hrun) hahead hclean hlays
      exact ⟨hahead', _, ⟨Nat.zero_add _, jss, hjss, rfl⟩, hlays'⟩

end Members

/-! ### Packing -/

theorem arguments (hE : ReadsExpressions F E) (sig : Signature) (es : Expressions) :
    Lists F t (Production.members (argument E sig)) es.yield (·.EndsList) fun n js => n = es.length ∧
      ∃ jss, List.Forall₂ (·.Loads F t E ·) es.toList jss ∧ js = jss.flatten := by
  have hmoves : Moves F t (Production.members (argument E sig)) :=
    (Emits.members (q := True) (g := fun n => 0 + n) (.argument hE.leaves sig)).moves holds_none
  refine (members (E := E) (g := fun _ js => js) hmoves (World.Checks.argument_eq sig)
    (fun n e => ?_) es).post ?_
  · exact (loadArgument hE _).post fun _ js hjs => ⟨js, hjs, rfl⟩
  · rintro n _ ⟨hn, jss, hjss, rfl⟩
    exact ⟨hn, jss, hjss, numbered_flatten jss 0⟩

/-- An argument is stored behind `n` others. -/
theorem packArgument (hE : ReadsExpressions F E) (e : Expression) (n : Nat) :
    Lists F t (Production.packArgument E n (some T)) e.yield (·.EndsExpression)
      fun _ js' => ∃ js, e.Loads F t E js ∧ js' = storing T n js := by
  have hparts : Production.packArgument E n (some T) = (Production.emit .dup >>= fun _ =>
      Production.write (Emission.constant (.ofNat n)) >>= fun _ =>
        (do let x ← E; checkArgument x (some T); Production.load x) >>= fun _ =>
          Production.write (Emission.storeElement T)) := by
    simp only [Production.packArgument, bind_assoc]
  have hdup : Straight .dup [] 1 2 := .of_counts rfl rfl rfl
  have hmoves : Moves F t (Production.emit .dup) := (Emits.emit (n := 0) (q := True) hdup).moves holds_none
  rw [hparts, ← List.append_nil e.yield]
  refine (act (emit ⟨rfl, rfl⟩ hmoves) fun _ => act constant fun _ =>
    bind (loadArgument hE (some T)) (fun _ => storeElement) fun _ hrest => hrest).post ?_
  rintro _ _ ⟨_, _, _, rfl, rfl, _, _, _, rfl, rfl, _, js, _, rfl, hjs, rfl⟩
  exact ⟨js, hjs, rfl⟩

theorem announcement {k : Int32} :
    Lists F t Production.announcement [.number k] H fun n js => n = k.toInt.toNat ∧ js = [] := by
  have hliteral : Moves F t literal := (Emits.literal (P := fun _ => True)).moves trivial
  have hnumber : Lists F t (literal >>= fun v => Pure.pure v.toInt.toNat) [.number k] H
      fun n js => n = k.toInt.toNat ∧ js = [] :=
    take (hliteral.bind fun _ => (ret (H := H)).moves) hliteral
      (World.Checks.runs_literal_terminal (.inl rfl)) ret
  exact check (b := true) ((Emits.announcement (n := 0) (q := True)).moves holds_none) (fun _ _ => rfl)
    hnumber

/-- The array is as long as announced, and there are as many arguments to fill it. -/
theorem extraArguments (hE : ReadsExpressions F E) (k : Int32) (fs : Expressions) :
    Lists F t (Production.extraArguments E (some T)) (.word .hash :: .number k :: fs.yield) (·.EndsList)
      fun _ js => fs.length = k.toInt.toNat ∧ ∃ jss, List.Forall₂ (·.Loads F t E ·) fs.toList jss ∧
        js = packing T fs.length jss := by
  have hmembers : Moves F t (Production.members (extraArgument E (some T))) :=
    (Emits.members (q := (some T).isSome ∧ True) (g := fun _ => 0 + 1)
      (.extraArgument hE.leaves (some T))).moves holds_none
  have hlist := members (g := storing T) hmembers (fun _ => rfl) (fun n e => packArgument hE e n) fs
  have hcounted (announced : Nat) : Lists F t (do
      let count ← Production.members (extraArgument E (some T))
      Production.checkCount (some announced) count .tooFewVariable .tooManyVariable) fs.yield (·.EndsList)
      fun _ js => fs.length = announced ∧
        ∃ jss, List.Forall₂ (·.Loads F t E ·) fs.toList jss ∧ js = numbered (storing T) 0 jss := by
    rw [← List.append_nil fs.yield]
    refine (bind hlist (fun _ => checkCount) fun _ hrest => hrest).post ?_
    rintro _ _ ⟨n, _, _, rfl, ⟨rfl, jss, hjss, rfl⟩, hcount, rfl⟩
    exact ⟨hcount, jss, hjss, by rw [List.append_nil]⟩
  have hannounced : Lists F t Production.announcement [.number k] (fun _ => True)
      fun n js => n = k.toInt.toNat ∧ js = [] := announcement
  rw [Production.extraArguments]
  refine advance ((bind hannounced
    (fun n => act newArray fun _ => hcounted n) fun _ _ => trivial).post ?_)
  rintro _ _ ⟨n, _, _, rfl, ⟨hn, rfl⟩, _, _, _, rfl, rfl, hcount, jss, hjss, rfl⟩
  exact ⟨hcount.trans hn, jss, hjss, by rw [hcount]; rfl⟩

/-- Behind the fixed arguments, an array of what is announced is made, and an empty one if nothing is. -/
theorem variablePart (hE : ReadsExpressions F E) {isMethod : Bool} (a : Arguments) :
    Lists F t (Production.variablePart E isMethod (some T)) a.extraYield (· = .rightParen)
      fun _ js => a.extra.length = a.announced ∧
        ∃ jss, List.Forall₂ (·.Loads F t E ·) a.extra.toList jss ∧ js = packing T a.extra.length jss := by
  have hmoves : Moves F t (Production.variablePart E isMethod (some T)) :=
    (Emits.variablePart (n := 0) (q := True) hE.leaves (some T)).moves holds_none
  cases a with
  | plain es =>
    refine check (b := false) hmoves (fun rest hrest => ?_) (newArray.post ?_)
    · rw [Arguments.extraYield, List.nil_append, hrest]
      decide
    · rintro _ _ rfl
      exact ⟨rfl, [], .nil, rfl⟩
  | extended es k fs =>
    refine check (b := true) hmoves (fun _ _ => rfl)
      ((act reportIf fun _ => (extraArguments hE k fs).follow fun _ => .inl).post ?_)
    rintro _ _ ⟨_, _, _, rfl, ⟨-, rfl⟩, hjs⟩
    exact hjs

/-- A call is made, and gives what the method returns. -/
theorem result {id : EntryId} {entry : Entry} {m : Method} {type : TypeId}
    (hentry : F.entries[id.index]? = some entry) (hm : entry.method? = some m)
    (hid : Builtin.ofId? id = none) :
    Lists F t (Production.result type (some (id, m))) [] H fun _ js => js = [.call m.address] := by
  have hinvoke : Production.invoke id m = Production.write (Emission.call m.address) := by
    rw [Production.invoke, hid]
  have hmoves : Moves F t (Production.write (Emission.call m.address)) :=
    hinvoke ▸ (Emits.invoke (n := 0) (q := True) hentry hm).moves holds_none
  refine (act (hinvoke ▸ callTo hmoves) fun _ => ret).post ?_
  rintro _ _ ⟨_, _, _, rfl, rfl, -, rfl⟩
  rfl

/-- The arguments behind the parenthesis, and the call. -/
theorem argumentsAndCall (hE : ReadsExpressions F E) {id : EntryId} {entry : Entry} {m : Method}
    {type : TypeId} (hentry : F.entries[id.index]? = some entry) (hm : entry.method? = some m)
    (hid : Builtin.ofId? id = none) {sig : Signature} (hextra : sig.extra = some T) (a : Arguments) :
    Lists F t (do
      let count ← Production.members (argument E sig)
      Production.checkCount (some sig.fixed) count .tooFewArguments .tooManyArguments
      Production.variablePart E true sig.extra
      Production.expect .rightParen
      Production.result type (some (id, m)))
      (a.fixed.yield ++ (a.extraYield ++ [.word .rightParen])) H fun _ js =>
        a.fixed.length = sig.fixed ∧ a.extra.length = a.announced ∧
          ∃ fixed extra, List.Forall₂ (·.Loads F t E ·) a.fixed.toList fixed ∧
            List.Forall₂ (·.Loads F t E ·) a.extra.toList extra ∧
              js = fixed.flatten ++ (packing T a.extra.length extra ++ [.call m.address]) := by
  rw [hextra]
  refine (bind (arguments hE sig a.fixed) (fun count => act checkCount fun _ =>
    bind (variablePart hE a) (fun _ => expect (result hentry hm hid)) fun _ _ => rfl) ?_).post ?_
  · intro rest _
    rw [List.append_assoc]
    exact a.endsList rest
  · rintro _ _ ⟨_, _, _, rfl, ⟨rfl, fixed, hfixed, rfl⟩, _, _, _, rfl, ⟨hcount, rfl⟩, _, _, _, rfl,
      ⟨hannounced, extra, hextra, rfl⟩, rfl⟩
    exact ⟨hcount, hannounced, fixed, extra, hfixed, hextra, rfl⟩

end Lists

/-! ### Calls -/

/-- The method collects any number of arguments of the type, behind the other ones. -/
def SymbolTable.Collects (t : SymbolTable) (m : Method) (T : TypeId) : Prop :=
  m.variadic ∧ ∃ id e d, m.leading.getLast? = some id ∧ t.entryAt? id = some e ∧
    t.types.descriptor? e.type = some d ∧ d.element = T

variable {c : Setting} {s s' : Session}

theorem runs_types {ids : List EntryId} {types : List TypeId}
    (hrun : (ids.mapM fun id => return (← Production.entry id).type).Runs c s types s') :
    s' = s ∧ List.Forall₂ (fun id type => ∃ e, s.table.entryAt? id = some e ∧ e.type = type) ids types := by
  induction ids generalizing types with
  | nil =>
    rw [List.mapM_nil] at hrun
    obtain ⟨rfl, rfl⟩ := runs_pure.1 hrun
    exact ⟨rfl, .nil⟩
  | cons id ids ih =>
    rw [List.mapM_cons] at hrun
    simp only [runs_bind, runs_entry, runs_pure] at hrun
    obtain ⟨_, _, ⟨e, _, ⟨he, rfl⟩, rfl, rfl⟩, types, _, htypes, rfl, rfl⟩ := hrun
    obtain ⟨rfl, hrel⟩ := ih htypes
    exact ⟨rfl, .cons ⟨e, he, rfl⟩ hrel⟩

/-- What the arguments are checked against. -/
theorem SymbolTable.Collects.signature {m : Method} {sig : Signature} (h : s.table.Collects m T)
    (hrun : (Production.signature m).Runs c s sig s') :
    s' = s ∧ sig.fixed = m.fixed ∧ sig.extra = some T := by
  obtain ⟨hvariadic, id, e, d, hid, he, hd, rfl⟩ := h
  obtain ⟨types, s₁, h₁, h₂⟩ := runs_bind.1 hrun
  obtain ⟨rfl, htypes⟩ := runs_types h₁
  have hlast : Option.Rel (fun id type => ∃ e, s₁.table.entryAt? id = some e ∧ e.type = type)
      m.leading.getLast? types.getLast? := by
    rw [List.getLast?_eq_getElem?, List.getLast?_eq_getElem?, htypes.length_eq]
    exact World.rel_getElem? htypes _
  rw [hid] at hlast
  generalize types.getLast? = last at hlast h₂
  obtain ⟨e', he', rfl⟩ := hlast
  obtain rfl := Option.some.inj (he.symm.trans he')
  simp only [hvariadic, extraType, runs_bind, runs_map, runs_descriptor, runs_pure] at h₂
  obtain ⟨_, _, ⟨_, ⟨d', ⟨hd', rfl⟩, rfl⟩, rfl⟩, rfl, rfl⟩ := h₂
  obtain rfl := Option.some.inj (hd.symm.trans hd')
  exact ⟨rfl, rfl, rfl⟩

/-- The method and its signature are known before anything is read behind the parenthesis. -/
theorem SymbolTable.Collects.call {E : Production Operand} {x y : Operand} {id : EntryId} {entry : Entry}
    {m : Method} {rest : List Terminal} (h : s.table.Collects m T) (hplace : x.place = .method id)
    (hentry : s.table.entryAt? id = some entry) (hm : entry.method? = some m)
    (hahead : s.ahead = .word .leftParen :: rest) (hrun : (Production.call E x).Runs c s y s') :
    ∃ sig : Signature, sig.fixed = m.fixed ∧ sig.extra = some T ∧ Production.Runs c (do
      let count ← Production.members (argument E sig)
      Production.checkCount (some sig.fixed) count .tooFewArguments .tooManyArguments
      Production.variablePart E true sig.extra
      Production.expect .rightParen
      Production.result x.type (some (id, m))) s.advance y s' := by
  simp only [Production.call, callee, hplace, bind_assoc, pure_bind] at hrun
  obtain ⟨_, s₁, hfound, hrun₁⟩ := runs_bind.1 hrun
  obtain ⟨hfound, rfl⟩ := runs_entry.1 hfound
  obtain rfl := Option.some.inj (hentry.symm.trans hfound)
  rw [hm] at hrun₁
  obtain ⟨_, s₂, hknown, hrun₂⟩ := runs_bind.1 hrun₁
  obtain rfl : s₂ = s₁ := runs_reportIf.1 hknown
  obtain ⟨_, s₃, hparenthesis, hrun₃⟩ := runs_bind.1 hrun₂
  obtain ⟨-, rfl⟩ :=
    World.Checks.runs_expect_terminal _ _ _ hparenthesis (Session.current_of_ahead hahead).1
  obtain ⟨sig, s₄, hsignature, hrun₄⟩ := runs_bind.1 hrun₃
  obtain ⟨rfl, hfixed, hextra⟩ := SymbolTable.Collects.signature (s := s₂.advance) h hsignature
  exact ⟨sig, hfixed, hextra, hrun₄⟩

/-- A predeclared method collects nothing. -/
theorem SymbolTable.Collects.ofId?_eq_none {id : EntryId} {entry : Entry} {m : Method}
    (h : s.table.Collects m T) (ht : s.table.Predeclared) (hentry : s.table.entryAt? id = some entry)
    (hm : entry.method? = some m) : Builtin.ofId? id = none := by
  refine Option.eq_none_iff_forall_ne_some.2 fun b hb => ?_
  obtain ⟨e, m', he, hm', -, -, hvariadic⟩ := ht.builtin b
  rw [Builtin.id_of_ofId? hb] at he
  obtain rfl := Option.some.inj (hentry.symm.trans he)
  obtain rfl := Option.some.inj (hm.symm.trans hm')
  exact absurd h.1 (by simp [hvariadic])

/-- A call that is read without a mistake has arguments that were read. -/
theorem exists_arguments (hE : ReadsExpressions F E) {x y : Operand} (hc : F.Covers s)
    (hrun : (call E x).Runs F.setting s y s') (hclean : s'.mistakes = s.mistakes) :
    ∃ a : Arguments, s.ahead = a.yield ++ s'.ahead := by
  have hreads := reading_call hE.spells (p := fun _ => True) trivial hrun
  obtain ⟨_, hsteps, -⟩ := Emits.call (n := 0) (q := True) hE.leaves x hc hrun holds_none
  have hle := hreads.slips
  have hle' := hsteps.slips
  exact hreads.reads hc.named (by omega)

/-- A call of a method that collects arguments, read without a mistake wherever it is in a block, also where
it is an argument of another call, or the method is the one that is declared: it has as many fixed arguments
as the method has other parameters, and as many variable ones as it announces. What is appended for them is
the code of the fixed arguments, that of the variable ones packed into an array, and the call, and this code
packs them. -/
theorem call_packsArguments {E : Production Operand}
    (hE : E = expression ∨ ∃ depth, E = nestedExpression depth) {x y : Operand} {id : EntryId}
    {entry : Entry} {m : Method} {is : List Item} (hc : F.Covers s) (hlays : Lays s.assembly is)
    (hplace : x.place = .method id) (hentry : s.table.entryAt? id = some entry)
    (hm : entry.method? = some m) (hcollects : s.table.Collects m T)
    (hrun : (call E x).Runs F.setting s y s') (hclean : s'.mistakes = s.mistakes) :
    ∃ a : Arguments, s.ahead = a.yield ++ s'.ahead ∧
      a.fixed.length = m.fixed ∧ a.extra.length = a.announced ∧
        ∃ fixed extra : List (List Item), List.Forall₂ (·.Loads F s.table E ·) a.fixed.toList fixed ∧
          List.Forall₂ (·.Loads F s.table E ·) a.extra.toList extra ∧
            Lays s'.assembly
              (is ++ (fixed.flatten ++ (packing T a.extra.length extra ++ [.call m.address]))) ∧
              ∀ code, Packs code T fixed extra m.address := by
  have hreads : ReadsExpressions F E := by
    rcases hE with rfl | ⟨depth, rfl⟩
    · exact .unnested
    · exact .nested depth
  obtain ⟨a, hahead⟩ := exists_arguments hreads hc hrun hclean
  have hentries : F.entries[id.index]? = some entry := by rwa [← hc.entries]
  have hahead' : s.ahead = .word .leftParen ::
      (a.fixed.yield ++ (a.extraYield ++ [.word .rightParen]) ++ s'.ahead) := by
    rw [hahead, a.yield_eq, List.cons_append]
  obtain ⟨sig, hfixed, hextra, hrun'⟩ := hcollects.call hplace hentry hm hahead' hrun
  have hid : Builtin.ofId? id = none := hcollects.ofId?_eq_none hc.predeclared hentry hm
  have hsees : F.Sees s.table s.advance := (Move.advance (x := none)).steps.sees ⟨hc, .refl _⟩
  obtain ⟨-, _, ⟨hcount, hannounced, fixed, extra, hloads, hloads', rfl⟩, hlays'⟩ :=
    (Lists.argumentsAndCall (H := fun _ => True) hreads hentries hm hid hextra a).lists hsees hrun'
      (Takes.advance hc.named hahead').ahead trivial (by rwa [Session.mistakes_advance]) hlays
  refine ⟨a, hahead, hcount.trans hfixed, hannounced, fixed, extra, hloads, hloads', hlays',
    fun code => packs ?_⟩
  rw [← hloads'.length_eq, Expressions.length_toList, hannounced]
  exact a.announced_lt

theorem call_packsArguments_recursive :
    let c : Setting := ⟨{}, 20⟩
    -- in the block of a method `f` with a parameter `a` and another that collects numbers
    let method := (SymbolTable.initial.openScope.declare .method "f" .int).2
    let f : EntryId := ⟨SymbolTable.initial.entries.size⟩
    let numbers := (method.openScope.declare .var "a" .int).2.arrayOf .int
    let inside := (numbers.2.declare .var "numbers" numbers.1).2
    let m : Method := ⟨0, 2, true, inside.current.locals.toList⟩
    let t := inside.update f (·.updateMethod fun _ => m)
    let F : Frame := ⟨c, t.entries, 0, true, false⟩
    let s₀ := (Session.start (Token.scan "(1 # 2 7, f(a # 1 9));") {}).advance
    let s := { s₀ with table := t, returnType := .int }
    let E := nestedExpression 20
    ∃ s', (call E ⟨.method f, .int⟩).Runs c s (.onStack .int) s' ∧ s'.ahead = [.word .semicolon] ∧
      ∃ a : Arguments, s.ahead = a.yield ++ s'.ahead ∧ a.fixed.length = m.fixed ∧
        a.extra.length = a.announced ∧
          ∃ fixed extra : List (List Item), List.Forall₂ (·.Loads F t E ·) a.fixed.toList fixed ∧
            List.Forall₂ (·.Loads F t E ·) a.extra.toList extra ∧
              Lays s'.assembly
                ([] ++ (fixed.flatten ++ (packing .int a.extra.length extra ++ [.call m.address]))) ∧
                ∀ code, Packs code .int fixed extra m.address := by
  intro c method f numbers inside m t F s₀ s E
  have hm : m.parameters ≤ m.locals.length := by decide +kernel
  have hentry : t.entryAt? f = some ⟨"f", .int, .method m⟩ := by decide +kernel
  have hsound : t.Sound := by
    have hvariable {t' : SymbolTable} (h : t'.Sound) (n : String) (type : TypeId) :
        (t'.declare .var n type).2.Sound := h.declare .var n (by simp)
    have hmethod : method.Sound := SymbolTable.Sound.initial.openScope.declare .method "f" (by simp)
    refine (hvariable ((hvariable hmethod.openScope _ _).arrayOf _) _ _).update fun _ e _ he => ?_
    unfold Entry.updateMethod
    split
    · exact hm
    · exact he
  have hpredeclared : t.Predeclared := by
    have hmethod : method.openScope.Predeclared :=
      SymbolTable.Predeclared.declare (fun _ _ => rfl) .method "f" .int
    have harray : numbers.2.Predeclared := hmethod.declare .var "a" .int
    exact (harray.declare .var "numbers" numbers.1).update (.inr (Nat.le_refl _)) _
  have hnamed : s.Named := by
    have hstart : s₀.Named := (Session.Named.start _ _).advance
    exact ⟨hstart.current, hstart.ahead, hstart.last⟩
  have hc : F.Covers s := ⟨rfl, Nat.zero_le _, by decide +kernel, hnamed, hsound, hpredeclared⟩
  have hcollects : t.Collects m .int := by
    refine ⟨rfl, ⟨SymbolTable.initial.entries.size + 2⟩, ⟨"numbers", numbers.1, .var 1 2⟩, .array .int,
      ?_, ?_, ?_, rfl⟩ <;> decide +kernel
  have hok : ((call E ⟨.method f, .int⟩).outcome c s).1 = .ok (.onStack .int) := by decide +kernel
  have hrun : (call E ⟨.method f, .int⟩).Runs c s (.onStack .int)
      ((call E ⟨.method f, .int⟩).outcome c s).2 := Prod.ext hok rfl
  have hclean : ((call E ⟨.method f, .int⟩).outcome c s).2.mistakes = s.mistakes := by decide +kernel
  have hahead : ((call E ⟨.method f, .int⟩).outcome c s).2.ahead = [.word .semicolon] := by
    decide +kernel
  exact ⟨_, hrun, hahead, call_packsArguments (.inr ⟨20, rfl⟩) hc .nil rfl hentry rfl hcollects hrun hclean⟩

end MicroJava
