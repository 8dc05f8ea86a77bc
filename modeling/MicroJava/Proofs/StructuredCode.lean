import MicroJava.Proofs.ShortCircuit

/-!
# The code of statements follows their structure

The code of a statement from `p` to `q` does what the statement does, in the same order, and arrives
where the way it ends says (`Follows`): at `q` when it is done, and at the label behind the innermost
loop when that is broken. The statements inside another one are used through what they do alone, so
there is one lemma for each form of a statement, and a loop is followed turn by turn. A block that is
read without a mistake does what its statements do, for all values that its conditions find
(`block_executes`).
-/

namespace MicroJava

open Tree

/-- Where code has arrived that was to end like this, if the statement ends at `q` and the innermost
loop around it at the label. A method is left by its last instruction. -/
def Arrives (C : Code) (exit : Option Label) (q : Nat) : Ending → Nat → Prop
  | .done, r => r = q
  | .broken, r => ∃ l, exit = some l ∧ C.address? l = some r
  | .returned, r => C.Has r [.plain .ret []]
  | .cut, _ => True

/-- The code from `p` on does what is seen of the acts, and arrives. -/
def Does (F : Frame) (base : Session) (C : Code) (exit : Option Label) (as : List Act) (e : Ending)
    (p q : Nat) : Prop :=
  ∃ es r, Shows F base C as es ∧ Control.Passes C.instructions p es r ∧ Arrives C exit q e r

/-- The code from `p` to `q` does what the statement does. -/
def Follows (F : Frame) (base : Session) (C : Code) (exit : Option Label) (x : Statement)
    (p q : Nat) : Prop :=
  ∀ ⦃vs as e⦄, x.Executes vs as e → Does F base C exit as e p q

section

variable {F : Frame} {base : Session} {C : Code} {exit : Option Label} {x y : Statement}
  {xs : Statements} {b : Condition} {v : Values} {as as' : List Act} {e : Ending}
  {p m n q A : Nat} {l : Label}

/-- An execution that has arrived somewhere else than at the end of one statement has arrived there
for all statements around it that end otherwise. -/
theorem Arrives.elsewhere {r : Nat} (h : Arrives C exit q e r) (he : e ≠ .done)
    (q' : Nat) : Arrives C exit q' e r := by
  cases e with
  | done => exact absurd rfl he
  | broken => exact h
  | returned => exact h
  | cut => trivial

/-- Where a loop is left by its end or by the end of the method, its own label does not matter. -/
theorem Arrives.outside {r : Nat} {exit' : Option Label} (h : Arrives C exit q e r)
    (he : e = .returned ∨ e = .cut) : Arrives C exit' q e r := by
  rcases he with rfl | rfl
  · exact h
  · trivial

namespace Does

theorem nil (h : Arrives C exit q e p) : Does F base C exit [] e p q := ⟨[], p, .nil, .refl, h⟩

theorem trans (h : Does F base C exit as .done p m) (h' : Does F base C exit as' e m q) :
    Does F base C exit (as ++ as') e p q := by
  obtain ⟨es, r, hshows, hpasses, rfl⟩ := h
  obtain ⟨es', r', hshows', hpasses', harrives⟩ := h'
  exact ⟨es ++ es', r', hshows.append hshows', hpasses.trans hpasses', harrives⟩

/-- What is done ends with a jump. -/
theorem jump (h : Does F base C exit as .done p n) (hjump : C.Has n [.jump .jump l])
    (hl : C.address? l = some q) : Does F base C exit as .done p q := by
  have hthere : Does F base C exit [] .done n q := ⟨[], q, .nil, (hjump.jump hl).passes, rfl⟩
  simpa using h.trans hthere

theorem elsewhere (h : Does F base C exit as e p q) (he : e ≠ .done) (q' : Nat) :
    Does F base C exit as e p q' := by
  obtain ⟨es, r, hshows, hpasses, harrives⟩ := h
  exact ⟨es, r, hshows, hpasses, harrives.elsewhere he q'⟩

/-- What a condition guards is done if it holds. -/
theorem guarded (h : Does F base C exit as e m q) (hb : Guards F base C b A p m)
    (hv : b.holds v) : Does F base C exit (b.acts v ++ as) e p q := by
  obtain ⟨es, hshows, hpasses⟩ := hb v
  rw [if_pos hv] at hpasses
  exact trans ⟨es, m, hshows, hpasses, rfl⟩ h

/-- What stands at the false label of a condition is done if it fails. -/
theorem unguarded (h : Does F base C exit as e A q) (hb : Guards F base C b A p m)
    (hv : b.holds v = false) : Does F base C exit (b.acts v ++ as) e p q := by
  obtain ⟨es, hshows, hpasses⟩ := hb v
  rw [if_neg (by simp [hv])] at hpasses
  exact trans ⟨es, A, hshows, hpasses, rfl⟩ h

/-- Behind the value that a method returns stand its last two instructions. -/
theorem leave {v : Option Expression} {type : TypeId} {js : List Item}
    (h : Piece F base C (Production.returnValue type) (v.elim [] Expression.yield) p js)
    (hexit : C.Has (p + codeSize js) [.plain .exit []])
    (hret : C.Has (p + codeSize js + 1) [.plain .ret []]) :
    Does F base C exit [.leave v] .returned p q := by
  have hmove := hexit.next ⟨by decide, by decide⟩
  exact ⟨_, _, (Shown.leave h hexit).shows, h.passes.trans hmove.passes, hret⟩

end Does

namespace Follows

theorem simple {s : Production Unit} {js : List Item} (hx : Production.simple? x = some s)
    (h : Piece F base C s x.yield p js) : Follows F base C exit x p (p + codeSize js) := by
  intro vs as e hexec
  have hsimple := Production.isSimple_of_simple? hx
  cases hexec with
  | simple _ => exact ⟨_, _, (Shown.perform hx h).shows, h.passes, rfl⟩
  | cut _ => exact .nil trivial
  | _ => exact hsimple.elim

theorem empty : Follows F base C exit .empty p p := by
  intro vs as e hexec
  cases hexec with
  | empty => exact .nil rfl
  | simple h | cut h => exact h.elim

theorem breakLoop (hjump : C.Has p [.jump .jump l]) (hl : C.address? l = some A) (q : Nat) :
    Follows F base C (some l) .breakLoop p q := by
  intro vs as e hexec
  cases hexec with
  | breakLoop => exact ⟨[], A, .nil, (hjump.jump hl).passes, l, rfl, hl⟩
  | simple h | cut h => exact h.elim

theorem returnNone (h : Does F base C exit [.leave none] .returned p q) :
    Follows F base C exit .returnNone p q := by
  intro vs as e hexec
  cases hexec with
  | returnNone => exact h
  | simple h | cut h => exact h.elim

theorem returnValue {v : Expression} (h : Does F base C exit [.leave (some v)] .returned p q) :
    Follows F base C exit (.returnValue v) p q := by
  intro vs as e hexec
  cases hexec with
  | returnValue => exact h
  | simple h | cut h => exact h.elim

theorem ifThen (hb : Guards F base C b q p m) (hx : Follows F base C exit x m q) :
    Follows F base C exit (.ifThen b x) p q := by
  intro vs as e hexec
  cases hexec with
  | ifTrue hv h => exact (hx h).guarded hb hv
  | ifFalse hv => simpa using (Does.nil (e := .done) rfl).unguarded hb hv
  | cut _ => exact .nil trivial
  | simple h => exact h.elim

/-- Behind the first branch stands a jump past the second one. -/
theorem ifElse (hb : Guards F base C b (n + 3) p m) (hx : Follows F base C exit x m n)
    (hjump : C.Has n [.jump .jump l]) (hl : C.address? l = some q)
    (hy : Follows F base C exit y (n + 3) q) : Follows F base C exit (.ifElse b x y) p q := by
  intro vs as e hexec
  cases hexec with
  | @thenBranch _ _ _ _ _ _ _ hv h =>
    refine Does.guarded ?_ hb hv
    by_cases he : e = .done
    · subst he
      exact (hx h).jump hjump hl
    · exact (hx h).elsewhere he q
  | elseBranch hv h => exact (hy h).unguarded hb hv
  | cut _ => exact .nil trivial
  | simple h => exact h.elim

/-- Behind the body stands a jump back to the condition, and behind that the loop ends. -/
theorem whileLoop {top behind : Label} (hb : Guards F base C b (n + 3) p m)
    (hx : Follows F base C (some behind) x m n) (hjump : C.Has n [.jump .jump top])
    (htop : C.address? top = some p) (hbehind : C.address? behind = some (n + 3)) :
    Follows F base C exit (.whileLoop b x) p (n + 3) := by
  intro vs as e hexec
  generalize hloop : Statement.whileLoop b x = y at hexec
  induction hexec with
  | whileFalse hv =>
    obtain ⟨rfl, rfl⟩ := Statement.whileLoop.inj hloop
    simpa using (Does.nil (e := .done) rfl).unguarded hb hv
  | whileNext hv h _ _ ih =>
    obtain ⟨rfl, rfl⟩ := Statement.whileLoop.inj hloop
    obtain ⟨es, _, hshows, hpasses, rfl⟩ := (hx h).jump hjump htop
    exact (Does.trans ⟨es, _, hshows, hpasses, rfl⟩ (ih rfl)).guarded hb hv
  | whileBroken hv h _ =>
    obtain ⟨rfl, rfl⟩ := Statement.whileLoop.inj hloop
    obtain ⟨es, r, hshows, hpasses, l, hl, hr⟩ := hx h
    obtain rfl := Option.some.inj hl
    obtain rfl := Option.some.inj (hr.symm.trans hbehind)
    exact Does.guarded ⟨es, _, hshows, hpasses, rfl⟩ hb hv
  | @whileStopped _ _ _ _ _ e hv h he _ =>
    obtain ⟨rfl, rfl⟩ := Statement.whileLoop.inj hloop
    obtain ⟨es, r, hshows, hpasses, harrives⟩ := hx h
    have hne : e ≠ .done := by
      rintro rfl
      simp at he
    exact Does.guarded ⟨es, r, hshows, hpasses, (harrives.outside he).elsewhere hne _⟩ hb hv
  | cut _ => exact .nil trivial
  | simple h =>
    subst hloop
    exact h.elim
  | _ => simp at hloop

theorem block_nil : Follows F base C exit (.block .nil) p p := by
  intro vs as e hexec
  cases hexec with
  | blockNil => exact .nil rfl
  | simple h | cut h => exact h.elim

theorem block_cons (hx : Follows F base C exit x p m) (hxs : Follows F base C exit (.block xs) m q) :
    Follows F base C exit (.block (.cons x xs)) p q := by
  intro vs as e hexec
  cases hexec with
  | blockNext h h' => exact (hx h).trans (hxs h')
  | blockStopped h he => exact (hx h).elsewhere he q
  | simple h | cut h => exact h.elim

end Follows

end

/-! ### The productions of statements -/

namespace Places

open Production

variable {F : Frame} {base : Session} {p : Token.Kind → Prop} {exit : Option Label}

/-- The label behind the innermost loop, if there is one, has an address. -/
def Bound (C : Code) (exit : Option Label) : Prop := ∀ l, exit = some l → ∃ A, C.address? l = some A

/-- A statement has been read, and its code does what it does. -/
def Statement (F : Frame) (base : Session) (exit : Option Label) (C : Code) (v v' : View) : Prop :=
  ∃ x : Tree.Statement, v.ahead = x.yield ++ v'.ahead ∧ x.NearestElse ∧
    (x.EndsOpen → ∀ t ∈ v'.ahead.head?, t.kind ≠ .elseWord) ∧
      (Bound C exit → Follows F base C exit x v.here v'.here)

/-- A statement that does not end in an `if` has been read. -/
theorem Statement.closed {C : Code} {v v' : View} {x : Tree.Statement}
    (h : v.ahead = x.yield ++ v'.ahead) (hx : x.NearestElse) (hopen : ¬x.EndsOpen)
    (hfollows : Bound C exit → Follows F base C exit x v.here v'.here) :
    Statement F base exit C v v' :=
  ⟨x, h, hx, fun h => absurd h hopen, hfollows⟩

theorem simple {m : Production Unit} (hm : Emits F.straight (Holds 0 True) m fun _ => Holds 0 True)
    (hr : Reading F.setting p m fun _ => ReadsSimple m) :
    Places F base p m fun C _ => Statement F base exit C := by
  refine .post (.piece hm holds_none hr) ?_
  rintro C _ v v' ⟨⟨x, hx, hv⟩, js, hhere, hpiece⟩
  refine ⟨x, hv, ?_, ?_, fun _ => hhere ▸ .simple hx (hpiece _ hv)⟩
  all_goals cases x <;> first | trivial | exact fun h => h.elim

theorem leave (hF : F.Open) (exit : Option Label) : Places F base p (leave exit) fun C _ v v' =>
    ∃ l, exit = some l ∧ C.Has v.here [.jump .jump l] ∧ v' = ⟨v.here + 3, v.ahead⟩ := by
  rcases exit with _ | l
  · exact .report
  · refine .post (.jump hF l) ?_
    rintro C _ v v' ⟨hjump, hv⟩
    exact ⟨l, rfl, hjump, hv⟩

theorem breakStatement (hF : F.Open) :
    Places F base (· = .breakWord) (breakStatement exit) fun C _ => Statement F base exit C := by
  refine .post (.bind (.advance (by decide)) fun _ => .bind (.leave hF exit) fun _ =>
    .expect (by decide)) ?_
  rintro C _ v v' ⟨-, w, ⟨hword, hw⟩, -, _, ⟨l, rfl, hjump, rfl⟩, hsemicolon, -⟩
  have hsemicolon : w.ahead = .word .semicolon :: v'.ahead := hsemicolon
  refine .closed (x := .breakLoop) (by rw [hword, hsemicolon]; rfl) trivial id fun hbound => ?_
  obtain ⟨A, hA⟩ := hbound l rfl
  exact .breakLoop (hw ▸ hjump) hA _

theorem emit {op : Opcode} (hop : (Item.plain op []).Within F) :
    Places F base p (emit op) fun C _ v v' =>
      C.Has v.here [.plain op []] ∧ v' = ⟨v.here + op.size, v.ahead⟩ :=
  item hop fun _ _ hs => (Emission.succeeds_emit.1 hs)

theorem returnValue (t : TypeId) : Places F base p (returnValue t) fun C _ v v' =>
    ∃ e : Option Expression, v.ahead = e.elim [] Expression.yield ++ v'.ahead ∧
      ∃ type js, v'.here = v.here + codeSize js ∧
        Piece F base C (Production.returnValue type) (e.elim [] Expression.yield) v.here js := by
  refine .post (.piece (Emits.returnValue (q := True) t) holds_none reading_returnValue) ?_
  rintro C _ v v' ⟨hv, js, hhere, hpiece⟩
  rcases hv with hv | ⟨e, hv⟩
  · exact ⟨none, hv, t, js, hhere, hpiece [] hv⟩
  · exact ⟨some e, hv, t, js, hhere, hpiece _ hv⟩

theorem returnStatement (hF : F.Open) :
    Places F base (· = .returnWord) returnStatement fun C _ => Statement F base exit C := by
  have hexit : (Item.plain .exit []).Within F :=
    ⟨⟨rfl, rfl⟩, by simp [Item.opcode], fun _ _ hi => by simp at hi, fun _ hi => by simp at hi,
      fun _ => ⟨by decide, by decide⟩⟩
  have hret : (Item.plain .ret []).Within F :=
    ⟨⟨rfl, rfl⟩, by simp [Item.opcode], fun _ _ hi => by simp at hi, fun _ hi => by simp at hi,
      fun hn => by simp [hF.branches] at hn⟩
  refine .post (.bind (.advance (by decide)) fun _ => .look_bind (fun _ _ _ h => (runs_get.1 h).2)
    fun s => .bind (.returnValue s.returnType) fun _ => .bind (.emit hexit) fun _ =>
      .bind (.emit hret) fun _ => .expect (by decide)) ?_
  rintro C _ v v' ⟨-, w, ⟨hword, hw⟩, -, u, ⟨e, hu, _, js, hhere, hpiece⟩, -, _, ⟨hexit, rfl⟩, -, _,
    ⟨hret, rfl⟩, hsemicolon, hv'⟩
  have hsemicolon : u.ahead = .word .semicolon :: v'.ahead := hsemicolon
  rw [hw] at hpiece
  rw [hhere, hw] at hexit hret
  have hdoes : Does F base C exit [.leave e] .returned v.here v'.here := .leave hpiece hexit hret
  rcases e with _ | e
  · refine .closed (x := .returnNone) ?_ trivial id fun _ => .returnNone hdoes
    rw [hword, hu, hsemicolon]
    rfl
  · refine .closed (x := .returnValue e) ?_ trivial id fun _ => .returnValue hdoes
    rw [hword, hu, hsemicolon]
    simp [Tree.Statement.yield]

section Nested

variable {S : Option Label → Production Unit}
  (hS : ∀ exit p, Places F base p (S exit) fun C _ => Statement F base exit C)

include hS

theorem ifStatement (hF : F.Open) :
    Places F base (· = .ifWord) (ifStatement S exit) fun C _ => Statement F base exit C := by
  -- what stands behind the statement that the condition guards
  let R (b : Branch) (C : Code) (_ : Unit) (v v' : View) : Prop :=
    (v = v' ∧ (∀ t ∈ v.ahead.head?, t.kind ≠ .elseWord) ∧ C.address? b.whenFalse = some v.here) ∨
      ∃ l w, v.ahead = .word .elseWord :: w.ahead ∧ w.here = v.here + 3 ∧
        C.Has v.here [.jump .jump l] ∧ C.address? l = some v'.here ∧
          C.address? b.whenFalse = some (v.here + 3) ∧ Statement F base exit C w v'
  have hrest : ∀ b : Branch, Places F base (fun _ => True) (otherwise S exit b) (R b) := by
    intro b
    refine .check ?_ ?_
    · refine .post (.bind (.advance (by decide)) fun _ => .bind (.newLabel hF) fun l =>
        .bind (.jump hF l) fun _ => .bind (.define hF) fun _ =>
          .bind (hS exit _) fun _ => .define hF) ?_
      rintro C _ v v' ⟨-, w, ⟨hword, hw⟩, l, _, rfl, -, _, ⟨hjump, rfl⟩, -, _, ⟨rfl, hfalse⟩, -, _,
        hstatement, rfl, hl⟩
      rw [hw] at hjump hfalse
      exact .inr ⟨l, ⟨w.here + 3, w.ahead⟩, hword, congrArg (· + 3) hw, hjump, hl, hfalse, hstatement⟩
    · refine .post (.kind (.define hF)) ?_
      rintro C _ v v' ⟨⟨rfl, hfalse⟩, hkind⟩
      exact .inl ⟨rfl, fun t ht => (hkind t ht).2, hfalse⟩
  refine .post (.bind (.advance (by decide)) fun _ => .bind (.guardCondition hF) fun b =>
    .bind (hS exit _) fun _ => hrest b) ?_
  rintro C _ v v' ⟨-, w, ⟨hword, hw⟩, b, u, ⟨d, hd, hguards⟩, -, z,
    ⟨x, hx, hnearest, hopen, hfollows⟩, hz⟩
  rw [hw] at hguards
  rcases hz with ⟨rfl, helse, hfalse⟩ |
    ⟨l, z', helse, hz', hjump, hl, hfalse, y, hy, hnearest', hopen', hfollows'⟩
  · refine ⟨.ifThen d x, ?_, hnearest, fun _ => helse, fun hbound => ?_⟩
    · rw [hword, hd, hx]
      simp [Tree.Statement.yield]
    · exact .ifThen (hguards _ hfalse) (hfollows hbound)
  · have hclosed : ¬x.EndsOpen := fun h => hopen h _ (by rw [helse]; rfl) rfl
    refine ⟨.ifElse d x y, ?_, ⟨hclosed, hnearest, hnearest'⟩, hopen', fun hbound => ?_⟩
    · rw [hword, hd, hx, helse, hy]
      simp [Tree.Statement.yield]
    · exact .ifElse (hguards _ hfalse) (hfollows hbound) hjump hl (hz' ▸ hfollows' hbound)

theorem whileStatement (hF : F.Open) :
    Places F base (· = .whileWord) (whileStatement S) fun C _ => Statement F base exit C := by
  refine .post (.bind (.advance (by decide)) fun _ => .bind (.newLabel hF) fun top =>
    .bind (.define hF) fun _ => .bind (.guardCondition hF) fun b => .bind (.newLabel hF) fun exit =>
      .bind (hS (some exit) _) fun _ => .bind (.jump hF top) fun _ =>
        .bind (.define hF) fun _ => .define hF) ?_
  rintro C _ v v' ⟨-, w, ⟨hword, hw⟩, top, _, rfl, -, _, ⟨rfl, htop⟩, b, u, ⟨d, hd, hguards⟩, l, _,
    rfl, -, z, ⟨x, hx, hnearest, hopen, hfollows⟩, -, _, ⟨hjump, rfl⟩, -, _, ⟨rfl, hfalse⟩, rfl, hl⟩
  rw [hw] at htop hguards
  refine ⟨.whileLoop d x, ?_, hnearest, hopen, fun _ => ?_⟩
  · rw [hword, hd, hx]
    simp [Tree.Statement.yield]
  · have hbound : Bound C (some l) := fun l' hl' => ⟨_, Option.some.inj hl' ▸ hl⟩
    exact .whileLoop (hguards _ hfalse) (hfollows hbound) hjump htop hl

/-- A block has been read, and its code does what its statements do. -/
theorem blockOf : Places F base p (blockOf S exit) fun C _ v v' => ∃ xs : Statements,
    v.ahead = (Tree.Statement.block xs).yield ++ v'.ahead ∧ xs.NearestElse ∧
      (Bound C exit → Follows F base C exit (.block xs) v.here v'.here) := by
  let L : Code → View → View → Prop := fun C v v' => ∃ xs : Statements,
    v.ahead = xs.yield ++ v'.ahead ∧ xs.NearestElse ∧
      (Bound C exit → Follows F base C exit (.block xs) v.here v'.here)
  refine .post (.bind (.expect (by decide)) fun _ => .bind (.repeatWhile (L := L) ?_) fun _ =>
    .expect (by decide)) ?_
  · refine .peek fun k _ => ?_
    split
    · exact .pure fun _ _ => ⟨.nil, rfl, trivial, fun _ => .block_nil⟩
    · exact .pure fun _ _ => ⟨.nil, rfl, trivial, fun _ => .block_nil⟩
    · refine .post (.bind (hS exit _) fun _ => .returns) ?_
      rintro C _ v w ⟨-, _, ⟨x, hx, hnearest, -, hfollows⟩, rfl, rfl⟩ v' ⟨xs, hxs, hnearest', hrest⟩
      refine ⟨.cons x xs, ?_, ⟨hnearest, hnearest'⟩, fun hbound => ?_⟩
      · rw [hx, hxs]
        simp [Statements.yield]
      · exact .block_cons (hfollows hbound) (hrest hbound)
  · rintro C _ v v' ⟨-, w, ⟨hleft, hw⟩, -, u, ⟨xs, hxs, hnearest, hfollows⟩, hright, hv'⟩
    refine ⟨xs, ?_, hnearest, fun hbound => ?_⟩
    · rw [hleft, hxs, hright]
      simp [Tree.Statement.yield]
    · rw [← hw, hv']
      exact hfollows hbound

theorem statementOf (hF : F.Open) :
    Places F base p (statementOf S exit) fun C _ => Statement F base exit C := by
  refine .peek fun k _ => ?_
  split
  · exact .simple .designatorStatement reading_designatorStatement
  · exact .ifStatement hS hF
  · exact .whileStatement hS hF
  · exact .breakStatement hF
  · exact .returnStatement hF
  · exact .simple .readStatement reading_readStatement
  · exact .simple .printStatement reading_printStatement
  · refine .post (.blockOf hS) ?_
    rintro C _ v v' ⟨xs, hxs, hnearest, hfollows⟩
    exact .closed hxs hnearest id hfollows
  · refine .post (.advance (by decide)) ?_
    rintro C _ v v' ⟨hword, hhere⟩
    exact .closed (x := .empty) hword trivial id fun _ => hhere ▸ .empty
  · refine .post (.piece (Emits.recoverStatement (q := True)) holds_none
      (reading_recoverStatement (R := fun _ _ _ => False))) ?_
    exact fun _ _ _ _ h => h.1.elim

end Nested

theorem nestedStatement (hF : F.Open) : ∀ (depth : Nat) (exit : Option Label) p,
    Places F base p (nestedStatement depth exit) fun C _ => Statement F base exit C
  | 0, _, _ => .throw
  | depth + 1, _, _ => .statementOf (nestedStatement hF depth) hF

theorem block (hF : F.Open) : Places F base p block fun C _ v v' => ∃ xs : Statements,
    v.ahead = (Tree.Statement.block xs).yield ++ v'.ahead ∧ xs.NearestElse ∧
      Follows F base C none (.block xs) v.here v'.here := by
  refine .look_bind (fun _ _ _ h => (runs_read.1 h).2) fun c => .post (.blockOf
    (nestedStatement hF c.bound)) ?_
  rintro C _ v v' ⟨xs, hxs, hnearest, hfollows⟩
  exact ⟨xs, hxs, hnearest, hfollows fun l hl => by simp at hl⟩

end Places

/-- The code of a block that is read without a mistake does what its statements do, in their order,
and nothing else, for all values that the conditions find. It ends behind the block, or at the
instruction that leaves the method; it never breaks out of a loop around it. -/
theorem block_executes {c : Setting} {s s' : Session} {is : List Item} (hs : s.Consistent)
    (hlays : Lays s.assembly is) (hrun : Production.block.Runs c s () s')
    (hclean : s'.mistakes = s.mistakes) :
    ∃ js, Writes (s.frame c) s is js s' ∧ ∀ C : Code, C.Continues s'.assembly (is ++ js) →
      ∃ xs : Statements, s.ahead = (Statement.block xs).yield ++ s'.ahead ∧ xs.NearestElse ∧
        (∀ vs, (Statement.block xs).Executable vs) ∧
        ∀ vs as e, (Statement.block xs).Executes vs as e → e ≠ .broken ∧
          ∃ es r, Shows (s.frame c) s C as es ∧
            Control.Executes C.instructions (codeSize is) es r ∧
              Arrives C none (codeSize (is ++ js)) e r := by
  obtain ⟨js, hw, hr⟩ := (Places.block (s.open_frame c)).of_run hs hlays hrun hclean
  refine ⟨js, hw, fun C hC => ?_⟩
  obtain ⟨xs, hxs, hnearest, hfollows⟩ := hr C hC
  refine ⟨xs, hxs, hnearest, xs.executable, fun vs as e hexec => ?_⟩
  obtain ⟨es, r, hshows, hpasses, harrives⟩ := hfollows hexec
  refine ⟨?_, es, r, hshows, hpasses.executes C.apart, harrives⟩
  rintro rfl
  obtain ⟨l, hl, -⟩ := harrives
  simp at hl

theorem block_executes_loop :
    let c : Setting := ⟨{}, 40⟩
    let s := (Session.start (Token.scan
      "{ while (1 < 2) { print(1); if (2 != 3) break; else print(2); } return; }") {}).advance
    ∃ s' js, Production.block.Runs c s () s' ∧ s'.ahead = [] ∧ Writes (s.frame c) s [] js s' ∧
      ∀ C : Code, C.Continues s'.assembly js →
        ∃ xs : Statements, s.ahead = (Statement.block xs).yield ++ s'.ahead ∧ xs.NearestElse ∧
          (∀ vs, (Statement.block xs).Executable vs) ∧
          ∀ vs as e, (Statement.block xs).Executes vs as e → e ≠ .broken ∧
            ∃ es r, Shows (s.frame c) s C as es ∧ Control.Executes C.instructions 0 es r ∧
              Arrives C none (codeSize js) e r := by
  intro c s
  have hs : s.Consistent := ⟨(Session.Named.start _ _).advance, .initial, fun _ _ => rfl⟩
  have hok : (Production.block.outcome c s).1 = .ok () := by decide +kernel
  have hrun : Production.block.Runs c s () (Production.block.outcome c s).2 := Prod.ext hok rfl
  have hclean : (Production.block.outcome c s).2.mistakes = s.mistakes := by decide +kernel
  have hend : (Production.block.outcome c s).2.ahead = [] := by decide +kernel
  obtain ⟨js, hw, hr⟩ := block_executes hs .nil hrun hclean
  exact ⟨_, js, hrun, hend, hw, hr⟩

end MicroJava
