import MicroJava.Proofs.Operands

/-!
# What a block asks for

Every production inside a block asks for instructions within the bounds of the method, whether there are
mistakes or not: the places that designators give are within the bounds (`Asks.designator`), so what
loads and stores them is as well.
-/

namespace MicroJava

/-- Instructions within the bounds were asked for, and neither the bounds nor the variables have
changed. -/
structure Bounds.Follows (B : Bounds) (s s' : Session) : Prop where
  covers : B.Covers s'.table
  grows : B.Grows s.assembly s'.assembly
  allots : ∀ limit p, Allots limit p s s'
  mistakes : s.mistakes ≤ s'.mistakes

namespace Bounds.Follows

variable {B : Bounds} {s s₁ s' : Session}

theorem refl (h : B.Covers s.table) : B.Follows s s := ⟨h, .refl _, fun _ _ => .refl s, Nat.le_refl _⟩

theorem trans (h : B.Follows s s₁) (h' : B.Follows s₁ s') : B.Follows s s' :=
  ⟨h'.covers, h.grows.trans h'.grows, fun limit p => (h.allots limit p).trans (h'.allots limit p),
    Nat.le_trans h.mistakes h'.mistakes⟩

theorem of_idles (h : B.Covers s.table) (hs : s.Idles s') : B.Follows s s' where
  covers := hs.table ▸ h
  grows := hs.assembly ▸ .refl _
  allots := fun _ _ => .of_idles hs
  mistakes := hs.mistakes

theorem write (h : B.Covers s.table) {assembly : Assembly} (hg : B.Grows s.assembly assembly) :
    B.Follows s { s with assembly } :=
  ⟨h, hg, fun _ _ => .withAssembly hg.dataSize, Nat.le_refl _⟩

end Bounds.Follows

/-- A run of the production asks for instructions within the bounds, and its result is as `Q` says. -/
def Asks (c : Setting) (B : Bounds) {α : Type} (m : Production α) (Q : α → Prop) : Prop :=
  ∀ ⦃s a s'⦄, B.Covers s.table → m.Runs c s a s' → B.Follows s s' ∧ Q a

/-- The operand is within the bounds. -/
def Bounds.Holds (B : Bounds) (x : Operand) : Prop := B.Places x.place

/-- The variable that a name stands for is within the bounds. -/
theorem Bounds.Covers.holds_of_ofEntry {B : Bounds} {t : SymbolTable} (h : B.Covers t) {name : String}
    {id : EntryId} {e : Entry} {x : Operand} (hname : id = .none ∨ t.lookup? name = some id)
    (he : t.entryAt? id = some e) (hx : Operand.ofEntry id e = .ok x) : B.Holds x := by
  unfold Operand.ofEntry at hx
  split at hx
  · obtain rfl := Except.ok.inj hx
    trivial
  · next hid =>
    split at hx
    · obtain rfl := Except.ok.inj hx
      trivial
    · next slot level hmeaning =>
      obtain rfl := Except.ok.inj hx
      have hslot : t.slotAt? id = some (slot, level) := by
        rw [SymbolTable.slotAt?_of_entryAt? he, Entry.slot?, hmeaning]
      have hbound := h.names name id slot level (hname.resolve_left hid) hslot
      simp only [Bounds.Holds]
      split at hbound
      · rw [if_pos ‹_›]
        exact hbound
      · rw [if_neg ‹_›]
        exact hbound
    · obtain rfl := Except.ok.inj hx
      trivial
    · simp at hx
    · simp at hx

namespace Production

variable {c : Setting} {s s' : Session} {x y : Operand} {u : Unit}

theorem idles_findField {name : String} {t : TypeId} : Keeps c Session.Idles (findField name t) := by
  refine .bind (.look fun _ _ _ h => (runs_table.1 h).2) fun table => ?_
  split
  · exact .pure _
  · exact .bind idles_report fun _ => .pure _

theorem mem_of_runs_findField {name : String} {t : TypeId} {id : EntryId}
    (h : Runs c (findField name t) s id s') (hid : id ≠ .none) : id ∈ s.table.types.fields t := by
  simp only [findField, runs_bind, runs_table] at h
  obtain ⟨_, _, ⟨rfl, rfl⟩, h⟩ := h
  split at h
  · next hfound => exact (runs_pure.1 h).1 ▸ SymbolTable.mem_of_findField hfound
  · obtain ⟨_, s₁, -, h⟩ := runs_bind.1 h
    exact absurd (runs_pure.1 h).1 hid

theorem table_of_runs_load (h : Runs c (load x) s u s') : s'.table = s.table := by
  rcases runs_attempt.1 h with ⟨_, -, rfl⟩ | ⟨_, _, -, rfl⟩ <;> rfl

/-- The slot of a field is below the number of fields of its class. -/
theorem field_of_runs_fieldOf
    (hfields : ∀ ty i id, (s.table.types.fields ty)[i]? = some id →
      ∃ level, s.table.slotAt? id = some (i, level))
    (h : Runs c (fieldOf x) s y s') :
    y = .missing ∨ ∃ slot, y.place = .field slot ∧ slot < (s.table.types.fields x.type).length := by
  simp only [fieldOf, runs_bind, runs_descriptor, runs_ite, runs_entry] at h
  obtain ⟨d, s, ⟨-, rfl⟩, h⟩ := h
  split at h
  · obtain ⟨_, s₁, h₁, name, s₂, h₂, id, s₃, h₃, h⟩ := h
    have htable₂ : s₂.table = s.table := (idles_identifier h₂).table.trans (table_of_runs_load h₁)
    have htable₃ : s₃.table = s.table := (idles_findField h₃).table.trans htable₂
    split at h
    · exact .inl (runs_pure.1 h).1
    · next hid =>
      obtain ⟨e, _, ⟨he, rfl⟩, h⟩ := h
      obtain ⟨rfl, -⟩ := runs_pure.1 h
      have hmem := mem_of_runs_findField h₃ hid
      rw [htable₂] at hmem
      rw [htable₃] at he
      obtain ⟨i, hi⟩ := List.mem_iff_getElem?.1 hmem
      obtain ⟨level, hlevel⟩ := hfields x.type i id hi
      have haddress : e.address = i :=
        Entry.address_of_slot? ((SymbolTable.slotAt?_of_entryAt? he).symm.trans hlevel)
      exact .inr ⟨i, by rw [haddress], (List.getElem?_eq_some_iff.1 hi).1⟩
  · obtain ⟨_, _, -, _, _, -, h⟩ := h
    exact .inl (runs_pure.1 h).1

end Production

namespace Asks

open Production

variable {c : Setting} {B : Bounds} {α β : Type} {m m' : Production α} {Q Q' : α → Prop}

theorem pure {a : α} (h : Q a) : Asks c B (pure a) Q := by
  intro s b s' hc hrun
  obtain ⟨rfl, rfl⟩ := runs_pure.1 hrun
  exact ⟨.refl hc, h⟩

theorem bind {f : α → Production β} {R : β → Prop} (hm : Asks c B m Q)
    (hf : ∀ a, Q a → Asks c B (f a) R) : Asks c B (m >>= f) R := by
  intro s b s' hc hrun
  obtain ⟨a, s₁, hrun₁, hrun₂⟩ := runs_bind.1 hrun
  obtain ⟨hs₁, ha⟩ := hm hc hrun₁
  obtain ⟨hs', hb⟩ := hf a ha hs₁.covers hrun₂
  exact ⟨hs₁.trans hs', hb⟩

theorem throw {f : Fault} : Asks c B (throw f : Production α) Q :=
  fun _ _ _ _ hrun => absurd hrun runs_throw

theorem post (hm : Asks c B m Q) (h : ∀ a, Q a → Q' a) : Asks c B m Q' :=
  fun _ _ _ hc hrun => (hm hc hrun).imp id (h _)

theorem ite {p : Prop} [Decidable p] (hm : p → Asks c B m Q) (hm' : ¬p → Asks c B m' Q) :
    Asks c B (if p then m else m') Q := by
  split
  · next h => exact hm h
  · next h => exact hm' h

theorem discard (hm : Asks c B m Q) : Asks c B (discard m) fun _ => True := by
  intro s u s' hc hrun
  obtain ⟨a, hrun⟩ := runs_discard.1 hrun
  exact ⟨(hm hc hrun).1, trivial⟩

theorem map {f : α → β} {R : β → Prop} (hm : Asks c B m fun a => R (f a)) : Asks c B (f <$> m) R := by
  intro s b s' hc hrun
  obtain ⟨a, hrun', rfl⟩ := runs_map.1 hrun
  exact hm hc hrun'

theorem loop {body : α → Production (α ⊕ β)} {I : α → Prop} {R : β → Prop}
    (hbody : ∀ a, I a → Asks c B (body a) (Sum.elim I R)) {a : α} (ha : I a) :
    Asks c B (loop body a) R := by
  intro s b s' hc hrun
  replace hrun := turns_of_runs_loop hrun
  induction hrun with
  | last h => exact hbody _ ha hc h
  | next h _ ih =>
    obtain ⟨hs₁, ha'⟩ := hbody _ ha hc h
    obtain ⟨hs', hb⟩ := ih ha' hs₁.covers
    exact ⟨hs₁.trans hs', hb⟩

theorem repeatWhile {body : Production Bool} (hbody : Asks c B body fun _ => True) :
    Asks c B (repeatWhile body) fun _ => True := by
  refine loop (I := fun _ => True) (fun _ _ => .bind hbody fun b _ => .pure ?_) trivial
  cases b <;> trivial

/-! ### Productions that write nothing -/

theorem idle (h : Keeps c Session.Idles m) : Asks c B m fun _ => True :=
  fun _ _ _ hc hrun => ⟨.of_idles hc (h hrun), trivial⟩

theorem look (h : ∀ s a s', Runs c m s a s' → s' = s) : Asks c B m fun _ => True :=
  idle (.look h)

theorem get : Asks c B get fun _ => True := look fun _ _ _ h => (runs_get.1 h).2

theorem read : Asks c B read fun _ => True := look fun _ _ _ h => (runs_read.1 h).2

theorem table : Asks c B table fun _ => True := look fun _ _ _ h => (runs_table.1 h).2

theorem peek : Asks c B peek fun _ => True := idle .peek

theorem check {k : Token.Kind} : Asks c B (check k) fun _ => True := idle .check

theorem checkAny {ks : Token.KindSet} : Asks c B (checkAny ks) fun _ => True := idle .checkAny

theorem advance : Asks c B advance fun _ => True := idle idles_advance

theorem literal : Asks c B literal fun _ => True := idle (.bind idles_advance fun _ => .bind .get fun _ => .pure _)

theorem report {p : Problem} {details : List String} : Asks c B (report p details) fun _ => True :=
  idle idles_report

theorem reportIf {mistake : Prop} [Decidable mistake] {p : Problem} {details : List String} :
    Asks c B (reportIf mistake p details) fun _ => True :=
  idle idles_reportIf

theorem resume : Asks c B resume fun _ => True := idle idles_resume

theorem expect {k : Token.Kind} : Asks c B (expect k) fun _ => True := idle idles_expect

theorem takeIf {k : Token.Kind} : Asks c B (takeIf k) fun _ => True :=
  .bind .check fun _ _ => .ite (fun _ => .advance) fun _ => .pure trivial

theorem identifier : Asks c B identifier fun _ => True := idle idles_identifier

theorem entry {id : EntryId} : Asks c B (entry id) fun _ => True := idle idles_entry

theorem descriptor {t : TypeId} : Asks c B (descriptor t) fun _ => True :=
  look fun _ _ _ h => (runs_descriptor.1 h).2

theorem findField {name : String} {t : TypeId} : Asks c B (findField name t) fun _ => True :=
  idle idles_findField

theorem namedType : Asks c B namedType fun _ => True := idle idles_namedType

theorem fits {x : Operand} {t : TypeId} : Asks c B (fits x t) fun _ => True :=
  .bind (.discard .descriptor) fun _ _ => .bind (.discard .descriptor) fun _ _ =>
    .bind .table fun _ _ => .pure trivial

theorem comparable {a b : TypeId} : Asks c B (comparable a b) fun _ => True :=
  .bind (.discard .descriptor) fun _ _ => .bind (.discard .descriptor) fun _ _ =>
    .bind .table fun _ _ => .pure trivial

theorem arrayOf {t : TypeId} : Asks c B (arrayOf t) fun _ => True := by
  intro s t' s' hc hrun
  have hallots : ∀ limit p, Allots limit p s s' := fun _ _ => allots_arrayOf hrun
  obtain ⟨-, rfl⟩ := runs_arrayOf.1 hrun
  exact ⟨⟨hc.arrayOf t, .refl _, hallots, Nat.le_refl _⟩, trivial⟩

/-! ### Productions that write -/

theorem write {e : Emission Fault α} (h : Orders B e) : Asks c B (write e) fun _ => True := by
  intro s a s' hc hrun
  obtain ⟨assembly, hs, rfl⟩ := runs_write.1 hrun
  have hg := h s.assembly
  rw [hs] at hg
  exact ⟨.write hc hg, trivial⟩

theorem attempt {e : Emission Problem Unit} (h : Orders B e) : Asks c B (attempt e) fun _ => True := by
  intro s u s' hc hrun
  have hg := h s.assembly
  rcases runs_attempt.1 hrun with ⟨assembly, hs, rfl⟩ | ⟨p, assembly, hs, rfl⟩
  · rw [hs] at hg
    exact ⟨.write hc hg, trivial⟩
  · rw [hs] at hg
    exact ⟨(Bounds.Follows.write hc hg).trans (.of_idles hc ⟨rfl, rfl, by simp⟩), trivial⟩

theorem emit {op : Opcode} (h : (op.isBare && !op.isRelative) = true) :
    Asks c B (emit op) fun _ => True :=
  .write (.bare h)

theorem load {x : Operand} (hx : B.Holds x) : Asks c B (load x) fun _ => True := .attempt (.load hx)

/-- What succeeds in writing jumps, calls and labels. -/
theorem writeTo {e : Emission Fault α} (h : ∀ a x a', e.Succeeds a x a' → B.Grows a a') :
    Asks c B (Production.write e) fun _ => True := by
  intro s a s' hc hrun
  obtain ⟨assembly, hs, rfl⟩ := runs_write.1 hrun
  exact ⟨.write hc (h _ _ _ hs), trivial⟩

theorem newLabel : Asks c B (Production.write Emission.newLabel) fun _ => True :=
  .writeTo fun a l a' hs => by
    rw [Emission.Succeeds, Emission.outcome_newLabel, Prod.mk.injEq] at hs
    exact hs.2 ▸ .newLabel

theorem define {l : Label} : Asks c B (Production.write (Emission.define l)) fun _ => True :=
  .writeTo fun _ _ _ hs => .define hs

theorem jump {l : Label} : Asks c B (Production.write (Emission.jump l)) fun _ => True :=
  .writeTo fun _ _ _ hs => .jump (show Opcode.jump.isJump from rfl) hs

theorem jumpIfFalse {b : Branch} : Asks c B (Production.write (Emission.jumpIfFalse b)) fun _ => True :=
  .writeTo fun _ _ _ hs => .jump (by cases b.comparison <;> rfl) hs

theorem jumpIfTrue {b : Branch} : Asks c B (Production.write (Emission.jumpIfTrue b)) fun _ => True :=
  .writeTo fun _ _ _ hs => .jump (by cases b.comparison <;> rfl) hs

theorem callTo {address : Nat} : Asks c B (Production.write (Emission.call address)) fun _ => True :=
  .writeTo fun _ _ _ hs => .call hs

theorem mapM {f : α → Production β} (hf : ∀ a, Asks c B (f a) fun _ => True) (as : List α) :
    Asks c B (as.mapM f) fun _ => True := by
  induction as with
  | nil => exact .pure trivial
  | cons a as ih =>
    rw [List.mapM_cons]
    exact .bind (hf a) fun _ _ => .bind ih fun _ _ => .pure trivial

/-! ### Designators -/

/-- A name that stands for a variable stands for one within the bounds. -/
theorem namedOperand : Asks c B namedOperand B.Holds := by
  intro s x s' hc hrun
  simp only [Production.namedOperand, runs_bind, runs_entry] at hrun
  obtain ⟨name, s₁, h₁, id, s₂, h₂, e, s₃, ⟨he, rfl⟩, hrun⟩ := hrun
  have hidles : s.Idles s₃ := (idles_identifier h₁).trans (idles_find h₂)
  have hname : id = .none ∨ s.table.lookup? name = some id := by
    rcases runs_find.1 h₂ with ⟨-, rfl, -⟩ | ⟨-, -, rfl, -⟩ | ⟨-, hl, -⟩
    · exact .inl rfl
    · exact .inl rfl
    · exact .inr (by rwa [← (idles_identifier h₁).table])
  have hs : s.Idles s' ∧ B.Holds x := by
    split at hrun
    · next y hy =>
      obtain ⟨rfl, rfl⟩ := runs_pure.1 hrun
      exact ⟨hidles, hc.holds_of_ofEntry hname (hidles.table ▸ he) hy⟩
    · obtain ⟨_, s₄, h₄, h₅⟩ := runs_bind.1 hrun
      obtain ⟨rfl, rfl⟩ := runs_pure.1 h₅
      exact ⟨hidles.trans (idles_report h₄), trivial⟩
  exact ⟨.of_idles hc hs.1, hs.2⟩

theorem fieldOf {x : Operand} (hx : B.Holds x) : Asks c B (fieldOf x)
    fun y => y = .missing ∨ ∃ slot, y.place = .field slot ∧ slot < B.size x.type := by
  have hfollows : Asks c B (Production.fieldOf x) fun _ => True := by
    refine .bind .descriptor fun d _ => .ite (fun _ => .bind (.load hx) fun _ _ => ?_) fun _ => ?_
    · refine .bind .identifier fun name _ => .bind .findField fun id _ => .ite (fun _ => .pure trivial) ?_
      exact fun _ => .bind .entry fun e _ => .pure trivial
    · exact .bind .report fun _ _ => .bind (.discard .identifier) fun _ _ => .pure trivial
  intro s y s' hc hrun
  refine ⟨(hfollows hc hrun).1, ?_⟩
  rw [hc.size]
  exact field_of_runs_fieldOf hc.fields hrun

section Nested

variable {expression : Production Operand}

theorem loadInteger (he : Asks c B expression B.Holds) {p : Problem} :
    Asks c B (loadInteger expression p) fun _ => True :=
  .bind he fun _ hx => .bind .reportIf fun _ _ => .load hx

theorem elementOf (he : Asks c B expression B.Holds) {x : Operand} (hx : B.Holds x) :
    Asks c B (elementOf expression x) B.Holds := by
  refine .bind .descriptor fun d _ => .bind (.ite (fun _ => .load hx) fun _ => .report) fun _ _ => ?_
  refine .bind (.loadInteger he) fun _ _ => .bind .expect fun _ _ => .pure ?_
  split <;> trivial

theorem designatorStep (he : Asks c B expression B.Holds) {x : Operand} (hx : B.Holds x) :
    Asks c B (designatorStep expression x) (Sum.elim B.Holds B.Holds) := by
  refine .bind .peek fun k _ => ?_
  split
  · refine .bind .advance fun _ _ => .bind (.fieldOf hx) fun y hy => .pure ?_
    rcases hy with rfl | ⟨slot, hplace, hslot⟩
    · trivial
    · show B.Places y.place
      rw [hplace]
      exact ⟨x.type, hslot⟩
  · exact .bind .advance fun _ _ => .bind (.elementOf he hx) fun y hy => .pure hy
  · exact .pure hx

/-- A designator gives a place within the bounds. -/
theorem designator (he : Asks c B expression B.Holds) : Asks c B (designator expression) B.Holds :=
  .bind .namedOperand fun _ hx => .loop (fun _ hy => .designatorStep he hy) hx

/-! ### Calls -/

theorem afterMember {count : Nat} : Asks c B (afterMember count) fun _ => True :=
  .bind .check fun _ _ => .ite (fun _ => .bind .advance fun _ _ => .pure trivial) fun _ => .pure trivial

theorem checkArgument {x : Operand} {t : Option TypeId} :
    Asks c B (checkArgument x t) fun _ => True := by
  rcases t with _ | t
  · exact .pure trivial
  · exact .bind .fits fun _ _ => .reportIf

theorem argument (he : Asks c B expression B.Holds) {s : Signature} {count : Nat} :
    Asks c B (argument expression s count) fun _ => True :=
  .bind he fun _ hx => .bind .checkArgument fun _ _ => .bind (.load hx) fun _ _ => .afterMember

theorem packArgument (he : Asks c B expression B.Holds) {count : Nat} {element : Option TypeId} :
    Asks c B (packArgument expression count element) fun _ => True := by
  rcases element with _ | t
  · exact .discard he
  · refine .bind (.emit rfl) fun _ _ => .bind (.write (.constant _)) fun _ _ => .bind he fun x hx => ?_
    exact .bind .checkArgument fun _ _ => .bind (.load hx) fun _ _ => .write (.storeElement t)

theorem extraArgument (he : Asks c B expression B.Holds) {element : Option TypeId} {count : Nat} :
    Asks c B (extraArgument expression element count) fun _ => True :=
  .bind (.packArgument he) fun _ _ => .afterMember

theorem members {member : Nat → Production (Nat ⊕ Nat)}
    (hm : ∀ count, Asks c B (member count) fun _ => True) :
    Asks c B (members member) fun _ => True := by
  refine .bind .checkAny fun _ _ => .ite (fun _ => ?_) fun _ => .pure trivial
  refine .loop (I := fun _ => True) (fun count _ => .post (hm count) ?_) trivial
  rintro (_ | _) - <;> trivial

theorem announcement : Asks c B announcement fun _ => True := by
  refine .bind .check fun _ _ => .ite (fun _ => ?_) fun _ => ?_
  · exact .bind .literal fun _ _ => .pure trivial
  · exact .bind .expect fun _ _ => .pure trivial

theorem newArrayOf {length : Int32} {element : Option TypeId} :
    Asks c B (newArrayOf length element) fun _ => True := by
  rcases element with _ | t
  · exact .pure trivial
  · exact .write (.newArray _ t)

theorem checkCount {wanted : Option Nat} {count : Nat} {tooFew tooMany : Problem} :
    Asks c B (checkCount wanted count tooFew tooMany) fun _ => True := by
  rcases wanted with _ | n
  · exact .pure trivial
  · exact .ite (fun _ => .report) fun _ => .ite (fun _ => .report) fun _ => .pure trivial

theorem extraArguments (he : Asks c B expression B.Holds) {element : Option TypeId} :
    Asks c B (extraArguments expression element) fun _ => True :=
  .bind .advance fun _ _ => .bind .announcement fun _ _ => .bind .newArrayOf fun _ _ =>
    .bind (.members fun _ => .extraArgument he) fun _ _ => .checkCount

theorem variablePart (he : Asks c B expression B.Holds) {isMethod : Bool} {extra : Option TypeId} :
    Asks c B (variablePart expression isMethod extra) fun _ => True :=
  .bind .check fun _ _ =>
    .ite (fun _ => .bind .reportIf fun _ _ => .extraArguments he) fun _ => .newArrayOf

theorem callee {x : Operand} : Asks c B (callee x) fun _ => True := by
  unfold Production.callee
  split
  · exact .bind .entry fun _ _ => .pure trivial
  · exact .pure trivial

theorem signature {m : Method} : Asks c B (signature m) fun _ => True := by
  have hextra : ∀ (variadic : Bool) (last : Option TypeId),
      Asks c B (extraType variadic last) fun _ => True := by
    intro variadic last
    unfold extraType
    split
    · exact .map (.map (.post .descriptor fun _ _ => trivial))
    · exact .pure trivial
  refine .bind (.mapM (fun id => ?_) m.leading) fun _ _ => .bind (hextra _ _) fun _ _ => .pure trivial
  exact .bind .entry fun _ _ => .pure trivial

theorem targetSignature {target : Option (EntryId × Method)} :
    Asks c B (targetSignature target) fun _ => True := by
  rcases target with _ | ⟨id, m⟩
  · exact .pure trivial
  · exact .signature

theorem invoke {id : EntryId} {m : Method} : Asks c B (invoke id m) fun _ => True := by
  unfold Production.invoke
  split
  · exact .emit rfl
  · exact .pure trivial
  · exact .pure trivial
  · exact .callTo

/-- A call leaves a value on the stack. -/
theorem result {t : TypeId} {target : Option (EntryId × Method)} :
    Asks c B (result t target) B.Holds := by
  rcases target with _ | ⟨id, m⟩
  · exact .pure trivial
  · exact .bind .invoke fun _ _ => .pure trivial

theorem call (he : Asks c B expression B.Holds) {x : Operand} :
    Asks c B (call expression x) B.Holds :=
  .bind .callee fun _ _ => .bind .reportIf fun _ _ => .bind .expect fun _ _ =>
    .bind .targetSignature fun _ _ => .bind (.members fun _ => .argument he) fun _ _ =>
    .bind .checkCount fun _ _ => .bind (.variablePart he) fun _ _ => .bind .expect fun _ _ => .result

/-! ### Expressions -/

theorem arrayCreation (he : Asks c B expression B.Holds) {t : TypeId} :
    Asks c B (arrayCreation expression t) B.Holds :=
  .bind .advance fun _ _ => .bind (.loadInteger he) fun _ _ => .bind .expect fun _ _ =>
    .bind (.write (.newArray none t)) fun _ _ => .bind .arrayOf fun _ _ => .pure trivial

/-- A new object has room for the fields of its class. -/
theorem objectCreation {t : TypeId} : Asks c B (objectCreation t) B.Holds := by
  intro s x s' hc hrun
  obtain ⟨d, s₁, h₁, h₂⟩ := runs_bind.1 hrun
  obtain ⟨hd, rfl⟩ := runs_descriptor.1 h₁
  have hsize : d.fields.length = B.size t := by
    rw [hc.size, Types.fields, hd]
    rfl
  have hnew : Asks c B (Production.write (Emission.newObject d.fields.length)) fun _ => True := by
    rw [hsize]
    exact .write (.emit (.newObject t) rfl)
  refine Asks.ite (fun _ => .bind hnew fun _ _ => .pure ?_)
    (fun _ => .bind .reportIf fun _ _ => .pure ?_) hc h₂ <;> trivial

theorem creation (he : Asks c B expression B.Holds) : Asks c B (creation expression) B.Holds :=
  .bind .namedType fun _ _ => .bind .check fun _ _ =>
    .ite (fun _ => .arrayCreation he) fun _ => .objectCreation

theorem designatorFactor (he : Asks c B expression B.Holds) :
    Asks c B (designatorFactor expression) B.Holds :=
  .bind (.designator he) fun _ hx => .bind .check fun _ _ =>
    .ite (fun _ => .bind .reportIf fun _ _ => .call he) fun _ => .pure hx

theorem factor (he : Asks c B expression B.Holds) : Asks c B (factor expression) B.Holds := by
  refine .bind .peek fun k _ => ?_
  split
  · exact .designatorFactor he
  · exact .bind .literal fun _ _ => .pure trivial
  · exact .bind .literal fun _ _ => .pure trivial
  · exact .bind .advance fun _ _ => .creation he
  · exact .bind .advance fun _ _ => .bind he fun x hx => .bind .expect fun _ _ => .pure hx
  · exact .bind .report fun _ _ => .pure trivial

/-- An instruction that combines two values has no operands. -/
def Plain (operator? : Token.Kind → Option Opcode) : Prop :=
  ∀ k op, operator? k = some op → (op.isBare && !op.isRelative) = true

theorem chain {operator? : Token.Kind → Option Opcode} (hop : Plain operator?)
    {first operand : Production Operand} (hf : Asks c B first B.Holds) (ho : Asks c B operand B.Holds) :
    Asks c B (do Production.loop (Production.operation operator? operand) (← first)) B.Holds := by
  refine .bind hf fun x hx => .loop (fun x hx => .bind .peek fun k _ => ?_) hx
  split
  · exact .pure hx
  · next op hk =>
    refine .bind .advance fun _ _ => .bind (.load hx) fun _ _ => .bind ho fun y hy => ?_
    refine .bind (.load hy) fun _ _ => .bind .reportIf fun _ _ => .bind (.emit (hop k op hk)) fun _ _ => ?_
    exact .pure trivial

theorem plain_multiplying : Plain multiplying? := by
  intro k op h
  unfold multiplying? at h
  split at h <;> cases h <;> rfl

theorem plain_adding : Plain adding? := by
  intro k op h
  unfold adding? at h
  split at h <;> cases h <;> rfl

theorem term (he : Asks c B expression B.Holds) : Asks c B (term expression) B.Holds :=
  chain plain_multiplying (.factor he) (.factor he)

theorem negate {x : Operand} (hx : B.Holds x) : Asks c B (negate x) B.Holds := by
  refine .ite (fun _ => .bind .report fun _ _ => .pure hx) fun _ => ?_
  split
  · exact .pure trivial
  · exact .bind (.load hx) fun _ _ => .bind (.emit rfl) fun _ _ => .pure trivial

theorem firstTerm (he : Asks c B expression B.Holds) : Asks c B (firstTerm expression) B.Holds :=
  .bind .check fun _ _ =>
    .ite (fun _ => .bind .advance fun _ _ => .bind (.term he) fun _ hx => .negate hx) fun _ => .term he

theorem sum (he : Asks c B expression B.Holds) : Asks c B (sum expression) B.Holds :=
  chain plain_adding (.firstTerm he) (.term he)

end Nested

theorem nestedExpression : ∀ depth, Asks c B (nestedExpression depth) B.Holds
  | 0 => .throw
  | depth + 1 => .sum (nestedExpression depth)

/-- An expression gives a value that is within the bounds, where it is not on the stack. -/
theorem expression : Asks c B expression B.Holds := .bind .read fun _ _ => .nestedExpression _

/-! ### Conditions -/

theorem comparison : Asks c B comparison fun _ => True := by
  refine .bind .peek fun k _ => ?_
  split
  · exact .bind .advance fun _ _ => .pure trivial
  · exact .bind .report fun _ _ => .pure trivial

theorem checkComparison {x y : Operand} {o : Option Comparison} :
    Asks c B (checkComparison x y o) fun _ => True :=
  .bind .comparable fun _ _ =>
    .ite (fun _ => .bind .descriptor fun _ _ => .reportIf) fun _ => .report

theorem test {whenTrue whenFalse : Label} : Asks c B (test whenTrue whenFalse) fun _ => True :=
  .bind .expression fun _ hx => .bind (.load hx) fun _ _ => .bind .comparison fun _ _ =>
    .bind .expression fun _ hy => .bind (.load hy) fun _ _ => .bind .checkComparison fun _ _ =>
    .pure trivial

theorem conjunction {whenTrue : Label} : Asks c B (conjunction whenTrue) fun _ => True := by
  refine .bind .newLabel fun _ _ => .bind .test fun _ _ => .loop (I := fun _ => True) (fun _ _ => ?_) trivial
  refine .bind .check fun _ _ => .ite (fun _ => ?_) fun _ => .pure trivial
  exact .bind .advance fun _ _ => .bind .jumpIfFalse fun _ _ => .bind .test fun _ _ => .pure trivial

theorem condition : Asks c B condition fun _ => True := by
  refine .bind .newLabel fun _ _ =>
    .bind .conjunction fun _ _ => .loop (I := fun _ => True) (fun _ _ => ?_) trivial
  refine .bind .check fun _ _ => .ite (fun _ => ?_) fun _ => .pure trivial
  exact .bind .advance fun _ _ => .bind .jumpIfTrue fun _ _ => .bind .define fun _ _ =>
    .bind .conjunction fun _ _ => .pure trivial

/-! ### Statements -/

theorem loadOldValue {x : Operand} (hx : B.Holds x) {operator : Option Opcode} :
    Asks c B (loadOldValue x operator) fun _ => True :=
  .ite (fun _ => .pure trivial) fun _ => .ite (fun _ => .attempt (.loadForUpdate hx)) fun _ => .report

theorem plain_assignment {k : Token.Kind} {operator : Option Opcode}
    (h : assignmentOf? k = some operator) :
    ∀ op, operator = some op → (op.isBare && !op.isRelative) = true := by
  unfold assignmentOf? at h
  split at h <;> cases h <;> rintro op ⟨⟩ <;> rfl

theorem assignment {x : Operand} (hx : B.Holds x) {operator : Option Opcode}
    (hop : ∀ op, operator = some op → (op.isBare && !op.isRelative) = true) :
    Asks c B (assignment x operator) fun _ => True :=
  .bind (.loadOldValue hx) fun _ _ => .bind .expression fun _ hy => .bind .reportIf fun _ _ =>
    .bind .fits fun _ _ => .ite (fun _ => .attempt (.assign hop hx hy)) fun _ => .report

theorem increment {x : Operand} (hx : B.Holds x) {step : Int32} (hstep : step = 1 ∨ step = -1) :
    Asks c B (increment x step) fun _ => True := by
  refine .ite (fun _ => .report) fun _ => ?_
  split
  · next slot hplace =>
    have hslot : slot < B.slots := by simpa [Bounds.Holds, Bounds.Places, hplace] using hx
    exact .write (.emit (.inc hslot (by rcases hstep with rfl | rfl <;> decide)) rfl)
  · exact .attempt (.incrementPlace hx step)

theorem callAlone {x : Operand} : Asks c B (callAlone x) fun _ => True :=
  .bind (.call .expression) fun _ _ => .ite (fun _ => .emit rfl) fun _ => .pure trivial

theorem designatorAction {x : Operand} (hx : B.Holds x) :
    Asks c B (designatorAction x) fun _ => True := by
  refine .bind .peek fun k _ => ?_
  split
  · next operator hk => exact .bind .advance fun _ _ => .assignment hx (plain_assignment hk)
  · split
    · exact .callAlone
    · exact .bind .advance fun _ _ => .increment hx (.inl rfl)
    · exact .bind .advance fun _ _ => .increment hx (.inr rfl)
    · exact .report

theorem designatorStatement : Asks c B designatorStatement fun _ => True :=
  .bind (.designator .expression) fun _ hx => .bind (.designatorAction hx) fun _ _ => .expect

theorem guardCondition : Asks c B guardCondition fun _ => True :=
  .bind .expect fun _ _ => .bind .condition fun _ _ => .bind .expect fun _ _ =>
    .bind .jumpIfFalse fun _ _ => .bind .define fun _ _ => .pure trivial

theorem leave {exit : Option Label} : Asks c B (leave exit) fun _ => True := by
  rcases exit with _ | label
  · exact .report
  · exact .jump

theorem breakStatement {exit : Option Label} : Asks c B (breakStatement exit) fun _ => True :=
  .bind .advance fun _ _ => .bind .leave fun _ _ => .expect

theorem returnOperand {x : Operand} (hx : B.Holds x) {t : TypeId} :
    Asks c B (returnOperand x t) fun _ => True :=
  .ite (fun _ => .report) fun _ => .bind .fits fun _ _ => .bind (.load hx) fun _ _ => .reportIf

theorem returnValue {t : TypeId} : Asks c B (returnValue t) fun _ => True :=
  .bind .checkAny fun _ _ =>
    .ite (fun _ => .bind .expression fun _ hx => .returnOperand hx) fun _ => .reportIf

theorem returnStatement : Asks c B returnStatement fun _ => True :=
  .bind .advance fun _ _ => .bind .get fun _ _ => .bind .returnValue fun _ _ =>
    .bind (.emit rfl) fun _ _ => .bind (.emit rfl) fun _ _ => .expect

theorem plain_inputOutput {t : TypeId} {input output : Opcode}
    (h : inputOutput? t = some (input, output)) :
    (input.isBare && !input.isRelative) = true ∧ (output.isBare && !output.isRelative) = true := by
  unfold inputOutput? at h
  repeat' split at h
  all_goals cases h
  all_goals exact ⟨rfl, rfl⟩

theorem readInto {x : Operand} (hx : B.Holds x) : Asks c B (readInto x) fun _ => True := by
  unfold Production.readInto
  split
  · next h => exact .bind (.emit (plain_inputOutput h).1) fun _ _ => .attempt (.store hx)
  · exact .report

theorem readStatement : Asks c B readStatement fun _ => True :=
  .bind .advance fun _ _ => .bind .expect fun _ _ => .bind (.designator .expression) fun _ hx =>
    .bind (.readInto hx) fun _ _ => .bind .expect fun _ _ => .expect

theorem printWidth : Asks c B printWidth fun _ => True := by
  refine .bind .read fun _ _ => .bind .check fun _ _ => .ite (fun _ => ?_) fun _ => .pure trivial
  refine .bind .advance fun _ _ => .bind .check fun _ _ => .ite (fun _ => .literal) fun _ => ?_
  exact .bind .expect fun _ _ => .pure trivial

theorem emitPrint {t : TypeId} : Asks c B (emitPrint t) fun _ => True := by
  unfold Production.emitPrint
  split
  · next h => exact .emit (plain_inputOutput h).2
  · exact .pure trivial

theorem printStatement : Asks c B printStatement fun _ => True :=
  .bind .advance fun _ _ => .bind .expect fun _ _ => .bind .expression fun _ hx =>
    .bind .reportIf fun _ _ => .bind (.load hx) fun _ _ => .bind .printWidth fun v _ =>
    .bind (.write (.constant v)) fun _ _ => .bind .emitPrint fun _ _ => .bind .expect fun _ _ => .expect

theorem recoverStatement : Asks c B recoverStatement fun _ => True :=
  .bind .report fun _ _ => .bind (.repeatWhile (.bind .advance fun _ _ => .bind .checkAny fun _ _ =>
    .pure trivial)) fun _ _ => .bind .takeIf fun _ _ => .resume

section Nested

variable {statement : Option Label → Production Unit}

theorem ifStatement (hs : ∀ exit, Asks c B (statement exit) fun _ => True) (exit : Option Label) :
    Asks c B (ifStatement statement exit) fun _ => True := by
  refine .bind .advance fun _ _ => .bind .guardCondition fun _ _ => .bind (hs exit) fun _ _ => ?_
  refine .bind .check fun _ _ => .ite (fun _ => ?_) fun _ => .define
  exact .bind .advance fun _ _ => .bind .newLabel fun _ _ => .bind .jump fun _ _ =>
    .bind .define fun _ _ => .bind (hs exit) fun _ _ => .define

theorem whileStatement (hs : ∀ exit, Asks c B (statement exit) fun _ => True) :
    Asks c B (whileStatement statement) fun _ => True :=
  .bind .advance fun _ _ => .bind .newLabel fun _ _ => .bind .define fun _ _ =>
    .bind .guardCondition fun _ _ => .bind .newLabel fun exit _ => .bind (hs (some exit)) fun _ _ =>
    .bind .jump fun _ _ => .bind .define fun _ _ => .define

theorem blockOf (hs : ∀ exit, Asks c B (statement exit) fun _ => True) (exit : Option Label) :
    Asks c B (blockOf statement exit) fun _ => True := by
  refine .bind .expect fun _ _ => .bind (.repeatWhile (.bind .peek fun k _ => ?_)) fun _ _ => .expect
  split
  · exact .pure trivial
  · exact .pure trivial
  · exact .bind (hs exit) fun _ _ => .pure trivial

theorem statementOf (hs : ∀ exit, Asks c B (statement exit) fun _ => True) (exit : Option Label) :
    Asks c B (statementOf statement exit) fun _ => True := by
  refine .bind .peek fun k _ => ?_
  split
  · exact .designatorStatement
  · exact .ifStatement hs exit
  · exact .whileStatement hs
  · exact .breakStatement
  · exact .returnStatement
  · exact .readStatement
  · exact .printStatement
  · exact .blockOf hs exit
  · exact .advance
  · exact .recoverStatement

end Nested

theorem nestedStatement : ∀ depth exit, Asks c B (nestedStatement depth exit) fun _ => True
  | 0, _ => .throw
  | depth + 1, exit => .statementOf (nestedStatement depth) exit

/-- A block asks for instructions within the bounds of its method. -/
theorem block : Asks c B block fun _ => True :=
  .bind .read fun _ _ => .blockOf (.nestedStatement _) none

end Asks

end MicroJava
