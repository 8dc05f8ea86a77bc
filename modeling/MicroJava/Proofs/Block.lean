import MicroJava.Production.Statement
import MicroJava.Proofs.Access

/-!
# Blocks keep the stack balanced

Every production inside a block emits, in the sense of `Emits`: an expression leaves the stack as deep
as its operand wants (`Emits.expression`), a condition leaves the two values that its last test
compares (`Emits.condition`), and a statement leaves the stack empty as it finds it
(`Emits.statement`).
-/

namespace MicroJava

variable {F : Frame} {n : Nat} {q : Prop}

/-- A method that an operand stands for gives a value of the operand's type. -/
def Frame.Knows (F : Frame) (x : Operand) : Prop :=
  ∀ id, x.place = .method id → ∃ e, F.entries[id.index]? = some e ∧ e.type = x.type

namespace Emits

open Production

variable {P : Option Nat → Prop}

/-! ### Symbols -/

theorem entry (id : EntryId) : Emits F P (entry id)
    fun e x => (F.entries[id.index]? = some e ∧ e.Sound) ∧ P x :=
  .look fun s e s' hc hrun => by
    obtain ⟨he, rfl⟩ := runs_entry.1 hrun
    exact ⟨rfl, hc.entries ▸ he, hc.sound.entryAt? he⟩

theorem descriptor (t : TypeId) : Emits F P (descriptor t) fun _ => P :=
  (look fun _ _ _ _ hrun => ⟨(runs_descriptor.1 hrun).2, trivial⟩).post fun _ _ => And.right

theorem arrayOf (t : TypeId) : Emits F P (arrayOf t) fun _ => P :=
  .move fun _ _ _ x _ hrun hx => ⟨x, (runs_arrayOf.1 hrun).2 ▸ .arrayOf t, hx⟩

/-- A name that is found stands for an entry of its own. -/
theorem find (name : String) :
    Emits F (Holds n (name ≠ "" ∧ q)) (find name) fun id => Holds n (id ≠ .none ∧ q) := by
  refine .ite (fun hname => .pure fun x hx => hx.imp fun h => absurd hname h.1) fun _ => ?_
  intro s id s' x hc hrun hx
  simp only [runs_bind, runs_table] at hrun
  obtain ⟨_, s₁, ⟨rfl, rfl⟩, hrun⟩ := hrun
  rcases hl : s₁.table.lookup? name with _ | id'
  · simp only [SymbolTable.find, hl, runs_bind, runs_report] at hrun
    obtain ⟨_, _, rfl, hrun⟩ := hrun
    obtain ⟨-, rfl⟩ := runs_pure.1 hrun
    exact ⟨none, (Move.report _ _).steps, holds_none⟩
  · simp only [SymbolTable.find, hl, runs_pure] at hrun
    obtain ⟨rfl, rfl⟩ := hrun
    exact ⟨x, .refl, hx.imp fun h => ⟨hc.sound.lookup? hl, h.2⟩⟩

theorem findField (name : String) (t : TypeId) :
    Emits F (Holds n q) (findField name t) fun id => Holds n (id ≠ .none ∧ q) := by
  intro s id s' x hc hrun hx
  simp only [Production.findField, runs_bind, runs_table] at hrun
  obtain ⟨_, _, ⟨rfl, rfl⟩, hrun⟩ := hrun
  unfold SymbolTable.findField at hrun
  split at hrun
  · next id' hfind =>
    split at hfind
    · next hl =>
      obtain rfl := Except.ok.inj hfind
      obtain ⟨rfl, rfl⟩ := runs_pure.1 hrun
      exact ⟨x, .refl, hx.imp fun h => ⟨hc.sound.fields t _ (List.mem_of_find?_eq_some hl), h⟩⟩
    · simp at hfind
  · next p _ =>
    simp only [runs_bind, runs_report] at hrun
    obtain ⟨_, _, rfl, hrun⟩ := hrun
    obtain ⟨-, rfl⟩ := runs_pure.1 hrun
    exact ⟨none, (Move.report _ _).steps, holds_none⟩

theorem fits (x : Operand) (t : TypeId) : Emits F P (fits x t) fun _ => P := by
  refine .bind (.discard (.descriptor _)) fun _ => .bind (.discard (.descriptor _)) fun _ => ?_
  exact .bind ((look fun _ _ _ _ hrun => ⟨(runs_table.1 hrun).2, trivial⟩).post fun _ _ => And.right)
    fun _ => .pure fun _ => id

theorem comparable (a b : TypeId) : Emits F P (comparable a b) fun _ => P := by
  refine .bind (.discard (.descriptor _)) fun _ => .bind (.discard (.descriptor _)) fun _ => ?_
  exact .bind ((look fun _ _ _ _ hrun => ⟨(runs_table.1 hrun).2, trivial⟩).post fun _ _ => And.right)
    fun _ => .pure fun _ => id

/-- A type that is named is a type. -/
theorem namedType : Emits F (Holds n q) namedType fun t => Holds n (t ≠ .none ∧ q) := by
  refine .bind .identifier fun name => .bind (.find name) fun id => .bind (.entry id) fun e => ?_
  refine .and_left fun ⟨he, hsound⟩ => .ite (fun htype => ?_) fun _ => ?_
  · refine .pure fun x hx => hx.imp fun h => ⟨?_, h.2⟩
    unfold Entry.isType at htype
    unfold Entry.Sound at hsound
    split at htype
    · next hm => simpa [hm] using hsound
    · simp at htype
  · refine .bind .reportIf fun _ => .pure fun x hx => hx.imp fun h => ?_
    exact absurd h.2.1 h.1

/-! ### Designators -/

theorem namedOperand : Emits F (Holds n q) namedOperand
    fun x => Holds (n + x.depth) (F.Knows x ∧ q) := by
  refine .bind .identifier fun name => .bind (.find name) fun id => .bind (.entry id) fun e => ?_
  refine .and_left fun ⟨he, _⟩ => ?_
  split
  · next x hx =>
    refine .pure fun d hd k hk => ?_
    obtain ⟨rfl, hid, hq⟩ := hd k hk
    rw [Operand.ofEntry, if_neg hid] at hx
    split at hx
    all_goals
      first
        | obtain rfl := Except.ok.inj hx
        | simp at hx
    · exact ⟨rfl, fun id' h => by simp at h, hq⟩
    · refine ⟨?_, fun id' h => ?_, hq⟩
      · split <;> rfl
      · simp only at h
        split at h <;> simp at h
    · refine ⟨rfl, fun id' h => ?_, hq⟩
      obtain rfl := Place.method.inj h
      exact ⟨e, he, rfl⟩
  · exact .bind (.report (n := n) (q := False)) fun _ => .pure fun _ => .of_false

theorem fieldOf (x : Operand) : Emits F (Holds (n + x.depth) q) (fieldOf x)
    fun y => Holds (n + y.depth) (F.Knows y ∧ q) := by
  refine .bind (.descriptor _) fun d => .ite (fun _ => ?_) fun _ => ?_
  · refine .bind (.load x) fun _ => .bind .identifier fun name => .bind (.findField name _) fun id => ?_
    refine .ite (fun hid => ?_) fun _ => .bind (.entry id) fun e => .and_left fun _ => ?_
    · exact .pure fun d hd => fun k hk => absurd hid (hd k hk).2.1
    · exact .pure fun d hd => hd.imp fun h => ⟨fun id' h' => by simp at h', h.2.2⟩
  · refine .bind (.report (n := n) (q := False)) fun _ => ?_
    have hname : Emits F (Holds n False) (Functor.discard Production.identifier)
        fun _ => Holds n False := .discard (post identifier fun _ x hx => hx.imp And.right)
    exact .bind hname fun _ => .pure fun _ => .of_false

/-- A production that leaves what its operand keeps. -/
def Leaves (F : Frame) (m : Production Operand) : Prop :=
  ∀ n q, Emits F (Holds n q) m fun x => Holds (n + x.depth) q

section Nested

variable {expression : Production Operand}

theorem loadArray (d : Descriptor) (x : Operand) :
    Emits F (Holds (n + x.depth) q) (loadArray d x) fun _ => Holds (n + 1) (d.isArray ∧ q) := by
  refine .ite (fun hd => ?_) fun _ => .report
  exact (load x).post fun _ y hy => hy.imp fun h => ⟨hd, h⟩

theorem loadInteger (he : Leaves F expression) (mistake : Problem) :
    Emits F (Holds n q) (loadInteger expression mistake) fun _ => Holds (n + 1) q := by
  refine .bind (he n q) fun x => .bind .reportIf fun _ => ?_
  exact (load x).post fun _ y hy => hy.imp And.right

theorem elementOf (he : Leaves F expression) (x : Operand) :
    Emits F (Holds (n + x.depth) q) (elementOf expression x)
      fun y => Holds (n + y.depth) (F.Knows y ∧ q) := by
  refine .bind (.descriptor _) fun d => .bind (.loadArray d x) fun _ => ?_
  refine .bind (.loadInteger he _) fun _ => .bind .expect fun _ => .pure fun y hy k hk => ?_
  obtain ⟨rfl, hd, hq⟩ := hy k hk
  rw [if_pos hd]
  exact ⟨rfl, fun id h => by simp at h, hq⟩

theorem designator (he : Leaves F expression) : Emits F (Holds n q) (designator expression)
    fun x => Holds (n + x.depth) (F.Knows x ∧ q) := by
  refine .bind .namedOperand fun x =>
    .loop (I := fun x => Holds (n + x.depth) (F.Knows x ∧ q)) (fun x => .bind .peek fun k => ?_) x
  split
  · exact .bind .advance fun _ => .bind (.fieldOf x) fun y =>
      .pure fun d hd => hd.imp fun h => ⟨h.1, h.2.2⟩
  · exact .bind .advance fun _ => .bind (.elementOf he x) fun y =>
      .pure fun d hd => hd.imp fun h => ⟨h.1, h.2.2⟩
  · exact .pure fun _ => id

/-! ### Calls -/

theorem mapM {α β : Type} {f : α → Production β} (hf : ∀ a, Emits F P (f a) fun _ => P) :
    ∀ l : List α, Emits F P (l.mapM f) fun bs x => bs.length = l.length ∧ P x
  | [] => .pure fun x hx => ⟨rfl, hx⟩
  | a :: l => by
    rw [List.mapM_cons]
    refine .bind (hf a) fun b => .bind (mapM hf l) fun bs => .pure fun x hx => ⟨?_, hx.2⟩
    rw [List.length_cons, List.length_cons, hx.1]

/-- The signature of a method has a place for each of its parameters. -/
def Suits (s : Signature) (m : Method) : Prop :=
  s.fixed = m.fixed ∧ s.fixed + s.extra.isSome.toNat = m.parameters

theorem extraType (variadic : Bool) (last : Option TypeId) :
    Emits F P (extraType variadic last) fun extra x =>
      extra.isSome = (variadic && last.isSome) ∧ P x := by
  rcases variadic with _ | _
  · exact .pure fun x hx => ⟨rfl, hx⟩
  · rcases last with _ | type
    · exact .pure fun x hx => ⟨rfl, hx⟩
    · exact .map (.map (.post (.descriptor type) fun _ x hx => ⟨rfl, hx⟩))

theorem signature {m : Method} (hm : m.parameters ≤ m.locals.length) :
    Emits F P (signature m) fun s x => Suits s m ∧ P x := by
  refine .bind (.mapM (fun id => .bind (.entry id) fun e =>
    .and_left fun _ => .pure fun _ hx => hx) m.leading) fun ts => .and_left fun hts => ?_
  have hlength : ts.length = m.parameters := by
    rw [hts, Method.leading, List.length_take, Nat.min_eq_left hm]
  refine .bind (.extraType _ _) fun extra => .and_left fun hextra =>
    .pure fun x hx => ⟨⟨rfl, ?_⟩, hx⟩
  simp only [hextra, Method.fixed]
  rcases m.variadic with _ | _
  · rfl
  · rcases ts with _ | ⟨t, ts⟩
    · simp at hlength
      simp [← hlength]
    · simp at hlength
      simp [← hlength]

theorem checkArgument (x : Operand) (t : Option TypeId) :
    Emits F (Holds n q) (checkArgument x t) fun _ => Holds n q := by
  rcases t with _ | t
  · exact .pure fun _ => id
  · exact .bind (.fits x t) fun _ => .post .reportIf fun _ y hy => hy.imp And.right

/-- The members of a list, where `g` tells the depth from their number. -/
theorem members {member : Nat → Production (Nat ⊕ Nat)} {g : Nat → Nat}
    (hm : ∀ count, Emits F (Holds (g count) q) (member count)
      fun r => Holds (g (Sum.elim id id r)) q) :
    Emits F (Holds (g 0) q) (members member) fun count => Holds (g count) q := by
  refine .bind .checkAny fun _ => .ite (fun _ => ?_) fun _ => .pure fun _ hx => hx
  refine .loop (I := fun count => Holds (g count) q) (fun count => .post (hm count) ?_) 0
  rintro (count' | count') x hx <;> exact hx

theorem afterMember (count : Nat) :
    Emits F P (afterMember count) fun r x => Sum.elim id id r = count ∧ P x := by
  refine .bind .check fun _ => .ite (fun _ => ?_) fun _ => .pure fun x hx => ⟨rfl, hx⟩
  exact .bind .advance fun _ => .pure fun x hx => ⟨rfl, hx⟩

/-- Each argument stays on the stack. -/
theorem argument (he : Leaves F expression) (s : Signature) (count : Nat) :
    Emits F (Holds (n + count) q) (argument expression s count)
      fun r => Holds (n + Sum.elim id id r) q := by
  refine .bind (he _ q) fun x => .bind (.checkArgument x _) fun _ => .bind (.load x) fun _ => ?_
  refine .post (.afterMember (count + 1)) fun r y ⟨hr, hy⟩ => ?_
  rw [hr]
  exact hy

/-- Each variable argument goes into the array on the stack. -/
theorem packArgument (he : Leaves F expression) (count : Nat) (element : Option TypeId) :
    Emits F (Holds (n + 1) (element.isSome ∧ q)) (packArgument expression count element)
      fun _ => Holds (n + 1) (element.isSome ∧ q) := by
  rcases element with _ | type
  · refine .discard (.post (he (n + 1) _) fun x y hy => ?_)
    exact fun k hk => absurd (hy k hk).2.1 (by simp)
  · have hdup : Straight .dup [] 1 2 := .of_counts rfl rfl rfl
    refine .bind (.emit hdup) fun _ => .bind (.write (.constant _)) fun _ => ?_
    refine .bind (he _ _) fun x => .bind (.checkArgument x _) fun _ => .bind (.load x) fun _ => ?_
    exact .write (.storeElement type)

theorem extraArgument (he : Leaves F expression) (element : Option TypeId) (count : Nat) :
    Emits F (Holds (n + 1) (element.isSome ∧ q)) (extraArgument expression element count)
      fun _ => Holds (n + 1) (element.isSome ∧ q) :=
  .bind (.packArgument he count element) fun _ => .post (.afterMember _) fun _ _ => And.right

theorem newArrayOf (length : Int32) (element : Option TypeId) :
    Emits F (Holds n q) (newArrayOf length element)
      fun _ => Holds (n + element.isSome.toNat) q := by
  rcases element with _ | type
  · exact .pure fun _ => id
  · exact .write (.newArray (some length) type)

theorem checkCount (wanted : Option Nat) (count : Nat) (tooFew tooMany : Problem) :
    Emits F (Holds n q) (checkCount wanted count tooFew tooMany)
      fun _ => Holds n ((∀ w, wanted = some w → count = w) ∧ q) := by
  rcases wanted with _ | w
  · exact .pure fun x hx => hx.imp fun h => ⟨fun w hw => by simp at hw, h⟩
  · refine .ite (fun _ => .report) fun hge => .ite (fun _ => .report) fun hle => ?_
    refine .pure fun x hx => hx.imp fun h => ⟨fun w' hw => ?_, h⟩
    obtain rfl := Option.some.inj hw
    omega

theorem announcement : Emits F (Holds n q) announcement fun _ => Holds n q := by
  refine .bind .check fun _ => .ite (fun _ => ?_) fun _ => ?_
  · exact .bind .literal fun _ => .pure fun _ => id
  · exact .bind .expect fun _ => .pure fun _ => id

theorem extraArguments (he : Leaves F expression) (element : Option TypeId) :
    Emits F (Holds n (element.isSome ∧ q)) (extraArguments expression element)
      fun _ => Holds (n + element.isSome.toNat) q := by
  refine .bind .advance fun _ => .bind .announcement fun announced => ?_
  refine .bind (Q := fun _ => Holds (n + 1) (element.isSome ∧ q))
    (.post (.newArrayOf _ element) fun _ x hx k hk => ?_) fun _ => ?_
  · obtain ⟨rfl, hsome, hq⟩ := hx k hk
    simp [hsome, hq]
  · refine .bind (.members (g := fun _ => n + 1) (.extraArgument he element)) fun count => ?_
    refine .post (.checkCount _ _ _ _) fun _ x hx k hk => ?_
    obtain ⟨rfl, -, hsome, hq⟩ := hx k hk
    simp [hsome, hq]

theorem variablePart (he : Leaves F expression) {isMethod : Bool} (extra : Option TypeId) :
    Emits F (Holds n (isMethod ∧ q)) (variablePart expression isMethod extra)
      fun _ => Holds (n + extra.isSome.toNat) q := by
  refine .bind .check fun _ => .ite (fun _ => ?_) fun _ => ?_
  · refine .bind .reportIf fun _ => .pre (.extraArguments he extra) fun x hx => hx.imp fun h => ?_
    obtain ⟨hnone, hmethod, hq⟩ := h
    refine ⟨?_, hq⟩
    simpa [hmethod, Option.isSome_iff_ne_none] using hnone
  · exact .post (.newArrayOf 0 extra) fun _ x hx => hx.imp And.right

/-- What is called is the method that an operand stands for. -/
def Calls (F : Frame) (x : Operand) (target : Option (EntryId × Method)) : Prop :=
  ∀ id m, target = some (id, m) → x.place = .method id ∧
    ∃ e, F.entries[id.index]? = some e ∧ e.method? = some m ∧ m.parameters ≤ m.locals.length

theorem callee (x : Operand) : Emits F P (callee x) fun target y => Calls F x target ∧ P y := by
  unfold Production.callee
  split
  · next id hplace =>
    refine .bind (.entry id) fun e => .and_left fun ⟨he, hsound⟩ => .pure fun y hy => ⟨?_, hy⟩
    intro id' m hm
    obtain ⟨m', hm', heq⟩ := Option.map_eq_some_iff.1 hm
    obtain ⟨rfl, rfl⟩ := Prod.mk.inj heq
    refine ⟨hplace, e, he, hm', ?_⟩
    unfold Entry.method? at hm'
    unfold Entry.Sound at hsound
    split at hm'
    · next hmeaning =>
      obtain rfl := Option.some.inj hm'
      simpa [hmeaning] using hsound
    · simp at hm'
  · exact .pure fun y hy => ⟨fun _ _ h => by simp at h, hy⟩

theorem targetSignature {x : Operand} {target : Option (EntryId × Method)}
    (ht : Calls F x target) : Emits F P (targetSignature target)
      fun s y => (∀ id m, target = some (id, m) → Suits s m) ∧ P y := by
  rcases target with _ | ⟨id, m⟩
  · exact .pure fun y hy => ⟨fun _ _ h => by simp at h, hy⟩
  · obtain ⟨-, e, -, -, hm⟩ := ht id m rfl
    refine .post (.signature hm) fun s y ⟨hs, hy⟩ => ⟨?_, hy⟩
    rintro id' m' ⟨⟩
    exact hs

/-- A predeclared method has one parameter and gives a value, which is what its instructions do. -/
theorem invoke {id : EntryId} {e : Entry} {m : Method} (he : F.entries[id.index]? = some e)
    (hm : e.method? = some m) : Emits F (Holds (n + m.parameters) q) (invoke id m)
      fun _ => Holds (n + (decide (e.type ≠ .none)).toNat) q := by
  unfold Production.invoke
  rcases hid : Builtin.ofId? id with _ | b
  · have hcallee : F.callees m.address m.parameters (decide (e.type ≠ .none)) :=
      ⟨id, e, m, he, hm, hid, rfl, rfl, rfl⟩
    exact .callTo hcallee
  · refine .of_covers fun s hc => ?_
    obtain ⟨e', m', he', hm', htype, hparameters, -⟩ := hc.predeclared.builtin b
    rw [SymbolTable.entryAt?, hc.entries, Builtin.id_of_ofId? hid, he] at he'
    obtain rfl := Option.some.inj he'
    rw [hm] at hm'
    obtain rfl := Option.some.inj hm'
    rw [hparameters, decide_eq_true htype]
    cases b
    · exact .pure fun _ hx => hx
    · exact .pure fun _ hx => hx
    · have hlength : Straight .arrayLength [] 1 1 := .of_counts rfl rfl rfl
      exact .emit hlength

theorem result {x : Operand} {target : Option (EntryId × Method)} (ht : Calls F x target) :
    Emits F (Holds (n + (target.elim 0 fun t => t.2.parameters)) (target.isSome ∧ F.Knows x ∧ q))
      (result x.type target) fun y => Holds (n + (decide (x.type ≠ .none)).toNat)
        ((∃ id, x.place = .method id) ∧ y = .onStack x.type ∧ q) := by
  rcases target with _ | ⟨id, m⟩
  · exact .pure fun y hy k hk => absurd (hy k hk).2.1 (by simp)
  · obtain ⟨hplace, e, he, hm, -⟩ := ht id m rfl
    refine .bind (.invoke he hm) fun _ => .pure fun y hy k hk => ?_
    obtain ⟨rfl, -, hknows, hq⟩ := hy k hk
    obtain ⟨e', he', htype⟩ := hknows id hplace
    rw [he] at he'
    obtain rfl := Option.some.inj he'
    rw [htype]
    exact ⟨rfl, ⟨id, hplace⟩, rfl, hq⟩

/-- A call leaves the value of the method, if it gives one. -/
theorem call (he : Leaves F expression) (x : Operand) :
    Emits F (Holds (n + x.depth) (F.Knows x ∧ q)) (call expression x)
      fun y => Holds (n + (decide (x.type ≠ .none)).toNat)
        ((∃ id, x.place = .method id) ∧ y = .onStack x.type ∧ q) := by
  refine .bind (.callee x) fun target => .and_left fun ht => ?_
  refine .bind (Q := fun _ => Holds (n + 0) (target.isSome ∧ F.Knows x ∧ q))
    (.post .reportIf fun _ y hy k hk => ?_) fun _ => ?_
  · obtain ⟨rfl, hsome, hq⟩ := hy k hk
    rcases target with _ | ⟨id, m⟩
    · simp at hsome
    · exact ⟨by simp [Operand.depth, (ht id m rfl).1], rfl, hq⟩
  refine .bind .expect fun _ => .bind (.targetSignature ht) fun s => .and_left fun hs => ?_
  refine .bind (.members (g := fun count => n + count) (.argument he s)) fun count => ?_
  refine .bind (.checkCount _ _ _ _) fun _ => ?_
  refine .bind (Q := fun _ => Holds (n + (target.elim 0 fun t => t.2.parameters))
    (target.isSome ∧ F.Knows x ∧ q)) ?_ fun _ => .bind .expect fun _ => .result ht
  refine .post (.pre (.variablePart he s.extra) fun y hy => hy.imp fun h => ⟨h.2.1, h⟩) ?_
  intro _ y hy k hk
  obtain ⟨rfl, hcount, hsome, hq⟩ := hy k hk
  obtain ⟨⟨id, m⟩, rfl⟩ := Option.isSome_iff_exists.1 hsome
  obtain ⟨-, hfixed⟩ := hs id m rfl
  have hcount : count = s.fixed := hcount _ rfl
  refine ⟨?_, hsome, hq⟩
  show n + count + _ = n + m.parameters
  omega

/-! ### Expressions -/

theorem arrayCreation (he : Leaves F expression) (t : TypeId) :
    Emits F (Holds n q) (arrayCreation expression t) fun x => Holds (n + x.depth) q := by
  refine .bind .advance fun _ => .bind (.loadInteger he _) fun _ => .bind .expect fun _ => ?_
  refine .bind (.write (.newArray none t)) fun _ => .bind (.arrayOf t) fun t' => ?_
  exact .pure fun _ hx => hx

theorem objectCreation (t : TypeId) :
    Emits F (Holds n (t ≠ .none ∧ q)) (objectCreation t) fun x => Holds (n + x.depth) q := by
  refine .bind (.descriptor t) fun d => .ite (fun _ => ?_) fun _ => ?_
  · refine .bind (.write (.newObject _)) fun _ => .pure fun x hx => hx.imp And.right
  · refine .bind .reportIf fun _ => .pure fun x hx k hk => ?_
    exact absurd (hx k hk).2.2.1 (hx k hk).2.1

theorem creation (he : Leaves F expression) :
    Emits F (Holds n q) (creation expression) fun x => Holds (n + x.depth) q := by
  refine .bind .namedType fun t => .bind .check fun _ => .ite (fun _ => ?_) fun _ => .objectCreation t
  exact .pre (.arrayCreation he t) fun x hx => hx.imp And.right

theorem designatorFactor (he : Leaves F expression) :
    Emits F (Holds n q) (designatorFactor expression) fun x => Holds (n + x.depth) q := by
  refine .bind (.designator he) fun x => .bind .check fun _ => .ite (fun _ => ?_) fun _ => ?_
  · refine .bind .reportIf fun _ =>
      .post (.pre (.call he x (q := ¬x.isVoidMethod ∧ q)) fun y hy => hy.imp fun h => ?_) ?_
    · exact ⟨h.2.1, h.1, h.2.2⟩
    · intro y d hd k hk
      obtain ⟨rfl, ⟨id, hplace⟩, rfl, hvoid, hq⟩ := hd k hk
      have htype : x.type ≠ .none := by simpa [Operand.isVoidMethod, hplace] using hvoid
      rw [decide_eq_true htype]
      exact ⟨rfl, hq⟩
  · exact .pure fun d hd => hd.imp And.right

theorem factor (he : Leaves F expression) : Leaves F (factor expression) := by
  intro n q
  refine .bind .peek fun k => ?_
  split
  · exact .designatorFactor he
  · exact .bind .literal fun v => .pure fun _ hx => hx
  · exact .bind .literal fun v => .pure fun _ hx => hx
  · exact .bind .advance fun _ => .creation he
  · exact .bind .advance fun _ => .bind (he n q) fun x => .bind .expect fun _ => .pure fun _ hx => hx
  · exact .bind (.report (n := n) (q := False)) fun _ => .pure fun _ => .of_false

theorem operation {operator? : Token.Kind → Option Opcode}
    (hop : ∀ k op, operator? k = some op → Straight op [] 2 1) {operand : Production Operand}
    (ho : Leaves F operand) (x : Operand) :
    Emits F (Holds (n + x.depth) q) (operation operator? operand x)
      fun r => Holds (n + (Sum.elim id id r).depth) q := by
  refine .bind .peek fun k => ?_
  split
  · exact .pure fun _ hx => hx
  · next op hk =>
    refine .bind .advance fun _ => .bind (.load x) fun _ => .bind (ho (n + 1) q) fun y => ?_
    refine .bind (.load y) fun _ => .bind .reportIf fun _ => .bind (.combine (hop k op hk)) fun _ => ?_
    exact .pure fun _ hx => hx.imp And.right

theorem chain {operator? : Token.Kind → Option Opcode}
    (hop : ∀ k op, operator? k = some op → Straight op [] 2 1) {first operand : Production Operand}
    (hf : Leaves F first) (ho : Leaves F operand) :
    Leaves F (do Production.loop (Production.operation operator? operand) (← first)) := by
  intro n q
  refine .bind (hf n q) fun x => .loop (I := fun x => Holds (n + x.depth) q) (fun x => ?_) x
  refine .post (.operation hop ho x) ?_
  rintro (y | y) d hd <;> exact hd

theorem straight_multiplying {k : Token.Kind} {op : Opcode} (h : multiplying? k = some op) :
    Straight op [] 2 1 := by
  unfold multiplying? at h
  split at h <;> cases h <;> exact .of_counts rfl rfl rfl

theorem straight_adding {k : Token.Kind} {op : Opcode} (h : adding? k = some op) :
    Straight op [] 2 1 := by
  unfold adding? at h
  split at h <;> cases h <;> exact .of_counts rfl rfl rfl

theorem term (he : Leaves F expression) : Leaves F (term expression) :=
  chain (fun _ _ => straight_multiplying) (.factor he) (.factor he)

theorem negate (x : Operand) :
    Emits F (Holds (n + x.depth) q) (negate x) fun y => Holds (n + y.depth) q := by
  have hneg : Straight .neg [] 1 1 := .of_counts rfl rfl rfl
  refine .ite (fun _ => ?_) fun _ => ?_
  · exact .bind (.report (n := n) (q := False)) fun _ => .pure fun _ => .of_false
  · split
    · next v hv =>
      refine .pure fun d hd => ?_
      have hdepth : x.depth = 0 := by
        unfold Operand.constant? at hv
        split at hv
        · next hplace => simp [Operand.depth, hplace]
        · simp at hv
      rwa [hdepth] at hd
    · exact .bind (.load x) fun _ => .bind (.emit hneg) fun _ => .pure fun _ hx => hx

theorem firstTerm (he : Leaves F expression) : Leaves F (firstTerm expression) := by
  intro n q
  refine .bind .check fun _ => .ite (fun _ => ?_) fun _ => .term he n q
  exact .bind .advance fun _ => .bind (.term he n q) fun x => .negate x

theorem sum (he : Leaves F expression) : Leaves F (sum expression) :=
  chain (fun _ _ => straight_adding) (.firstTerm he) (.term he)

end Nested

theorem nestedExpression : ∀ depth, Leaves F (nestedExpression depth)
  | 0 => fun _ _ => .throw
  | depth + 1 => .sum (nestedExpression depth)

/-- An expression leaves what its operand keeps. -/
theorem expression : Leaves F expression := fun n q =>
  .bind ((look fun _ _ _ _ hrun => ⟨(runs_read.1 hrun).2, trivial⟩).post fun _ _ => And.right)
    fun _ => .nestedExpression _ n q

/-! ### Conditions -/

theorem comparison : Emits F (Holds n q) comparison fun _ => Holds n q := by
  refine .bind .peek fun k => ?_
  split
  · exact .bind .advance fun _ => .pure fun _ hx => hx
  · exact .bind .report fun _ => .pure fun _ hx => hx

theorem checkComparison (x y : Operand) (c : Option Comparison) :
    Emits F (Holds n q) (checkComparison x y c) fun _ => Holds n q := by
  refine .bind (.comparable _ _) fun _ => .ite (fun _ => ?_) fun _ => .report
  exact .bind (.descriptor _) fun _ => .post .reportIf fun _ x hx => hx.imp And.right

/-- A test leaves the two values that it compares. -/
theorem test (whenTrue whenFalse : Label) : Emits F (Holds 0 q) (test whenTrue whenFalse)
    fun b x => (b.whenTrue = whenTrue ∧ b.whenFalse = whenFalse) ∧ Holds 2 q x := by
  refine .bind (.expression 0 q) fun x => .bind (.load x) fun _ => .bind .comparison fun c => ?_
  refine .bind (.expression 1 q) fun y => .bind (.load y) fun _ => ?_
  exact .bind (.checkComparison x y c) fun _ => .pure fun d hd => ⟨⟨rfl, rfl⟩, hd⟩

/-- The jumps of a condition go to labels of the method. -/
def Branches (F : Frame) (whenTrue : Label) (b : Branch) : Prop :=
  b.whenTrue = whenTrue ∧ F.firstLabel ≤ b.whenFalse.index

theorem conjunction (hF : F.branches) (whenTrue : Label) : Emits F (Holds 0 q) (conjunction whenTrue)
    fun b x => Branches F whenTrue b ∧ Holds 2 q x := by
  refine .bind (.newLabel hF) fun whenFalse => .and_left fun hlabel => .bind (.test _ _) fun b => ?_
  refine .post (.loop (I := fun b x => (b.whenTrue = whenTrue ∧ b.whenFalse = whenFalse) ∧ Holds 2 q x)
    (R := fun b x => (b.whenTrue = whenTrue ∧ b.whenFalse = whenFalse) ∧ Holds 2 q x) (fun b => ?_) b) ?_
  · refine .and_left fun hb => .bind .check fun _ => .ite (fun _ => ?_) fun _ => ?_
    · refine .bind .advance fun _ => .bind (.jumpIfFalse hF (hb.2 ▸ hlabel)) fun _ => ?_
      exact .bind (.test _ _) fun b' => .pure fun _ hx => hx
    · exact .pure fun x hx => ⟨hb, hx⟩
  · exact fun b x hx => ⟨⟨hx.1.1, hx.1.2 ▸ hlabel⟩, hx.2⟩

theorem condition (hF : F.branches) : Emits F (Holds 0 q) condition
    fun b x => (F.firstLabel ≤ b.whenTrue.index ∧ F.firstLabel ≤ b.whenFalse.index) ∧
      Holds 2 q x := by
  refine .bind (.newLabel hF) fun whenTrue => .and_left fun hlabel => .bind (.conjunction hF _) fun b => ?_
  refine .post (.loop (I := fun b x => Branches F whenTrue b ∧ Holds 2 q x)
    (R := fun b x => Branches F whenTrue b ∧ Holds 2 q x) (fun b => ?_) b) ?_
  · refine .and_left fun hb => .bind .check fun _ => .ite (fun _ => ?_) fun _ => ?_
    · refine .bind .advance fun _ => .bind (.jumpIfTrue hF (hb.1 ▸ hlabel)) fun _ => ?_
      exact .bind (.define hF hb.2) fun _ => .bind (.conjunction hF _) fun b' => .pure fun _ hx => hx
    · exact .pure fun x hx => ⟨hb, hx⟩
  · exact fun b x hx => ⟨⟨hx.1.1 ▸ hlabel, hx.1.2⟩, hx.2⟩

/-! ### Statements -/

theorem loadOldValue (x : Operand) (operator : Option Opcode) :
    Emits F (Holds (n + x.depth) q) (loadOldValue x operator)
      fun _ => Holds (n + x.depth + operator.isSome.toNat) q := by
  rcases operator with _ | op
  · exact .pure fun _ hx => hx
  · refine .ite (p := x.isVariable) (fun _ => .attempt (.loadForUpdate x)) fun _ => .report

theorem assignValue (x y : Operand) {operator : Option Opcode}
    (hop : ∀ op, operator = some op → Straight op [] 2 1) :
    Emits F (Holds (n + x.depth + operator.isSome.toNat + y.depth) q) (assignValue x y operator)
      fun _ => Holds n q :=
  .bind (.fits y x.type) fun _ => .ite (fun _ => .attempt (.assign x y hop)) fun _ => .report

theorem assignment (x : Operand) {operator : Option Opcode}
    (hop : ∀ op, operator = some op → Straight op [] 2 1) :
    Emits F (Holds (0 + x.depth) q) (assignment x operator) fun _ => Holds 0 q := by
  refine .bind (.loadOldValue x operator) fun _ => .bind (.expression _ q) fun y => ?_
  exact .bind .reportIf fun _ => .post (.assignValue x y hop) fun _ d hd => hd.imp And.right

theorem increment (x : Operand) (step : Int32) :
    Emits F (Holds (0 + x.depth) q) (increment x step) fun _ => Holds 0 q := by
  refine .ite (fun _ => .report) fun _ => ?_
  split
  · next slot hplace =>
    have hdepth : x.depth = 0 := by simp [Operand.depth, hplace]
    rw [hdepth]
    exact .write (.incrementFrame slot _)
  · exact .attempt (.incrementPlace x step)

theorem callAlone (x : Operand) :
    Emits F (Holds (0 + x.depth) (F.Knows x ∧ q)) (callAlone x) fun _ => Holds 0 q := by
  have hpop : Straight .pop [] 1 0 := .of_counts rfl rfl rfl
  refine .bind (.call .expression x) fun y => ?_
  refine .ite (fun htype => ?_) fun htype => .pure fun d hd k hk => ?_
  · refine .pre (.emit (n := 0) hpop) fun d hd k hk => ?_
    obtain ⟨rfl, -, rfl, hq⟩ := hd k hk
    have htype : x.type ≠ .none := htype
    simp [htype, hq]
  · obtain ⟨rfl, -, rfl, hq⟩ := hd k hk
    have htype : x.type = .none := Classical.not_not.1 htype
    simp [htype, hq]

theorem straight_assignment {k : Token.Kind} {operator : Option Opcode}
    (h : assignmentOf? k = some operator) :
    ∀ op, operator = some op → Straight op [] 2 1 := by
  unfold assignmentOf? at h
  split at h <;> cases h <;> rintro op ⟨⟩ <;> exact .of_counts rfl rfl rfl

theorem designatorAction (x : Operand) :
    Emits F (Holds (0 + x.depth) (F.Knows x ∧ q)) (designatorAction x) fun _ => Holds 0 q := by
  refine .bind .peek fun k => ?_
  split
  · next operator hk =>
    refine .bind .advance fun _ => .pre (.assignment x (straight_assignment hk)) ?_
    exact fun d hd => hd.imp And.right
  · split
    · exact .callAlone x
    · exact .bind .advance fun _ => .pre (.increment x _) fun d hd => hd.imp And.right
    · exact .bind .advance fun _ => .pre (.increment x _) fun d hd => hd.imp And.right
    · exact .report

theorem designatorStatement : Emits F (Holds 0 q) designatorStatement fun _ => Holds 0 q :=
  .bind (.designator .expression) fun x => .bind (.designatorAction x) fun _ => .expect

theorem guardCondition (hF : F.branches) : Emits F (Holds 0 q) guardCondition
    fun b x => F.firstLabel ≤ b.whenFalse.index ∧ Holds 0 q x := by
  refine .bind .expect fun _ => .bind (.condition hF) fun b => .and_left fun hb => ?_
  refine .bind .expect fun _ => .bind (.jumpIfFalse hF hb.2) fun _ => .bind (.define hF hb.1) fun _ => ?_
  exact .pure fun x hx => ⟨hb.2, hx⟩

/-- The label behind the loop, if there is one, is a label of the method. -/
def Exits (F : Frame) (exit : Option Label) : Prop := ∀ l, exit = some l → F.firstLabel ≤ l.index

/-- A production that keeps the stack empty, inside a loop or not. -/
def Balanced (F : Frame) (m : Option Label → Production Unit) : Prop :=
  ∀ exit q, Exits F exit → Emits F (Holds 0 q) (m exit) fun _ => Holds 0 q

section Nested

variable {statement : Option Label → Production Unit} {exit : Option Label}

theorem ifStatement (hF : F.branches) (hs : Balanced F statement) (hexit : Exits F exit) :
    Emits F (Holds 0 q) (ifStatement statement exit) fun _ => Holds 0 q := by
  refine .bind .advance fun _ => .bind (.guardCondition hF) fun b => .and_left fun hb => ?_
  refine .bind (hs exit q hexit) fun _ => .bind .check fun _ => .ite (fun _ => ?_) fun _ => .define hF hb
  refine .bind .advance fun _ => .bind (.newLabel hF) fun behind => .and_left fun hbehind => ?_
  refine .bind (.jump hF hbehind) fun _ => .bind (.define hF hb) fun _ => .bind (hs exit q hexit) fun _ => ?_
  exact .define hF hbehind

theorem whileStatement (hF : F.branches) (hs : Balanced F statement) :
    Emits F (Holds 0 q) (whileStatement statement) fun _ => Holds 0 q := by
  refine .bind .advance fun _ => .bind (.newLabel hF) fun top => .and_left fun htop => ?_
  refine .bind (.define hF htop) fun _ => .bind (.guardCondition hF) fun b => .and_left fun hb => ?_
  refine .bind (.newLabel hF) fun exit => .and_left fun hexit => ?_
  refine .bind (hs (some exit) q fun l hl => Option.some.inj hl ▸ hexit) fun _ => ?_
  exact .bind (.jump hF htop) fun _ => .bind (.define hF hb) fun _ => .define hF hexit

theorem breakStatement (hF : F.branches) (hexit : Exits F exit) :
    Emits F (Holds 0 q) (breakStatement exit) fun _ => Holds 0 q := by
  refine .bind .advance fun _ => .bind ?_ fun _ => .expect
  rcases exit with _ | label
  · exact .report
  · exact .jump hF (hexit label rfl)

end Nested

/-- The type of the method tells what has to be returned. -/
theorem returnType : Emits F P get fun s x => F.returns = decide (s.returnType ≠ .none) ∧ P x := by
  intro s t s' x hc hrun hx
  obtain ⟨rfl, rfl⟩ := runs_get.1 hrun
  exact ⟨x, .refl, hc.returns, hx⟩

theorem returnOperand (x : Operand) (t : TypeId) :
    Emits F (Holds (0 + x.depth) q) (returnOperand x t)
      fun _ => Holds (decide (t ≠ .none)).toNat q := by
  refine .ite (fun _ => .report) fun ht => .bind (.fits x t) fun _ => .bind (.load x) fun _ => ?_
  rw [decide_eq_true ht]
  exact .post .reportIf fun _ d hd => hd.imp And.right

theorem returnValue (t : TypeId) : Emits F (Holds 0 q) (returnValue t)
    fun _ => Holds (decide (t ≠ .none)).toNat q := by
  refine .bind .checkAny fun _ => .ite (fun _ => ?_) fun _ => ?_
  · exact .bind (.expression 0 q) fun x => .returnOperand x t
  · refine .post .reportIf fun _ d hd k hk => ?_
    obtain ⟨rfl, ht, hq⟩ := hd k hk
    simp [Classical.not_not.1 ht, hq]

theorem returnStatement (hF : F.branches) : Emits F (Holds 0 q) returnStatement fun _ => Holds 0 q := by
  have hexit : Straight .exit [] 0 0 := .of_counts rfl rfl rfl
  refine .bind .advance fun _ => .bind .returnType fun s => .and_left fun hs => ?_
  refine .bind (.returnValue s.returnType) fun _ => .bind (.emit hexit) fun _ => ?_
  rw [← hs]
  exact .bind (.ret hF) fun _ => .expect

theorem straight_inputOutput {t : TypeId} {input output : Opcode}
    (h : inputOutput? t = some (input, output)) :
    Straight input [] 0 1 ∧ Straight output [] 2 0 := by
  unfold inputOutput? at h
  repeat' split at h
  all_goals cases h
  all_goals exact ⟨.of_counts rfl rfl rfl, .of_counts rfl rfl rfl⟩

theorem readInto (x : Operand) :
    Emits F (Holds (0 + x.depth) q) (readInto x) fun _ => Holds 0 q := by
  unfold Production.readInto
  split
  · next input output h =>
    exact .bind (.emit (k := 0) (straight_inputOutput h).1) fun _ => .attempt (.store x)
  · exact .report

theorem readStatement : Emits F (Holds 0 q) readStatement fun _ => Holds 0 q := by
  refine .bind .advance fun _ => .bind .expect fun _ => .bind (.designator .expression) fun x => ?_
  refine .bind (.readInto x) fun _ => .bind .expect fun _ => .post .expect fun _ d hd => ?_
  exact hd.imp And.right

theorem printWidth : Emits F (Holds n q) printWidth fun _ => Holds n q := by
  refine .bind ((look fun _ _ _ _ hrun => ⟨(runs_read.1 hrun).2, trivial⟩).post fun _ _ => And.right)
    fun _ => .bind .check fun _ => .ite (fun _ => ?_) fun _ => .pure fun _ hx => hx
  refine .bind .advance fun _ => .bind .check fun _ => .ite (fun _ => .literal) fun _ => ?_
  exact .bind .expect fun _ => .pure fun _ hx => hx

theorem emitPrint (t : TypeId) : Emits F (Holds 2 ((inputOutput? t).isSome ∧ q)) (emitPrint t)
    fun _ => Holds 0 q := by
  unfold Production.emitPrint
  split
  · next input output h =>
    exact .post (.emit (n := 0) (straight_inputOutput h).2) fun _ d hd => hd.imp And.right
  · next h => exact .pure fun d hd k hk => absurd (hd k hk).2.1 (by simp [h])

theorem printStatement : Emits F (Holds 0 q) printStatement fun _ => Holds 0 q := by
  refine .bind .advance fun _ => .bind .expect fun _ => .bind (.expression 0 q) fun x => ?_
  refine .bind .reportIf fun _ => .bind (.load x) fun _ => .bind .printWidth fun v => ?_
  refine .bind (.write (.constant v)) fun _ => .bind (.pre (.emitPrint x.type) fun d hd => ?_)
    fun _ => .bind .expect fun _ => .expect
  exact hd.imp fun h => ⟨by simpa [Option.isSome_iff_ne_none] using h.1, h.2⟩

/-! ### Blocks -/

theorem recoverStatement : Emits F (Holds 0 q) recoverStatement fun _ => Holds 0 q := by
  refine .bind (.report (n := 0) (q := q)) fun _ => .bind ?_ fun _ => .bind .takeIf fun _ => .resume
  exact .repeatWhile (.bind .advance fun _ => .bind .checkAny fun _ => .pure fun _ hx => hx)

theorem blockOf {statement : Option Label → Production Unit} (hs : Balanced F statement) :
    Balanced F (blockOf statement) := by
  intro exit q hexit
  refine .bind .expect fun _ => .bind (.repeatWhile (.bind .peek fun k => ?_)) fun _ => .expect
  split
  · exact .pure fun _ hx => hx
  · exact .pure fun _ hx => hx
  · exact .bind (hs exit q hexit) fun _ => .pure fun _ hx => hx

theorem statementOf {statement : Option Label → Production Unit} (hF : F.branches)
    (hs : Balanced F statement) :
    Balanced F (statementOf statement) := by
  intro exit q hexit
  refine .bind .peek fun k => ?_
  split
  · exact .designatorStatement
  · exact .ifStatement hF hs hexit
  · exact .whileStatement hF hs
  · exact .breakStatement hF hexit
  · exact .returnStatement hF
  · exact .readStatement
  · exact .printStatement
  · exact .blockOf hs exit q hexit
  · exact .advance
  · exact .recoverStatement

theorem nestedStatement (hF : F.branches) : ∀ depth, Balanced F (nestedStatement depth)
  | 0 => fun _ _ _ => .throw
  | depth + 1 => .statementOf hF (nestedStatement hF depth)

/-- The block of a method leaves the stack empty, as it finds it. -/
theorem block (hF : F.branches) : Emits F (Holds 0 q) block fun _ => Holds 0 q :=
  .bind ((look fun _ _ _ _ hrun => ⟨(runs_read.1 hrun).2, trivial⟩).post fun _ _ => And.right)
    fun _ => .blockOf (.nestedStatement hF _) none q fun _ h => by simp at h

end Emits

end MicroJava
