import MicroJava.Proofs.Process

/-!
# What a process reaches

An instruction takes from the stacks what it needs, so it does the same where there is more below
(`Process.onTop`). It only uses cells that it has a reference to: where all that a process has refers to the
cells of a set `A`, and so do these, this stays so with what is allocated, and the process does not depend on
what is in another cell (`Process.withCell`). Both hold for each of the actions that make up the instructions
(`Tame`), and so for all that a process does (`Process.Leads`).
-/

namespace MicroJava

variable {α β : Type} {A : Nat → Prop} {P : Prop} {S : List Datum} {C : List (Nat ⊕ List Datum)}

/-! ### References to the cells of a set -/

/-- A reference of the value is to a cell of the set. -/
def Datum.Within (A : Nat → Prop) : Datum → Prop
  | number _ => True
  | reference c => A c

/-- All that is stored, but for other cells, refers to cells of the set. -/
structure Storage.Within (A : Nat → Prop) (σ : Storage) : Prop where
  locals : ∀ d ∈ σ.locals, d.Within A
  statics : ∀ d ∈ σ.statics, d.Within A
  cells : ∀ c x, A c → σ.cells[c]? = some x → ∀ d ∈ x.data, d.Within A

/-- All that the process has refers to cells of the set. -/
structure Process.Within (A : Nat → Prop) (p : Process) : Prop where
  stack : ∀ d ∈ p.stack, d.Within A
  callers : ∀ locals, .inr locals ∈ p.callers → ∀ d ∈ locals, d.Within A
  storage : p.storage.Within A

/-- Another cell in the place of one that is there. -/
def Storage.withCell (σ : Storage) (r : Nat) (x : Cell) : Storage := { σ with cells := σ.cells.set r x }

namespace Process

variable (p : Process)

/-- How many cells are allocated. -/
def size : Nat := p.storage.cells.length

/-- More below on the stacks. -/
def onTop (S : List Datum) (C : List (Nat ⊕ List Datum)) : Process :=
  { p with stack := p.stack ++ S, callers := p.callers ++ C }

def withCell (r : Nat) (x : Cell) : Process := { p with storage := p.storage.withCell r x }

end Process

/-! ### Actions that only use what they have -/

/-- The action only takes what it needs from the stacks. If `P` holds, then it only uses cells of the set,
and gives what `Q` allows. -/
structure Tame (A : Nat → Prop) (P : Prop) (m : Action α) (Q : α → Prop) : Prop where
  grows : ∀ {p a p'}, m p = .ok (a, p') → p.size ≤ p'.size
  onTop : ∀ {p a p'} (S C), m p = .ok (a, p') → m (p.onTop S C) = .ok (a, p'.onTop S C)
  within : P → ∀ {p a p'}, m p = .ok (a, p') → p.Within A →
    (∀ c, p.size ≤ c → c < p'.size → A c) → p'.Within A ∧ Q a
  withCell : P → ∀ {p a p' r} (x), m p = .ok (a, p') → p.Within A →
    (∀ c, p.size ≤ c → c < p'.size → A c) → ¬A r → r < p.size →
      m (p.withCell r x) = .ok (a, p'.withCell r x)

theorem Action.bind_eq_ok {m : Action α} {f : α → Action β} {p p' : Process} {b : β} :
    (m >>= f) p = .ok (b, p') ↔ ∃ a p₁, m p = .ok (a, p₁) ∧ f a p₁ = .ok (b, p') := by
  show (m p >>= fun r => f r.1 r.2) = _ ↔ _
  rcases m p with e | ⟨a, p₁⟩
  · simp [bind, Except.bind]
  · simp [bind, Except.bind]

namespace Tame

open Action

variable {m : Action α} {f : α → Action β} {Q Q' : α → Prop} {R : β → Prop} {d : Datum}

theorem pure {a : α} (h : P → Q a) : Tame A P (Pure.pure a : Action α) Q where
  grows hm := by
    obtain ⟨rfl, rfl⟩ := Prod.mk.inj (Except.ok.inj hm)
    exact Nat.le_refl _
  onTop S C hm := by
    obtain ⟨rfl, rfl⟩ := Prod.mk.inj (Except.ok.inj hm)
    rfl
  within hP _ _ _ hm hp _ := by
    obtain ⟨rfl, rfl⟩ := Prod.mk.inj (Except.ok.inj hm)
    exact ⟨hp, h hP⟩
  withCell _ _ _ _ _ x hm _ _ _ _ := by
    obtain ⟨rfl, rfl⟩ := Prod.mk.inj (Except.ok.inj hm)
    rfl

theorem stop {reason : Stop} : Tame A P (Action.stop reason : Action α) Q where
  grows hm := by contradiction
  onTop _ _ hm := by contradiction
  within _ _ _ _ hm := by contradiction
  withCell _ _ _ _ _ _ hm := by contradiction

theorem bind (hm : Tame A P m Q) (hf : ∀ a, Tame A (P ∧ Q a) (f a) R) : Tame A P (m >>= f) R where
  grows h := by
    obtain ⟨a, p₁, h₁, h₂⟩ := bind_eq_ok.1 h
    exact Nat.le_trans (hm.grows h₁) ((hf a).grows h₂)
  onTop S C h := by
    obtain ⟨a, p₁, h₁, h₂⟩ := bind_eq_ok.1 h
    exact bind_eq_ok.2 ⟨a, _, hm.onTop S C h₁, (hf a).onTop S C h₂⟩
  within hP p b p' h hp hnew := by
    obtain ⟨a, p₁, h₁, h₂⟩ := bind_eq_ok.1 h
    have hle := hm.grows h₁
    have hle' := (hf a).grows h₂
    obtain ⟨hp₁, ha⟩ := hm.within hP h₁ hp fun c hc hlt => hnew c hc (by omega)
    exact (hf a).within ⟨hP, ha⟩ h₂ hp₁ fun c hc hlt => hnew c (by omega) hlt
  withCell hP p b p' r x h hp hnew hr hlt := by
    obtain ⟨a, p₁, h₁, h₂⟩ := bind_eq_ok.1 h
    have hle := hm.grows h₁
    have hle' := (hf a).grows h₂
    have hfirst : ∀ c, p.size ≤ c → c < p₁.size → A c := fun c hc hlt => hnew c hc (by omega)
    obtain ⟨hp₁, ha⟩ := hm.within hP h₁ hp hfirst
    refine bind_eq_ok.2 ⟨a, _, hm.withCell hP x h₁ hp hfirst hr hlt, ?_⟩
    exact (hf a).withCell ⟨hP, ha⟩ x h₂ hp₁ (fun c hc hlt => hnew c (by omega) hlt) hr (by omega)

theorem ite {p : Prop} [Decidable p] {m' : Action α} (h : p → Tame A P m Q) (h' : ¬p → Tame A P m' Q) :
    Tame A P (if p then m else m') Q := by
  split
  · next hp => exact h hp
  · next hp => exact h' hp

theorem discard (h : Tame A P m Q) : Tame A P (Functor.discard m) fun _ => True := by
  have heq : Functor.discard m = (m >>= fun _ => Pure.pure ()) := rfl
  rw [heq]
  exact h.bind fun _ => .pure fun _ => trivial

theorem want {x : Option α} {reason : Stop} (h : P → ∀ a, x = some a → Q a) :
    Tame A P (Action.want x reason) Q := by
  cases x with
  | none => exact .stop
  | some a => exact .pure fun hP => h hP a rfl

/-- An action that allocates nothing. -/
theorem keep (h : ∀ p a p', m p = .ok (a, p') → p'.size = p.size ∧
    (∀ S C, m (p.onTop S C) = .ok (a, p'.onTop S C)) ∧ (P → p.Within A → (p'.Within A ∧ Q a) ∧
      ∀ r x, ¬A r → m (p.withCell r x) = .ok (a, p'.withCell r x))) : Tame A P m Q where
  grows hm := Nat.le_of_eq (h _ _ _ hm).1.symm
  onTop S C hm := (h _ _ _ hm).2.1 S C
  within hP _ _ _ hm hp _ := ((h _ _ _ hm).2.2 hP hp).1
  withCell hP _ _ _ r x hm hp _ hr _ := ((h _ _ _ hm).2.2 hP hp).2 r x hr

/-- An action that gives what it finds. -/
theorem look {g : Process → Option α} {reason : Stop} (honTop : ∀ p S C, g (p.onTop S C) = g p)
    (hcell : P → ∀ p a r x, g p = some a → ¬A r → g (p.withCell r x) = some a)
    (hQ : P → ∀ p a, p.Within A → g p = some a → Q a) :
    Tame A P (fun p => Action.want (g p) reason p) Q :=
  keep fun p a p' hm => by
    obtain ⟨b, hb⟩ : ∃ b, g p = some b := by
      rcases hb : g p with _ | b
      · rw [hb] at hm
        contradiction
      · exact ⟨b, rfl⟩
    have hrun : ∀ q, g q = some b → Action.want (g q) reason q = .ok (b, q) := fun q hq => by
      rw [hq]
      rfl
    obtain ⟨rfl, rfl⟩ := Prod.mk.inj (Except.ok.inj ((hrun p hb).symm.trans hm))
    exact ⟨rfl, fun S C => hrun _ ((honTop p S C).trans hb), fun hP hp => ⟨⟨hp, hQ hP p b hp hb⟩,
      fun r x hr => hrun _ (hcell hP p b r x hb hr)⟩⟩

/-- An action that only changes the process. -/
theorem put {h : Process → Process} (hsize : ∀ p, (h p).size = p.size)
    (honTop : ∀ p S C, h (p.onTop S C) = (h p).onTop S C) (hwithin : P → ∀ p, p.Within A → (h p).Within A)
    (hcell : P → ∀ p r x, ¬A r → h (p.withCell r x) = (h p).withCell r x) :
    Tame A P (fun p => .ok ((), h p) : Action Unit) fun _ => True :=
  keep fun p _ _ hm => by
    obtain ⟨-, rfl⟩ := Prod.mk.inj (Except.ok.inj hm)
    exact ⟨hsize p, fun S C => congrArg (fun q => Except.ok ((), q)) (honTop p S C), fun hP hp =>
      ⟨⟨hwithin hP p hp, trivial⟩, fun r x hr => congrArg (fun q => Except.ok ((), q)) (hcell hP p r x hr)⟩⟩

/-! #### The stacks -/

theorem goto {place : Nat} : Tame A P (Action.goto place) fun _ => True :=
  put (fun _ => rfl) (fun _ _ _ => rfl) (fun _ _ hp => ⟨hp.stack, hp.callers, hp.storage⟩)
    fun _ _ _ _ _ => rfl

theorem push (hd : P → d.Within A) : Tame A P (Action.push d) fun _ => True :=
  put (fun _ => rfl) (fun _ _ _ => rfl)
    (fun hP _ hp => ⟨List.forall_mem_cons.2 ⟨hd hP, hp.stack⟩, hp.callers, hp.storage⟩)
    fun _ _ _ _ _ => rfl

theorem pop : Tame A P Action.pop (·.Within A) :=
  keep fun p d p' hm => by
    obtain ⟨place, _ | ⟨d, stack⟩, callers, σ⟩ := p
    · contradiction
    obtain ⟨rfl, rfl⟩ := Prod.mk.inj (Except.ok.inj hm)
    refine ⟨rfl, fun _ _ => rfl, fun _ hp => ?_⟩
    obtain ⟨hd, hstack⟩ := List.forall_mem_cons.1 hp.stack
    exact ⟨⟨⟨hstack, hp.callers, hp.storage⟩, hd⟩, fun _ _ _ => rfl⟩

theorem save {x : Nat ⊕ List Datum} (hx : P → ∀ locals, x = .inr locals → ∀ d ∈ locals, d.Within A) :
    Tame A P (Action.save x) fun _ => True := by
  refine put (fun _ => rfl) (fun _ _ _ => rfl) (fun hP p hp => ⟨hp.stack, ?_, hp.storage⟩)
    fun _ _ _ _ _ => rfl
  intro locals hlocals
  rcases List.mem_cons.1 hlocals with heq | hlocals
  · exact hx hP locals heq.symm
  · exact hp.callers locals hlocals

theorem restore : Tame A P Action.restore fun x => ∀ locals, x = .inr locals → ∀ d ∈ locals, d.Within A :=
  keep fun p x p' hm => by
    obtain ⟨place, stack, _ | ⟨x, callers⟩, σ⟩ := p
    · contradiction
    obtain ⟨rfl, rfl⟩ := Prod.mk.inj (Except.ok.inj hm)
    refine ⟨rfl, fun _ _ => rfl, fun _ hp => ⟨⟨⟨hp.stack, fun locals hlocals => ?_, hp.storage⟩, ?_⟩,
      fun _ _ _ => rfl⟩⟩
    · exact hp.callers locals (List.mem_cons_of_mem _ hlocals)
    · rintro locals rfl
      exact hp.callers locals (List.mem_cons_self ..)

/-! #### What is stored -/

theorem getLocal {slot : Nat} : Tame A P (Action.getLocal slot) (·.Within A) :=
  look (fun _ _ _ => rfl) (fun _ _ _ _ _ h _ => h)
    fun _ _ _ hp h => hp.storage.locals _ (List.mem_of_getElem? h)

theorem getStatic {slot : Nat} : Tame A P (Action.getStatic slot) (·.Within A) :=
  look (fun _ _ _ => rfl) (fun _ _ _ _ _ h _ => h)
    fun _ _ _ hp h => hp.storage.statics _ (List.mem_of_getElem? h)

theorem mem_set {ds : List Datum} {slot : Nat} (hds : ∀ d ∈ ds, d.Within A) (hd : d.Within A) :
    ∀ d' ∈ ds.set slot d, d'.Within A := by
  intro d' hd'
  rcases List.mem_or_eq_of_mem_set hd' with h | rfl
  · exact hds d' h
  · exact hd

theorem setLocal {slot : Nat} (hd : P → d.Within A) : Tame A P (Action.setLocal slot d) fun _ => True :=
  put (fun _ => rfl) (fun _ _ _ => rfl) (fun hP _ hp => ⟨hp.stack, hp.callers,
    ⟨mem_set hp.storage.locals (hd hP), hp.storage.statics, hp.storage.cells⟩⟩) fun _ _ _ _ _ => rfl

theorem setStatic {slot : Nat} (hd : P → d.Within A) : Tame A P (Action.setStatic slot d) fun _ => True :=
  put (fun _ => rfl) (fun _ _ _ => rfl) (fun hP _ hp => ⟨hp.stack, hp.callers,
    ⟨hp.storage.locals, mem_set hp.storage.statics (hd hP), hp.storage.cells⟩⟩) fun _ _ _ _ _ => rfl

theorem swapLocals {locals : List Datum} (h : P → ∀ d ∈ locals, d.Within A) :
    Tame A P (Action.swapLocals locals) fun old => ∀ d ∈ old, d.Within A :=
  keep fun p _ _ hm => by
    obtain ⟨rfl, rfl⟩ := Prod.mk.inj (Except.ok.inj hm)
    exact ⟨rfl, fun _ _ => rfl, fun hP hp => ⟨⟨⟨hp.stack, hp.callers, ⟨h hP, hp.storage.statics,
      hp.storage.cells⟩⟩, hp.storage.locals⟩, fun _ _ _ => rfl⟩⟩

theorem read : Tame A P Action.read fun _ => True :=
  keep fun p v p' hm => by
    obtain ⟨place, stack, callers, ⟨locals, statics, cells, _ | ⟨v, input⟩, output⟩⟩ := p
    · contradiction
    obtain ⟨rfl, rfl⟩ := Prod.mk.inj (Except.ok.inj hm)
    exact ⟨rfl, fun _ _ => rfl, fun _ hp => ⟨⟨⟨hp.stack, hp.callers, ⟨hp.storage.locals,
      hp.storage.statics, hp.storage.cells⟩⟩, trivial⟩, fun _ _ _ => rfl⟩⟩

theorem print {v width : Int32} : Tame A P (Action.print v width) fun _ => True :=
  put (fun _ => rfl) (fun _ _ _ => rfl) (fun _ _ hp => ⟨hp.stack, hp.callers,
    ⟨hp.storage.locals, hp.storage.statics, hp.storage.cells⟩⟩) fun _ _ _ _ _ => rfl

/-! #### Cells -/

theorem getCell {c : Nat} (hc : P → A c) : Tame A P (Action.getCell c) fun x => ∀ d ∈ x.data, d.Within A := by
  refine look (fun _ _ _ => rfl) (fun hP p y r x h hr => ?_) fun hP _ _ hp h => hp.storage.cells _ _ (hc hP) h
  have hne : r ≠ c := fun heq => hr (heq ▸ hc hP)
  rw [← h]
  exact List.getElem?_set_ne hne

theorem setCell {c : Nat} {x : Cell} (hc : P → A c) (hx : P → ∀ d ∈ x.data, d.Within A) :
    Tame A P (Action.setCell c x) fun _ => True := by
  refine put (fun _ => List.length_set) (fun _ _ _ => rfl) (fun hP p hp => ⟨hp.stack, hp.callers,
    ⟨hp.storage.locals, hp.storage.statics, fun c' x' hc' hx' => ?_⟩⟩) fun hP p r y hr => ?_
  · simp only [List.getElem?_set] at hx'
    split at hx'
    · split at hx'
      · obtain rfl := Option.some.inj hx'
        exact hx hP
      · contradiction
    · exact hp.storage.cells c' x' hc' hx'
  · have hne : r ≠ c := fun heq => hr (heq ▸ hc hP)
    simp only [Process.withCell, Storage.withCell]
    rw [List.set_comm _ _ hne]

/-- A new cell belongs to the set. -/
theorem allocate {x : Cell} (hx : P → ∀ d ∈ x.data, d.Within A) :
    Tame A P (Action.allocate x) fun _ => True where
  grows {p _ _} hm := by
    obtain ⟨-, rfl⟩ := Prod.mk.inj (Except.ok.inj hm)
    simp [Process.size]
  onTop S C hm := by
    obtain ⟨-, rfl⟩ := Prod.mk.inj (Except.ok.inj hm)
    rfl
  within hP p _ _ hm hp hnew := by
    obtain ⟨-, rfl⟩ := Prod.mk.inj (Except.ok.inj hm)
    have hlast : A p.size := hnew _ (Nat.le_refl _) (by simp [Process.size])
    refine ⟨⟨List.forall_mem_cons.2 ⟨hlast, hp.stack⟩, hp.callers, ⟨hp.storage.locals, hp.storage.statics,
      fun c y hc hy => ?_⟩⟩, trivial⟩
    rcases Nat.lt_or_ge c p.size with hlt | hge
    · rw [List.getElem?_append_left hlt] at hy
      exact hp.storage.cells c y hc hy
    · rw [List.getElem?_append_right hge] at hy
      obtain ⟨i, heq⟩ := List.getElem?_eq_some_iff.1 hy
      obtain rfl : x = y := by simpa using heq
      exact hx hP
  withCell _ p _ _ r y hm hp _ hr hlt := by
    obtain ⟨-, rfl⟩ := Prod.mk.inj (Except.ok.inj hm)
    have hset : (p.storage.cells ++ [x]).set r y = p.storage.cells.set r y ++ [x] :=
      List.set_append_left _ _ hlt
    simp only [Action.allocate, Process.withCell, Storage.withCell, List.length_set, hset]

/-! #### Values of a kind -/

theorem popNumber : Tame A P Action.popNumber fun _ => True := by
  refine bind pop fun d => ?_
  cases d with
  | number v => exact .pure fun _ => trivial
  | reference c => exact .stop

theorem popCell : Tame A P Action.popCell A := by
  refine bind pop fun d => ?_
  cases d with
  | number v => exact .stop
  | reference c => exact .pure And.right

theorem popAll : ∀ (n : Nat) {P : Prop}, Tame A P (Action.popAll n) fun ds => ∀ d ∈ ds, d.Within A
  | 0, _ => .pure fun _ _ h => absurd h List.not_mem_nil
  | n + 1, _ => bind pop fun _ => bind (popAll n) fun _ => .pure fun h => List.forall_mem_cons.2 ⟨h.1.2, h.2⟩

theorem fieldsOf {x : Cell} (hx : P → ∀ d ∈ x.data, d.Within A) :
    Tame A P (Action.fieldsOf x) fun fields => ∀ d ∈ fields, d.Within A := by
  cases x with
  | object fields => exact .pure hx
  | array k elements => exact .stop

theorem elementsOf {k : Bool} {x : Cell} (hx : P → ∀ d ∈ x.data, d.Within A) :
    Tame A P (Action.elementsOf k x) fun elements => ∀ d ∈ elements, d.Within A := by
  cases x with
  | object fields => exact .stop
  | array k elements => exact .ite (fun _ => .pure hx) fun _ => .stop

theorem indexIn {elements : List Datum} {i : Int32} :
    Tame A P (Action.indexIn elements i) fun _ => True :=
  .ite (fun _ => .pure fun _ => trivial) fun _ => .stop

/-! #### Instructions -/

theorem loadLocal {slot : Nat} : Tame A P (Action.loadLocal slot) fun _ => True :=
  bind getLocal fun _ => push And.right

theorem storeLocal {slot : Nat} : Tame A P (Action.storeLocal slot) fun _ => True :=
  bind pop fun _ => setLocal And.right

theorem loadField {slot : Nat} : Tame A P (Action.loadField slot) fun _ => True :=
  bind popCell fun _ => bind (getCell And.right) fun _ => bind (fieldsOf And.right) fun _ =>
    bind (want (Q := (·.Within A)) fun h _ hd => h.2 _ (List.mem_of_getElem? hd)) fun _ => push And.right

theorem storeField {slot : Nat} : Tame A P (Action.storeField slot) fun _ => True :=
  bind pop fun _ => bind popCell fun _ => bind (getCell And.right) fun _ => bind (fieldsOf And.right) fun _ =>
    setCell (fun h => h.1.1.2) fun h => mem_set h.2 h.1.1.1.2

theorem loadElement {k : Bool} : Tame A P (Action.loadElement k) fun _ => True :=
  bind popNumber fun _ => bind popCell fun _ => bind (getCell And.right) fun _ =>
    bind (elementsOf And.right) fun _ => bind indexIn fun _ =>
      bind (want (Q := (·.Within A)) fun h _ hd => h.1.2 _ (List.mem_of_getElem? hd)) fun _ => push And.right

theorem storeElement {k : Bool} : Tame A P (Action.storeElement k) fun _ => True :=
  bind pop fun _ => bind popNumber fun _ => bind popCell fun _ => bind (getCell And.right) fun _ =>
    bind (elementsOf And.right) fun _ => bind indexIn fun _ =>
      setCell (fun h => h.1.1.1.2) fun h => mem_set h.1.2 h.1.1.1.1.1.2

theorem lengthOf {x : Cell} : Tame A P (Action.lengthOf x) fun _ => True := by
  cases x with
  | object fields => exact .stop
  | array k elements => exact .pure fun _ => trivial

theorem zeros {n : Nat} : ∀ d ∈ List.replicate n (Datum.number 0), d.Within A := by
  intro d hd
  rw [List.eq_of_mem_replicate hd]
  trivial

theorem newArray {k : Bool} : Tame A P (Action.newArray k) fun _ => True :=
  bind popNumber fun _ => .ite (fun _ => allocate fun _ => zeros) fun _ => .stop

theorem combine {g : Int32 → Int32 → Option Int32} : Tame A P (Action.combine g) fun _ => True :=
  bind popNumber fun _ => bind popNumber fun _ => bind (want (Q := fun _ => True) fun _ _ _ => trivial)
    fun _ => push fun _ => trivial

theorem target {o : Option Nat} : Tame A P (do Action.goto (← Action.want o .stuck)) fun _ => True :=
  bind (want (Q := fun _ => True) fun _ _ _ => trivial) fun _ => goto

theorem branch {c : Comparison} {o : Option Nat} : Tame A P (Action.branch c o) fun _ => True :=
  bind pop fun _ => bind pop fun _ => bind (want (Q := fun _ => True) fun _ _ _ => trivial) fun _ =>
    .ite (fun _ => target) fun _ => .pure fun _ => trivial

theorem call {o : Option Nat} {back : Nat} : Tame A P (Action.call o back) fun _ => True :=
  bind (save fun _ _ h => by contradiction) fun _ => target

theorem enter {parameters size : Nat} : Tame A P (Action.enter parameters size) fun _ => True := by
  refine bind (popAll parameters) fun ds => bind (swapLocals fun h d hd => ?_) fun old => save ?_
  · rcases List.mem_append.1 hd with hd | hd
    · exact h.2 d (List.mem_reverse.1 hd)
    · exact zeros d hd
  · rintro h locals heq
    obtain rfl := Sum.inr.inj heq
    exact h.2

theorem exit : Tame A P Action.exit fun _ => True := by
  refine bind restore fun x => ?_
  cases x with
  | inl place => exact .stop
  | inr locals => exact .discard (swapLocals fun h => h.2 locals rfl)

theorem ret : Tame A P Action.ret fun _ => True := by
  refine bind restore fun x => ?_
  cases x with
  | inl place => exact goto
  | inr locals => exact .stop

theorem printNumber : Tame A P Action.printNumber fun _ => True :=
  bind popNumber fun _ => bind popNumber fun _ => print

/-- Every instruction. -/
theorem execute (i : Instruction) : Tame A P (Action.execute i) fun _ => True := by
  obtain ⟨offset, op, operands⟩ := i
  cases op with
  | load | load0 | load1 | load2 | load3 => exact loadLocal
  | store | store0 | store1 | store2 | store3 => exact storeLocal
  | getStatic => exact bind getStatic fun _ => push And.right
  | putStatic => exact bind pop fun _ => setStatic And.right
  | getField => exact loadField
  | putField => exact storeField
  | const0 | const1 | const2 | const3 | const4 | const5 | constMinus1 | const => exact push fun _ => trivial
  | add | sub | mul | div | rem | shl | shr => exact combine
  | neg => exact bind popNumber fun _ => push fun _ => trivial
  | inc =>
    refine bind getLocal fun d => ?_
    cases d with
    | number v => exact setLocal fun _ => trivial
    | reference c => exact .stop
  | newObject => exact allocate fun _ => zeros
  | newArray => exact newArray
  | arrayLoad | charLoad => exact loadElement
  | arrayStore | charStore => exact storeElement
  | arrayLength =>
    exact bind popCell fun _ => bind (getCell And.right) fun _ => bind lengthOf fun _ => push fun _ => trivial
  | pop => exact discard pop
  | dup => exact bind pop fun _ => bind (push And.right) fun _ => push fun h => h.1.2
  | dup2 =>
    exact bind pop fun _ => bind pop fun _ => bind (push And.right) fun _ =>
      bind (push fun h => h.1.1.2) fun _ => bind (push fun h => h.1.1.2) fun _ => push fun h => h.1.1.1.1.2
  | jump => exact target
  | jumpEq | jumpNe | jumpLt | jumpLe | jumpGt | jumpGe => exact branch
  | call => exact call
  | ret => exact ret
  | enter => exact enter
  | exit => exact exit
  | read | readChar => exact bind read fun _ => push fun _ => trivial
  | print | printChar => exact printNumber
  | trap => exact .stop
  | nop => exact .pure fun _ => trivial

end Tame

/-! ### Processes -/

namespace Process

variable {code : List UInt8} {p q : Process}

theorem next_eq_ok : p.next code = .ok q ↔ ∃ i, Instruction.fetch? code p.place = some i ∧
    Action.execute i { p with place := i.offset + i.size } = .ok ((), q) := by
  unfold next
  rcases Instruction.fetch? code p.place with _ | i
  · simp
  · simp only [Option.some.injEq, exists_eq_left']
    rcases Action.execute i { p with place := i.offset + i.size } with e | ⟨⟨⟩, q'⟩
    · simp [Except.map]
    · simp [Except.map]

theorem size_le_next (h : p.next code = .ok q) : p.size ≤ q.size := by
  obtain ⟨i, -, hi⟩ := next_eq_ok.1 h
  have hle := (Tame.execute (A := fun _ => True) (P := True) i).grows hi
  exact hle

theorem Within.at (h : p.Within A) (place : Nat) : Process.Within A { p with place } :=
  ⟨h.stack, h.callers, h.storage⟩

namespace Leads

theorem step {p' : Process} (h : p.next code = .ok p') (h' : p'.Leads code q) : p.Leads code q := .head h h'

theorem snoc {p' : Process} (h : p.Leads code p') (h' : p'.next code = .ok q) : p.Leads code q := .tail h h'

theorem size_le (h : p.Leads code q) : p.size ≤ q.size := by
  induction h with
  | refl => exact Nat.le_refl _
  | tail _ hstep ih => exact Nat.le_trans ih (size_le_next hstep)

/-- What is below on the stacks stays there, and makes no difference. -/
theorem onTop (h : p.Leads code q) (S : List Datum) (C : List (Nat ⊕ List Datum)) :
    (p.onTop S C).Leads code (q.onTop S C) := by
  induction h with
  | refl => exact .refl
  | tail _ hstep ih =>
    obtain ⟨i, hi, hexecute⟩ := next_eq_ok.1 hstep
    exact ih.tail (next_eq_ok.2 ⟨i, hi, (Tame.execute (A := fun _ => True) (P := True) i).onTop S C hexecute⟩)

/-- Where all refers to the cells of a set, it does so with the new cells later. -/
theorem within (h : p.Leads code q) (hp : p.Within A) (hnew : ∀ c, p.size ≤ c → c < q.size → A c) :
    q.Within A := by
  induction h with
  | refl => exact hp
  | @tail p₁ q hfirst hstep ih =>
    obtain ⟨i, -, hi⟩ := next_eq_ok.1 hstep
    have htame : Tame A True (Action.execute i) fun _ => True := .execute i
    have hle := size_le hfirst
    have hle' := size_le_next hstep
    have hp₁ := ih fun c hc hlt => hnew c hc (by omega)
    exact (htame.within trivial hi (hp₁.at _) fun c hc hlt => hnew c (Nat.le_trans hle hc) hlt).1

/-- What is in a cell that nothing refers to makes no difference. -/
theorem withCell (h : p.Leads code q) (hp : p.Within A) (hnew : ∀ c, p.size ≤ c → c < q.size → A c)
    {r : Nat} (hr : ¬A r) (hlt : r < p.size) (x : Cell) :
    (p.withCell r x).Leads code (q.withCell r x) := by
  induction h with
  | refl => exact .refl
  | @tail p₁ q hfirst hstep ih =>
    obtain ⟨i, hi, hexecute⟩ := next_eq_ok.1 hstep
    have htame : Tame A True (Action.execute i) fun _ => True := .execute i
    have hle := size_le hfirst
    have hle' := size_le_next hstep
    have hbefore : ∀ c, p.size ≤ c → c < p₁.size → A c := fun c hc hlt => hnew c hc (by omega)
    refine (ih hbefore).tail (next_eq_ok.2 ⟨i, hi, ?_⟩)
    exact htame.withCell trivial x hexecute ((within hfirst hp hbefore).at _)
      (fun c hc hlt => hnew c (Nat.le_trans hle hc) hlt) hr (Nat.lt_of_lt_of_le hlt hle)

end Leads

end Process

end MicroJava
