import MicroJava.Proofs.Methods

/-!
# The control flow of code

Which instruction follows which (`Moves`). A jump goes to its target. A conditional jump compares two
values, of which nothing is assumed, and goes to its target if its comparison holds of them. Every
other instruction is taken as one step that goes on behind it, and so is a call; only `return` and
`trap` go nowhere. What can be seen of a run are the instructions that it executes, other than plain
jumps, and the values that it compares (`Event`); they determine the run (`Passes.comparable`).

`Code` is code with the listing that it was written from. A listing that stands in the code
(`Code.Has`) is executed as its items say: `Code.Has.passes`, `Code.Has.jump`, `Code.Has.test`.
-/

namespace MicroJava

namespace Comparison

/-- The relation between two values. -/
def holds : Comparison → Int32 → Int32 → Bool
  | eq, x, y => x = y
  | ne, x, y => x ≠ y
  | lt, x, y => x < y
  | le, x, y => x ≤ y
  | gt, x, y => y < x
  | ge, x, y => y ≤ x

@[simp] theorem holds_inverse (o : Comparison) (x y : Int32) :
    o.inverse.holds x y = !o.holds x y := by
  cases o <;> simp [inverse, holds, ← Int32.not_le]

theorem isJump_jump (o : Comparison) : o.jump.isJump := by
  cases o <;> rfl

theorem jump_ne_jump (o : Comparison) : o.jump ≠ .jump := by
  cases o <;> decide

theorem jump_injective {o o' : Comparison} (h : o.jump = o'.jump) : o = o' := by
  cases o <;> cases o' <;> first | rfl | exact absurd h (by decide)

end Comparison

/-- Behind the instruction, the next one is executed. A call is seen as one step. -/
def Instruction.FallsThrough (i : Instruction) : Prop :=
  i.opcode.isJump = false ∧ i.opcode ≠ .ret ∧ i.opcode ≠ .trap

namespace Control

/-- What can be seen of a run. -/
inductive Event where
  /-- The instruction at an address that goes on behind itself. -/
  | step (address : Nat)
  /-- The conditional jump at an address, with the values that it compares. -/
  | test (address : Nat) (x y : Int32)
  deriving DecidableEq

/-- The values that are compared. -/
def Event.values? : Event → Option (Int32 × Int32)
  | step _ => none
  | test _ x y => some (x, y)

/-- The values that are compared, in their order. -/
def values (es : List Event) : List (Int32 × Int32) := es.filterMap Event.values?

@[simp] theorem values_append (es es' : List Event) : values (es ++ es') = values es ++ values es' :=
  List.filterMap_append

/-- One instruction of code is executed. -/
inductive Moves (code : List Instruction) : Nat → List Event → Nat → Prop where
  | next {i : Instruction} (hi : i ∈ code) (h : i.FallsThrough) :
    Moves code i.offset [.step i.offset] (i.offset + i.size)
  | jump {i : Instruction} {target : Nat} (hi : i ∈ code) (hop : i.opcode = .jump)
    (htarget : i.target? = some target) : Moves code i.offset [] target
  | test {i : Instruction} {o : Comparison} {target : Nat} (hi : i ∈ code) (hop : i.opcode = o.jump)
    (htarget : i.target? = some target) (x y : Int32) :
    Moves code i.offset [.test i.offset x y] (if o.holds x y then target else i.offset + i.size)

/-- Any number of instructions are executed. -/
inductive Passes (code : List Instruction) : Nat → List Event → Nat → Prop where
  | refl {p : Nat} : Passes code p [] p
  | head {p q r : Nat} {es es' : List Event} :
    Moves code p es q → Passes code q es' r → Passes code p (es ++ es') r

section

variable {code : List Instruction} {p q r : Nat} {es es' : List Event}

theorem Moves.passes (h : Moves code p es q) : Passes code p es q := by
  simpa using Passes.head h .refl

theorem Passes.trans (h : Passes code p es q) (h' : Passes code q es' r) :
    Passes code p (es ++ es') r := by
  induction h with
  | refl => exact h'
  | head hm _ ih =>
    rw [List.append_assoc]
    exact .head hm (ih h')

/-- No two instructions stand at one address. -/
def Apart (code : List Instruction) : Prop :=
  ∀ i ∈ code, ∀ j ∈ code, i.offset = j.offset → i = j

/-- Two moves from one address are the same, or compare other values. -/
theorem Moves.unique (hapart : Apart code) (h : Moves code p es q) (h' : Moves code p es' r)
    (hvalues : values es <+: values es' ∨ values es' <+: values es) : es = es' ∧ q = r := by
  generalize hp : p = p' at h'
  cases h with
  | next hi hf =>
    cases h' with
    | next hj _ =>
      obtain rfl := hapart _ hi _ hj hp
      exact ⟨rfl, rfl⟩
    | jump hj hop _ =>
      obtain rfl := hapart _ hi _ hj hp
      exact absurd hf.1 (by simp [hop, Opcode.isJump])
    | test hj hop _ _ _ =>
      obtain rfl := hapart _ hi _ hj hp
      exact absurd hf.1 (by simp [hop, Comparison.isJump_jump])
  | jump hi hop ht =>
    cases h' with
    | next hj hf =>
      obtain rfl := hapart _ hi _ hj hp
      exact absurd hf.1 (by simp [hop, Opcode.isJump])
    | jump hj _ ht' =>
      obtain rfl := hapart _ hi _ hj hp
      exact ⟨rfl, Option.some.inj (ht.symm.trans ht')⟩
    | test hj hop' _ _ _ =>
      obtain rfl := hapart _ hi _ hj hp
      exact absurd (hop'.symm.trans hop) (Comparison.jump_ne_jump _)
  | test hi hop ht x y =>
    cases h' with
    | next hj hf =>
      obtain rfl := hapart _ hi _ hj hp
      exact absurd hf.1 (by simp [hop, Comparison.isJump_jump])
    | jump hj hop' _ =>
      obtain rfl := hapart _ hi _ hj hp
      exact absurd (hop.symm.trans hop') (Comparison.jump_ne_jump _)
    | test hj hop' ht' x' y' =>
      obtain rfl := hapart _ hi _ hj hp
      obtain rfl := Comparison.jump_injective (hop.symm.trans hop')
      obtain rfl := Option.some.inj (ht.symm.trans ht')
      have hxy : x = x' ∧ y = y' := by
        simpa [values, Event.values?, eq_comm] using hvalues
      obtain ⟨rfl, rfl⟩ := hxy
      exact ⟨rfl, rfl⟩

/-- Of two runs from one address that compare the same values, one goes on where the other ends. -/
theorem Passes.comparable (hapart : Apart code) {vs : List (Int32 × Int32)}
    (h : Passes code p es q) (h' : Passes code p es' r) (hes : values es <+: vs)
    (hes' : values es' <+: vs) :
    (∃ fs, Passes code q fs r ∧ es' = es ++ fs) ∨ ∃ fs, Passes code r fs q ∧ es = es' ++ fs := by
  induction h generalizing es' vs with
  | refl => exact .inl ⟨es', h', rfl⟩
  | @head p q' q fs fs' hm hrest ih =>
    cases h' with
    | refl => exact .inr ⟨fs ++ fs', .head hm hrest, rfl⟩
    | @head _ r' _ gs gs' hm' hrest' =>
      rw [values_append] at hes hes'
      have hfirst : values fs <+: values gs ∨ values gs <+: values fs :=
        List.prefix_or_prefix_of_prefix ((List.prefix_append _ _).trans hes)
          ((List.prefix_append _ _).trans hes')
      obtain ⟨rfl, rfl⟩ := hm.unique hapart hm' hfirst
      obtain ⟨ws, rfl⟩ := (List.prefix_append _ _).trans hes
      rw [List.prefix_append_right_inj] at hes hes'
      obtain ⟨us, hus, rfl⟩ | ⟨us, hus, rfl⟩ := ih hrest' hes hes'
      · exact .inl ⟨us, hus, (List.append_assoc ..).symm⟩
      · exact .inr ⟨us, hus, (List.append_assoc ..).symm⟩

/-- The code executes `es` from `p` on and comes to `q`, and does nothing else for the values that are
compared: whatever it can do is a part of that or goes on from there. -/
structure Executes (code : List Instruction) (p : Nat) (es : List Event) (q : Nat) : Prop where
  passes : Passes code p es q
  only : ∀ es' r, Passes code p es' r → values es' <+: values es →
    es' <+: es ∨ ∃ fs, es' = es ++ fs ∧ Passes code q fs r

theorem Passes.executes (h : Passes code p es q) (hapart : Apart code) :
    Executes code p es q where
  passes := h
  only := fun es' r h' hvalues => by
    obtain ⟨fs, hfs, rfl⟩ | ⟨fs, -, rfl⟩ :=
      h.comparable hapart h' (List.prefix_refl _) hvalues
    · exact .inr ⟨fs, rfl, hfs⟩
    · exact .inl (List.prefix_append _ _)

end

end Control

/-! ### Listings in code -/

/-- Code, with the listing that it was written from. -/
structure Code where
  assembly : Assembly
  listing : List Item
  lays : Lays assembly listing

/-- The code goes on behind that of the assembly, which was written from `is`. -/
structure Code.Continues (C : Code) (a : Assembly) (is : List Item) : Prop where
  listing : is <+: C.listing
  kept : ∀ l A, a.address? l = some A → C.assembly.address? l = some A

/-- The addresses of the items of a listing that starts at `o`. -/
def offsetsFrom : Nat → List Item → List Nat
  | _, [] => []
  | o, i :: is => o :: offsetsFrom (o + i.size) is

namespace Code

open Control

variable (C : Code)

/-- The instructions of the code. -/
def instructions : List Instruction := instructionsFrom C.assembly.fill 0 C.listing

/-- The address of a label. -/
def address? (l : Label) : Option Nat := C.assembly.address? l

/-- What is seen of a listing at the address `p` that is executed from its first item to its last. -/
def steps (p : Nat) (js : List Item) : List Control.Event := (offsetsFrom p js).map .step

/-- The listing stands in the code at the address `p`. -/
def Has (p : Nat) (js : List Item) : Prop :=
  ∃ pre post, C.listing = pre ++ js ++ post ∧ codeSize pre = p

theorem apart : Apart C.instructions := by
  rintro i hi j hj hij
  obtain ⟨pre, it, post, hsplit, rfl⟩ := mem_instructionsFrom.1 hi
  obtain ⟨pre', it', post', hsplit', rfl⟩ := mem_instructionsFrom.1 hj
  have hsize : 0 + codeSize pre = 0 + codeSize pre' := hij
  obtain ⟨rfl, hpost⟩ := prefix_unique (by omega) (hsplit.symm.trans hsplit')
  obtain ⟨rfl, -⟩ := List.cons.inj hpost
  rfl

variable {C} {p : Nat} {i : Item} {js ks : List Item} {l : Label} {op : Opcode} {target : Nat}

namespace Has

theorem of_continues {a : Assembly} {is : List Item} (h : C.Continues a (is ++ js)) :
    C.Has (codeSize is) js := by
  obtain ⟨post, hpost⟩ := h.listing
  exact ⟨is, post, hpost.symm, rfl⟩

theorem left (h : C.Has p (js ++ ks)) : C.Has p js := by
  obtain ⟨pre, post, heq, rfl⟩ := h
  exact ⟨pre, ks ++ post, by simpa using heq, rfl⟩

theorem right (h : C.Has p (js ++ ks)) : C.Has (p + codeSize js) ks := by
  obtain ⟨pre, post, heq, rfl⟩ := h
  exact ⟨pre ++ js, post, by simpa using heq, by simp⟩

theorem split (h : C.Has p [i]) :
    ∃ pre post, C.listing = pre ++ i :: post ∧ codeSize pre = p := by
  obtain ⟨pre, post, heq, rfl⟩ := h
  exact ⟨pre, post, by simpa using heq, rfl⟩

theorem mem (h : C.Has p [i]) : i.instructionAt C.assembly.fill p ∈ C.instructions := by
  obtain ⟨pre, post, heq, rfl⟩ := h.split
  exact mem_instructionsFrom.2 ⟨pre, i, post, heq, by rw [Nat.zero_add]⟩

theorem next (h : C.Has p [i]) (hi : i.FallsThrough) :
    Moves C.instructions p [.step p] (p + i.size) := by
  obtain ⟨pre, post, heq, -⟩ := h.split
  have hwf : i.WellFormed := C.lays.wellFormed_of_split heq
  refine .next (i := i.instructionAt C.assembly.fill p) h.mem ?_
  cases i with
  | plain op operands =>
    have hrel : (op.isJump || decide (op = .call)) = false := hwf.1
    rw [Bool.or_eq_false_iff] at hrel
    exact ⟨hrel.1, hi⟩
  | jump op l => exact hi.elim
  | call target => exact ⟨rfl, by simp [Item.instructionAt, Item.opcode],
      by simp [Item.instructionAt, Item.opcode]⟩

/-- A listing without jumps is executed from its first item to its last. -/
theorem passes (h : C.Has p js) (hjs : ∀ i ∈ js, i.FallsThrough) :
    Passes C.instructions p (steps p js) (p + codeSize js) := by
  induction js generalizing p with
  | nil => exact .refl
  | cons i js ih =>
    have hboth : C.Has p ([i] ++ js) := h
    have hi : C.Has p [i] := hboth.left
    have hrest : C.Has (p + i.size) js := by simpa using hboth.right
    have hmove := hi.next (hjs i (by simp))
    rw [codeSize_cons, ← Nat.add_assoc]
    exact .head hmove (ih hrest fun j hj => hjs j (List.mem_cons_of_mem _ hj))

theorem target_eq (h : C.Has p [.jump op l]) (hl : C.address? l = some target) :
    ((Item.jump op l).instructionAt C.assembly.fill p).target? = some target := by
  obtain ⟨pre, post, heq, rfl⟩ := h.split
  exact C.lays.target_jump heq hl

theorem jump (h : C.Has p [.jump .jump l]) (hl : C.address? l = some target) :
    Moves C.instructions p [] target :=
  .jump (i := (Item.jump .jump l).instructionAt C.assembly.fill p) h.mem rfl (h.target_eq hl)

theorem test {o : Comparison} (h : C.Has p [.jump o.jump l]) (hl : C.address? l = some target)
    (x y : Int32) :
    Moves C.instructions p [.test p x y] (if o.holds x y then target else p + 3) := by
  have hsize : (Item.jump o.jump l).size = 3 :=
    Opcode.size_of_isRelative (Opcode.isRelative_of_isJump o.isJump_jump)
  have := Moves.test (i := (Item.jump o.jump l).instructionAt C.assembly.fill p) h.mem rfl
    (h.target_eq hl) x y
  rwa [Instruction.size, show ((Item.jump o.jump l).instructionAt C.assembly.fill p).opcode.size =
    (Item.jump o.jump l).size from rfl, hsize] at this

end Has

end Code

end MicroJava
