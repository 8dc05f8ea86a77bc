import MicroJava.Proofs.Methods

/-!
# Where jumps and calls go

The code of every compilation is read back, and its jumps and calls go where an instruction starts: a
jump to one of the same method, a call to the `enter` of a method that is not behind the caller
(`compile_wellTargeted`). This holds whatever mistakes the source text has.
-/

namespace MicroJava

/-- Jumps stay in their method, calls and the program start at an `enter`. -/
structure WellTargeted (is : List Instruction) (entry : Option Nat) : Prop where
  enter : ∀ m ∈ Instruction.methods is, ∀ first ∈ m.head?, first.opcode = .enter
  jump : ∀ m ∈ Instruction.methods is, ∀ i ∈ m, i.opcode.isJump →
    ∃ j ∈ m, i.target? = some j.offset
  call : ∀ m ∈ Instruction.methods is, ∀ i ∈ m, i.opcode = .call →
    ∃ e ∈ is, e.opcode = .enter ∧ i.target? = some e.offset ∧
      ∀ first ∈ m.head?, e.offset ≤ first.offset
  entry : ∀ a, entry = some a → ∃ e ∈ is, e.opcode = .enter ∧ e.offset = a

namespace Finished

open Segment

variable {limit : Nat} {s : Session} {gs : List Segment} {image : Image} {g : Segment}

theorem jump (h : Finished limit s gs image) (hg : g ∈ gs) {i : Instruction}
    (hi : i ∈ g.instructions s.assembly.fill) (hop : i.opcode.isJump) :
    ∃ j ∈ g.instructions s.assembly.fill, i.target? = some j.offset := by
  obtain ⟨pre, it, post, hsplit, rfl⟩ := mem_instructionsFrom.1 hi
  obtain ⟨pre', j, post', hbody, htarget, -⟩ := h.jump_target hg hsplit hop
  refine ⟨_, mem_instructionsFrom.2 ⟨g.start :: pre', j, post', ?_, rfl⟩, htarget⟩
  rw [items, hbody, List.cons_append]

theorem call (h : Finished limit s gs image) (hg : g ∈ gs) {i : Instruction}
    (hi : i ∈ g.instructions s.assembly.fill) (hop : i.opcode = .call) :
    ∃ g' ∈ gs, i.target? = some g'.address ∧ g'.address ≤ g.address := by
  obtain ⟨pre, it, post, hsplit, rfl⟩ := mem_instructionsFrom.1 hi
  obtain ⟨before, after, hcode, hoffset⟩ := h.split hg hsplit
  obtain ⟨target, rfl⟩ := Item.eq_call_of_opcode (h.linked.lays.wellFormed_of_split hcode) hop
  have hbody : .call target ∈ g.body := mem_body hsplit (by simp [Item.opcode])
  obtain ⟨p, b, ⟨g', hg', haddress, -⟩, hle⟩ := (h.linked.wired g hg).call target hbody
  refine ⟨g', hg', ?_, by rwa [haddress]⟩
  rw [← hoffset, haddress]
  exact h.linked.lays.target_call hcode

theorem wellTargeted (h : Finished limit s gs image) :
    WellTargeted (gs.flatMap (instructions s.assembly.fill)) image.entry where
  enter := by
    rw [h.methods]
    intro m hm first hfirst
    obtain ⟨g, -, rfl⟩ := List.mem_map.1 hm
    rw [instructions_eq, List.head?_cons, Option.mem_some_iff] at hfirst
    rw [← hfirst]
    rfl
  jump := by
    rw [h.methods]
    intro m hm i hi hop
    obtain ⟨g, hg, rfl⟩ := List.mem_map.1 hm
    exact h.jump hg hi hop
  call := by
    rw [h.methods]
    intro m hm i hi hop
    obtain ⟨g, hg, rfl⟩ := List.mem_map.1 hm
    obtain ⟨g', hg', htarget, hle⟩ := h.call hg hi hop
    refine ⟨_, mem_enter hg', rfl, htarget, fun first hfirst => ?_⟩
    rw [instructions_eq, List.head?_cons, Option.mem_some_iff] at hfirst
    rw [← hfirst]
    exact hle
  entry := by
    intro a ha
    rw [h.unpatched.2] at ha
    obtain ⟨g, hg, rfl⟩ := h.linked.entry a ha
    exact ⟨_, mem_enter hg, rfl, rfl⟩

end Finished

/-- Whatever the source text, the code of a compilation is read back, its jumps go to instructions of
the same method, its calls to methods that are not behind the caller, and the program starts with a
method. -/
theorem compile_wellTargeted {source : String} {options : Options} {c : Compilation}
    (h : compile source options = .ok c) :
    ∃ is, Instruction.decode c.image.code.toList = .ok is ∧ WellTargeted is c.image.entry := by
  obtain ⟨s, gs, hfinished, -⟩ := finished_of_compile h
  exact ⟨_, hfinished.decode, hfinished.wellTargeted⟩

theorem compile_wellTargeted_loop :
    ∃ c is, compile
        "program P { void f() { } void main() int i; { while (i < 3) { f(); i++; } } }" = .ok c ∧
      Instruction.decode c.image.code.toList = .ok is ∧ is.length = 12 ∧
        WellTargeted is c.image.entry := by
  let code : Array UInt8 := #[51, 0, 0, 52, 50, 51, 0, 1, 2, 18, 48, 0, 9, 49, 255, 240, 31, 0, 1,
    42, 255, 242, 52, 50]
  have hcompile : compile
      "program P { void f() { } void main() int i; { while (i < 3) { f(); i++; } } }" =
        .ok ⟨⟨code, 0, some 5⟩, []⟩ := by
    decide +kernel
  obtain ⟨is, hdecode, htargets⟩ := compile_wellTargeted hcompile
  have hlength : (Instruction.decode code.toList).map List.length = .ok 12 := by decide +kernel
  rw [hdecode] at hlength
  exact ⟨_, is, hcompile, hdecode, Except.ok.inj hlength, htargets⟩

end MicroJava
