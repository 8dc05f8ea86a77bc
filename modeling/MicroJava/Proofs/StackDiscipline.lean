import MicroJava.Proofs.Methods
import MicroJava.Proofs.SourceFile

/-!
# The discipline of the expression stack

In the code of a program without mistakes, every instruction finds the expression stack equally deep
on all ways that lead to it (`Disciplined`). The depth at an instruction is the one that the items in
front of it leave, read in the order of the code (`Flows.exists_depths`); what they leave is determined,
since no two methods start at one address (`Linked.callees_unique`), so it is also the depth at the
label of a jump. The code of a compilation without diagnostics has this discipline
(`compile_disciplined`).
-/

namespace MicroJava

namespace Instruction

/-- A method that gives a value ends in a trap, which is reached only where it returns none. -/
def givesValue (m : List Instruction) : Bool :=
  m.getLast?.any fun i => i.opcode = .trap ∧ i.operands = [1]

/-- The next instruction may be run behind this one. -/
def fallsThrough (i : Instruction) : Bool :=
  i.opcode ≠ .jump ∧ i.opcode ≠ .ret ∧ i.opcode ≠ .trap

/-- How many values an instruction takes from the expression stack and leaves there, in a method that
gives a value or not. A call takes as many as the `enter` of the method called says. -/
def Moves (methods : List (List Instruction)) (value : Bool) (i : Instruction)
    (pops pushes : Nat) : Prop :=
  if i.opcode = .call then
    ∃ m ∈ methods, ∃ e ∈ m.head?, i.target? = some e.offset ∧
      e.operands.head? = some (pops : Int) ∧ pushes = (givesValue m).toNat
  else if i.opcode = .ret then pops = value.toNat ∧ pushes = 0
  else pops = i.opcode.pops ∧ pushes = i.opcode.pushes

end Instruction

open Instruction

/-- The expression stack of a method is as deep as `depth` says at each offset. -/
structure Disciplined (methods : List (List Instruction)) (m : List Instruction)
    (depth : Nat → Nat) : Prop where
  enter : ∀ e ∈ m.head?, depth (e.offset + e.size) = 0
  step : ∀ i ∈ m, ∃ pops pushes, i.Moves methods (givesValue m) pops pushes ∧
    pops ≤ depth i.offset ∧
    (i.fallsThrough → ∃ j ∈ m, j.offset = i.offset + i.size ∧
      depth j.offset = depth i.offset - pops + pushes) ∧
    (i.opcode.isJump → ∃ j ∈ m, i.target? = some j.offset ∧
      depth j.offset = depth i.offset - pops + pushes)
  ret : ∀ i ∈ m, i.opcode = .ret → depth i.offset = (givesValue m).toNat

/-! ### The depth at an item -/

/-- No two methods start at one address. -/
def Callees.Unique (calls : Callees) : Prop :=
  ∀ a p b p' b', calls a p b → calls a p' b' → p = p' ∧ b = b'

theorem Item.Effect.unique {calls : Callees} (hcalls : calls.Unique) {returns : Bool} {i : Item}
    {n n₁ n₂ : Nat} (h₁ : i.Effect calls returns n n₁) (h₂ : i.Effect calls returns n n₂) :
    n₁ = n₂ := by
  cases i with
  | plain op operands =>
    unfold Item.Effect at h₁ h₂
    simp only at h₁ h₂
    split at h₁
    · next hop =>
      rw [if_pos hop] at h₂
      exact h₁.2.trans h₂.2.symm
    · next hop =>
      rw [if_neg hop] at h₂
      exact h₁.2.trans h₂.2.symm
  | jump op l => exact h₁.2.trans h₂.2.symm
  | call target =>
    obtain ⟨p, b, hc, -, rfl⟩ := h₁
    obtain ⟨p', b', hc', -, rfl⟩ := h₂
    obtain ⟨rfl, rfl⟩ := hcalls _ _ _ _ _ hc hc'
    rfl

namespace Flows

variable {calls : Callees} {returns : Bool} {n n₁ n₂ n' : Nat} {is js : List Item} {i : Item}

theorem of_cons (h : Flows calls returns n (i :: is) n') :
    ∃ n₁, i.Effect calls returns n n₁ ∧ Flows calls returns n₁ is n' := by
  cases h with
  | cons hi his => exact ⟨_, hi, his⟩

theorem of_append (h : Flows calls returns n (is ++ js) n') :
    ∃ n₁, Flows calls returns n is n₁ ∧ Flows calls returns n₁ js n' := by
  induction is generalizing n with
  | nil => exact ⟨n, .nil, h⟩
  | cons i is ih =>
    obtain ⟨n₁, hi, his⟩ := h.of_cons
    obtain ⟨n₂, h₁, h₂⟩ := ih his
    exact ⟨n₂, .cons hi h₁, h₂⟩

/-- The items in front of each place leave the stack as deep as a function of the place says. -/
theorem exists_depth (h : Flows calls returns n is n') (o : Nat) :
    ∃ depth : Nat → Nat, ∀ pre post, is = pre ++ post →
      Flows calls returns n pre (depth (o + codeSize pre)) := by
  induction h generalizing o with
  | @nil n =>
    refine ⟨fun _ => n, fun pre post hsplit => ?_⟩
    rw [(List.append_eq_nil_iff.1 hsplit.symm).1]
    exact .nil
  | @cons n n₁ n' i is hi _ ih =>
    obtain ⟨depth, hdepth⟩ := ih (o + i.size)
    refine ⟨fun p => if p = o then n else depth p, fun pre post hsplit => ?_⟩
    rcases pre with _ | ⟨j, pre⟩
    · simp only [codeSize_nil, Nat.add_zero, if_true]
      exact .nil
    · obtain ⟨rfl, hrest⟩ := List.cons.inj hsplit
      have hpos := i.size_pos
      have hne : o + i.size + codeSize pre ≠ o := by omega
      simp only [codeSize_cons, ← Nat.add_assoc, if_neg hne]
      exact .cons hi (hdepth pre post hrest)

theorem unique (hcalls : calls.Unique) (h₁ : Flows calls returns n is n₁)
    (h₂ : Flows calls returns n is n₂) : n₁ = n₂ := by
  induction h₁ with
  | nil =>
    cases h₂
    rfl
  | cons hi _ ih =>
    obtain ⟨n, hi', his⟩ := h₂.of_cons
    rw [hi'.unique hcalls hi] at his
    exact ih his

/-- Where each item has one effect, each place has one depth, and the item at a place leads from its depth
to that of the next place. -/
theorem exists_depths (hcalls : calls.Unique) (h : Flows calls returns n is n') (o : Nat) :
    ∃ depth : Nat → Nat,
      (∀ pre post m, is = pre ++ post → Flows calls returns n pre m → depth (o + codeSize pre) = m) ∧
      ∀ pre i post, is = pre ++ i :: post →
        i.Effect calls returns (depth (o + codeSize pre)) (depth (o + codeSize pre + i.size)) := by
  obtain ⟨depth, hdepth⟩ := h.exists_depth o
  have hat : ∀ pre post m, is = pre ++ post → Flows calls returns n pre m →
      depth (o + codeSize pre) = m := fun pre post m hsplit hflows =>
    (hdepth pre post hsplit).unique hcalls hflows
  refine ⟨depth, hat, fun pre i post hsplit => ?_⟩
  have hnext := hdepth (pre ++ [i]) post (by rw [hsplit]; simp)
  obtain ⟨n₁, hpre, hi⟩ := hnext.of_append
  obtain ⟨n₂, hi, hnil⟩ := hi.of_cons
  obtain rfl := hat pre _ n₁ hsplit hpre
  cases hnil
  rwa [codeSize_append, ← Nat.add_assoc, codeSize_cons, codeSize_nil, Nat.add_zero] at hi

end Flows

/-! ### The segments -/

open Segment

namespace Linked

variable {limit : Nat} {own : EntryId} {s : Session} {gs : List Segment} {g g' : Segment}

theorem address_lt (h : Linked limit own s gs) {pre post : List Segment}
    (hsplit : gs = pre ++ g :: post) (hg' : g' ∈ pre) : g'.address < g.address := by
  obtain ⟨before, between, rfl⟩ := List.append_of_mem hg'
  have hg'' := h.address before g' (between ++ g :: post) (by rw [hsplit]; simp)
  rw [hg'', h.address _ g post hsplit, List.flatMap_append, List.flatMap_cons, codeSize_append,
    codeSize_append, items, codeSize_cons]
  have := g'.start.size_pos
  omega

theorem eq_of_address (h : Linked limit own s gs) (hg : g ∈ gs) (hg' : g' ∈ gs)
    (heq : g.address = g'.address) : g = g' := by
  obtain ⟨pre, post, hsplit⟩ := List.append_of_mem hg
  rw [hsplit] at hg'
  rcases List.mem_append.1 hg' with hmem | hmem
  · have := h.address_lt hsplit hmem
    omega
  · rcases List.mem_cons.1 hmem with rfl | hmem
    · rfl
    · obtain ⟨pre', post', hsplit'⟩ := List.append_of_mem hmem
      have hsplit'' : gs = (pre ++ g :: pre') ++ g' :: post' := by rw [hsplit, hsplit']; simp
      have hlt : g.address < g'.address := h.address_lt hsplit'' (by simp)
      omega

theorem callees_unique (h : Linked limit own s gs) : (callees gs).Unique := by
  rintro a p b p' b' ⟨g, hg, rfl, rfl, rfl⟩ ⟨g', hg', haddress, rfl, rfl⟩
  obtain rfl := h.eq_of_address hg' hg haddress
  exact ⟨rfl, rfl⟩

end Linked

namespace Segment

variable {fill : Nat → Label → Int} {g : Segment} {js : List Item}

theorem givesValue_instructions (hbody : g.body = js ++ ending g.value) :
    givesValue (g.instructions fill) = g.value := by
  have hlast : ∀ o is value, givesValue (instructionsFrom fill o (is ++ ending value)) = value := by
    intro o is value
    rw [instructionsFrom_append, givesValue]
    cases value
    · simp [ending, instructionsFrom, Item.instructionAt, Item.opcode]
    · have htrap : Field.byte.decode (Field.byte.encode 1) = 1 := Field.decode_encode (by decide)
      simp [ending, instructionsFrom, Item.instructionAt, Item.opcode, Item.operandsAt,
        Opcode.fields, htrap]
  rw [instructions, items, hbody, ← List.cons_append]
  exact hlast _ _ _

/-- Behind an instruction that falls through, there is another one. -/
theorem exists_next (hbody : g.body = js ++ ending g.value) {pre post : List Item} {i : Item}
    (hsplit : g.items = pre ++ i :: post)
    (hi : i.opcode ≠ .ret ∧ i.opcode ≠ .trap) : ∃ j rest, post = j :: rest := by
  rcases post with _ | ⟨j, rest⟩
  · have hlast : g.items.getLast? = some i := by simp [hsplit]
    rw [items, hbody, ← List.cons_append, List.getLast?_append] at hlast
    rcases hvalue : g.value with _ | _
    · rw [hvalue] at hlast
      obtain rfl : .plain .ret [] = i := by simpa [ending] using hlast
      exact absurd rfl hi.1
    · rw [hvalue] at hlast
      obtain rfl : .plain .trap [1] = i := by simpa [ending] using hlast
      exact absurd rfl hi.2
  · exact ⟨j, rest, rfl⟩

theorem head?_instructions :
    (g.instructions fill).head? = some (g.start.instructionAt fill g.address) :=
  rfl

theorem operands_start (h : g.parameters ≤ 255) :
    (g.start.instructionAt fill g.address).operands.head? = some (g.parameters : Int) := by
  have hbyte : Field.byte.decode (Field.byte.encode g.parameters) = g.parameters := by
    refine Field.decode_encode ?_
    have hspan : byteSpan 1 = 256 := rfl
    simp only [Field.Holds, Field.byte, hspan, Bool.false_eq_true, if_false]
    omega
  simp [start, Item.instructionAt, Item.opcode, Item.operandsAt, Opcode.fields, hbyte]

end Segment

namespace Finished

variable {limit : Nat} {s : Session} {gs : List Segment} {image : Image} {g : Segment}
  {depth : Nat → Nat}

/-- What an item of a segment takes and leaves. -/
theorem moves (h : Finished limit s gs image) (hclean : s.mistakes = 0) (hlimit : limit ≤ 255)
    (hg : g ∈ gs) {pre post : List Item} {i : Item} (hsplit : g.items = pre ++ i :: post)
    {n n' : Nat} (hi : i.Effect (callees gs) g.value n n') :
    ∃ pops pushes, (i.instructionAt s.assembly.fill (g.address + codeSize pre)).Moves
        (gs.map (instructions s.assembly.fill)) g.value pops pushes ∧
      pops ≤ n ∧ (i.opcode ≠ .ret → n' = n - pops + pushes) ∧
        (i.opcode = .ret → n = g.value.toNat) := by
  obtain ⟨before, after, hcode, hoffset⟩ := h.split hg hsplit
  have hwf := h.linked.lays.wellFormed_of_split hcode
  cases i with
  | plain op operands =>
    have hcall : op ≠ .call := by
      rintro rfl
      exact absurd hwf.1 (by decide)
    by_cases hret : op = .ret
    · subst hret
      have hn : n = g.value.toNat := hi.1
      exact ⟨g.value.toNat, 0, ⟨rfl, rfl⟩, Nat.le_of_eq hn.symm, fun hne => absurd rfl hne,
        fun _ => hn⟩
    · simp only [Item.Effect, if_neg hret] at hi
      refine ⟨op.pops, op.pushes, ?_, hi.1, fun _ => hi.2, fun heq => absurd heq hret⟩
      simp [Moves, Item.instructionAt, Item.opcode, hcall, hret]
  | jump op l =>
    have hcall : op ≠ .call := by
      rintro rfl
      exact absurd hwf (by simp [Item.WellFormed, Opcode.isJump])
    have hret : op ≠ .ret := by
      rintro rfl
      exact absurd hwf (by simp [Item.WellFormed, Opcode.isJump])
    refine ⟨op.pops, 0, ?_, Nat.le_of_eq hi.1.symm, fun _ => ?_, fun heq => absurd heq hret⟩
    · simp [Moves, Item.instructionAt, Item.opcode, hcall, hret, Opcode.pushes_of_isJump hwf]
    · rw [hi.2, hi.1, Nat.sub_self]
  | call target =>
    obtain ⟨p, b, ⟨g', hg', rfl, rfl, rfl⟩, hle, rfl⟩ := hi
    refine ⟨g'.parameters, g'.value.toNat, ?_, hle, fun _ => rfl, fun heq => by contradiction⟩
    obtain ⟨js, hbody⟩ := (h.linked.wired g' hg').ending
    refine ⟨g'.instructions s.assembly.fill, List.mem_map_of_mem hg', _, head?_instructions, ?_,
      operands_start ?_, by rw [givesValue_instructions hbody]⟩
    · rw [← hoffset]
      exact h.linked.lays.target_call hcode
    · exact Nat.le_trans (h.linked.parameters hclean g' hg') hlimit

theorem disciplined (h : Finished limit s gs image) (hclean : s.mistakes = 0)
    (hlimit : limit ≤ 255) (hg : g ∈ gs) :
    ∃ depth, Disciplined (gs.map (instructions s.assembly.fill))
      (g.instructions s.assembly.fill) depth := by
  have hwired := h.linked.wired g hg
  obtain ⟨js, hbody⟩ := hwired.ending
  obtain ⟨n, hn⟩ := hwired.flows hclean
  have hstart : g.start.Effect (callees gs) g.value 0 0 := ⟨Nat.le_refl 0, rfl⟩
  obtain ⟨depth, hat, heffect⟩ :=
    (Flows.cons hstart hn).exists_depths h.linked.callees_unique g.address
  refine ⟨depth, ?_, ?_, ?_⟩
  · intro e he
    rw [head?_instructions, Option.mem_some_iff] at he
    subst he
    exact hat [g.start] g.body 0 rfl (.cons hstart .nil)
  · intro i hi
    obtain ⟨pre, it, post, hsplit, rfl⟩ := mem_instructionsFrom.1 hi
    have hit := heffect pre it post hsplit
    obtain ⟨pops, pushes, hmoves, hle, hafter, -⟩ := h.moves hclean hlimit hg hsplit hit
    rw [givesValue_instructions hbody]
    refine ⟨pops, pushes, hmoves, hle, fun hfalls => ?_, fun hjump => ?_⟩
    · have hop : it.opcode ≠ .jump ∧ it.opcode ≠ .ret ∧ it.opcode ≠ .trap := by
        exact of_decide_eq_true hfalls
      obtain ⟨j, rest, rfl⟩ := exists_next hbody hsplit hop.2
      refine ⟨j.instructionAt s.assembly.fill (g.address + codeSize (pre ++ [it])),
        mem_instructionsFrom.2 ⟨pre ++ [it], j, rest, by rw [hsplit]; simp, rfl⟩, ?_, ?_⟩
      · simp [Item.instructionAt, Instruction.size, Item.size, Nat.add_assoc]
      · show depth (g.address + codeSize (pre ++ [it])) = depth (g.address + codeSize pre) - _ + _
        rw [← hafter hop.2.1, codeSize_append, codeSize_cons, codeSize_nil, Nat.add_zero,
          Nat.add_assoc]
    · obtain ⟨pre', j, post', hsplit', htarget, hflows⟩ := h.jump_target hg hsplit hjump
      have hitems : g.items = (g.start :: pre') ++ j :: post' := by
        rw [items, hsplit', List.cons_append]
      refine ⟨_, mem_instructionsFrom.2 ⟨g.start :: pre', j, post', hitems, rfl⟩, htarget, ?_⟩
      obtain ⟨before, after, hcode, -⟩ := h.split hg hsplit
      obtain ⟨op, l, rfl⟩ :=
        Item.eq_jump_of_isJump (h.linked.lays.wellFormed_of_split hcode) hjump
      have hret : op ≠ .ret := by
        rintro rfl
        contradiction
      show depth (g.address + codeSize (g.start :: pre')) = depth (g.address + codeSize pre) - _ + _
      -- a jump leaves the stack empty
      rw [← hafter hret, hit.2]
      exact hat _ _ 0 hitems (.cons hstart (hflows hclean))
  · intro i hi hret
    obtain ⟨pre, it, post, hsplit, rfl⟩ := mem_instructionsFrom.1 hi
    obtain ⟨_, _, _, _, _, hdepth⟩ :=
      h.moves hclean hlimit hg hsplit (heffect pre it post hsplit)
    rw [givesValue_instructions hbody]
    exact hdepth hret

end Finished

/-- Where a compilation has no diagnostics, each of its methods keeps to the discipline. There must be
too few tokens for the distance between reports to start again from zero. -/
theorem compile_disciplined {source : String} {options : Options} {c : Compilation}
    (h : compile source options = .ok c) (hdiagnostics : c.diagnostics = [])
    (hlocals : options.maxLocals ≤ 255) (hdistance : options.reportDistance.toNat < 2 ^ 31)
    (hlength : (Token.scan source).ahead.length ≤ 2 ^ 31) :
    ∃ is, Instruction.decode c.image.code.toList = .ok is ∧
      ∀ m ∈ methods is, ∃ depth, Disciplined (methods is) m depth := by
  obtain ⟨s, gs, hfinished, hlog, hrun⟩ := finished_of_compile h
  have hreported := Production.reported_of_runs hrun (.inr (by omega))
  have hclean : s.mistakes = 0 := hreported.mistakes (hlog ▸ hdiagnostics)
  refine ⟨_, hfinished.decode, fun m hm => ?_⟩
  rw [hfinished.methods] at hm ⊢
  obtain ⟨g, hg, rfl⟩ := List.mem_map.1 hm
  exact hfinished.disciplined hclean hlocals hg

theorem compile_disciplined_call :
    ∃ c is, compile
        "program P { int f(int n) { return n + 1; } void main() int i; { while (i < 3) i += f(i); } }"
          = .ok c ∧
      c.diagnostics = [] ∧ Instruction.decode c.image.code.toList = .ok is ∧ is.length = 19 ∧
        ∀ m ∈ methods is, ∃ depth, Disciplined (methods is) m depth := by
  let code : Array UInt8 := #[51, 1, 1, 2, 16, 23, 52, 50, 57, 1, 51, 0, 1, 2, 18, 48, 0, 10, 2, 2,
    49, 255, 233, 23, 7, 42, 255, 241, 52, 50]
  have hcompile : compile
      "program P { int f(int n) { return n + 1; } void main() int i; { while (i < 3) i += f(i); } }"
        = .ok ⟨⟨code, 0, some 10⟩, []⟩ := by
    decide +kernel
  obtain ⟨is, hdecode, hdisciplined⟩ :=
    compile_disciplined hcompile rfl (by decide) (by decide) (by decide +kernel)
  have hlength : (Instruction.decode code.toList).map List.length = .ok 19 := by decide +kernel
  rw [hdecode] at hlength
  exact ⟨_, is, hcompile, rfl, hdecode, Except.ok.inj hlength, hdisciplined⟩

end MicroJava
