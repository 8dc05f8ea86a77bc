import Mathlib.Data.List.SplitBy
import MicroJava.Proofs.Segment

/-!
# The methods of finished code

In finished code every jump has its distance, so it is read back with the address of its label
(`Lays.target_jump`), and the code is read back as the instructions of its segments, which are the
pieces that start with `enter` (`Finished.methods`).
-/

namespace MicroJava

/-- The instructions of code, cut in front of each `enter`. -/
def Instruction.methods (is : List Instruction) : List (List Instruction) :=
  is.splitBy fun _ j => j.opcode ≠ .enter

/-- Lists that start with the only `enter` in them are the methods of their sequence. -/
theorem Instruction.methods_flatten {ms : List (List Instruction)}
    (h : ∀ m ∈ ms, ∃ i is, m = i :: is ∧ i.opcode = .enter ∧ ∀ j ∈ is, j.opcode ≠ .enter) :
    Instruction.methods ms.flatten = ms := by
  refine List.splitBy_flatten (fun hnil => ?_) (fun m hm => ?_) ?_
  · obtain ⟨_, _, heq, -⟩ := h _ hnil
    contradiction
  · obtain ⟨i, is, rfl, -, his⟩ := h m hm
    refine List.Pairwise.isChain (List.pairwise_cons.2 ⟨fun j hj => decide_eq_true (his j hj), ?_⟩)
    exact List.pairwise_of_forall_mem_list fun _ _ j hj => decide_eq_true (his j hj)
  · refine List.Pairwise.isChain (List.pairwise_of_forall_mem_list fun m hm m' hm' => ?_)
    obtain ⟨i, is, rfl, -, -⟩ := h m hm
    obtain ⟨j, js, rfl, hj, -⟩ := h m' hm'
    exact ⟨by simp, by simp, by simp [hj]⟩

section Reading

variable {fill : Nat → Label → Int} {o : Nat} {is : List Item}

theorem mem_instructionsFrom {i : Instruction} :
    i ∈ instructionsFrom fill o is ↔
      ∃ pre it post, is = pre ++ it :: post ∧ i = it.instructionAt fill (o + codeSize pre) := by
  constructor
  · induction is generalizing o with
    | nil => simp [instructionsFrom]
    | cons j is ih =>
      intro h
      rcases List.mem_cons.1 h with rfl | h
      · exact ⟨[], j, is, rfl, rfl⟩
      · obtain ⟨pre, it, post, rfl, rfl⟩ := ih h
        exact ⟨j :: pre, it, post, rfl, by rw [codeSize_cons, Nat.add_assoc]⟩
  · rintro ⟨pre, it, post, rfl, rfl⟩
    rw [instructionsFrom_append, instructionsFrom]
    simp

theorem Item.target?_instructionAt {i : Item} {d : Int} {target : Nat}
    (hrel : i.opcode.isRelative) (hoperands : i.operandsAt fill o = [d])
    (hd : Emission.InReach d) (htarget : d = (target : Int) - (o + 3)) :
    (i.instructionAt fill o).target? = some target := by
  have hdecode : Field.signedShort.decode (Field.signedShort.encode d) = d := by
    refine Field.decode_encode ?_
    have hspan : byteSpan 2 = 65536 := rfl
    simp only [Field.Holds, Field.signedShort, hspan, if_true]
    exact ⟨by have := hd.1; omega, by have := hd.2; omega⟩
  have hsum : (o + 3 : Int) + d = target := by omega
  simp [Instruction.target?, instructionAt, hrel, hoperands, Opcode.fields_of_isRelative hrel,
    hdecode, hsum]

end Reading

theorem Item.eq_jump_of_isJump {i : Item} (h : i.WellFormed) (hop : i.opcode.isJump) :
    ∃ op l, i = .jump op l := by
  cases i with
  | plain op operands =>
    have hrel : op.isRelative := Opcode.isRelative_of_isJump hop
    rw [h.1] at hrel
    contradiction
  | jump op l => exact ⟨op, l, rfl⟩
  | call target => contradiction

theorem Item.eq_call_of_opcode {i : Item} (h : i.WellFormed) (hop : i.opcode = .call) :
    ∃ target, i = .call target := by
  cases i with
  | plain op operands =>
    obtain rfl : op = .call := hop
    exact absurd h.1 (by decide)
  | jump op l =>
    obtain rfl : op = .call := hop
    exact absurd h (by simp [WellFormed, Opcode.isJump])
  | call target => exact ⟨target, rfl⟩

namespace Lays

variable {a : Assembly} {is pre post : List Item} {op : Opcode} {l : Label} {target : Nat}

theorem wellFormed_of_split {i : Item} (h : Lays a is) (hsplit : is = pre ++ i :: post) :
    i.WellFormed :=
  h.wellFormed i (by simp [hsplit])

theorem resolved (h : Lays a is) (hfinished : a.unpatched = 0) (hl : .jump op l ∈ is) :
    ∃ A, a.address? l = some A := by
  obtain ⟨st, hst⟩ : ∃ st, a.label? l = some st :=
    ⟨_, Array.getElem?_eq_getElem (h.known op l hl)⟩
  rcases st with ps | A
  · -- the jump itself would wait for its label
    have hwaiting := Assembly.unpatched_eq_zero_iff.1 hfinished l _ hst
    obtain ⟨pre, post, hsplit⟩ := List.append_of_mem hl
    have hp : 0 + codeSize pre + 1 ∈ ps := by
      rw [h.pending l ps hst]
      exact mem_positionsFrom.2 ⟨pre, op, post, hsplit, rfl⟩
    rw [List.length_eq_zero_iff.1 hwaiting] at hp
    simp at hp
  · exact ⟨A, by simp [Assembly.address?, hst]⟩

theorem target_jump (h : Lays a is) (hsplit : is = pre ++ .jump op l :: post)
    (hl : a.address? l = some target) :
    ((Item.jump op l).instructionAt a.fill (codeSize pre)).target? = some target := by
  have hfill : a.fill (codeSize pre + 1) l = (target : Int) - (codeSize pre + 3) := by
    simp only [Assembly.fill, hl]
    omega
  exact Item.target?_instructionAt (Item.isRelative_jump (h.wellFormed_of_split hsplit)) rfl
    (h.fit _ _ _ hsplit) hfill

theorem target_call (h : Lays a is) (hsplit : is = pre ++ .call target :: post) :
    ((Item.call target).instructionAt a.fill (codeSize pre)).target? = some target :=
  Item.target?_instructionAt rfl rfl (h.fit _ _ _ hsplit) rfl

end Lays

namespace Segment

/-- The instructions of a segment. -/
def instructions (fill : Nat → Label → Int) (g : Segment) : List Instruction :=
  instructionsFrom fill g.address g.items

variable {fill : Nat → Label → Int} {g : Segment}

theorem instructions_eq :
    g.instructions fill = g.start.instructionAt fill g.address ::
      instructionsFrom fill (g.address + g.start.size) g.body :=
  rfl

theorem opcode_ne_enter (hbody : ∀ i ∈ g.body, i.opcode ≠ .enter) {o : Nat} {i : Instruction}
    (hi : i ∈ instructionsFrom fill o g.body) : i.opcode ≠ .enter := by
  obtain ⟨pre, it, post, hsplit, rfl⟩ := mem_instructionsFrom.1 hi
  exact hbody it (by simp [hsplit])

theorem methods_flatMap {gs : List Segment} (h : ∀ g ∈ gs, ∀ i ∈ g.body, i.opcode ≠ .enter) :
    Instruction.methods (gs.flatMap (instructions fill)) = gs.map (instructions fill) := by
  rw [List.flatMap_def]
  refine Instruction.methods_flatten fun m hm => ?_
  obtain ⟨g, hg, rfl⟩ := List.mem_map.1 hm
  exact ⟨_, _, instructions_eq, rfl, fun j hj => opcode_ne_enter (h g hg) hj⟩

theorem mem_body {pre post : List Item} {i : Item} (hsplit : g.items = pre ++ i :: post)
    (hi : i.opcode ≠ .enter) : i ∈ g.body := by
  have hmem : i ∈ g.items := by simp [hsplit]
  rcases List.mem_cons.1 hmem with rfl | hmem
  · exact absurd rfl hi
  · exact hmem

end Segment

open Segment

theorem instructionsFrom_flatMap {fill : Nat → Label → Int} {gs : List Segment} {o : Nat}
    (h : ∀ pre g post, gs = pre ++ g :: post → g.address = o + codeSize (pre.flatMap items)) :
    instructionsFrom fill o (gs.flatMap items) = gs.flatMap (instructions fill) := by
  induction gs generalizing o with
  | nil => rfl
  | cons g gs ih =>
    have hg : g.address = o := h [] g gs rfl
    rw [List.flatMap_cons, List.flatMap_cons, instructionsFrom_append, Segment.instructions, hg]
    congr 1
    refine ih fun pre g' post hsplit => ?_
    have := h (g :: pre) g' post (by rw [hsplit, List.cons_append])
    rw [this, List.flatMap_cons, codeSize_append, Nat.add_assoc]

/-- The image of a session whose code is that of the segments. -/
structure Finished (limit : Nat) (s : Session) (gs : List Segment) (image : Image) : Prop where
  linked : Linked limit .none s gs
  finish : s.assembly.finish = .ok image

namespace Finished

variable {limit : Nat} {s : Session} {gs : List Segment} {image : Image}

theorem unpatched (h : Finished limit s gs image) : s.assembly.unpatched = 0 ∧
    image = { code := s.assembly.code, dataSize := s.assembly.dataSize,
              entry := s.assembly.entry } := by
  have hfinish := h.finish
  unfold Assembly.finish at hfinish
  split at hfinish
  · next hzero => exact ⟨hzero, (Except.ok.inj hfinish).symm⟩
  · simp at hfinish

theorem decode (h : Finished limit s gs image) :
    Instruction.decode image.code.toList = .ok (gs.flatMap (instructions s.assembly.fill)) := by
  rw [h.unpatched.2, h.linked.lays.decode, instructionsFrom_flatMap]
  intro pre g post hsplit
  rw [h.linked.address pre g post hsplit, Nat.zero_add]

theorem methods (h : Finished limit s gs image) :
    Instruction.methods (gs.flatMap (instructions s.assembly.fill)) =
      gs.map (instructions s.assembly.fill) :=
  methods_flatMap fun g hg => (h.linked.wired g hg).enter

theorem mem_enter {fill : Nat → Label → Int} {g : Segment} (hg : g ∈ gs) :
    g.start.instructionAt fill g.address ∈ gs.flatMap (instructions fill) :=
  List.mem_flatMap.2 ⟨g, hg, by rw [instructions_eq]; exact List.mem_cons_self⟩

/-- Where an item of a segment stands in the code. -/
theorem split (h : Finished limit s gs image) {g : Segment} (hg : g ∈ gs) {pre post : List Item}
    {i : Item} (hsplit : g.items = pre ++ i :: post) :
    ∃ before after, gs.flatMap items = before ++ i :: after ∧
      codeSize before = g.address + codeSize pre := by
  obtain ⟨gs₁, gs₂, rfl⟩ := List.append_of_mem hg
  refine ⟨gs₁.flatMap items ++ pre, post ++ gs₂.flatMap items, ?_, ?_⟩
  · rw [List.flatMap_append, List.flatMap_cons, hsplit]
    simp
  · rw [codeSize_append, h.linked.address gs₁ g gs₂ rfl]

/-- A jump of a method goes to an item of its body, in front of which the stack is empty. -/
theorem jump_target (h : Finished limit s gs image) {g : Segment} (hg : g ∈ gs)
    {pre post : List Item} {i : Item} (hsplit : g.items = pre ++ i :: post)
    (hop : i.opcode.isJump) :
    ∃ pre' j post', g.body = pre' ++ j :: post' ∧
      (i.instructionAt s.assembly.fill (g.address + codeSize pre)).target? =
        some (g.address + codeSize (g.start :: pre')) ∧
      (s.mistakes = 0 → Flows (callees gs) g.value 0 pre' 0) := by
  obtain ⟨before, after, hcode, hoffset⟩ := h.split hg hsplit
  obtain ⟨op, l, rfl⟩ := Item.eq_jump_of_isJump (h.linked.lays.wellFormed_of_split hcode) hop
  have hbody : .jump op l ∈ g.body := mem_body hsplit fun henter => by
    have henter : op = .enter := henter
    have hop : op.isJump := hop
    rw [henter] at hop
    contradiction
  have hmem : .jump op l ∈ gs.flatMap items := by simp [hcode]
  obtain ⟨A, hA⟩ := h.linked.lays.resolved h.unpatched.1 hmem
  obtain ⟨pre', j, post', hsplit', rfl, hflows⟩ := (h.linked.wired g hg).jump op l hbody A hA
  refine ⟨pre', j, post', hsplit', ?_, hflows⟩
  rw [← hoffset]
  exact h.linked.lays.target_jump hcode hA

end Finished

/-- The image of a compilation consists of methods. -/
theorem finished_of_compile {source : String} {options : Options} {c : Compilation}
    (h : compile source options = .ok c) :
    ∃ s gs, Finished options.maxLocals s gs c.image ∧ c.diagnostics = s.journal.log.toList ∧
      Production.Runs (.ofStream options (Token.scan source)) Production.sourceFile
        (.start (Token.scan source) options) () s := by
  obtain ⟨s, hrun, hfinish, hlog⟩ := runs_of_compile h
  obtain ⟨gs, hlinked⟩ := linked_of_run hrun
  exact ⟨s, gs, ⟨hlinked, hfinish⟩, hlog, hrun⟩

end MicroJava
