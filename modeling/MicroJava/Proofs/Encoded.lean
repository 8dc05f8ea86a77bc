import Mathlib.Data.List.Forall2
import MicroJava.Proofs.Bodies
import MicroJava.Proofs.SourceFile

/-!
# Operands in the code

The code of a program is read back as the instructions that were asked for (`Instruction.Reads`), and
where the limits of the options fit the fields of the operands, with the very operands
(`compile_encodes`). Whatever the options are, the variables of the program are as many as the data size
says, and no instruction uses one beyond them; with such limits, no instruction leaves its frame or uses a
field that new objects have no room for (`compile_confined`).
-/

namespace MicroJava

/-- The instruction is what was asked for, with its operands as they are read back from their fields. The
operand of a jump or call is not asked for. -/
structure Instruction.Reads (i : Instruction) (x : Opcode × List Int) : Prop where
  opcode : i.opcode = x.1
  operands : x.1.isRelative = false →
    i.operands = List.zipWith (fun f v => f.decode (f.encode v)) x.1.fields x.2

theorem Item.reads_asked {fill : Nat → Label → Int} {o : Nat} {i : Item} (h : i.WellFormed) :
    (i.instructionAt fill o).Reads i.asked := by
  cases i with
  | plain op operands => exact ⟨rfl, fun _ => rfl⟩
  | jump op l =>
    exact ⟨rfl, fun hrelative => absurd ((Item.isRelative_jump h).symm.trans hrelative) (by simp)⟩
  | call target => exact ⟨rfl, fun hrelative => by contradiction⟩

theorem forall₂_instructionsFrom {fill : Nat → Label → Int} :
    ∀ {is : List Item} {o : Nat}, (∀ i ∈ is, i.WellFormed) →
      List.Forall₂ Instruction.Reads (instructionsFrom fill o is) (is.map Item.asked)
  | [], _, _ => .nil
  | i :: is, o, h => by
    obtain ⟨hi, his⟩ := List.forall_mem_cons.1 h
    exact .cons (Item.reads_asked hi) (forall₂_instructionsFrom his)

theorem exists_mem_of_forall₂ {α β : Type} {R : α → β → Prop} {as : List α} {bs : List β}
    (h : List.Forall₂ R as bs) {a : α} (ha : a ∈ as) : ∃ b ∈ bs, R a b := by
  induction h with
  | nil => simp at ha
  | @cons _ b _ _ hr _ ih =>
    rcases List.mem_cons.1 ha with rfl | ha
    · exact ⟨b, by simp, hr⟩
    · exact (ih ha).imp fun _ h => h.imp_left (List.mem_cons_of_mem _)

theorem forall₂_of_mem {α β : Type} {R S : α → β → Prop} {as : List α} {bs : List β}
    (h : List.Forall₂ R as bs) (hS : ∀ a, ∀ b ∈ bs, R a b → S a b) : List.Forall₂ S as bs := by
  induction h with
  | nil => exact .nil
  | cons hr _ ih => exact .cons (hS _ _ (by simp) hr) (ih fun a b hb => hS a b (List.mem_cons_of_mem _ hb))

/-- What is related to lists that follow each other consists of what is related to each of them. -/
theorem exists_flatten_of_forall₂ {α β γ : Type} {R : α → β → Prop} {f : γ → List β} :
    ∀ {cs : List γ} {as : List α}, List.Forall₂ R as (cs.flatMap f) →
      ∃ ass, as = ass.flatten ∧ List.Forall₂ (fun as c => List.Forall₂ R as (f c)) ass cs
  | [], as, h => ⟨[], List.forall₂_nil_right_iff.1 h, .nil⟩
  | c :: cs, as, h => by
    rw [List.flatMap_cons] at h
    obtain ⟨ass, hass, hrest⟩ := exists_flatten_of_forall₂ (List.forall₂_drop_append _ _ _ h)
    refine ⟨as.take (f c).length :: ass, ?_, .cons (List.forall₂_take_append _ _ _ h) hrest⟩
    rw [List.flatten_cons, ← hass, List.take_append_drop]

/-! ### Operands that fit their fields -/

/-- What fits its fields is read back as it is. -/
theorem Instruction.Reads.operands_eq {i : Instruction} {x : Opcode × List Int} (h : i.Reads x)
    (hrelative : x.1.isRelative = false) (hfits : List.Forall₂ Field.Holds x.1.fields x.2) :
    i.operands = x.2 := by
  rw [h.operands hrelative, zipWith_decode_encode hfits]

namespace Field

theorem holds_short {n : Nat} (h : n < 65536) : short.Holds (n : Int) := by
  simp only [Holds, short, byteSpan]
  simp
  omega

theorem holds_byte {n : Nat} (h : n < 256) : byte.Holds (n : Int) := by
  simp only [Holds, byte, byteSpan]
  simp
  omega

theorem holds_word (v : Int32) : word.Holds v.toInt := by
  have hle := v.le_toInt
  have hlt := v.toInt_lt
  simp only [Holds, word, byteSpan]
  simp
  omega

/-- A number without a sign is not read back as a larger one. -/
theorem decode_encode_le {f : Field} (hf : f.signed = false) (n : Nat) :
    ∃ m : Nat, f.decode (f.encode n) = m ∧ m ≤ n := by
  refine ⟨ofBigEndian (f.encode n), by simp [decode, hf], ?_⟩
  have heq : (ofBigEndian (f.encode n) : Int) = (n : Int) % byteSpan f.width := ofBigEndian_bigEndian _ _
  have hle := Nat.mod_le n (byteSpan f.width)
  omega

end Field

/-- The instruction uses a global variable. -/
def Opcode.IsStatic (op : Opcode) : Prop := op = .getStatic ∨ op = .putStatic

/-- The instruction uses a field. -/
def Opcode.IsField (op : Opcode) : Prop := op = .getField ∨ op = .putField

theorem Opcode.frameSlot?_of_isRelative {op : Opcode} (h : op.isRelative = true) (operands : List Int) :
    op.frameSlot? operands = none := by
  cases op <;> first | contradiction | rfl

theorem Opcode.frameSlot?_of_isStatic {op : Opcode} (h : op.IsStatic) (operands : List Int) :
    op.frameSlot? operands = none := by
  rcases h with rfl | rfl <;> rfl

namespace Bounds

variable {B : Bounds} {op : Opcode} {operands : List Int}

theorem Allows.ne_enter (h : B.Allows op operands) : op ≠ .enter := by
  cases h with
  | bare hbare => rintro rfl; contradiction
  | load hslot => unfold Emission.frameLoadCode; split <;> simp
  | store hslot => unfold Emission.frameStoreCode; split <;> simp
  | static hop _ => rcases hop with rfl | rfl <;> simp
  | field hop _ => rcases hop with rfl | rfl <;> simp
  | _ => simp

/-- Operands within bounds that fit their fields do. -/
theorem Allows.fits (h : B.Allows op operands) (hrelative : op.isRelative = false)
    (hslots : B.slots ≤ 256) (hglobals : op.IsStatic → B.globals ≤ 65536)
    (hsize : ∀ t, B.size t ≤ 65535) : List.Forall₂ Field.Holds op.fields operands := by
  cases h with
  | bare hbare =>
    have hempty : op.fields.isEmpty := by
      simpa [Opcode.isBare, hrelative] using (Bool.and_eq_true_iff.1 hbare).2
    rw [List.isEmpty_iff.1 hempty]
    exact .nil
  | const v => exact .cons (Field.holds_word v) .nil
  | newArray hkind =>
    rcases hkind with rfl | rfl <;> exact .cons (by decide) .nil
  | trap => exact .cons (by decide) .nil
  | load hslot =>
    unfold Emission.frameLoadCode
    split
    all_goals first | exact .nil | exact .cons (Field.holds_short (by omega)) .nil
  | store hslot =>
    unfold Emission.frameStoreCode
    split
    all_goals first | exact .nil | exact .cons (Field.holds_short (by omega)) .nil
  | inc hslot hstep =>
    refine .cons (Field.holds_byte (by omega)) (.cons ?_ .nil)
    rcases hstep with rfl | rfl <;> decide
  | static hop hslot =>
    have := hglobals hop
    rcases hop with rfl | rfl <;> exact .cons (Field.holds_short (by omega)) .nil
  | @field _ t slot hop hslot =>
    have := hsize t
    rcases hop with rfl | rfl <;> exact .cons (Field.holds_short (by omega)) .nil
  | newObject t =>
    have := hsize t
    exact .cons (Field.holds_short (by omega)) .nil

/-- An instruction that uses a slot of the frame uses one within the bounds. -/
theorem Allows.frameSlot_lt (h : B.Allows op operands) {slot : Int}
    (hslot : op.frameSlot? operands = some slot) : ∃ n : Nat, slot = n ∧ n < B.slots := by
  cases h with
  | bare hbare =>
    have hnone : op.frameSlot? [] = none := by
      simpa [Opcode.isBare] using (Bool.and_eq_true_iff.1 hbare).1
    rw [hnone] at hslot
    contradiction
  | load h =>
    rw [Emission.frameSlot?_frameLoadCode] at hslot
    exact ⟨_, (Option.some.inj hslot).symm, h⟩
  | store h =>
    rw [Emission.frameSlot?_frameStoreCode] at hslot
    exact ⟨_, (Option.some.inj hslot).symm, h⟩
  | inc h _ => exact ⟨_, (Option.some.inj hslot).symm, h⟩
  | static hop _ => rcases hop with rfl | rfl <;> simp [Opcode.frameSlot?] at hslot
  | field hop _ => rcases hop with rfl | rfl <;> simp [Opcode.frameSlot?] at hslot
  | _ => simp [Opcode.frameSlot?] at hslot

/-- Which global variable, field or size an instruction is given. -/
theorem Allows.operand (h : B.Allows op operands) :
    (op.IsStatic → ∃ slot : Nat, operands = [(slot : Int)] ∧ slot < B.globals) ∧
    (op.IsField → ∃ t, ∃ slot : Nat, operands = [(slot : Int)] ∧ slot < B.size t) ∧
    (op = .newObject → ∃ t, operands = [(B.size t : Int)]) := by
  cases h with
  | static hop hslot =>
    refine ⟨fun _ => ⟨_, rfl, hslot⟩, fun hop' => ?_, fun hop' => ?_⟩
    · rcases hop with rfl | rfl <;> rcases hop' with hop' | hop' <;> contradiction
    · rcases hop with rfl | rfl <;> contradiction
  | field hop hslot =>
    refine ⟨fun hop' => ?_, fun _ => ⟨_, _, rfl, hslot⟩, fun hop' => ?_⟩
    · rcases hop with rfl | rfl <;> rcases hop' with hop' | hop' <;> contradiction
    · rcases hop with rfl | rfl <;> contradiction
  | newObject t =>
    exact ⟨fun hop => by rcases hop with hop | hop <;> contradiction,
      fun hop => by rcases hop with hop | hop <;> contradiction, fun _ => ⟨t, rfl⟩⟩
  | bare hbare =>
    refine ⟨?_, ?_, ?_⟩
    · rintro (rfl | rfl) <;> contradiction
    · rintro (rfl | rfl) <;> contradiction
    · rintro rfl
      contradiction
  | load _ =>
    unfold Emission.frameLoadCode
    split <;> simp [Opcode.IsStatic, Opcode.IsField]
  | store _ =>
    unfold Emission.frameStoreCode
    split <;> simp [Opcode.IsStatic, Opcode.IsField]
  | _ => simp [Opcode.IsStatic, Opcode.IsField]

/-- A global variable is one of those of the program, even if its number does not fit. -/
theorem Allows.static_lt (h : B.Allows op operands) (hop : op.IsStatic) :
    ∃ n : Nat, List.zipWith (fun f v => f.decode (f.encode v)) op.fields operands = [(n : Int)] ∧
      n < B.globals := by
  obtain ⟨slot, rfl, hslot⟩ := h.operand.1 hop
  obtain ⟨m, hm, hle⟩ := Field.decode_encode_le (show Field.short.signed = false from rfl) slot
  have hfields : op.fields = [.short] := by rcases hop with rfl | rfl <;> rfl
  exact ⟨m, by simp [hfields, hm], by omega⟩

end Bounds

/-! ### Programs -/

/-- The instructions of a method keep within the frame that its `enter` makes. -/
def StaysInFrame (m : List Instruction) : Prop :=
  ∃ i body, ∃ parameters size : Nat, m = i :: body ∧ i.opcode = .enter ∧
    i.operands = [(parameters : Int), (size : Int)] ∧ parameters ≤ size ∧
      ∀ j ∈ body, ∀ slot, j.opcode.frameSlot? j.operands = some slot → 0 ≤ slot ∧ slot < size

namespace Session.Opened

variable {options : Options} {bs : List Body} {s : Session}

/-- The code is read back as what was asked for. -/
theorem reads (h : s.Opened options bs) :
    ∃ is, Instruction.decode s.assembly.code.toList = .ok is ∧
      List.Forall₂ Instruction.Reads is (bs.flatMap Body.all) := by
  obtain ⟨js, hlays, hjs⟩ := h.asked.echoes
  refine ⟨_, hlays.decode, ?_⟩
  rw [← h.asked.asked, ← hjs]
  exact forall₂_instructionsFrom hlays.wellFormed

/-- Where the limits fit, so does everything that was asked for. -/
theorem fits (h : s.Opened options bs) (hclean : s.mistakes = 0) (hlocals : options.maxLocals ≤ 255)
    (hfields : options.maxFields ≤ 65535) {x : Opcode × List Int} (hx : x ∈ bs.flatMap Body.all)
    (hglobals : x.1.IsStatic → options.maxGlobals ≤ 65536) (hrelative : x.1.isRelative = false) :
    List.Forall₂ Field.Holds x.1.fields x.2 := by
  obtain ⟨b, hb, hx⟩ := List.mem_flatMap.1 hx
  have hsize := h.asked.size hclean b hb
  have hparameters := h.asked.parameters b hb
  rcases List.mem_cons.1 hx with rfl | hx
  · exact .cons (Field.holds_byte (by omega)) (.cons (Field.holds_byte (by omega)) .nil)
  · refine (h.asked.allows b hb x hx).fits hrelative ?_ (fun hop => ?_) fun t => ?_
    · show b.size ≤ 256
      omega
    · exact Nat.le_trans (h.globals hclean) (hglobals hop)
    · exact Nat.le_trans (h.numbered.fields hclean t) hfields

theorem operands_eq (h : s.Opened options bs) (hclean : s.mistakes = 0)
    (hlocals : options.maxLocals ≤ 255) (hfields : options.maxFields ≤ 65535) {i : Instruction}
    {x : Opcode × List Int} (hx : x ∈ bs.flatMap Body.all) (hread : i.Reads x)
    (hstatic : ¬x.1.IsStatic) (hrelative : x.1.isRelative = false) : i.operands = x.2 :=
  hread.operands_eq hrelative
    (h.fits hclean hlocals hfields hx (fun hop => absurd hop hstatic) hrelative)

/-- A method keeps within the frame that it has asked for. -/
theorem staysInFrame (h : s.Opened options bs) (hclean : s.mistakes = 0)
    (hlocals : options.maxLocals ≤ 255) (hfields : options.maxFields ≤ 65535) {b : Body} (hb : b ∈ bs)
    {m : List Instruction} (hm : List.Forall₂ Instruction.Reads m b.all) : StaysInFrame m := by
  have hmem : ∀ x ∈ b.all, x ∈ bs.flatMap Body.all := fun x hx => List.mem_flatMap.2 ⟨b, hb, hx⟩
  obtain ⟨i, body, hi, hbody, rfl⟩ := List.forall₂_cons_right_iff.1 hm
  have hoperands : i.operands = [(b.parameters : Int), (b.size : Int)] :=
    h.operands_eq hclean hlocals hfields (hmem _ List.mem_cons_self) hi
      (by rintro (h | h) <;> simp at h) rfl
  refine ⟨i, body, b.parameters, b.size, rfl, hi.opcode, hoperands, h.asked.parameters b hb, ?_⟩
  intro j hj slot hslot
  obtain ⟨x, hx, hread⟩ := exists_mem_of_forall₂ hbody hj
  have hrelative : x.1.isRelative = false := by
    by_contra hrelative
    rw [hread.opcode, Opcode.frameSlot?_of_isRelative (by simpa using hrelative)] at hslot
    simp at hslot
  have hstatic : ¬x.1.IsStatic := by
    intro hstatic
    rw [hread.opcode, Opcode.frameSlot?_of_isStatic hstatic] at hslot
    simp at hslot
  have hx' := hmem x (List.mem_cons_of_mem _ hx)
  rw [hread.opcode, h.operands_eq hclean hlocals hfields hx' hread hstatic hrelative] at hslot
  obtain ⟨n, rfl, hlt⟩ := (h.asked.allows b hb x hx).frameSlot_lt hslot
  exact ⟨Int.natCast_nonneg n, Int.ofNat_lt.2 hlt⟩

/-- The code is cut into the methods that were read. -/
theorem methods_eq (h : s.Opened options bs) {ms : List (List Instruction)}
    (hms : List.Forall₂ (fun m b => List.Forall₂ Instruction.Reads m (Body.all b)) ms bs) :
    Instruction.methods ms.flatten = ms := by
  refine Instruction.methods_flatten fun m hm => ?_
  obtain ⟨b, hb, hread⟩ := exists_mem_of_forall₂ hms hm
  obtain ⟨i, body, hi, hbody, rfl⟩ := List.forall₂_cons_right_iff.1 hread
  refine ⟨i, body, rfl, hi.opcode, fun j hj => ?_⟩
  obtain ⟨x, hx, hj⟩ := exists_mem_of_forall₂ hbody hj
  rw [hj.opcode]
  exact (h.asked.allows b hb x hx).ne_enter

/-- What is asked for behind `enter` is within the bounds. -/
theorem allows (h : s.Opened options bs) {x : Opcode × List Int} (hx : x ∈ bs.flatMap Body.all)
    (hop : x.1 ≠ .enter) : ∃ b ∈ bs, (s.bounds b.size).Allows x.1 x.2 := by
  obtain ⟨b, hb, hx⟩ := List.mem_flatMap.1 hx
  rcases List.mem_cons.1 hx with rfl | hx
  · exact absurd rfl hop
  · exact ⟨b, hb, h.asked.allows b hb x hx⟩

end Session.Opened

/-! ### Classes -/

/-- The classes of the one table have the fields that they have in the other, which are numbered. -/
structure SymbolTable.HasClassesOf (t t' : SymbolTable) : Prop where
  numbered : t.Numbered
  fields : ∀ ty, t.types.fields ty = t'.types.fields ty

/-- A new object of a class with fields has room for them. -/
theorem Production.asked_of_runs_objectCreation {c : Setting} {t : TypeId} {s s' : Session}
    {x : Operand} (h : Runs c (objectCreation t) s x s') (ht : s.table.types.fields t ≠ []) :
    s'.assembly.asked =
      (.newObject, [((s.table.types.fields t).length : Int)]) :: s.assembly.asked := by
  obtain ⟨d, s, h₁, h₂⟩ := runs_bind.1 h
  obtain ⟨hd, rfl⟩ := runs_descriptor.1 h₁
  have hfields : s.table.types.fields t = d.fields := by
    rw [Types.fields, hd]
    rfl
  have hclass : d.isClass := by
    rw [hfields] at ht
    cases d <;> first | rfl | exact absurd rfl ht
  rw [runs_ite, if_pos hclass] at h₂
  obtain ⟨_, s₁, h₁, h₂⟩ := runs_bind.1 h₂
  obtain ⟨-, rfl⟩ := runs_pure.1 h₂
  obtain ⟨assembly, hs, rfl⟩ := runs_write.1 h₁
  rw [hfields, Emission.succeeds_emit.1 hs]
  rfl

section Compiling

open Production Session

variable {source : String} {options : Options} {c : Compilation}

/-- Where a compilation has no diagnostics and the limits fit the fields of the operands, the code is
read back with the operands that were asked for. There must be too few tokens for the distance between
reports to start again from zero. -/
theorem compile_encodes (h : compile source options = .ok c) (hdiagnostics : c.diagnostics = [])
    (hlocals : options.maxLocals ≤ 255) (hfields : options.maxFields ≤ 65535)
    (hglobals : options.maxGlobals ≤ 65536) (hdistance : options.reportDistance.toNat < 2 ^ 31)
    (hlength : (Token.scan source).ahead.length ≤ 2 ^ 31) :
    ∃ is, Instruction.decode c.image.code.toList = .ok is ∧
      List.Forall₂ (fun i x => i.opcode = x.1 ∧ (i.opcode.isRelative = false → i.operands = x.2)) is
        (sourceFile.runOn options (Token.scan source)).2.assembly.asked.reverse := by
  obtain ⟨id, s, bs, -, hopened, ⟨s', hrun, hassembly, hmistakes, hlog⟩, himage⟩ := opened_of_compile h
  have hclean : s'.mistakes = 0 :=
    (reported_of_runs hrun (.inr (by omega))).mistakes (hlog ▸ hdiagnostics)
  obtain ⟨is, hdecode, hreads⟩ := hopened.reads
  have hasked : (sourceFile.runOn options (Token.scan source)).2.assembly.asked.reverse =
      bs.flatMap Body.all := by
    rw [show (sourceFile.runOn options (Token.scan source)).2 = s' from congrArg Prod.snd hrun,
      hassembly, hopened.asked.asked]
  refine ⟨is, by rw [himage, hdecode], ?_⟩
  rw [hasked]
  refine forall₂_of_mem hreads fun i x hx hread => ⟨hread.opcode, fun hrelative => ?_⟩
  rw [hread.opcode] at hrelative
  exact hread.operands_eq hrelative
    (hopened.fits (by omega) hlocals hfields hx (fun _ => hglobals) hrelative)

theorem compile_encodes_increment :
    ∃ c is, compile "program P { void main() int i; { i++; } }" = .ok c ∧
      Instruction.decode c.image.code.toList = .ok is ∧
        List.Forall₂ (fun i x => i.opcode = x.1 ∧ (i.opcode.isRelative = false → i.operands = x.2)) is
          [(.enter, [0, 1]), (.inc, [0, 1]), (.exit, []), (.ret, [])] := by
  let code : Array UInt8 := #[51, 0, 1, 31, 0, 1, 52, 50]
  have hcompile : compile "program P { void main() int i; { i++; } }" = .ok ⟨⟨code, 0, some 0⟩, []⟩ := by
    decide +kernel
  have hasked : (sourceFile.runOn {} (Token.scan
      "program P { void main() int i; { i++; } }")).2.assembly.asked.reverse =
        [(.enter, [0, 1]), (.inc, [0, 1]), (.exit, []), (.ret, [])] := by
    decide +kernel
  obtain ⟨is, hdecode, hasked'⟩ := compile_encodes hcompile rfl (by decide) (by decide) (by decide)
    (by decide) (by decide +kernel)
  exact ⟨_, is, hcompile, hdecode, hasked ▸ hasked'⟩

/-- The data size is the number of variables in the scope of the program, and no instruction uses one
beyond them. Where there are no diagnostics and the limits fit, no method leaves its frame, and a field is
one of those that a new object of its class has room for. -/
theorem compile_confined (h : compile source options = .ok c) :
    ∃ id s is, Runs (.ofStream options (Token.scan source)) (do Production.advance; openProgram)
        (.start (Token.scan source) options) id s ∧
      s.table.level = SymbolTable.programLevel ∧
      c.image.dataSize =
        s.table.current.locals.toList.countP (fun id => (s.table.slotAt? id).isSome) ∧
      Instruction.decode c.image.code.toList = .ok is ∧
      (∀ i ∈ is, i.opcode.IsStatic →
        ∃ slot : Nat, i.operands = [(slot : Int)] ∧ slot < c.image.dataSize) ∧
      (c.diagnostics = [] → options.maxLocals ≤ 255 → options.maxFields ≤ 65535 →
        options.reportDistance.toNat < 2 ^ 31 → (Token.scan source).ahead.length ≤ 2 ^ 31 →
        (∀ m ∈ Instruction.methods is, StaysInFrame m) ∧
        (∀ i ∈ is, i.opcode.IsField → ∃ t, ∃ slot : Nat,
          i.operands = [(slot : Int)] ∧ slot < (s.table.types.fields t).length) ∧
        (∀ i ∈ is, i.opcode = .newObject →
          ∃ t, i.operands = [((s.table.types.fields t).length : Int)]) ∧
        ∀ setting s₁ x y s₁' s₂ z s₂', s₁.table.HasClassesOf s.table → s₂.table.HasClassesOf s.table →
          Runs setting (fieldOf x) s₁ y s₁' → Runs setting (objectCreation x.type) s₂ z s₂' →
          ∀ slot, y.place = .field slot → ∃ size : Nat, slot < size ∧ size ≤ 65535 ∧
            s₂'.assembly.asked = (.newObject, [(size : Int)]) :: s₂.assembly.asked) := by
  obtain ⟨id, s, bs, hrun, hopened, ⟨s', hrun', -, hmistakes, hlog⟩, himage⟩ := opened_of_compile h
  obtain ⟨is, hdecode, hreads⟩ := hopened.reads
  have hlevel := hopened.level
  refine ⟨id, s, is, hrun, hlevel, ?_, by rw [himage, hdecode], fun i hi hop => ?_, ?_⟩
  · have hcurrent := hopened.numbered.table.current (by rw [hlevel]; exact Nat.zero_lt_one)
    rw [himage, hcurrent.countP_eq, ← SymbolTable.globalCount_of_level hlevel]
    exact hopened.numbered.globals
  · obtain ⟨x, hx, hread⟩ := exists_mem_of_forall₂ hreads hi
    rw [hread.opcode] at hop
    obtain ⟨b, -, hallows⟩ := hopened.allows hx (by rcases hop with hop | hop <;> rw [hop] <;> simp)
    have hrelative : x.1.isRelative = false := by rcases hop with hop | hop <;> rw [hop] <;> rfl
    obtain ⟨n, hn, hlt⟩ := hallows.static_lt hop
    exact ⟨n, by rw [hread.operands hrelative, hn], by rwa [himage]⟩
  intro hdiagnostics hlocals hfields hdistance hlength
  have hclean' : s'.mistakes = 0 :=
    (reported_of_runs hrun' (.inr (by omega))).mistakes (hlog ▸ hdiagnostics)
  have hclean : s.mistakes = 0 := by omega
  refine ⟨fun m hm => ?_, fun i hi hop => ?_, fun i hi hop => ?_, ?_⟩
  · obtain ⟨ms, rfl, hms⟩ := exists_flatten_of_forall₂ hreads
    rw [hopened.methods_eq hms] at hm
    obtain ⟨b, hb, hread⟩ := exists_mem_of_forall₂ hms hm
    exact hopened.staysInFrame hclean hlocals hfields hb hread
  · obtain ⟨x, hx, hread⟩ := exists_mem_of_forall₂ hreads hi
    rw [hread.opcode] at hop
    obtain ⟨b, -, hallows⟩ := hopened.allows hx (by rcases hop with hop | hop <;> rw [hop] <;> simp)
    rw [hopened.operands_eq hclean hlocals hfields hx hread
      (by rcases hop with hop | hop <;> rw [hop] <;> simp [Opcode.IsStatic])
      (by rcases hop with hop | hop <;> rw [hop] <;> rfl)]
    exact hallows.operand.2.1 hop
  · obtain ⟨x, hx, hread⟩ := exists_mem_of_forall₂ hreads hi
    rw [hread.opcode] at hop
    obtain ⟨b, -, hallows⟩ := hopened.allows hx (by rw [hop]; simp)
    rw [hopened.operands_eq hclean hlocals hfields hx hread (by rw [hop]; simp [Opcode.IsStatic])
      (by rw [hop]; rfl)]
    exact hallows.operand.2.2 hop
  · intro setting s₁ x y s₁' s₂ z s₂' hs₁ hs₂ hfield hnew slot hplace
    rcases field_of_runs_fieldOf hs₁.numbered.fields hfield with rfl | ⟨slot', hplace', hlt⟩
    · simp [Operand.missing, Operand.onStack] at hplace
    rw [hplace] at hplace'
    obtain rfl := Place.field.inj hplace'
    rw [hs₁.fields, ← hs₂.fields] at hlt
    refine ⟨_, hlt, ?_, asked_of_runs_objectCreation hnew (List.ne_nil_of_length_pos (by omega))⟩
    rw [hs₂.fields]
    exact Nat.le_trans (hopened.numbered.fields hclean _) hfields

theorem compile_confined_object :
    ∃ c, ∃ s : Session, ∃ is,
      compile "program P class C { int a, b; } C x; { void main() int i; { x = new C; x.b = i; } }"
        = .ok c ∧
      c.image.dataSize = 1 ∧
      s.table.current.locals.toList.countP (fun id => (s.table.slotAt? id).isSome) = 1 ∧
      Instruction.decode c.image.code.toList = .ok is ∧ is.length = 8 ∧
      (∀ m ∈ Instruction.methods is, StaysInFrame m) ∧
      ∀ i ∈ is, i.opcode.IsField → ∃ t, ∃ slot : Nat,
        i.operands = [(slot : Int)] ∧ slot < (s.table.types.fields t).length := by
  let code : Array UInt8 := #[51, 0, 1, 32, 0, 2, 12, 0, 0, 11, 0, 0, 2, 14, 0, 1, 52, 50]
  have hcompile : compile
      "program P class C { int a, b; } C x; { void main() int i; { x = new C; x.b = i; } }"
        = .ok ⟨⟨code, 1, some 0⟩, []⟩ := by
    decide +kernel
  obtain ⟨-, s, is, -, -, hsize, hdecode, -, hclean⟩ := compile_confined hcompile
  obtain ⟨hframes, hfields, -⟩ :=
    hclean rfl (by decide) (by decide) (by decide) (by decide +kernel)
  have hlength : (Instruction.decode code.toList).map List.length = .ok 8 := by decide +kernel
  rw [hdecode] at hlength
  exact ⟨_, s, is, hcompile, rfl, hsize.symm, hdecode, Except.ok.inj hlength, hframes, hfields⟩

end Compiling

end MicroJava
