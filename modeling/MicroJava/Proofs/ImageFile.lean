import Mathlib.Data.List.Nodup
import MicroJava.Bytecode.Image
import MicroJava.Proofs.Decoding
import MicroJava.Proofs.SourceFile
import MicroJava.Proofs.StackDiscipline

/-!
# Image files and where they start

The layout of an image file says everything but whether the program has an entry method: the bytes that
are read as an image are its own ones (`Image.ofBytes?_eq_some_iff`), and a missing entry method is read
as one at address 0. No program that compiles without diagnostics lacks one: the image then starts with
the frame of a method without parameters (`starts_of_diagnostics`).
-/

namespace MicroJava

/-! ### Numbers -/

/-- The number in the first bytes, and what is behind them. -/
def readNumber? (width : Nat) (bytes : List UInt8) : Option (Nat × List UInt8) :=
  if width ≤ bytes.length then some (ofBigEndian (bytes.take width), bytes.drop width) else none

theorem readNumber?_eq_some_iff {width n : Nat} {bytes rest : List UInt8} :
    readNumber? width bytes = some (n, rest) ↔ n < byteSpan width ∧ bytes = bigEndian width n ++ rest := by
  constructor
  · intro h
    unfold readNumber? at h
    split at h
    · next hle =>
      obtain ⟨rfl, rfl⟩ := Prod.mk.inj (Option.some.inj h)
      have hlength : (bytes.take width).length = width := List.length_take_of_le hle
      have hlt := ofBigEndian_lt (bytes.take width)
      have hbytes := bigEndian_ofBigEndian (bytes.take width)
      rw [hlength] at hlt hbytes
      exact ⟨hlt, by rw [hbytes, List.take_append_drop]⟩
    · contradiction
  · rintro ⟨hlt, rfl⟩
    have hlength := length_bigEndian width n
    have hvalue : (ofBigEndian (bigEndian width n) : Int) = n := by
      rw [ofBigEndian_bigEndian, Int.emod_eq_of_lt (Int.natCast_nonneg n) (Int.ofNat_lt.2 hlt)]
    rw [readNumber?, if_pos (by rw [List.length_append, hlength]; exact Nat.le_add_right ..),
      List.take_left' hlength, List.drop_left' hlength, Int.ofNat_inj.1 hvalue]

/-! ### Images -/

namespace Image

/-- Reads an image by the layout of its file. -/
def ofBytes? (bytes : List UInt8) : Option Image := do
  let rest ← bytes.dropPrefix? signature
  let (size, rest) ← readNumber? 4 rest
  let (dataSize, rest) ← readNumber? 4 rest
  let (entry, code) ← readNumber? 4 rest
  if code.length = size then some ⟨code.toArray, dataSize, some entry⟩ else none

/-- The numbers of the image can be written in four bytes each. -/
structure Fits (i : Image) : Prop where
  code : i.code.size < 2 ^ 32
  dataSize : i.dataSize < 2 ^ 32
  entry : i.entry.getD 0 < 2 ^ 32

variable {i j : Image} {bytes : List UInt8}

/-- An image is read from its own bytes, and from no others. -/
theorem ofBytes?_eq_some_iff :
    ofBytes? bytes = some i ↔ i.Fits ∧ i.entry.isSome ∧ i.toBytes = bytes := by
  have hspan : byteSpan 4 = 2 ^ 32 := rfl
  simp only [ofBytes?, bind, Option.bind_eq_some_iff, Prod.exists, readNumber?_eq_some_iff,
    List.dropPrefix?_eq_some_iff, beq_iff_eq, hspan]
  constructor
  · rintro ⟨_, ⟨_, rfl, rfl⟩, size, _, ⟨hsize, rfl⟩, dataSize, _, ⟨hdataSize, rfl⟩, entry, code,
      ⟨hentry, rfl⟩, hread⟩
    split at hread
    · next hlength =>
      obtain rfl := Option.some.inj hread
      subst hlength
      exact ⟨⟨hsize, hdataSize, hentry⟩, rfl, by simp [toBytes, header]⟩
    · contradiction
  · rintro ⟨hfits, hentry, rfl⟩
    obtain ⟨a, ha⟩ := Option.isSome_iff_exists.1 hentry
    obtain ⟨code, dataSize, entry⟩ := i
    obtain rfl : entry = some a := ha
    refine ⟨_, ⟨signature, ?_, rfl⟩, code.size, _, ⟨hfits.code, rfl⟩, dataSize, _,
      ⟨hfits.dataSize, rfl⟩, a, code.toList, ⟨hfits.entry, rfl⟩, ?_⟩
    · simp [toBytes, header]
    · simp

theorem ofBytes?_toBytes (h : i.Fits) :
    ofBytes? i.toBytes = some { i with entry := some (i.entry.getD 0) } :=
  ofBytes?_eq_some_iff.2 ⟨⟨h.code, h.dataSize, h.entry⟩, rfl, rfl⟩

/-- Only a missing entry method and one at address 0 are written alike. -/
theorem eq_of_toBytes_eq (hi : i.Fits) (hj : j.Fits) (h : i.toBytes = j.toBytes) :
    i.code = j.code ∧ i.dataSize = j.dataSize ∧
      (i.entry = j.entry ∨ i.entry = none ∧ j.entry = some 0 ∨ i.entry = some 0 ∧ j.entry = none) := by
  have hread := ofBytes?_toBytes hi
  rw [h, ofBytes?_toBytes hj] at hread
  obtain ⟨code, dataSize, entry⟩ := i
  obtain ⟨code', dataSize', entry'⟩ := j
  obtain ⟨hcode, hdataSize, hentry⟩ := Image.mk.inj (Option.some.inj hread)
  have hentry : entry'.getD 0 = entry.getD 0 := Option.some.inj hentry
  refine ⟨hcode.symm, hdataSize.symm, ?_⟩
  rcases entry with _ | a <;> rcases entry' with _ | a'
  · exact .inl rfl
  · exact .inr (.inl ⟨rfl, congrArg some hentry⟩)
  · exact .inr (.inr ⟨congrArg some hentry.symm, rfl⟩)
  · exact .inl (congrArg some hentry.symm)

end Image

/-! ### Programs -/

/-- No two instructions stand at one place. -/
theorem Instruction.eq_of_offset {code : List UInt8} {is : List Instruction} (h : decode code = .ok is)
    {i j : Instruction} (hi : i ∈ is) (hj : j ∈ is) (hoffset : i.offset = j.offset) : i = j := by
  have hnodup : (is.map offset).Nodup :=
    List.pairwise_map.2 ((pairwise_of_decode h).imp Nat.ne_of_lt)
  exact List.inj_on_of_nodup_map hnodup hi hj hoffset

namespace Production

variable {c : Setting} {s s' : Session} {u : Unit}

/-- A program without an entry method is reported. -/
theorem entry_isSome_of_program (h : Runs c program s u s') (hclean : s'.mistakes = 0) :
    s'.assembly.entry.isSome := by
  simp only [program, runs_bind, runs_openScope, runs_closeScope, runs_updateEntry, runs_read, runs_table,
    runs_get] at h
  obtain ⟨_, s₁, -, name, s₂, -, id, s₃, -, _, s₄, -, _, s₅, -, h⟩ := h
  obtain ⟨_, _, ⟨rfl, rfl⟩, _, _, ⟨rfl, rfl⟩, _, s₆, -, _, s₇, -, _, s₈, -, h⟩ := h
  obtain ⟨_, _, ⟨rfl, rfl⟩, c, _, ⟨rfl, rfl⟩, _, s₉, h₉, _, s₁₀, h₁₀, members, s₁₁, ⟨-, rfl⟩, rfl⟩ := h
  have hd := declares_expect h₁₀
  obtain ⟨dataSize, hassembly⟩ := hd.assembly
  have hclean₉ : s₉.mistakes = 0 := Nat.le_zero.1 (Nat.le_trans hd.mistakes (Nat.le_of_eq hclean))
  show s₁₀.assembly.entry.isSome
  rw [hassembly]
  rw [runs_reportIf.1 h₉, Session.reportIf] at hclean₉ ⊢
  split at hclean₉
  · simp at hclean₉
  · next hsome =>
    rw [if_neg hsome]
    simpa [Option.isSome_iff_ne_none] using hsome

theorem entry_isSome_of_sourceFile (h : Runs c sourceFile s u s') (hclean : s'.mistakes = 0) :
    s'.assembly.entry.isSome := by
  obtain ⟨s₂, hprogram, ⟨-, rfl⟩ | ⟨-, rfl⟩⟩ := runs_sourceFile h
  · rw [Session.mistakes_advance] at hclean
    have hsome := entry_isSome_of_program hprogram hclean
    exact hsome
  · simp at hclean

end Production

namespace Finished

open Segment

variable {limit : Nat} {s : Session} {gs : List Segment} {image : Image}

/-- Where there was no mistake, what stands at the address of the entry method makes a frame without
parameters. -/
theorem starts (h : Finished limit s gs image) (hclean : s.mistakes = 0) {a : Nat}
    (ha : image.entry = some a) :
    ∃ i ∈ gs.flatMap (instructions s.assembly.fill),
      i.offset = a ∧ i.opcode = .enter ∧ i.operands.head? = some 0 := by
  rw [h.unpatched.2] at ha
  obtain ⟨g, hg, rfl, hparameters⟩ := h.linked.starts hclean a ha
  refine ⟨_, mem_enter hg, rfl, rfl, ?_⟩
  rw [operands_start (by omega), hparameters]
  rfl

end Finished

/-- A program that compiles without diagnostics starts in a method without parameters. -/
theorem starts_of_diagnostics {source : String} {options : Options} {c : Compilation}
    (hcompile : compile source options = .ok c) (hdistance : options.reportDistance.toNat < 2 ^ 31)
    (htokens : (Token.scan source).ahead.length ≤ 2 ^ 31) (hnone : c.diagnostics = []) :
    ∃ is a, Instruction.decode c.image.code.toList = .ok is ∧ c.image.entry = some a ∧
      (∃ i ∈ is, i.offset = a) ∧
      ∀ i ∈ is, i.offset = a → i.opcode = .enter ∧ i.operands.head? = some 0 := by
  obtain ⟨s, gs, hfinished, hlog, hrun⟩ := finished_of_compile hcompile
  have hclean : s.mistakes = 0 :=
    (Production.reported_of_runs hrun (.inr (by omega))).mistakes (hlog ▸ hnone)
  have hsome : c.image.entry.isSome := by
    rw [hfinished.unpatched.2]
    exact Production.entry_isSome_of_sourceFile hrun hclean
  obtain ⟨a, ha⟩ := Option.isSome_iff_exists.1 hsome
  obtain ⟨i, hi, hoffset, hopcode, hoperands⟩ := hfinished.starts hclean ha
  have hdecode := hfinished.decode
  refine ⟨_, a, hdecode, ha, ⟨i, hi, hoffset⟩, fun j hj hj' => ?_⟩
  obtain rfl : j = i := Instruction.eq_of_offset hdecode hj hi (hj'.trans hoffset.symm)
  exact ⟨hopcode, hoperands⟩

/-- An image file gives back the code, the number of global variables and the address of the entry
method, with 0 for a missing one, so only a missing entry method and one at address 0 are written alike.
What compiles without diagnostics has an entry method, which makes a frame without parameters, so its file
gives back the whole image. -/
theorem compile_readsBack :
    (∀ i : Image, i.Fits → Image.ofBytes? i.toBytes = some ⟨i.code, i.dataSize, some (i.entry.getD 0)⟩) ∧
    (∀ i j : Image, i.Fits → j.Fits → i.toBytes = j.toBytes → i.code = j.code ∧ i.dataSize = j.dataSize ∧
      (i.entry = j.entry ∨ i.entry = none ∧ j.entry = some 0 ∨ i.entry = some 0 ∧ j.entry = none)) ∧
    ∀ (source : String) (options : Options) (c : Compilation), compile source options = .ok c →
      options.reportDistance.toNat < 2 ^ 31 → (Token.scan source).ahead.length ≤ 2 ^ 31 →
      (c.image.entry = none → c.diagnostics ≠ []) ∧
      (c.diagnostics = [] → ∃ is a, Instruction.decode c.image.code.toList = .ok is ∧
        c.image.entry = some a ∧ (∃ i ∈ is, i.offset = a) ∧
        (∀ i ∈ is, i.offset = a → i.opcode = .enter ∧ i.operands.head? = some 0) ∧
        (c.image.Fits → Image.ofBytes? c.image.toBytes = some c.image)) := by
  refine ⟨fun i => Image.ofBytes?_toBytes, fun i j => Image.eq_of_toBytes_eq, ?_⟩
  intro source options c hcompile hdistance htokens
  have hstarts := starts_of_diagnostics hcompile hdistance htokens
  refine ⟨fun hentry hnone => ?_, fun hnone => ?_⟩
  · obtain ⟨_, a, -, ha, -⟩ := hstarts hnone
    rw [hentry] at ha
    contradiction
  · obtain ⟨is, a, hdecode, ha, hmem, hstart⟩ := hstarts hnone
    refine ⟨is, a, hdecode, ha, hmem, hstart, fun hfits => ?_⟩
    rw [Image.ofBytes?_eq_some_iff]
    exact ⟨hfits, ha ▸ rfl, rfl⟩

theorem compile_readsBack_main :
    (let i : Image := ⟨#[58, 50], 3, none⟩
      let j : Image := ⟨#[58, 50], 3, some 0⟩
      Image.ofBytes? i.toBytes = some j ∧ i.toBytes = j.toBytes ∧ i.code = j.code ∧
        i.dataSize = j.dataSize) ∧
    ∃ c is a, compile "program P int x; { int f(int i) { return i; } void main() { x = f(1); } }" = .ok c ∧
      Image.ofBytes? c.image.toBytes = some c.image ∧ c.image.entry = some a ∧
      Instruction.decode c.image.code.toList = .ok is ∧ (∃ i ∈ is, i.offset = a) ∧
      ∀ i ∈ is, i.offset = a → i.opcode = .enter ∧ i.operands.head? = some 0 := by
  obtain ⟨hread, halike, hcompiled⟩ := compile_readsBack
  let code : Array UInt8 := #[51, 1, 1, 2, 52, 50, 57, 1, 51, 0, 0, 16, 49, 255, 241, 12, 0, 0, 52, 50]
  have hcompile :
      compile "program P int x; { int f(int i) { return i; } void main() { x = f(1); } }" =
        .ok ⟨⟨code, 1, some 8⟩, []⟩ := by
    decide +kernel
  obtain ⟨-, hstarts⟩ := hcompiled _ _ _ hcompile (by decide) (by decide +kernel)
  obtain ⟨is, a, hdecode, hentry, hmem, hstart, hfile⟩ := hstarts rfl
  have hfits : ∀ entry, entry.getD 0 < 2 ^ 32 → Image.Fits ⟨#[58, 50], 3, entry⟩ := fun _ h =>
    ⟨(by decide : 2 < 2 ^ 32), (by decide : 3 < 2 ^ 32), h⟩
  obtain ⟨hcode, hdataSize, -⟩ := halike _ _ (hfits none (by decide)) (hfits (some 0) (by decide)) rfl
  refine ⟨⟨hread _ (hfits none (by decide)), rfl, hcode, hdataSize⟩, _, is, a, hcompile, ?_, hentry, hdecode,
    hmem, hstart⟩
  exact hfile ⟨by decide, by decide, by decide⟩

end MicroJava
