import MicroJava.Proofs.Methods
import MicroJava.Proofs.Reach

/-!
# Code that leaves values

A listing delivers values if its instructions, wherever they are in a program, lead from an empty stack to
one with these values (`Delivers`). They then do so with anything below on the stack, so listings that
deliver one value each, in turn, deliver all of them (`DeliversEach.delivers`).
-/

namespace MicroJava

open Process

/-- The program has the listing from an address on. -/
def Laid (code : List UInt8) (place : Nat) (js : List Item) : Prop :=
  ∃ (a : Assembly) (before behind : List Item),
    Lays a (before ++ (js ++ behind)) ∧ a.code.toList = code ∧ codeSize before = place

variable {code : List UInt8} {place : Nat} {i : Item} {js js' : List Item} {fill : Nat → Label → Int}

namespace Laid

theorem left (h : Laid code place (js ++ js')) : Laid code place js := by
  obtain ⟨a, before, behind, hlays, hcode, hplace⟩ := h
  exact ⟨a, before, js' ++ behind, by rwa [← List.append_assoc js], hcode, hplace⟩

theorem right (h : Laid code place (js ++ js')) : Laid code (place + codeSize js) js' := by
  obtain ⟨a, before, behind, hlays, hcode, rfl⟩ := h
  exact ⟨a, before ++ js, behind, by simpa using hlays, hcode, by simp⟩

theorem tail (h : Laid code place (i :: js)) : Laid code (place + i.size) js :=
  right (show Laid code place ([i] ++ js) from h)

/-- The first instruction is read back. -/
theorem fetch? (h : Laid code place (i :: js)) : ∃ (a : Assembly) (before behind : List Item),
    Lays a (before ++ i :: behind) ∧ codeSize before = place ∧
      Instruction.fetch? code place = some (i.instructionAt a.fill place) := by
  obtain ⟨a, before, behind, hlays, rfl, rfl⟩ := h
  refine ⟨a, before, js ++ behind, hlays, rfl, ?_⟩
  have hi : i.WellFormed := hlays.wellFormed i (by simp)
  have hbefore : ∀ j ∈ before, j.WellFormed := fun j hj => hlays.wellFormed j (by simp [hj])
  have hdrop : a.code.toList.drop (codeSize before) =
      i.encodeAt a.fill (codeSize before) ++ encodeFrom a.fill (codeSize before + i.size) (js ++ behind) := by
    rw [hlays.code, encodeFrom_append, Nat.zero_add, ← @length_encodeFrom a.fill _ hbefore 0,
      List.drop_left, List.cons_append, encodeFrom]
  unfold Instruction.fetch?
  simp only [hdrop, Item.encodeAt, Opcode.encode, List.cons_append, Opcode.ofByte?_byte,
    Option.bind_eq_bind, Option.bind_some, readFields?_encode _ _ _ (Item.length_operandsAt hi)]
  rfl

end Laid

/-! ### Single instructions -/

/-- What an instruction with operands that fit does. -/
theorem Laid.next_plain {o : Order} (h : Laid code place (.plain o.1 o.2 :: js)) (ho : o.Fits)
    {stack : List Datum} {callers : List (Nat ⊕ List Datum)} {σ : Storage} :
    Process.next code ⟨place, stack, callers, σ⟩ =
      (Action.execute ⟨place, o.1, o.2⟩ ⟨place + o.1.size, stack, callers, σ⟩).map (·.2) := by
  obtain ⟨a, before, behind, -, -, hfetch⟩ := h.fetch?
  have hoperands : (Item.plain o.1 o.2).instructionAt a.fill place = ⟨place, o.1, o.2⟩ := by
    simp only [Item.instructionAt, Item.opcode, Item.operandsAt, zipWith_decode_encode ho.operands]
  rw [hoperands] at hfetch
  simp only [Process.next, hfetch]
  rfl

/-- A call goes to its target. -/
theorem Laid.next_call {target : Nat} (h : Laid code place (.call target :: js)) {stack : List Datum}
    {callers : List (Nat ⊕ List Datum)} {σ : Storage} :
    Process.next code ⟨place, stack, callers, σ⟩ =
      .ok ⟨target, stack, .inl (place + (Item.call target).size) :: callers, σ⟩ := by
  obtain ⟨a, before, behind, hlays, rfl, hfetch⟩ := h.fetch?
  have hexecute : Action.execute ((Item.call target).instructionAt a.fill (codeSize before)) =
      Action.call (some target) (codeSize before + (Item.call target).size) := by
    rw [← hlays.target_call rfl]
    rfl
  simp only [Process.next, hfetch, hexecute]
  rfl

/-! ### Values -/

/-- Run from an empty stack, the listing leaves the values there, the top first. -/
def Delivers (code : List UInt8) (js : List Item) (σ : Storage) (ds : List Datum) (σ' : Storage) : Prop :=
  ∀ place, Laid code place js →
    Leads code ⟨place, [], [], σ⟩ ⟨place + codeSize js, ds, [], σ'⟩

/-- The listings leave a value each, one after the other. -/
inductive DeliversEach (code : List UInt8) : List (List Item) → Storage → List Datum → Storage → Prop
  | nil {σ : Storage} : DeliversEach code [] σ [] σ
  | cons {js : List Item} {jss : List (List Item)} {σ σ₁ σ' : Storage} {d : Datum} {ds : List Datum} :
    Delivers code js σ [d] σ₁ → DeliversEach code jss σ₁ ds σ' →
      DeliversEach code (js :: jss) σ (d :: ds) σ'

variable {σ σ₁ σ' : Storage} {ds ds' : List Datum} {jss : List (List Item)}

theorem Delivers.leads (h : Delivers code js σ ds σ') (hlaid : Laid code place js) (S : List Datum)
    (C : List (Nat ⊕ List Datum)) :
    Leads code ⟨place, S, C, σ⟩ ⟨place + codeSize js, ds ++ S, C, σ'⟩ :=
  (h place hlaid).onTop S C

theorem Delivers.append (h : Delivers code js σ ds σ₁) (h' : Delivers code js' σ₁ ds' σ') :
    Delivers code (js ++ js') σ (ds' ++ ds) σ' := by
  intro place hlaid
  have hsecond := h'.leads hlaid.right ds []
  rw [Nat.add_assoc, ← codeSize_append] at hsecond
  exact (h place hlaid.left).trans hsecond

theorem DeliversEach.delivers (h : DeliversEach code jss σ ds σ') :
    Delivers code jss.flatten σ ds.reverse σ' := by
  induction h with
  | nil => exact fun _ _ => .refl
  | cons hfirst _ ih =>
    rw [List.flatten_cons, List.reverse_cons]
    exact hfirst.append ih

/-! ### References -/

/-- A cell that nothing refers to keeps what is in it, and nothing refers to it later. -/
theorem Delivers.leads_withCell (h : Delivers code js σ ds σ') (hlaid : Laid code place js) {r : Nat}
    (hσ : σ.Within (· ≠ r)) (hr : r < σ.cells.length) (x : Cell) (S : List Datum)
    (C : List (Nat ⊕ List Datum)) :
    Leads code ⟨place, S, C, σ.withCell r x⟩ ⟨place + codeSize js, ds ++ S, C, σ'.withCell r x⟩ ∧
      r < σ'.cells.length ∧ σ'.Within (· ≠ r) ∧ ∀ d ∈ ds, d.Within (· ≠ r) := by
  have hleads := h place hlaid
  have hsize : σ.cells.length ≤ σ'.cells.length := hleads.size_le
  have hstart : Process.Within (· ≠ r) ⟨place, [], [], σ⟩ := ⟨nofun, nofun, hσ⟩
  have hnew : ∀ c, σ.cells.length ≤ c → c < σ'.cells.length → c ≠ r := fun c hc _ => by omega
  have hwithin := hleads.within hstart hnew
  exact ⟨(hleads.withCell hstart hnew (fun hne => hne rfl) hr x).onTop S C, Nat.lt_of_lt_of_le hr hsize,
    hwithin.storage, hwithin.stack⟩

/-- There is a cell for each reference. -/
def Storage.Closed (σ : Storage) : Prop := σ.Within (· < σ.cells.length)

theorem Storage.Within.mono {A B : Nat → Prop} (h : σ.Within A) (hAB : ∀ c, A c → B c)
    (hBA : ∀ c < σ.cells.length, B c → A c) : σ.Within B := by
  have hdatum : ∀ d : Datum, d.Within A → d.Within B := fun d hd => by
    cases d with
    | number v => trivial
    | reference c => exact hAB c hd
  refine ⟨fun d hd => hdatum d (h.locals d hd), fun d hd => hdatum d (h.statics d hd),
    fun c x hc hx d hd => hdatum d (h.cells c x (hBA c ?_ hc) hx d hd)⟩
  exact (List.getElem?_eq_some_iff.1 hx).1

/-- There are cells for all references later. -/
theorem Delivers.closed (h : Delivers code js σ ds σ') (hlaid : Laid code place js) (hσ : σ.Closed) :
    σ'.Closed ∧ ∀ d ∈ ds, d.Within (· < σ'.cells.length) := by
  have hleads := h place hlaid
  have hsize : σ.cells.length ≤ σ'.cells.length := hleads.size_le
  have hstart : Process.Within (· < σ'.cells.length) ⟨place, [], [], σ⟩ :=
    ⟨nofun, nofun, hσ.mono (fun c hc => Nat.lt_of_lt_of_le hc hsize) fun c hc _ => hc⟩
  have hwithin := hleads.within hstart fun c _ hc => hc
  exact ⟨hwithin.storage, hwithin.stack⟩

end MicroJava
