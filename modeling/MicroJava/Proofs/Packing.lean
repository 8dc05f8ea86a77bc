import MicroJava.Proofs.Computing
import MicroJava.Proofs.Delivered

/-!
# Packing arguments into an array

The code for variable arguments makes an array, and behind it stores each argument at its index (`packing`).
While an argument is computed, only the stack refers to the array, so the arguments are computed as if
nothing had been stored, and each store finds the array as the one before left it
(`DeliversEach.leads_storing`).
-/

namespace MicroJava

open Process

/-- The instruction that pushes a number. -/
def Item.constant (v : Int32) : Item := .plain (Emission.constantCode v).1 (Emission.constantCode v).2

/-- The code that stores an argument in an array on the stack, behind `i` others. -/
def storing (T : TypeId) (i : Nat) (js : List Item) : List Item :=
  .plain .dup [] :: .constant (.ofNat i) ::
    (js ++ [.plain (if T = .char then .charStore else .arrayStore) []])

/-- One piece of code for each listing, which depends on how many are in front of it. -/
def numbered (g : Nat → List Item → List Item) : Nat → List (List Item) → List Item
  | _, [] => []
  | i, js :: jss => g i js ++ numbered g (i + 1) jss

/-- The code that makes an array of `n` elements, and stores arguments in it. -/
def packing (T : TypeId) (n : Nat) (jss : List (List Item)) : List Item :=
  .constant (.ofNat n) :: .plain .newArray [if T = .char then 0 else 1] :: numbered (storing T) 0 jss

/-- An array of this element type. -/
def Cell.arrayOf (T : TypeId) (elements : List Datum) : Cell := .array (decide (T = .char)) elements

/-- One more cell. -/
def Storage.allot (σ : Storage) (x : Cell) : Storage := { σ with cells := σ.cells ++ [x] }

/-- An array of `n` elements that holds the values at its start. -/
def Cell.filled (T : TypeId) (n : Nat) (ds : List Datum) : Cell :=
  .arrayOf T (ds ++ .replicate (n - ds.length) (.number 0))

variable {code : List UInt8} {place : Nat} {js : List Item} {jss : List (List Item)} {T : TypeId}
  {S : List Datum} {C : List (Nat ⊕ List Datum)} {σ σ' : Storage} {ds ds' : List Datum} {r n : Nat}

/-! ### The instructions -/

theorem Action.execute_constantCode (v : Int32) :
    execute ⟨place, (Emission.constantCode v).1, (Emission.constantCode v).2⟩ = push (.number v) := by
  unfold Emission.constantCode
  by_cases h₀ : v = -1 ∨ v = 0 ∨ v = 1 ∨ v = 2 ∨ v = 3 ∨ v = 4 ∨ v = 5
  · rcases h₀ with rfl | rfl | rfl | rfl | rfl | rfl | rfl <;> rfl
  · simp only [not_or] at h₀
    simp [h₀, execute]

theorem Laid.next_constant {v : Int32} (h : Laid code place (.constant v :: js)) :
    Process.next code ⟨place, S, C, σ⟩ =
      .ok ⟨place + (Item.constant v).size, .number v :: S, C, σ⟩ := by
  have hfits : Order.Fits (Emission.constantCode v) :=
    (Computes.constant v).fits (by simp) _ (List.mem_singleton_self _)
  rw [h.next_plain hfits, Action.execute_constantCode]
  rfl

theorem Laid.next_dup {d : Datum} (h : Laid code place (.plain .dup [] :: js)) :
    Process.next code ⟨place, d :: S, C, σ⟩ =
      .ok ⟨place + (Item.plain .dup []).size, d :: d :: S, C, σ⟩ := by
  rw [h.next_plain (o := (.dup, [])) ⟨rfl, .nil⟩]
  rfl

/-- The new array is of characters just if the type says so. -/
theorem Laid.next_newArray (hn : n < 2 ^ 31)
    (h : Laid code place (.plain .newArray [if T = .char then 0 else 1] :: js)) :
    Process.next code ⟨place, .number (.ofNat n) :: S, C, σ⟩ =
      .ok ⟨place + (Item.plain .newArray [if T = .char then 0 else 1]).size,
        .reference σ.cells.length :: S, C, σ.allot (.filled T n [])⟩ := by
  have hoperand : Field.byte.Holds (if T = .char then 0 else 1) := by
    split <;> decide
  have hvalue : (Int32.ofNat n).toInt = n := Int32.toInt_ofNat_of_lt hn
  have hnonneg : (0 : Int32) ≤ .ofNat n := by
    rw [Int32.le_iff_toInt_le, hvalue]
    exact Int.natCast_nonneg n
  have hexecute : Action.execute ⟨place, .newArray, [if T = .char then 0 else 1]⟩ =
      Action.newArray (decide (T = .char)) := by
    by_cases hT : T = .char <;> simp [Action.execute, hT]
  have hrun : ∀ p : Process, p.stack = .number (.ofNat n) :: S →
      Action.newArray (decide (T = .char)) p =
        Action.allocate (.filled T n []) { p with stack := S } := by
    rintro ⟨_, _, _, _⟩ rfl
    show (if (0 : Int32) ≤ .ofNat n then _ else _ : Action Unit) _ = _
    rw [if_pos hnonneg, hvalue]
    rfl
  rw [h.next_plain (o := (.newArray, _)) ⟨rfl, .cons hoperand .nil⟩, hexecute, hrun _ rfl]
  rfl

theorem Cell.filled_set {i : Nat} {d : Datum} (hi : ds.length = i) (hin : i < n) :
    (ds ++ List.replicate (n - ds.length) (Datum.number 0)).set i d =
      (ds ++ [d]) ++ List.replicate (n - (ds ++ [d]).length) (.number 0) := by
  subst hi
  obtain ⟨k, hk⟩ : ∃ k, n - ds.length = k + 1 := ⟨n - ds.length - 1, by omega⟩
  have hk' : n - (ds ++ [d]).length = k := by
    rw [List.length_append, List.length_singleton]
    omega
  rw [hk', hk, List.replicate_succ, List.set_append_right _ _ (Nat.le_refl _), Nat.sub_self,
    List.set_cons_zero, List.append_assoc, List.singleton_append]

theorem Action.indexIn_ofNat {i : Nat} (hi : i < ds.length) (hsmall : i < 2 ^ 31) :
    Action.indexIn ds (.ofNat i) = Pure.pure i := by
  have hvalue : (Int32.ofNat i).toInt = i := Int32.toInt_ofNat_of_lt hsmall
  have hnonneg : (0 : Int32) ≤ .ofNat i := by
    rw [Int32.le_iff_toInt_le, hvalue]
    exact Int.natCast_nonneg i
  rw [Action.indexIn, hvalue, if_pos ⟨hnonneg, Int.ofNat_lt.2 hi⟩]
  rfl

/-- An element of an array that is on the stack is overwritten. -/
theorem Laid.next_store {i : Nat} {d : Datum} (hr : r < σ.cells.length) (hi : ds.length = i) (hin : i < n)
    (hn : n < 2 ^ 31)
    (h : Laid code place (.plain (if T = .char then .charStore else .arrayStore) [] :: js)) :
    Process.next code ⟨place, d :: .number (.ofNat i) :: .reference r :: S, C,
        σ.withCell r (.filled T n ds)⟩ =
      .ok ⟨place + (Item.plain (if T = .char then .charStore else .arrayStore) []).size, S, C,
        σ.withCell r (.filled T n (ds ++ [d]))⟩ := by
  have hexecute : Action.execute ⟨place, if T = .char then .charStore else .arrayStore, []⟩ =
      Action.storeElement (decide (T = .char)) := by
    by_cases hT : T = .char <;> simp [Action.execute, hT]
  have hfits : Order.Fits (if T = .char then .charStore else .arrayStore, []) := by
    split <;> exact ⟨rfl, .nil⟩
  have hlength : i < (ds ++ List.replicate (n - ds.length) (Datum.number 0)).length := by
    rw [List.length_append, List.length_replicate]
    omega
  have hget : ∀ p : Process, p.storage = σ.withCell r (.filled T n ds) →
      Action.getCell r p = .ok (.filled T n ds, p) := by
    intro p hp
    have hcell : p.storage.cells[r]? = some (.filled T n ds) := by
      rw [hp]
      exact List.getElem?_set_self hr
    rw [Action.getCell, hcell]
    rfl
  have helements : Action.elementsOf (decide (T = .char)) (.filled T n ds) =
      Pure.pure (ds ++ List.replicate (n - ds.length) (Datum.number 0)) := if_pos rfl
  have hset : ∀ p : Process, p.storage = σ.withCell r (.filled T n ds) →
      Action.setCell r (.arrayOf T ((ds ++ List.replicate (n - ds.length) (Datum.number 0)).set i d)) p =
        .ok ((), { p with storage := σ.withCell r (.filled T n (ds ++ [d])) }) := by
    rintro ⟨_, _, _, _⟩ rfl
    rw [Cell.filled_set hi hin]
    exact congrArg (fun cells => Except.ok ((), Process.mk _ _ _ { σ with cells })) (List.set_set ..)
  have hrun : Action.storeElement (decide (T = .char)) ⟨place +
      (Item.plain (if T = .char then .charStore else .arrayStore) []).size, d :: .number (.ofNat i) ::
        .reference r :: S, C, σ.withCell r (.filled T n ds)⟩ = .ok ((), ⟨place +
      (Item.plain (if T = .char then .charStore else .arrayStore) []).size, S, C,
        σ.withCell r (.filled T n (ds ++ [d]))⟩) := by
    refine Action.bind_eq_ok.2 ⟨d, _, rfl, Action.bind_eq_ok.2 ⟨.ofNat i, _, rfl, Action.bind_eq_ok.2
      ⟨r, _, rfl, Action.bind_eq_ok.2 ⟨_, _, hget _ rfl, ?_⟩⟩⟩⟩
    rw [helements, pure_bind, Action.indexIn_ofNat hlength (by omega), pure_bind]
    exact hset _ rfl
  rw [h.next_plain hfits, hexecute]
  exact congrArg (Except.map _) hrun

/-! ### The arguments -/

theorem codeSize_storing {i : Nat} : codeSize (storing T i js) = (Item.plain .dup []).size +
    ((Item.constant (.ofNat i)).size +
      (codeSize js + (Item.plain (if T = .char then .charStore else .arrayStore) []).size)) := by
  simp [storing]

/-- One more argument is stored in the array on the stack. -/
theorem Delivers.leads_storing {d : Datum} {i : Nat} (h : Delivers code js σ [d] σ')
    (hlaid : Laid code place (storing T i js)) (hσ : σ.Within (· ≠ r)) (hr : r < σ.cells.length)
    (hi : ds.length = i) (hin : i < n) (hn : n < 2 ^ 31) :
    Leads code ⟨place, .reference r :: S, C, σ.withCell r (.filled T n ds)⟩
      ⟨place + codeSize (storing T i js), .reference r :: S, C, σ'.withCell r (.filled T n (ds ++ [d]))⟩ := by
  have hconstant := hlaid.tail
  have hargument := hconstant.tail
  obtain ⟨hleads, hr', -⟩ := h.leads_withCell hargument.left hσ hr (.filled T n ds)
    (.number (.ofNat i) :: .reference r :: .reference r :: S) C
  have hstore := hargument.right.next_store (S := .reference r :: S) (C := C) (d := d) hr' hi hin hn
  rw [codeSize_storing]
  simp only [← Nat.add_assoc]
  exact .step hlaid.next_dup (.step hconstant.next_constant (hleads.snoc hstore))

/-- The arguments are stored in the array on the stack, one after the other. -/
theorem DeliversEach.leads_storing (h : DeliversEach code jss σ ds' σ') {i : Nat}
    (hlaid : Laid code place (numbered (storing T) i jss)) (hσ : σ.Within (· ≠ r)) (hr : r < σ.cells.length)
    (hi : ds.length = i) (hin : i + jss.length ≤ n) (hn : n < 2 ^ 31) :
    Leads code ⟨place, .reference r :: S, C, σ.withCell r (.filled T n ds)⟩
        ⟨place + codeSize (numbered (storing T) i jss), .reference r :: S, C,
          σ'.withCell r (.filled T n (ds ++ ds'))⟩ ∧
      σ'.Within (· ≠ r) ∧ ∀ d ∈ ds', d.Within (· ≠ r) := by
  induction h generalizing i place ds with
  | nil =>
    rw [List.append_nil]
    exact ⟨.refl, hσ, nofun⟩
  | @cons js jss σ σ₁ σ' d ds' hfirst _ ih =>
    rw [List.length_cons] at hin
    have hlaid' : Laid code place (storing T i js) := hlaid.left
    have hleads := hfirst.leads_storing (S := S) (C := C) hlaid' hσ hr hi (by omega) hn
    obtain ⟨-, hr₁, hσ₁, hd⟩ := hfirst.leads_withCell hlaid'.tail.tail.left hσ hr (.filled T n ds) [] []
    have hi' : (ds ++ [d]).length = i + 1 := by rw [List.length_append, hi, List.length_singleton]
    obtain ⟨hleads', hσ', hds'⟩ := ih hlaid.right hσ₁ hr₁ hi' (by omega)
    rw [numbered, codeSize_append, ← Nat.add_assoc]
    rw [List.append_assoc, List.singleton_append] at hleads'
    exact ⟨hleads.trans hleads', hσ', List.forall_mem_cons.2 ⟨hd d (by simp), hds'⟩⟩

/-! ### The array -/

theorem numbered_append {i : Nat} (jss' : List (List Item)) :
    numbered (storing T) i (jss ++ jss') =
      numbered (storing T) i jss ++ numbered (storing T) (i + jss.length) jss' := by
  induction jss generalizing i with
  | nil => rfl
  | cons js jss ih =>
    rw [List.cons_append, numbered, numbered, ih, List.append_assoc, List.length_cons,
      Nat.add_right_comm, Nat.add_assoc]

theorem packing_append (jss' : List (List Item)) :
    packing T n (jss ++ jss') = packing T n jss ++ numbered (storing T) jss.length jss' := by
  rw [packing, numbered_append, Nat.zero_add]
  rfl

theorem Storage.withCell_allot (x y : Cell) : (σ.allot x).withCell σ.cells.length y = σ.allot y := by
  simp [withCell, allot]

/-- Nothing refers to a new array. -/
theorem Storage.Closed.allot (h : σ.Closed) (x : Cell) : (σ.allot x).Within (· ≠ σ.cells.length) := by
  have hdatum : ∀ d : Datum, d.Within (· < σ.cells.length) → d.Within (· ≠ σ.cells.length) :=
    fun d hd => by
      cases d with
      | number v => trivial
      | reference c => exact Nat.ne_of_lt hd
  refine ⟨fun d hd => hdatum d (h.locals d hd), fun d hd => hdatum d (h.statics d hd),
    fun c y hc hy d hd => ?_⟩
  have hlt : c < σ.cells.length := by
    have hlt := (List.getElem?_eq_some_iff.1 hy).1
    simp only [Storage.allot, List.length_append, List.length_singleton] at hlt
    omega
  have hy' : σ.cells[c]? = some y := by rwa [Storage.allot, List.getElem?_append_left hlt] at hy
  exact hdatum d (h.cells c y hlt hy' d hd)

/-- The array is made, and the arguments are stored in it. -/
theorem DeliversEach.leads_packing
    (h : DeliversEach code jss (σ.allot (.filled T n [])) ds σ') (hlaid : Laid code place (packing T n jss))
    (hσ : σ.Closed) (hjss : jss.length ≤ n) (hn : n < 2 ^ 31) :
    Leads code ⟨place, S, C, σ⟩ ⟨place + codeSize (packing T n jss), .reference σ.cells.length :: S, C,
        σ'.withCell σ.cells.length (.filled T n ds)⟩ ∧
      σ'.Within (· ≠ σ.cells.length) ∧ ∀ d ∈ ds, d.Within (· ≠ σ.cells.length) := by
  have hr : σ.cells.length < (σ.allot (.filled T n [])).cells.length := by simp [Storage.allot]
  obtain ⟨hleads, hwithin⟩ := h.leads_storing (S := S) (C := C) hlaid.tail.tail (hσ.allot _) hr
    (List.length_nil : ([] : List Datum).length = 0) (by omega) hn
  refine ⟨?_, hwithin⟩
  rw [Storage.withCell_allot] at hleads
  rw [packing, codeSize_cons, codeSize_cons, ← Nat.add_assoc, ← Nat.add_assoc]
  exact .step hlaid.next_constant (.step (hlaid.tail.next_newArray hn) hleads)

/-! ### Calls -/

theorem DeliversEach.length_eq (h : DeliversEach code jss σ ds σ') : ds.length = jss.length := by
  induction h with
  | nil => rfl
  | cons _ _ ih => rw [List.length_cons, List.length_cons, ih]

/-- Called with the arguments, the method at the address comes back with the values on the stack. -/
def Answers (code : List UInt8) (target : Nat) (arguments : List Datum) (σ : Storage) (ds : List Datum)
    (σ' : Storage) : Prop :=
  ∀ back, Leads code ⟨target, arguments.reverse, [.inl back], σ⟩ ⟨back, ds, [], σ'⟩

/-- What the code of a call with fixed and variable arguments does, where each argument gives a value. -/
structure Packs (code : List UInt8) (T : TypeId) (fixed extra : List (List Item)) (target : Nat) : Prop where
  /-- Each of the stores is in the bounds of the array. -/
  stores {place i : Nat} {σ σ₁ σ₂ : Storage} {us ws : List Datum}
    (hlaid : Laid code place (fixed.flatten ++ packing T extra.length extra)) (hσ : σ.Closed)
    (hfixed : DeliversEach code fixed σ us σ₁) (hi : i ≤ extra.length)
    (hextra : DeliversEach code (extra.take i) (σ₁.allot (.filled T extra.length [])) ws σ₂) :
    Leads code ⟨place, [], [], σ⟩ ⟨place + codeSize (fixed.flatten ++ packing T extra.length (extra.take i)),
      .reference σ₁.cells.length :: us.reverse, [],
        σ₂.withCell σ₁.cells.length (.filled T extra.length ws)⟩
  /-- Above the fixed arguments is the only reference to an array that holds the variable ones. -/
  packs {place : Nat} {σ σ₁ σ₂ : Storage} {us ws : List Datum}
    (hlaid : Laid code place (fixed.flatten ++ packing T extra.length extra)) (hσ : σ.Closed)
    (hfixed : DeliversEach code fixed σ us σ₁)
    (hextra : DeliversEach code extra (σ₁.allot (.filled T extra.length [])) ws σ₂) :
    Leads code ⟨place, [], [], σ⟩ ⟨place + codeSize (fixed.flatten ++ packing T extra.length extra),
        .reference σ₁.cells.length :: us.reverse, [],
          σ₂.withCell σ₁.cells.length (.array (decide (T = .char)) ws)⟩ ∧
      σ₂.Within (· ≠ σ₁.cells.length) ∧ ∀ d ∈ us ++ ws, d.Within (· ≠ σ₁.cells.length)
  /-- The call is then made with the array behind the fixed arguments. -/
  calls {σ σ₁ σ₂ σ₃ : Storage} {us ws ds : List Datum} (hσ : σ.Closed)
    (hfixed : DeliversEach code fixed σ us σ₁)
    (hextra : DeliversEach code extra (σ₁.allot (.filled T extra.length [])) ws σ₂)
    (hanswers : Answers code target (us ++ [.reference σ₁.cells.length])
      (σ₂.withCell σ₁.cells.length (.array (decide (T = .char)) ws)) ds σ₃) :
    Delivers code (fixed.flatten ++ (packing T extra.length extra ++ [.call target])) σ ds σ₃

theorem Cell.filled_eq (h : ds.length = n) : Cell.filled T n ds = .array (decide (T = .char)) ds := by
  simp [filled, arrayOf, h]

/-- The code of every call with fewer arguments than a number of 32 bits can count. -/
theorem packs {fixed extra : List (List Item)} {target : Nat} (hn : extra.length < 2 ^ 31) :
    Packs code T fixed extra target := by
  have hstores : ∀ {place i : Nat} {σ σ₁ σ₂ : Storage} {us ws : List Datum},
      Laid code place (fixed.flatten ++ packing T extra.length extra) → σ.Closed →
      DeliversEach code fixed σ us σ₁ → i ≤ extra.length →
      DeliversEach code (extra.take i) (σ₁.allot (.filled T extra.length [])) ws σ₂ →
      Leads code ⟨place, [], [], σ⟩
          ⟨place + codeSize (fixed.flatten ++ packing T extra.length (extra.take i)),
            .reference σ₁.cells.length :: us.reverse, [],
              σ₂.withCell σ₁.cells.length (.filled T extra.length ws)⟩ ∧
        σ₂.Within (· ≠ σ₁.cells.length) ∧ ∀ d ∈ us ++ ws, d.Within (· ≠ σ₁.cells.length) := by
    intro place i σ σ₁ σ₂ us ws hlaid hσ hfixed hi hextra
    have hpacking : Laid code (place + codeSize fixed.flatten) (packing T extra.length (extra.take i)) := by
      have hwhole := hlaid.right
      rw [← List.take_append_drop i extra, packing_append, List.take_append_drop] at hwhole
      exact hwhole.left
    obtain ⟨hσ₁, hus⟩ := hfixed.delivers.closed hlaid.left hσ
    obtain ⟨hleads, hσ₂, hws⟩ := hextra.leads_packing (S := us.reverse) (C := []) hpacking hσ₁
      (by rw [List.length_take]; omega) hn
    refine ⟨?_, hσ₂, List.forall_mem_append.2 ⟨fun d hd => ?_, hws⟩⟩
    · rw [codeSize_append, ← Nat.add_assoc]
      exact (hfixed.delivers place hlaid.left).trans hleads
    · have hd' := hus d (List.mem_reverse.2 hd)
      cases d with
      | number v => trivial
      | reference c => exact Nat.ne_of_lt hd'
  have hpacks : ∀ {place : Nat} {σ σ₁ σ₂ : Storage} {us ws : List Datum},
      Laid code place (fixed.flatten ++ packing T extra.length extra) → σ.Closed →
      DeliversEach code fixed σ us σ₁ →
      DeliversEach code extra (σ₁.allot (.filled T extra.length [])) ws σ₂ →
      Leads code ⟨place, [], [], σ⟩ ⟨place + codeSize (fixed.flatten ++ packing T extra.length extra),
          .reference σ₁.cells.length :: us.reverse, [],
            σ₂.withCell σ₁.cells.length (.array (decide (T = .char)) ws)⟩ ∧
        σ₂.Within (· ≠ σ₁.cells.length) ∧ ∀ d ∈ us ++ ws, d.Within (· ≠ σ₁.cells.length) := by
    intro place σ σ₁ σ₂ us ws hlaid hσ hfixed hextra
    have h := hstores hlaid hσ hfixed (Nat.le_refl _) (by rwa [List.take_length])
    rwa [List.take_length, Cell.filled_eq hextra.length_eq] at h
  refine ⟨fun hlaid hσ hfixed hi hextra => (hstores hlaid hσ hfixed hi hextra).1, hpacks, ?_⟩
  intro σ σ₁ σ₂ σ₃ us ws ds hσ hfixed hextra hanswers place hlaid
  rw [← List.append_assoc] at hlaid ⊢
  have hcall : Process.next code ⟨place + codeSize (fixed.flatten ++ packing T extra.length extra),
      .reference σ₁.cells.length :: us.reverse, [],
        σ₂.withCell σ₁.cells.length (.array (decide (T = .char)) ws)⟩ = .ok ⟨target, _, _, _⟩ :=
    hlaid.right.next_call
  have hback := hanswers (place + codeSize (fixed.flatten ++ packing T extra.length extra) +
    (Item.call target).size)
  rw [List.reverse_append] at hback
  rw [codeSize_append _ [_], codeSize_cons, codeSize_nil, Nat.add_zero, ← Nat.add_assoc]
  exact ((hpacks hlaid.left hσ hfixed hextra).1.snoc hcall).trans hback

end MicroJava
