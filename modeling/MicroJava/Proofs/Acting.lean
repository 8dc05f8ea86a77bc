import MicroJava.Production.Program
import MicroJava.Proofs.Reading

/-!
# Actions

What the productions of expressions and statements do besides reading: each of them acts (`Acts`), and
what it reports is no problem of the grammar. Loading and storing fail in one way each, which depends
on the operand alone (`Emission.Ends`).
-/

namespace MicroJava

/-- What is wrong with loading an operand. -/
def Operand.loading (x : Operand) : Option Problem :=
  match x.place with
  | .method _ => some .noValue
  | _ => none

/-- What is wrong with storing into an operand. -/
def Operand.storing (x : Operand) : Option Problem :=
  if x.isVariable then none else some .notAVariable

namespace Emission

/-- The emission ends with the problem, or well if there is none, wherever it starts. -/
def Ends (e : Emission Problem Unit) (p? : Option Problem) : Prop :=
  ∀ a, ∃ a', e.outcome a = (p?.elim (.ok ()) .error, a')

variable {e f : Emission Problem Unit} {p? q? : Option Problem}

theorem ends_pure : Ends (pure ()) none := fun a => ⟨a, rfl⟩

theorem ends_throw {p : Problem} : Ends (throw p) (some p) := fun a => ⟨a, rfl⟩

theorem ends_emit {op : Opcode} {operands : List Int} : Ends (emit op operands) none :=
  fun a => ⟨a.emit op operands, rfl⟩

theorem ends_bind (he : Ends e p?) (hf : Ends f q?) : Ends (e >>= fun _ => f) (p?.or q?) := by
  intro a
  obtain ⟨a₁, ha⟩ := he a
  rw [outcome_bind, ha]
  rcases p? with _ | p
  · exact hf a₁
  · exact ⟨a₁, rfl⟩

theorem ends_load (x : Operand) : Ends (load x) x.loading := by
  obtain ⟨place, type⟩ := x
  cases place with
  | stack => exact ends_pure
  | method id => exact ends_throw
  | _ => exact ends_emit

theorem ends_store (x : Operand) : Ends (store x) x.storing := by
  obtain ⟨place, type⟩ := x
  cases place with
  | constant v => exact ends_throw
  | stack => exact ends_throw
  | method id => exact ends_throw
  | _ => exact ends_emit

theorem ends_assign (target value : Operand) (operator : Option Opcode) :
    Ends (assign target value operator) (value.loading.or target.storing) := by
  refine ends_bind (ends_load value) ?_
  rcases operator with _ | op
  · exact ends_bind ends_pure (ends_store target)
  · exact ends_bind ends_emit (ends_store target)

theorem ends_loadForUpdate (x : Operand) : Ends (loadForUpdate x) x.storing := by
  obtain ⟨place, type⟩ := x
  cases place with
  | frame slot => exact ends_load ⟨.frame slot, type⟩
  | global slot => exact ends_load ⟨.global slot, type⟩
  | field slot => exact ends_bind ends_emit (ends_load ⟨.field slot, type⟩)
  | element => exact ends_bind ends_emit (ends_load ⟨.element, type⟩)
  | constant v => exact ends_throw
  | stack => exact ends_throw
  | method id => exact ends_throw

/-- A variable of the frame is stepped in another way. -/
theorem ends_incrementPlace (x : Operand) (step : Int32) (h : ∀ slot, x.place ≠ .frame slot) :
    Ends (incrementPlace x step) x.storing := by
  obtain ⟨place, type⟩ := x
  have hadd : ∀ y, Ends (do emit .add; store y) y.storing :=
    fun y => ends_bind ends_emit (ends_store y)
  have hrest : ∀ y, Ends (do load y; constant step; emit .add; store y)
      (y.loading.or y.storing) :=
    fun y => ends_bind (ends_load y) (ends_bind ends_emit (hadd y))
  cases place with
  | frame slot => exact absurd rfl (h slot)
  | global slot => exact ends_bind ends_pure (hrest _)
  | field slot => exact ends_bind ends_emit (hrest _)
  | element => exact ends_bind ends_emit (hrest _)
  | constant v => exact ends_bind ends_throw (hrest _)
  | stack => exact ends_bind ends_throw (hrest _)
  | method id => exact ends_bind ends_throw (hrest _)

end Emission

namespace Production

variable {c : Setting} {s s' : Session} {e : Emission Problem Unit} {p? : Option Problem}

theorem runs_attempt_of_ends (he : e.Ends p?) {u : Unit} (h : Runs c (attempt e) s u s') :
    ∃ assembly, s' = p?.elim { s with assembly } fun p =>
      Session.report { s with assembly } c.options.reportDistance p [] := by
  obtain ⟨a', ha⟩ := he s.assembly
  refine ⟨a', ?_⟩
  rcases runs_attempt.1 h with ⟨assembly, hs, rfl⟩ | ⟨p, assembly, hs, rfl⟩
  · rw [ha] at hs
    rcases p? with _ | p
    · obtain ⟨-, rfl⟩ := Prod.mk.inj hs
      rfl
    · simp at hs
  · rw [ha] at hs
    rcases p? with _ | p'
    · simp at hs
    · obtain ⟨hp, rfl⟩ := Prod.mk.inj hs
      obtain rfl := Except.error.inj hp
      rfl

theorem acts_attempt (he : e.Ends p?) (hp : ∀ p ∈ p?, p.isSyntactic = false) :
    Keeps c (Acts c) (attempt e) := by
  intro s u s' h
  obtain ⟨assembly, rfl⟩ := runs_attempt_of_ends he h
  rcases p? with _ | p
  · exact .withAssembly assembly
  · exact (Acts.withAssembly assembly).trans (.report (hp p rfl) [])

theorem not_syntactic_loading (x : Operand) : ∀ p ∈ x.loading, p.isSyntactic = false := by
  unfold Operand.loading
  split <;> simp [Problem.isSyntactic]

theorem not_syntactic_storing (x : Operand) : ∀ p ∈ x.storing, p.isSyntactic = false := by
  unfold Operand.storing
  split <;> simp [Problem.isSyntactic]

theorem acts_load {x : Operand} : Keeps c (Acts c) (load x) :=
  acts_attempt (Emission.ends_load x) (not_syntactic_loading x)

/-! ### Expressions -/

theorem not_syntactic_ofEntry {id : EntryId} {e : Entry} {p : Problem}
    (h : Operand.ofEntry id e = .error p) : p.isSyntactic = false := by
  unfold Operand.ofEntry at h
  split at h
  · contradiction
  · split at h <;> cases h <;> rfl

theorem acts_ofEntry {id : EntryId} {e : Entry} :
    Keeps c (Acts c) (match Operand.ofEntry id e with
      | .ok x => return x
      | .error p => do
        report p
        return .missing) := by
  split
  · exact .pure _
  · next p h => exact .bind (acts_report (not_syntactic_ofEntry h)) fun _ => .pure _

theorem acts_loadArray {d : Descriptor} {x : Operand} : Keeps c (Acts c) (loadArray d x) :=
  .ite (fun _ => acts_load) fun _ => acts_report rfl

theorem acts_checkArgument {x : Operand} :
    ∀ t : Option TypeId, Keeps c (Acts c) (checkArgument x t)
  | some _ => .bind acts_fits fun _ => acts_reportIf rfl
  | none => .pure ()

theorem acts_newArrayOf {length : Int32} :
    ∀ t : Option TypeId, Keeps c (Acts c) (newArrayOf length t)
  | some _ => acts_write
  | none => .pure ()

theorem acts_checkCount {wanted : Option Nat} {count : Nat} {tooFew tooMany : Problem}
    (hfew : tooFew.isSyntactic = false) (hmany : tooMany.isSyntactic = false) :
    Keeps c (Acts c) (checkCount wanted count tooFew tooMany) := by
  unfold checkCount
  split
  · exact .ite (fun _ => acts_report hfew) fun _ => .ite (fun _ => acts_report hmany) fun _ =>
      .pure ()
  · exact .pure ()

theorem acts_mapM {α β : Type} {f : α → Production β} (hf : ∀ a, Keeps c (Acts c) (f a)) :
    ∀ as : List α, Keeps c (Acts c) (as.mapM f)
  | [] => by
    rw [List.mapM_nil]
    exact .pure _
  | a :: as => by
    rw [List.mapM_cons]
    exact .bind (hf a) fun _ => .bind (acts_mapM hf as) fun _ => .pure _

theorem acts_extraType (variadic : Bool) (last : Option TypeId) :
    Keeps c (Acts c) (extraType variadic last) := by
  unfold extraType
  split
  · intro s t s' h
    obtain ⟨_, h, -⟩ := runs_map.1 h
    obtain ⟨d, h, -⟩ := runs_map.1 h
    exact acts_descriptor h
  · exact .pure _

theorem acts_signature {m : Method} : Keeps c (Acts c) (signature m) :=
  .bind (acts_mapM (fun _ => .bind acts_entry fun _ => .pure _) _) fun _ =>
    .bind (acts_extraType ..) fun _ => .pure _

theorem acts_callee {x : Operand} : Keeps c (Acts c) (callee x) := by
  unfold callee
  split
  · exact .bind acts_entry fun _ => .pure _
  · exact .pure _

theorem acts_targetSignature :
    ∀ target : Option (EntryId × Method), Keeps c (Acts c) (targetSignature target)
  | some _ => acts_signature
  | none => .pure _

theorem acts_result {t : TypeId} :
    ∀ target : Option (EntryId × Method), Keeps c (Acts c) (result t target)
  | some (id, m) => by
    refine .bind ?_ fun _ => .pure _
    unfold invoke
    split
    · exact acts_emit
    · exact .pure ()
    · exact .pure ()
    · exact acts_write
  | none => .pure _

theorem acts_objectCreation {t : TypeId} : Keeps c (Acts c) (objectCreation t) := by
  refine .bind acts_descriptor fun d => .ite (fun _ => ?_) fun _ => ?_
  · exact .bind acts_write fun _ => .pure _
  · exact .bind (acts_reportIf rfl) fun _ => .pure _

theorem acts_negate {x : Operand} : Keeps c (Acts c) (negate x) := by
  refine .ite (fun _ => .bind (acts_report rfl) fun _ => .pure _) fun _ => ?_
  split
  · exact .pure _
  · exact .bind acts_load fun _ => .bind acts_emit fun _ => .pure _

/-! ### Conditions and statements -/

theorem acts_checkComparison {x y : Operand} {o : Option Comparison} :
    Keeps c (Acts c) (checkComparison x y o) := by
  refine .bind acts_comparable fun _ => .ite (fun _ => ?_) fun _ => acts_report rfl
  exact .bind acts_descriptor fun _ => acts_reportIf rfl

theorem acts_loadOldValue {x : Operand} {operator : Option Opcode} :
    Keeps c (Acts c) (loadOldValue x operator) := by
  refine .ite (fun _ => .pure ()) fun _ => .ite (fun _ => ?_) fun _ => acts_report rfl
  exact acts_attempt (Emission.ends_loadForUpdate x) (not_syntactic_storing x)

theorem acts_assignValue {x y : Operand} {operator : Option Opcode} :
    Keeps c (Acts c) (assignValue x y operator) := by
  refine .bind acts_fits fun _ => .ite (fun _ => ?_) fun _ => acts_report rfl
  refine acts_attempt (Emission.ends_assign x y operator) fun p hp => ?_
  rcases Option.or_eq_some_iff.1 hp with hp | ⟨-, hp⟩
  · exact not_syntactic_loading y p hp
  · exact not_syntactic_storing x p hp

theorem acts_increment {x : Operand} {step : Int32} : Keeps c (Acts c) (increment x step) := by
  refine .ite (fun _ => acts_report rfl) fun _ => ?_
  split
  · exact acts_write
  · next h =>
    exact acts_attempt (Emission.ends_incrementPlace x step h) (not_syntactic_storing x)

theorem acts_popResult {y : Operand} :
    Keeps c (Acts c) (if y.type ≠ .none then emit .pop else pure ()) :=
  .ite (fun _ => acts_emit) fun _ => .pure ()

theorem acts_leave : ∀ exit : Option Label, Keeps c (Acts c) (leave exit)
  | some _ => acts_write
  | none => acts_report rfl

theorem acts_returnOperand {x : Operand} {t : TypeId} :
    Keeps c (Acts c) (returnOperand x t) := by
  refine .ite (fun _ => acts_report rfl) fun _ => ?_
  exact .bind acts_fits fun _ => .bind acts_load fun _ => acts_reportIf rfl

theorem acts_readInto {x : Operand} : Keeps c (Acts c) (readInto x) := by
  unfold readInto
  split
  · exact .bind acts_emit fun _ =>
      acts_attempt (Emission.ends_store x) (not_syntactic_storing x)
  · exact acts_report rfl

theorem acts_emitPrint {t : TypeId} : Keeps c (Acts c) (emitPrint t) := by
  unfold emitPrint
  split
  · exact acts_emit
  · exact .pure ()

end Production

end MicroJava
