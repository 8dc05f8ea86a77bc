import MicroJava.Proofs.Checking

/-!
# What actions check

What the steps that read nothing report, in terms of what the operands and handles stand for: a name
that is not declared (`World.Checks.find`), an operand without a value (`World.Checks.load`), a value
that does not fit (`World.Checks.fits`), and so on.
-/

namespace MicroJava.World.Checks

open Production Static

variable {w : World} {c : Setting} {A : Prop} {β V U : Type} {s s' : Session} {x : Operand}
  {v : Value} {ys : List Terminal} {F : Token.Kind → Prop} {Q : β → Prop} {K : U → Prop}
  {E : β → U → Prop}

/-! ### Symbols -/

/-- The entry is that of the table further on. -/
theorem entry {id : EntryId} {g : Entry → Production β}
    (h : ∀ e, w.Checks (A ∧ w.table.entryAt? id = some e) (Runs c (g e)) ys F Q K E) :
    w.Checks A (Runs c (Production.entry id >>= g)) ys F Q K E := by
  intro s b s' rest hrun hn hahead hrest
  simp only [runs_bind, runs_entry] at hrun
  obtain ⟨e, s, ⟨he, rfl⟩, hrun⟩ := hrun
  obtain ⟨hq, hchecked⟩ := h e hrun hn hahead hrest
  have he' : w.Agrees s s' → w.table.entryAt? id = some e := fun hw =>
    ((hchecked.reaches.table.trans hw.widens).below (ρ := w.classes)).entries _ _ he
  exact ⟨hq, hchecked.reaches, fun hA hw => hchecked.sound ⟨hA, he' hw⟩ hw,
    fun hA hw => hchecked.complete ⟨hA, he' hw⟩ hw⟩

theorem descriptor {t : TypeId} {g : Descriptor → Production β}
    (h : ∀ d, w.Checks (A ∧ w.table.types.descriptor? t = some d) (Runs c (g d)) ys F Q K E) :
    w.Checks A (Runs c (Production.descriptor t >>= g)) ys F Q K E := by
  intro s b s' rest hrun hn hahead hrest
  simp only [runs_bind, runs_descriptor] at hrun
  obtain ⟨d, s, ⟨hd, rfl⟩, hrun⟩ := hrun
  obtain ⟨hq, hchecked⟩ := h d hrun hn hahead hrest
  have hd' : w.Agrees s s' → w.table.types.descriptor? t = some d := fun hw =>
    (hchecked.reaches.table.trans hw.widens).descriptor? hd
  exact ⟨hq, hchecked.reaches, fun hA hw => hchecked.sound ⟨hA, hd' hw⟩ hw,
    fun hA hw => hchecked.complete ⟨hA, hd' hw⟩ hw⟩

/-- A name is found if it is declared. -/
theorem find {n : String} (hn : n ≠ "") :
    w.Checks A (Runs c (Production.find n)) [] F (fun _ => True)
      (fun x => w.context.lookup n = some x)
      fun id x => w.table.lookup? n = some id ∧ w.table.Binds w.classes id n x := by
  refine of_acts acts_find fun s id s' hrun => ⟨trivial, fun _ hw => ?_⟩
  have hlookup := hw.session.table.lookup n
  have hsame := hw.widens.lookup? n
  rcases runs_find.1 hrun with ⟨hempty, -⟩ | ⟨-, hnone, -, rfl⟩ | ⟨-, hsome, rfl⟩
  · exact absurd hempty hn
  · rw [hnone] at hlookup
    simp [hlookup]
  · rw [hsome] at hlookup
    obtain ⟨x, hx, hb⟩ := hlookup
    refine ⟨fun _ => ⟨x, hx⟩, fun x' hx' => ⟨rfl, hsame.trans hsome, ?_⟩⟩
    obtain rfl := Option.some.inj (hx.symm.trans hx')
    exact hb.mono hw.widens.below

/-- No other types than those of classes have fields. -/
theorem fields_eq_nil {t : SymbolTable} (ht : t.Widens w.table) {σ : Ty} {id : TypeId}
    (hid : w.HasType σ id) (hσ : ¬∃ k, σ = .object k) : t.types.fields id = [] := by
  rcases hd : t.types.descriptor? id with _ | d
  · simp [Types.fields, hd]
  · obtain ⟨d', hd', hdσ⟩ := hid.describes w.models
    obtain rfl := Option.some.inj ((ht.descriptor? hd).symm.trans hd')
    cases σ with
    | object k => exact absurd ⟨k, rfl⟩ hσ
    | array α =>
      obtain ⟨e, rfl⟩ := hdσ
      simp [Types.fields, hd, Descriptor.fields]
    | _ =>
      subst hdσ
      simp [Types.fields, hd, Descriptor.fields]

/-- A name is a field if the class has it. -/
theorem findField {n : String} {σ : Ty} {t : TypeId} (ht : A → w.HasType σ t) :
    w.Checks A (Runs c (Production.findField n t)) [] F (fun _ => True)
      (fun τ => ∃ k fields, σ = .object k ∧ w.context.classes.lookup k = some fields ∧
        fields.lookup n = some (.variable τ))
      fun id τ => w.table.Binds w.classes id n (.variable τ) := by
  refine of_acts acts_findField fun s id s' hrun => ⟨trivial, fun hA hw => ?_⟩
  have ht := ht hA
  have htable := (acts_findField hrun).table
  simp only [Production.findField, runs_bind, runs_table] at hrun
  obtain ⟨_, s, ⟨rfl, rfl⟩, hrun⟩ := hrun
  have hagrees := hw.session.table
  by_cases hσ : ∃ k, σ = .object k
  · obtain ⟨k, rfl⟩ := hσ
    have hfield := hagrees.findField ht n
    rcases hf : s.table.findField n t with p | id'
    · rw [hf] at hfield hrun
      simp only [runs_bind, runs_report] at hrun
      obtain ⟨_, _, rfl, hrun⟩ := hrun
      obtain ⟨-, rfl⟩ := runs_pure.1 hrun
      refine refuted (Session.mistakes_report ..) ?_
      rintro τ ⟨k', fields, heq, hk, hn⟩
      obtain rfl := Ty.object.inj heq
      simp [hfield fields hk] at hn
    · rw [hf] at hfield hrun
      obtain ⟨rfl, rfl⟩ := runs_pure.1 hrun
      obtain ⟨fields, τ, hk, hn, hb⟩ := hfield
      refine ⟨fun _ => ⟨τ, k, fields, rfl, hk, hn⟩, ?_⟩
      rintro τ' ⟨k', fields', heq, hk', hn'⟩
      obtain rfl := Ty.object.inj heq
      obtain rfl := Option.some.inj (hk.symm.trans hk')
      obtain rfl : τ = τ' := by simpa [hn] using hn'
      exact ⟨rfl, hb.mono hw.widens.below⟩
  · have hnil : s.table.types.fields t = [] := fields_eq_nil (htable.trans hw.widens) ht hσ
    have hfind : s.table.findField n t = .error .notAField := by
      simp [SymbolTable.findField, hnil]
    rw [hfind] at hrun
    simp only [runs_bind, runs_report] at hrun
    obtain ⟨_, _, rfl, hrun⟩ := hrun
    obtain ⟨-, rfl⟩ := runs_pure.1 hrun
    refine refuted (Session.mistakes_report ..) ?_
    rintro τ ⟨k, -, rfl, -⟩
    exact hσ ⟨k, rfl⟩

/-! ### Operands -/

theorem attempt {e : Emission Problem Unit} {p? : Option Problem} {P : V → Prop} {G : Unit → V → Prop}
    (he : e.Ends p?) (hp : ∀ p ∈ p?, p.isSyntactic = false)
    (hP : A → (p? = none ↔ ∃ v, P v)) (hG : A → ∀ v, P v → G () v) :
    w.Checks A (Runs c (Production.attempt e)) [] F (fun _ => True) P G := by
  refine of_acts (acts_attempt he hp) fun s u s' hrun => ⟨trivial, fun hA _ => ?_⟩
  obtain ⟨assembly, rfl⟩ := runs_attempt_of_ends he hrun
  rcases p? with _ | p
  · exact ⟨fun _ => (hP hA).1 rfl, fun v hv => ⟨rfl, hG hA v hv⟩⟩
  · exact refuted (Session.mistakes_report ..) fun v hv => by simpa using (hP hA).2 ⟨v, hv⟩

/-- An operand is loaded if it has a value. -/
theorem load (hx : A → w.Is x v) :
    w.Checks A (Runs c (Production.load x)) [] F (fun _ => True) (fun τ => v.type? = some τ)
      fun _ τ => w.HasType τ x.type :=
  attempt (Emission.ends_load x) (not_syntactic_loading x) (fun hA => (hx hA).loading_iff)
    fun hA _ hτ => (hx hA).type hτ

theorem emit {op : Opcode} {operands : List Int} {g : Unit → Production β}
    (hg : w.Checks A (Runs c (g ())) ys F Q K E) :
    w.Checks A (Runs c (Production.emit op operands >>= g)) ys F Q K E :=
  write fun _ => hg

theorem ignore {n : String} {g : Unit → Production β} (hg : w.Checks A (Runs c (g ())) ys F Q K E) :
    w.Checks A (Runs c (discard Production.identifier >>= g)) (.name n :: ys) F Q K E := by
  refine take (fun s u s' hrun ht => ?_) hg
  obtain ⟨a, hrun⟩ := runs_discard.1 hrun
  exact ⟨rfl, (runs_identifier_terminal s a s' hrun ht).2⟩

/-! ### Types -/

theorem narrow {σ : Ty} {t : TypeId} {d : Descriptor} (hs : s.table.Widens w.table)
    (ht : w.HasType σ t) (hd : s.table.types.descriptor? t = some d) :
    s.table.types.HasType w.classes σ t := by
  have hsub : s.table.types.Sub w.table.types := fun _ _ => hs.descriptor?
  exact Types.HasType.narrow hsub ht (Types.index_lt_of_descriptor? hd)

theorem fits {τ : Ty} {t : TypeId} {g : Bool → Production β} (hx : A → w.Is x v)
    (ht : A → w.HasType τ t)
    (hg : ∀ b : Bool, w.Checks (A ∧ ∀ σ, v.type? = some σ → (b = true ↔ v.Fits τ)) (Runs c (g b))
      ys F Q K E) :
    w.Checks A (Runs c (Production.fits x t >>= g)) ys F Q K E := by
  intro s b s' rest hrun hn hahead hrest
  simp only [Production.fits, runs_bind, runs_discard, runs_descriptor, runs_table] at hrun
  obtain ⟨r, s, ⟨_, _, ⟨d, hd, rfl⟩, _, _, ⟨d', hd', rfl⟩, _, _, ⟨rfl, rfl⟩, hr⟩, hrun⟩ := hrun
  obtain ⟨rfl, rfl⟩ := runs_pure.1 hr
  obtain ⟨hq, hchecked⟩ := hg _ hrun hn hahead hrest
  have hfits : A → w.Agrees s s' →
      ∀ σ, v.type? = some σ → (x.fits s.table.types t = true ↔ v.Fits τ) := by
    intro hA hw σ hσ
    have hwidens := hchecked.reaches.table.trans hw.widens
    exact (hx hA).fits_iff hw.session.table.types hσ (narrow hwidens ((hx hA).type hσ) hd)
      (narrow hwidens (ht hA) hd')
  exact ⟨hq, hchecked.reaches, fun hA hw => hchecked.sound ⟨hA, hfits hA hw⟩ hw,
    fun hA hw => hchecked.complete ⟨hA, hfits hA hw⟩ hw⟩

theorem comparable {σ τ : Ty} {t u : TypeId} {g : Bool → Production β}
    (ht : A → w.HasType σ t) (hu : A → w.HasType τ u)
    (hg : ∀ b : Bool, w.Checks (A ∧ (b = true ↔ σ.Comparable τ)) (Runs c (g b)) ys F Q K E) :
    w.Checks A (Runs c (Production.comparable t u >>= g)) ys F Q K E := by
  intro s b s' rest hrun hn hahead hrest
  simp only [Production.comparable, runs_bind, runs_discard, runs_descriptor, runs_table] at hrun
  obtain ⟨r, s, ⟨_, _, ⟨d, hd, rfl⟩, _, _, ⟨d', hd', rfl⟩, _, _, ⟨rfl, rfl⟩, hr⟩, hrun⟩ := hrun
  obtain ⟨rfl, rfl⟩ := runs_pure.1 hr
  obtain ⟨hq, hchecked⟩ := hg _ hrun hn hahead hrest
  have hcomparable : A → w.Agrees s s' →
      (s.table.types.comparable t u = true ↔ σ.Comparable τ) := by
    intro hA hw
    have hwidens := hchecked.reaches.table.trans hw.widens
    exact (narrow hwidens (ht hA) hd).comparable_iff hw.session.table.types
      (narrow hwidens (hu hA) hd')
  exact ⟨hq, hchecked.reaches, fun hA hw => hchecked.sound ⟨hA, hcomparable hA hw⟩ hw,
    fun hA hw => hchecked.complete ⟨hA, hcomparable hA hw⟩ hw⟩

end MicroJava.World.Checks

namespace MicroJava.World

open Production Static

variable {w : World} {c : Setting} {A : Prop} {F : Token.Kind → Prop}

/-- The name stands for the type, and for its handle. -/
structure Names (w : World) (n : String) (τ : Ty) (t : TypeId) : Prop where
  context : w.context.lookup n = some (.type τ)
  table : ∃ id e, w.table.lookup? n = some id ∧ w.table.entryAt? id = some e ∧ e.type = t
  type : w.HasType τ t

theorem Checks.arrayOf {n : String} {τ : Ty} {t : TypeId} (hn : A → w.Names n τ t) :
    w.Checks A (Runs c (Production.arrayOf t)) [] F (fun _ => True) (fun _ : Unit => True)
      fun a _ => w.HasType (.array τ) a := by
  refine .of_acts acts_arrayOf fun s a s' hrun => ⟨trivial, fun hA hw => ?_⟩
  obtain ⟨rfl, rfl⟩ := runs_arrayOf.1 hrun
  have hs : s.table.Widens w.table := (SymbolTable.Widens.arrayOf _ t).trans hw.widens
  refine ⟨fun _ => ⟨(), trivial⟩, fun _ _ => ⟨rfl, t, ?_, ?_, (hn hA).type⟩⟩
  · refine hw.widens.descriptor? ?_
    simp [SymbolTable.arrayOf, Types.arrayOf, Types.descriptor?, Types.fresh]
  · -- the type of a name is older
    obtain ⟨id, e, hid, he, rfl⟩ := (hn hA).table
    have hlookup := hw.session.table.lookup n
    rw [← hs.lookup? n, hid] at hlookup
    obtain ⟨x, hx, -, e', he', -, hmeans⟩ := hlookup
    obtain rfl := Option.some.inj ((hn hA).context.symm.trans hx)
    obtain rfl : e = e' := by simpa [he] using (hs.below (ρ := w.classes)).entries _ _ he'
    exact hmeans.2.index_lt hw.session.table.types

end MicroJava.World
