import MicroJava.Proofs.Block
import MicroJava.Proofs.Control
import MicroJava.Proofs.Growth
import MicroJava.Proofs.ParsingStatement

/-!
# Where productions place code

A production in a block appends a listing to the code (`Writes`). `Places F base p m R` says what is
known if it reports nothing: of the addresses at which its code starts and ends and of the terminals
that it reads, in all code that goes on behind it, where the jumps have found their labels. It is
composed like the productions themselves. Code that a production without jumps has placed is a `Piece`.
-/

namespace MicroJava

/-- What is seen of a session: the address of the next instruction and the terminals ahead. -/
structure View where
  here : Nat
  ahead : List Terminal

/-- The session, whose code is the listing `is`, has moved in the block and appended `js`. -/
structure Writes (F : Frame) (s : Session) (is js : List Item) (s' : Session) : Prop where
  steps : Steps F s none s' none
  lays : Lays s'.assembly (is ++ js)
  kept : ∀ l A, s.assembly.address? l = some A → s'.assembly.address? l = some A

/-- Only reports are slips. -/
theorem Move.slips {F : Frame} {s s' : Session} {x y : Option Nat} (h : Move F s x s' y) :
    s'.slips + s.mistakes ≤ s.slips + s'.mistakes := by
  cases h with
  | report p details =>
    rw [Session.slips_report, Session.mistakes_report]
    have : p.isSyntactic.toNat ≤ 1 := Bool.toNat_le _
    omega
  | advance => simp
  | resume => simp
  | _ => exact Nat.le_refl _

theorem Steps.slips {F : Frame} {s s' : Session} {x y : Option Nat} (h : Steps F s x s' y) :
    s'.slips + s.mistakes ≤ s.slips + s'.mistakes := by
  induction h with
  | refl => exact Nat.le_refl _
  | snoc _ hm ih =>
    have := hm.slips
    omega

/-- The frame of a part that neither jumps nor returns. -/
def Frame.straight (F : Frame) : Frame := { F with branches := false }

/-- The part may jump to all labels. -/
structure Frame.Open (F : Frame) : Prop where
  branches : F.branches
  label : ∀ l : Label, F.firstLabel ≤ l.index

/-- The session is like those in which the blocks of a program are read. -/
structure Session.Consistent (s : Session) : Prop where
  named : s.Named
  sound : s.table.Sound
  predeclared : s.table.Predeclared

/-- The frame of all that is read from the session on, in the same method. -/
def Session.frame (c : Setting) (s : Session) : Frame where
  setting := c
  entries := s.table.entries
  firstLabel := 0
  returns := decide (s.returnType ≠ .none)
  branches := true

theorem Session.Consistent.covers {s : Session} (h : s.Consistent) (c : Setting) :
    (s.frame c).Covers s :=
  ⟨rfl, Nat.zero_le _, rfl, h.named, h.sound, h.predeclared⟩

theorem Session.open_frame (c : Setting) (s : Session) : (s.frame c).Open := ⟨rfl, fun _ => Nat.zero_le _⟩

section

variable {F : Frame} {s s₁ s' : Session} {is js ks : List Item} {x y : Option Nat}

theorem Frame.Covers.straight (h : F.Covers s) : F.straight.Covers s :=
  ⟨h.entries, h.labels, h.returns, h.named, h.sound, h.predeclared⟩

theorem Item.Within.of_straight {i : Item} (h : i.Within F.straight) : i.Within F :=
  ⟨h.wellFormed, h.enter, h.label, h.callee, fun _ => h.straight rfl⟩

theorem Move.of_straight (h : Move F.straight s x s' y) : Move F s x s' y := by
  cases h with
  | advance => exact .advance
  | report p details => exact .report p details
  | resume => exact .resume
  | arrayOf t => exact .arrayOf t
  | newLabel hb => simp [Frame.straight] at hb
  | define hb => simp [Frame.straight] at hb
  | write hi hrel hs => exact .write hi.of_straight hrel hs

theorem Steps.of_straight (h : Steps F.straight s x s' y) : Steps F s x s' y := by
  induction h with
  | refl => exact .refl
  | snoc _ hm ih => exact .snoc ih hm.of_straight

namespace Writes

theorem refl (h : Lays s.assembly is) : Writes F s is [] s := ⟨.refl, by simpa using h, fun _ _ => id⟩

theorem trans (h : Writes F s is js s₁) (h' : Writes F s₁ (is ++ js) ks s') :
    Writes F s is (js ++ ks) s' :=
  ⟨h.steps.trans h'.steps, by simpa using h'.lays, fun l A hA => h'.kept l A (h.kept l A hA)⟩

theorem of_straight (h : Writes F.straight s is js s') : Writes F s is js s' :=
  ⟨h.steps.of_straight, h.lays, h.kept⟩

theorem continues (h : Writes F s is js s') {C : Code} (hC : C.Continues s'.assembly (is ++ js)) :
    C.Continues s.assembly is :=
  ⟨(List.prefix_append _ _).trans hC.listing, fun l A hA => hC.kept l A (h.kept l A hA)⟩

theorem mistakes (h : Writes F s is js s') : s.mistakes ≤ s'.mistakes := h.steps.mistakes.1

end Writes

/-- What a production emits in the block is appended to the code. -/
theorem Emits.writes {α : Type} {P : Option Nat → Prop} {m : Production α}
    {Q : α → Option Nat → Prop} (h : Emits F P m Q) (hP : P none) (hc : F.Covers s) {a : α}
    (hrun : m.Runs F.setting s a s') (hlays : Lays s.assembly is) :
    ∃ js, Writes F s is js s' ∧ ∀ i ∈ js, i.Within F := by
  obtain ⟨y, hsteps, -⟩ := h hc hrun hP
  obtain rfl := hsteps.eq_none rfl
  obtain ⟨js, hg⟩ := hsteps.grows hlays
  exact ⟨js, ⟨hsteps, hg.lays, hg.kept⟩, hg.within⟩

end

/-- A run of the production in the block appends to the code, and if it reports nothing, then `R` holds
of the views before and after it, in all code that goes on behind. -/
def Places (F : Frame) (base : Session) {α : Type} (p : Token.Kind → Prop) (m : Production α)
    (R : Code → α → View → View → Prop) : Prop :=
  ∀ ⦃s a s' is⦄, F.Covers s → Steps F base none s none → Lays s.assembly is → p s.current.kind →
    m.Runs F.setting s a s' →
      ∃ js, Writes F s is js s' ∧ (s'.mistakes = s.mistakes → ∀ C : Code,
        C.Continues s'.assembly (is ++ js) →
          R C a ⟨codeSize is, s.ahead⟩ ⟨codeSize (is ++ js), s'.ahead⟩)

/-- A run of the production in the block, between two sessions without a report, has placed the listing
at the address for the terminals that it has read. No item of it jumps or returns. -/
structure Piece (F : Frame) (base : Session) (C : Code) {α : Type} (m : Production α)
    (ts : List Terminal) (p : Nat) (js : List Item) : Prop where
  has : C.Has p js
  straight : ∀ i ∈ js, i.FallsThrough
  written : ∃ s a s' is, Steps F base none s none ∧ m.Runs F.setting s a s' ∧
    s'.mistakes = s.mistakes ∧ s.ahead = ts ++ s'.ahead ∧ Lays s.assembly is ∧ codeSize is = p ∧
      Lays s'.assembly (is ++ js)

/-- What is known of a run from a session on in which a block may be read. -/
theorem Places.of_run {c : Setting} {s s' : Session} {α : Type} {m : Production α} {a : α}
    {R : Code → α → View → View → Prop} {is : List Item}
    (h : Places (s.frame c) s (fun _ => True) m R) (hs : s.Consistent) (hlays : Lays s.assembly is)
    (hrun : m.Runs c s a s') (hclean : s'.mistakes = s.mistakes) :
    ∃ js, Writes (s.frame c) s is js s' ∧ ∀ C : Code, C.Continues s'.assembly (is ++ js) →
      R C a ⟨codeSize is, s.ahead⟩ ⟨codeSize (is ++ js), s'.ahead⟩ := by
  obtain ⟨js, hw, hr⟩ := h (hs.covers c) .refl hlays trivial hrun
  exact ⟨js, hw, hr hclean⟩

theorem Piece.passes {F : Frame} {base : Session} {C : Code} {α : Type} {m : Production α}
    {ts : List Terminal} {p : Nat} {js : List Item} (h : Piece F base C m ts p js) :
    Control.Passes C.instructions p (Code.steps p js) (p + codeSize js) :=
  h.has.passes h.straight

namespace Places

open Production

variable {F : Frame} {base : Session} {α β : Type} {p q : Token.Kind → Prop} {m : Production α}
  {R R' : Code → α → View → View → Prop} {k : Token.Kind}

theorem post (h : Places F base p m R) (hR : ∀ C a v v', R C a v v' → R' C a v v') :
    Places F base p m R' := by
  intro s a s' is hc hbase hlays hp hrun
  obtain ⟨js, hw, hr⟩ := h hc hbase hlays hp hrun
  exact ⟨js, hw, fun hclean C hC => hR _ _ _ _ (hr hclean C hC)⟩

/-- What holds of the view before a production may be assumed of its terminals. -/
theorem kind (h : Places F base p m R) :
    Places F base p m fun C a v v' => R C a v v' ∧ ∀ t ∈ v.ahead.head?, p t.kind := by
  intro s a s' is hc hbase hlays hp hrun
  obtain ⟨js, hw, hr⟩ := h hc hbase hlays hp hrun
  refine ⟨js, hw, fun hclean C hC => ⟨hr hclean C hC, fun t ht => ?_⟩⟩
  obtain ⟨ts, hts⟩ := List.head?_eq_some_iff.1 ht
  rw [← (Session.current_of_ahead hts).2.1]
  exact hp

theorem pure {a : α} (h : ∀ C v, R C a v v) : Places F base p (pure a) R := by
  intro s b s' is _ _ hlays _ hrun
  obtain ⟨rfl, rfl⟩ := runs_pure.1 hrun
  exact ⟨[], .refl hlays, fun _ C _ => by simpa using h C _⟩

theorem returns {a : α} : Places F base p (Pure.pure a) fun _ b v v' => b = a ∧ v = v' :=
  pure fun _ _ => ⟨rfl, rfl⟩

theorem throw {f : Fault} : Places F base p (throw f : Production α) R :=
  fun _ _ _ _ _ _ _ _ hrun => absurd hrun runs_throw

theorem bind {f : α → Production β} {S : Code → α → β → View → View → Prop}
    (hm : Places F base p m R) (hf : ∀ a, Places F base (fun _ => True) (f a) fun C => S C a) :
    Places F base p (m >>= f) fun C b v v' => ∃ a w, R C a v w ∧ S C a b w v' := by
  intro s b s' is hc hbase hlays hp hrun
  obtain ⟨a, s₁, hrun₁, hrun₂⟩ := runs_bind.1 hrun
  obtain ⟨js, hw, hr⟩ := hm hc hbase hlays hp hrun₁
  obtain ⟨ks, hw', hr'⟩ :=
    hf a (hw.steps.covers hc) (hbase.trans hw.steps) hw.lays trivial hrun₂
  refine ⟨js ++ ks, hw.trans hw', fun hclean C hC => ?_⟩
  rw [← List.append_assoc] at hC ⊢
  have hle := hw.mistakes
  have hle' := hw'.mistakes
  exact ⟨a, _, hr (by omega) C (hw'.continues hC), hr' (by omega) C hC⟩

/-- What is done in front, without moving, may be left out of sight. -/
theorem look_bind {f : α → Production β} {S : Code → β → View → View → Prop}
    (h : ∀ s a s', m.Runs F.setting s a s' → s' = s) (hf : ∀ a, Places F base p (f a) S) :
    Places F base p (m >>= f) S := by
  intro s b s' is hc hbase hlays hp hrun
  obtain ⟨a, s₁, h₁, h₂⟩ := runs_bind.1 hrun
  obtain rfl := h s a s₁ h₁
  exact hf a hc hbase hlays hp h₂

theorem peek {f : Token.Kind → Production α} (h : ∀ k, p k → Places F base (· = k) (f k) R) :
    Places F base p (peek >>= f) R := by
  intro s a s' is hc hbase hlays hp hrun
  simp only [runs_bind, runs_peek] at hrun
  obtain ⟨_, s, ⟨rfl, rfl⟩, hrun⟩ := hrun
  exact h _ hp hc hbase hlays rfl hrun

theorem check {f : Bool → Production α} (h : Places F base (· = k) (f true) R)
    (h' : Places F base (fun k' => p k' ∧ k' ≠ k) (f false) R) :
    Places F base p (check k >>= f) R := by
  intro s a s' is hc hbase hlays hp hrun
  simp only [runs_bind, runs_check] at hrun
  obtain ⟨_, s, ⟨rfl, rfl⟩, hrun⟩ := hrun
  by_cases hk : s.current.kind = k
  · rw [decide_eq_true hk] at hrun
    exact h hc hbase hlays hk hrun
  · rw [decide_eq_false hk] at hrun
    exact h' hc hbase hlays ⟨hp, hk⟩ hrun

/-! #### Reports -/

theorem report {pr : Problem} {details : List String} {S : Code → Unit → View → View → Prop} :
    Places F base p (report pr details) S := by
  intro s u s' is hc _ hlays _ hrun
  have hemits : Emits F (Holds 0 True) (Production.report pr details) fun _ => Holds 0 True := .report
  obtain ⟨js, hw, -⟩ := hemits.writes holds_none hc hrun hlays
  refine ⟨js, hw, fun hclean => ?_⟩
  rw [runs_report.1 hrun] at hclean
  simp at hclean

/-! #### Reading and writing -/

/-- A production that writes nothing. -/
theorem reads {P : Option Nat → Prop} {Q : α → Option Nat → Prop} (h : Emits F P m Q) (hP : P none)
    (hassembly : ∀ s a s', m.Runs F.setting s a s' → s'.assembly = s.assembly)
    {S : α → List Terminal → List Terminal → Prop} (hr : Reading F.setting p m S) :
    Places F base p m fun _ a v v' => S a v.ahead v'.ahead ∧ v'.here = v.here := by
  intro s a s' is hc _ hlays hp hrun
  obtain ⟨y, hsteps, -⟩ := h hc hrun hP
  obtain rfl := hsteps.eq_none rfl
  have hsame := hassembly s a s' hrun
  refine ⟨[], ⟨hsteps, by simpa [hsame] using hlays, by simp [hsame]⟩, fun hclean C _ => ?_⟩
  have hreads := hr hp hrun
  have hle := hreads.slips
  have hslips := hsteps.slips
  exact ⟨hreads.reads hc.named (by omega), by simp⟩

theorem advance (hk : k.IsWord) : Places F base (· = k) advance fun _ _ v v' =>
    v.ahead = .word k :: v'.ahead ∧ v'.here = v.here :=
  reads (P := fun _ => True) .advance trivial (fun _ _ _ hrun => by rw [runs_advance.1 hrun]; rfl)
    (.advance hk)

theorem expect (hk : k.IsWord) : Places F base p (expect k) fun _ _ v v' =>
    v.ahead = .word k :: v'.ahead ∧ v'.here = v.here := by
  refine reads (P := Holds 0 True) .expect holds_none (fun s u s' hrun => ?_) (.expect hk)
  rcases runs_expect.1 hrun with ⟨-, rfl⟩ | ⟨-, rfl⟩ <;> rfl

/-- A production without jumps. -/
theorem piece {P : Option Nat → Prop} {Q : α → Option Nat → Prop} (h : Emits F.straight P m Q)
    (hP : P none) {S : α → List Terminal → List Terminal → Prop} (hr : Reading F.setting p m S) :
    Places F base p m fun C a v v' => S a v.ahead v'.ahead ∧ ∃ js, v'.here = v.here + codeSize js ∧
      ∀ ts, v.ahead = ts ++ v'.ahead → Piece F base C m ts v.here js := by
  intro s a s' is hc hbase hlays hp hrun
  obtain ⟨js, hw, hwithin⟩ := h.writes hP hc.straight hrun hlays
  refine ⟨js, hw.of_straight, fun hclean C hC => ⟨?_, js, by simp, fun ts hts => ?_⟩⟩
  · have hreads := hr hp hrun
    have hle := hreads.slips
    have hslips := hw.steps.slips
    exact hreads.reads hc.named (by omega)
  · exact ⟨.of_continues hC, fun i hi => (hwithin i hi).straight rfl, s, a, s', is, hbase, hrun,
      hclean, hts, hlays, rfl, hw.lays⟩

theorem newLabel (hF : F.Open) : Places F base p (write Emission.newLabel)
    fun _ _ v v' => v = v' := by
  intro s l s' is hc _ hlays _ hrun
  obtain ⟨assembly, hs, rfl⟩ := runs_write.1 hrun
  rw [Emission.Succeeds, Emission.outcome_newLabel, Prod.mk.injEq, Except.ok.injEq] at hs
  obtain ⟨rfl, rfl⟩ := hs
  refine ⟨[], ⟨(Move.newLabel hF.branches).steps, by simpa using hlays.newLabel, fun l A hA => ?_⟩,
    fun _ C _ => by simp [Session.ahead]⟩
  rwa [Assembly.address?_newLabel]

/-- A label is defined as the address of what comes next. -/
theorem define (hF : F.Open) {l : Label} :
    Places F base p (write (Emission.define l)) fun C _ v v' =>
      v = v' ∧ C.address? l = some v.here := by
  intro s u s' is hc _ hlays _ hrun
  obtain ⟨assembly, hs, rfl⟩ := runs_write.1 hrun
  obtain ⟨hlays', hnone, haddress, -, -, -⟩ := hlays.define hs
  have hmove : Move F s none { s with assembly } none := .define hF.branches (hF.label l) (by simp) hs
  refine ⟨[], ⟨hmove.steps, by simpa using hlays', fun m A hA => ?_⟩, fun _ C hC => ⟨?_, ?_⟩⟩
  · have hne : m ≠ l := by
      rintro rfl
      rw [hA] at hnone
      simp at hnone
    simpa [haddress, hne] using hA
  · simp [Session.ahead]
  · refine hC.kept l _ ?_
    simp [haddress, hlays.here]

/-- One item is written. -/
theorem item {i : Item} {e : Emission Fault Unit} (hi : i.Within F)
    (he : ∀ a a', e.Succeeds a () a' → i.Appends a a') :
    Places F base p (write e) fun C _ v v' =>
      C.Has v.here [i] ∧ v' = ⟨v.here + i.size, v.ahead⟩ := by
  intro s u s' is hc _ hlays _ hrun
  obtain ⟨assembly, hs, rfl⟩ := runs_write.1 hrun
  have happends := he _ _ hs
  obtain ⟨hlays', haddress, -⟩ := hlays.append hi.wellFormed happends
  have hmove : Move F s none { s with assembly } none := .write hi .none happends
  refine ⟨[i], ⟨hmove.steps, hlays', fun m A hA => by rwa [haddress]⟩,
    fun _ C hC => ⟨.of_continues hC, by simp [Session.ahead]⟩⟩

theorem jumpTo (hF : F.Open) {op : Opcode} {l : Label} (hop : op.isJump) :
    Places F base p (write (do Emission.emit op; Emission.reference l)) fun C _ v v' =>
      C.Has v.here [.jump op l] ∧ v' = ⟨v.here + 3, v.ahead⟩ := by
  have hwithin : (Item.jump op l).Within F := by
    refine ⟨hop, ?_, ?_, fun _ hi => by simp at hi, fun hn => by simp [hF.branches] at hn⟩
    · rintro rfl
      exact absurd hop (by decide)
    · rintro op' l' ⟨⟩
      exact hF.label l
  have hsize : (Item.jump op l).size = 3 := Opcode.size_of_isRelative (Opcode.isRelative_of_isJump hop)
  exact hsize ▸ item hwithin fun _ _ hs => hs

theorem jump (hF : F.Open) (l : Label) :
    Places F base p (write (Emission.jump l)) fun C _ v v' =>
      C.Has v.here [.jump .jump l] ∧ v' = ⟨v.here + 3, v.ahead⟩ :=
  jumpTo hF rfl

/-! #### Loops -/

/-- What one turn of a loop does, where `L` says it of the loop from a value on to its result. -/
def Turn {α β : Type} (L : Code → α → β → View → View → Prop) (C : Code) (a : α) :
    α ⊕ β → View → View → Prop
  | .inl a', v, w => ∀ b v', L C a' b w v' → L C a b v v'
  | .inr b, v, w => L C a b v w

theorem loop {body : α → Production (α ⊕ β)} {L : Code → α → β → View → View → Prop}
    (hbody : ∀ a, Places F base (fun _ => True) (body a) fun C => Turn L C a) (a : α) :
    Places F base p (loop body a) fun C => L C a := by
  intro s b s' is hc hbase hlays hp hrun
  clear hp
  replace hrun := turns_of_runs_loop hrun
  induction hrun generalizing is with
  | last h => exact hbody _ hc hbase hlays trivial h
  | next h _ ih =>
    obtain ⟨js, hw, hr⟩ := hbody _ hc hbase hlays trivial h
    obtain ⟨ks, hw', hr'⟩ := ih (hw.steps.covers hc) (hbase.trans hw.steps) hw.lays
    refine ⟨js ++ ks, hw.trans hw', fun hclean C hC => ?_⟩
    rw [← List.append_assoc] at hC ⊢
    have hle := hw.mistakes
    have hle' := hw'.mistakes
    exact hr (by omega) C (hw'.continues hC) _ _ (hr' (by omega) C hC)

theorem repeatWhile {body : Production Bool} {L : Code → View → View → Prop}
    (hbody : Places F base (fun _ => True) body fun C b v w =>
      if b then ∀ v', L C w v' → L C v v' else L C v w) :
    Places F base p (repeatWhile body) fun C _ => L C := by
  refine loop (L := fun C _ _ => L C) (fun _ => ?_) ()
  refine .post (.bind hbody fun b => .returns) ?_
  rintro C _ v v' ⟨b, w, hb, rfl, rfl⟩
  cases b with
  | true => exact fun _ => hb
  | false => exact hb

end Places

end MicroJava
