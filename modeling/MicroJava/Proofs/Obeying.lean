import MicroJava.Proofs.CheckingBlock

/-!
# Rules for what a production leads to

Outside of blocks, what is declared changes while it is read. A production obeys a rule (`Obeys`) if it
takes the terminals of its tree, whatever they mean, and reports no mistake exactly if the rule leads
somewhere. What is known of the program (`Knowledge`) is then known of where the rule leads.

Parts of a production are put together as in `World.Checks`: the rule for the second part may speak of
where the first one has led (`Obeys.bind`).
-/

namespace MicroJava

/-- What a session knows of the program: what is declared, what the method that is being compiled gives,
and where the program starts. -/
structure Knowledge where
  table : SymbolTable
  returnType : TypeId
  entry : Option Nat

def Session.knowledge (s : Session) : Knowledge := ⟨s.table, s.returnType, s.assembly.entry⟩

theorem Takes.of_still {c : Setting} {s s' : Session} (h : Still c s s') (hn : s.Named) :
    Takes s.ahead s s' :=
  ⟨h.named hn, h.ahead, h.slips, h.mistakes⟩

variable {α β V U : Type} {R R' : Knowledge → Prop} {rest : List Terminal} {s s₁ s' : Session}

/-- What lies between two sessions. Where `R` is known of the first, there is no new mistake exactly if
there is some `v` that the rule allows, and `T v` is then known of the second. -/
structure Obeyed (R : Knowledge → Prop) (rest : List Terminal) (J : V → Prop)
    (T : V → Knowledge → Prop) (s s' : Session) : Prop where
  takes : Takes rest s s'
  sound : R s.knowledge → s'.mistakes = s.mistakes → ∃ v, J v
  complete : R s.knowledge → ∀ v, J v → s'.mistakes = s.mistakes ∧ T v s'.knowledge

theorem Obeyed.bind [Nonempty V] {ts : List Terminal} {I : V → Prop} {S : V → Knowledge → Prop}
    {J : V → U → Prop} {T : U → Knowledge → Prop} (h₁ : Obeyed R ts I S s s₁)
    (h₂ : ∀ v, Obeyed (fun k => I v ∧ S v k) rest (J v) T s₁ s') :
    Obeyed R rest (fun u => ∃ v, I v ∧ J v u) T s s' := by
  obtain ⟨v₀⟩ := ‹Nonempty V›
  have htakes := (h₂ v₀).takes
  have hle₁ := h₁.takes.mistakes
  have hle₂ := htakes.mistakes
  refine ⟨h₁.takes.trans htakes, fun hR hm => ?_, ?_⟩
  · obtain ⟨v, hv⟩ := h₁.sound hR (by omega)
    obtain ⟨-, hs⟩ := h₁.complete hR v hv
    obtain ⟨u, hu⟩ := (h₂ v).sound ⟨hv, hs⟩ (by omega)
    exact ⟨u, v, hv, hu⟩
  · rintro hR u ⟨v, hv, hu⟩
    obtain ⟨hm₁, hs⟩ := h₁.complete hR v hv
    obtain ⟨hm₂, ht⟩ := (h₂ v).complete ⟨hv, hs⟩ u hu
    exact ⟨hm₂.trans hm₁, ht⟩

/-- Every run that starts in front of the terminals `xs`, where what follows is of a kind that `F`
allows, takes them and obeys the rule `J`. Whatever they mean, the result is one that `P` allows. -/
def Obeys (R : Knowledge → Prop) (run : Session → α → Session → Prop) (xs : List Terminal)
    (F : Token.Kind → Prop) (P : α → Prop) (J : V → Prop) (T : α → V → Knowledge → Prop) : Prop :=
  ∀ ⦃s a s' rest⦄, run s a s' → s.Named → s.ahead = xs ++ rest → F (nextKind rest) →
    P a ∧ Obeyed R rest J (T a) s s'

namespace Obeys

open Production

variable {c : Setting} {run : Session → α → Session → Prop} {xs ys : List Terminal}
  {F H : Token.Kind → Prop} {P : α → Prop} {Q : β → Prop} {I J : V → Prop} {K : U → Prop}
  {S T : α → V → Knowledge → Prop} {E : β → U → Knowledge → Prop} {m : Production α}
  {f : α → Production β} {a : α}

/-- Where the rules allow the same. -/
theorem conseq {J' : U → Prop} {T' : α → U → Knowledge → Prop} (h : Obeys R run xs F P J T)
    (hR : ∀ k, R' k → R k) (hsound : ∀ k, R' k → ∀ v, J v → ∃ u, J' u)
    (hcomplete : ∀ k, R' k → ∀ u, J' u → ∃ v, J v ∧ ∀ a k', T a v k' → T' a u k') :
    Obeys R' run xs F P J' T' := by
  intro s a s' rest hrun hn hahead hf
  obtain ⟨hp, hobeyed⟩ := h hrun hn hahead hf
  refine ⟨hp, hobeyed.takes, fun hr hm => ?_, fun hr u hu => ?_⟩
  · obtain ⟨v, hv⟩ := hobeyed.sound (hR _ hr) hm
    exact hsound _ hr v hv
  · obtain ⟨v, hv, ht⟩ := hcomplete _ hr u hu
    obtain ⟨hm, ha⟩ := hobeyed.complete (hR _ hr) v hv
    exact ⟨hm, ht a _ ha⟩

theorem iff {J' : V → Prop} (h : Obeys R run xs F P J T) (hJ : ∀ k, R k → ∀ v, J v ↔ J' v) :
    Obeys R run xs F P J' T :=
  h.conseq (fun _ => id) (fun k hk v hv => ⟨v, (hJ k hk v).1 hv⟩)
    fun k hk v hv => ⟨v, (hJ k hk v).2 hv, fun _ _ => id⟩

theorem weaken (h : Obeys R run xs F P J T) (hR : ∀ k, R' k → R k) : Obeys R' run xs F P J T :=
  h.conseq hR (fun _ _ v hv => ⟨v, hv⟩) fun _ _ v hv => ⟨v, hv, fun _ _ => id⟩

theorem strengthen {D : α → V → Knowledge → Prop} (h : Obeys R run xs F P J T)
    (hT : ∀ a v k, J v → T a v k → D a v k) : Obeys R run xs F P J D :=
  h.conseq (fun _ => id) (fun _ _ v hv => ⟨v, hv⟩) fun _ _ v hv => ⟨v, hv, fun a k => hT a v k hv⟩

theorem follow {F' : Token.Kind → Prop} (h : Obeys R run xs F P J T) (hF : ∀ k, F' k → F k) :
    Obeys R run xs F' P J T :=
  fun _ _ _ _ hrun hn hahead hf => h hrun hn hahead (hF _ hf)

/-- What is known for each `i` is known for some. -/
theorem for_some {ι : Type} {R : ι → Knowledge → Prop} {T : ι → α → V → Knowledge → Prop} [Nonempty ι]
    (h : ∀ i, Obeys (R i) run xs F P J (T i)) :
    Obeys (fun k => ∃ i, R i k) run xs F P J fun a v k => ∃ i, T i a v k := by
  intro s a s' rest hrun hn hahead hf
  obtain ⟨i₀⟩ := ‹Nonempty ι›
  obtain ⟨hp, h₀⟩ := h i₀ hrun hn hahead hf
  refine ⟨hp, h₀.takes, ?_, ?_⟩
  · rintro ⟨i, hi⟩ hm
    exact (h i hrun hn hahead hf).2.sound hi hm
  · rintro ⟨i, hi⟩ v hv
    obtain ⟨hm, ht⟩ := (h i hrun hn hahead hf).2.complete hi v hv
    exact ⟨hm, i, ht⟩

/-- What no run of the production changes stays known. -/
theorem along {G : Knowledge → Prop} (h : Obeys R run xs F P J T)
    (hG : ∀ s a s', run s a s' → G s.knowledge → G s'.knowledge) :
    Obeys (fun k => R k ∧ G k) run xs F P J fun a v k => T a v k ∧ G k := by
  intro s a s' rest hrun hn hahead hf
  obtain ⟨hp, hobeyed⟩ := h hrun hn hahead hf
  refine ⟨hp, hobeyed.takes, fun hk => hobeyed.sound hk.1, fun hk v hv => ?_⟩
  obtain ⟨hm, ht⟩ := hobeyed.complete hk.1 v hv
  exact ⟨hm, ht, hG _ _ _ hrun hk.2⟩

theorem bind [Nonempty V] {K : V → U → Prop} (hm : Obeys R (Runs c m) xs H P I S)
    (hf : ∀ a v, P a → Obeys (fun k => I v ∧ S a v k) (Runs c (f a)) ys F Q (K v) E)
    (hF : ∀ rest, F (nextKind rest) → H (nextKind (ys ++ rest))) :
    Obeys R (Runs c (m >>= f)) (xs ++ ys) F Q (fun u => ∃ v, I v ∧ K v u) E := by
  intro s b s' rest hrun hn hahead hrest
  obtain ⟨v₀⟩ := ‹Nonempty V›
  obtain ⟨a, s₁, h₁, h₂⟩ := runs_bind.1 hrun
  rw [List.append_assoc] at hahead
  obtain ⟨hp, hobeyed⟩ := hm h₁ hn hahead (hF rest hrest)
  have hsecond := fun v => hf a v hp h₂ hobeyed.takes.named hobeyed.takes.ahead hrest
  exact ⟨(hsecond v₀).1, hobeyed.bind fun v => (hsecond v).2⟩

/-- An action in front of reading. -/
theorem act [Nonempty V] {K : V → U → Prop} (hm : Obeys R (Runs c m) [] (fun _ => True) P I S)
    (hf : ∀ a v, P a → Obeys (fun k => I v ∧ S a v k) (Runs c (f a)) ys F Q (K v) E) :
    Obeys R (Runs c (m >>= f)) ys F Q (fun u => ∃ v, I v ∧ K v u) E :=
  bind hm hf fun _ _ => trivial

/-- The first part ensures what the rules want of it. -/
theorem ensure {φ : Prop} {S : α → Unit → Knowledge → Prop}
    (hm : Obeys R (Runs c m) xs H P (fun _ : Unit => φ) S)
    (hf : ∀ a, P a → Obeys (fun k => φ ∧ S a () k) (Runs c (f a)) ys F Q K E)
    (hF : ∀ rest, F (nextKind rest) → H (nextKind (ys ++ rest))) :
    Obeys R (Runs c (m >>= f)) (xs ++ ys) F Q (fun u => φ ∧ K u) E :=
  (hm.bind (K := fun _ => K) (fun a _ ha => hf a ha) hF).iff fun _ _ u => by simp

/-- An action that ensures what the rules want, in front of reading. -/
theorem ensureHere {φ : Prop} {S : α → Unit → Knowledge → Prop}
    (hm : Obeys R (Runs c m) [] (fun _ => True) P (fun _ : Unit => φ) S)
    (hf : ∀ a, P a → Obeys (fun k => φ ∧ S a () k) (Runs c (f a)) ys F Q K E) :
    Obeys R (Runs c (m >>= f)) ys F Q (fun u => φ ∧ K u) E :=
  ensure hm hf fun _ _ => trivial

/-- What comes behind is not checked. -/
theorem before [Nonempty V] {E : β → V → Knowledge → Prop} (hm : Obeys R (Runs c m) xs H P J T)
    (hf : ∀ a v, P a → Obeys (T a v) (Runs c (f a)) ys F Q (fun _ : Unit => True) fun b _ => E b v)
    (hF : ∀ rest, F (nextKind rest) → H (nextKind (ys ++ rest))) :
    Obeys R (Runs c (m >>= f)) (xs ++ ys) F Q J E := by
  refine (hm.bind (K := fun v u => u = v) (fun a v ha => (hf a v ha).conseq (fun _ => And.right) ?_ ?_)
    hF).iff fun _ _ u => by simp
  · exact fun _ _ _ _ => ⟨v, rfl⟩
  · rintro - - _ rfl
    exact ⟨(), trivial, fun _ _ => id⟩

theorem discarded (hm : Obeys R (Runs c m) xs F P J T) :
    Obeys R (Runs c (discard m)) xs F (fun _ => True) J fun _ v k => ∃ a, T a v k := by
  intro s u s' rest hrun hn hahead hrest
  obtain ⟨a, hrun⟩ := runs_discard.1 hrun
  obtain ⟨-, hobeyed⟩ := hm hrun hn hahead hrest
  exact ⟨trivial, hobeyed.takes, hobeyed.sound, fun hk v hv =>
    (hobeyed.complete hk v hv).imp id fun ht => ⟨a, ht⟩⟩

/-! ### Actions -/

/-- Nothing is left to read. -/
theorem ret (hP : P a) (hsound : ∀ k, R k → ∃ v, J v) (hcomplete : ∀ k, R k → ∀ v, J v → T a v k) :
    Obeys R (Runs c (Pure.pure a)) [] F P J T := by
  intro s a' s' rest hrun hn hahead _
  obtain ⟨rfl, rfl⟩ := runs_pure.1 hrun
  exact ⟨hP, ⟨hn, hahead, rfl, Nat.le_refl _⟩, fun hk _ => hsound _ hk,
    fun hk v hv => ⟨rfl, hcomplete _ hk v hv⟩⟩

/-- The rule is that of an action which only reports or changes what is known. -/
theorem of_still (hm : ∀ s a s', Runs c m s a s' → Still c s s' ∧ (R s.knowledge →
      (s'.mistakes = s.mistakes → ∃ v, J v) ∧
        ∀ v, J v → s'.mistakes = s.mistakes ∧ T a v s'.knowledge)) :
    Obeys R (Runs c m) [] F (fun _ => True) J T := by
  intro s a s' rest hrun hn hahead _
  rw [List.nil_append] at hahead
  obtain ⟨hstill, hrule⟩ := hm s a s' hrun
  exact ⟨trivial, hahead ▸ .of_still hstill hn, fun hk => (hrule hk).1, fun hk => (hrule hk).2⟩

/-- An action that never reports a mistake. -/
theorem silent {T : α → Knowledge → Prop} (hm : ∀ s a s', Runs c m s a s' → Still c s s' ∧
      s'.mistakes = s.mistakes ∧ (R s.knowledge → T a s'.knowledge)) :
    Obeys R (Runs c m) [] F (fun _ => True) (fun _ : Unit => True) fun a _ => T a :=
  of_still fun s a s' hrun => by
    obtain ⟨hstill, hm, hT⟩ := hm s a s' hrun
    exact ⟨hstill, fun hk => ⟨fun _ => ⟨(), trivial⟩, fun _ _ => ⟨hm, hT hk⟩⟩⟩

/-- A silent action in front of reading. -/
theorem step {T : α → Knowledge → Prop} (hm : ∀ s a s', Runs c m s a s' → Still c s s' ∧
      s'.mistakes = s.mistakes ∧ (R s.knowledge → T a s'.knowledge))
    (hf : ∀ a, Obeys (T a) (Runs c (f a)) ys F Q K E) :
    Obeys R (Runs c (m >>= f)) ys F Q K E :=
  ((silent hm).act fun a _ _ => (hf a).weaken fun _ => And.right).iff fun _ _ _ => by simp

/-- The table is changed in front of reading. -/
theorem withTable {t : SymbolTable → α × SymbolTable} {T : α → Knowledge → Prop}
    (ht : ∀ k, R k → T (t k.table).1 { k with table := (t k.table).2 })
    (hf : ∀ a, Obeys (T a) (Runs c (f a)) ys F Q K E) :
    Obeys R (Runs c (modifyGet (·.withTable t) >>= f)) ys F Q K E := by
  refine step (fun s a s' hrun => ?_) hf
  obtain ⟨rfl, rfl⟩ := runs_modifyGet.1 hrun
  exact ⟨.of_eq rfl rfl rfl, rfl, ht _⟩

theorem updateTable {L : Knowledge → Prop} {t : SymbolTable → SymbolTable} {g : Unit → Production β}
    (ht : ∀ k, R k → L { k with table := t k.table }) (hg : Obeys L (Runs c (g ())) ys F Q K E) :
    Obeys R (Runs c (Production.updateTable t >>= g)) ys F Q K E :=
  withTable (T := fun _ => L) ht fun _ => hg

/-- The table is looked at in front of reading. -/
theorem table {g : SymbolTable → Production β}
    (hg : ∀ t, Obeys (fun k => R k ∧ k.table = t) (Runs c (g t)) ys F Q K E) :
    Obeys R (Runs c (Production.table >>= g)) ys F Q K E := by
  refine step (fun s t s' hrun => ?_) hg
  obtain ⟨rfl, rfl⟩ := runs_table.1 hrun
  exact ⟨.refl _, rfl, fun hk => ⟨hk, rfl⟩⟩

/-- The session is looked at in front of reading. -/
theorem session {g : Session → Production β}
    (hg : ∀ s : Session, Obeys (fun k => R k ∧ k = s.knowledge) (Runs c (g s)) ys F Q K E) :
    Obeys R (Runs c (get >>= g)) ys F Q K E := by
  refine step (fun s t s' hrun => ?_) hg
  obtain ⟨rfl, rfl⟩ := runs_get.1 hrun
  exact ⟨.refl _, rfl, fun hk => ⟨hk, rfl⟩⟩

theorem setting {g : Setting → Production β} (hg : Obeys R (Runs c (g c)) ys F Q K E) :
    Obeys R (Runs c (read >>= g)) ys F Q K E := by
  intro s b s' rest hrun hn hahead hrest
  simp only [runs_bind, runs_read] at hrun
  obtain ⟨c, s, ⟨rfl, rfl⟩, hrun⟩ := hrun
  exact hg hrun hn hahead hrest

/-- What the rules do not allow is reported. -/
theorem reportIf {mistake : Prop} [Decidable mistake] {p : Problem} {details : List String}
    (hp : p.isSyntactic = false) :
    Obeys R (Runs c (reportIf mistake p details)) [] F (fun _ => True)
      (fun _ : Unit => ¬mistake) fun _ _ => R := by
  refine of_still fun s u s' hrun => ⟨(acts_reportIf hp hrun).still, fun hk => ?_⟩
  rw [runs_reportIf.1 hrun]
  by_cases hmistake : mistake <;> simp [Session.reportIf, hmistake, hk]

/-! ### Terminals -/

/-- A step that takes the terminal `t`, and gives `a` for it. -/
theorem taken {t : Terminal} (hm : ∀ s a' s', Runs c m s a' s' → s.current.terminal = t →
      a' = a ∧ s' = s.advance) :
    Obeys R (Runs c m) [t] F (· = a) (fun _ : Unit => True) fun _ _ => R := by
  intro s a' s' rest hrun hn hahead _
  obtain ⟨rfl, rfl⟩ := hm s a' s' hrun (Session.current_of_ahead hahead).1
  exact ⟨rfl, .advance hn hahead, fun _ _ => ⟨(), trivial⟩, fun hk _ _ => ⟨by simp, hk⟩⟩

/-- In front of further reading. -/
theorem take {t : Terminal} (hm : ∀ s a' s', Runs c m s a' s' → s.current.terminal = t →
      a' = a ∧ s' = s.advance) (h : Obeys R (Runs c (f a)) ys F Q K E) :
    Obeys R (Runs c (m >>= f)) (t :: ys) F Q K E := by
  refine ((taken (F := fun _ => True) hm).bind (K := fun _ => K) (fun a' _ ha => ?_)
    fun _ _ => trivial).iff fun _ _ _ => by simp
  exact ha ▸ h.weaken fun _ => And.right

theorem advance {t : Terminal} {g : Unit → Production β} (h : Obeys R (Runs c (g ())) ys F Q K E) :
    Obeys R (Runs c (Production.advance >>= g)) (t :: ys) F Q K E :=
  take World.Checks.runs_advance_terminal h

theorem expect {k : Token.Kind} {g : Unit → Production β} (h : Obeys R (Runs c (g ())) ys F Q K E) :
    Obeys R (Runs c (Production.expect k >>= g)) (.word k :: ys) F Q K E :=
  take World.Checks.runs_expect_terminal h

theorem expected {k : Token.Kind} :
    Obeys R (Runs c (Production.expect k)) [.word k] F (fun _ => True) (fun _ : Unit => True)
      fun _ _ => R :=
  fun _ _ _ _ hrun hn hahead hf =>
    ⟨trivial, (taken World.Checks.runs_expect_terminal hrun hn hahead hf).2⟩

theorem identifier {n : String} {g : String → Production β}
    (h : n ≠ "" → Obeys R (Runs c (g n)) ys F Q K E) :
    Obeys R (Runs c (Production.identifier >>= g)) (.name n :: ys) F Q K E := by
  intro s b s' rest hrun hn hahead hrest
  have hname := hn.name (Session.current_of_ahead hahead).1
  exact take World.Checks.runs_identifier_terminal (h hname) hrun hn hahead hrest

/-! ### The next token -/

theorem peek {k : Token.Kind} {g : Token.Kind → Production β}
    (hk : ∀ rest, F (nextKind rest) → nextKind (ys ++ rest) = k)
    (h : Obeys R (Runs c (g k)) ys F Q K E) :
    Obeys R (Runs c (Production.peek >>= g)) ys F Q K E := by
  intro s b s' rest hrun hn hahead hrest
  simp only [runs_bind, runs_peek] at hrun
  obtain ⟨_, s, ⟨rfl, rfl⟩, hrun⟩ := hrun
  rw [Session.kind_eq, hahead, hk rest hrest] at hrun
  exact h hrun hn hahead hrest

theorem check {k : Token.Kind} {g : Bool → Production β}
    (hk : ∀ rest, F (nextKind rest) → nextKind (ys ++ rest) = k)
    (h : Obeys R (Runs c (g true)) ys F Q K E) :
    Obeys R (Runs c (Production.check k >>= g)) ys F Q K E := by
  intro s b s' rest hrun hn hahead hrest
  simp only [runs_bind, runs_check] at hrun
  obtain ⟨_, s, ⟨rfl, rfl⟩, hrun⟩ := hrun
  rw [Session.kind_eq, hahead, decide_eq_true (hk rest hrest)] at hrun
  exact h hrun hn hahead hrest

theorem check_ne {k : Token.Kind} {g : Bool → Production β}
    (hk : ∀ rest, F (nextKind rest) → nextKind (ys ++ rest) ≠ k)
    (h : Obeys R (Runs c (g false)) ys F Q K E) :
    Obeys R (Runs c (Production.check k >>= g)) ys F Q K E := by
  intro s b s' rest hrun hn hahead hrest
  simp only [runs_bind, runs_check] at hrun
  obtain ⟨_, s, ⟨rfl, rfl⟩, hrun⟩ := hrun
  rw [Session.kind_eq, hahead, decide_eq_false (hk rest hrest)] at hrun
  exact h hrun hn hahead hrest

/-! ### Loops -/

/-- A turn of a loop that goes on, and the turns behind it. -/
theorem repeats_next [Nonempty V] {m : Production Bool} {S : Bool → V → Knowledge → Prop}
    {K : V → U → Prop} {E : U → Knowledge → Prop} (hm : Obeys R (Runs c m) xs H (· = true) I S)
    (hys : ∀ v, Obeys (fun k => I v ∧ S true v k)
      (fun s (_ : Unit) s' => Repeats c m s s') ys F (fun _ => True) (K v) fun _ => E)
    (hF : ∀ rest, F (nextKind rest) → H (nextKind (ys ++ rest))) :
    Obeys R (fun s (_ : Unit) s' => Repeats c m s s') (xs ++ ys) F (fun _ => True)
      (fun u => ∃ v, I v ∧ K v u) fun _ => E := by
  intro s b s' rest hrun hn hahead hrest
  rw [List.append_assoc] at hahead
  cases hrun with
  | last h => exact absurd (hm h hn hahead (hF rest hrest)).1 (by simp)
  | next h hrun =>
    have hfirst := (hm h hn hahead (hF rest hrest)).2
    have hsecond := fun v => (hys v (a := b) hrun hfirst.takes.named hfirst.takes.ahead hrest).2
    exact ⟨trivial, hfirst.bind hsecond⟩

/-- The last turn. -/
theorem repeats_last {m : Production Bool} {S : Bool → V → Knowledge → Prop}
    (hm : Obeys R (Runs c m) xs F (· = false) J S) :
    Obeys R (fun s (_ : Unit) s' => Repeats c m s s') xs F (fun _ => True) J fun _ => S false := by
  intro s b s' rest hrun hn hahead hrest
  cases hrun with
  | last h => exact ⟨trivial, (hm h hn hahead hrest).2⟩
  | next h _ => exact absurd (hm h hn hahead hrest).1 (by simp)

theorem repeats {m : Production Bool} {T : Unit → V → Knowledge → Prop}
    (h : Obeys R (fun s (_ : Unit) s' => Repeats c m s s') xs F (fun _ => True) J T) :
    Obeys R (Runs c (repeatWhile m)) xs F (fun _ => True) J T :=
  fun _ _ _ _ hrun => h (repeats_of_runs hrun)

end Obeys

end MicroJava
