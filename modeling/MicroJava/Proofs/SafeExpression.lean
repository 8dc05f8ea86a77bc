import MicroJava.Production.Condition
import MicroJava.Proofs.Safe

/-!
# Expressions and conditions never go wrong

A production of expressions is safe for the sessions with fewer than `n` tokens left (`Gives`), which
is what the depth of nesting has to cover: each level takes a token before the next one starts. A
condition leaves two labels behind that are not defined yet, the ones of its last test
(`Safe.condition`).
-/

namespace MicroJava.Production

/-- With fewer than `n` tokens left, the production is safe and gives an operand that is known. -/
def Gives (c : Setting) (n : Nat) (m : Production Operand) : Prop :=
  ∀ ⦃L : Set Label⦄ ⦃s : Session⦄, s.Healthy c L → s.left < n →
    Safe c s m (fun _ => L) fun x s' => x.IsKnown s'.table

/-- What the arguments of a call are checked against is known. -/
structure Signature.IsKnown (sig : Signature) (t : SymbolTable) : Prop where
  parameters : ∀ ty ∈ sig.parameters, ty.IsKnown t
  extra : ∀ ty, sig.extra = some ty → ty.IsKnown t

theorem Signature.IsKnown.grows {sig : Signature} {t t' : SymbolTable} (h : sig.IsKnown t)
    (hg : t.Grows t') : sig.IsKnown t' :=
  ⟨fun ty hty => hg.type (h.parameters ty hty), fun ty hty => hg.type (h.extra ty hty)⟩

namespace Safe

variable {c : Setting} {L : Set Label} {s : Session} {n : Nat} {expression : Production Operand}

section Nested

variable (hs : s.Healthy c L)

include hs

/-! ### Designators -/

theorem namedOperand : Safe c s namedOperand (fun _ => L) fun x s' =>
    x.IsKnown s'.table ∧ (s.current.kind = .identifier → s'.left < s.left) := by
  refine (identifier hs).bind fun name s₁ hs₁ _ htake => ?_
  refine (find hs₁).bind fun id s₂ hs₂ _ ⟨hid, hleft, _⟩ => ?_
  refine (entry hs₂ hid).bind fun e s₃ hs₃ _ ⟨heq, _, he⟩ => ?_
  subst heq
  split
  · next x hx =>
    refine .pure hs₃ ⟨?_, fun hk => hleft ▸ htake hk⟩
    unfold Operand.ofEntry at hx
    split at hx
    · obtain rfl := Except.ok.inj hx
      exact .onStack hs₃.table.known_none
    · split at hx
      · obtain rfl := Except.ok.inj hx
        exact .constant he.type
      · obtain rfl := Except.ok.inj hx
        refine .of_type he.type fun id => ?_
        simp only
        split <;> simp
      · obtain rfl := Except.ok.inj hx
        exact ⟨he.type, fun id' h => Place.method.inj h ▸ hid⟩
      all_goals simp at hx
  · refine (report hs₃).bind fun _ s₄ hs₄ _ h => .pure hs₄ ⟨.onStack hs₄.table.known_none, fun hk => ?_⟩
    rw [h.1, hleft]
    exact htake hk

theorem fieldOf {x : Operand} (hx : x.IsKnown s.table) :
    Safe c s (fieldOf x) (fun _ => L) fun y s' => y.IsKnown s'.table := by
  refine (descriptor hs hx.type).bind fun d s₁ hs₁ _ ⟨heq, _⟩ => ?_
  subst heq
  refine .ite (fun _ => ?_) fun _ => ?_
  · refine (load hs₁).bind fun _ s₂ hs₂ _ _ => (identifier hs₂).bind fun name s₃ hs₃ _ _ => ?_
    refine (findField hs₃).bind fun id s₄ hs₄ _ hid => ?_
    refine .ite (fun _ => .pure hs₄ (.onStack hs₄.table.known_none)) fun _ => ?_
    refine (entry hs₄ hid).bind fun e s₅ hs₅ _ ⟨heq, _, he⟩ => ?_
    subst heq
    exact .pure hs₅ (.of_type he.type fun _ => by simp)
  · refine (report hs₁).bind fun _ s₂ hs₂ _ _ => (discard (identifier hs₂)).bind fun _ s₃ hs₃ _ _ => ?_
    exact .pure hs₃ (.onStack hs₃.table.known_none)

theorem loadArray {d : Descriptor} {x : Operand} :
    Safe c s (loadArray d x) (fun _ => L) fun _ _ => True :=
  .ite (fun _ => load hs) fun _ => (report hs).mono fun _ _ _ _ => trivial

theorem loadInteger (he : Gives c n expression) (hn : s.left < n) {mistake : Problem} :
    Safe c s (loadInteger expression mistake) (fun _ => L) fun _ _ => True :=
  (he hs hn).bind fun _ _ hs₁ _ _ => (reportIf hs₁).bind fun _ _ hs₂ _ _ => load hs₂

theorem elementOf (he : Gives c n expression) (hn : s.left < n) {x : Operand}
    (hx : x.IsKnown s.table) :
    Safe c s (elementOf expression x) (fun _ => L) fun y s' => y.IsKnown s'.table := by
  refine (descriptor hs hx.type).bind fun d s₁ hs₁ _ ⟨heq, hd⟩ => ?_
  subst heq
  refine (loadArray hs₁).bind fun _ s₂ hs₂ hp₂ _ => ?_
  refine (loadInteger hs₂ he (Nat.lt_of_le_of_lt hp₂.left hn)).bind fun _ s₃ hs₃ hp₃ _ => ?_
  refine (expect hs₃).bind fun _ s₄ hs₄ hp₄ _ => .pure hs₄ ?_
  split
  · have hel := hs₁.table.known_element hd
    exact .of_type (((hp₂.trans hp₃).trans hp₄).table.type hel) fun _ => by simp
  · exact .onStack hs₄.table.known_none

/-- The name of a designator may be the first token that counts. -/
theorem designator (he : Gives c n expression) (hn : s.left ≤ n)
    (hname : s.current.kind = .identifier ∨ s.left < n) :
    Safe c s (designator expression) (fun _ => L) fun x s' =>
      x.IsKnown s'.table ∧ s'.left < n ∧ (s.current.kind = .identifier → s'.left < s.left) := by
  refine (namedOperand hs).bind fun x s₁ hs₁ hp₁ ⟨hx, htake⟩ => ?_
  have hn₁ : s₁.left < n := by
    rcases hname with hk | hlt
    · exact Nat.lt_of_lt_of_le (htake hk) hn
    · exact Nat.lt_of_le_of_lt hp₁.left hlt
  refine mono (Q := fun x s' => x.IsKnown s'.table) ?_ fun y s' hp hy =>
    ⟨hy, Nat.lt_of_le_of_lt hp.left hn₁, fun hk => Nat.lt_of_le_of_lt hp.left (htake hk)⟩
  refine .loop (I := fun x s' => x.IsKnown s'.table) (K := fun _ => L)
    (fun x s₂ hs₂ hp₂ hx => ?_) hs₁ hx
  have hn₂ : s₂.left < n := Nat.lt_of_le_of_lt hp₂.left hn₁
  refine .peek ?_
  split
  · next hk =>
    refine (advance hs₂).bind fun _ s₃ hs₃ hp₃ ⟨_, hleft⟩ => ?_
    refine (fieldOf hs₃ (hx.grows hp₃.table)).bind fun y s₄ hs₄ hp₄ hy => .pure hs₄ ⟨?_, hy⟩
    exact Nat.lt_of_le_of_lt hp₄.left (hleft (by rw [hk]; decide))
  · next hk =>
    refine (advance hs₂).bind fun _ s₃ hs₃ hp₃ ⟨_, hleft⟩ => ?_
    refine (elementOf hs₃ he (Nat.lt_of_le_of_lt hp₃.left hn₂) (hx.grows hp₃.table)).bind
      fun y s₄ hs₄ hp₄ hy => .pure hs₄ ⟨?_, hy⟩
    exact Nat.lt_of_le_of_lt hp₄.left (hleft (by rw [hk]; decide))
  · exact .pure hs₂ hx

/-! ### Calls -/

theorem parameterTypes {ids : List EntryId} (hids : ∀ id ∈ ids, id.IsKnown s.table) :
    Safe c s (ids.mapM fun id => return (← Production.entry id).type) (fun _ => L) fun tys s' =>
      s' = s ∧ ∀ ty ∈ tys, ty.IsKnown s.table := by
  induction ids with
  | nil => exact .pure hs ⟨rfl, by simp⟩
  | cons id ids ih =>
    rw [List.mapM_cons]
    refine bind (K := fun _ => L) (Q := fun ty s' => s' = s ∧ ty.IsKnown s.table) ?_
      fun ty s₁ hs₁ _ ⟨heq, hty⟩ => ?_
    · refine (entry hs (hids id (by simp))).bind fun e s₁ hs₁ _ ⟨heq, _, he⟩ => ?_
      exact .pure hs₁ ⟨heq, he.type⟩
    · subst heq
      refine (ih fun id' hid' => hids id' (by simp [hid'])).bind
        fun tys s₂ hs₂ _ ⟨heq, htys⟩ => .pure hs₂ ⟨heq, ?_⟩
      intro ty' hty'
      rcases List.mem_cons.1 hty' with rfl | hty'
      · exact hty
      · exact htys ty' hty'

theorem extraType {variadic : Bool} {last : Option TypeId}
    (hlast : ∀ ty, last = some ty → ty.IsKnown s.table) :
    Safe c s (extraType variadic last) (fun _ => L) fun extra s' =>
      s' = s ∧ ∀ ty, extra = some ty → ty.IsKnown s.table := by
  rcases variadic with _ | _
  · exact .pure hs ⟨rfl, by simp⟩
  rcases last with _ | ty
  · exact .pure hs ⟨rfl, by simp⟩
  refine .map (.map ((descriptor hs (hlast ty rfl)).mono fun d s' _ ⟨heq, hd⟩ => ⟨heq, ?_⟩))
  intro ty' hty'
  obtain rfl := Option.some.inj hty'
  exact hs.table.known_element hd

theorem signature {m : Method} (hm : ∀ id ∈ m.locals, id.IsKnown s.table) :
    Safe c s (signature m) (fun _ => L) fun sig s' => s' = s ∧ sig.IsKnown s.table := by
  refine (parameterTypes hs fun id hid => hm id (List.mem_of_mem_take hid)).bind
    fun tys s₁ hs₁ _ ⟨heq, htys⟩ => ?_
  subst heq
  refine (extraType hs₁ fun ty hty => htys ty (List.mem_of_getLast? hty)).bind
    fun extra s₂ hs₂ _ ⟨heq, hextra⟩ => ?_
  exact .pure hs₂ ⟨heq, htys, hextra⟩

theorem afterMember {count : Nat} : Safe c s (afterMember count) (fun _ => L) fun r s' =>
    r.isLeft = true → s'.left < s.left := by
  refine .check (fun hk => ?_) fun _ => .pure hs (by simp)
  refine (advance hs).bind fun _ s₁ hs₁ _ ⟨_, hleft⟩ => .pure hs₁ fun _ => hleft ?_
  rw [hk]
  decide

theorem checkArgument {x : Operand} {ty? : Option TypeId} (hx : x.IsKnown s.table)
    (hty : ∀ ty, ty? = some ty → ty.IsKnown s.table) :
    Safe c s (checkArgument x ty?) (fun _ => L) fun _ _ => True := by
  rcases ty? with _ | ty
  · exact .pure hs trivial
  · refine (fits hs hx (hty ty rfl)).bind fun _ s₁ hs₁ _ _ => ?_
    exact (reportIf hs₁).mono fun _ _ _ _ => trivial

theorem argument (he : Gives c n expression) (hn : s.left < n) {sig : Signature} {count : Nat}
    (hsig : sig.IsKnown s.table) :
    Safe c s (argument expression sig count) (fun _ => L) fun r s' =>
      r.isLeft = true → s'.left < s.left := by
  refine (he hs hn).bind fun x s₁ hs₁ hp₁ hx => ?_
  refine (checkArgument hs₁ hx fun ty hty => hp₁.table.type (hsig.parameters ty ?_)).bind
    fun _ s₂ hs₂ hp₂ _ => (load hs₂).bind fun _ s₃ hs₃ hp₃ _ => ?_
  · unfold Signature.parameter? at hty
    split at hty
    · exact List.mem_of_getElem? hty
    · simp at hty
  · refine (afterMember hs₃).mono fun r s₄ _ h hr => Nat.lt_of_lt_of_le (h hr) ?_
    exact ((hp₁.trans hp₂).trans hp₃).left

theorem packArgument (he : Gives c n expression) (hn : s.left < n) {count : Nat}
    {element : Option TypeId} (hel : ∀ ty, element = some ty → ty.IsKnown s.table) :
    Safe c s (packArgument expression count element) (fun _ => L) fun _ _ => True := by
  rcases element with _ | ty
  · exact (discard (he hs hn)).mono fun _ _ _ _ => trivial
  · refine (emit hs).bind fun _ s₁ hs₁ hp₁ _ => ?_
    refine (writePlain hs₁ (Emission.plain_constant _) (Emission.total_emit _ _)).bind
      fun _ s₂ hs₂ hp₂ _ => ?_
    refine (he hs₂ (Nat.lt_of_le_of_lt (hp₁.trans hp₂).left hn)).bind fun x s₃ hs₃ hp₃ hx => ?_
    refine (checkArgument hs₃ hx fun ty' hty' =>
      ((hp₁.trans hp₂).trans hp₃).table.type (hel ty' hty')).bind fun _ s₄ hs₄ _ _ => ?_
    refine (load hs₄).bind fun _ s₅ hs₅ _ _ => ?_
    exact writePlain hs₅ (Emission.plain_emit _ _) (Emission.total_emit _ _)

theorem extraArgument (he : Gives c n expression) (hn : s.left < n) {count : Nat}
    {element : Option TypeId} (hel : ∀ ty, element = some ty → ty.IsKnown s.table) :
    Safe c s (extraArgument expression element count) (fun _ => L) fun r s' =>
      r.isLeft = true → s'.left < s.left := by
  refine (packArgument hs he hn hel).bind fun _ s₁ hs₁ hp₁ _ => ?_
  exact (afterMember hs₁).mono fun r s₂ _ h hr => Nat.lt_of_lt_of_le (h hr) hp₁.left

/-- The members of a list, each but the last with a comma behind it. -/
theorem members {member : Nat → Production (Nat ⊕ Nat)}
    (hm : ∀ count s₁, s₁.Healthy c L → s.Precedes s₁ →
      Safe c s₁ (member count) (fun _ => L) fun r s₂ => r.isLeft = true → s₂.left < s₁.left) :
    Safe c s (members member) (fun _ => L) fun _ _ => True := by
  refine .checkAny (fun _ => ?_) fun _ => .pure hs trivial
  refine .loop (I := fun _ _ => True) (K := fun _ => L) (fun count s₁ hs₁ hp₁ _ => ?_) hs trivial
  have hL : (Sum.elim (fun _ => L) fun _ => L : Nat ⊕ Nat → Set Label) = fun _ => L := by
    funext r
    cases r <;> rfl
  rw [hL]
  refine (hm count s₁ hs₁ hp₁).mono fun r s₂ _ h => ?_
  rcases r with count' | count'
  · exact ⟨h rfl, trivial⟩
  · trivial

theorem announcement : Safe c s announcement (fun _ => L) fun _ _ => True := by
  refine .check (fun _ => ?_) fun _ => ?_
  · exact (literal hs).bind fun _ s₁ hs₁ _ _ => .pure hs₁ trivial
  · exact (expect hs).bind fun _ s₁ hs₁ _ _ => .pure hs₁ trivial

theorem newArrayOf {length : Int32} {element : Option TypeId} :
    Safe c s (newArrayOf length element) (fun _ => L) fun _ _ => True := by
  rcases element with _ | ty
  · exact .pure hs trivial
  · exact writePlain hs (Emission.plain_newArray _ _) (Emission.total_newArray _ _)

theorem checkCount {wanted : Option Nat} {count : Nat} {tooFew tooMany : Problem} :
    Safe c s (checkCount wanted count tooFew tooMany) (fun _ => L) fun _ _ => True := by
  have hreport : ∀ p, Safe c s (Production.report p) (fun _ => L) fun _ _ => True := fun p =>
    (report hs).mono fun _ _ _ _ => trivial
  rcases wanted with _ | w
  · exact .pure hs trivial
  · exact .ite (fun _ => hreport _) fun _ => .ite (fun _ => hreport _) fun _ => .pure hs trivial

theorem extraArguments (he : Gives c n expression) (hn : s.left < n) {element : Option TypeId}
    (hel : ∀ ty, element = some ty → ty.IsKnown s.table) :
    Safe c s (extraArguments expression element) (fun _ => L) fun _ _ => True := by
  refine (advance hs).bind fun _ s₁ hs₁ hp₁ _ => (announcement hs₁).bind fun _ s₂ hs₂ hp₂ _ => ?_
  refine (newArrayOf hs₂).bind fun _ s₃ hs₃ hp₃ _ => ?_
  refine (members hs₃ fun count s₄ hs₄ hp₄ => ?_).bind fun count s₅ hs₅ _ _ => checkCount hs₅
  have hp := ((hp₁.trans hp₂).trans hp₃).trans hp₄
  exact extraArgument hs₄ he (Nat.lt_of_le_of_lt hp.left hn) fun ty hty => hp.table.type (hel ty hty)

theorem variablePart (he : Gives c n expression) (hn : s.left < n) {isMethod : Bool}
    {extra : Option TypeId} (hextra : ∀ ty, extra = some ty → ty.IsKnown s.table) :
    Safe c s (variablePart expression isMethod extra) (fun _ => L) fun _ _ => True := by
  refine .check (fun _ => ?_) fun _ => newArrayOf hs
  refine (reportIf hs).bind fun _ s₁ hs₁ hp₁ _ => ?_
  exact extraArguments hs₁ he (Nat.lt_of_le_of_lt hp₁.left hn) fun ty hty =>
    hp₁.table.type (hextra ty hty)

theorem invoke {id : EntryId} {m : Method} (hm : m.address ≤ s.assembly.here) :
    Safe c s (invoke id m) (fun _ => L) fun _ _ => True := by
  unfold Production.invoke
  split
  · exact emit hs
  · exact .pure hs trivial
  · exact .pure hs trivial
  · exact callTo hs hm

/-- What is called has known locals, and an address in the code. -/
theorem callee {x : Operand} (hx : x.IsKnown s.table) :
    Safe c s (callee x) (fun _ => L) fun target s' => s' = s ∧
      ∀ id m, target = some (id, m) →
        m.address ≤ s.assembly.here ∧ ∀ id' ∈ m.locals, id'.IsKnown s.table := by
  unfold Production.callee
  split
  · next id hplace =>
    refine (entry hs (hx.method id hplace)).bind fun e s₁ hs₁ _ ⟨heq, he, hclosed⟩ => ?_
    subst heq
    refine .pure hs₁ ⟨rfl, fun id' m hm => ?_⟩
    obtain ⟨m', hm', heq⟩ := Option.map_eq_some_iff.1 hm
    obtain ⟨rfl, rfl⟩ := Prod.mk.inj heq
    exact ⟨hs₁.methods id e m' he hm', hclosed.locals m' hm'⟩
  · exact .pure hs ⟨rfl, by simp⟩

theorem call (he : Gives c n expression) (hn : s.left < n) {x : Operand} (hx : x.IsKnown s.table) :
    Safe c s (call expression x) (fun _ => L) fun y s' => y.IsKnown s'.table := by
  refine (callee hs hx).bind fun target s₁ hs₁ _ ⟨heq, htarget⟩ => ?_
  subst heq
  refine (reportIf hs₁).bind fun _ s₂ hs₂ hp₂ _ => (expect hs₂).bind fun _ s₃ hs₃ hp₃ _ => ?_
  have hp₁₃ := hp₂.trans hp₃
  refine bind (K := fun _ => L) (Q := fun sig s' => s' = s₃ ∧ sig.IsKnown s₃.table) ?_
    fun sig s₄ hs₄ _ ⟨heq, hsig⟩ => ?_
  · rcases target with _ | ⟨id, m⟩
    · exact .pure hs₃ ⟨rfl, by simp, by simp⟩
    · exact signature hs₃ fun id' hid' => hp₁₃.table.entry ((htarget id m rfl).2 id' hid')
  subst heq
  refine (members hs₄ fun count s₅ hs₅ hp₅ => ?_).bind fun count s₅ hs₅ hp₅ _ => ?_
  · exact argument hs₅ he (Nat.lt_of_le_of_lt (hp₁₃.trans hp₅).left hn) (hsig.grows hp₅.table)
  refine (checkCount hs₅).bind fun _ s₆ hs₆ hp₆ _ => ?_
  have hp₄₆ := hp₅.trans hp₆
  refine (variablePart hs₆ he (Nat.lt_of_le_of_lt (hp₁₃.trans hp₄₆).left hn) fun ty hty =>
    hp₄₆.table.type (hsig.extra ty hty)).bind fun _ s₇ hs₇ hp₇ _ => ?_
  refine (expect hs₇).bind fun _ s₈ hs₈ hp₈ _ => ?_
  have hp₁₈ := (hp₁₃.trans hp₄₆).trans (hp₇.trans hp₈)
  rcases target with _ | ⟨id, m⟩
  · exact .pure hs₈ (.onStack hs₈.table.known_none)
  · refine (invoke hs₈ (Nat.le_trans (htarget id m rfl).1 hp₁₈.here)).bind fun _ s₉ hs₉ hp₉ _ => ?_
    exact .pure hs₉ (.onStack ((hp₁₈.trans hp₉).table.type hx.type))

/-! ### Expressions -/

theorem arrayCreation (he : Gives c n expression) (hn : s.left < n) {ty : TypeId}
    (hty : ty.IsKnown s.table) :
    Safe c s (arrayCreation expression ty) (fun _ => L) fun x s' => x.IsKnown s'.table := by
  refine (advance hs).bind fun _ s₁ hs₁ hp₁ _ => ?_
  refine (loadInteger hs₁ he (Nat.lt_of_le_of_lt hp₁.left hn)).bind fun _ s₂ hs₂ hp₂ _ => ?_
  refine (expect hs₂).bind fun _ s₃ hs₃ hp₃ _ => ?_
  refine (writePlain hs₃ (Emission.plain_newArray _ _) (Emission.total_newArray _ _)).bind
    fun _ s₄ hs₄ hp₄ _ => ?_
  have hty₄ := ((hp₁.trans hp₂).trans (hp₃.trans hp₄)).table.type hty
  exact (arrayOf hs₄ hty₄).bind fun ty' s₅ hs₅ _ h => .pure hs₅ (.onStack h.1)

theorem objectCreation {ty : TypeId} (hty : ty.IsKnown s.table) :
    Safe c s (objectCreation ty) (fun _ => L) fun x s' => x.IsKnown s'.table := by
  refine (descriptor hs hty).bind fun d s₁ hs₁ _ ⟨heq, _⟩ => ?_
  subst heq
  refine .ite (fun _ => ?_) fun _ => ?_
  · refine (writePlain hs₁ (Emission.plain_emit _ _) (Emission.total_emit _ _)).bind
      fun _ s₂ hs₂ hp₂ _ => .pure hs₂ (.onStack (hp₂.table.type hty))
  · exact (reportIf hs₁).bind fun _ s₂ hs₂ hp₂ _ => .pure hs₂ (.onStack (hp₂.table.type hty))

theorem creation (he : Gives c n expression) (hn : s.left < n) :
    Safe c s (creation expression) (fun _ => L) fun x s' => x.IsKnown s'.table := by
  refine (namedType hs).bind fun ty s₁ hs₁ hp₁ ⟨hty, _⟩ => .check (fun _ => ?_) fun _ => ?_
  · exact arrayCreation hs₁ he (Nat.lt_of_le_of_lt hp₁.left hn) hty
  · exact objectCreation hs₁ hty

theorem designatorFactor (he : Gives c n expression) (hn : s.left ≤ n)
    (hk : s.current.kind = .identifier) :
    Safe c s (designatorFactor expression) (fun _ => L) fun x s' => x.IsKnown s'.table := by
  refine (designator hs he hn (.inl hk)).bind fun x s₁ hs₁ _ ⟨hx, hn₁, _⟩ => ?_
  refine .check (fun _ => ?_) fun _ => .pure hs₁ hx
  refine (reportIf hs₁).bind fun _ s₂ hs₂ hp₂ _ => ?_
  exact call hs₂ he (Nat.lt_of_le_of_lt hp₂.left hn₁) (hx.grows hp₂.table)

/-- The negation of an operand is known as the operand is. -/
theorem negate {x : Operand} (hx : x.IsKnown s.table) :
    Safe c s (negate x) (fun _ => L) fun y s' => y.IsKnown s'.table := by
  refine .ite (fun _ => ?_) fun _ => ?_
  · exact (report hs).bind fun _ s₁ hs₁ hp₁ _ => .pure hs₁ (hx.grows hp₁.table)
  · split
    · exact .pure hs (.constant hs.table.known_int)
    · refine (load hs).bind fun _ s₁ hs₁ hp₁ _ => (emit hs₁).bind fun _ s₂ hs₂ hp₂ _ => ?_
      exact .pure hs₂ (.onStack ((hp₁.trans hp₂).table.type hx.type))

end Nested

end Safe

namespace Gives

section Nested

variable {c : Setting} {n : Nat} {expression : Production Operand}

/-- A factor takes a token before an expression inside it starts. -/
theorem factor (he : Gives c n expression) : Gives c (n + 1) (factor expression) := by
  intro L s hs hn
  refine .peek ?_
  split
  · next hk => exact Safe.designatorFactor hs he (Nat.le_of_lt_succ hn) hk
  · exact (Safe.literal hs).bind fun _ s₁ hs₁ _ _ => .pure hs₁ (.constant hs₁.table.known_int)
  · exact (Safe.literal hs).bind fun _ s₁ hs₁ _ _ => .pure hs₁ (.constant hs₁.table.known_char)
  · next hk =>
    refine (Safe.advance hs).bind fun _ s₁ hs₁ _ ⟨_, hleft⟩ => Safe.creation hs₁ he ?_
    exact Nat.lt_of_lt_of_le (hleft (by rw [hk]; decide)) (Nat.le_of_lt_succ hn)
  · next hk =>
    refine (Safe.advance hs).bind fun _ s₁ hs₁ _ ⟨_, hleft⟩ => (he hs₁ ?_).bind
      fun x s₂ hs₂ _ hx => (Safe.expect hs₂).bind fun _ s₃ hs₃ hp₃ _ => .pure hs₃ (hx.grows hp₃.table)
    exact Nat.lt_of_lt_of_le (hleft (by rw [hk]; decide)) (Nat.le_of_lt_succ hn)
  · exact (Safe.report hs).bind fun _ s₁ hs₁ _ _ => .pure hs₁ (.onStack hs₁.table.known_none)

/-- Operands with operators between them. An operator is a token of its own. -/
theorem chain {operator? : Token.Kind → Option Opcode} (hend : operator? .endOfFile = none)
    {first operand : Production Operand} (hf : Gives c n first) (ho : Gives c n operand) :
    Gives c n (do loop (operation operator? operand) (← first)) := by
  intro L s hs hn
  refine (hf hs hn).bind fun x s₁ hs₁ hp₁ hx => ?_
  refine .loop (I := fun x s' => x.IsKnown s'.table) (K := fun _ => L)
    (fun x s₂ hs₂ hp₂ hx => .peek ?_) hs₁ hx
  split
  · exact .pure hs₂ hx
  · next op hop =>
    have hk : s₂.current.kind ≠ .endOfFile := fun h => by simp [h, hend] at hop
    refine (Safe.advance hs₂).bind fun _ s₃ hs₃ hp₃ hleft => ?_
    refine (Safe.load hs₃).bind fun _ s₄ hs₄ hp₄ _ => ?_
    have hp₀₄ := (hp₁.trans hp₂).trans (hp₃.trans hp₄)
    refine (ho hs₄ (Nat.lt_of_le_of_lt hp₀₄.left hn)).bind fun y s₅ hs₅ hp₅ _ => ?_
    refine (Safe.load hs₅).bind fun _ s₆ hs₆ hp₆ _ => ?_
    refine (Safe.reportIf hs₆).bind fun _ s₇ hs₇ hp₇ _ => ?_
    refine (Safe.emit hs₇).bind fun _ s₈ hs₈ hp₈ _ => .pure hs₈ ⟨?_, .onStack hs₈.table.known_int⟩
    have hp₃₈ := (hp₄.trans hp₅).trans ((hp₆.trans hp₇).trans hp₈)
    exact Nat.lt_of_le_of_lt hp₃₈.left (hleft.2 hk)

theorem term (he : Gives c n expression) : Gives c (n + 1) (term expression) :=
  chain rfl (factor he) (factor he)

theorem firstTerm (he : Gives c n expression) : Gives c (n + 1) (firstTerm expression) := by
  intro L s hs hn
  refine .check (fun _ => ?_) fun _ => term he hs hn
  refine (Safe.advance hs).bind fun _ s₁ hs₁ hp₁ _ => ?_
  refine (term he hs₁ (Nat.lt_of_le_of_lt hp₁.left hn)).bind fun x s₂ hs₂ _ hx => ?_
  exact Safe.negate hs₂ hx

end Nested

variable {c : Setting}

theorem nestedExpression : ∀ depth, Gives c depth (nestedExpression depth)
  | 0 => fun _ _ _ hn => absurd hn (Nat.not_lt_zero _)
  | depth + 1 =>
    chain rfl (firstTerm (nestedExpression depth)) (term (nestedExpression depth))

theorem expression : Gives c c.bound expression := fun _ _ hs hn =>
  .read (nestedExpression c.bound hs hn)

end Gives

/-! ### Conditions -/

namespace Safe

variable {c : Setting} {L : Set Label} {s : Session} (hs : s.Healthy c L)

include hs

theorem expression : Safe c s expression (fun _ => L) fun x s' => x.IsKnown s'.table := by
  have := hs.left
  exact Gives.expression hs (by omega)

theorem comparison : Safe c s comparison (fun _ => L) fun _ _ => True := by
  refine .peek ?_
  split
  · exact (advance hs).bind fun _ s₁ hs₁ _ _ => .pure hs₁ trivial
  · exact (report hs).bind fun _ s₁ hs₁ _ _ => .pure hs₁ trivial

theorem checkComparison {x y : Operand} {r : Option Comparison} (hx : x.IsKnown s.table)
    (hy : y.IsKnown s.table) :
    Safe c s (checkComparison x y r) (fun _ => L) fun _ _ => True := by
  refine (comparable hs hx.type hy.type).bind fun _ s₁ hs₁ _ heq => ?_
  subst heq
  refine .ite (fun _ => ?_) fun _ => (report hs₁).mono fun _ _ _ _ => trivial
  refine (descriptor hs₁ hx.type).bind fun _ s₂ hs₂ _ _ => ?_
  exact (reportIf hs₂).mono fun _ _ _ _ => trivial

theorem test {whenTrue whenFalse : Label} : Safe c s (test whenTrue whenFalse) (fun _ => L)
    fun b _ => b.whenTrue = whenTrue ∧ b.whenFalse = whenFalse := by
  refine (expression hs).bind fun x s₁ hs₁ hp₁ hx => (load hs₁).bind fun _ s₂ hs₂ hp₂ _ => ?_
  refine (comparison hs₂).bind fun r s₃ hs₃ hp₃ _ => (expression hs₃).bind fun y s₄ hs₄ hp₄ hy => ?_
  refine (load hs₄).bind fun _ s₅ hs₅ hp₅ _ => ?_
  have hx₅ := hx.grows ((hp₂.trans hp₃).trans (hp₄.trans hp₅)).table
  exact (checkComparison hs₅ hx₅ (hy.grows hp₅.table)).bind fun _ s₆ hs₆ _ _ => .pure hs₆ ⟨rfl, rfl⟩

/-- A conjunction leaves its own false label behind, which is not defined yet. -/
theorem conjunction {whenTrue : Label} :
    Safe c s (conjunction whenTrue) (fun b => insert b.whenFalse L) fun b _ =>
      b.whenTrue = whenTrue ∧ b.whenFalse ∉ L := by
  refine (newLabel hs).bind fun whenFalse s₁ hs₁ hp₁ hnew => ?_
  refine (test hs₁).bind fun b s₂ hs₂ hp₂ hb => ?_
  refine .loop (I := fun b _ => b.whenTrue = whenTrue ∧ b.whenFalse = whenFalse)
    (K := fun _ => insert whenFalse L) (fun b s₃ hs₃ _ hb => ?_) hs₂ hb
  refine .check (fun hk => ?_) fun _ => .pure (hb.2.symm ▸ hs₃) ⟨hb.1, hb.2.symm ▸ hnew⟩
  refine (advance hs₃).bind fun _ s₄ hs₄ _ ⟨_, hleft⟩ => ?_
  refine (jumpTo hs₄ (hs₄.index_lt (by simp [hb.2]))).bind fun _ s₅ hs₅ hp₅ _ => ?_
  refine (test hs₅).bind fun b' s₆ hs₆ hp₆ hb' => .pure hs₆ ⟨?_, hb'⟩
  exact Nat.lt_of_le_of_lt (hp₅.trans hp₆).left (hleft (by rw [hk]; decide))

/-- A condition leaves the labels of its last test behind, which are not defined yet. -/
theorem condition : Safe c s condition (fun b => insert b.whenFalse (insert b.whenTrue L))
    fun b _ => b.whenTrue ∉ L ∧ b.whenFalse ∉ insert b.whenTrue L := by
  refine (newLabel hs).bind fun whenTrue s₁ hs₁ hp₁ hnew => ?_
  refine (conjunction hs₁).bind fun b s₂ hs₂ hp₂ hb => ?_
  refine .loop (I := fun b _ => b.whenTrue = whenTrue ∧ b.whenFalse ∉ insert whenTrue L)
    (K := fun b => insert b.whenFalse (insert whenTrue L)) (fun b s₃ hs₃ _ hb => ?_) hs₂ hb
  refine .check (fun hk => ?_) fun _ =>
    .pure (hb.1.symm ▸ hs₃) ⟨hb.1.symm ▸ hnew, hb.1.symm ▸ hb.2⟩
  refine (advance hs₃).bind fun _ s₄ hs₄ _ ⟨_, hleft⟩ => ?_
  refine (jumpTo hs₄ (hs₄.index_lt (by simp [hb.1]))).bind fun _ s₅ hs₅ hp₅ _ => ?_
  refine (define hs₅ hb.2).bind fun _ s₆ hs₆ hp₆ _ => ?_
  refine (conjunction hs₆).bind fun b' s₇ hs₇ hp₇ hb' => .pure hs₇ ⟨?_, hb'⟩
  exact Nat.lt_of_le_of_lt (hp₅.trans (hp₆.trans hp₇)).left (hleft (by rw [hk]; decide))

end Safe

end MicroJava.Production
