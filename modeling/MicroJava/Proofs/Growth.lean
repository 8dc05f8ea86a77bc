import MicroJava.Proofs.Trace

/-!
# How the code of a block grows

Moves in a block append a listing to the code (`Steps.grows`). Each label that they define stands in
front of an item of that listing or at its end, and for as long as there is no mistake, each item finds
the stack as the one before leaves it, and each label finds it empty.
-/

namespace MicroJava

/-- The code of `s` is the listing `is`, and that of `s'` has the items `js` behind it. -/
structure Grows (F : Frame) (is : List Item) (s : Session) (x : Option Nat) (js : List Item)
    (s' : Session) (y : Option Nat) : Prop where
  lays : Lays s'.assembly (is ++ js)
  within : ∀ i ∈ js, i.Within F
  kept : ∀ l A, s.assembly.address? l = some A → s'.assembly.address? l = some A
  defined : ∀ l A, s'.assembly.address? l = some A → s.assembly.address? l = some A ∨
    F.firstLabel ≤ l.index ∧ ∃ pre post, js = pre ++ post ∧ A = codeSize (is ++ pre) ∧
      ∀ n, x = some n → y ≠ none → Flows F.callees F.returns n pre 0
  flows : ∀ n n', x = some n → y = some n' → Flows F.callees F.returns n js n'
  entry : s'.assembly.entry = s.assembly.entry

variable {F : Frame} {is js : List Item} {s s₁ s' : Session} {x x₁ y : Option Nat}

namespace Grows

theorem refl (h : Lays s.assembly is) : Grows F is s x [] s x where
  lays := by simpa using h
  within := by simp
  kept := fun _ _ hA => hA
  defined := fun _ _ hA => .inl hA
  flows := by
    rintro n n' rfl hn
    obtain rfl := Option.some.inj hn
    exact .nil
  entry := rfl

/-- A move that keeps the code and the addresses of all labels. -/
theorem keep (h : Grows F is s x js s₁ x₁) (hlays : Lays s'.assembly (is ++ js))
    (haddress : s'.assembly.address? = s₁.assembly.address?)
    (hentry : s'.assembly.entry = s₁.assembly.entry) (hy : y ≠ none → y = x₁) :
    Grows F is s x js s' y where
  lays := hlays
  within := h.within
  kept := fun l A hA => by
    rw [haddress]
    exact h.kept l A hA
  defined := fun l A hA => by
    rw [haddress] at hA
    refine (h.defined l A hA).imp id fun ⟨hl, pre, post, hjs, hA', hflows⟩ => ?_
    exact ⟨hl, pre, post, hjs, hA', fun n hn hne => hflows n hn (hy hne ▸ hne)⟩
  flows := by
    rintro n n' hn rfl
    exact h.flows n n' hn (hy (by simp)).symm
  entry := hentry.trans h.entry

/-- The labels of other methods stay as they are. -/
theorem address?_eq (h : Grows F is s x js s' y) {l : Label} (hl : l.index < F.firstLabel) :
    s'.assembly.address? l = s.assembly.address? l := by
  rcases hA : s.assembly.address? l with _ | A
  · rcases hA' : s'.assembly.address? l with _ | A'
    · rfl
    · rcases h.defined l A' hA' with hA'' | ⟨hge, -⟩
      · rw [hA] at hA''
        simp at hA''
      · omega
  · exact h.kept l A hA

theorem define (h : Grows F is s x js s₁ x₁) {l : Label} {assembly : Assembly}
    (hl : F.firstLabel ≤ l.index) (hx : ∀ n, x₁ = some n → n = 0)
    (hs : (Emission.define l).Succeeds s₁.assembly () assembly) :
    Grows F is s x js { s₁ with assembly } x₁ := by
  obtain ⟨hlays, hnone, haddress, -, hentry, -⟩ := h.lays.define hs
  refine ⟨hlays, h.within, ?_, ?_, h.flows, hentry.trans h.entry⟩
  · intro m A hA
    have hne : m ≠ l := by
      rintro rfl
      rw [h.kept m A hA] at hnone
      simp at hnone
    simp only [haddress, if_neg hne]
    exact h.kept m A hA
  · intro m A hA
    simp only [haddress] at hA
    split at hA
    · next hm =>
      obtain rfl := Option.some.inj hA
      refine .inr ⟨hm ▸ hl, js, [], by simp, h.lays.here, fun n hn hne => ?_⟩
      obtain ⟨k, hk⟩ := Option.ne_none_iff_exists'.1 hne
      obtain rfl := hx k hk
      exact h.flows n 0 hn hk
    · exact h.defined m A hA

theorem write (h : Grows F is s x js s₁ x₁) {i : Item} {assembly : Assembly} (hi : i.Within F)
    (hrel : Option.Rel (i.Effect F.callees F.returns) x₁ y)
    (hs : i.Appends s₁.assembly assembly) :
    Grows F is s x (js ++ [i]) { s₁ with assembly } y := by
  obtain ⟨hlays, haddress, -⟩ := h.lays.append hi.wellFormed hs
  have hne : y ≠ none → x₁ ≠ none := by
    cases hrel <;> simp
  refine ⟨by rwa [← List.append_assoc], ?_, ?_, ?_, ?_, hs.kept.2.trans h.entry⟩
  · intro j hj
    rcases List.mem_append.1 hj with hj | hj
    · exact h.within j hj
    · rw [List.mem_singleton.1 hj]
      exact hi
  · intro l A hA
    rw [haddress]
    exact h.kept l A hA
  · intro l A hA
    rw [haddress] at hA
    refine (h.defined l A hA).imp id fun ⟨hl, pre, post, hjs, hA', hflows⟩ => ?_
    exact ⟨hl, pre, post ++ [i], by rw [hjs, List.append_assoc], hA',
      fun n hn hy => hflows n hn (hne hy)⟩
  · rintro n n' hn rfl
    cases hrel with
    | some heffect => exact (h.flows n _ hn rfl).snoc heffect

end Grows

/-- Moves append a listing to the code. -/
theorem Steps.grows (h : Steps F s x s' y) (hlays : Lays s.assembly is) :
    ∃ js, Grows F is s x js s' y := by
  induction h with
  | refl => exact ⟨[], .refl hlays⟩
  | snoc _ hm ih =>
    obtain ⟨js, hg⟩ := ih
    cases hm with
    | advance => exact ⟨js, hg.keep hg.lays rfl rfl fun _ => rfl⟩
    | report p details => exact ⟨js, hg.keep hg.lays rfl rfl fun hy => absurd rfl hy⟩
    | resume => exact ⟨js, hg.keep hg.lays rfl rfl fun _ => rfl⟩
    | arrayOf t => exact ⟨js, hg.keep hg.lays rfl rfl fun _ => rfl⟩
    | newLabel _ =>
      exact ⟨js, hg.keep hg.lays.newLabel (Assembly.address?_newLabel _) rfl fun _ => rfl⟩
    | define _ hl hx hs => exact ⟨js, hg.define hl hx hs⟩
    | write hi hrel hs => exact ⟨js ++ [_], hg.write hi hrel hs⟩

end MicroJava
