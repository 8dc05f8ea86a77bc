import MicroJava.Token

/-!
# Sets of token kinds

The sets that the productions test the next token against. A set lists its members once each, in
the order of the kinds, so two sets with the same members are equal (`ext`).
-/

namespace MicroJava.Token

/-- A set of kinds. -/
structure KindSet where
  members : List Kind
  ordered : members = Kind.all.filter members.contains
  deriving DecidableEq

namespace KindSet

/-- The set of the listed kinds. -/
def ofList (kinds : List Kind) : KindSet where
  members := Kind.all.filter kinds.contains
  ordered := by
    apply List.filter_congr
    intro k _
    simp [Kind.mem_all]

def contains (s : KindSet) (k : Kind) : Bool := s.members.contains k

instance : EmptyCollection KindSet := ⟨ofList []⟩

instance : Inhabited KindSet := ⟨∅⟩

@[simp] theorem contains_ofList (kinds : List Kind) (k : Kind) :
    (ofList kinds).contains k = kinds.contains k := by
  simp [contains, ofList, Kind.mem_all]

@[ext] theorem ext {s t : KindSet} (h : ∀ k, s.contains k = t.contains k) : s = t := by
  have hst : s.members = t.members := by
    rw [s.ordered, t.ordered]
    exact List.filter_congr fun k _ => h k
  cases s
  cases t
  simp only at hst
  subst hst
  rfl

end KindSet

end MicroJava.Token
