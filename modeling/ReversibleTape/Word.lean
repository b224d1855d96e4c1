/-!
# Signed words

Amounts, pointers on their way and input values are signed words of 64 bits. Arithmetic on
them is exact: a result that does not fit is reported (`Word.fit?`) and never wraps, except
that the negation of the least word, which has no counterpart, is the greatest one
(`Word.negate`).
-/

namespace ReversibleTape

namespace Word

/-- The least signed word. -/
def least : Int := -9223372036854775808

/-- The greatest signed word. -/
def greatest : Int := 9223372036854775807

/-- A number is a signed word. -/
def Fits (x : Int) : Prop := least ≤ x ∧ x ≤ greatest

instance (x : Int) : Decidable (Fits x) := inferInstanceAs (Decidable (_ ∧ _))

/-- A number, if it is a signed word. -/
def fit? (x : Int) : Option Int := if Fits x then some x else none

/-- Negation, which stops at the greatest word. -/
def negate (x : Int) : Int := min (-x) greatest

/-- Negation is exact on every word but the least. -/
theorem negate_of_least_lt {x : Int} (h : least < x) : negate x = -x := by
  simp only [negate, least, greatest] at *
  omega

@[simp] theorem negate_least : negate least = greatest := rfl

end Word

end ReversibleTape
