/-!
# Self-describing values

`Datum` is a value that carries its own shape: nothing, a truth value, a number, a text, a
list, or a record of named fields. Settings and kinds are stored in this form, and the
readers beside their types (`Config.ofDatum?`, `Kind.ofDatum?`) say which values of this
form they accept. A number is either an integer or not; the readers accept no number that is
not an integer, so its exact value is not kept.
-/

namespace ReversibleTape

/-- A value that carries its own shape. -/
inductive Datum
  | null
  | truth (value : Bool)
  | integer (value : Int)
  /-- A number that is not written as an integer. -/
  | fraction
  | text (value : String)
  | list (items : List Datum)
  | record (fields : List (String × Datum))
  deriving Inhabited

namespace Datum

/-- The truth value that a datum is. -/
def truth? : Datum → Option Bool
  | truth b => some b
  | _ => none

/-- The natural number below `bound` that a datum is. -/
def below? (bound : Nat) : Datum → Option Nat
  | integer n => if 0 ≤ n ∧ n < bound then some n.toNat else none
  | _ => none

/-- The field of a record with a given name. -/
def fieldNamed? (fields : List (String × Datum)) (name : String) : Option Datum :=
  (fields.find? fun f => f.1 == name).map Prod.snd

/-- An accepted number is below the bound. -/
theorem lt_of_below? {bound n : Nat} {d : Datum} (h : d.below? bound = some n) : n < bound := by
  cases d with
  | integer m =>
    simp only [below?, Option.ite_none_right_eq_some, Option.some.injEq] at h
    omega
  | _ => simp [below?] at h

end Datum

end ReversibleTape
