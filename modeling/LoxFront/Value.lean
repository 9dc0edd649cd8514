import LoxFront.Number.Shortest
/-!
# Values

The values a literal can have, how they are shown, and how they compare.
A number is shown in its shortest decimal form, a text as it is, without
quotes. Comparison (`==`) takes numbers as the floating-point standard
does: a NaN differs from itself, and the two zeros are equal. `=` is
finer: it tells numbers apart bit for bit.
-/

namespace LoxFront

/-- A value of the language. `nil` is a value like the others, and not
the absence of one. -/
inductive Value where
  | nil
  | bool (b : Bool)
  | text (s : String)
  | number (x : Double)
  deriving DecidableEq

namespace Value

/-- How a value is shown. -/
def display : Value → String
  | nil => "nil"
  | bool true => "true"
  | bool false => "false"
  | text s => s
  | number x => x.text

/-- Values of one kind compare by their content, values of two kinds
differ. -/
def equal : Value → Value → Bool
  | nil, nil => true
  | bool a, bool b => a == b
  | text s, text t => s == t
  | number x, number y => x == y
  | _, _ => false

instance : BEq Value := ⟨equal⟩

/-- Literals that may be absent: two absent ones are equal, and an absent
one differs from every value. -/
def equalOption : Option Value → Option Value → Bool
  | none, none => true
  | some v, some w => v == w
  | _, _ => false

end Value

end LoxFront
