import Reshape.Json.Equality

/-!
# Comparisons

* `Comparison`, its symbol, and the comparison of a symbol;
* `Comparison.isOrdering`: which of them need numbers;
* `Comparison.holds`, of two numbers.
-/

namespace Reshape

/-- A comparison of two values. -/
inductive Comparison where
  | eq
  | ne
  | lt
  | gt
  | le
  | ge
  deriving DecidableEq

namespace Comparison

/-- The symbol of a comparison. -/
def symbol : Comparison → String
  | eq => "=="
  | ne => "!="
  | lt => "<"
  | gt => ">"
  | le => "<="
  | ge => ">="

/-- All comparisons. -/
def all : List Comparison := [eq, ne, lt, gt, le, ge]

/-- A text that is no symbol of a comparison. -/
structure Unknown where
  text : String
  deriving DecidableEq

/-- The message about an unknown symbol. -/
def Unknown.message (e : Unknown) : String := "Unknown comparison operator: " ++ e.text

/-- The comparison of a symbol. -/
def ofSymbol (text : String) : Except Unknown Comparison :=
  match all.find? fun c => c.symbol == text with
  | some c => .ok c
  | none => .error ⟨text⟩

/-- Whether a comparison is by order, and so of numbers only. -/
def isOrdering : Comparison → Bool
  | eq => false
  | ne => false
  | _ => true

/-- Whether a comparison holds of two numbers. None does of what is no number, inequality apart. -/
def holds : Comparison → Number → Number → Bool
  | eq, a, b => a == b
  | ne, a, b => !(a == b)
  | lt, a, b => a.lt b
  | gt, a, b => b.lt a
  | le, a, b => a.le b
  | ge, a, b => b.le a

theorem ofSymbol_symbol (c : Comparison) : ofSymbol c.symbol = .ok c := by
  cases c <;> rfl

end Comparison

end Reshape
