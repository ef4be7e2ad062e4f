import Reshape.Json.Basic

/-!
# Equality of documents

Two values are equal if they are of one kind and have equal contents: numbers by value, arrays
item by item in order, objects key by key in any order. As a number that is none equals nothing,
a value that holds one does not equal itself.

Values are compared by their contents alone. That two containers are one in memory is no part of
their values, and is left out on purpose where programs compare what is on their stacks; it would
matter only for containers that hold a number that is none. The copy that `equalsCopy` is about
shares its containers by the way it is made.

* `Json.equal`, also written `==`;
* `Json.equalsCopy`, equality with a copy that shares its containers.
-/

namespace Reshape.Json

mutual
/-- Equality of values. -/
def equal : Json → Json → Bool
  | .null, .null => true
  | .bool a, .bool b => a == b
  | .number a, .number b => a == b
  | .text a, .text b => a == b
  | .array a, .array b => equalItems a b
  | .object a, .object b => a.length == b.length && equalFields a b
  | _, _ => false

/-- Equality item by item. -/
def equalItems : List Json → List Json → Bool
  | [], [] => true
  | a :: as, b :: bs => equal a b && equalItems as bs
  | _, _ => false

/-- Whether each field of the first object is in the second with an equal value. -/
def equalFields : List (String × Json) → List (String × Json) → Bool
  | [], _ => true
  | (key, a) :: rest, others =>
    (match Entries.get? key others with
      | some b => equal a b
      | none => false) && equalFields rest others
end

instance : BEq Json := ⟨equal⟩

/-- Equality with a copy. A copy shares its containers, which are equal without a look inside, so
that only a bare number that is none differs from its copy. -/
def equalsCopy : Json → Bool
  | .number n => n == n
  | _ => true

end Reshape.Json
