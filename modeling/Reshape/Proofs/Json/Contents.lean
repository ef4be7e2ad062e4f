import Reshape.Json.Basic

/-!
# What is in a document

* `Json.depth`, how deep the containers of a value nest;
* `Json.EveryNumber`, a property of all of its numbers;
* `wellFormedItems_iff` and the like: of items and of the values of fields, a property is the
  property of every one of them.
-/

namespace Reshape.Json

mutual
/-- How deep the containers of a value nest. -/
def depth : Json → Nat
  | .array items => itemsDepth items + 1
  | .object fields => fieldsDepth fields + 1
  | _ => 0

/-- How deep the containers of items nest. -/
def itemsDepth : List Json → Nat
  | [] => 0
  | item :: rest => max item.depth (itemsDepth rest)

/-- How deep the containers of the values of fields nest. -/
def fieldsDepth : List (String × Json) → Nat
  | [] => 0
  | (_, value) :: rest => max value.depth (fieldsDepth rest)
end

mutual
/-- Every number in a value has a property. -/
def EveryNumber (P : Number → Prop) : Json → Prop
  | .number n => P n
  | .array items => EveryNumberOfItems P items
  | .object fields => EveryNumberOfFields P fields
  | _ => True

/-- Every number in the items has a property. -/
def EveryNumberOfItems (P : Number → Prop) : List Json → Prop
  | [] => True
  | item :: rest => item.EveryNumber P ∧ EveryNumberOfItems P rest

/-- Every number in the values of the fields has a property. -/
def EveryNumberOfFields (P : Number → Prop) : List (String × Json) → Prop
  | [] => True
  | (_, value) :: rest => value.EveryNumber P ∧ EveryNumberOfFields P rest
end

/-! ### Items and fields one by one -/

section

variable {P : Number → Prop} {bound : Nat} {items : List Json} {fields : List (String × Json)}

theorem wellFormedItems_iff : WellFormedItems items ↔ ∀ item ∈ items, item.WellFormed := by
  induction items with
  | nil => exact iff_of_true trivial (List.forall_mem_nil _)
  | cons item rest ih => rw [WellFormedItems, ih, List.forall_mem_cons]

theorem wellFormedFields_iff : WellFormedFields fields ↔ ∀ field ∈ fields, field.2.WellFormed := by
  induction fields with
  | nil => exact iff_of_true trivial (List.forall_mem_nil _)
  | cons field rest ih => rw [WellFormedFields, ih, List.forall_mem_cons]

theorem everyNumberOfItems_iff :
    EveryNumberOfItems P items ↔ ∀ item ∈ items, item.EveryNumber P := by
  induction items with
  | nil => exact iff_of_true trivial (List.forall_mem_nil _)
  | cons item rest ih => rw [EveryNumberOfItems, ih, List.forall_mem_cons]

theorem everyNumberOfFields_iff :
    EveryNumberOfFields P fields ↔ ∀ field ∈ fields, field.2.EveryNumber P := by
  induction fields with
  | nil => exact iff_of_true trivial (List.forall_mem_nil _)
  | cons field rest ih => rw [EveryNumberOfFields, ih, List.forall_mem_cons]

theorem itemsDepth_le_iff : itemsDepth items ≤ bound ↔ ∀ item ∈ items, item.depth ≤ bound := by
  induction items with
  | nil => exact iff_of_true (Nat.zero_le _) (List.forall_mem_nil _)
  | cons item rest ih => rw [itemsDepth, Nat.max_le, ih, List.forall_mem_cons]

theorem fieldsDepth_le_iff :
    fieldsDepth fields ≤ bound ↔ ∀ field ∈ fields, field.2.depth ≤ bound := by
  induction fields with
  | nil => exact iff_of_true (Nat.zero_le _) (List.forall_mem_nil _)
  | cons field rest ih => rw [fieldsDepth, Nat.max_le, ih, List.forall_mem_cons]

end

end Reshape.Json
