import Reshape.Machine.Cursor
import Reshape.Proofs.Json.Trail

/-!
# Bounded containers

* `Json.SizedBelow`, a bound on the size of every container of a document;
* `SizedBelow.of_children`, which says that it is enough to look at the root and its children, with
  `SizedBelow.array`, `SizedBelow.object` and `SizedBelow.scalar`;
* `SizedBelow.replace`, for a document with another node in it;
* `Json.widest`, a bound that can be computed, and `sizedBelow_of_widest_lt`.
-/

namespace Reshape

/-- No array and no object in a document has as many items or fields as the bound. -/
def Json.SizedBelow (bound : Nat) (document : Json) : Prop :=
  ∀ trail node count, Json.resolve trail document = some node → node.length? = some count →
    count < bound

namespace Json.SizedBelow

variable {bound : Nat} {document : Json}

theorem mono (h : document.SizedBelow bound) {more : Nat} (hle : bound ≤ more) :
    document.SizedBelow more :=
  fun trail node count hr hc => Nat.lt_of_lt_of_le (h trail node count hr hc) hle

theorem resolve (h : document.SizedBelow bound) {trail : List Locator} {node : Json}
    (hr : Json.resolve trail document = some node) : node.SizedBelow bound := by
  intro below inner count hi hc
  refine h (trail ++ below) inner count ?_ hc
  rw [Json.resolve_append, hr, Option.bind_some, hi]

theorem child (h : document.SizedBelow bound) (locator : Locator) {child : Json}
    (hc : document.child? locator = some child) : child.SizedBelow bound := by
  have hr : Json.resolve [locator] document = some child := by
    rw [Json.resolve_cons hc, Json.resolve_nil]
  exact h.resolve hr

theorem of_children (hlen : ∀ count, document.length? = some count → count < bound)
    (hchild : ∀ locator child, document.child? locator = some child → child.SizedBelow bound) :
    document.SizedBelow bound := by
  intro trail node count hr hc
  cases trail with
  | nil =>
    cases hr
    exact hlen count hc
  | cons locator below =>
    obtain ⟨child, hl, -⟩ := Json.exists_child_of_resolve (Option.isSome_of_eq_some hr)
    rw [Json.resolve_cons hl] at hr
    exact hchild locator child hl below node count hr hc

theorem array {items : List Json} (hlen : items.length < bound)
    (hitems : ∀ item ∈ items, item.SizedBelow bound) : (Json.array items).SizedBelow bound := by
  refine of_children (fun count hc => ?_) fun locator child hc => ?_
  · cases hc
    exact hlen
  · cases locator with
    | field name => cases hc
    | index position => exact hitems child (List.mem_of_getElem? hc)

theorem object {fields : List (String × Json)} (hlen : fields.length < bound)
    (hfields : ∀ entry ∈ fields, entry.2.SizedBelow bound) :
    (Json.object fields).SizedBelow bound := by
  refine of_children (fun count hc => ?_) fun locator child hc => ?_
  · cases hc
    exact hlen
  · cases locator with
    | field name => exact hfields (name, child) (Entries.mem_of_get? hc)
    | index position => cases hc

/-- What is neither an array nor an object has no size. -/
theorem scalar {node : Json} (h : node.length? = none) : node.SizedBelow bound := by
  refine of_children (fun count hc => ?_) fun locator child hc => ?_
  · cases h.symm.trans hc
  · cases node <;> cases locator <;>
      simp [Json.length?, Json.child?, Json.get?, Json.getIndex?] at h hc

theorem replace (h : document.SizedBelow bound) {new : Json} (hn : new.SizedBelow bound)
    (trail : List Locator) : (Json.replace trail new document).SizedBelow bound := by
  induction trail generalizing document with
  | nil => exact hn
  | cons locator trail ih =>
    cases hc : document.child? locator with
    | none => simpa [Json.replace, hc] using h
    | some child =>
      rw [Json.replace_cons hc]
      refine of_children (fun count hlen => ?_) fun other found hf => ?_
      · rw [Json.length?_setChild hc] at hlen
        exact h [] document count rfl hlen
      · by_cases heq : locator = other
        · subst heq
          rw [Json.child?_setChild (by simp [hc])] at hf
          cases hf
          exact ih (h.child _ hc)
        · rw [Json.child?_setChild_of_ne heq] at hf
          exact h.child _ hf

theorem emptyObject (hpos : 0 < bound) : Json.emptyObject.SizedBelow bound := object hpos nofun

theorem initial (hpos : 0 < bound) (mode : FieldMode) : mode.initial.SizedBelow bound := by
  cases mode with
  | object => exact object hpos nofun
  | array => exact array hpos nofun
  | leaf => exact scalar rfl

end Json.SizedBelow

/-! ### Computing a bound -/

namespace Json

mutual
/-- The greatest size of a container of a document. -/
def widest : Json → Nat
  | .array items => max items.length (widestItems items)
  | .object fields => max fields.length (widestFields fields)
  | _ => 0

/-- The greatest size of a container among items. -/
def widestItems : List Json → Nat
  | [] => 0
  | item :: rest => max item.widest (widestItems rest)

/-- The greatest size of a container among the values of fields. -/
def widestFields : List (String × Json) → Nat
  | [] => 0
  | (_, value) :: rest => max value.widest (widestFields rest)
end

mutual
theorem sizedBelow_of_widest_lt {bound : Nat} :
    (document : Json) → document.widest < bound → document.SizedBelow bound
  | .array items, h =>
    .array (Nat.max_lt.1 h).1 (sizedBelow_of_widestItems_lt items (Nat.max_lt.1 h).2)
  | .object fields, h =>
    .object (Nat.max_lt.1 h).1 (sizedBelow_of_widestFields_lt fields (Nat.max_lt.1 h).2)
  | .null, _ | .bool _, _ | .number _, _ | .text _, _ => .scalar rfl

theorem sizedBelow_of_widestItems_lt {bound : Nat} :
    (items : List Json) → widestItems items < bound → ∀ item ∈ items, item.SizedBelow bound
  | [], _ => List.forall_mem_nil _
  | item :: rest, h => List.forall_mem_cons.2
    ⟨sizedBelow_of_widest_lt item (Nat.max_lt.1 h).1,
      sizedBelow_of_widestItems_lt rest (Nat.max_lt.1 h).2⟩

theorem sizedBelow_of_widestFields_lt {bound : Nat} :
    (fields : List (String × Json)) → widestFields fields < bound →
      ∀ entry ∈ fields, entry.2.SizedBelow bound
  | [], _ => List.forall_mem_nil _
  | (_, value) :: rest, h => List.forall_mem_cons.2
    ⟨sizedBelow_of_widest_lt value (Nat.max_lt.1 h).1,
      sizedBelow_of_widestFields_lt rest (Nat.max_lt.1 h).2⟩
end

end Json

end Reshape
