import Reshape.Proofs.Json.Trail

/-!
# Places

A place is a document and a node in it, reached along a trail.

* `Place`, with `Place.atRoot`, `Place.put`, `Place.up` and `Place.ups`;
* `Place.within`, a place of the node of another place as one of the whole document, and its laws
  `within_put`, `within_within`, `ups_within`.
-/

namespace Reshape

/-- A document and a node in it. -/
structure Place where
  document : Json
  /-- The locators from the root to the node. -/
  trail : List Locator
  node : Json
  resolves : Json.resolve trail document = some node

namespace Place

/-- The root of a document. -/
def atRoot (document : Json) : Place := ⟨document, [], document, rfl⟩

theorem isSome (p : Place) : (Json.resolve p.trail p.document).isSome := by
  rw [p.resolves]
  rfl

/-- The place with another value in it. -/
def put (p : Place) (value : Json) : Place :=
  ⟨Json.replace p.trail value p.document, p.trail, value, Json.resolve_replace value p.isSome⟩

/-- The place of the parent; the root stays. -/
def up (p : Place) : Place where
  document := p.document
  trail := p.trail.dropLast
  node := (Json.resolve p.trail.dropLast p.document).getD .null
  resolves := by
    have h : (Json.resolve p.trail.dropLast p.document).isSome := by
      rcases List.eq_nil_or_concat p.trail with ht | ⟨above, last, ht⟩
      · simp [ht]
      · have hr := p.isSome
        rw [ht, List.concat_eq_append] at hr
        obtain ⟨parent, hp, -⟩ := Json.resolve_isSome_of_append hr
        simp [ht, hp]
    rw [← Option.some_get h, Option.getD_some]

@[simp] theorem document_up (p : Place) : p.up.document = p.document := rfl

@[simp] theorem trail_up (p : Place) : p.up.trail = p.trail.dropLast := rfl

/-- A place of the node of another place, as a place of the whole document. -/
def within (inner outer : Place) : Place where
  document := Json.replace outer.trail inner.document outer.document
  trail := outer.trail ++ inner.trail
  node := inner.node
  resolves := by rw [Json.resolve_append_replace outer.isSome, inner.resolves]

@[simp] theorem node_atRoot (document : Json) : (atRoot document).node = document := rfl

@[simp] theorem node_within (inner outer : Place) : (inner.within outer).node = inner.node := rfl

/-- The document and the trail make a place. -/
theorem ext {p q : Place} (hd : p.document = q.document) (ht : p.trail = q.trail) : p = q := by
  obtain ⟨document, trail, node, h⟩ := p
  obtain ⟨document', trail', node', h'⟩ := q
  cases hd
  cases ht
  cases h.symm.trans h'
  rfl

theorem put_put (p : Place) (first second : Json) : (p.put first).put second = p.put second :=
  ext (Json.replace_replace p.isSome first second) rfl

/-- Putting in the node that is there changes nothing. -/
theorem put_node (p : Place) : p.put p.node = p := ext (Json.replace_self p.resolves) rfl

theorem within_put (inner outer : Place) (value : Json) :
    (inner.within outer).put value = (inner.put value).within outer :=
  ext (Json.replace_append_replace outer.isSome inner.trail value inner.document) rfl

theorem within_within (first second third : Place) :
    (first.within second).within third = first.within (second.within third) := by
  refine ext ?_ (List.append_assoc _ _ _).symm
  exact (Json.replace_append_replace third.isSome second.trail first.document second.document).symm

theorem within_atRoot (p : Place) (document : Json) : p.within (atRoot document) = p :=
  ext rfl rfl

theorem atRoot_within (p : Place) : (atRoot p.node).within p = p :=
  ext (Json.replace_self p.resolves) (List.append_nil _)

/-- Several steps up. -/
def ups : Nat → Place → Place
  | 0, p => p
  | count + 1, p => ups count p.up

@[simp] theorem document_ups (count : Nat) (p : Place) : (ups count p).document = p.document := by
  induction count generalizing p with
  | zero => rfl
  | succ count ih => exact ih p.up

theorem trail_ups (count : Nat) (p : Place) :
    (ups count p).trail = p.trail.take (p.trail.length - count) := by
  induction count generalizing p with
  | zero => simp [ups]
  | succ count ih =>
    rw [ups, ih, trail_up, List.length_dropLast, List.dropLast_eq_take, List.take_take]
    congr 1
    omega

/-- From a place inside another one, as many steps up as there are down lead back. -/
theorem ups_within (inner outer : Place) :
    ups inner.trail.length (inner.within outer) = outer.put inner.document := by
  refine ext (document_ups _ _) ?_
  rw [trail_ups]
  simp [within, put]

end Place

end Reshape
