import Reshape.Move.Route
import Reshape.Proofs.Except
import Reshape.Proofs.Json.Place
import Reshape.Proofs.Json.Size
import Reshape.Proofs.Number.Exact

/-!
# Walks down a document

Following a path from a node without a machine. A walk may change the document on its way: it puts
in fields that are missing, puts arrays in place of other values, and fills arrays up.

* `Hop`, one step of a walk, and `Hop.enter`;
* `locate`, the place at the end of a walk, and `locate_append`; `size`, of a node;
* `trailOf`, the trail along a walk, and `trail_of_locate`;
* `locate_sizedBelow`, how far a walk exceeds a bound on the size of containers;
* `Component.hops` and `hops`, the walk along the components of a path.
-/

namespace Reshape

/-- Why a walk cannot go on. -/
inductive Fault where
  /-- A node is of the wrong kind, or there is no such position. -/
  | navigation
  /-- An array would grow by more items than allowed. -/
  | padding
  deriving DecidableEq

/-! ### Steps -/

/-- One step of a walk. -/
inductive Hop where
  /-- Into a field, which is entered as `mode` tells. -/
  | field (mode : FieldMode) (name : String)
  /-- To a position of an array, if there is one. -/
  | item (position : Option Nat)

namespace Hop

/-- What is at a field that has been entered. -/
def entered (mode : FieldMode) (existing : Option Json) : Json :=
  (existing.filter mode.accepts).getD mode.initial

/-- The items of an array that has been filled up to a position. -/
def filled (position : Nat) (items : List Json) : List Json :=
  items ++ List.replicate (position + 1 - items.length) Json.emptyObject

theorem length_filled (position : Nat) (items : List Json) :
    (filled position items).length = max items.length (position + 1) := by
  rw [filled, List.length_append, List.length_replicate]
  omega

theorem getElem?_filled (position : Nat) (items : List Json) :
    (filled position items)[position]? = some (items[position]?.getD Json.emptyObject) := by
  unfold filled
  by_cases h : position < items.length
  · rw [List.getElem?_append_left h]
    simp [h]
  · rw [List.getElem?_append_right (by omega), List.getElem?_replicate_of_lt (by omega)]
    simp [h]

/-- The place behind one step from a node. A missing field is put in, and one of the wrong kind is
replaced; an array grows by at most `limit` items. -/
def enter (limit : Nat) : Hop → Json → Except Fault Place
  | field mode name, .object fields =>
    let child := entered mode (Entries.get? name fields)
    .ok ⟨.object (Entries.insert name child fields), [.field name], child, by
      simp [Json.resolve, Json.child?, Json.get?]⟩
  | item (some position), .array items =>
    if limit < position + 1 - items.length then .error .padding
    else
      .ok ⟨.array (filled position items), [.index position],
        items[position]?.getD Json.emptyObject, by
        simp [Json.resolve, Json.child?, Json.getIndex?, getElem?_filled]⟩
  | _, _ => .error .navigation

end Hop

/-- The place at the end of a walk from the root of a document. -/
def locate (limit : Nat) : List Hop → Json → Except Fault Place
  | [], document => .ok (.atRoot document)
  | hop :: rest, document => do
    let first ← hop.enter limit document
    let last ← locate limit rest first.node
    return last.within first

theorem locate_append (limit : Nat) (first second : List Hop) (document : Json) :
    locate limit (first ++ second) document = do
      let outer ← locate limit first document
      let inner ← locate limit second outer.node
      return inner.within outer := by
  induction first generalizing document with
  | nil =>
    cases h : locate limit second document <;>
      simp [locate, h, Place.within_atRoot]
  | cons hop rest ih =>
    cases h : hop.enter limit document with
    | error e => simp [locate, h]
    | ok first => simp [locate, h, ih, Place.within_within]

/-! ### Trails -/

/-- The locator of a step. A step to no position is never made, and may have any. -/
def Hop.locator : Hop → Locator
  | .field _ name => .field name
  | .item position => .index (position.getD 0)

/-- The trail along a walk. -/
def trailOf (walk : List Hop) : List Locator := walk.map Hop.locator

theorem Hop.trail_of_enter {limit : Nat} {hop : Hop} {document : Json} {first : Place}
    (h : hop.enter limit document = .ok first) : first.trail = [hop.locator] := by
  unfold Hop.enter at h
  split at h
  · cases h
    rfl
  · split at h
    · cases h
    · cases h
      rfl
  · cases h

/-- A walk adds one locator for each of its steps. -/
theorem trail_of_locate {limit : Nat} {walk : List Hop} {document : Json} {place : Place}
    (h : locate limit walk document = .ok place) : place.trail = trailOf walk := by
  induction walk generalizing document place with
  | nil =>
    cases h
    rfl
  | cons hop rest ih =>
    obtain ⟨first, hf, h⟩ := bind_eq_ok.1 h
    obtain ⟨last, hl, h⟩ := bind_eq_ok.1 h
    cases h
    show first.trail ++ last.trail = _
    rw [Hop.trail_of_enter hf, ih hl]
    rfl

/-! ### Sizes -/

/-- The size of an array or an object. -/
def size (node : Json) : Except Fault Nat :=
  match node.length? with
  | some count => .ok count
  | none => .error .navigation

theorem size_eq_ok {node : Json} {count : Nat} :
    size node = .ok count ↔ node.length? = some count := by
  unfold size
  cases node.length? <;> simp

theorem size_lt {bound count : Nat} {node : Json} (h : node.SizedBelow bound)
    (hc : size node = .ok count) : count < bound :=
  h [] node count rfl (size_eq_ok.1 hc)

/-- A step makes one container longer, by no more than it may pad, and leads to a node that was
there or is empty. -/
theorem Hop.enter_sizedBelow {limit bound : Nat} {hop : Hop} {document : Json} {first : Place}
    (h : document.SizedBelow bound) (hpos : 0 < bound) (he : hop.enter limit document = .ok first) :
    first.document.SizedBelow (bound + limit + 1) ∧ first.node.SizedBelow bound := by
  have hlen (count : Nat) (hc : document.length? = some count) : count < bound :=
    h [] document count rfl hc
  cases hop with
  | field mode name =>
    cases document with
    | object fields =>
      cases he
      -- The child was there, or is empty.
      have hchild : (entered mode (Entries.get? name fields)).SizedBelow bound := by
        cases hg : (Entries.get? name fields).filter mode.accepts with
        | none => simpa [entered, hg] using Json.SizedBelow.initial hpos mode
        | some existing =>
          obtain ⟨hg', -⟩ := Option.filter_eq_some_iff.1 hg
          simpa [entered, hg] using h.child (.field name) hg'
      refine ⟨.of_children (fun count hc => ?_) fun locator child hc => ?_, hchild⟩
      · cases hc
        have := Entries.length_insert_le name (entered mode (Entries.get? name fields)) fields
        have := hlen _ rfl
        omega
      · by_cases heq : Locator.field name = locator
        · subst heq
          cases (Entries.get?_insert_self name _ fields).symm.trans hc
          exact hchild.mono (by omega)
        · replace hc := (Json.child?_setChild_of_ne heq (.object fields) _).symm.trans hc
          exact (h.child _ hc).mono (by omega)
    | _ => cases he
  | item position =>
    cases position with
    | none => cases document <;> cases he
    | some position =>
      cases document with
      | array items =>
        simp only [enter] at he
        split at he
        · cases he
        cases he
        -- An item was there, or has been put in as an empty object.
        have hitem (index : Nat) (item : Json) (hi : (filled position items)[index]? = some item) :
            item.SizedBelow bound := by
          unfold filled at hi
          by_cases hold : index < items.length
          · rw [List.getElem?_append_left hold] at hi
            exact h.child (.index index) hi
          · rw [List.getElem?_append_right (by omega)] at hi
            rw [List.eq_of_mem_replicate (List.mem_of_getElem? hi)]
            exact .emptyObject hpos
        refine ⟨.of_children (fun count hc => ?_) fun locator child hc => ?_,
          hitem position _ (getElem?_filled position items)⟩
        · cases hc
          have := hlen _ rfl
          rw [length_filled]
          omega
        · cases locator with
          | field name => cases hc
          | index index => exact (hitem index child hc).mono (by omega)
      | _ => cases he

theorem locate_sizedBelow {limit bound : Nat} {walk : List Hop} {document : Json} {place : Place}
    (h : document.SizedBelow bound) (hpos : 0 < bound)
    (he : locate limit walk document = .ok place) :
    place.document.SizedBelow (bound + limit + 1) ∧ place.node.SizedBelow bound := by
  induction walk generalizing document place with
  | nil =>
    cases he
    exact ⟨h.mono (by omega), h⟩
  | cons hop rest ih =>
    obtain ⟨first, hf, he⟩ := bind_eq_ok.1 he
    obtain ⟨last, hl, he⟩ := bind_eq_ok.1 he
    cases he
    obtain ⟨hdocument, hnode⟩ := Hop.enter_sizedBelow h hpos hf
    obtain ⟨hinner, hlast⟩ := ih hnode hl
    exact ⟨hdocument.replace hinner first.trail, hlast⟩

/-! ### Paths -/

/-- The position that a word names. A word becomes a number of the document on the way, so it is
rounded if it has more than 53 bits. -/
def position? (word : Int64) : Option Nat := (Number.ofWord word).toIndex?

/-- On an array that cannot grow beyond 2⁵³ items, a word names the position that it is. -/
theorem enter_position? {limit : Nat} {items : List Json} (h : items.length + limit < 2 ^ 53)
    (word : Int64) :
    (Hop.item (position? word)).enter limit (.array items) =
      if word.toInt < 0 then .error .navigation
      else (Hop.item (some word.toInt.toNat)).enter limit (.array items) := by
  unfold position?
  by_cases hneg : word.toInt < 0
  · rw [Number.toIndex?_ofWord_of_neg hneg, if_pos hneg]
    rfl
  · rw [if_neg hneg]
    by_cases hle : word.toInt ≤ 2 ^ 53
    · rw [Number.toIndex?_ofWord (by omega) hle]
    · -- Whatever the word is rounded to, it is too far beyond the array.
      have hgreat : 2 ^ 53 ≤ word.toInt := by omega
      obtain ⟨position, hp, hge⟩ := Number.exists_toIndex?_ofWord hgreat
      rw [hp, Hop.enter, Hop.enter, if_pos (by omega), if_pos (by omega)]

/-- The steps into a field that holds an array. An empty name stands for the node itself. -/
def intoArray (field : String) : List Hop :=
  if field = "" then [] else [.field .array field]

/-- The steps along a component. An array pattern stands for the array itself. -/
def Component.hops (mode : FieldMode) : Component → List Hop
  | .field name => [.field mode name]
  | .arrayIndex name index => intoArray name ++ [.item (position? index)]
  | .arrayAll name => intoArray name
  | .arrayAllOffset name _ => intoArray name
  | _ => []

/-- The steps along a path. `mode` tells how a field at the end is entered; the fields before it
are entered as objects. -/
def hops (mode : FieldMode) : List Component → List Hop
  | [] => []
  | [last] => last.hops mode
  | component :: rest => component.hops .object ++ hops mode rest

end Reshape
