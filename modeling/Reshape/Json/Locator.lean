import Reshape.Json.Basic

/-!
# Places in a document

A locator names a child of a container, and a trail of locators names a node of a document.

* `Locator` and its text, `.name` or `[3]`;
* `Json.child?` and `Json.setChild`;
* `Json.resolve`, the node at the end of a trail, and `Json.replace`, the document with another
  node there;
* `resolve_append` and `resolve_replace`, the look-up along two trails and after a replacement.
-/

namespace Reshape

/-- One step from a container to a child. -/
inductive Locator where
  | field (name : String)
  | index (position : Nat)
  deriving DecidableEq

/-- The text of a locator. -/
def Locator.text : Locator → String
  | .field name => "." ++ name
  | .index position => s!"[{position}]"

namespace Json

/-- The child of a container at a locator of its kind. -/
def child? (node : Json) : Locator → Option Json
  | .field name => node.get? name
  | .index position => node.getIndex? position

/-- A container with another child. A field may be new; an index has to be there. -/
def setChild (node : Json) (locator : Locator) (child : Json) : Json :=
  match node, locator with
  | .object fields, .field name => .object (Entries.insert name child fields)
  | .array items, .index position => .array (items.set position child)
  | other, _ => other

/-- The node at the end of a trail. -/
def resolve : List Locator → Json → Option Json
  | [], node => some node
  | locator :: trail, node => (node.child? locator).bind (resolve trail)

/-- The document with another node at the end of a trail that resolves. -/
def replace : List Locator → Json → Json → Json
  | [], new, _ => new
  | locator :: trail, new, node =>
    match node.child? locator with
    | some child => node.setChild locator (replace trail new child)
    | none => node

@[simp] theorem resolve_nil (node : Json) : resolve [] node = some node := rfl

theorem resolve_append (first second : List Locator) (node : Json) :
    resolve (first ++ second) node = (resolve first node).bind (resolve second) := by
  induction first generalizing node with
  | nil => rfl
  | cons locator trail ih =>
    cases h : node.child? locator with
    | none => simp [resolve, h]
    | some child => simp [resolve, h, ih]

theorem child?_setChild {node child : Json} {locator : Locator}
    (h : (node.child? locator).isSome) :
    (node.setChild locator child).child? locator = some child := by
  cases node <;> cases locator <;> simp_all [child?, setChild, get?, getIndex?]

/-- The replaced node is found where it was put. -/
theorem resolve_replace {trail : List Locator} {node : Json} (new : Json)
    (h : (resolve trail node).isSome) :
    resolve trail (replace trail new node) = some new := by
  induction trail generalizing node with
  | nil => rfl
  | cons locator trail ih =>
    cases hc : node.child? locator with
    | none => simp [resolve, hc] at h
    | some child =>
      have hr : (resolve trail child).isSome := by simpa [resolve, hc] using h
      have hs : (node.child? locator).isSome := by simp [hc]
      simp [replace, resolve, hc, child?_setChild hs, ih hr]

end Json

end Reshape
