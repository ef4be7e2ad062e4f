import Mathlib.Algebra.Group.Nat.Defs
import Reshape.Proofs.Cursor.Coherent
import Reshape.Proofs.Machine.Invariant

/-!
# The cursor of a machine

Whatever programs a machine has run, and at whatever point a run of it has got to or stopped, its
cursor is coherent: `cursor_coherent_of_visits`. The one thing that has to be known of the document
is that none of its arrays is as long as the greatest position.
-/

namespace Reshape

/-- Every operation of a cursor keeps it placed. -/
theorem Cursor.Placed.invariant : Cursor.Invariant Cursor.Placed where
  atRoot := .atRoot
  toRoot := fun {c} _ => .toRoot c
  moveOut := .moveOut
  intoField := .intoField
  intoIndex := .intoIndex
  write := .write
  delete := .delete

namespace Machine

theorem placed_of_visits {document : Json} {limits : Limits} {trace : Bool} {m s : Machine}
    {program : Program} (hm : (start document limits trace).Executed m)
    (hs : m.Visits program s) : s.cursor.Placed :=
  Cursor.Placed.invariant.visits hs (Cursor.Placed.invariant.executed hm (.atRoot document))

/-- **The cursor of a machine is coherent at every point of every call**, whatever calls were made
before. So there is no current node exactly if the cursor is detached, and an attached cursor stands
in a slot that its parent holds: writing to it succeeds, and deleting it fails at the root only. -/
theorem cursor_coherent_of_visits {document : Json} {limits : Limits} {trace : Bool}
    {m s : Machine} {program : Program} (hm : (start document limits trace).Executed m)
    (hs : m.Visits program s)
    (hlen : ∀ trail items, Json.resolve trail s.document = some (.array items) →
      items.length < 2 ^ 52) :
    s.cursor.Coherent ∧
      ((∃ e, s.cursor.current = .error e) ↔ s.cursor.detached = true) ∧
      (s.cursor.detached = false →
        (∀ last above, s.cursor.states.items = last :: above →
          ∃ parent child, Json.resolve above.reverse s.document = some parent ∧
            parent.child? last = some child) ∧
        (∀ value, s.cursor.write value = .ok { s.cursor with
          document := Json.replace s.cursor.trail value s.document }) ∧
        (∀ e, s.cursor.delete = .error e → e = .deleteRoot ∧ s.cursor.trail = [])) := by
  have hbound : (2 : Nat) ^ 52 ≤ Number.lastIndex := by decide
  have hc : s.cursor.Coherent :=
    (placed_of_visits hm hs).coherent fun trail items hr => (hlen trail items hr).trans_le hbound
  refine ⟨hc, hc.current_eq_error_iff, fun hd => ⟨?_, ?_, ?_⟩⟩
  · exact fun last above hl => hc.parent_child hd hl
  · exact hc.write_eq_ok hd
  · exact fun e he => hc.delete_eq_error hd he

/-- A first call deletes the node at `$.a`, and the next one fails to read it: the cursor of the
machine that is left keeps the trail of the deleted node, with paths to match. -/
theorem cursor_coherent_after_delete :
    ∃ m s : Machine,
      (start (.object [("a", .null)]) {} false).Executed m ∧
      m.Visits [.pushElement, .moveOut] s ∧ s.cursor.trail = [.field "a"] ∧
      s.cursor.detached = true ∧ s.cursor.Coherent := by
  have hm := @Executed.next (start (.object [("a", .null)]) {} false) 1
    [.moveIntoField .leaf "a", .delete] _ _ .refl rfl
  refine ⟨_, _, hm, ⟨_, .single (@Next.failed 0 _ _ _ _ _ rfl)⟩, rfl, rfl, ?_⟩
  refine (cursor_coherent_of_visits hm
    ⟨_, .single (@Next.failed 0 .pushElement [.moveOut] _ _ _ rfl)⟩ ?_).1
  intro trail items hr
  replace hr : Json.resolve trail (.object []) = some (.array items) := hr
  rcases trail with _ | ⟨_ | _, _⟩ <;>
    simp [Json.resolve, Json.child?, Json.get?, Json.getIndex?] at hr

end Machine

end Reshape
