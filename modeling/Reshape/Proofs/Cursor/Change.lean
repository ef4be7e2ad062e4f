import Reshape.Machine.Cursor
import Reshape.Proofs.Json.Trail

/-!
# What a cursor does to its document

The moves and changes of a cursor, in terms of `Json.resolve` and `Json.replace` at its trail.

* the trail after each move;
* `modify_eq_ok`, `intoField_eq_ok`, `intoIndex_eq_ok`, what a move into a child has found and done;
* `write_of_attached` and `delete_of_attached`, which say that a change of the parent is a
  replacement at the trail.
-/

namespace Reshape.Cursor

variable {c c' : Cursor}

/-! ### Trails -/

@[simp] theorem trail_intoChild (c : Cursor) (locator : Locator) :
    (c.intoChild locator).trail = c.trail ++ [locator] := by
  simp [trail, intoChild, Stack.toList, Stack.push]

@[simp] theorem document_intoChild (c : Cursor) (locator : Locator) :
    (c.intoChild locator).document = c.document := rfl

@[simp] theorem detached_intoChild (c : Cursor) (locator : Locator) :
    (c.intoChild locator).detached = c.detached := rfl

@[simp] theorem trail_toRoot (c : Cursor) : c.toRoot.trail = [] := rfl

@[simp] theorem document_toRoot (c : Cursor) : c.toRoot.document = c.document := rfl

@[simp] theorem document_moveOut (c : Cursor) : c.moveOut.document = c.document := by
  unfold moveOut
  split <;> rfl

theorem trail_of_states {last : Locator} {above : List Locator}
    (h : c.states.items = last :: above) : c.trail = above.reverse ++ [last] := by
  simp [trail, Stack.toList, h]

theorem trail_eq_nil_iff : c.trail = [] ↔ c.states.items = [] := by
  simp [trail, Stack.toList]

/-! ### The current node -/

theorem current?_of_attached (h : c.detached = false) :
    c.current? = Json.resolve c.trail c.document := by
  simp [current?, h]

theorem attached_of_current? {node : Json} (h : c.current? = some node) :
    c.detached = false ∧ Json.resolve c.trail c.document = some node := by
  unfold current? at h
  split at h
  · simp at h
  · rename_i hd
    exact ⟨by simpa using hd, h⟩

theorem modify_eq_ok {ε : Type} {f : Json → Except ε Json} {missing : ε} :
    c.modify f missing = .ok c' ↔ ∃ node new, c.current? = some node ∧ f node = .ok new ∧
      c' = { c with document := Json.replace c.trail new c.document } := by
  unfold modify
  cases hc : c.current? with
  | none => simp
  | some node =>
    cases hf : f node with
    | error e => simp [hf, Except.map]
    | ok new => simp [hf, Except.map, eq_comm]

theorem modify_of_current? {ε : Type} {node : Json} (h : c.current? = some node)
    (f : Json → Except ε Json) (missing : ε) :
    c.modify f missing =
      (f node).map fun new => { c with document := Json.replace c.trail new c.document } := by
  simp [modify, h]

/-! ### Moves into a child -/

/-- A field that has been entered is there. -/
theorem withField_eq_ok {mode : FieldMode} {name : String} {node new : Json}
    (h : withField mode name node = .ok new) :
    new.kind = .object ∧ (new.child? (.field name)).isSome := by
  cases node with
  | object fields =>
    simp only [withField] at h
    split at h
    · rename_i existing hg
      split at h <;> cases h <;> simp [Json.kind, Json.child?, Json.get?, hg]
    · cases h
      simp [Json.kind, Json.child?, Json.get?]
  | _ => simp [withField] at h

/-- A position that has been entered is there, unless it is the last of all. -/
theorem withIndex_eq_ok {limit position : Nat} {node new : Json}
    (h : withIndex limit position node = .ok new) :
    ∃ items, new = .array items ∧ min (position + 1) Number.lastIndex ≤ items.length := by
  cases node with
  | array items =>
    have hm : missingItems position items.length =
        min (position + 1) Number.lastIndex - items.length := rfl
    by_cases h0 : missingItems position items.length = 0
    · simp only [withIndex, h0, if_true] at h
      cases h
      exact ⟨_, rfl, by omega⟩
    · by_cases hl : limit < missingItems position items.length
      · simp [withIndex, h0, hl] at h
      · simp only [withIndex, h0, hl, if_false] at h
        cases h
        exact ⟨_, rfl, by simp; omega⟩
  | _ => simp [withIndex] at h

theorem intoField_eq_ok {mode : FieldMode} {name : String} (h : c.intoField mode name = .ok c') :
    ∃ node new, c.current? = some node ∧ withField mode name node = .ok new ∧
      c' = intoChild { c with document := Json.replace c.trail new c.document } (.field name) := by
  unfold intoField at h
  cases hm : c.modify (withField mode name) .detached with
  | error e => simp [hm, Except.map] at h
  | ok moved =>
    obtain ⟨node, new, hc, hf, rfl⟩ := modify_eq_ok.1 hm
    exact ⟨node, new, hc, hf, by simpa [hm, Except.map, eq_comm] using h⟩

theorem intoIndex_eq_ok {limit position : Nat} (h : c.intoIndex limit position = .ok c') :
    ∃ node new, c.current? = some node ∧ withIndex limit position node = .ok new ∧
      c' = intoChild { c with document := Json.replace c.trail new c.document }
        (.index position) := by
  unfold intoIndex at h
  cases hm : c.modify (withIndex limit position) (.cursor .detached) with
  | error e => simp [hm, Except.map] at h
  | ok moved =>
    obtain ⟨node, new, hc, hf, rfl⟩ := modify_eq_ok.1 hm
    exact ⟨node, new, hc, hf, by simpa [hm, Except.map, eq_comm] using h⟩

theorem intoField_of_current? {node : Json} (h : c.current? = some node) (mode : FieldMode)
    (name : String) :
    c.intoField mode name = (withField mode name node).map fun new =>
      intoChild { c with document := Json.replace c.trail new c.document } (.field name) := by
  rw [intoField, modify_of_current? h]
  cases withField mode name node <;> rfl

theorem intoIndex_of_current? {node : Json} (h : c.current? = some node) (limit position : Nat) :
    c.intoIndex limit position = (withIndex limit position node).map fun new =>
      intoChild { c with document := Json.replace c.trail new c.document } (.index position) := by
  rw [intoIndex, modify_of_current? h]
  cases withIndex limit position node <;> rfl

/-! ### Changes -/

theorem withChild_of_child? {locator : Locator} {node child : Json}
    (h : node.child? locator = some child) (value : Json) :
    withChild locator value node = .ok (node.setChild locator value) := by
  cases node <;> cases locator <;> simp_all [Json.child?, Json.get?, Json.getIndex?]
  · obtain ⟨hi, -⟩ := List.getElem?_eq_some_iff.1 h
    simp [withChild, Json.setChild, hi]
  · rfl

/-- A write to an attached cursor replaces its node. -/
theorem write_of_attached (hd : c.detached = false)
    (hr : (Json.resolve c.trail c.document).isSome) (value : Json) :
    c.write value = .ok { c with document := Json.replace c.trail value c.document } := by
  cases hs : c.states.items with
  | nil => simp [write, hd, hs, trail, Stack.toList, Json.replace]
  | cons last above =>
    rw [trail_of_states hs] at hr ⊢
    obtain ⟨parent, hp, hl⟩ := Json.resolve_isSome_of_append hr
    obtain ⟨child, hc, -⟩ := Json.exists_child_of_resolve hl
    rw [Json.replace_append hp, Json.replace_cons hc]
    simp [write, hd, hs, modifyParent, hp, withChild_of_child? hc, Except.map, Json.replace]

/-- Taking a child out leaves a container of the same kind. -/
theorem withoutChild_of_child? {locator : Locator} {node child : Json}
    (h : node.child? locator = some child) :
    ∃ new, withoutChild locator node = .ok new ∧ new.kind = node.kind := by
  cases node <;> cases locator <;> simp_all [Json.child?, Json.get?, Json.getIndex?]
  · obtain ⟨hi, -⟩ := List.getElem?_eq_some_iff.1 h
    simp [withoutChild, hi, Json.kind]
  · simp [withoutChild, Json.kind]

/-- Deleting the node of an attached cursor below the root takes it out of its parent. -/
theorem delete_of_attached {last : Locator} {above : List Locator}
    (hs : c.states.items = last :: above) (hd : c.detached = false)
    (hr : (Json.resolve c.trail c.document).isSome) :
    ∃ parent new, Json.resolve above.reverse c.document = some parent ∧
      withoutChild last parent = .ok new ∧ new.kind = last.container ∧
      c.delete = .ok { c with
        document := Json.replace above.reverse new c.document
        detached := true } := by
  rw [trail_of_states hs] at hr
  obtain ⟨parent, hp, hl⟩ := Json.resolve_isSome_of_append hr
  obtain ⟨child, hc, -⟩ := Json.exists_child_of_resolve hl
  obtain ⟨new, hn, hk⟩ := withoutChild_of_child? hc
  refine ⟨parent, new, hp, hn, hk.trans (Json.kind_of_child? hc), ?_⟩
  simp [delete, hd, hs, modifyParent, hp, hn, Except.map]

/-- Nothing is written and nothing deleted where there is no node. -/
theorem write_of_detached (h : c.detached = true) (value : Json) :
    c.write value = .error .detached := by
  simp [write, h]

theorem delete_of_detached (h : c.detached = true) : c.delete = .error .detached := by
  simp [delete, h]

theorem delete_of_root (hd : c.detached = false) (hs : c.states.items = []) :
    c.delete = .error .deleteRoot := by
  simp [delete, hd, hs]

end Reshape.Cursor
