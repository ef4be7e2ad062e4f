import Mathlib.Data.List.Infix
import Reshape.Proofs.Cursor.Change

/-!
# Coherent cursors

A cursor keeps its position three times and a document that it changes under way. `Coherent` says
that the three agree and that the position is one of the document.

* `Cursor.pathOf`, the path of a trail;
* `Coherent`, and what follows from it: `Coherent.current_eq_error_iff`, `Coherent.write_eq_ok`,
  `Coherent.delete_eq_error`;
* `Placed`, the invariant that every operation keeps. It differs from `Coherent` at one place: in an
  array that is as long as an array can be, the cursor may stand behind the last item;
* `Placed.coherent`: where no array is that long, a placed cursor is coherent.
-/

namespace Reshape

namespace Cursor

/-- The path that is shown at the end of a trail. -/
def pathOf (trail : List Locator) : String :=
  trail.foldl (fun path locator => path ++ locator.text) rootPath

@[simp] theorem pathOf_nil : pathOf [] = rootPath := rfl

@[simp] theorem pathOf_append_singleton (trail : List Locator) (locator : Locator) :
    pathOf (trail ++ [locator]) = pathOf trail ++ locator.text := by
  simp [pathOf]

/-- The position of a cursor is one of its document, and its breadcrumbs tell the position. -/
structure Coherent (c : Cursor) : Prop where
  /-- The two breadcrumb stacks have equal length. -/
  length_paths : c.paths.length = c.states.length
  /-- The path is the one of the trail. -/
  path_eq : c.path = pathOf c.trail
  /-- A saved path is the one of the locators below it. -/
  saved_eq : ∀ i < c.trail.length, c.paths.toList[i]? = some (pathOf (c.trail.take i))
  /-- In front of each locator there is a container of its kind. -/
  container : ∀ above locator below, c.trail = above ++ locator :: below →
    ∃ node, Json.resolve above c.document = some node ∧ node.kind = locator.container
  /-- An attached cursor is at a node. -/
  resolves : c.detached = false → (Json.resolve c.trail c.document).isSome
  /-- The root cannot be detached. -/
  below_root : c.detached = true → c.trail ≠ []

namespace Coherent

variable {c : Cursor}

/-- There is no current node exactly if the cursor is detached. -/
theorem current_eq_error_iff (h : c.Coherent) :
    (∃ e, c.current = .error e) ↔ c.detached = true := by
  cases hd : c.detached with
  | true => simp [current, current?, hd]
  | false =>
    obtain ⟨node, hn⟩ := Option.isSome_iff_exists.1 (h.resolves hd)
    simp [current, current?, hd, hn]

/-- The parent of an attached cursor holds the slot of its node. -/
theorem parent_child (h : c.Coherent) (hd : c.detached = false) {last : Locator}
    {above : List Locator} (hs : c.states.items = last :: above) :
    ∃ parent child, Json.resolve above.reverse c.document = some parent ∧
      parent.child? last = some child := by
  have hr := h.resolves hd
  rw [trail_of_states hs] at hr
  obtain ⟨parent, hp, hl⟩ := Json.resolve_isSome_of_append hr
  obtain ⟨child, hc, -⟩ := Json.exists_child_of_resolve hl
  exact ⟨parent, child, hp, hc⟩

/-- An attached cursor can be written to. -/
theorem write_eq_ok (h : c.Coherent) (hd : c.detached = false) (value : Json) :
    c.write value = .ok { c with document := Json.replace c.trail value c.document } :=
  write_of_attached hd (h.resolves hd) value

/-- All that hinders an attached cursor from deleting is being at the root. -/
theorem delete_eq_error (h : c.Coherent) (hd : c.detached = false) {e : CursorError}
    (he : c.delete = .error e) : e = .deleteRoot ∧ c.trail = [] := by
  cases hs : c.states.items with
  | nil =>
    rw [delete_of_root hd hs] at he
    exact ⟨by cases he; rfl, trail_eq_nil_iff.2 hs⟩
  | cons last above =>
    obtain ⟨parent, new, -, -, -, hc⟩ := delete_of_attached hs hd (h.resolves hd)
    rw [hc] at he
    cases he

end Coherent

/-! ### The invariant -/

/-- The cursor stands behind an array that has no room for the position. -/
def PastEnd (c : Cursor) : Prop :=
  ∃ position above items, c.states.items = .index position :: above ∧
    Json.resolve above.reverse c.document = some (.array items) ∧
    Number.lastIndex ≤ items.length

/-- In front of each locator, the top first, there is a container of its kind. -/
def Anchored (states : List Locator) (document : Json) : Prop :=
  ∀ last above, last :: above <:+ states →
    ∃ node, Json.resolve above.reverse document = some node ∧ node.kind = last.container

theorem anchored_nil (document : Json) : Anchored [] document := by
  intro last above h
  simp at h

theorem anchored_cons {last : Locator} {above : List Locator} {document node : Json}
    (h : Anchored above document) (hr : Json.resolve above.reverse document = some node)
    (hk : node.kind = last.container) : Anchored (last :: above) document := by
  intro other rest hs
  rcases List.suffix_cons_iff.1 hs with heq | hs
  · cases heq
    exact ⟨node, hr, hk⟩
  · exact h other rest hs

theorem Anchored.tail {last : Locator} {above : List Locator} {document : Json}
    (h : Anchored (last :: above) document) : Anchored above document :=
  fun other rest hs => h other rest (hs.trans (List.suffix_cons last above))

/-- A replacement at the end of a trail leaves the containers in front of it. -/
theorem anchored_replace {states : List Locator} {document : Json}
    (h : (Json.resolve states.reverse document).isSome) (new : Json) :
    Anchored states (Json.replace states.reverse new document) := by
  rintro last above ⟨below, rfl⟩
  rw [List.reverse_append, List.reverse_cons, List.append_assoc] at h ⊢
  exact Json.kind_resolve_replace h new

/-- What every operation of a cursor keeps. -/
structure Placed (c : Cursor) : Prop where
  /-- The paths are those of the trail and of the trails above it. -/
  breadcrumbs : c.path :: c.paths.items =
    c.states.items.tails.map fun above => pathOf above.reverse
  anchored : Anchored c.states.items c.document
  attached : c.detached = false → (Json.resolve c.trail c.document).isSome ∨ c.PastEnd
  below_root : c.detached = true → c.states.items ≠ []

namespace Placed

variable {c c' : Cursor}

theorem atRoot (document : Json) : (Cursor.atRoot document).Placed where
  breadcrumbs := rfl
  anchored := anchored_nil document
  attached := fun _ => .inl rfl
  below_root := fun h => by cases h

theorem toRoot (c : Cursor) : c.toRoot.Placed where
  breadcrumbs := rfl
  anchored := anchored_nil c.document
  attached := fun _ => .inl rfl
  below_root := fun h => by cases h

/-- Below the root, moving out takes off the last locator and shows the path that was saved for the
ones above it. -/
theorem moveOut_eq {last : Locator} {above : List Locator} (h : c.Placed)
    (hs : c.states.items = last :: above) :
    ∃ path paths, path :: paths = above.tails.map (fun above => pathOf above.reverse) ∧
      c.moveOut = { c with
        path := path
        paths := { c.paths with items := paths }
        states := { c.states with items := above }
        detached := false } := by
  -- The breadcrumbs without the first are those of the locators without the last.
  have hb := h.breadcrumbs
  rw [hs, List.tails_cons, List.map_cons, List.cons.injEq] at hb
  cases hp : c.paths.items with
  | nil =>
    rw [hp] at hb
    cases above <;> simp at hb
  | cons path paths =>
    refine ⟨path, paths, hp ▸ hb.2, ?_⟩
    unfold Cursor.moveOut
    simp [hs, hp]

theorem moveOut (h : c.Placed) : c.moveOut.Placed := by
  cases hs : c.states.items with
  | nil =>
    have hc : c.moveOut = c := by
      unfold Cursor.moveOut
      rw [hs]
      split <;> simp_all
    rwa [hc]
  | cons last above =>
    obtain ⟨path, paths, hb, hc⟩ := h.moveOut_eq hs
    have ha := h.anchored
    rw [hs] at ha
    obtain ⟨node, hn, -⟩ := ha last above List.suffix_rfl
    rw [hc]
    exact {
      breadcrumbs := hb
      anchored := ha.tail
      attached := fun _ => .inl (by simp [trail, Stack.toList, hn])
      below_root := fun hd => by cases hd }

theorem path_eq (h : c.Placed) : c.path = pathOf c.trail := by
  have hb := h.breadcrumbs
  cases hs : c.states.items <;> rw [hs] at hb <;>
    simpa [trail, Stack.toList, hs] using (List.cons.inj hb).1

/-- Changing the node at the cursor and moving to a child that the new node has. -/
theorem intoChild {locator : Locator} {new : Json} (h : c.Placed)
    (hr : (Json.resolve c.trail c.document).isSome) (hd : c.detached = false)
    (hk : new.kind = locator.container)
    (hn : (new.child? locator).isSome ∨
      ∃ position items, locator = .index position ∧ new = .array items ∧
        Number.lastIndex ≤ items.length) :
    (Cursor.intoChild { c with
      document := Json.replace c.trail new c.document } locator).Placed where
  breadcrumbs := by
    simp only [Cursor.intoChild, Stack.items_push, List.tails_cons, List.map_cons, h.breadcrumbs,
      List.reverse_cons, pathOf_append_singleton]
    rw [h.path_eq]
    rfl
  anchored := anchored_cons (anchored_replace hr new) (Json.resolve_replace new hr) hk
  attached := fun _ => by
    have hres : Json.resolve c.trail (Json.replace c.trail new c.document) = some new :=
      Json.resolve_replace new hr
    rcases hn with hn | ⟨position, items, rfl, rfl, hl⟩
    · obtain ⟨child, hc⟩ := Option.isSome_iff_exists.1 hn
      left
      rw [trail_intoChild]
      show (Json.resolve (c.trail ++ [locator]) (Json.replace c.trail new c.document)).isSome
      rw [Json.resolve_append, hres]
      simp [Json.resolve, hc]
    · exact .inr ⟨position, c.states.items, items, rfl, hres, hl⟩
  below_root := fun hd' => by
    rw [detached_intoChild, hd] at hd'
    cases hd'

theorem intoField {mode : FieldMode} {name : String} (h : c.Placed)
    (ho : c.intoField mode name = .ok c') : c'.Placed := by
  obtain ⟨node, new, hc, hf, rfl⟩ := intoField_eq_ok ho
  obtain ⟨hd, hr⟩ := attached_of_current? hc
  obtain ⟨hk, hn⟩ := withField_eq_ok hf
  exact h.intoChild (by simp [hr]) hd hk (.inl hn)

theorem intoIndex {limit position : Nat} (h : c.Placed)
    (ho : c.intoIndex limit position = .ok c') : c'.Placed := by
  obtain ⟨node, new, hc, hf, rfl⟩ := intoIndex_eq_ok ho
  obtain ⟨hd, hr⟩ := attached_of_current? hc
  obtain ⟨items, rfl, hl⟩ := withIndex_eq_ok hf
  refine h.intoChild (by simp [hr]) hd rfl ?_
  rcases Nat.lt_or_ge position items.length with hp | hp
  · exact .inl (by simpa [Json.child?, Json.getIndex?] using hp)
  · -- The array has not been filled up to the position: no array is long enough.
    exact .inr ⟨position, items, rfl, rfl, by omega⟩

/-- An attached cursor is at a node or behind the last item of an array. -/
theorem resolves_or_outside (h : c.Placed) (hd : c.detached = false) :
    (Json.resolve c.trail c.document).isSome ∨
      ∃ position above items, c.states.items = .index position :: above ∧
        Json.resolve above.reverse c.document = some (.array items) ∧
        ¬ position < items.length := by
  rcases h.attached hd with hr | ⟨position, above, items, hs, hp, -⟩
  · exact .inl hr
  · by_cases hlt : position < items.length
    · left
      rw [trail_of_states hs, Json.resolve_append, hp]
      simp [Json.resolve, Json.child?, Json.getIndex?, hlt]
    · exact .inr ⟨position, above, items, hs, hp, hlt⟩

/-- A cursor that has been written to was at a node. -/
theorem resolves_of_write {value : Json} (h : c.Placed) (ho : c.write value = .ok c') :
    c.detached = false ∧ (Json.resolve c.trail c.document).isSome := by
  cases hd : c.detached with
  | true => simp [write_of_detached hd] at ho
  | false =>
    rcases h.resolves_or_outside hd with hr | ⟨position, above, items, hs, hp, hout⟩
    · exact ⟨rfl, hr⟩
    · simp [Cursor.write, hd, hs, modifyParent, hp, withChild, hout, Except.map] at ho

/-- A cursor that has deleted its node was at one. -/
theorem resolves_of_delete (h : c.Placed) (ho : c.delete = .ok c') :
    c.detached = false ∧ (Json.resolve c.trail c.document).isSome := by
  cases hd : c.detached with
  | true => simp [delete_of_detached hd] at ho
  | false =>
    rcases h.resolves_or_outside hd with hr | ⟨position, above, items, hs, hp, hout⟩
    · exact ⟨rfl, hr⟩
    · simp [Cursor.delete, hd, hs, modifyParent, hp, withoutChild, hout, Except.map] at ho

theorem write {value : Json} (h : c.Placed) (ho : c.write value = .ok c') : c'.Placed := by
  obtain ⟨hd, hr⟩ := h.resolves_of_write ho
  rw [write_of_attached hd hr] at ho
  cases ho
  exact {
    breadcrumbs := h.breadcrumbs
    anchored := anchored_replace hr value
    attached := fun _ => .inl (by
      show (Json.resolve c.trail (Json.replace c.trail value c.document)).isSome
      simp [Json.resolve_replace value hr])
    below_root := h.below_root }

theorem delete (h : c.Placed) (ho : c.delete = .ok c') : c'.Placed := by
  obtain ⟨hd, hr⟩ := h.resolves_of_delete ho
  cases hs : c.states.items with
  | nil => simp [delete_of_root hd hs] at ho
  | cons last above =>
    obtain ⟨parent, new, hp, -, hk, hc⟩ := delete_of_attached hs hd hr
    rw [hc] at ho
    cases ho
    have hpr : (Json.resolve above.reverse c.document).isSome := by simp [hp]
    exact {
      breadcrumbs := h.breadcrumbs
      anchored := by
        show Anchored c.states.items _
        rw [hs]
        exact anchored_cons (anchored_replace hpr new) (Json.resolve_replace new hpr) hk
      attached := fun hf => by cases hf
      below_root := fun _ => by
        show c.states.items ≠ []
        simp [hs] }

/-! ### From the invariant -/

theorem length_paths (h : c.Placed) : c.paths.length = c.states.length := by
  have hl := congrArg List.length h.breadcrumbs
  simp only [List.length_cons, List.length_map, List.length_tails] at hl
  exact Nat.succ.inj hl

theorem saved_eq (h : c.Placed) {i : Nat} (hi : i < c.trail.length) :
    c.paths.toList[i]? = some (pathOf (c.trail.take i)) := by
  have hn : c.paths.items.length = c.states.items.length := h.length_paths
  have hi' : i < c.states.items.length := by simpa [trail, Stack.toList] using hi
  -- The saved paths are the ones of the tails behind the whole list of locators.
  have hsaved : c.paths.items =
      (c.states.items.tails.map fun above => pathOf above.reverse).tail := by
    rw [← h.breadcrumbs, List.tail_cons]
  have htail : c.paths.items[c.states.items.length - 1 - i]? =
      some (pathOf (c.states.items.drop (c.states.items.length - i)).reverse) := by
    rw [hsaved, List.getElem?_tail, List.getElem?_map,
      List.getElem?_eq_getElem (by rw [List.length_tails]; omega), Option.map_some,
      List.getElem_tails,
      show c.states.items.length - 1 - i + 1 = c.states.items.length - i by omega]
  rw [Stack.toList, List.getElem?_reverse (by omega), hn, htail, List.reverse_drop]
  simp only [trail, Stack.toList]
  rw [show c.states.items.length - (c.states.items.length - i) = i by omega]

/-- Where no array is as long as an array can be, a placed cursor is coherent. -/
theorem coherent (h : c.Placed)
    (hlen : ∀ trail items, Json.resolve trail c.document = some (.array items) →
      items.length < Number.lastIndex) : c.Coherent where
  length_paths := h.length_paths
  path_eq := h.path_eq
  saved_eq := fun _ hi => h.saved_eq hi
  container := fun above locator below ht => by
    have hs : c.states.items = below.reverse ++ locator :: above.reverse := by
      rw [← List.reverse_reverse c.states.items]
      change c.trail.reverse = _
      simp [ht]
    simpa using h.anchored locator above.reverse ⟨below.reverse, hs.symm⟩
  resolves := fun hd => by
    rcases h.attached hd with hr | ⟨position, above, items, -, hp, hl⟩
    · exact hr
    · exact absurd (hlen _ _ hp) (Nat.not_lt.2 hl)
  below_root := fun hd ht => h.below_root hd (trail_eq_nil_iff.1 ht)

end Placed

end Cursor

end Reshape
