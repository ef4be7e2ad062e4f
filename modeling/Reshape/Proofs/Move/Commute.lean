import Reshape.Proofs.Json.Alike
import Reshape.Proofs.Move.Append
import Reshape.Proofs.Move.SimpleMove

/-!
# Moves in either order

Two moves of one node each, of which neither writes what the other reads or writes, come to the same
document in either order, but for the order of keys. They may make the same objects on their ways,
turn the same node into an array, and fill one array up to different positions.

* `Json.putChild`, a container with a child that need not have been there, and `putChild_comm`;
* `Hop.node_unique` and `Hop.node_of_putChild`, steps that lead to the same node;
* `Direct.writeAt_comm`, two writes in either order, by induction on their common way;
* `Move.apply_comm`, two moves in either order.
-/

namespace Reshape

variable {limit : Nat} {hop hop' : Hop} {document child new : Json} {first second : Place}

/-! ### Containers with a child -/

/-- A container with a child. An array that ends in front of the position is filled up. -/
def Json.putChild (node : Json) (locator : Locator) (child : Json) : Json :=
  match node, locator with
  | .array items, .index position => .array ((Hop.filled position items).set position child)
  | node, locator => node.setChild locator child

namespace Json

theorem kind_putChild (node : Json) (locator : Locator) (child : Json) :
    (node.putChild locator child).kind = node.kind := by
  cases node <;> cases locator <;> rfl

theorem child?_putChild {locator : Locator} {node : Json} (child : Json)
    (h : node.kind = locator.container) :
    (node.putChild locator child).child? locator = some child := by
  cases locator with
  | field name =>
    cases node with
    | object fields => exact Entries.get?_insert_self name child fields
    | _ => cases h
  | index position =>
    cases node with
    | array items =>
      have hlength : position < (Hop.filled position items).length := by
        rw [Hop.length_filled]
        omega
      exact List.getElem?_set_self hlength
    | _ => cases h

/-- The later of two children at one locator counts. -/
theorem setChild_putChild (node : Json) (locator : Locator) (child new : Json) :
    (node.putChild locator child).setChild locator new = node.putChild locator new := by
  cases node <;> cases locator <;>
    simp [putChild, setChild, Entries.insert_insert]

theorem putChild_putChild (node : Json) (locator : Locator) (child new : Json) :
    (node.putChild locator child).putChild locator new = node.putChild locator new := by
  rw [← setChild_putChild node locator child new]
  cases node with
  | array items =>
    cases locator with
    | index position =>
      -- The array has been filled up already.
      have hlength : position + 1 ≤ ((Hop.filled position items).set position child).length := by
        rw [List.length_set, Hop.length_filled]
        omega
      simp only [putChild, setChild]
      rw [Hop.filled, Nat.sub_eq_zero_of_le hlength, List.replicate_zero, List.append_nil]
    | field name => rfl
  | object fields => cases locator <;> rfl
  | _ => rfl

/-- What is at the positions of an array with an item that was put in. -/
theorem getElem?_putItem (position : Nat) (item : Json) (items : List Json) (index : Nat) :
    ((Hop.filled position items).set position item)[index]? =
      if index = position then some item
      else if index < max items.length (position + 1) then some (items[index]?.getD emptyObject)
      else none := by
  rw [List.getElem?_set, Hop.length_filled, Hop.filled, List.getElem?_append,
    List.getElem?_replicate]
  grind

theorem getD_putItem {position index : Nat} (h : index ≠ position) (item : Json)
    (items : List Json) :
    ((Hop.filled position items).set position item)[index]?.getD emptyObject =
      items[index]?.getD emptyObject := by
  rw [getElem?_putItem, if_neg h]
  split
  · rfl
  case isFalse hlength =>
    have hnone : items[index]? = none := by
      rw [List.getElem?_eq_none_iff]
      omega
    rw [hnone]

theorem putItem_comm {position other : Nat} (h : position ≠ other) (item item' : Json)
    (items : List Json) :
    (Hop.filled other ((Hop.filled position items).set position item)).set other item' =
      (Hop.filled position ((Hop.filled other items).set other item')).set position item := by
  refine List.ext_getElem? fun index => ?_
  have hlength (position : Nat) (item : Json) :
      ((Hop.filled position items).set position item).length =
        max items.length (position + 1) := by
    rw [List.length_set, Hop.length_filled]
  simp only [getElem?_putItem, hlength]
  grind

/-- Two children of one container are put in, in either order. -/
theorem putChild_comm {locator other : Locator} (h : locator.Apart other) (child child' : Json)
    (node : Json) :
    Alike (· = ·) ((node.putChild locator child).putChild other child')
      ((node.putChild other child').putChild locator child) := by
  have hrefl (v : Json) : Alike (· = ·) v v := .refl (fun _ => rfl) v
  cases node with
  | array items =>
    cases locator with
    | index position =>
      cases other with
      | index position' =>
        have hitems := putItem_comm h child child' items
        show Alike _ (.array _) (.array _)
        rw [hitems]
        exact hrefl _
      | field name => exact h.elim
    | field name =>
      cases other with
      | index position => exact h.elim
      | field name' => exact hrefl _
  | object fields =>
    cases locator with
    | field name =>
      cases other with
      | field name' =>
        exact .of_perm (fun _ => rfl) (Entries.perm_insert_insert h child child' fields)
      | index position => exact h.elim
    | index position =>
      cases other with
      | field name => exact h.elim
      | index position' => exact hrefl _
  | _ => exact hrefl _

/-- Children that are alike, in one container. -/
theorem Alike.putChild {child child' : Json} (h : Alike (· = ·) child child') (locator : Locator)
    (node : Json) : Alike (· = ·) (node.putChild locator child) (node.putChild locator child') := by
  rw [← setChild_putChild node locator child child, ← setChild_putChild node locator child child']
  exact h.setChild (fun _ => rfl) _ _

end Json

/-! ### Steps -/

/-- Behind a step, the container has room for any child at its locator. -/
theorem Hop.setChild_of_enter (h : hop.enter limit document = .ok first) (new : Json) :
    first.document.setChild hop.locator new = document.putChild hop.locator new := by
  unfold enter at h
  split at h
  case h_1 =>
    cases h
    exact congrArg Json.object (Entries.insert_insert _ _ _ _)
  case h_2 =>
    split at h
    · cases h
    · cases h
      rfl
  case h_3 => cases h

/-- Steps along one locator lead to one node, if what they lead to is of one kind. -/
theorem Hop.node_unique (h : hop.enter limit document = .ok first)
    (h' : hop'.enter limit document = .ok second) (hsame : hop.locator = hop'.locator)
    {locator : Locator} (hkind : first.node.kind = locator.container)
    (hkind' : second.node.kind = locator.container) : first.node = second.node := by
  have hkinds : first.node.kind = second.node.kind := hkind.trans hkind'.symm
  rcases enter_cases h with ⟨hfound, -⟩ | ⟨hblank, hchild⟩
  · obtain ⟨hfound, -⟩ := find?_eq_some.1 hfound
    rw [hsame] at hfound
    rcases enter_cases h' with ⟨hfound', -⟩ | ⟨-, hchild'⟩
    · exact Option.some.inj (hfound.symm.trans (find?_eq_some.1 hfound').1)
    · obtain ⟨hother, harray⟩ := hchild' _ hfound
      exact (hother (hkinds.trans harray)).elim
  · rcases enter_cases h' with ⟨hfound', -⟩ | ⟨hblank', -⟩
    · obtain ⟨hfound', -⟩ := find?_eq_some.1 hfound'
      rw [← hsame] at hfound'
      obtain ⟨hother, harray⟩ := hchild _ hfound'
      exact (hother (hkinds.symm.trans harray)).elim
    · exact hblank.eq hblank' hkind hkind'

/-- A step leads to the child that was put in, if what it leads to is of the kind of this child. -/
theorem Hop.node_of_putChild
    (h : hop.enter limit (document.putChild hop.locator child) = .ok first)
    (hkind : first.node.kind = child.kind) : first.node = child := by
  have hcontainer : document.kind = hop.locator.container :=
    (Json.kind_putChild _ _ _).symm.trans (kind_of_enter h)
  have hchild := Json.child?_putChild child hcontainer
  rcases enter_cases h with ⟨hfound, -⟩ | ⟨-, hother⟩
  · exact Option.some.inj ((find?_eq_some.1 hfound).1.symm.trans hchild)
  · obtain ⟨hne, harray⟩ := hother child hchild
    exact (hne (hkind.symm.trans harray)).elim

/-- A step does not see a child at another locator. -/
theorem Hop.node_of_putChild_apart {locator : Locator} (hapart : locator.Apart hop.locator)
    (h : hop.enter limit document = .ok first)
    (h' : hop.enter limit (document.putChild locator child) = .ok second) :
    second.node = first.node := by
  cases hop with
  | field mode name =>
    cases locator with
    | index position => exact hapart.elim
    | field name' =>
      cases document with
      | object fields =>
        cases h
        cases h'
        show entered mode _ = entered mode _
        rw [Entries.get?_insert_of_ne hapart]
      | _ => cases h
  | item position =>
    cases position with
    | none => cases document <;> cases h
    | some position =>
      cases locator with
      | field name => exact hapart.elim
      | index position' =>
        cases document with
        | array items =>
          simp only [enter, Json.putChild] at h h'
          split at h
          · cases h
          split at h'
          · cases h'
          cases h
          cases h'
          exact Json.getD_putItem hapart.symm child items
        | _ => cases h

/-! ### Writes -/

namespace Direct

variable {walk walk' rest : List Hop} {value value' document' : Json}

/-- A write is a write behind its first step. -/
theorem exists_of_writeAt_cons (h : writeAt limit (hop :: rest) value document = .ok document') :
    ∃ first new, hop.enter limit document = .ok first ∧
      writeAt limit rest value first.node = .ok new ∧
      document' = document.putChild hop.locator new := by
  obtain ⟨first, new, hfirst, hnew, rfl⟩ := writeAt_cons h
  exact ⟨first, new, hfirst, hnew, Hop.setChild_of_enter hfirst new⟩

/-- A write goes into a container, and leaves a container of the same kind. -/
theorem kind_of_writeAt_cons (h : writeAt limit (hop :: rest) value document = .ok document') :
    document.kind = hop.locator.container ∧ document'.kind = hop.locator.container := by
  obtain ⟨first, new, hfirst, -, rfl⟩ := exists_of_writeAt_cons h
  have hkind := Hop.kind_of_enter hfirst
  exact ⟨hkind, (Json.kind_putChild _ _ _).trans hkind⟩

/-- Two writes through one child, one behind the other, are writes to the child. -/
theorem exists_of_writeAt_writeAt {next next' : Hop} {rest' : List Hop} {afterFirst left : Json}
    (hfirst : writeAt limit (hop :: next :: rest) value document = .ok afterFirst)
    (hleft : writeAt limit (hop' :: next' :: rest') value' afterFirst = .ok left)
    (hsame : hop.locator = hop'.locator)
    (hcontainer : next.locator.container = next'.locator.container) :
    ∃ first new last, hop.enter limit document = .ok first ∧
      writeAt limit (next :: rest) value first.node = .ok new ∧
      writeAt limit (next' :: rest') value' new = .ok last ∧
      left = document.putChild hop.locator last := by
  obtain ⟨first, new, henter, hnew, rfl⟩ := exists_of_writeAt_cons hfirst
  obtain ⟨again, last, hagain, hlast, rfl⟩ := exists_of_writeAt_cons hleft
  -- The second step leaves the child, as both writes go on into a container of one kind.
  have hkind : again.node.kind = new.kind := by
    rw [(kind_of_writeAt_cons hlast).1, (kind_of_writeAt_cons hnew).2, hcontainer]
  rw [hsame] at hagain
  rw [Hop.node_of_putChild hagain hkind] at hlast
  refine ⟨first, new, last, henter, hnew, hlast, ?_⟩
  rw [← hsame, Json.putChild_putChild]

/-- **Two writes come to the same document in either order**, but for the order of keys, if their
trails part. -/
theorem writeAt_comm {afterFirst afterSecond left right : Json}
    (hfirst : writeAt limit walk value document = .ok afterFirst)
    (hleft : writeAt limit walk' value' afterFirst = .ok left)
    (hsecond : writeAt limit walk' value' document = .ok afterSecond)
    (hright : writeAt limit walk value afterSecond = .ok right)
    (hapart : Apart (trailOf walk) (trailOf walk')) : Json.Alike (· = ·) left right := by
  induction walk generalizing walk' document afterFirst afterSecond left right with
  | nil => exact hapart.elim
  | cons hop rest ih =>
    cases walk' with
    | nil => exact (hapart.ne_nil rfl).elim
    | cons hop' rest' =>
      by_cases hsame : hop.locator = hop'.locator
      · -- The writes go into one child, where their trails part further down.
        have hbelow : Apart (trailOf rest) (trailOf rest') := by
          rw [← Apart.cons_self hop.locator]
          simpa [trailOf, hsame] using hapart
        cases rest with
        | nil => exact hbelow.elim
        | cons next rest =>
          cases rest' with
          | nil => exact (hbelow.ne_nil rfl).elim
          | cons next' rest' =>
            have hcontainer : next.locator.container = next'.locator.container :=
              hbelow.container_eq
            obtain ⟨first, new, last', henter, hnew, hlast', rfl⟩ :=
              exists_of_writeAt_writeAt hfirst hleft hsame hcontainer
            obtain ⟨second, new', last, henter', hnew', hlast, rfl⟩ :=
              exists_of_writeAt_writeAt hsecond hright hsame.symm hcontainer.symm
            have hkind := (kind_of_writeAt_cons hnew).1
            have hkind' := (kind_of_writeAt_cons hnew').1
            rw [← hcontainer] at hkind'
            rw [← Hop.node_unique henter henter' hsame hkind hkind'] at hnew'
            rw [← hsame]
            exact (ih hnew hlast' hnew' hlast hbelow).putChild hop.locator document
      · -- The writes go into two children, of which neither step sees the other.
        have hlocators : hop.locator.Apart hop'.locator := by
          simpa only [trailOf, List.map_cons, Apart, if_neg hsame] using hapart
        obtain ⟨first, new, henter, hnew, rfl⟩ := exists_of_writeAt_cons hfirst
        obtain ⟨second, new', henter', hnew', rfl⟩ := exists_of_writeAt_cons hsecond
        obtain ⟨again', last', hagain', hlast', rfl⟩ := exists_of_writeAt_cons hleft
        obtain ⟨again, last, hagain, hlast, rfl⟩ := exists_of_writeAt_cons hright
        rw [Hop.node_of_putChild_apart hlocators henter' hagain', hnew'] at hlast'
        rw [Hop.node_of_putChild_apart hlocators.symm henter hagain, hnew] at hlast
        cases hlast'
        cases hlast
        exact Json.putChild_comm hlocators new new' document

end Direct

/-! ### Moves -/

namespace Move

variable {source target source' target' : List Component}

/-- A move whose node is found writes what it has for the node. -/
theorem writeAt_of_apply {move : Move} (hpaths : move.paths = .ok (source, target))
    (hsource : ∀ component ∈ source, component.IsSingle)
    (htarget : ∀ component ∈ target, component.IsSingle) {document' value : Json}
    (hvalue : find? (hops .object source) document = some value)
    (h : move.apply document = .ok document') :
    Direct.writeAt ({} : Limits).arrayPadding (hops .leaf target)
      (Direct.mapped move.mapping value) document = .ok document' := by
  rw [← Direct.copyOne_of_find? hvalue]
  exact copyOne_of_apply hpaths hsource htarget h

/-- **Two moves of one node each come to the same document in either order**, but for the order of
keys, if neither writes what the other reads or writes. -/
theorem apply_comm {first second : Move} (hpaths : first.paths = .ok (source, target))
    (hpaths' : second.paths = .ok (source', target'))
    (hsource : ∀ component ∈ source, component.IsSingle)
    (htarget : ∀ component ∈ target, component.IsSingle)
    (hsource' : ∀ component ∈ source', component.IsSingle)
    (htarget' : ∀ component ∈ target', component.IsSingle)
    {value value' afterFirst afterSecond left right : Json}
    (hvalue : find? (hops .object source) document = some value)
    (hvalue' : find? (hops .object source') document = some value')
    (hread : Apart (trailOf (hops .object source)) (trailOf (hops .leaf target')))
    (hread' : Apart (trailOf (hops .object source')) (trailOf (hops .leaf target)))
    (hwritten : Apart (trailOf (hops .leaf target)) (trailOf (hops .leaf target')))
    (hfirst : first.apply document = .ok afterFirst)
    (hleft : second.apply afterFirst = .ok left)
    (hsecond : second.apply document = .ok afterSecond)
    (hright : first.apply afterSecond = .ok right) : Json.Alike (· = ·) left right := by
  replace hfirst := writeAt_of_apply hpaths hsource htarget hvalue hfirst
  replace hsecond := writeAt_of_apply hpaths' hsource' htarget' hvalue' hsecond
  -- Each move finds its node behind the other as it was.
  have hkept := Direct.find?_of_writeAt hsecond hread hvalue
  have hkept' := Direct.find?_of_writeAt hfirst hread' hvalue'
  replace hleft := writeAt_of_apply hpaths' hsource' htarget' hkept' hleft
  replace hright := writeAt_of_apply hpaths hsource htarget hkept hright
  exact Direct.writeAt_comm hfirst hleft hsecond hright hwritten

/-- Both moves make the object that they write into, and each puts its own key in first. -/
theorem apply_comm_of_new_object :
    ∃ afterFirst afterSecond left right,
      Move.apply ⟨"$.s.p", "$.n.a[1].x", some [("u", .bool true)]⟩
          (.object [("s", .object [("p", .text "u"), ("q", .text "v")])]) = .ok afterFirst ∧
      Move.apply ⟨"$.s.q", "$.n.b", none⟩ afterFirst = .ok left ∧
      Move.apply ⟨"$.s.q", "$.n.b", none⟩
          (.object [("s", .object [("p", .text "u"), ("q", .text "v")])]) = .ok afterSecond ∧
      Move.apply ⟨"$.s.p", "$.n.a[1].x", some [("u", .bool true)]⟩ afterSecond = .ok right ∧
      Json.Alike (· = ·) left right ∧ left ≠ right := by
  have hitem : position? 1 = some 1 := by decide +kernel
  have hsingle : ∀ component ∈ [Component.field "s", .field "p"], component.IsSingle := by
    simp [Component.IsSingle, Component.isPattern]
  have hsingle' : ∀ component ∈ [Component.field "s", .field "q"], component.IsSingle := by
    simp [Component.IsSingle, Component.isPattern]
  have htarget : ∀ component ∈ [Component.field "n", .arrayIndex "a" 1, .field "x"],
      component.IsSingle := by
    simp [Component.IsSingle, Component.isPattern]
  have htarget' : ∀ component ∈ [Component.field "n", .field "b"], component.IsSingle := by
    simp [Component.IsSingle, Component.isPattern]
  have hwalk : hops .leaf [.field "n", .arrayIndex "a" 1, .field "x"] =
      [.field .object "n", .field .array "a", .item (some 1), .field .leaf "x"] := by
    simp [hops, Component.hops, intoArray, hitem]
  obtain ⟨afterFirst, hfirst⟩ := exists_ok_of_isOk (x :=
    Move.apply ⟨"$.s.p", "$.n.a[1].x", some [("u", .bool true)]⟩
      (.object [("s", .object [("p", .text "u"), ("q", .text "v")])])) (by decide +kernel)
  have hwrite := @writeAt_of_apply _ _ _ _ rfl hsingle htarget _ (.text "u") rfl hfirst
  rw [hwalk] at hwrite
  obtain rfl : afterFirst = .object [("s", .object [("p", .text "u"), ("q", .text "v")]),
      ("n", .object [("a", .array [.object [], .object [("x", .bool true)]])])] :=
    (Except.ok.inj hwrite).symm
  obtain ⟨left, hleft⟩ := exists_ok_of_isOk (x := Move.apply ⟨"$.s.q", "$.n.b", none⟩
    (.object [("s", .object [("p", .text "u"), ("q", .text "v")]),
      ("n", .object [("a", .array [.object [], .object [("x", .bool true)]])])]))
    (by decide +kernel)
  have hwrite := @writeAt_of_apply _ _ _ _ rfl hsingle' htarget' _ (.text "v") rfl hleft
  obtain rfl : left = .object [("s", .object [("p", .text "u"), ("q", .text "v")]),
      ("n", .object [("a", .array [.object [], .object [("x", .bool true)]]),
        ("b", .text "v")])] := (Except.ok.inj hwrite).symm
  obtain ⟨afterSecond, hsecond⟩ := exists_ok_of_isOk (x := Move.apply ⟨"$.s.q", "$.n.b", none⟩
    (.object [("s", .object [("p", .text "u"), ("q", .text "v")])])) (by decide +kernel)
  have hwrite := @writeAt_of_apply _ _ _ _ rfl hsingle' htarget' _ (.text "v") rfl hsecond
  obtain rfl : afterSecond = .object [("s", .object [("p", .text "u"), ("q", .text "v")]),
      ("n", .object [("b", .text "v")])] := (Except.ok.inj hwrite).symm
  obtain ⟨right, hright⟩ := exists_ok_of_isOk (x :=
    Move.apply ⟨"$.s.p", "$.n.a[1].x", some [("u", .bool true)]⟩ (.object
      [("s", .object [("p", .text "u"), ("q", .text "v")]),
        ("n", .object [("b", .text "v")])])) (by decide +kernel)
  have hwrite := @writeAt_of_apply _ _ _ _ rfl hsingle htarget _ (.text "u") rfl hright
  rw [hwalk] at hwrite
  obtain rfl : right = .object [("s", .object [("p", .text "u"), ("q", .text "v")]),
      ("n", .object [("b", .text "v"),
        ("a", .array [.object [], .object [("x", .bool true)]])])] :=
    (Except.ok.inj hwrite).symm
  refine ⟨_, _, _, _, hfirst, hleft, hsecond, hright, ?_, ?_⟩
  · refine apply_comm rfl rfl hsingle htarget hsingle' htarget' rfl rfl ?_ ?_ ?_ hfirst hleft
      hsecond hright
    · decide +kernel
    · decide +kernel
    · decide +kernel
  · simp

end Move

end Reshape
