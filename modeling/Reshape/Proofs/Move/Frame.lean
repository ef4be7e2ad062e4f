import Reshape.Proofs.Move.Walk

/-!
# What a walk leaves alone

A walk changes a document only on its own way. A node of which the trail parts from the way is
found again, and with it everything that has to be there for the node to be found.

* `find?`, the node at the end of a walk that has nothing to put in and nothing to replace, and
  `locate_of_find?`;
* `Hop.enter_cases`, what a step has found, and `Hop.child?_of_enter`, what it leaves alone;
* `find?_of_locate`, the frame of a walk, and `find?_replace`, that of a replacement, with
  `find?_replace_behind` for a node that the replacement is inside of and `find?_replace_node` for
  the node that is replaced;
* `node_of_locate`, what a walk leads to, and `exists_fields_of_locate`, the objects on its way;
* `itemCount`, the number of items at a trail, and `itemCount_of_locate`.
-/

namespace Reshape

variable {limit : Nat} {hop : Hop} {walk : List Hop} {document node : Json} {first place : Place}

/-- The document behind a step has what is behind the rest of the walk in the node of the step. -/
theorem Hop.document_within (h : hop.enter limit document = .ok first) (last : Place) :
    (last.within first).document = first.document.setChild hop.locator last.document := by
  have hr := first.resolves
  rw [trail_of_enter h] at hr
  obtain ⟨child, hc, -⟩ := Json.exists_child_of_resolve (Option.isSome_of_eq_some hr)
  show Json.replace first.trail last.document first.document = _
  rw [trail_of_enter h, Json.replace_cons hc]
  rfl

/-! ### Finding a node -/

/-- Whether a step leaves what is there. -/
def Hop.accepts : Hop → Json → Bool
  | .field mode _, node => mode.accepts node
  | .item position, _ => position.isSome

/-- The node behind a step that changes nothing. -/
def Hop.find? (hop : Hop) (node : Json) : Option Json :=
  (node.child? hop.locator).filter hop.accepts

/-- The node at the end of a walk that changes nothing. -/
def find? : List Hop → Json → Option Json
  | [], node => some node
  | hop :: rest, node => (hop.find? node).bind (find? rest)

theorem Hop.find?_eq_some {child : Json} :
    hop.find? node = some child ↔ node.child? hop.locator = some child ∧ hop.accepts child :=
  Option.filter_eq_some_iff

/-- What a step leaves is a matter of its kind. -/
theorem Hop.accepts_of_kind (hop : Hop) {other : Json} (h : node.kind = other.kind) :
    hop.accepts node = hop.accepts other := by
  cases hop with
  | item position => rfl
  | field mode name =>
    cases mode <;> cases node <;> cases other <;> first | rfl | cases h

/-- A step to a node that it leaves changes nothing. -/
theorem Hop.enter_of_find? (limit : Nat) {child : Json} (h : hop.find? document = some child) :
    ∃ first, hop.enter limit document = .ok first ∧ first.document = document ∧
      first.node = child := by
  obtain ⟨hc, ha⟩ := find?_eq_some.1 h
  cases hop with
  | field mode name =>
    cases document with
    | object fields =>
      have he : entered mode (Entries.get? name fields) = child := by
        replace hc : Entries.get? name fields = some child := hc
        replace ha : mode.accepts child = true := ha
        simp [entered, hc, Option.filter, ha]
      refine ⟨_, rfl, ?_, he⟩
      exact congrArg Json.object (Entries.insert_of_get? (hc.trans (congrArg some he.symm)))
    | _ => cases hc
  | item position =>
    cases position with
    | none => cases ha
    | some position =>
      cases document with
      | array items =>
        replace hc : items[position]? = some child := hc
        obtain ⟨hlt, -⟩ := List.getElem?_eq_some_iff.1 hc
        have hfits : ¬ limit < position + 1 - items.length := by omega
        refine ⟨_, if_neg hfits, ?_, ?_⟩
        · show Json.array (filled position items) = _
          simp [filled, Nat.sub_eq_zero_of_le hlt]
        · show items[position]?.getD _ = child
          simp [hc]
      | _ => cases hc

theorem find?_cons {rest : List Hop} :
    find? (hop :: rest) document = some node ↔
      ∃ child, hop.find? document = some child ∧ find? rest child = some node :=
  Option.bind_eq_some_iff

theorem find?_append (walk rest : List Hop) (document : Json) :
    find? (walk ++ rest) document = (find? walk document).bind (find? rest) := by
  induction walk generalizing document with
  | nil => rfl
  | cons hop walk ih =>
    cases h : hop.find? document with
    | none => simp [find?, h]
    | some child => simp [find?, h, ih]

theorem resolve_of_find? (h : find? walk document = some node) :
    Json.resolve (trailOf walk) document = some node := by
  induction walk generalizing document with
  | nil => exact h
  | cons hop rest ih =>
    obtain ⟨child, hc, h⟩ := find?_cons.1 h
    exact (Json.resolve_cons (Hop.find?_eq_some.1 hc).1 _).trans (ih h)

/-- The walk along a trail, which leaves everything. -/
def alongTrail (trail : List Locator) : List Hop :=
  trail.map fun
    | .field name => .field .leaf name
    | .index position => .item (some position)

theorem trailOf_alongTrail (trail : List Locator) : trailOf (alongTrail trail) = trail := by
  induction trail with
  | nil => rfl
  | cons locator rest ih => cases locator <;> exact congrArg (_ :: ·) ih

theorem find?_alongTrail (trail : List Locator) (document : Json) :
    find? (alongTrail trail) document = Json.resolve trail document := by
  induction trail generalizing document with
  | nil => rfl
  | cons locator rest ih =>
    have hfind (hop : Hop) (hl : hop.locator = locator) (ha : ∀ child, hop.accepts child = true) :
        (hop.find? document).bind (find? (alongTrail rest)) =
          (document.child? locator).bind (Json.resolve rest) := by
      rw [Hop.find?, hl]
      cases document.child? locator with
      | none => rfl
      | some child => simp [Option.filter, ha, ih]
    cases locator with
    | field name => exact hfind (.field .leaf name) rfl fun _ => rfl
    | index position => exact hfind (.item (some position)) rfl fun _ => rfl

/-- A walk that finds a node leads to it and changes nothing. -/
theorem locate_of_find? (limit : Nat) (h : find? walk document = some node) :
    ∃ place, locate limit walk document = .ok place ∧ place.document = document ∧
      place.node = node := by
  induction walk generalizing document with
  | nil =>
    cases h
    exact ⟨.atRoot _, rfl, rfl, rfl⟩
  | cons hop rest ih =>
    obtain ⟨child, hc, h⟩ := find?_cons.1 h
    obtain ⟨first, hf, hd, rfl⟩ := Hop.enter_of_find? limit hc
    obtain ⟨last, hl, hlast, rfl⟩ := ih h
    refine ⟨last.within first, by simp [locate, hf, hl], ?_, rfl⟩
    rw [Hop.document_within hf, hd, hlast, Json.setChild_child (Hop.find?_eq_some.1 hc).1]

/-! ### What a step has found -/

/-- A node without children. -/
def Blank (node : Json) : Prop := ∀ locator, node.child? locator = none

theorem blank_initial (mode : FieldMode) : Blank mode.initial := by
  intro locator
  cases mode <;> cases locator <;> rfl

theorem blank_emptyObject : Blank Json.emptyObject := blank_initial .object

theorem Blank.items_eq_nil {items : List Json} (h : Blank (.array items)) : items = [] := by
  cases items with
  | nil => rfl
  | cons item items => cases h (.index 0)

theorem Blank.fields_eq_nil {fields : List (String × Json)} (h : Blank (.object fields)) :
    fields = [] := by
  cases fields with
  | nil => rfl
  | cons entry fields =>
    have hnone := h (.field entry.1)
    simp [Json.child?, Json.get?, Entries.get?] at hnone

/-- There is one container of each kind without children. -/
theorem Blank.eq {other : Json} (h : Blank node) (h' : Blank other) {locator : Locator}
    (hkind : node.kind = locator.container) (hkind' : other.kind = locator.container) :
    node = other := by
  cases locator with
  | field name =>
    cases node with
    | object fields =>
      cases other with
      | object fields' => rw [h.fields_eq_nil, h'.fields_eq_nil]
      | _ => cases hkind'
    | _ => cases hkind
  | index position =>
    cases node with
    | array items =>
      cases other with
      | array items' => rw [h.items_eq_nil, h'.items_eq_nil]
      | _ => cases hkind'
    | _ => cases hkind

namespace Hop

theorem kind_of_enter (h : hop.enter limit document = .ok first) :
    document.kind = hop.locator.container := by
  unfold enter at h
  split at h
  · rfl
  · rfl
  · cases h

/-- A step leads to the child that is there or to an empty one. The latter is an array, if it is in
place of a child, and that child was none. -/
theorem enter_cases (h : hop.enter limit document = .ok first) :
    (hop.find? document = some first.node ∧ first.document = document) ∨
      (Blank first.node ∧ ∀ child, document.child? hop.locator = some child →
        child.kind ≠ .array ∧ first.node.kind = .array) := by
  by_cases hfound : ∃ child, hop.find? document = some child
  · obtain ⟨child, hc⟩ := hfound
    obtain ⟨again, ha, hd, rfl⟩ := enter_of_find? limit hc
    cases h.symm.trans ha
    exact .inl ⟨hc, hd⟩
  right
  unfold enter at h
  split at h
  case h_1 mode name fields =>
    cases h
    have hnone : (Entries.get? name fields).filter mode.accepts = none := by
      rw [Option.eq_none_iff_forall_ne_some]
      intro child hc
      exact hfound ⟨child, hc⟩
    constructor
    · show Blank (entered mode _)
      rw [entered, hnone]
      exact blank_initial mode
    · intro child hc
      replace hc : Entries.get? name fields = some child := hc
      rw [hc] at hnone
      have hrefused : mode.accepts child = false := by simpa [Option.filter] using hnone
      show _ ∧ (entered mode _).kind = _
      rw [entered, hc, hnone]
      cases mode with
      | array =>
        refine ⟨?_, rfl⟩
        intro hk
        cases child <;> cases hk
        cases hrefused
      | object => cases hrefused
      | leaf => cases hrefused
  case h_2 position items =>
    split at h
    · cases h
    · cases h
      have hnone : items[position]? = none := by
        rw [Option.eq_none_iff_forall_ne_some]
        intro child hc
        exact hfound ⟨child, find?_eq_some.2 ⟨hc, rfl⟩⟩
      constructor
      · show Blank (items[position]?.getD _)
        rw [hnone]
        exact blank_emptyObject
      · intro child hc
        cases hnone.symm.trans hc
  case h_3 => cases h

/-- A step leaves the other children. -/
theorem child?_of_enter (h : hop.enter limit document = .ok first) {other : Locator}
    (hne : hop.locator ≠ other) {child : Json} (hc : document.child? other = some child) :
    first.document.child? other = some child := by
  unfold enter at h
  split at h
  case h_1 mode name fields =>
    cases h
    exact (Json.child?_setChild_of_ne hne (.object fields) _).trans hc
  case h_2 position items =>
    split at h
    · cases h
    · cases h
      cases other with
      | field name => cases hc
      | index index =>
        replace hc : items[index]? = some child := hc
        obtain ⟨hlt, -⟩ := List.getElem?_eq_some_iff.1 hc
        show (filled position items)[index]? = some child
        rw [filled, List.getElem?_append_left hlt, hc]
  case h_3 => cases h

theorem kind_document_of_enter (h : hop.enter limit document = .ok first) :
    first.document.kind = document.kind := by
  unfold enter at h
  split at h
  · cases h
    rfl
  · split at h
    · cases h
    · cases h
      rfl
  · cases h

end Hop

/-! ### What a walk leaves alone -/

/-- A walk leaves the kind of the document. -/
theorem kind_of_locate (h : locate limit walk document = .ok place) :
    place.document.kind = document.kind := by
  cases walk with
  | nil =>
    cases h
    rfl
  | cons hop rest =>
    obtain ⟨first, hf, h⟩ := bind_eq_ok.1 h
    obtain ⟨last, -, h⟩ := bind_eq_ok.1 h
    cases h
    rw [Hop.document_within hf, Json.kind_setChild, Hop.kind_document_of_enter hf]

/-- A walk from an array goes to an item. -/
theorem container_of_locate (h : locate limit walk document = .ok place)
    (hkind : document.kind = .array) {rest : List Locator}
    (hrest : ∀ locator ∈ rest.head?, locator.container = .array) :
    ∀ locator ∈ (trailOf walk ++ rest).head?, locator.container = .array := by
  cases walk with
  | nil => exact hrest
  | cons hop walk =>
    obtain ⟨first, hf, -⟩ := bind_eq_ok.1 h
    intro locator hl
    cases hl
    rw [← Hop.kind_of_enter hf, hkind]

/-- Where a trail parts from the way to a node, its first locator tells the kind of the document. -/
theorem kind_of_find? (h : find? walk document = some node) {trail : List Locator}
    (hapart : Apart (trailOf walk) trail) {kind : Json.Kind}
    (htrail : ∀ locator ∈ trail.head?, locator.container = kind) : document.kind = kind := by
  cases walk with
  | nil => exact hapart.elim
  | cons hop walk =>
    cases trail with
    | nil => exact hapart.elim
    | cons locator trail =>
      obtain ⟨child, hc, -⟩ := find?_cons.1 h
      rw [Json.kind_of_child? (Hop.find?_eq_some.1 hc).1, hapart.container_eq]
      exact htrail locator rfl

/-- A node of which the trail parts from that of a walk, or from a trail through an item at its end,
is found after the walk as before. -/
theorem find?_of_locate (h : locate limit walk document = .ok place) {rest : List Locator}
    (hrest : ∀ locator ∈ rest.head?, locator.container = .array) {other : List Hop}
    (hapart : Apart (trailOf other) (trailOf walk ++ rest))
    (hfind : find? other document = some node) : find? other place.document = some node := by
  induction walk generalizing document other place with
  | nil =>
    cases h
    exact hfind
  | cons hop walk ih =>
    obtain ⟨first, hf, h⟩ := bind_eq_ok.1 h
    obtain ⟨last, hl, h⟩ := bind_eq_ok.1 h
    cases h
    cases other with
    | nil => exact hapart.elim
    | cons step others =>
      obtain ⟨child, hc, hfind⟩ := find?_cons.1 hfind
      obtain ⟨hchild, haccepts⟩ := Hop.find?_eq_some.1 hc
      rw [Hop.document_within hf]
      by_cases hsame : step.locator = hop.locator
      · have hbehind : Apart (trailOf others) (trailOf walk ++ rest) := by
          rw [← Apart.cons_self hop.locator]
          simpa [trailOf, hsame] using hapart
        rw [hsame] at hchild
        rcases Hop.enter_cases hf with ⟨hfound, hd⟩ | ⟨-, hblank⟩
        · -- The walks share this step, and it has changed nothing.
          obtain ⟨hfound, -⟩ := Hop.find?_eq_some.1 hfound
          cases hfound.symm.trans hchild
          refine find?_cons.2 ⟨last.document, ?_, ih hl hbehind hfind⟩
          refine Hop.find?_eq_some.2 ⟨?_, ?_⟩
          · rw [hsame, hd]
            exact Json.child?_setChild (by simp [hchild])
          · rwa [Hop.accepts_of_kind _ (kind_of_locate hl)]
        · -- The child would have been replaced by an array, but both walks go on into an array.
          obtain ⟨hother, harray⟩ := hblank child hchild
          exact (hother (kind_of_find? hfind hbehind (container_of_locate hl harray hrest))).elim
      · refine find?_cons.2 ⟨child, Hop.find?_eq_some.2 ⟨?_, haccepts⟩, hfind⟩
        rw [Json.child?_setChild_of_ne (Ne.symm hsame)]
        exact Hop.child?_of_enter hf (Ne.symm hsame) hchild

/-- A node of which the trail parts from that of a replacement is found as before. -/
theorem find?_replace {trail : List Locator} {other : List Hop}
    (hapart : Apart (trailOf other) trail) (new document : Json) :
    find? other (Json.replace trail new document) = find? other document := by
  induction other generalizing trail document with
  | nil => exact hapart.elim
  | cons hop rest ih =>
    cases trail with
    | nil => exact hapart.elim
    | cons locator trail =>
      cases hc : document.child? locator with
      | none => simp [Json.replace, hc]
      | some child =>
        rw [Json.replace_cons hc, find?, find?, Hop.find?, Hop.find?]
        by_cases hsame : hop.locator = locator
        · have hbehind : Apart (trailOf rest) trail := by
            rw [← Apart.cons_self locator]
            simpa [trailOf, hsame] using hapart
          rw [hsame, Json.child?_setChild (by simp [hc]), hc]
          have haccepts := hop.accepts_of_kind (Json.kind_replace hbehind.ne_nil new child)
          simp only [Option.filter, haccepts]
          split
          · exact ih hbehind child
          · rfl
        · rw [Json.child?_setChild_of_ne (Ne.symm hsame)]

/-- A node that a replacement is behind of is found as before, with the replacement in it, if what
is put in is of the same kind as what was there. -/
theorem find?_replace_behind {other : List Hop} {below : List Locator} {old : Json}
    (hfind : find? other document = some node)
    (hold : Json.resolve (trailOf other ++ below) document = some old) (new : Json)
    (hkind : new.kind = old.kind) :
    find? other (Json.replace (trailOf other ++ below) new document) =
      some (Json.replace below new node) := by
  induction other generalizing document with
  | nil =>
    cases hfind
    rfl
  | cons hop other ih =>
    obtain ⟨child, hc, hfind⟩ := find?_cons.1 hfind
    obtain ⟨hchild, haccepts⟩ := Hop.find?_eq_some.1 hc
    replace hold : Json.resolve (hop.locator :: (trailOf other ++ below)) document = some old :=
      hold
    rw [Json.resolve_cons hchild] at hold
    show find? (hop :: other)
      (Json.replace (hop.locator :: (trailOf other ++ below)) new document) = _
    rw [Json.replace_cons hchild]
    refine find?_cons.2 ⟨_, Hop.find?_eq_some.2 ⟨?_, ?_⟩, ih hfind hold⟩
    · exact Json.child?_setChild (by simp [hchild])
    · rwa [hop.accepts_of_kind (Json.kind_replace_of_kind hold hkind)]

/-- What is put in place of a node is found, if it is of the same kind. -/
theorem find?_replace_node {other : List Hop} (hfind : find? other document = some node)
    (new : Json) (hkind : new.kind = node.kind) :
    find? other (Json.replace (trailOf other) new document) = some new := by
  have hresolve : Json.resolve (trailOf other ++ []) document = some node := by
    rw [List.append_nil]
    exact resolve_of_find? hfind
  have hnew := find?_replace_behind hfind hresolve new hkind
  rwa [List.append_nil] at hnew

/-! ### Objects on the way -/

/-- A walk leads to the node that is there, unless it puts an array in place of it. -/
theorem node_of_locate (h : locate limit walk document = .ok place)
    (hnode : Json.resolve (trailOf walk) document = some node) :
    place.node = node ∨ node.kind ≠ .array ∧ place.node.kind = .array := by
  induction walk generalizing document place with
  | nil =>
    cases h
    exact .inl (Option.some.inj hnode)
  | cons hop walk ih =>
    obtain ⟨first, hf, h⟩ := bind_eq_ok.1 h
    obtain ⟨last, hl, h⟩ := bind_eq_ok.1 h
    cases h
    obtain ⟨child, hc, -⟩ := Json.exists_child_of_resolve (Option.isSome_of_eq_some hnode)
    replace hnode := (Json.resolve_cons hc _).symm.trans hnode
    rcases Hop.enter_cases hf with ⟨hfound, -⟩ | ⟨-, hchild⟩
    · cases hc.symm.trans (Hop.find?_eq_some.1 hfound).1
      have hlast := ih hl hnode
      exact hlast
    · obtain ⟨hother, harray⟩ := hchild child hc
      cases walk with
      | nil =>
        cases hl
        cases hnode
        exact .inr ⟨hother, harray⟩
      | cons next walk =>
        -- An array has been put in place of the child, but both have a child at the next step.
        obtain ⟨second, hs, -⟩ := bind_eq_ok.1 hl
        obtain ⟨inner, hi, -⟩ := Json.exists_child_of_resolve (Option.isSome_of_eq_some hnode)
        have hkind : child.kind = first.node.kind :=
          (Json.kind_of_child? hi).trans (Hop.kind_of_enter hs).symm
        exact (hother (hkind.trans harray)).elim

/-- A walk along two trails is a walk along the one and a walk along the other. -/
theorem exists_append_of_trailOf {above below : List Locator} {locator : Locator}
    (h : trailOf walk = above ++ locator :: below) :
    ∃ outer hop inner, walk = outer ++ hop :: inner ∧ trailOf outer = above ∧
      hop.locator = locator := by
  obtain ⟨outer, rest, rfl, houter, hrest⟩ := List.map_eq_append_iff.1 h
  obtain ⟨hop, inner, rfl, hhop, -⟩ := List.map_eq_cons_iff.1 hrest
  exact ⟨outer, hop, inner, rfl, houter, hhop⟩

/-- A walk through a field of an object changes nothing else in the object. -/
theorem exists_fields_of_locate (h : locate limit walk document = .ok place)
    {above below : List Locator} {name : String} {fields : List (String × Json)}
    (htrail : trailOf walk = above ++ .field name :: below)
    (hobject : Json.resolve above document = some (.object fields)) :
    ∃ child, Json.resolve above place.document =
      some (.object (Entries.insert name child fields)) := by
  obtain ⟨outer, hop, inner, rfl, rfl, hhop⟩ := exists_append_of_trailOf htrail
  rw [locate_append] at h
  obtain ⟨base, hbase, h⟩ := bind_eq_ok.1 h
  obtain ⟨slot, hslot, h⟩ := bind_eq_ok.1 h
  cases h
  obtain ⟨first, hf, hslot⟩ := bind_eq_ok.1 hslot
  obtain ⟨last, -, hslot⟩ := bind_eq_ok.1 hslot
  cases hslot
  have hkind := Hop.kind_of_enter hf
  rw [hhop] at hkind
  -- The object is not replaced, since a field is entered from what the walk leads to.
  have hnode : base.node = .object fields := by
    rcases node_of_locate hbase hobject with hnode | ⟨-, harray⟩
    · exact hnode
    · cases harray.symm.trans hkind
  cases hop with
  | item position => cases hhop
  | field mode other =>
    cases hhop
    rw [hnode] at hf
    refine ⟨last.document, ?_⟩
    rw [← trail_of_locate hbase]
    refine (Json.resolve_replace _ base.isSome).trans ?_
    rw [Hop.document_within hf]
    cases hf
    exact congrArg (some ∘ Json.object) (Entries.insert_insert name _ _ fields)

/-! ### Numbers of items -/

/-- The number of items of an array. Nothing else has any. -/
def itemCount : Json → Nat
  | .array items => items.length
  | _ => 0

/-- The number of items at the end of a trail. -/
def itemCountAt (trail : List Locator) (document : Json) : Nat :=
  ((Json.resolve trail document).map itemCount).getD 0

theorem itemCount_of_blank (h : Blank node) : itemCount node = 0 := by
  cases node with
  | array items =>
    rw [h.items_eq_nil]
    rfl
  | _ => rfl

theorem itemCountAt_cons {locator : Locator} {child : Json}
    (h : document.child? locator = some child) (trail : List Locator) :
    itemCountAt (locator :: trail) document = itemCountAt trail child := by
  rw [itemCountAt, Json.resolve_cons h, itemCountAt]

theorem itemCountAt_of_blank (h : Blank node) (trail : List Locator) :
    itemCountAt trail node = 0 := by
  cases trail with
  | nil => exact itemCount_of_blank h
  | cons locator trail => simp [itemCountAt, Json.resolve, h locator]

/-- There are no items at an item of what is no array. -/
theorem itemCountAt_of_kind_ne (h : node.kind ≠ .array) {trail : List Locator}
    (htrail : ∀ locator ∈ trail.head?, locator.container = .array) :
    itemCountAt trail node = 0 := by
  cases trail with
  | nil => cases node <;> first | rfl | exact (h rfl).elim
  | cons locator trail =>
    have hnone : node.child? locator = none := by
      rw [Option.eq_none_iff_forall_ne_some]
      intro child hc
      exact h ((Json.kind_of_child? hc).trans (htrail locator rfl))
    simp [itemCountAt, Json.resolve, hnone]

/-- There are as many items at the end of a walk as were there before it. -/
theorem itemCount_of_locate (h : locate limit walk document = .ok place) :
    itemCount place.node = itemCountAt (trailOf walk) document := by
  induction walk generalizing document place with
  | nil =>
    cases h
    rfl
  | cons hop walk ih =>
    obtain ⟨first, hf, h⟩ := bind_eq_ok.1 h
    obtain ⟨last, hl, h⟩ := bind_eq_ok.1 h
    cases h
    show itemCount last.node = _
    rw [ih hl]
    rcases Hop.enter_cases hf with ⟨hfound, -⟩ | ⟨hblank, hchild⟩
    · -- Nothing was put in, so the items are those behind the child.
      exact (itemCountAt_cons (Hop.find?_eq_some.1 hfound).1 _).symm
    · rw [itemCountAt_of_blank hblank]
      symm
      cases hc : document.child? hop.locator with
      | none => simp [itemCountAt, trailOf, Json.resolve, hc]
      | some child =>
        -- What is replaced is no array, and the rest of the walk goes on as in an array.
        obtain ⟨hother, harray⟩ := hchild child hc
        refine (itemCountAt_cons hc _).trans (itemCountAt_of_kind_ne hother ?_)
        have hhead : ∀ locator ∈ (trailOf walk ++ []).head?, locator.container = .array :=
          container_of_locate hl harray (by simp)
        rwa [List.append_nil] at hhead

end Reshape
