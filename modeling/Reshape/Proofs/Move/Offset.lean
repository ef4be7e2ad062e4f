import Reshape.Proofs.Move.PatternMove

/-!
# What an offset passes over

An offset in a target path is the number of items of the target array that a move is to pass over.

* `KeptBelow`, documents that differ in one array only, from some position on, with
  `KeptBelow.of_locate` for a walk to a node that was there, and `KeptBelow.of_writeAt` for a write
  behind the position;
* `apply_keeps_passed_over`: a move from items to items leaves the items that it passes over, even
  where it reads and writes the same array;
* `program_without_offset`: a move of one node to each item passes over none, whatever the offset
  is, since its program is the one without the offset; `apply_fills_passed_over` is such a move.
-/

namespace Reshape

/-- A document with other items in the array at a trail, where the first ones are the same. -/
def KeptBelow (trail : List Locator) (first : Nat) (items : List Json) (document changed : Json) :
    Prop :=
  ∃ items', changed = Json.replace trail (.array items') document ∧ items.take first <+: items'

/-! ### Steps -/

section Steps

variable {limit first position : Nat} {array after source : List Hop} {items : List Json}
  {document changed : Json}

/-- Filling an array up and putting an item in, both behind a prefix, keep the prefix. -/
theorem prefix_set_filled {kept items : List Json} (h : kept <+: items)
    (hposition : kept.length ≤ position) (item : Json) :
    kept <+: (Hop.filled position items).set position item := by
  obtain ⟨rest, rfl⟩ := h
  rw [Hop.filled, List.append_assoc, List.set_append_right _ _ hposition]
  exact List.prefix_append _ _

theorem getElem?_of_take_prefix {kept : List Json} (h : items.take first <+: kept)
    (hposition : position < first) {item : Json} (hitem : items[position]? = some item) :
    kept[position]? = some item := by
  obtain ⟨rest, rfl⟩ := h
  have hlength : position < (items.take first).length := by
    obtain ⟨hlt, -⟩ := List.getElem?_eq_some_iff.1 hitem
    rw [List.length_take]
    omega
  rw [List.getElem?_append_left hlength, List.getElem?_take_of_lt hposition, hitem]

/-- A walk that goes on from an array goes to an item of it. -/
theorem exists_item_of_find? (harray : find? array document = some (.array items)) {node : Json}
    (hsource : find? source document = some node) {locator : Locator} {below : List Locator}
    (htrail : trailOf source = trailOf array ++ locator :: below) :
    ∃ outer position inner item, source = outer ++ .item (some position) :: inner ∧
      trailOf outer = trailOf array ∧ find? outer document = some (.array items) ∧
      items[position]? = some item ∧ find? inner item = some node := by
  obtain ⟨outer, hop, inner, rfl, houter, -⟩ := exists_append_of_trailOf htrail
  rw [find?_append, Option.bind_eq_some_iff] at hsource
  obtain ⟨found, hfound, hsource⟩ := hsource
  have hresolve := resolve_of_find? hfound
  rw [houter, resolve_of_find? harray] at hresolve
  cases hresolve
  obtain ⟨item, hitem, hinner⟩ := find?_cons.1 hsource
  obtain ⟨hchild, haccepts⟩ := Hop.find?_eq_some.1 hitem
  cases hop with
  | field mode name => cases hchild
  | item position =>
    cases position with
    | none => cases haccepts
    | some position => exact ⟨outer, position, inner, item, rfl, houter, hfound, hchild, hinner⟩

namespace KeptBelow

theorem refl (harray : find? array document = some (.array items)) (first : Nat) :
    KeptBelow (trailOf array) first items document document :=
  ⟨items, (Json.replace_self (resolve_of_find? harray)).symm, List.take_prefix first items⟩

/-- What changes the items from the position on keeps those before it. -/
theorem replace (harray : find? array document = some (.array items)) {items' : List Json}
    (hkept : items.take first <+: items') (hposition : first ≤ position) (item : Json) :
    KeptBelow (trailOf array) first items document (Json.replace (trailOf array)
      (.array ((Hop.filled position items').set position item))
      (Json.replace (trailOf array) (.array items') document)) := by
  have hlength : (items.take first).length ≤ position :=
    Nat.le_trans (List.length_take_le first items) hposition
  refine ⟨_, ?_, prefix_set_filled hkept hlength item⟩
  exact Json.replace_replace (Option.isSome_of_eq_some (resolve_of_find? harray)) _ _

/-- A write behind the position. -/
theorem of_writeAt (hkept : KeptBelow (trailOf array) first items document changed)
    (harray : find? array document = some (.array items)) (hposition : first ≤ position)
    {value changed' : Json}
    (h : Direct.writeAt limit (Direct.slot array after position) value changed = .ok changed') :
    KeptBelow (trailOf array) first items document changed' := by
  obtain ⟨items', rfl, hprefix⟩ := hkept
  have harray' := find?_replace_node harray (.array items') rfl
  obtain ⟨item, rfl⟩ := Direct.document_of_writeAt_slot harray' h
  exact replace harray hprefix hposition item

/-- A walk that changed nothing in the document may fail now, or fill the array up, but it leaves
the first items. -/
theorem of_locate (hkept : KeptBelow (trailOf array) first items document changed)
    (harray : find? array document = some (.array items)) {node : Json}
    (hsource : find? source document = some node) {origin : Place}
    (h : locate limit source changed = .ok origin) :
    KeptBelow (trailOf array) first items document origin.document := by
  obtain ⟨items', rfl, hprefix⟩ := hkept
  have hfound (node' : Json)
      (hfind : find? source (Json.replace (trailOf array) (.array items') document) = some node') :
      KeptBelow (trailOf array) first items document origin.document := by
    obtain ⟨again, hagain, hdocument, -⟩ := locate_of_find? limit hfind
    cases h.symm.trans hagain
    exact ⟨items', hdocument, hprefix⟩
  rcases Json.apart_or_prefix (Option.isSome_of_eq_some (resolve_of_find? hsource))
    (Option.isSome_of_eq_some (resolve_of_find? harray)) with hapart | ⟨below, hbelow⟩ |
      ⟨locator, below, hbelow⟩
  · -- The walk has parted from the array.
    exact hfound node ((find?_replace hapart _ _).trans hsource)
  · -- The array is inside of the node.
    have hresolve := resolve_of_find? harray
    rw [hbelow] at hresolve
    have hfind := find?_replace_behind hsource hresolve (.array items') rfl
    rw [← hbelow] at hfind
    exact hfound _ hfind
  · -- The walk goes on from an item of the array.
    obtain ⟨outer, position, inner, item, rfl, houter, hfind, hitem, hinner⟩ :=
      exists_item_of_find? harray hsource hbelow
    have harray' := find?_replace_node hfind (.array items') rfl
    rw [houter] at harray'
    by_cases hposition : position < first
    · have hitem' : items'[position]? = some item := getElem?_of_take_prefix hprefix hposition hitem
      refine hfound node ?_
      rw [find?_append, harray', Option.bind_some]
      exact find?_cons.2 ⟨item, Hop.find?_eq_some.2 ⟨hitem', rfl⟩, hinner⟩
    · obtain ⟨item', hdocument⟩ := Direct.document_of_locate_slot harray' h
      rw [hdocument, houter]
      exact replace harray hprefix (Nat.le_of_not_lt hposition) item'

/-- A copy to a slot behind the position, from a node that was there. -/
theorem of_copyOne (hkept : KeptBelow (trailOf array) first items document changed)
    (harray : find? array document = some (.array items)) {node : Json}
    (hsource : find? source document = some node) (hposition : first ≤ position)
    {mapping : Option Mapping} {changed' : Json}
    (h : Direct.copyOne limit mapping source (Direct.slot array after position) changed =
      .ok changed') :
    KeptBelow (trailOf array) first items document changed' := by
  obtain ⟨origin, horigin, h⟩ := bind_eq_ok.1 h
  exact (hkept.of_locate harray hsource horigin).of_writeAt harray hposition h

end KeptBelow

end Steps

/-! ### Moves from items to items -/

namespace Move

variable {move : Move} {source target : ArrayPath}

/-- **A move from items to items leaves the items that it passes over.** Both arrays are there, the
source path goes on from each item of the source array, and a container is at the offset path. Then
the items of the target array below the size of that container are what they were, whatever the
slots are that are read and written. -/
theorem apply_keeps_passed_over
    (hpaths : move.paths = .ok (source.components, target.components))
    (hsource : source.WellFormed) (htarget : target.WellFormed) {document document' : Json}
    (hsize : document.SizedBelow (2 ^ 52)) {read : List Json}
    (hread : find? source.hops document = some (.array read))
    (hafter : ∀ item ∈ read, (find? (hops .leaf source.after) item).isSome)
    {first : Nat} (hfirst : target.Skips document first) {items : List Json}
    (harray : find? target.hops document = some (.array items))
    (h : move.apply document = .ok document') :
    ∀ index < first, ∀ item, items[index]? = some item →
      Json.resolve (trailOf target.hops ++ [.index index]) document' = some item := by
  obtain ⟨value, hvalue⟩ := ArrayPath.exists_find?_slot hread hafter
  have hcopies := copies_of_apply hpaths hsource htarget hsize hread hfirst h
  -- Each round reads a node that was there in the beginning, and writes behind the offset.
  have hkept : KeptBelow (trailOf target.hops) first items document document' :=
    foldlM_range_induction (motive := fun _ => KeptBelow (trailOf target.hops) first items document)
      hcopies (.refl harray first) fun index _ _ hi hcopy hkept =>
        hkept.of_copyOne harray (hvalue index hi) (Nat.le_add_right first index) hcopy
  obtain ⟨items', rfl, hprefix⟩ := hkept
  intro index hi item hitem
  have hresolve := Option.isSome_of_eq_some (resolve_of_find? harray)
  rw [Json.resolve_append_replace hresolve]
  have hitem' : items'[index]? = some item := getElem?_of_take_prefix hprefix hi hitem
  simp [Json.resolve, Json.child?, Json.getIndex?, hitem']

/-- Items of an array go behind the first two of the same array. -/
theorem apply_keeps_passed_over_of_same_array :
    ∃ document', Move.apply ⟨"$.a[*]", "$.a[*+$.o]", none⟩
        (.object [("a", .array [.text "u", .text "v", .text "w"]),
          ("o", .array [.null, .null])]) = .ok document' ∧
      Json.resolve [.field "a", .index 0] document' = some (.text "u") ∧
      Json.resolve [.field "a", .index 1] document' = some (.text "v") := by
  obtain ⟨document', happly⟩ := exists_ok_of_isOk (x :=
    Move.apply ⟨"$.a[*]", "$.a[*+$.o]", none⟩
      (.object [("a", .array [.text "u", .text "v", .text "w"]),
        ("o", .array [.null, .null])])) (by decide +kernel)
  have hsource : ArrayPath.WellFormed ⟨[], .arrayAll "a", []⟩ :=
    ⟨List.forall_mem_nil _, trivial, List.forall_mem_nil _⟩
  have htarget : ArrayPath.WellFormed ⟨[], .arrayAllOffset "a" "$.o", []⟩ :=
    ⟨List.forall_mem_nil _, trivial, List.forall_mem_nil _⟩
  have hfirst : ArrayPath.Skips ⟨[], .arrayAllOffset "a" "$.o", []⟩
      (.object [("a", .array [.text "u", .text "v", .text "w"]),
        ("o", .array [.null, .null])]) 2 := ⟨_, rfl, rfl⟩
  have hkept := apply_keeps_passed_over rfl hsource htarget
    (Json.sizedBelow_of_widest_lt _ (by decide)) rfl (by decide) hfirst rfl happly
  refine ⟨document', happly, ?_, ?_⟩
  · exact hkept 0 (by decide) _ rfl
  · exact hkept 1 (by decide) _ rfl

/-! ### One node to each item -/

/-- **A move of one node to each item does not look at an offset**: its program is the one for the
target path without the offset. -/
theorem program_without_offset {move plain : Move} {path before after : List Component}
    {field offset : String} (hpath : ∀ component ∈ path, component.IsSingle)
    (hbefore : ∀ component ∈ before, component.IsSingle)
    (hafter : ∀ component ∈ after, component.IsSingle)
    (hpaths : move.paths = .ok (path, before ++ .arrayAllOffset field offset :: after))
    (hplain : plain.paths = .ok (path, before ++ .arrayAll field :: after))
    (hmapping : plain.mapping = move.mapping) : move.program = plain.program := by
  -- Either target is around an array in the same field, which is all that the program is made of.
  have hcopy (move : Move) (array : Component) (hitems : array.IsItems)
      (hfield : array.field? = some field) :
      move.copy path (before ++ array :: after) = do
        let toSource ← route .object path
        let toParent ← route .object before
        let toPlace ← route .object after
        let toArray := toParent.append (Route.intoArray field)
        return fromRoot toSource ++ pickUp move.mapping ++ fromRoot toArray ++
          [.storeSize, .storeGiven (Json.ofInt 1), .compare .ge,
            .jumpIfFalse (.storeElement singleItem), .storeSize, .storeGiven (Json.ofInt 0)] ++
          countingLoop (copyToItem toPlace) := by
    have hwell : ArrayPath.WellFormed ⟨before, array, after⟩ := ⟨hbefore, hitems, hafter⟩
    have haround : ArrayPath.ofComponents? (before ++ array :: after) =
        .ok ⟨before, array, after⟩ :=
      ArrayPath.ofComponents?_eq_ok.2 ⟨rfl, hwell⟩
    have hselect : Strategy.select path (before ++ array :: after) = .replication := by
      rw [Strategy.select, any_isPattern_eq_false hpath, if_neg Bool.false_ne_true]
      exact if_pos (ArrayPath.any_isPattern hwell)
    simp only [copy, hselect, copyToEach, arrayPath, haround, mapError_ok, ok_bind,
      ArrayPath.field, hfield, Option.getD_some]
  have hoffset := hcopy move (.arrayAllOffset field offset) trivial rfl
  have hall := hcopy plain (.arrayAll field) trivial rfl
  rw [hmapping] at hall
  simp only [program, hpaths, hplain, mapError_ok, ok_bind, hoffset, hall]

/-- A text is copied to each item of an array, also to the one that the offset is to pass over. -/
theorem apply_fills_passed_over :
    ∃ document', Move.apply ⟨"$.x", "$.b[*+$.o]", none⟩
        (.object [("x", .text "n"), ("b", .array [.text "u", .text "v"]),
          ("o", .array [.null])]) = .ok document' ∧
      ArrayPath.Skips ⟨[], .arrayAllOffset "b" "$.o", []⟩
        (.object [("x", .text "n"), ("b", .array [.text "u", .text "v"]),
          ("o", .array [.null])]) 1 ∧
      Json.resolve [.field "b", .index 0]
        (.object [("x", .text "n"), ("b", .array [.text "u", .text "v"]),
          ("o", .array [.null])]) = some (.text "u") ∧
      Json.resolve [.field "b", .index 0] document' = some (.text "n") := by
  have hchecked : ∃ document', Move.apply ⟨"$.x", "$.b[*+$.o]", none⟩
      (.object [("x", .text "n"), ("b", .array [.text "u", .text "v"]),
        ("o", .array [.null])]) = .ok document' := exists_ok_of_isOk (by decide +kernel)
  obtain ⟨document', happly⟩ := hchecked
  have hdirect : document' = .object [("x", .text "n"), ("b", .array [.text "n", .text "n"]),
      ("o", .array [.null])] :=
    (Except.ok.inj (direct_of_apply (Json.sizedBelow_of_widest_lt _ (by decide)) happly)).symm
  refine ⟨document', happly, ⟨_, rfl, rfl⟩, rfl, ?_⟩
  rw [hdirect]
  rfl

end Move

end Reshape
