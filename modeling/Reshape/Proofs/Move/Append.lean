import Reshape.Proofs.Move.PatternMove

/-!
# Moves that append

A target path `D[*+D].E` passes over as many items as the array at `D` has, so a move to it puts
one new item behind them for each item of its source. Moves of that kind, one after another,
concatenate what they append: `chain_appends`.

* `nested`, the value behind a walk that puts everything in, and `Direct.writeAt_of_blank`;
* `Direct.writeAt_cons` and `Direct.writeAt_append_of_find?`, writes step by step;
* `Direct.document_of_appends`, writes behind the last item of an array;
* `ArrayPath.place`, the path of the array of a pattern;
* `Move.Appends` and `Move.Chain`, one move to the end of an array and several of them.
-/

namespace Reshape

/-- A value behind a walk on which nothing is there yet: a field is the only one of its object, and
an item stands behind empty objects. -/
def nested : List Hop → Json → Json
  | [], value => value
  | .field _ name :: rest, value => .object [(name, nested rest value)]
  | .item position :: rest, value =>
    .array (List.replicate (position.getD 0) Json.emptyObject ++ [nested rest value])

/-! ### Writes -/

namespace Direct

variable {limit : Nat} {hop : Hop} {walk rest array after : List Hop}
  {value document document' : Json}

/-- A write behind a step is a write to the node of the step. -/
theorem writeAt_cons (h : writeAt limit (hop :: rest) value document = .ok document') :
    ∃ first new, hop.enter limit document = .ok first ∧
      writeAt limit rest value first.node = .ok new ∧
      document' = first.document.setChild hop.locator new := by
  obtain ⟨place, hp, rfl⟩ := writeAt_eq_ok.1 h
  obtain ⟨first, hfirst, hp⟩ := bind_eq_ok.1 hp
  obtain ⟨last, hlast, hp⟩ := bind_eq_ok.1 hp
  cases hp
  refine ⟨first, _, hfirst, writeAt_eq_ok.2 ⟨last, hlast, rfl⟩, ?_⟩
  have hresolves := first.resolves
  rw [Hop.trail_of_enter hfirst] at hresolves
  obtain ⟨child, hchild, -⟩ := Json.exists_child_of_resolve (Option.isSome_of_eq_some hresolves)
  have hinner : (first.document.setChild hop.locator last.document).child? hop.locator =
      some last.document := Json.child?_setChild (by simp [hchild])
  rw [Hop.document_within hfirst]
  show Json.replace (hop.locator :: trailOf rest) value _ = _
  rw [Json.replace_cons hinner, Json.setChild_setChild]

/-- A write behind a node that is found is a write to the node. -/
theorem writeAt_append_of_find? {node : Json} (hfind : find? walk document = some node)
    (h : writeAt limit (walk ++ rest) value document = .ok document') :
    ∃ new, writeAt limit rest value node = .ok new ∧
      document' = Json.replace (trailOf walk) new document := by
  obtain ⟨place, hp, rfl⟩ := writeAt_eq_ok.1 h
  rw [locate_append] at hp
  obtain ⟨outer, houter, hp⟩ := bind_eq_ok.1 hp
  obtain ⟨inner, hinner, hp⟩ := bind_eq_ok.1 hp
  cases hp
  obtain ⟨outer', houter', hdocument, rfl⟩ := locate_of_find? limit hfind
  cases houter.symm.trans houter'
  refine ⟨_, writeAt_eq_ok.2 ⟨inner, hinner, rfl⟩, ?_⟩
  have hresolve := Option.isSome_of_eq_some (resolve_of_find? hfind)
  show Json.replace _ value (Json.replace outer.trail inner.document outer.document) = _
  rw [hdocument, trail_of_locate houter, trailOf, List.map_append]
  exact Json.replace_append_replace hresolve _ _ _

/-- A write to a node without children leaves what the walk has put in, and nothing else. -/
theorem writeAt_of_blank (hblank : Blank document)
    (h : writeAt limit walk value document = .ok document') : document' = nested walk value := by
  induction walk generalizing document document' with
  | nil =>
    obtain ⟨place, _, rfl⟩ := writeAt_eq_ok.1 h
    rfl
  | cons hop rest ih =>
    obtain ⟨first, new, hfirst, hnew, rfl⟩ := writeAt_cons h
    cases hop with
    | field mode name =>
      cases document with
      | object fields =>
        obtain rfl := hblank.fields_eq_nil
        cases hfirst
        rw [ih (blank_initial mode) hnew]
        simp [nested, Hop.locator, Json.setChild, Entries.insert]
      | _ => cases hfirst
    | item position =>
      cases position with
      | none => cases document <;> cases hfirst
      | some position =>
        cases document with
        | array items =>
          obtain rfl := hblank.items_eq_nil
          simp only [Hop.enter] at hfirst
          split at hfirst
          · cases hfirst
          · cases hfirst
            rw [ih blank_emptyObject hnew]
            simp [nested, Hop.locator, Json.setChild, Hop.filled, List.replicate_succ',
              List.set_append_right]
        | _ => cases hfirst

/-- A write behind the last item of an array that is found adds one item to it. -/
theorem document_of_writeAt_end {items : List Json}
    (harray : find? array document = some (.array items))
    (h : writeAt limit (slot array after items.length) value document = .ok document') :
    document' = Json.replace (trailOf array) (.array (items ++ [nested after value])) document := by
  obtain ⟨written, hwritten, rfl⟩ := writeAt_append_of_find? harray h
  obtain ⟨first, new, hfirst, hnew, rfl⟩ := writeAt_cons hwritten
  simp only [Hop.enter] at hfirst
  split at hfirst
  · cases hfirst
  · cases hfirst
    have hblank : Blank (items[items.length]?.getD Json.emptyObject) := by
      rw [List.getElem?_eq_none (Nat.le_refl _)]
      exact blank_emptyObject
    rw [writeAt_of_blank hblank hnew]
    simp [Hop.locator, Json.setChild, Hop.filled, List.set_append_right]

/-- Writes behind the last item, one after another, add one item each. -/
theorem document_of_writeSlots_end {items : List Json} {fill : Nat → Json} {count : Nat}
    (harray : find? array document = some (.array items))
    (h : writeSlots limit array after items.length fill count document = .ok document') :
    document' = Json.replace (trailOf array)
      (.array (items ++ (List.range count).map fun index => nested after (fill index))) document := by
  refine foldlM_range_induction (motive := fun count written => written = Json.replace
    (trailOf array) (.array (items ++ (List.range count).map fun index =>
      nested after (fill index))) document) h ?_ ?_
  · simp [Json.replace_self (resolve_of_find? harray)]
  · rintro count _ written - hwrite rfl
    have harray' := find?_replace_node harray (.array (items ++ (List.range count).map fun index =>
      nested after (fill index))) rfl
    have hlength : items.length + count =
        (items ++ (List.range count).map fun index => nested after (fill index)).length := by simp
    rw [hlength] at hwrite
    rw [document_of_writeAt_end harray' hwrite, List.range_succ, List.map_append,
      ← List.append_assoc]
    exact Json.replace_replace (Option.isSome_of_eq_some (resolve_of_find? harray)) _ _

end Direct

/-! ### Paths -/

theorem hops_object_append (first second : List Component) :
    hops .object (first ++ second) = hops .object first ++ hops .object second := by
  induction first with
  | nil => rfl
  | cons component rest ih =>
    rw [List.cons_append, Route.hops_object_cons, Route.hops_object_cons, ih, List.append_assoc]

namespace ArrayPath

/-- The path of the array. -/
def place (path : ArrayPath) : List Component :=
  path.before ++ if path.field = "" then [] else [.field path.field]

variable {path : ArrayPath} {document : Json} {items : List Json}

/-- The walk to the array of a pattern goes along its path. -/
theorem trailOf_hops (h : path.array.IsItems) :
    trailOf path.hops = trailOf (Reshape.hops .object path.place) := by
  rw [hops_eq h, place, hops_object_append, trailOf, trailOf, List.map_append, List.map_append,
    intoArray]
  split <;> rfl

/-- An array that is found on its path is found by the walk of the pattern, and the other way
round. -/
theorem find?_hops_eq_some (h : path.array.IsItems) :
    find? path.hops document = some (.array items) ↔
      find? (Reshape.hops .object path.place) document = some (.array items) := by
  rw [hops_eq h, place, hops_object_append, find?_append, find?_append, intoArray]
  cases find? (Reshape.hops .object path.before) document with
  | none => rfl
  | some node =>
    split
    · rfl
    · -- Whatever a field is entered as, an array in it is left.
      have harray (mode mode' : FieldMode) (haccepts : mode'.accepts (.array items) = true)
          (hfind : find? [.field mode path.field] node = some (.array items)) :
          find? [.field mode' path.field] node = some (.array items) := by
        obtain ⟨child, hchild, hrest⟩ := find?_cons.1 hfind
        cases hrest
        obtain ⟨hthere, -⟩ := Hop.find?_eq_some.1 hchild
        exact find?_cons.2 ⟨_, Hop.find?_eq_some.2 ⟨hthere, haccepts⟩, rfl⟩
      exact ⟨harray .array .object rfl, harray .object .array rfl⟩

/-- The nodes behind the items are found at the slots of the path. -/
theorem find?_slot_of_forall {values : List Json}
    (harray : find? path.hops document = some (.array items))
    (hvalues : List.Forall₂
      (fun item value => find? (Reshape.hops .leaf path.after) item = some value) items values)
    {index : Nat} (hindex : index < values.length) :
    find? (path.slot .leaf index) document = some values[index] := by
  obtain ⟨hlength, hall⟩ := List.forall₂_iff_get.1 hvalues
  have hitem : index < items.length := hlength ▸ hindex
  have hstep : (Hop.item (some index)).find? (.array items) = some items[index] :=
    Hop.find?_eq_some.2 ⟨List.getElem?_eq_getElem hitem, rfl⟩
  rw [slot, Direct.slot, find?_append, harray, Option.bind_some, find?, hstep, Option.bind_some]
  exact hall index hitem hindex

end ArrayPath

/-! ### Moves to the end of an array -/

namespace Move

/-- The target of a move is the end of the array at a path, and its source is there: the array and
all nodes behind its items, none of which has the target array in it. The move is to add one element
for each of them. -/
inductive Appends (place : List Component) (document : Json) : Move → List Json → Prop
  | intro {move : Move} {source target : ArrayPath} {field text : String}
      {read values : List Json}
      (hpaths : move.paths = .ok (source.components, target.components))
      (hsource : source.WellFormed) (htarget : target.WellFormed)
      (hplace : target.place = place) (harray : target.array = .arrayAllOffset field text)
      (hoffset : Path.parse text = .ok place)
      (hread : find? source.hops document = some (.array read))
      (hvalues : List.Forall₂
        (fun item value => find? (hops .leaf source.after) item = some value) read values)
      (houtside : ∀ index < values.length,
        ¬ trailOf (source.slot .leaf index) <+: trailOf (hops .object place)) :
      Appends place document move
        (values.map fun value => nested (hops .leaf target.after) (Direct.mapped move.mapping value))

/-- Moves to the end of the array at a path, one after another, with what they add in all. -/
inductive Chain (place : List Component) : Json → List Move → List Json → Json → Prop
  | nil (document : Json) : Chain place document [] [] document
  | cons {document document' final : Json} {move : Move} {moves : List Move}
      {added rest : List Json} (hsize : document.SizedBelow (2 ^ 52))
      (happends : move.Appends place document added) (happly : move.apply document = .ok document')
      (hrest : Chain place document' moves rest final) :
      Chain place document (move :: moves) (added ++ rest) final

variable {place : List Component} {document document' : Json} {items : List Json}

/-- A slot that does not have an array in it parts from every slot behind the items of the array. -/
theorem apart_behind_array {array : List Locator} {slot : List Locator} {node : Json}
    (harray : Json.resolve array document = some (.array items))
    (hslot : Json.resolve slot document = some node) (houtside : ¬ slot <+: array)
    {position : Nat} (hposition : items.length ≤ position) (after : List Locator) :
    Apart slot (array ++ .index position :: after) := by
  rcases Json.apart_or_prefix (Option.isSome_of_eq_some hslot) (Option.isSome_of_eq_some harray)
    with hapart | ⟨below, hbelow⟩ | ⟨locator, below, rfl⟩
  · have happend := hapart.append [] (.index position :: after)
    rwa [List.append_nil] at happend
  · exact (houtside ⟨below, hbelow.symm⟩).elim
  · -- The slot is behind one of the items.
    rw [Json.resolve_append, harray, Option.bind_some] at hslot
    obtain ⟨item, hitem, -⟩ := Json.exists_child_of_resolve (Option.isSome_of_eq_some hslot)
    cases locator with
    | field name => cases hitem
    | index other =>
      obtain ⟨hlt, -⟩ := List.getElem?_eq_some_iff.1 hitem
      have hne : Locator.Apart (.index other) (.index position) := by
        show other ≠ position
        omega
      rw [Apart.append_left_iff]
      exact Apart.cons_of_apart hne _ _

/-- One move to the end of an array adds its elements. -/
theorem find?_of_appends (hsize : document.SizedBelow (2 ^ 52)) {move : Move} {added : List Json}
    (happends : move.Appends place document added) (happly : move.apply document = .ok document')
    (hitems : find? (hops .object place) document = some (.array items)) :
    find? (hops .object place) document' = some (.array (items ++ added)) := by
  cases happends with
  | @intro source target field text read values hpaths hsource htarget hplace harray hoffset
      hread hvalues houtside =>
    have hlength : read.length = values.length := hvalues.length_eq
    subst hplace
    have hthere := (ArrayPath.find?_hops_eq_some htarget.array).2 hitems
    have hskips : target.Skips document items.length := by
      have hwalk : target.offset? = some (hops .object target.place) := by
        rw [ArrayPath.offset?, harray]
        simp only [hoffset]
      rw [ArrayPath.Skips, hwalk]
      exact ⟨_, hitems, rfl⟩
    have hslots (index : Nat) (hindex : index < read.length) :
        find? (source.slot .leaf index) document = some (values[index]?.getD .null) := by
      rw [hlength] at hindex
      rw [List.getElem?_eq_getElem hindex]
      exact ArrayPath.find?_slot_of_forall hread hvalues hindex
    -- No slot that is read is changed by the copies, so they write values that are known before.
    have hapart (index : Nat) (hindex : index < read.length) (written : Nat) :
        Apart (trailOf (source.slot .leaf index))
          (trailOf (target.slot .leaf (items.length + written))) := by
      have hslot := resolve_of_find? (hslots index hindex)
      have hresolve := resolve_of_find? hthere
      have houtside' := houtside index (hlength ▸ hindex)
      rw [← ArrayPath.trailOf_hops htarget.array] at houtside'
      rw [ArrayPath.slot, ArrayPath.slot, Direct.trailOf_slot _ _ (_ + _)]
      exact apart_behind_array hresolve hslot houtside' (Nat.le_add_right _ _) _
    have hcopies := copies_of_apply hpaths hsource htarget hsize hread hskips happly
    have hwrites := (Direct.copySlots_eq_writeSlots hslots
      fun index hindex written _ => hapart index hindex written).symm.trans hcopies
    have hadded : ((List.range read.length).map fun index => nested (hops .leaf target.after)
          (Direct.mapped move.mapping (values[index]?.getD .null))) =
        values.map fun value =>
          nested (hops .leaf target.after) (Direct.mapped move.mapping value) := by
      refine List.ext_getElem (by simp [hlength]) fun index hindex _ => ?_
      have hvalue : index < values.length := by simpa [hlength] using hindex
      simp [List.getElem?_eq_getElem hvalue]
    rw [Direct.document_of_writeSlots_end hthere hwrites, hadded]
    exact (ArrayPath.find?_hops_eq_some htarget.array).1 (find?_replace_node hthere _ rfl)

/-- **Moves to the end of an array concatenate.** The array at a path is there in the beginning. Each
move of a chain finds its source array and all nodes behind the items, none of which has the array
at the path in it; they may be in that array. Then the array has, in the end, the items that it had,
and behind them one element for each node that was read, move by move. The element is the mapped
value of the node, in the objects and arrays that lead to it. -/
theorem chain_appends {moves : List Move} {added : List Json} {final : Json}
    (hchain : Chain place document moves added final)
    (hitems : find? (hops .object place) document = some (.array items)) :
    find? (hops .object place) final = some (.array (items ++ added)) := by
  induction hchain generalizing items with
  | nil => rw [hitems, List.append_nil]
  | cons hsize happends happly _ ih =>
    rw [← List.append_assoc]
    exact ih (find?_of_appends hsize happends happly hitems)

/-- A text is appended to an array with one item, as what the table has for it in an object, and then
both items are appended to the array that they are in. -/
theorem chain_appends_to_itself :
    ∃ final, Chain [.field "c"] (.object [("c", .array [.null]), ("a", .array [.text "u"])])
        [⟨"$.a[*]", "$.c[*+$.c].y", some [("u", .bool true)]⟩, ⟨"$.c[*]", "$.c[*+$.c]", none⟩]
        [.object [("y", .bool true)], .null, .object [("y", .bool true)]] final ∧
      find? [.field .object "c"] final =
        some (.array [.null, .object [("y", .bool true)], .null, .object [("y", .bool true)]]) := by
  have hwell (array : Component) (harray : array.IsItems) (after : List Component)
      (hafter : after.all (fun component => !component.isPattern) = true) :
      ArrayPath.WellFormed ⟨[], array, after⟩ :=
    ⟨List.forall_mem_nil _, harray, by simpa [Component.IsSingle] using hafter⟩
  obtain ⟨middle, hfirst⟩ := exists_ok_of_isOk (x :=
    Move.apply ⟨"$.a[*]", "$.c[*+$.c].y", some [("u", .bool true)]⟩
      (.object [("c", .array [.null]), ("a", .array [.text "u"])])) (by decide +kernel)
  obtain rfl : middle = .object [("c", .array [.null, .object [("y", .bool true)]]),
      ("a", .array [.text "u"])] :=
    (Except.ok.inj (direct_of_apply (Json.sizedBelow_of_widest_lt _ (by decide)) hfirst)).symm
  obtain ⟨final, hsecond⟩ := exists_ok_of_isOk (x := Move.apply ⟨"$.c[*]", "$.c[*+$.c]", none⟩
    (.object [("c", .array [.null, .object [("y", .bool true)]]), ("a", .array [.text "u"])]))
    (by decide +kernel)
  have hchain : Chain [.field "c"] (.object [("c", .array [.null]), ("a", .array [.text "u"])])
      [⟨"$.a[*]", "$.c[*+$.c].y", some [("u", .bool true)]⟩, ⟨"$.c[*]", "$.c[*+$.c]", none⟩]
      ([.object [("y", .bool true)]] ++ ([.null, .object [("y", .bool true)]] ++ [])) final := by
    refine .cons (Json.sizedBelow_of_widest_lt _ (by decide)) ?_ hfirst
      (.cons (Json.sizedBelow_of_widest_lt _ (by decide)) ?_ hsecond (.nil final))
    · exact @Appends.intro _ _ _ ⟨[], .arrayAll "a", []⟩
        ⟨[], .arrayAllOffset "c" "$.c", [.field "y"]⟩ "c" "$.c" _ [.text "u"] rfl
        (hwell _ (by trivial) _ (by rfl)) (hwell _ (by trivial) _ (by rfl)) rfl rfl rfl rfl
        (.cons rfl .nil) (by decide)
    · exact @Appends.intro _ _ _ ⟨[], .arrayAll "c", []⟩ ⟨[], .arrayAllOffset "c" "$.c", []⟩
        "c" "$.c" _ [.null, .object [("y", .bool true)]] rfl (hwell _ (by trivial) _ (by rfl))
        (hwell _ (by trivial) _ (by rfl)) rfl rfl rfl rfl (.cons rfl (.cons rfl .nil)) (by decide)
  exact ⟨final, hchain, chain_appends hchain rfl⟩

end Move

end Reshape
