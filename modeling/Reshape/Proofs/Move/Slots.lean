import Reshape.Proofs.Move.Direct
import Reshape.Proofs.Move.Frame

/-!
# Writes at the items of an array

Values are written one after another, each at the same place behind the next item of one array.

* `resolve_of_writeAt`, `find?_of_writeAt`, `exists_keys_of_writeAt` and `exists_items_of_writeAt`,
  what one write does;
* `slot`, the place behind one item, `document_of_writeAt_slot`, what a write to it changes, and
  `writeSlots`, the writes;
* `resolve_of_writeSlots`, `find?_of_writeSlots` and `exists_items_of_writeSlots`, what they do;
* `copySlots_eq_writeSlots`, copies from nodes that no write reaches;
* `ArrayPath.slot`, the place that a path has behind one item, and `ArrayPath.Skips`, how many items
  are passed over.
-/

namespace Reshape

/-! ### Arrays behind a replacement -/

namespace Json

/-- A replacement behind an array leaves its length. -/
theorem exists_items_replace {trail : List Locator} (h : trail ≠ []) (new : Json)
    (items : List Json) :
    ∃ written, replace trail new (.array items) = .array written ∧
      written.length = items.length := by
  cases trail with
  | nil => exact (h rfl).elim
  | cons locator trail =>
    cases hc : child? (.array items) locator with
    | none => exact ⟨items, by simp [replace, hc], rfl⟩
    | some child =>
      rw [replace_cons hc]
      cases locator with
      | field name => cases hc
      | index position => exact ⟨items.set position _, rfl, List.length_set⟩

end Json

/-- A step to a position goes to an item of an array, which it fills up to the position. -/
theorem Hop.enter_item {limit position : Nat} {node : Json} {first : Place}
    (h : (Hop.item (some position)).enter limit node = .ok first) :
    ∃ items, node = .array items ∧ first.document = .array (filled position items) := by
  cases node with
  | array items =>
    simp only [enter] at h
    split at h
    · cases h
    · cases h
      exact ⟨items, rfl, rfl⟩
  | _ => cases h

namespace Direct

variable {limit : Nat} {walk array after : List Hop} {value document document' : Json}

/-! ### One write -/

theorem writeAt_eq_ok :
    writeAt limit walk value document = .ok document' ↔
      ∃ place, locate limit walk document = .ok place ∧
        document' = Json.replace (trailOf walk) value place.document := by
  rw [writeAt, bind_eq_ok]
  refine exists_congr fun place => and_congr_right fun hp => ?_
  rw [← trail_of_locate hp]
  constructor
  · intro h
    cases h
    rfl
  · rintro rfl
    rfl

/-- The value is at the end of the walk. -/
theorem resolve_of_writeAt (h : writeAt limit walk value document = .ok document') :
    Json.resolve (trailOf walk) document' = some value := by
  obtain ⟨place, hp, rfl⟩ := writeAt_eq_ok.1 h
  rw [← trail_of_locate hp]
  exact Json.resolve_replace value place.isSome

/-- A write is not seen where the trail parts from that of the walk. -/
theorem find?_of_writeAt (h : writeAt limit walk value document = .ok document')
    {other : List Hop} {node : Json} (hapart : Apart (trailOf other) (trailOf walk))
    (hfind : find? other document = some node) : find? other document' = some node := by
  obtain ⟨place, hp, rfl⟩ := writeAt_eq_ok.1 h
  rw [find?_replace hapart]
  rw [← List.append_nil (trailOf walk)] at hapart
  exact find?_of_locate hp (by simp) hapart hfind

theorem resolve_of_writeAt_of_apart (h : writeAt limit walk value document = .ok document')
    {trail : List Locator} {node : Json} (hapart : Apart trail (trailOf walk))
    (hresolve : Json.resolve trail document = some node) :
    Json.resolve trail document' = some node := by
  rw [← find?_alongTrail] at hresolve ⊢
  refine find?_of_writeAt h ?_ hresolve
  rwa [trailOf_alongTrail]

/-- A write through a field of an object keeps its keys in order, and puts the field behind them if
it is new. -/
theorem exists_keys_of_writeAt (h : writeAt limit walk value document = .ok document')
    {above below : List Locator} {name : String} {fields : List (String × Json)}
    (htrail : trailOf walk = above ++ .field name :: below)
    (hobject : Json.resolve above document = some (.object fields)) :
    ∃ fields', Json.resolve above document' = some (.object fields') ∧
      Entries.keys fields' = if name ∈ Entries.keys fields then Entries.keys fields
        else Entries.keys fields ++ [name] := by
  obtain ⟨place, hp, rfl⟩ := writeAt_eq_ok.1 h
  obtain ⟨child, hentered⟩ := exists_fields_of_locate hp htrail hobject
  have hchild : (Json.object (Entries.insert name child fields)).child? (.field name) =
      some child := Entries.get?_insert_self name child fields
  refine ⟨Entries.insert name (Json.replace below value child) fields, ?_,
    Entries.keys_insert _ _ _⟩
  rw [htrail, Json.replace_append hentered,
    Json.resolve_replace _ (Option.isSome_of_eq_some hentered), Json.replace_cons hchild]
  exact congrArg (some ∘ Json.object) (Entries.insert_insert name _ _ fields)

/-- The place behind one item of an array. -/
def slot (array after : List Hop) (position : Nat) : List Hop :=
  array ++ .item (some position) :: after

theorem trailOf_slot (array after : List Hop) (position : Nat) :
    trailOf (slot array after position) =
      trailOf array ++ .index position :: trailOf after := by
  simp [trailOf, slot, Hop.locator]

/-- The places behind two items part at the items. -/
theorem apart_slot {first second : Nat} (h : first ≠ second) (array after after' : List Hop) :
    Apart (trailOf (slot array after first)) (trailOf (slot array after' second)) := by
  rw [trailOf_slot, trailOf_slot, Apart.append_left_iff]
  have hitems : Locator.Apart (.index first) (.index second) := h
  exact Apart.cons_of_apart hitems _ _

/-- A write behind an item fills the array up to it. -/
theorem exists_items_of_writeAt {position : Nat}
    (h : writeAt limit (slot array after position) value document = .ok document') :
    ∃ items, Json.resolve (trailOf array) document' = some (.array items) ∧
      items.length = max (itemCountAt (trailOf array) document) (position + 1) := by
  obtain ⟨place, hp, rfl⟩ := writeAt_eq_ok.1 h
  rw [slot, locate_append] at hp
  obtain ⟨outer, houter, hp⟩ := bind_eq_ok.1 hp
  obtain ⟨inner, hinner, hp⟩ := bind_eq_ok.1 hp
  cases hp
  obtain ⟨first, hfirst, hinner⟩ := bind_eq_ok.1 hinner
  obtain ⟨last, -, hinner⟩ := bind_eq_ok.1 hinner
  cases hinner
  obtain ⟨items, hnode, hfilled⟩ := Hop.enter_item hfirst
  -- Entering the item has filled the array; what is put in behind the item leaves its length.
  have htrail : first.trail ≠ [] := by
    rw [Hop.trail_of_enter hfirst]
    exact List.cons_ne_nil _ _
  obtain ⟨entered, hentered, hlength⟩ :=
    Json.exists_items_replace htrail last.document (Hop.filled position items)
  obtain ⟨written, hwritten, hlength'⟩ :=
    Json.exists_items_replace (List.cons_ne_nil (.index position) (trailOf after)) value entered
  refine ⟨written, ?_, ?_⟩
  · rw [trailOf_slot, ← trail_of_locate houter]
    show Json.resolve outer.trail (Json.replace (outer.trail ++ _) value (Json.replace outer.trail
      (Json.replace first.trail last.document first.document) outer.document)) = _
    rw [Json.replace_append_replace outer.isSome, Json.resolve_replace _ outer.isSome, hfilled,
      hentered, hwritten]
  · rw [← itemCount_of_locate houter, hnode, hlength', hlength]
    exact Hop.length_filled position items

/-- A walk behind an item of an array that is found changes nothing but the array: it fills it up to
the item, and changes the item. -/
theorem document_of_locate_slot {position : Nat} {place : Place} {items : List Json}
    (harray : find? array document = some (.array items))
    (h : locate limit (slot array after position) document = .ok place) :
    ∃ item, place.document = Json.replace (trailOf array)
      (.array ((Hop.filled position items).set position item)) document := by
  rw [slot, locate_append] at h
  obtain ⟨outer, houter, h⟩ := bind_eq_ok.1 h
  obtain ⟨inner, hinner, h⟩ := bind_eq_ok.1 h
  cases h
  obtain ⟨outer', houter', hdocument, hnode⟩ := locate_of_find? limit harray
  cases houter.symm.trans houter'
  obtain ⟨first, hfirst, hinner⟩ := bind_eq_ok.1 hinner
  obtain ⟨last, -, hinner⟩ := bind_eq_ok.1 hinner
  cases hinner
  obtain ⟨items', hitems, hfilled⟩ := Hop.enter_item hfirst
  cases hnode.symm.trans hitems
  refine ⟨last.document, ?_⟩
  show Json.replace outer.trail (last.within first).document outer.document = _
  rw [Hop.document_within hfirst, hfilled, trail_of_locate houter, hdocument]
  rfl

/-- So does a write behind an item. -/
theorem document_of_writeAt_slot {position : Nat} {items : List Json}
    (harray : find? array document = some (.array items))
    (h : writeAt limit (slot array after position) value document = .ok document') :
    ∃ item, document' = Json.replace (trailOf array)
      (.array ((Hop.filled position items).set position item)) document := by
  obtain ⟨place, hp, rfl⟩ := writeAt_eq_ok.1 h
  obtain ⟨item, hitem⟩ := document_of_locate_slot harray hp
  have hresolve := Option.isSome_of_eq_some (resolve_of_find? harray)
  have hlength : position < (Hop.filled position items).length := by
    rw [Hop.length_filled]
    omega
  have hchild : (Json.array ((Hop.filled position items).set position item)).child?
      (.index position) = some item := List.getElem?_set_self hlength
  refine ⟨Json.replace (trailOf after) value item, ?_⟩
  rw [hitem, trailOf_slot, Json.replace_append_replace hresolve, Json.replace_cons hchild]
  exact congrArg (fun items => Json.replace _ (.array items) document) (List.set_set _)

/-- A write to an item puts it in. -/
theorem document_of_writeAt_item {position : Nat} {items : List Json}
    (harray : find? array document = some (.array items))
    (h : writeAt limit (slot array [] position) value document = .ok document') :
    document' = Json.replace (trailOf array)
      (.array ((Hop.filled position items).set position value)) document := by
  obtain ⟨item, rfl⟩ := document_of_writeAt_slot harray h
  have hwritten := resolve_of_writeAt h
  have hlength : position < (Hop.filled position items).length := by
    rw [Hop.length_filled]
    omega
  have hresolve := Option.isSome_of_eq_some (resolve_of_find? harray)
  rw [trailOf_slot, Json.resolve_append_replace hresolve] at hwritten
  replace hwritten : ((Hop.filled position items).set position item)[position]? >>=
      Json.resolve [] = some value := hwritten
  rw [List.getElem?_set_self hlength] at hwritten
  cases hwritten
  rfl

theorem kind_of_writeAt_slot {position : Nat}
    (h : writeAt limit (slot array after position) value document = .ok document') :
    document'.kind = document.kind := by
  obtain ⟨place, hp, rfl⟩ := writeAt_eq_ok.1 h
  rw [Json.kind_replace, kind_of_locate hp]
  rw [trailOf_slot]
  exact List.append_ne_nil_of_right_ne_nil _ (List.cons_ne_nil _ _)

/-! ### Writes one after another -/

/-- The document with one value behind each of some items of an array. -/
def writeSlots (limit : Nat) (array after : List Hop) (first : Nat) (value : Nat → Json)
    (count : Nat) (document : Json) : Except Fault Json :=
  (List.range count).foldlM (fun document index =>
    writeAt limit (slot array after (first + index)) (value index) document) document

variable {first count : Nat} {value : Nat → Json}

theorem writeSlots_succ :
    writeSlots limit array after first value (count + 1) document =
      writeSlots limit array after first value count document >>=
        writeAt limit (slot array after (first + count)) (value count) := by
  rw [writeSlots, List.range_succ, List.foldlM_append]
  simp only [List.foldlM_cons, List.foldlM_nil, bind_pure]
  rfl

/-- Writes at slots are not seen where the trail parts from all of theirs. -/
theorem find?_of_writeSlots
    (h : writeSlots limit array after first value count document = .ok document')
    {other : List Hop} {node : Json}
    (hapart : ∀ index < count, Apart (trailOf other) (trailOf (slot array after (first + index))))
    (hfind : find? other document = some node) : find? other document' = some node :=
  foldlM_range_induction (motive := fun _ written => find? other written = some node) h hfind
    fun index _ _ hi hwrite => find?_of_writeAt hwrite (hapart index hi)

theorem resolve_of_writeSlots_of_apart
    (h : writeSlots limit array after first value count document = .ok document')
    {trail : List Locator} {node : Json}
    (hapart : ∀ index < count, Apart trail (trailOf (slot array after (first + index))))
    (hresolve : Json.resolve trail document = some node) :
    Json.resolve trail document' = some node := by
  rw [← find?_alongTrail] at hresolve ⊢
  refine find?_of_writeSlots h ?_ hresolve
  rwa [trailOf_alongTrail]

/-- Each slot has its value in the end: the writes behind it go to other items. -/
theorem resolve_of_writeSlots
    (h : writeSlots limit array after first value count document = .ok document')
    {index : Nat} (hi : index < count) :
    Json.resolve (trailOf (slot array after (first + index))) document' = some (value index) := by
  refine foldlM_range_induction (motive := fun count written => ∀ index < count,
    Json.resolve (trailOf (slot array after (first + index))) written = some (value index))
    h nofun ?_ index hi
  intro last earlier written _ hwrite hearlier index hi
  rcases Nat.lt_succ_iff_lt_or_eq.1 hi with hlt | rfl
  · -- The slot was written before, and the last write has gone to another item.
    have hapart := apart_slot (show first + index ≠ first + last by omega) array after after
    exact resolve_of_writeAt_of_apart hwrite hapart (hearlier index hlt)
  · exact resolve_of_writeAt hwrite

/-- The array is filled up to the last slot. -/
theorem exists_items_of_writeSlots
    (h : writeSlots limit array after first value count document = .ok document')
    (hcount : 0 < count) :
    ∃ items, Json.resolve (trailOf array) document' = some (.array items) ∧
      items.length = max (itemCountAt (trailOf array) document) (first + count) := by
  refine (foldlM_range_induction (motive := fun count written => (count = 0 → written = document) ∧
    (0 < count → ∃ items, Json.resolve (trailOf array) written = some (.array items) ∧
      items.length = max (itemCountAt (trailOf array) document) (first + count)))
    h ⟨fun _ => rfl, fun hpos => (Nat.lt_irrefl 0 hpos).elim⟩ ?_).2 hcount
  intro last earlier written _ hwrite ⟨hnone, hsome⟩
  refine ⟨fun hzero => (Nat.succ_ne_zero last hzero).elim, fun _ => ?_⟩
  obtain ⟨items, hitems, hlength⟩ := exists_items_of_writeAt hwrite
  refine ⟨items, hitems, hlength.trans ?_⟩
  rcases Nat.eq_zero_or_pos last with rfl | hpos
  · rw [hnone rfl]
  · obtain ⟨before, hbefore, hlength'⟩ := hsome hpos
    have hcounted : itemCountAt (trailOf array) earlier = before.length := by
      simp [itemCountAt, hbefore, itemCount]
    omega

/-- Writes at slots leave the kind of the document. -/
theorem kind_of_writeSlots
    (h : writeSlots limit array after first value count document = .ok document') :
    document'.kind = document.kind :=
  foldlM_range_induction (motive := fun _ written => written.kind = document.kind) h rfl
    fun _ _ _ _ hwrite hearlier => (kind_of_writeAt_slot hwrite).trans hearlier

/-! ### Copies one after another -/

/-- A copy from a node that is found is a write. -/
theorem copyOne_of_find? {mapping : Option Mapping} {source target : List Hop} {node : Json}
    (h : find? source document = some node) :
    copyOne limit mapping source target document =
      writeAt limit target (mapped mapping node) document := by
  obtain ⟨origin, ho, hd, rfl⟩ := locate_of_find? limit h
  simp [copyOne, ho, hd]

/-- Copies read what was there in the beginning, if no slot that is written is one that is read. -/
theorem copySlots_eq_writeSlots {mapping : Option Mapping} {origin fromItem : List Hop}
    (hfind : ∀ index < count, find? (slot origin fromItem index) document = some (value index))
    (hapart : ∀ index < count, ∀ written < count, Apart (trailOf (slot origin fromItem index))
      (trailOf (slot array after (first + written)))) :
    (List.range count).foldlM (fun document index =>
        copyOne limit mapping (slot origin fromItem index)
          (slot array after (first + index)) document) document =
      writeSlots limit array after first (fun index => mapped mapping (value index)) count
        document := by
  induction count with
  | zero => rfl
  | succ count ih =>
    rw [writeSlots_succ, List.range_succ, List.foldlM_append]
    rw [ih (fun index hi => hfind index (by omega)) fun index hi written hw =>
      hapart index (by omega) written (by omega)]
    simp only [List.foldlM_cons, List.foldlM_nil, bind_pure]
    cases hearlier : writeSlots limit array after first (fun index => mapped mapping (value index))
        count document with
    | error e => rfl
    | ok earlier =>
      -- The node that is read next is still there: all writes so far have parted from it.
      refine copyOne_of_find? (find?_of_writeSlots hearlier ?_ (hfind count (by omega)))
      intro written hw
      exact hapart count (by omega) written (by omega)

end Direct

/-! ### Slots of a path -/

namespace ArrayPath

/-- The walk to the place behind one item. `mode` tells how a field at its end is entered. -/
def slot (mode : FieldMode) (path : ArrayPath) (position : Nat) : List Hop :=
  Direct.slot path.hops (Reshape.hops mode path.after) position

/-- How many items are passed over: as many as a container at the offset path has, or none without
an offset path. -/
def Skips (path : ArrayPath) (document : Json) (count : Nat) : Prop :=
  match path.offset? with
  | none => count = 0
  | some walk => ∃ container, find? walk document = some container ∧
      container.length? = some count

theorem passOver_of_skips {path : ArrayPath} {document : Json} {count : Nat}
    (h : path.Skips document count) (limit : Nat) :
    Direct.passOver limit path.offset? document = .ok (count, document) := by
  unfold Skips at h
  split at h
  case h_1 hoffset =>
    rw [hoffset, h]
    rfl
  case h_2 walk hoffset =>
    obtain ⟨container, hfind, hlength⟩ := h
    obtain ⟨place, hp, hd, rfl⟩ := locate_of_find? limit hfind
    simp [hoffset, Direct.passOver, hp, hd, size_eq_ok.2 hlength]

/-- Behind each item of an array a node is found, if one is found from the item itself. -/
theorem exists_find?_slot {path : ArrayPath} {mode : FieldMode} {document : Json}
    {items : List Json} (harray : find? path.hops document = some (.array items))
    (hafter : ∀ item ∈ items, (find? (Reshape.hops mode path.after) item).isSome) :
    ∃ value : Nat → Json, ∀ index < items.length,
      find? (path.slot mode index) document = some (value index) := by
  refine ⟨fun index => (find? (path.slot mode index) document).getD .null, fun index hi => ?_⟩
  have hstep : (Hop.item (some index)).find? (.array items) = some items[index] :=
    Hop.find?_eq_some.2 ⟨List.getElem?_eq_getElem hi, rfl⟩
  have hfind : find? (path.slot mode index) document =
      find? (Reshape.hops mode path.after) items[index] := by
    rw [slot, Direct.slot, find?_append, harray, Option.bind_some, find?, hstep, Option.bind_some]
  obtain ⟨node, hnode⟩ := Option.isSome_iff_exists.1 (hafter _ (List.getElem_mem hi))
  simp only [hfind, hnode, Option.getD_some]

end ArrayPath

end Reshape
