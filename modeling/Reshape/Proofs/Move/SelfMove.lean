import Reshape.Proofs.Move.Offset

/-!
# Moves from an array to itself

A move from the items of an array to the items of the same array, past an offset. The copies go one
after another from the first item to the last, each on what the ones before it have left, so items
that have been written are read again as soon as the copies come to them.

* `Repeats`, the items after some copies: those written repeat the ones passed over, those behind
  are still as they were, with `Repeats.copy` for one more copy;
* `apply_repeats_items`: such a move repeats the items that it passes over;
* `apply_loses_item`, an item that is written over before it is read.
-/

namespace Reshape

/-- The items of an array after some copies past an offset: below the last of them, they repeat the
items that are passed over; behind it, they are the old ones. An offset of none moves nothing. -/
structure Repeats (first count : Nat) (items written : List Json) : Prop where
  below : ∀ index < first + count, index % first < items.length →
    written[index]? = items[index % first]?
  behind : ∀ index, first + count ≤ index → index < items.length → written[index]? = items[index]?
  length : written.length = if count = 0 then items.length else max items.length (first + count)

namespace Repeats

variable {first count : Nat} {items written : List Json}

theorem refl (first : Nat) (items : List Json) : Repeats first 0 items items where
  below := fun index hi _ => by rw [Nat.mod_eq_of_lt (by omega)]
  behind := fun _ _ _ => rfl
  length := rfl

/-- The next item to be read repeats one that is passed over, or is still there. -/
theorem getElem? (h : Repeats first count items written) (hcount : count < items.length) :
    written[count]? = items[count % first]? := by
  by_cases hfirst : first = 0
  · subst hfirst
    rw [Nat.mod_zero]
    exact h.behind count (by omega) hcount
  · have hmod : count % first ≤ count := Nat.mod_le count first
    exact h.below count (by omega) (by omega)

/-- One more copy. -/
theorem copy (h : Repeats first count items written) {item : Json}
    (hitem : items[count % first]? = some item) :
    Repeats first (count + 1) items
      ((Hop.filled (first + count) written).set (first + count) item) := by
  have hfilled := Hop.length_filled (first + count) written
  have hkept (index : Nat) (hne : first + count ≠ index) (value : Json)
      (hvalue : written[index]? = some value) :
      ((Hop.filled (first + count) written).set (first + count) item)[index]? = some value := by
    obtain ⟨hlt, -⟩ := List.getElem?_eq_some_iff.1 hvalue
    rw [List.getElem?_set_ne hne, Hop.filled, List.getElem?_append_left hlt, hvalue]
  constructor
  · intro index hi hmod
    by_cases hlast : first + count = index
    · subst hlast
      rw [List.getElem?_set_self (by omega), Nat.add_mod_left, hitem]
    · have hvalue := h.below index (by omega) hmod
      rw [List.getElem?_eq_getElem hmod] at hvalue ⊢
      exact hkept index hlast _ hvalue
  · intro index hi hlength
    have hvalue := h.behind index (by omega) hlength
    rw [List.getElem?_eq_getElem hlength] at hvalue ⊢
    exact hkept index (by omega) _ hvalue
  · have hlength := h.length
    rw [List.length_set, hfilled, hlength, if_neg (Nat.succ_ne_zero count)]
    split <;> omega

end Repeats

namespace Move

variable {move : Move} {source target : ArrayPath}

/-- **A move from an array to itself repeats the items that it passes over.** Source and target are
the items of one array, and nothing behind them. Then the items from the offset on are the first
ones over and over, as many as the offset has; these are left as they were. So the items are moved
by the offset only if there are no more of them than it passes over. -/
theorem apply_repeats_items (hpaths : move.paths = .ok (source.components, target.components))
    (hsource : source.WellFormed) (htarget : target.WellFormed) (hmapping : move.mapping = none)
    (hsame : source.hops = target.hops) (hafter : source.after = []) (hbehind : target.after = [])
    {document document' : Json} (hsize : document.SizedBelow (2 ^ 52)) {items : List Json}
    (harray : find? target.hops document = some (.array items))
    {first : Nat} (hfirst : target.Skips document first)
    (h : move.apply document = .ok document') :
    ∃ written, document' = Json.replace (trailOf target.hops) (.array written) document ∧
      (∀ index < items.length, written[first + index]? = items[index % first]?) ∧
      (∀ index < first, index < items.length → written[index]? = items[index]?) ∧
      (items ≠ [] → written.length = first + items.length) := by
  have hread : find? source.hops document = some (.array items) := hsame ▸ harray
  have hcopies := copies_of_apply hpaths hsource htarget hsize hread hfirst h
  have hsourceSlot (index : Nat) : source.slot .leaf index = Direct.slot target.hops [] index := by
    rw [ArrayPath.slot, hsame, hafter]
    rfl
  have htargetSlot (index : Nat) : target.slot .leaf index = Direct.slot target.hops [] index := by
    rw [ArrayPath.slot, hbehind]
    rfl
  have hrounds : ∃ written,
      document' = Json.replace (trailOf target.hops) (.array written) document ∧
        Repeats first items.length items written := by
    refine foldlM_range_induction (motive := fun count changed => ∃ written,
      changed = Json.replace (trailOf target.hops) (.array written) document ∧
        Repeats first count items written) hcopies ?_ ?_
    · exact ⟨items, (Json.replace_self (resolve_of_find? harray)).symm, .refl first items⟩
    · rintro index _ changed hi hcopy ⟨written, rfl, hwritten⟩
      obtain ⟨item, hitem⟩ : ∃ item, items[index % first]? = some item :=
        ⟨_, List.getElem?_eq_getElem (Nat.lt_of_le_of_lt (Nat.mod_le index first) hi)⟩
      have hitem' : written[index]? = some item := (hwritten.getElem? hi).trans hitem
      have harray' := find?_replace_node harray (.array written) rfl
      -- The item is read where the copies before may have written it.
      have hfind : find? (Direct.slot target.hops [] index)
          (Json.replace (trailOf target.hops) (.array written) document) = some item := by
        rw [Direct.slot, find?_append, harray', Option.bind_some]
        exact find?_cons.2 ⟨item, Hop.find?_eq_some.2 ⟨hitem', rfl⟩, rfl⟩
      rw [hsourceSlot, htargetSlot, Direct.copyOne_of_find? hfind, hmapping] at hcopy
      refine ⟨_, ?_, hwritten.copy hitem⟩
      rw [Direct.document_of_writeAt_item harray' hcopy]
      exact Json.replace_replace (Option.isSome_of_eq_some (resolve_of_find? harray)) _ _
  obtain ⟨written, hdocument, hwritten⟩ := hrounds
  refine ⟨written, hdocument, ?_, ?_, ?_⟩
  · intro index hi
    have hmod : index % first ≤ index := Nat.mod_le index first
    have hslot := hwritten.below (first + index) (by omega)
    rw [Nat.add_mod_left] at hslot
    exact hslot (by omega)
  · intro index hi hlength
    have hslot := hwritten.below index (by omega)
    rw [Nat.mod_eq_of_lt hi] at hslot
    exact hslot hlength
  · intro hne
    have hpos : 0 < items.length := List.length_pos_iff.2 hne
    rw [hwritten.length, if_neg (by omega)]
    omega

/-- An array of three items is moved by one: all of it becomes the first item. -/
theorem apply_repeats_items_of_three :
    ∃ document', Move.apply ⟨"$.a[*]", "$.a[*+$.b]", none⟩
        (.object [("a", .array [.text "u", .text "v", .text "w"]), ("b", .array [.null])]) =
          .ok document' ∧
      ∃ written, document' = .object [("a", .array written), ("b", .array [.null])] ∧
        written.length = 4 ∧ ∀ index < 3, written[1 + index]? = some (.text "u") := by
  obtain ⟨document', happly⟩ := exists_ok_of_isOk (x :=
    Move.apply ⟨"$.a[*]", "$.a[*+$.b]", none⟩
      (.object [("a", .array [.text "u", .text "v", .text "w"]), ("b", .array [.null])]))
    (by decide +kernel)
  have hsource : ArrayPath.WellFormed ⟨[], .arrayAll "a", []⟩ :=
    ⟨List.forall_mem_nil _, trivial, List.forall_mem_nil _⟩
  have htarget : ArrayPath.WellFormed ⟨[], .arrayAllOffset "a" "$.b", []⟩ :=
    ⟨List.forall_mem_nil _, trivial, List.forall_mem_nil _⟩
  have hfirst : ArrayPath.Skips ⟨[], .arrayAllOffset "a" "$.b", []⟩
      (.object [("a", .array [.text "u", .text "v", .text "w"]), ("b", .array [.null])]) 1 :=
    ⟨_, rfl, rfl⟩
  obtain ⟨written, hdocument, hrepeats, -, hlength⟩ := apply_repeats_items rfl hsource htarget rfl
    rfl rfl rfl (Json.sizedBelow_of_widest_lt _ (by decide)) rfl hfirst happly
  refine ⟨document', happly, written, hdocument, hlength (by decide), ?_⟩
  intro index hi
  rw [hrepeats index hi, Nat.mod_one]
  rfl

/-- The second of two items is written over before it is read. -/
theorem apply_loses_item :
    ∃ document', Move.apply ⟨"$.a[*]", "$.a[*+$.b]", none⟩
        (.object [("a", .array [.text "u", .text "v"]), ("b", .array [.null])]) = .ok document' ∧
      Json.resolve [.field "a", .index 1]
        (.object [("a", .array [.text "u", .text "v"]), ("b", .array [.null])]) =
          some (.text "v") ∧
      Json.resolve [.field "a", .index 2] document' = some (.text "u") := by
  have hchecked : ∃ document', Move.apply ⟨"$.a[*]", "$.a[*+$.b]", none⟩
      (.object [("a", .array [.text "u", .text "v"]), ("b", .array [.null])]) = .ok document' :=
    exists_ok_of_isOk (by decide +kernel)
  obtain ⟨document', happly⟩ := hchecked
  have hdirect : document' = .object [("a", .array [.text "u", .text "u", .text "u"]),
      ("b", .array [.null])] :=
    (Except.ok.inj (direct_of_apply (Json.sizedBelow_of_widest_lt _ (by decide)) happly)).symm
  refine ⟨document', happly, rfl, ?_⟩
  rw [hdirect]
  rfl

end Move

end Reshape
