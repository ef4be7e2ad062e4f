import Reshape.Proofs.Move.Correct
import Reshape.Proofs.Move.Slots

/-!
# Moves from items to items

What a move does that copies from each item of one array to an item of another.

* `direct_patternMove`, the direct copy of such a move, and `copies_of_apply`, the copies that it is
  made of;
* `apply_copies_items`: the copies go index for index, and nothing else is touched.
-/

namespace Reshape.Move

variable {move : Move} {source target : ArrayPath}

theorem direct_patternMove (hpaths : move.paths = .ok (source.components, target.components))
    (hsource : source.WellFormed) (htarget : target.WellFormed) (limit : Nat) (document : Json) :
    move.direct limit document =
      Direct.copyItems limit move.mapping target.offset? source.hops (hops .leaf source.after)
        target.hops (hops .leaf target.after) document := by
  have hselect : Strategy.select source.components target.components = .patternMove :=
    if_pos (ArrayPath.any_isPattern hsource)
  rw [direct, hpaths]
  simp only [hselect, ArrayPath.ofComponents?_eq_ok.2 ⟨rfl, hsource⟩,
    ArrayPath.ofComponents?_eq_ok.2 ⟨rfl, htarget⟩]

/-- A move from items to items is one copy after another, each on what the ones before have left. -/
theorem copies_of_apply (hpaths : move.paths = .ok (source.components, target.components))
    (hsource : source.WellFormed) (htarget : target.WellFormed) {document document' : Json}
    (hsize : document.SizedBelow (2 ^ 52)) {items : List Json}
    (harray : find? source.hops document = some (.array items)) {first : Nat}
    (hfirst : target.Skips document first) (h : move.apply document = .ok document') :
    (List.range items.length).foldlM (fun document index =>
      Direct.copyOne ({} : Limits).arrayPadding move.mapping (source.slot .leaf index)
        (target.slot .leaf (first + index)) document) document = .ok document' := by
  obtain ⟨place, hp, hd, hn⟩ := locate_of_find? ({} : Limits).arrayPadding harray
  have hsizeOf : size place.node = .ok items.length := by rw [hn]; rfl
  rw [← direct_of_apply hsize h, direct_patternMove hpaths hsource htarget, Direct.copyItems,
    ArrayPath.passOver_of_skips hfirst]
  simp only [ok_bind, hp, hsizeOf, hd]
  rfl

/-- **A move from items to items copies index for index.** The source array has some items, the
source path goes on from each of them, and no node that is read is at, above or below one that is
written. Then the slots of the target, past those that are passed over, have the values that were
at the slots of the source; the target array is as long as it has to be; and every node that parts
from the slots of the target is left alone. -/
theorem apply_copies_items (hpaths : move.paths = .ok (source.components, target.components))
    (hsource : source.WellFormed) (htarget : target.WellFormed) {document document' : Json}
    (hsize : document.SizedBelow (2 ^ 52)) {items : List Json}
    (harray : find? source.hops document = some (.array items))
    (hafter : ∀ item ∈ items, (find? (hops .leaf source.after) item).isSome)
    {first : Nat} (hfirst : target.Skips document first)
    (hapart : ∀ index < items.length, ∀ written < items.length,
      Apart (trailOf (source.slot .leaf index)) (trailOf (target.slot .leaf (first + written))))
    (h : move.apply document = .ok document') :
    (∀ index < items.length, ∃ value,
      Json.resolve (trailOf (source.slot .leaf index)) document = some value ∧
      Json.resolve (trailOf (target.slot .leaf (first + index))) document' =
        some (Direct.mapped move.mapping value)) ∧
    (items ≠ [] → ∃ written,
      Json.resolve (trailOf target.hops) document' = some (.array written) ∧
      written.length = max (itemCountAt (trailOf target.hops) document) (first + items.length)) ∧
    ∀ trail node,
      (∀ index < items.length, Apart trail (trailOf (target.slot .leaf (first + index)))) →
      Json.resolve trail document = some node → Json.resolve trail document' = some node := by
  obtain ⟨value, hvalue⟩ := ArrayPath.exists_find?_slot harray hafter
  obtain ⟨place, hp, hd, hn⟩ := locate_of_find? ({} : Limits).arrayPadding harray
  have hsizeOf : size place.node = .ok items.length := by rw [hn]; rfl
  -- The copies read what the document had, so they are writes of values that are known before.
  have hwrites : Direct.writeSlots ({} : Limits).arrayPadding target.hops
      (hops .leaf target.after) first (fun index => Direct.mapped move.mapping (value index))
      items.length document = .ok document' := by
    rw [← Direct.copySlots_eq_writeSlots hvalue hapart, ← direct_of_apply hsize h,
      direct_patternMove hpaths hsource htarget, Direct.copyItems,
      ArrayPath.passOver_of_skips hfirst]
    simp only [ok_bind, hp, hsizeOf, hd]
    rfl
  refine ⟨?_, ?_, ?_⟩
  · intro index hi
    have hread := resolve_of_find? (hvalue index hi)
    exact ⟨value index, hread, Direct.resolve_of_writeSlots hwrites hi⟩
  · intro hne
    have hpos : 0 < items.length := List.length_pos_iff.2 hne
    exact Direct.exists_items_of_writeSlots hwrites hpos
  · intro trail node htrail hnode
    exact Direct.resolve_of_writeSlots_of_apart hwrites htrail hnode

/-- The two items go behind the one that is there. The table has a value for one of them. -/
theorem apply_copies_items_past_offset :
    ∃ document', Move.apply ⟨"$.a[*].x", "$.b[*+$.b].y", some [("u", .bool true)]⟩
        (.object [("a", .array [.object [("x", .text "u")], .object [("x", .text "v")]]),
          ("b", .array [.null])]) = .ok document' ∧
      Json.resolve [.field "b", .index 1, .field "y"] document' = some (.bool true) ∧
      Json.resolve [.field "b", .index 2, .field "y"] document' = some (.text "v") ∧
      (∃ written, Json.resolve [.field "b"] document' = some (.array written) ∧
        written.length = 3) ∧
      Json.resolve [.field "b", .index 0] document' = some .null := by
  obtain ⟨document', happly⟩ := exists_ok_of_isOk (x :=
    Move.apply ⟨"$.a[*].x", "$.b[*+$.b].y", some [("u", .bool true)]⟩
      (.object [("a", .array [.object [("x", .text "u")], .object [("x", .text "v")]]),
        ("b", .array [.null])])) (by decide +kernel)
  have hsource : ArrayPath.WellFormed ⟨[], .arrayAll "a", [.field "x"]⟩ :=
    ⟨List.forall_mem_nil _, trivial, by simp [Component.IsSingle, Component.isPattern]⟩
  have htarget : ArrayPath.WellFormed ⟨[], .arrayAllOffset "b" "$.b", [.field "y"]⟩ :=
    ⟨List.forall_mem_nil _, trivial, by simp [Component.IsSingle, Component.isPattern]⟩
  have hfirst : ArrayPath.Skips ⟨[], .arrayAllOffset "b" "$.b", [.field "y"]⟩
      (.object [("a", .array [.object [("x", .text "u")], .object [("x", .text "v")]]),
        ("b", .array [.null])]) 1 := ⟨_, rfl, rfl⟩
  obtain ⟨hslots, harray, hframe⟩ := apply_copies_items rfl hsource htarget
    (Json.sizedBelow_of_widest_lt _ (by decide)) rfl (by decide) hfirst (by decide) happly
  refine ⟨document', happly, ?_, ?_, harray (by decide), ?_⟩
  · obtain ⟨value, hv, hslot⟩ := hslots 0 (by decide)
    cases hv
    exact hslot
  · obtain ⟨value, hv, hslot⟩ := hslots 1 (by decide)
    cases hv
    exact hslot
  · exact hframe [.field "b", .index 0] _ (by decide) rfl

end Reshape.Move
