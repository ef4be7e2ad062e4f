import Reshape.Proofs.Move.Correct
import Reshape.Proofs.Move.Slots

/-!
# Moves from one node to items

What a move does that copies one node to every item of an array.

* `Direct.copyToEach_eq_ok`, the writes that such a copy makes on the array alone;
* `direct_replication`, the direct copy of such a move;
* `apply_fills_items`: the copies go to every item, and nothing else is touched.
-/

namespace Reshape

namespace Direct

variable {limit : Nat} {mapping : Option Mapping} {source array after : List Hop}
  {document document' value : Json}

/-- A copy to each item writes to the items of one array, which has an item at least, and puts that
in place of the node at the target. The node has the items that the array has, or none. -/
theorem copyToEach_eq_ok (hvalue : find? source document = some value)
    (h : copyToEach limit mapping source array after document = .ok document') :
    ∃ place items written, locate limit array document = .ok place ∧
      (place.node = .array items ∨ items = [Json.emptyObject] ∧ place.node.length? = some 0) ∧
      items.length = max 1 (itemCountAt (trailOf array) document) ∧
      writeSlots limit [] after 0 (fun _ => mapped mapping value) items.length (.array items) =
        .ok written ∧
      document' = Json.replace (trailOf array) written place.document := by
  obtain ⟨origin, ho, hd, rfl⟩ := locate_of_find? limit hvalue
  simp only [copyToEach, ho, hd, ok_bind] at h
  obtain ⟨place, hp, h⟩ := bind_eq_ok.1 h
  obtain ⟨count, hcount, h⟩ := bind_eq_ok.1 h
  obtain ⟨written, hwritten, h⟩ := bind_eq_ok.1 h
  cases h
  have hwrites : writeSlots limit [] after 0 (fun _ => mapped mapping origin.node) (max 1 count)
      (if count = 0 then Move.singleItem else place.node) = .ok written := by
    simp only [writeSlots, Nat.zero_add]
    exact hwritten
  by_cases hzero : count = 0
  · subst hzero
    have hempty := size_eq_ok.1 hcount
    refine ⟨place, [Json.emptyObject], written, hp, .inr ⟨rfl, hempty⟩, ?_, hwrites, ?_⟩
    · rw [← itemCount_of_locate hp, itemCount_of_blank (Json.child?_of_empty hempty)]
      rfl
    · rw [← trail_of_locate hp]
      rfl
  · rw [if_neg hzero] at hwrites
    -- A node with children that is no array has no item to write to.
    have hkind : place.node.kind = .array := by
      obtain ⟨items, hitems, -⟩ := exists_items_of_writeSlots hwrites (by omega)
      rw [← kind_of_writeSlots hwrites, Option.some.inj hitems]
      rfl
    obtain ⟨items, hitems⟩ : ∃ items, place.node = .array items := by
      cases hn : place.node <;> simp_all [Json.kind]
    obtain rfl : items.length = count := by
      have hlength := size_eq_ok.1 hcount
      rw [hitems] at hlength
      exact Option.some.inj hlength
    have hmax : max 1 items.length = items.length := by omega
    rw [hitems, hmax] at hwrites
    refine ⟨place, items, written, hp, .inl hitems, ?_, hwrites, ?_⟩
    · rw [← itemCount_of_locate hp, hitems]
      exact hmax.symm
    · rw [← trail_of_locate hp]
      rfl

section Fill

variable {place : Place} {items : List Json} {written node : Json} {fill : Nat → Json}

/-- A node that parts from all slots is found again, also if it is in the array. -/
theorem find?_of_fill (hp : locate limit array document = .ok place)
    (hitems : place.node = .array items ∨
      items = [Json.emptyObject] ∧ place.node.length? = some 0)
    (hwrites : writeSlots limit [] after 0 fill items.length (.array items) = .ok written)
    (hpos : 0 < items.length) {other : List Hop}
    (hother : ∀ index < items.length, Apart (trailOf other) (trailOf (slot array after index)))
    (hfind : find? other document = some node) :
    find? other (Json.replace (trailOf array) written place.document) = some node := by
  have hfirst := hother 0 hpos
  rw [trailOf_slot] at hfirst
  have hkept := find?_of_locate hp (by simp [Locator.container]) hfirst hfind
  -- The node is outside of the array, or the array itself was there in the beginning.
  rcases hfirst.of_append with hapart | ⟨rest, hrest⟩
  · rw [find?_replace hapart]
    exact hkept
  · obtain ⟨outer, inner, rfl, houter, -⟩ := List.map_eq_append_iff.1 hrest
    replace houter : trailOf outer = trailOf array := houter
    rw [find?_append, Option.bind_eq_some_iff] at hkept
    obtain ⟨base, hbase, hinner⟩ := hkept
    have hnode := resolve_of_find? hbase
    rw [houter, ← trail_of_locate hp, place.resolves] at hnode
    cases hnode
    have hbehind : ∀ index < items.length,
        Apart (trailOf inner) (trailOf (slot [] after (0 + index))) := by
      intro index hi
      have hindex := hother index hi
      rw [trailOf_slot, trailOf, List.map_append, ← trailOf, ← trailOf, houter,
        Apart.append_left_iff] at hindex
      rw [trailOf_slot, Nat.zero_add]
      exact hindex
    have harray : place.node = .array items := by
      rcases hitems with hitems | ⟨-, hempty⟩
      · exact hitems
      · cases inner with
        | nil => exact (hbehind 0 hpos).elim
        | cons hop inner =>
          obtain ⟨child, hchild, -⟩ := find?_cons.1 hinner
          have hnone := (Hop.find?_eq_some.1 hchild).1
          rw [Json.child?_of_empty hempty] at hnone
          cases hnone
    have hkind : written.kind = place.node.kind := by rw [kind_of_writeSlots hwrites, harray]
    have hwritten := find?_replace_node hbase written hkind
    rw [houter] at hwritten
    rw [harray] at hinner
    rw [find?_append, hwritten, Option.bind_some]
    exact find?_of_writeSlots hwrites hbehind hinner

theorem resolve_of_fill (hp : locate limit array document = .ok place)
    (hitems : place.node = .array items ∨
      items = [Json.emptyObject] ∧ place.node.length? = some 0)
    (hwrites : writeSlots limit [] after 0 fill items.length (.array items) = .ok written)
    (hpos : 0 < items.length) {trail : List Locator}
    (htrail : ∀ index < items.length, Apart trail (trailOf (slot array after index)))
    (hnode : Json.resolve trail document = some node) :
    Json.resolve trail (Json.replace (trailOf array) written place.document) = some node := by
  rw [← find?_alongTrail] at hnode ⊢
  refine find?_of_fill hp hitems hwrites hpos ?_ hnode
  rwa [trailOf_alongTrail]

end Fill

end Direct

namespace Move

variable {move : Move} {source : List Component} {target : ArrayPath}

theorem direct_replication (hpaths : move.paths = .ok (source, target.components))
    (hsource : ∀ component ∈ source, component.IsSingle) (htarget : target.WellFormed)
    (limit : Nat) (document : Json) :
    move.direct limit document =
      Direct.copyToEach limit move.mapping (hops .object source) target.hops
        (hops .object target.after) document := by
  have hselect : Strategy.select source target.components = .replication := by
    rw [Strategy.select, any_isPattern_eq_false hsource, ArrayPath.any_isPattern htarget]
    rfl
  rw [direct, hpaths]
  simp only [hselect, ArrayPath.ofComponents?_eq_ok.2 ⟨rfl, htarget⟩]

/-- **A move from one node to items reaches every item.** The array at the target has as many items
as were there, and one at least; the slot behind each of them has the value that was at the source,
or what the table has for it; and every node that parts from all slots is left alone. The source may
be at, above or below a slot. -/
theorem apply_fills_items (hpaths : move.paths = .ok (source, target.components))
    (hsource : ∀ component ∈ source, component.IsSingle) (htarget : target.WellFormed)
    {document document' value : Json} (hsize : document.SizedBelow (2 ^ 52))
    (hvalue : find? (hops .object source) document = some value)
    (h : move.apply document = .ok document') :
    ∃ written copied, Json.resolve (trailOf target.hops) document' = some (.array written) ∧
      written.length = max 1 (itemCountAt (trailOf target.hops) document) ∧
      Direct.Translates move.mapping value copied ∧
      (∀ index < written.length,
        Json.resolve (trailOf (target.slot .object index)) document' = some copied) ∧
      ∀ trail node,
        (∀ index < written.length, Apart trail (trailOf (target.slot .object index))) →
        Json.resolve trail document = some node → Json.resolve trail document' = some node := by
  have hdirect := direct_of_apply hsize h
  rw [direct_replication hpaths hsource htarget] at hdirect
  obtain ⟨place, items, written, hp, hitems, hlength, hwrites, rfl⟩ :=
    Direct.copyToEach_eq_ok hvalue hdirect
  have hpos : 0 < items.length := by omega
  obtain ⟨final, hfinal, hcount⟩ := Direct.exists_items_of_writeSlots hwrites hpos
  cases hfinal
  replace hcount : final.length = items.length := hcount.trans (by
    show max items.length (0 + items.length) = items.length
    omega)
  -- Behind the target, the document is what has been filled.
  have hinside (rest : List Locator) :
      Json.resolve (trailOf target.hops ++ rest)
        (Json.replace (trailOf target.hops) (.array final) place.document) =
          Json.resolve rest (.array final) := by
    rw [← trail_of_locate hp]
    exact Json.resolve_append_replace place.isSome rest _
  refine ⟨final, Direct.mapped move.mapping value, ?_, hcount.trans hlength,
    Direct.translates_mapped move.mapping value, ?_, ?_⟩
  · simpa using hinside []
  · intro index hi
    have hslot := Direct.resolve_of_writeSlots hwrites (hcount ▸ hi)
    rw [Direct.trailOf_slot, Nat.zero_add] at hslot
    rw [ArrayPath.slot, Direct.trailOf_slot, hinside]
    exact hslot
  · intro trail node htrail hnode
    rw [hcount] at htrail
    exact Direct.resolve_of_fill hp hitems hwrites hpos htrail hnode

/-- An object is copied into each item of an array of its own, as it was before the first copy. The
table has nothing for an object. It has a value for a text, which is copied in its place into the one
item of an array that is made for it. -/
theorem apply_fills_items_of_source :
    (∃ document', Move.apply ⟨"$.a", "$.a.b[*].c", some [("u", .bool true)]⟩
        (.object [("a", .object [("b", .array [.object [], .object []])]), ("d", .text "u")]) =
          .ok document' ∧
      (∃ written, Json.resolve [.field "a", .field "b"] document' = some (.array written) ∧
        written.length = 2) ∧
      (∀ index < 2, Json.resolve [.field "a", .field "b", .index index, .field "c"] document' =
        some (.object [("b", .array [.object [], .object []])])) ∧
      Json.resolve [.field "d"] document' = some (.text "u")) ∧
    ∃ document', Move.apply ⟨"$.d", "$.e[*].c", some [("u", .bool true)]⟩
        (.object [("d", .text "u")]) = .ok document' ∧
      (∃ written, Json.resolve [.field "e"] document' = some (.array written) ∧
        written.length = 1) ∧
      Json.resolve [.field "e", .index 0, .field "c"] document' = some (.bool true) ∧
      Json.resolve [.field "d"] document' = some (.text "u") := by
  have hsource (name : String) : ∀ component ∈ [Component.field name], component.IsSingle := by
    simp [Component.IsSingle, Component.isPattern]
  constructor
  · obtain ⟨document', happly⟩ := exists_ok_of_isOk (x :=
      Move.apply ⟨"$.a", "$.a.b[*].c", some [("u", .bool true)]⟩
        (.object [("a", .object [("b", .array [.object [], .object []])]), ("d", .text "u")]))
      (by decide +kernel)
    have htarget : ArrayPath.WellFormed ⟨[.field "a"], .arrayAll "b", [.field "c"]⟩ :=
      ⟨hsource "a", trivial, hsource "c"⟩
    obtain ⟨written, copied, harray, hlength, htranslates, hslots, hframe⟩ :=
      apply_fills_items rfl (hsource "a") htarget (Json.sizedBelow_of_widest_lt _ (by decide)) rfl
        happly
    replace hlength : written.length = 2 := hlength
    cases htranslates
    refine ⟨document', happly, ⟨written, harray, hlength⟩, fun index hi => ?_, ?_⟩
    · exact hslots index (by omega)
    · refine hframe [.field "d"] _ (fun index _ => ?_) rfl
      exact Apart.cons_of_apart (by decide) _ _
  · obtain ⟨document', happly⟩ := exists_ok_of_isOk (x :=
      Move.apply ⟨"$.d", "$.e[*].c", some [("u", .bool true)]⟩ (.object [("d", .text "u")]))
      (by decide +kernel)
    have htarget : ArrayPath.WellFormed ⟨[], .arrayAll "e", [.field "c"]⟩ :=
      ⟨List.forall_mem_nil _, trivial, hsource "c"⟩
    obtain ⟨written, copied, harray, hlength, htranslates, hslots, hframe⟩ :=
      apply_fills_items rfl (hsource "d") htarget (Json.sizedBelow_of_widest_lt _ (by decide)) rfl
        happly
    replace hlength : written.length = 1 := hlength
    obtain rfl : copied = .bool true := by
      cases htranslates with
      | hit htable hkey =>
        cases htable
        cases hkey
        rfl
      | miss h => cases h _ _ rfl rfl
    refine ⟨document', happly, ⟨written, harray, hlength⟩, ?_, ?_⟩
    · exact hslots 0 (by omega)
    · refine hframe [.field "d"] _ (fun index _ => ?_) rfl
      exact Apart.cons_of_apart (by decide) _ _

end Move

end Reshape
