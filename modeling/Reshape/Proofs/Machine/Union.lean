import Reshape.Proofs.Entries
import Reshape.Proofs.Machine.Effect

/-!
# Merging objects

The instruction that merges two objects takes them off the element stack and leaves their union
there: `mergeObjects_is_union`.
-/

namespace Reshape.Machine

/-- Two objects on top of the element stack are replaced by their union, the upper one put into the
lower one. -/
theorem carryOut_mergeObjects {m : Machine} {lower upper : Entries String Json} {below : List Json}
    (h : m.elements.items = .object upper :: .object lower :: below) (run : Runner) :
    m.carryOut run .mergeObjects = some (.done { m with
      elements := { m.elements with items := .object (lower.merge upper) :: below } }) := by
  have hupper : Effect.takeElement.run m =
      .ok (.object upper) { m with elements := ⟨m.elements.name, .object lower :: below⟩ } := by
    rw [Effect.run_takeElement, Stack.pop, h]
  show some (Outcome.ofEffect (Effect.takeElement >>= _) m) = _
  rw [Outcome.ofEffect, Effect.run_bind_of_ok hupper]
  rfl

/-- **Merging objects is an ordered union in which the second one wins.** Take objects in which no
key occurs twice. The union of two has the keys of the first in their order and behind them the new
keys of the second in theirs, and under each key what the second has for it, or else what the first
has. In the union of three the grouping does not count, an empty object on either side changes
nothing, and neither does an object itself. -/
theorem mergeObjects_is_union {a b c : Entries String Json} (ha : a.WellFormed) (hb : b.WellFormed)
    (hc : c.WellFormed) :
    (∀ (m : Machine) (below : List Json) (run : Runner),
      m.elements.items = .object b :: .object a :: below →
      m.carryOut run .mergeObjects = some (.done { m with
        elements := { m.elements with items := .object (a.merge b) :: below } })) ∧
      (a.merge b).WellFormed ∧
      (a.merge b).keys = a.keys ++ b.keys.filter (· ∉ a.keys) ∧
      (∀ key, (a.merge b).get? key = (b.get? key).or (a.get? key)) ∧
      (a.merge b).merge c = a.merge (b.merge c) ∧
      Entries.merge [] a = a ∧ a.merge [] = a ∧ a.merge a = a := by
  exact ⟨fun m below run h => carryOut_mergeObjects h run, ha.merge b, Entries.keys_merge hb,
    Entries.get?_merge hb, Entries.merge_assoc ha hb hc, Entries.nil_merge ha, rfl,
    Entries.merge_self ha⟩

/-- Three objects that share fields, of which the middle one has a field of each of the others. -/
theorem mergeObjects_is_union_of_three :
    ∃ a b c : Entries String Json,
      a = [("x", .null), ("y", .bool true)] ∧ b = [("z", .text "b"), ("y", .bool false)] ∧
      c = [("z", .text "c"), ("x", .text "d")] ∧ a.WellFormed ∧ b.WellFormed ∧ c.WellFormed ∧
      a.merge b = [("x", .null), ("y", .bool false), ("z", .text "b")] ∧
      (a.merge b).keys = a.keys ++ b.keys.filter (· ∉ a.keys) ∧
      (a.merge b).merge c = [("x", .text "d"), ("y", .bool false), ("z", .text "c")] ∧
      a.merge (b.merge c) = [("x", .text "d"), ("y", .bool false), ("z", .text "c")] := by
  have ha : Entries.WellFormed [("x", Json.null), ("y", .bool true)] :=
    show List.Nodup ["x", "y"] by decide
  have hb : Entries.WellFormed [("z", Json.text "b"), ("y", .bool false)] :=
    show List.Nodup ["z", "y"] by decide
  have hc : Entries.WellFormed [("z", Json.text "c"), ("x", .text "d")] :=
    show List.Nodup ["z", "x"] by decide
  obtain ⟨-, -, hkeys, -, hassoc, -⟩ := mergeObjects_is_union ha hb hc
  exact ⟨_, _, _, rfl, rfl, rfl, ha, hb, hc, rfl, hkeys, rfl, hassoc.symm⟩

end Reshape.Machine
