import Reshape.Proofs.Move.Correct
import Reshape.Proofs.Move.Slots

/-!
# Moves from one node to one place

What a move does that copies one node to one place.

* `direct_simpleMove`, the direct copy of such a move;
* `copyOne_of_apply`, which has been made when the move has been applied, whatever the sizes are;
* `apply_copies_node`: the place has the value of the node, and nothing else is touched.
-/

namespace Reshape.Move

variable {move : Move} {source target : List Component}

theorem select_simpleMove (hsource : ∀ component ∈ source, component.IsSingle)
    (htarget : ∀ component ∈ target, component.IsSingle) :
    Strategy.select source target = .simpleMove := by
  rw [Strategy.select, any_isPattern_eq_false hsource, any_isPattern_eq_false htarget]
  rfl

theorem direct_simpleMove (hpaths : move.paths = .ok (source, target))
    (hsource : ∀ component ∈ source, component.IsSingle)
    (htarget : ∀ component ∈ target, component.IsSingle) (limit : Nat) (document : Json) :
    move.direct limit document =
      Direct.copyOne limit move.mapping (hops .object source) (hops .leaf target) document := by
  rw [direct, hpaths]
  simp only [select_simpleMove hsource htarget]

/-- The program of such a move measures nothing, so it makes the direct copy on a document of any
size. -/
theorem copyOne_of_apply (hpaths : move.paths = .ok (source, target))
    (hsource : ∀ component ∈ source, component.IsSingle)
    (htarget : ∀ component ∈ target, component.IsSingle) {document document' : Json}
    (h : move.apply document = .ok document') :
    Direct.copyOne ({} : Limits).arrayPadding move.mapping (hops .object source)
      (hops .leaf target) document = .ok document' := by
  obtain ⟨program, hp⟩ := exists_program_of_apply h
  obtain ⟨toSource, toTarget, hs, ht, rfl⟩ : ∃ toSource toTarget : Route,
      toSource.Follows (hops .object source) ∧ toTarget.Follows (hops .leaf target) ∧
        program = .reset :: copyNode move.mapping toSource toTarget := by
    simp only [Move.program, hpaths, mapError_ok, ok_bind] at hp
    obtain ⟨rest, hcopy, hp⟩ := bind_eq_ok.1 hp
    obtain ⟨toSource, toTarget, hs, ht, rfl⟩ :=
      exists_copyNode (select_simpleMove hsource htarget) hcopy
    cases hp
    exact ⟨toSource, toTarget, hs, ht, rfl⟩
  have hrealizes (fuel : Nat)
      (hfuel : Program.nesting (copyNode move.mapping toSource toTarget) ≤ fuel) :
      Realizes {} fuel (copyNode move.mapping toSource toTarget)
        ⟨.atRoot document, [], [], [], 1⟩
        (Direct.copyOne ({} : Limits).arrayPadding move.mapping (hops .object source)
          (hops .leaf target) document) fun document s => s.place.document = document := by
    have hpos := Nat.le_trans (le_nesting _) hfuel
    obtain ⟨less, rfl⟩ : ∃ less, fuel = less + 1 := ⟨fuel - 1, by omega⟩
    exact (realizes_copyOne hs ht _ _).mono fun _ _ _ hshown => hshown.document
  obtain ⟨o, ho, hagrees⟩ := run_reset_agrees (m := (Machine.start document {} false).record
    (.executing (copyNode move.mapping toSource toTarget).length.succ false))
    (Nat.le_refl _) hrealizes
  exact result_of_apply hp ho hagrees h

/-- **A move from one node to one place is a copy.** The target has the value that was at the
source, or what the table has for it; every node that parts from the target is left alone; and the
objects on the way to the target keep their keys in order, a new key going behind them. Source and
target may be at, above or below each other. -/
theorem apply_copies_node (hpaths : move.paths = .ok (source, target))
    (hsource : ∀ component ∈ source, component.IsSingle)
    (htarget : ∀ component ∈ target, component.IsSingle) {document document' value : Json}
    (hsize : document.SizedBelow (2 ^ 52))
    (hvalue : find? (hops .object source) document = some value)
    (h : move.apply document = .ok document') :
    (∃ copied, Direct.Translates move.mapping value copied ∧
        Json.resolve (trailOf (hops .leaf target)) document' = some copied) ∧
      (∀ trail node, Apart trail (trailOf (hops .leaf target)) →
        Json.resolve trail document = some node → Json.resolve trail document' = some node) ∧
      ∀ above name below fields, trailOf (hops .leaf target) = above ++ .field name :: below →
        Json.resolve above document = some (.object fields) →
        ∃ fields', Json.resolve above document' = some (.object fields') ∧
          Entries.keys fields' = if name ∈ Entries.keys fields then Entries.keys fields
            else Entries.keys fields ++ [name] := by
  have hwrite := direct_of_apply hsize h
  rw [direct_simpleMove hpaths hsource htarget, Direct.copyOne_of_find? hvalue] at hwrite
  refine ⟨⟨_, Direct.translates_mapped move.mapping value, Direct.resolve_of_writeAt hwrite⟩, ?_, ?_⟩
  · intro trail node hapart hnode
    exact Direct.resolve_of_writeAt_of_apart hwrite hapart hnode
  · intro above name below fields htrail hobject
    exact Direct.exists_keys_of_writeAt hwrite htrail hobject

/-- An object is copied to an item of an array inside of it. The array is put in place of a text and
filled up. The table has nothing for an object, but it has a value for the text, which is copied to
the root in its place. -/
theorem apply_copies_node_into_itself :
    (∃ document', Move.apply ⟨"$.a", "$.a.b[1].c", some [("u", .bool true)]⟩
        (.object [("a", .object [("b", .text "u"), ("d", .null)]), ("e", .bool true)]) =
          .ok document' ∧
      Json.resolve [.field "a", .field "b", .index 1, .field "c"] document' =
        some (.object [("b", .text "u"), ("d", .null)]) ∧
      Json.resolve [.field "a", .field "d"] document' = some .null ∧
      ∃ fields, Json.resolve [.field "a"] document' = some (.object fields) ∧
        Entries.keys fields = ["b", "d"]) ∧
    ∃ document', Move.apply ⟨"$.a.b", "$", some [("u", .bool true)]⟩
        (.object [("a", .object [("b", .text "u"), ("d", .null)]), ("e", .bool true)]) =
          .ok document' ∧
      Json.resolve [] document' = some (.bool true) := by
  constructor
  · obtain ⟨document', happly⟩ := exists_ok_of_isOk (x :=
      Move.apply ⟨"$.a", "$.a.b[1].c", some [("u", .bool true)]⟩
        (.object [("a", .object [("b", .text "u"), ("d", .null)]), ("e", .bool true)]))
      (by decide +kernel)
    have hsource : ∀ component ∈ [Component.field "a"], component.IsSingle := by
      simp [Component.IsSingle, Component.isPattern]
    have htarget : ∀ component ∈ [Component.field "a", .arrayIndex "b" 1, .field "c"],
        component.IsSingle := by
      simp [Component.IsSingle, Component.isPattern]
    have htrail : trailOf (hops .leaf [.field "a", .arrayIndex "b" 1, .field "c"]) =
        [.field "a", .field "b", .index 1, .field "c"] := by decide +kernel
    obtain ⟨⟨copied, htranslates, hslot⟩, hframe, hkeys⟩ := apply_copies_node rfl hsource htarget
      (Json.sizedBelow_of_widest_lt _ (by decide)) rfl happly
    cases htranslates
    rw [htrail] at hslot hframe hkeys
    refine ⟨document', happly, hslot, ?_, ?_⟩
    · exact hframe [.field "a", .field "d"] .null (by decide) rfl
    · exact hkeys [.field "a"] "b" [.index 1, .field "c"] _ rfl rfl
  · obtain ⟨document', happly⟩ := exists_ok_of_isOk (x :=
      Move.apply ⟨"$.a.b", "$", some [("u", .bool true)]⟩
        (.object [("a", .object [("b", .text "u"), ("d", .null)]), ("e", .bool true)]))
      (by decide +kernel)
    have hsource : ∀ component ∈ [Component.field "a", .field "b"], component.IsSingle := by
      simp [Component.IsSingle, Component.isPattern]
    obtain ⟨⟨copied, htranslates, hslot⟩, -, -⟩ := apply_copies_node rfl hsource
      (List.forall_mem_nil _) (Json.sizedBelow_of_widest_lt _ (by decide)) rfl happly
    refine ⟨document', happly, ?_⟩
    cases htranslates with
    | hit htable hkey =>
      cases htable
      cases hkey
      exact hslot
    | miss h => cases h _ _ rfl rfl

end Reshape.Move
