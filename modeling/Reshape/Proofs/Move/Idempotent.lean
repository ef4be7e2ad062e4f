import Reshape.Proofs.Move.Cost
import Reshape.Proofs.Move.PatternMove
import Reshape.Proofs.Move.Settled

/-!
# Moves that are applied again

A move whose sources are not touched by what it writes changes nothing when it is applied again,
whatever it has made, turned into objects or arrays, or made longer the first time. It has to read
the same nodes, though: a move that writes into an item behind the last one of its own source array
has one more item to copy the next time.

* `Move.reads` and `Move.writes`, the trails of the nodes that a move reads and writes;
* `direct_again`, for the direct copy and for what its program takes;
* `apply_idempotent`, for moves that are applied.
-/

namespace Reshape.Move

/-- The trails of the nodes that a move reads on a document. -/
def reads (move : Move) (document : Json) : List (List Locator) :=
  match move.paths with
  | .error _ => []
  | .ok (source, target) =>
    match Strategy.select source target with
    | .patternMove =>
      match ArrayPath.ofComponents? source with
      | .ok source =>
        (List.range (itemCountAt (trailOf source.hops) document)).map fun index =>
          trailOf (source.slot .leaf index)
      | .error _ => []
    | _ => [trailOf (hops .object source)]

/-- The trails of the nodes that a move without an offset writes, from the document before and the
document behind it. -/
def writes (move : Move) (before after : Json) : List (List Locator) :=
  match move.paths with
  | .error _ => []
  | .ok (source, target) =>
    match Strategy.select source target with
    | .simpleMove => [trailOf (hops .leaf target)]
    | .replication =>
      match ArrayPath.ofComponents? target with
      | .ok target =>
        (List.range (itemCountAt (trailOf target.hops) after)).map fun index =>
          trailOf (target.slot .object index)
      | .error _ => []
    | .patternMove =>
      match ArrayPath.ofComponents? source, ArrayPath.ofComponents? target with
      | .ok source, .ok target =>
        (List.range (itemCountAt (trailOf source.hops) before)).map fun index =>
          trailOf (target.slot .leaf index)
      | _, _ => []

variable {move : Move} {source target : List Component} {document document' : Json} {limit : Nat}
  {effort : Effort}

theorem isSingle_of_simpleMove (h : Strategy.select source target = .simpleMove) :
    ∀ component ∈ target, component.IsSingle := by
  unfold Strategy.select at h
  split at h
  case isTrue => cases h
  case isFalse =>
    split at h
    case isTrue => cases h
    case isFalse hnone =>
      intro component hc
      exact Bool.eq_false_iff.2 fun hpattern => hnone (List.any_eq_true.2 ⟨component, hc, hpattern⟩)

theorem copyToEach_again {mapping : Option Mapping} {origin : List Hop} {around : ArrayPath}
    (hwell : around.WellFormed)
    (h : Direct.copyToEach limit mapping origin around.hops (hops .object around.after) document =
      .ok document')
    (heffort : Direct.effortToEach limit origin around.hops document = .ok effort)
    (hapart : ∀ index < itemCountAt (trailOf around.hops) document',
      Apart (trailOf origin) (trailOf (around.slot .object index))) :
    Direct.copyToEach limit mapping origin around.hops (hops .object around.after) document' =
        .ok document' ∧
      ∃ again, Direct.effortToEach limit origin around.hops document' = .ok again ∧
        again ≤ effort := by
  have hobject : FieldMode.object ≠ .array := by decide
  obtain ⟨items, hfilled, hrounds⟩ :=
    Direct.exists_filled_of_copyToEach h heffort hapart (endsOpen_hops hobject hwell.after)
  exact ⟨hfilled.copyToEach limit, _, hfilled.effortToEach limit, Nat.le_of_eq hrounds.symm,
    Nat.zero_le _⟩

theorem copyItems_again {mapping : Option Mapping} {origin around : ArrayPath}
    (hwell : around.WellFormed)
    (h : Direct.copyItems limit mapping none origin.hops (hops .leaf origin.after) around.hops
      (hops .leaf around.after) document = .ok document')
    (heffort : Direct.effortOfItems limit none origin.hops document = .ok effort)
    (hapart : ∀ read < itemCountAt (trailOf origin.hops) document,
      ∀ written < itemCountAt (trailOf origin.hops) document,
        Apart (trailOf (origin.slot .leaf read)) (trailOf (around.slot .leaf written)))
    (hsame : itemCountAt (trailOf origin.hops) document' =
      itemCountAt (trailOf origin.hops) document) :
    Direct.copyItems limit mapping none origin.hops (hops .leaf origin.after) around.hops
        (hops .leaf around.after) document' = .ok document' ∧
      ∃ again, Direct.effortOfItems limit none origin.hops document' = .ok again ∧
        again ≤ effort := by
  have hleaf : FieldMode.leaf ≠ .array := by decide
  have hcopied := Direct.copied_of_copyItems h hapart hsame (endsOpen_hops hleaf hwell.after)
  have hrounds := Direct.rounds_of_copyItems h heffort
  exact ⟨hcopied.copyItems limit, _, hcopied.effortOfItems limit, Nat.le_of_eq hrounds.symm,
    Nat.zero_le _⟩

/-- A direct copy that is made again changes nothing, and takes no more than the first time. -/
theorem direct_again (hpaths : move.paths = .ok (source, target))
    (hoffset : ∀ component ∈ target, ¬ component.IsOffset)
    (h : move.direct limit document = .ok document')
    (heffort : move.effort limit document = .ok effort)
    (hapart : ∀ read ∈ move.reads document, ∀ written ∈ move.writes document document',
      Apart read written)
    (hreads : move.reads document' = move.reads document) :
    move.direct limit document' = .ok document' ∧
      ∃ again, move.effort limit document' = .ok again ∧ again ≤ effort := by
  simp only [direct, Move.effort, reads, writes, hpaths] at h heffort hapart hreads ⊢
  cases hselect : Strategy.select source target with
  | simpleMove =>
    simp only [hselect, List.mem_singleton, forall_eq] at h heffort hapart ⊢
    have hleaf : FieldMode.leaf ≠ .array := by decide
    have hopen := endsOpen_hops hleaf (isSingle_of_simpleMove hselect)
    exact ⟨(Direct.settled_of_copyOne h hapart hopen).copyOne limit, effort, heffort,
      Nat.le_refl _, Nat.le_refl _⟩
  | replication =>
    simp only [hselect, List.mem_singleton, forall_eq] at h heffort hapart ⊢
    cases htarget : ArrayPath.ofComponents? target with
    | error e =>
      simp only [htarget] at heffort ⊢
      exact ⟨trivial, effort, heffort, Nat.le_refl _, Nat.le_refl _⟩
    | ok around =>
      simp only [htarget, List.forall_mem_map, List.mem_range] at h heffort hapart ⊢
      exact copyToEach_again (ArrayPath.ofComponents?_eq_ok.1 htarget).2 h heffort hapart
  | patternMove =>
    simp only [hselect] at h heffort hapart hreads ⊢
    cases hsource : ArrayPath.ofComponents? source with
    | error e =>
      simp only [hsource] at heffort ⊢
      exact ⟨trivial, effort, heffort, Nat.le_refl _, Nat.le_refl _⟩
    | ok origin =>
      cases htarget : ArrayPath.ofComponents? target with
      | error e =>
        simp only [hsource, htarget] at heffort ⊢
        exact ⟨trivial, effort, heffort, Nat.le_refl _, Nat.le_refl _⟩
      | ok around =>
        simp only [hsource, htarget, List.forall_mem_map, List.mem_range]
          at h heffort hapart hreads ⊢
        obtain ⟨hshape, hwell⟩ := ArrayPath.ofComponents?_eq_ok.1 htarget
        have hnone : around.offset? = none :=
          ArrayPath.offset?_eq_none (hoffset _ (by simp [hshape, ArrayPath.components]))
        rw [hnone] at h heffort ⊢
        -- The same nodes are read, so they are as many.
        have hsame : itemCountAt (trailOf origin.hops) document' =
            itemCountAt (trailOf origin.hops) document := by
          simpa using congrArg List.length hreads
        exact copyItems_again hwell h heffort hapart hsame

/-- **A move that is applied again changes nothing**, if every node that it reads parts from every
node that it writes, and it reads the same nodes both times. The first time it may have made, turned
or padded whatever is on its way. -/
theorem apply_idempotent (hpaths : move.paths = .ok (source, target))
    (hoffset : ∀ component ∈ target, ¬ component.IsOffset)
    (hsize : document.SizedBelow (2 ^ 52)) (h : move.apply document = .ok document')
    (hapart : ∀ read ∈ move.reads document, ∀ written ∈ move.writes document document',
      Apart read written)
    (hreads : move.reads document' = move.reads document) :
    move.apply document' = .ok document' := by
  obtain ⟨program, effort, hp, heffort, hrounds, hcost⟩ := spent_of_apply hsize h
  obtain ⟨hdirect, again, hagain, hle⟩ :=
    direct_again hpaths hoffset (direct_of_apply hsize h) heffort hapart hreads
  exact apply_of_direct hp hpaths hoffset hdirect hagain (Nat.le_trans hle.1 hrounds)
    (Nat.le_trans (Effort.instructions_mono hle program) hcost)

/-- Two items are copied, one of which has no text yet. The table has a value for the other. -/
theorem apply_idempotent_of_items :
    ∃ document', Move.apply ⟨"$.a[*].x", "$.b[*].y", some [("u", .bool true)]⟩
        (.object [("a", .array [.object [], .object [("x", .text "u")]])]) = .ok document' ∧
      document' = .object
        [("a", .array [.object [("x", .null)], .object [("x", .text "u")]]),
          ("b", .array [.object [("y", .null)], .object [("y", .bool true)]])] ∧
      Move.apply ⟨"$.a[*].x", "$.b[*].y", some [("u", .bool true)]⟩ document' =
        .ok document' := by
  have hsize : (Json.object [("a", .array [.object [], .object [("x", .text "u")]])]).SizedBelow
      (2 ^ 52) := Json.sizedBelow_of_widest_lt _ (by decide)
  obtain ⟨document', h⟩ := exists_ok_of_isOk (x :=
    Move.apply ⟨"$.a[*].x", "$.b[*].y", some [("u", .bool true)]⟩
      (.object [("a", .array [.object [], .object [("x", .text "u")]])])) (by decide +kernel)
  obtain rfl : document' = .object
      [("a", .array [.object [("x", .null)], .object [("x", .text "u")]]),
        ("b", .array [.object [("y", .null)], .object [("y", .bool true)]])] :=
    (Except.ok.inj (direct_of_apply hsize h)).symm
  refine ⟨_, h, rfl, ?_⟩
  refine @apply_idempotent _ [.arrayAll "a", .field "x"] [.arrayAll "b", .field "y"] _ _ rfl ?_
    hsize h (by decide +kernel) (by decide +kernel)
  simp [Component.IsOffset]

/-- The items of an array are copied into an item behind them, so there is one item more to copy the
next time. -/
theorem apply_twice_of_longer :
    ∃ document' document'', Move.apply ⟨"$.a[*]", "$.a[1].c[*]", none⟩
        (.object [("a", .array [.text "u"])]) = .ok document' ∧
      Move.paths ⟨"$.a[*]", "$.a[1].c[*]", none⟩ =
        .ok ([.arrayAll "a"], [.arrayIndex "a" 1, .arrayAll "c"]) ∧
      Json.SizedBelow (2 ^ 52) (.object [("a", .array [.text "u"])]) ∧
      (∀ read ∈ Move.reads ⟨"$.a[*]", "$.a[1].c[*]", none⟩ (.object [("a", .array [.text "u"])]),
        ∀ written ∈ Move.writes ⟨"$.a[*]", "$.a[1].c[*]", none⟩
          (.object [("a", .array [.text "u"])]) document', Apart read written) ∧
      Move.apply ⟨"$.a[*]", "$.a[1].c[*]", none⟩ document' = .ok document'' ∧
      document'' ≠ document' := by
  have hitems : position? 1 = some 1 := by decide +kernel
  have hdirect (document : Json) :
      Move.direct ({} : Limits).arrayPadding ⟨"$.a[*]", "$.a[1].c[*]", none⟩ document =
        Direct.copyItems ({} : Limits).arrayPadding none none [.field .array "a"] []
          [.field .array "a", .item (some 1), .field .array "c"] [] document := by
    rw [@direct_patternMove _ ⟨[], .arrayAll "a", []⟩ ⟨[.arrayIndex "a" 1], .arrayAll "c", []⟩ rfl
      ⟨List.forall_mem_nil _, trivial, List.forall_mem_nil _⟩
      ⟨by simp [Component.IsSingle, Component.isPattern], trivial, List.forall_mem_nil _⟩]
    simp only [ArrayPath.hops, hops, Component.hops, hitems]
    rfl
  obtain ⟨document', h⟩ := exists_ok_of_isOk (x :=
    Move.apply ⟨"$.a[*]", "$.a[1].c[*]", none⟩ (.object [("a", .array [.text "u"])]))
    (by decide +kernel)
  have hsize : (Json.object [("a", .array [.text "u"])]).SizedBelow (2 ^ 52) :=
    Json.sizedBelow_of_widest_lt _ (by decide)
  obtain rfl : document' = .object
      [("a", .array [.text "u", .object [("c", .array [.text "u"])]])] :=
    (Except.ok.inj ((hdirect _).symm.trans (direct_of_apply hsize h))).symm
  obtain ⟨document'', h'⟩ := exists_ok_of_isOk (x :=
    Move.apply ⟨"$.a[*]", "$.a[1].c[*]", none⟩
      (.object [("a", .array [.text "u", .object [("c", .array [.text "u"])]])]))
    (by decide +kernel)
  have hsize' : (Json.object [("a", .array [.text "u", .object [("c", .array [.text "u"])]])
      ]).SizedBelow (2 ^ 52) := Json.sizedBelow_of_widest_lt _ (by decide)
  obtain rfl : document'' = .object [("a", .array [.text "u",
      .object [("c", .array [.text "u", .object [("c", .array [.text "u"])]])]])] :=
    (Except.ok.inj ((hdirect _).symm.trans (direct_of_apply hsize' h'))).symm
  exact ⟨_, _, h, rfl, hsize, by decide +kernel, h', by simp⟩

end Reshape.Move
